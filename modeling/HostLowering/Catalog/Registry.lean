import HostLowering.Defect
import HostLowering.Catalog.Type
import HostLowering.Library.Names

set_option autoImplicit false

/-! # The registry of types

The registry holds the description of every type. All questions about inheritance are answered
from the *lineage* of a type: the type itself, its base, the base of that, and so on. A method or
a field is found on the first type of the lineage that declares it.
-/

namespace HostLowering.Catalog

open Machine

/-- The described types: the named ones in order of registration, and the callables by number. -/
structure Registry where
  types : Table String TypeInfo := []
  callables : Array Callable := #[]
deriving Inhabited

/-- The universal base. It also stands for a type that is not known. -/
def objectType : TypeRef := .named "object"
def functionType : TypeRef := .named "function"
def methodType : TypeRef := .named "method"
def noneType : TypeRef := .named "NoneType"
def intType : TypeRef := .named "int"
def boolType : TypeRef := .named "bool"
def strType : TypeRef := .named "str"
def tupleType : TypeRef := .named "tuple"
def listType : TypeRef := .named "list"
def dictType : TypeRef := .named "dict"
def setType : TypeRef := .named "set"
def sliceType : TypeRef := .named "slice"
def baseExceptionType : TypeRef := .named "BaseException"

namespace Registry

/-- The description of a type. A callable type declares nothing itself. -/
def info? (r : Registry) : TypeRef → Option TypeInfo
  | .named n => r.types.get? n
  | .callable i => (r.callables[i]?).map fun c =>
    if c.bound then
      { name := c.signature.name, host := Library.boundFunctionClass, base := some methodType }
    else { name := c.signature.name, host := Library.functionClass, base := some functionType }

def typeName (r : Registry) (t : TypeRef) : String := ((r.info? t).map TypeInfo.name).getD ""

def describe (r : Registry) : Option TypeRef → String
  | some t => r.typeName t
  | none => "<nil>"

def hostClass (r : Registry) (t : TypeRef) : String := ((r.info? t).map TypeInfo.host).getD ""

/-- The host class of a type that may be absent, absence meaning any object. -/
def hostClassOf (r : Registry) : Option TypeRef → String
  | some t => r.hostClass t
  | none => Library.objectClass

/-- How the host holds values of a type. -/
def kind (r : Registry) (t : TypeRef) : Kind := Kind.ofTypeName (r.hostClass t)

/-- The first `n` types of a lineage. -/
def lineageUpTo (r : Registry) : Nat → TypeRef → List TypeRef
  | 0, _ => []
  | n + 1, t =>
    match (r.info? t).bind TypeInfo.base with
    | some b => t :: lineageUpTo r n b
    | none => [t]

/-- A type, its base, the base of that, and so on. A chain that does not return to itself has at
most one callable type and every named type once. -/
def lineage (r : Registry) (t : TypeRef) : List TypeRef := r.lineageUpTo (r.types.length + 1) t

def lineageOf (r : Registry) : Option TypeRef → List TypeRef
  | some t => r.lineage t
  | none => []

def declared? (r : Registry) (name : String) (t : TypeRef) : Option Signature :=
  (r.info? t).bind fun i => i.methods.get? name

def method? (r : Registry) (t : Option TypeRef) (name : String) : Option Signature :=
  (r.lineageOf t).findSome? (r.declared? name)

def field? (r : Registry) (t : Option TypeRef) (name : String) : Option Field :=
  (r.lineageOf t).findSome? fun c => (r.info? c).bind fun i => i.fields.get? name

/-- The nearest type of the lineage that declares a method itself. -/
def definingType? (r : Registry) (t : Option TypeRef) (name : String) : Option TypeRef :=
  (r.lineageOf t).find? fun c => (r.declared? name c).isSome

/-- Whether `a` is `b` or derives from it. An absent type derives from nothing, and nothing derives
from it. -/
def isSubtype (r : Registry) (a b : Option TypeRef) : Bool :=
  (r.lineageOf a).any fun c => some c == b

/-- Whether one of two types derives from the other. -/
def related (r : Registry) (a b : Option TypeRef) : Bool := r.isSubtype a b || r.isSubtype b a

/-- The method that justifies a direct call. The universal base carries only protocol defaults, so
a method found there is none. -/
def lookup? (r : Registry) (t : Option TypeRef) (name : String) : Option Signature :=
  if t = none ∨ t = some objectType then none
  else match r.method? t name with
    | some s => if s.owner = some objectType then none else some s
    | none => none

/-- What is called when a value of the type is called, where that is known. -/
def callable? (r : Registry) : Option TypeRef → Option Callable
  | some (.callable i) => r.callables[i]?
  | _ => none

/-- Whether a call with positional arguments of the given types can be made directly. -/
def accepts (r : Registry) (s : Signature) (args : List (Option TypeRef)) : Bool :=
  (args.length ≤ s.params.length || s.varArgs.isSome) &&
    s.params.zipIdx.all fun (p, i) =>
      match args[i]? with
      | some a => p.type.isNone || r.isSubtype a p.type
      | none => p.isOptional

def showSignature (r : Registry) (s : Signature) : String :=
  let owner := match s.owner with
    | some t => r.typeName t ++ "."
    | none => ""
  let param (p : Param) : String :=
    p.name ++ (match p.type with | some t => ": " ++ r.typeName t | none => "")
      ++ (if p.isOptional then " = ..." else "")
  let params := s.params.map param ++ (if s.varArgs.isSome then ["*args"] else [])
    ++ (if s.varKwargs.isSome then ["**kwargs"] else [])
  let returns := match s.returns with
    | some t => " -> " ++ r.typeName t
    | none => ""
  let kind := if s.kind = .onReceiver then "" else " [" ++ s.kind.name ++ "]"
  owner ++ s.name ++ "(" ++ String.intercalate ", " params ++ ")" ++ returns ++ kind

def sortedTypes (r : Registry) : List TypeInfo :=
  r.types.values.mergeSort fun a b => !(b.name < a.name)

/-! ## Extending the registry -/

def alreadyRegistered (name : String) : String :=
  "catalog: type " ++ Text.quote name ++ " already registered"

/-- Add a type under its name, unless the name is taken. -/
def register? (r : Registry) (t : TypeInfo) : Option Registry :=
  if r.types.has t.name then none else some { r with types := r.types.set t.name t }

/-- Describe a new callable. -/
def addCallable (r : Registry) (c : Callable) : TypeRef × Registry :=
  (.callable r.callables.size, { r with callables := r.callables.push c })

def update (r : Registry) (name : String) (f : TypeInfo → TypeInfo) : Registry :=
  match r.types.get? name with
  | some t => { r with types := r.types.set name (f t) }
  | none => r

def setBase (r : Registry) (name : String) (base : Option TypeRef) : Registry :=
  r.update name fun t => { t with base }

/-- Declare a field backed by a host field of the same name. -/
def addField (r : Registry) (owner name : String) (type : TypeRef) : Registry :=
  r.update owner fun t =>
    { t with fields := t.fields.set name ⟨name, type, ⟨t.host, name, r.hostClass type⟩⟩ }

/-- The host type of one host parameter of a signature. -/
def hostParam (r : Registry) (s : Signature) (i : Nat) : Except Defect String :=
  if s.varArgs = some i then .ok Library.tupleClass
  else if s.varKwargs = some i then .ok Library.dictClass
  else
    let k := s.namedIndex i
    if 0 ≤ k then (need s.params[k.toNat]?).map fun p => r.hostClassOf p.type
    else .error .invalidAccess

def deriveMethod (r : Registry) (hostOwner : String) (s : Signature) : Except Defect MethodRef := do
  let params ← (List.range s.arity).mapM (r.hostParam s)
  return {
    owner := hostOwner
    name := s.name
    params := (if s.kind = .onClass then [Library.typeClass] else []) ++ params
    returns := r.hostClassOf s.returns }

/-- Declare a method on a named type. A signature without a host method gets the derived one. -/
def addMethod (r : Registry) (owner : String) (s : Signature) : Except Defect Registry := do
  let s := { s with owner := some (.named owner) }
  let hostOwner := r.hostClass (.named owner)
  let method ← if s.method.name = "" then r.deriveMethod hostOwner s else .ok s.method
  return r.update owner fun t => { t with methods := t.methods.set s.name { s with method } }

end Registry

end HostLowering.Catalog
