import HostLowering.Table
import HostLowering.Machine.Reference
import HostLowering.Text.Quoted

set_option autoImplicit false

/-! # Static types and signatures

A static type says what is known of a value before the code runs: its host class, its base, the
attributes backed by host fields and the signatures of its methods. Types refer to each other
freely, so a type is named by a `TypeRef` and its description is kept in a registry. A named type
is identified by its name. A value known to be one particular function or bound method has a
*callable* type, which is identified by the number it got when it was described.
-/

namespace HostLowering.Catalog

open Machine

/-- A reference to a described type. -/
inductive TypeRef where
  | named (name : String)
  | callable (number : Nat)
deriving DecidableEq, Repr, Inhabited

/-! ## Signatures -/

/-- How the host calls a method: on its receiver, without one, or with the type object of the
receiver as the first argument. -/
inductive CallKind where
  | onReceiver | static | onClass
deriving DecidableEq, Repr, Inhabited

namespace CallKind

def name : CallKind → String
  | onReceiver => "virtual"
  | static => "static"
  | onClass => "classmethod"

/-- The text of an unknown spelling. -/
def unknownMessage (s : String) : String := "unknown call kind " ++ Text.quote s

/-- The call kind with the given spelling; the empty text stands for `virtual`. -/
def ofName? : String → Option CallKind
  | "virtual" => some onReceiver
  | "" => some onReceiver
  | "static" => some static
  | "classmethod" => some onClass
  | _ => none

/-- The spelling of a call kind number; numbers without a call kind are shown as such. -/
def describeCode : UInt8 → String
  | 0 => onReceiver.name
  | 1 => static.name
  | 2 => onClass.name
  | n => "CallKind(" ++ toString n.toNat ++ ")"

end CallKind

/-- A named parameter. A parameter with a default value, held in a static field, or that may be
null can be left out of a call. -/
structure Param where
  name : String
  type : Option TypeRef := none
  defaultField : Option FieldRef := none
  nullable : Bool := false
deriving DecidableEq, Repr, Inhabited

/-- Whether the parameter may be left out of a call. -/
def Param.isOptional (p : Param) : Bool := p.defaultField.isSome || p.nullable

/-- The description of a method. The variadic positions are indices into the host parameters, not
counting a receiver or class argument: `varArgs` collects surplus positional arguments in a tuple,
`varKwargs` unmatched keywords in a dict. -/
structure Signature where
  owner : Option TypeRef := none
  name : String
  method : MethodRef := {}
  kind : CallKind := .onReceiver
  params : List Param := []
  varArgs : Option Nat := none
  varKwargs : Option Nat := none
  returns : Option TypeRef := none
  mayNotImplement : Bool := false
deriving DecidableEq, Repr, Inhabited

namespace Signature

/-- The number of host parameters, not counting a receiver or class argument. -/
def arity (s : Signature) : Nat :=
  s.params.length + (if s.varArgs.isSome then 1 else 0) + (if s.varKwargs.isSome then 1 else 0)

/-- The signature with a tuple of surplus positional arguments behind its parameters. -/
def withVarArgs (s : Signature) : Signature := { s with varArgs := some s.arity }

/-- The signature with a dict of unmatched keywords behind its parameters. -/
def withVarKwargs (s : Signature) : Signature := { s with varKwargs := some s.arity }

def paramIndex? (s : Signature) (name : String) : Option Nat :=
  s.params.findIdx? fun p => p.name == name

/-- The number of parameters that cannot be left out. -/
def required (s : Signature) : Nat := s.params.countP fun p => !p.isOptional

/-- The index of the named parameter carried by a host parameter that is not variadic. -/
def namedIndex (s : Signature) (i : Nat) : Int :=
  let before (v : Option Nat) : Int := if v.any (· < i) then 1 else 0
  i - before s.varArgs - before s.varKwargs

/-- The opcode that invokes the method. -/
def opcode (s : Signature) : Opcode :=
  match s.kind with
  | .onReceiver => if s.method.isInterface then .invokeinterface else .invokevirtual
  | _ => .invokestatic

end Signature

/-! ## Types -/

/-- An attribute backed by a host field. -/
structure Field where
  name : String
  type : TypeRef
  host : FieldRef
deriving DecidableEq, Repr, Inhabited

/-- The description of a type: its host class, its base, and the fields and methods it declares
itself. -/
structure TypeInfo where
  name : String
  host : String
  base : Option TypeRef := none
  fields : Table String Field := []
  methods : Table String Signature := []
deriving DecidableEq, Repr, Inhabited

namespace TypeInfo

def sortedMethods (t : TypeInfo) : List Signature :=
  t.methods.values.mergeSort fun a b => !(b.name < a.name)

def sortedFields (t : TypeInfo) : List Field :=
  t.fields.values.mergeSort fun a b => !(b.name < a.name)

end TypeInfo

/-- A value known to be one function, or that function bound to a receiver. -/
structure Callable where
  signature : Signature
  bound : Bool
deriving DecidableEq, Repr, Inhabited

end HostLowering.Catalog
