import HostLowering.Catalog.Registry
import HostLowering.Toml.Record

set_option autoImplicit false

/-! # Catalog files

A catalog file declares types. The types of a file may refer to each other in any order; a type
name that is left out means any object. Loading a file either registers all its types or none.
-/

namespace HostLowering.Catalog

open Machine Toml

/-! ## The form of a file -/

structure FileField where
  name : String := ""
  type : String := ""
deriving Repr, Inhabited

/-- A parameter as a file declares it; the default is a static field `Owner.Name`. -/
structure FileParam where
  name : String := ""
  type : String := ""
  defaultField : String := ""
  nullable : Bool := false
deriving Repr, Inhabited

structure FileMethod where
  name : String := ""
  kind : String := ""
  returns : String := ""
  params : List FileParam := []
  varArgs : Bool := false
  varKwargs : Bool := false
  mayNotImplement : Bool := false
deriving Repr, Inhabited

structure FileType where
  name : String := ""
  host : String := ""
  base : String := ""
  fields : List FileField := []
  methods : List FileMethod := []
deriving Repr, Inhabited

def FileField.ofValue? (v : Value) : Option FileField :=
  v.table?.bind <| readRecord ["name", "type"] (fun r f v => do
    match f with
    | "name" => return { r with name := ← v.string? }
    | _ => return { r with type := ← v.string? }) {}

def FileParam.ofValue? (v : Value) : Option FileParam :=
  v.table?.bind <| readRecord ["name", "type", "default", "nullable"] (fun r f v => do
    match f with
    | "name" => return { r with name := ← v.string? }
    | "type" => return { r with type := ← v.string? }
    | "default" => return { r with defaultField := ← v.string? }
    | _ => return { r with nullable := ← v.bool? }) {}

def FileMethod.ofValue? (v : Value) : Option FileMethod :=
  v.table?.bind <| readRecord
    ["name", "kind", "returns", "param", "varargs", "varkwargs", "not-implemented"] (fun r f v => do
    match f with
    | "name" => return { r with name := ← v.string? }
    | "kind" => return { r with kind := ← v.string? }
    | "returns" => return { r with returns := ← v.string? }
    | "param" => return { r with params := ← v.list? FileParam.ofValue? }
    | "varargs" => return { r with varArgs := ← v.bool? }
    | "varkwargs" => return { r with varKwargs := ← v.bool? }
    | _ => return { r with mayNotImplement := ← v.bool? }) {}

def FileType.ofValue? (v : Value) : Option FileType :=
  v.table?.bind <| readRecord ["name", "host", "base", "field", "method"] (fun r f v => do
    match f with
    | "name" => return { r with name := ← v.string? }
    | "host" => return { r with host := ← v.string? }
    | "base" => return { r with base := ← v.string? }
    | "field" => return { r with fields := ← v.list? FileField.ofValue? }
    | _ => return { r with methods := ← v.list? FileMethod.ofValue? }) {}

def fileTypes? (bs : List UInt8) : Option (List FileType) := do
  let d ← Document.ofBytes? bs
  readRecord ["type"] (fun _ _ v => v.list? FileType.ofValue?) [] d.root

/-! ## Loading -/

/-- Why a file cannot be loaded. -/
inductive LoadError where
  | unreadable
  | incompleteType
  | declaredTwice (type : String)
  | alreadyRegistered (type : String)
  | unknownBase (type : String) (name : String)
  | unknownFieldType (type field : String) (name : String)
  | unknownCallKind (type method : String) (kind : String)
  | unknownReturnType (type method : String) (name : String)
  | unknownParamType (type method param : String) (name : String)
  | badDefault (type method param : String) (text : String)
  | cyclicBase (type : String)
  /-- The registry would not take a type of the file. -/
  | refused (type : String)
deriving DecidableEq, Repr

def LoadError.message : LoadError → String
  | unreadable => "parse error"
  | incompleteType => "type needs both name and host"
  | declaredTwice t => "type " ++ Text.quote t ++ " declared twice"
  | alreadyRegistered t => "type " ++ Text.quote t ++ " already registered"
  | unknownBase t n => "type " ++ t ++ ": base: unknown type " ++ Text.quote n
  | unknownFieldType t f n => "type " ++ t ++ ": field " ++ f ++ ": unknown type " ++ Text.quote n
  | unknownCallKind t m k => "type " ++ t ++ ": method " ++ m ++ ": " ++ CallKind.unknownMessage k
  | unknownReturnType t m n =>
    "type " ++ t ++ ": method " ++ m ++ ": returns: unknown type " ++ Text.quote n
  | unknownParamType t m p n =>
    "type " ++ t ++ ": method " ++ m ++ ": param " ++ p ++ ": unknown type " ++ Text.quote n
  | badDefault t m p d =>
    "type " ++ t ++ ": method " ++ m ++ ": param " ++ p ++ ": default " ++ Text.quote d
      ++ " is not Owner.Name"
  | cyclicBase t => "type " ++ t ++ ": base chain is cyclic"
  | refused t => Registry.alreadyRegistered t

def addNames (r : Registry) : Registry → List FileType → Except LoadError Registry
  | r', [] => .ok r'
  | r', t :: rest =>
    if t.name = "" ∨ t.host = "" then .error .incompleteType
    else if r.types.has t.name then .error (.alreadyRegistered t.name)
    else match r'.register? { name := t.name, host := t.host } with
      | some r' => addNames r r' rest
      | none => .error (.declaredTwice t.name)

/-- The type with a name; the empty name means any object. -/
def resolveName (r : Registry) (name : String) : Option TypeRef :=
  if name = "" then some objectType
  else if r.types.has name then some (.named name)
  else none

def resolveOr (r : Registry) (name : String) (e : LoadError) : Except LoadError TypeRef :=
  match resolveName r name with
  | some t => .ok t
  | none => .error e

/-- The static field named by `Owner.Name`, split at the last dot. -/
def splitDefault? (s : String) : Option (String × String) :=
  let reversed := s.toList.reverse
  let name := reversed.takeWhile (· ≠ '.')
  let owner := (reversed.drop (name.length + 1)).reverse
  if name.isEmpty || owner.isEmpty then none
  else some (String.ofList owner, String.ofList name.reverse)

def FileParam.resolve (r : Registry) (type method : String) (p : FileParam) :
    Except LoadError Param := do
  let t ← resolveOr r p.type (.unknownParamType type method p.name p.type)
  let param : Param := { name := p.name, type := some t, nullable := p.nullable }
  if p.defaultField = "" then return param
  match splitDefault? p.defaultField with
  | some (owner, name) => return { param with defaultField := some ⟨owner, name, r.hostClass t⟩ }
  | none => throw (.badDefault type method p.name p.defaultField)

def FileMethod.resolve (r : Registry) (type : String) (m : FileMethod) :
    Except LoadError Signature := do
  let kind ← match CallKind.ofName? m.kind with
    | some k => .ok k
    | none => .error (.unknownCallKind type m.name m.kind)
  let returns ← resolveOr r m.returns (.unknownReturnType type m.name m.returns)
  let params ← m.params.mapM (FileParam.resolve r type m.name)
  let s : Signature :=
    { name := m.name, kind, params, returns := some returns, mayNotImplement := m.mayNotImplement }
  let s := if m.varArgs then s.withVarArgs else s
  return if m.varKwargs then s.withVarKwargs else s

/-- The registry with the base, fields and methods of a type filled in. -/
def FileType.define (r : Registry) (t : FileType) : Except LoadError Registry := do
  let base ← resolveOr r t.base (.unknownBase t.name t.base)
  let r := r.setBase t.name (some base)
  let r ← t.fields.foldlM (fun r f => do
    let type ← resolveOr r f.type (.unknownFieldType t.name f.name f.type)
    return r.addField t.name f.name type) r
  t.methods.foldlM (fun r m => do
    let s ← m.resolve r t.name
    match r.addMethod t.name s with
    | .ok r => .ok r
    | .error _ => .error .unreadable) r

/-- Whether the chain of bases of a type returns to a type it has passed: the lineage then fills up
without reaching a type that has no base. -/
def Registry.isCyclic (r : Registry) (t : TypeRef) : Bool :=
  let chain := r.lineage t
  match chain.getLast? with
  | some last => ((r.info? last).bind TypeInfo.base).isSome
  | none => false

/-- A copy of the registry with the types of a file described in it. All that can be wrong with a
file is found out here. -/
def Registry.withDescribed (r : Registry) (types : List FileType) : Except LoadError Registry := do
  let named ← addNames r r types
  let described ← types.foldlM FileType.define named
  match types.find? fun t => described.isCyclic (.named t.name) with
  | some t => .error (.cyclicBase t.name)
  | none => .ok described

/-- Loading changes a registry step by step and may stop at any step. -/
abbrev Loading := ExceptT LoadError (StateM Registry)

namespace Loading

/-- Register described types one after the other. -/
def registerEach : List TypeInfo → Loading Unit
  | [] => pure ()
  | t :: rest => do
    match (← get).register? t with
    | some r =>
      set r
      registerEach rest
    | none => throw (.refused t.name)

def types (ts : List FileType) : Loading Unit := do
  let described ← MonadExcept.ofExcept ((← get).withDescribed ts)
  registerEach (ts.filterMap fun t => described.types.get? t.name)

def file (bs : List UInt8) : Loading Unit :=
  match fileTypes? bs with
  | some ts => types ts
  | none => throw .unreadable

end Loading

/-- What comes of loading a file, and the registry afterwards. -/
def Registry.load (r : Registry) (bs : List UInt8) : Except LoadError Unit × Registry :=
  (Loading.file bs).run.run r

end HostLowering.Catalog
