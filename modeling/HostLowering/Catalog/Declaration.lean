import HostLowering.Catalog.Registry

set_option autoImplicit false

/-! # Declarations

A group of types is declared in two passes: first all names are registered, then the bases,
fields and methods are filled in, so that the declarations of a group may refer to each other.
-/

namespace HostLowering.Catalog

open Machine

/-- A type as a declaration spells it. -/
inductive TypeSpec where
  | absent
  | named (name : String)
  /-- The type of the function that is the method of a type. -/
  | function (type : TypeSpec) (method : String)
  /-- The type of the method of a type bound to a receiver. -/
  | bound (type : TypeSpec) (method : String)
deriving DecidableEq, Repr, Inhabited

structure ParamSpec where
  name : String
  type : TypeSpec
  nullable : Bool
  defaultField : Option FieldRef
deriving Repr, Inhabited

/-- A variadic parameter of either sort. -/
inductive Variadic where
  | args | kwargs
deriving DecidableEq, Repr, Inhabited

structure MethodSpec where
  name : String
  kind : CallKind
  returns : TypeSpec
  params : List ParamSpec
  variadics : List Variadic
  mayNotImplement : Bool
  method : Option MethodRef
deriving Repr, Inhabited

structure TypeDecl where
  name : String
  host : String
  base : TypeSpec
  fields : List (String × TypeSpec)
  methods : List MethodSpec
deriving Repr, Inhabited

/-- A computation that may describe new callables. -/
abbrev Describing := StateT Registry (Except Defect)

namespace TypeSpec

def callable (t : Option TypeRef) (method : String) (bound : Bool) :
    Describing TypeRef := fun r => do
  let s ← need (r.method? t method)
  return r.addCallable ⟨s, bound⟩

/-- The type a spelling stands for. -/
def resolve : TypeSpec → Describing (Option TypeRef)
  | absent => pure none
  | named n => return if (← get).types.has n then some (.named n) else none
  | function t m => do
    let t ← t.resolve
    return some (← callable t m false)
  | bound t m => do
    let t ← t.resolve
    return some (← callable t m true)

end TypeSpec

def ParamSpec.resolve (p : ParamSpec) : Describing Param := do
  let type ← p.type.resolve
  return { name := p.name, type, nullable := p.nullable, defaultField := p.defaultField }

def MethodSpec.resolve (m : MethodSpec) : Describing Signature := do
  let returns ← m.returns.resolve
  let params ← m.params.mapM ParamSpec.resolve
  let s : Signature := {
    name := m.name, kind := m.kind, params, returns
    mayNotImplement := m.mayNotImplement, method := m.method.getD {} }
  return m.variadics.foldl (fun s v =>
    match v with
    | .args => s.withVarArgs
    | .kwargs => s.withVarKwargs) s

/-- Fill in the base, fields and methods of a registered type. A field needs a type. -/
def TypeDecl.define (d : TypeDecl) : Describing Unit := do
  let base ← d.base.resolve
  modify fun r => r.setBase d.name base
  for (name, spec) in d.fields do
    let type ← need (← spec.resolve)
    modify fun r => r.addField d.name name type
  for m in d.methods do
    let s ← m.resolve
    let r ← (← get).addMethod d.name s
    set r

/-- Register the names of a group of declarations, or give the first name that is taken. -/
def Registry.registerAll : Registry → List TypeDecl → Except String Registry
  | r, [] => .ok r
  | r, d :: rest =>
    match r.register? { name := d.name, host := d.host } with
    | some r => registerAll r rest
    | none => .error d.name

/-- Fill in a group of registered declarations in order. -/
def Registry.defineAll (r : Registry) (ds : List TypeDecl) : Except Defect Registry := do
  let (_, r) ← (ds.forM TypeDecl.define).run r
  return r

end HostLowering.Catalog
