import HostLowering.Catalog.Registry
import HostLowering.Object.Initial
import HostLowering.Object.Perform

set_option autoImplicit false

/-! # Declaring classes and functions

What a program needs before it runs: classes, either of the registry or new ones, scripted
functions, and lowered code as functions.
-/

namespace HostLowering.Scenario

open Machine Catalog Object

structure FunctionDecl where
  name : String
  params : List String
  defaults : List (String × Expr)
  varArgs : Bool
  varKwargs : Bool
  classMethod : Bool
  static : Bool
  script : Script
deriving Inhabited

inductive BaseDecl where
  | object
  | none
  | named (name : String)
deriving DecidableEq, Repr, Inhabited

inductive ClassOrigin where
  | ofType (t : TypeInfo)
  | new (name host : String) (base : BaseDecl)
deriving Inhabited

structure ClassDecl where
  origin : ClassOrigin
  methods : List FunctionDecl
  attributes : List (String × Expr)
  statics : List (String × Expr)
deriving Inhabited

/-- Why the class of a type cannot be defined. -/
inductive DefineError where
  | noBase (type : String)
  | baseMissing (base type : String)
deriving DecidableEq, Repr, Inhabited

def DefineError.message : DefineError → String
  | noBase t => "sim: type " ++ t ++ " has no base"
  | baseMissing b t => "sim: base " ++ b ++ " of " ++ t ++ " is not defined"

/-- The class of a type of the registry, defined if its host class is not known yet. -/
def defineType (r : Registry) (w : World) (t : TypeInfo) : Except DefineError (ClassId × World) :=
  match w.byHost.get? t.host, t.base with
  | some c, _ => .ok (c, w)
  | none, none => .error (.noBase t.name)
  | none, some b =>
    match w.byHost.get? (r.hostClass b) with
    | some base => .ok (w.defineClass t.name t.host (some base))
    | none => .error (.baseMissing (r.typeName b) t.name)

/-- The functions called by a program from outside, and its values. -/
def evaluate (e : Expr) : Effect Value := Effect.eval Effect.perform e

def evaluateNamed (es : List (String × Expr)) : Effect (List (String × Value)) :=
  es.mapM fun (name, e) => return (name, ← evaluate e)

/-- The function of a declaration, logged under a label. -/
def FunctionDecl.function (d : FunctionDecl) (label : String) : Effect Function := do
  let defaults ← evaluateNamed d.defaults
  return {
    name := d.name
    params := d.params
    defaults := defaults.foldl (fun t (name, v) => t.set name v) []
    varArgs := d.varArgs
    varKwargs := d.varKwargs
    classMethod := d.classMethod
    static := d.static
    body := .script label d.script }

/-- Give a class its methods, attributes and static fields. -/
def ClassDecl.fill (d : ClassDecl) (c : ClassId) : Effect Unit := do
  let name := (← get).className c
  d.methods.forM fun m => do
    let f ← m.function (name ++ "." ++ m.name)
    modify fun w => w.addFunction c f
  d.attributes.forM fun (name, e) => do
    let v ← evaluate e
    modify fun w => w.setAttribute c name v
  d.statics.forM fun (name, e) => do
    let v ← evaluate e
    modify fun w => w.setStatic c name v

def BaseDecl.resolve (w : World) : BaseDecl → Except Stop (Option ClassId)
  | object => .ok (some .object)
  | none => .ok .none
  | named name =>
    match w.byName.get? name with
    | some c => .ok (some c)
    | .none => .error (.defect .invalidAccess)

def ClassDecl.declare (r : Registry) (d : ClassDecl) : Effect (Except DefineError Unit) := do
  match d.origin with
  | .ofType t =>
    match defineType r (← get) t with
    | .error e => return .error e
    | .ok (c, w) =>
      set w
      d.fill c
      return .ok ()
  | .new name host base =>
    let w ← get
    match base.resolve w with
    | .error s => throw s
    | .ok b =>
      let (c, w) := w.defineClass name host b
      set w
      d.fill c
      return .ok ()

def nameFunction (name : String) (f : Function) : Effect Unit := do
  let v ← Effect.alloc (.function f)
  modify fun w => { w with functions := w.functions.set name v }

def FunctionDecl.declare (d : FunctionDecl) : Effect Unit := do
  nameFunction d.name (← d.function d.name)

/-- Declare code as a function with the given parameters. -/
def declareCode (name : String) (m : Method) (generator : Bool) (params : List String) :
    Effect Unit := do
  modify fun w => { w with code := w.code.set name m }
  nameFunction name {
    name := m.name
    params
    body := if generator then .generator m else .lowered m }

end HostLowering.Scenario
