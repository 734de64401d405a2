import HostLowering.Scenario.Declaration

set_option autoImplicit false

/-! # Actions of a program

What can be done from outside with the values of a program, and how the outcome is shown.
-/

namespace HostLowering.Scenario

open Object

inductive Action where
  | keep (name : String) (action : Action)
  | value (e : Expr)
  | call (callee : Expr) (args : List Expr) (keywords : List (Expr × Expr))
  | run (code : String) (args : List Expr)
  | callMethod (receiver : Expr) (name : String) (args : List Expr)
  | getAttribute (receiver : Expr) (name : String)
  /-- An attribute, or the text `missing`. -/
  | findAttribute (receiver : Expr) (name : String)
  | bind (function : Expr) (args : List Expr) (keywords : List (Expr × Expr))
  | truth (e : Expr)
  | equal (a b : Expr)
  | identical (a b : Expr)
  | isInstance (e : Expr) (cls : String)
  | iterate (e : Expr)
  | typeName (e : Expr)
  | resume (generator sent : Expr) (thrown : Option Expr)
  | generatorField (generator : Expr) (name : String)
  | dictGet (dict : Expr) (key : String)
  | definingClass (cls name : String)
  | classAt (host : String)
  | static (cls name : String)
deriving Inhabited

/-- The text for something that is not there. -/
def missing : Value := .text "missing"

namespace Action

def arguments (args : List Expr) (keywords : List (Expr × Expr)) :
    Effect (List Value × List (Value × Value)) := do
  let args ← Effect.evalAll Effect.perform args
  return (args, ← Effect.evalEntries Effect.perform keywords [])

/-- The value under a name in a dict. A key that is no text counts as the empty name. -/
def lookUp (w : World) (entries : List (Value × Value)) (key : String) : Option Value :=
  (entries.find? fun e => w.textOf e.1 == key).map Prod.snd

def perform : Action → Effect Value
  | keep name action => do
    let v ← action.perform
    modify fun w => { w with vars := w.vars.set name v }
    return v
  | value e => evaluate e
  | call callee args keywords => do
    let f ← evaluate callee
    let (args, keywords) ← arguments args keywords
    Effect.perform (.value f args keywords)
  | run code args => do
    let m ← Effect.codeNamed code
    Effect.runMethod Effect.perform m (← Effect.evalAll Effect.perform args)
  | callMethod receiver name args => do
    let v ← evaluate receiver
    Effect.callMethod Effect.perform v name (← Effect.evalAll Effect.perform args)
  | getAttribute receiver name => do Effect.getAttribute (← evaluate receiver) name
  | findAttribute receiver name => do
    return (← Effect.getAttribute? (← evaluate receiver) name).getD missing
  | bind function args keywords => do
    let f ← Effect.require ((← get).function? (← evaluate function))
    let (args, keywords) ← arguments args keywords
    let values ← Effect.bind f args keywords
    let n := f.params.length
    Effect.newGrown .tuple (values.take n) (values.drop n)
  | truth e => do return .flag (← Effect.truth Effect.perform (← evaluate e))
  | equal a b => do
    let a ← evaluate a
    let b ← evaluate b
    return .flag ((← get).equal a b)
  | identical a b => do
    let a ← evaluate a
    let b ← evaluate b
    return .flag (a == b)
  | isInstance e cls => do
    let v ← evaluate e
    let c ← Effect.classNamed cls
    return .flag ((← get).isInstance v c)
  | iterate e => do
    let v ← evaluate e
    let items ← Effect.iterate Effect.perform v
    match (← get).object? v with
    | some (.sequence ..) | some (.dict _) => Effect.newCopy .list items
    | _ => Effect.newGrown .list [] items
  | typeName e => do
    let v ← evaluate e
    return .text ((← get).typeName v)
  | resume generator sent thrown => do
    let g ← evaluate generator
    let s ← evaluate sent
    let t ← thrown.mapM fun e => do
      let v ← evaluate e
      let (_, _) ← Effect.require ((← get).record? v)
      return v
    Effect.resume Effect.perform g s t
  | generatorField generator name => do
    let g ← Effect.require ((← get).generator? (← evaluate generator))
    return g.field name
  | dictGet dict key => do
    let entries ← Effect.require ((← get).dict? (← evaluate dict))
    return (lookUp (← get) entries key).getD missing
  | definingClass cls name => do
    let c ← Effect.classNamed cls
    return (((← get).definingClass? c name).map Value.cls).getD .null
  | classAt host => return (((← get).byHost.get? host).map Value.cls).getD missing
  | static cls name => do
    let c ← Effect.classNamed cls
    return (((← get).info c).statics.get? name).getD .null

end Action

/-! ## Outcomes -/

/-- The outcome of an action as it is shown. -/
inductive Outcome where
  | value (v : View)
  | raised (message : Option String) (exception : View)
  | fault (message : String)
  | defect (d : Defect)
  | outOfFuel
deriving Inhabited

/-- Whether nothing can follow an outcome. -/
def Outcome.isLast : Outcome → Bool
  | defect _ | outOfFuel => true
  | _ => false

def Outcome.ofResult (w : World) : Except Stop Value → Outcome
  | .ok v => value (w.view v)
  | .error (.raised e) => raised (w.exceptionText? e) (w.view e)
  | .error (.fault f) => fault f.message
  | .error (.defect d) => defect d
  | .error .outOfFuel => outOfFuel

/-- A report of an action: its outcome, and the calls of scripted functions meanwhile. -/
structure Report where
  outcome : Outcome
  log : List (String × List View)
deriving Inhabited

def Action.report (a : Action) (w : World) : Report × World :=
  let (r, w) := a.perform.run.run { w with log := #[] }
  (⟨.ofResult w r, w.log.toList⟩, w)

end HostLowering.Scenario
