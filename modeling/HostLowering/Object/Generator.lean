import HostLowering.Object.Run

set_option autoImplicit false

/-! # Generators

A generator runs its method from the start at every resumption; the fields of its frame tell the
method where to go on. It is never resumed while it runs, and once it has returned, raised or been
thrown into before its start it is finished for ever.
-/

namespace HostLowering.Object

open Machine

def Generator.new (method : Method) (args : List Value) : Generator where
  method
  args
  fields := [
    (Library.yieldedValue.name, .null),
    (Library.generatorStack.name, .null),
    (Library.generatorState.name, .word (Int64.ofInt Library.stateStart)),
    (Library.yieldFromIterator.name, .null),
    (Library.sentValue.name, .null),
    (Library.thrownValue.name, .null)]

namespace Generator

/-- A field of the frame, null if it is not set. -/
def field (g : Generator) (name : String) : Value := (g.fields.get? name).getD .null

def inState (g : Generator) (n : Int) : Bool :=
  g.field Library.generatorState.name == .word (Int64.ofInt n)

def receive (g : Generator) (sent : Value) (thrown : Option Value) : Generator :=
  { g with
    fields := (g.fields.set Library.sentValue.name sent).set Library.thrownValue.name
      (thrown.getD .null) }

end Generator

namespace Effect

def changeGenerator (v : Value) (f : Generator → Generator) : Effect Unit := do
  let g ← require ((← get).generator? v)
  write v (.generator (f g))

def finishGenerator (v : Value) : Effect Unit := changeGenerator v ({ · with finished := true })

def afterRun (v : Value) : Except Stop Value → Effect Value
  | .error s => do
    finishGenerator v
    if endsIteration (← get) s then raise .runtimeError "generator raised StopIteration"
    else throw s
  | .ok _ => do
    let g ← require ((← get).generator? v)
    let yielded := g.field Library.yieldedValue.name
    if g.inState Library.stateFinished then
      finishGenerator v
      stopIteration yielded
    else return yielded

/-- Resume a generator until it yields, returns or raises. A thrown exception is raised where it is
suspended; otherwise the sent value arrives there. -/
def resume (call : Caller) (v : Value) (sent : Value) (thrown : Option Value) : Effect Value := do
  let g ← require ((← get).generator? v)
  if g.finished then
    match thrown with
    | some e => throw (.raised e)
    | none => stopIteration .none
  else if g.running then raise .valueError "generator already executing"
  else
    if g.inState Library.stateStart then
      if let some e := thrown then
        finishGenerator v
        throw (.raised e)
      if sent ≠ .none then
        raise .typeError "can't send non-None value to a just-started generator"
    changeGenerator v fun g => { g.receive sent thrown with running := true }
    let outcome ← attempt (runMethod call g.method (v :: g.args))
    changeGenerator v ({ · with running := false })
    afterRun v outcome

end Effect

end HostLowering.Object
