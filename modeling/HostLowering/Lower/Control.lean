import HostLowering.Lower.Protocol

set_option autoImplicit false

/-! # Jumps and iteration

A jump to a source offset records the snapshot that the target must accept; all jumps to one target
must agree. The entry of an exception handler is not a target.
-/

namespace HostLowering.Lower.Lowering

open Machine Catalog

/-- Whether control may join with both snapshots. -/
def compatible (a b : Snapshot) : Lowering Bool := return a.compatible (← get).registry b

/-- Branch to a source offset. -/
def jumpTo (op : Opcode) (target : Int) : Lowering Unit := do
  let s ← get
  if s.handlers.contains target then fail (.jumpIntoHandler target)
  else
    let agrees ← match s.expected[target]? with
      | some e =>
        if ← compatible e s.stack then pure true
        else
          fail (.jumpJoin target (← showStack s.stack) (← showStack e))
          pure false
      | none =>
        modify fun s => { s with expected := s.expected.insert target s.stack }
        pure true
    if agrees then branch op (← offsetLabel target)

/-- Control does not go on after the current operation. -/
def stop : Lowering Unit := modify fun s => { s with reachable := false }

def jump (target : Int) : Lowering Unit := do
  jumpTo .goto target
  stop

/-- The comparison of references that branches when they are equal, or when they are not. -/
def compare (equal : Bool) : Opcode := if equal then .ifAcmpeq else .ifAcmpne

/-- Pop the top slot and jump if its truth value is the given one. -/
def popJumpIf (value : Bool) (target : Int) : Lowering Unit := do
  toBool
  drop 1
  getStatic Library.trueField
  jumpTo (compare value) target

/-- Jump if the truth value of the top slot is the given one, and pop the slot otherwise. -/
def jumpIfOrPop (value : Bool) (target : Int) : Lowering Unit := do
  duplicate 0
  popJumpIf value target
  discardTop

/-- Pop the top slot and jump if it is none, or if it is not. -/
def popJumpIfNone (isNone : Bool) (target : Int) : Lowering Unit := do
  drop 1
  getStatic Library.noneField
  jumpTo (compare isNone) target

/-- Push the next item of the iterator on top. At the end of the iteration the iterator is dropped
and control continues at the target; the handler for that enters with an empty stack, so a copy of
the stack is kept. -/
def forIter (target : Int) : Lowering Unit := do
  let ts ← copyOut (← stack).length
  let start ← newLabel
  let ended ← newLabel
  let exhausted ← newLabel
  let continued ← newLabel
  mark start
  emit [.dup]
  callUnary "__next__"
  mark ended
  branch .goto continued
  mark exhausted
  tryCatch start ended exhausted Library.stopIterationClass
  emit [.pop]
  let inLoop ← stack
  setStack []
  reload (ts.drop 1)
  jumpTo .goto target
  setStack inLoop
  mark continued
  pushType objectType
  release ts

end HostLowering.Lower.Lowering
