import HostLowering.Lower.Control

set_option autoImplicit false

/-! # Exceptions

A region of the source transfers control to its handler and keeps the bottom of the operand stack.
The host enters a handler with the exception alone, so the kept slots are saved in persistent
locals where the region opens and loaded again where the handler begins. Two more persistent locals
hold the current exception and the one before it.
-/

namespace HostLowering.Lower

open Machine Catalog

/-- An exception region that opens at the current instruction: where it ends, its handler, how many
slots from the bottom are kept, and whether the handler wants the index of the raising
instruction. -/
structure Region where
  stop : Int
  target : Int
  depth : Int
  lasti : Bool
deriving DecidableEq, Repr, Inhabited

namespace HandlerEntry

/-- The snapshot of the kept slots. -/
def snapshot (h : HandlerEntry) : Snapshot := (h.kept.map Prod.snd).reverse

end HandlerEntry

namespace Lowering

/-! ## Regions and handlers -/

/-- The handler of a region: the one known for its target, which must keep the same slots, or a new
one. Nothing after a failure. -/
def regionHandler (r : Region) (saved : Snapshot) : Lowering (Option HandlerEntry) := do
  let s ← get
  match s.handlers[r.target]? with
  | some h =>
    if h.lasti = r.lasti then
      if ← compatible h.snapshot saved then return some h
    fail (.regionStack (← showStack saved) r.target (← showStack h.snapshot))
    return none
  | none =>
    if s.expected.contains r.target then
      fail (.jumpIntoHandler r.target)
      return none
    else
      let kept ← saved.reverse.mapM fun slot => return (← reserve (← slotKind slot), slot)
      let h : HandlerEntry := { kept, lasti := r.lasti }
      modify fun s => { s with handlers := s.handlers.insert r.target h }
      return some h

/-- Load the kept slots of a handler: `[] -> [kept]`. -/
def loadKept (h : HandlerEntry) : Lowering Unit :=
  h.kept.forM fun (i, slot) => do load i (← slotKind slot)

/-- Store the kept slots of a handler: `[kept] -> []`. -/
def storeKept (h : HandlerEntry) : Lowering Unit :=
  h.kept.reverse.forM fun (i, slot) => do store i (← slotKind slot)

def openRegion (r : Region) : Lowering Unit := do
  let s ← get
  if r.depth < 0 then fail (.negativeRegionDepth r.depth)
  else if (← read).dialect = none then fail .regionNeedsDialect
  else if s.marked.contains r.target then fail (.handlerPrecedes r.target)
  else
    let above := s.stack.length - r.depth.toNat
    if let some h ← regionHandler r (s.stack.drop above) then
      let upper ← spill above
      storeKept h
      loadKept h
      reload upper
      release upper
      let start ← newLabel
      mark start
      let stop ← offsetLabel r.stop
      let target ← offsetLabel r.target
      tryCatch start stop target Library.baseExceptionClass

def pushNone : Lowering Unit := do
  getStatic Library.noneField
  pushType noneType

def pushIntObject (n : Int) : Lowering Unit := do
  pushInt n
  invokeStatic Library.intValueOf
  pushType intType

def pushException : Lowering Unit := do
  loadRef (← read).exceptionSlot
  pushType baseExceptionType

/-- Begin a handler: make the exception on the host stack current, load the kept slots, and push the
values that the dialect hands to a handler. -/
def enterHandler (offset : Int) (h : HandlerEntry) : Lowering Unit := do
  modify fun s => { s with
    operation := "Handler"
    handlers := s.handlers.insert offset { h with emitted := true } }
  let f ← read
  loadRef f.exceptionSlot
  storeRef f.previousSlot
  storeRef f.exceptionSlot
  loadKept h
  setStack h.snapshot
  match f.dialect with
  | some .tuple =>
    pushNone
    pushIntObject h.kept.length
    pushNone
    invokeStatic Library.currentTraceback
    pushType objectType
    pushException
    emit [.dup]
    pushType baseExceptionType
  | some .bare =>
    if h.lasti then pushIntObject 0
    pushException
  | none => fail .handlerNeedsDialect

/-! ## Handler blocks -/

/-- The number of values that the dialect leaves for the end of a handler. -/
def blockValues : Option Dialect → Nat
  | some .tuple => 3
  | _ => 1

/-- Clear the current exception and pop the values of the handler. -/
def startBlock : Lowering Unit := do
  let f ← read
  if f.dialect = none then fail .blockNeedsDialect
  else
    let n := blockValues f.dialect
    emit [.aconstNull]
    storeRef f.exceptionSlot
    emit (List.replicate n .pop)
    drop n

/-- Push the previous exception under the top slot. -/
def pushPrevious : Lowering Unit := do
  loadRef (← read).previousSlot
  pushType objectType
  swap

def popException : Lowering Unit := do
  storeRef (← read).exceptionSlot
  drop 1

/-- Test whether an exception is an instance of the type above it: `[e t] -> [flag]`. -/
def testMatch : Lowering Unit := do
  emitClass .checkcast Library.typeClass
  emit [.swap]
  invoke Library.isInstance

/-- Replace the type on top by whether the exception under it is an instance of it. -/
def checkMatch : Lowering Unit := do
  emit [.dup2]
  testMatch
  invokeStatic Library.boolValueOf
  emit [.swap, .pop]
  drop 1
  pushType boolType

/-- Pop an exception and a type, and jump unless the exception is an instance of the type. -/
def jumpUnlessMatch (target : Int) : Lowering Unit := do
  testMatch
  drop 2
  jumpTo .ifeq target

/-! ## Raising -/

/-- Leave an exception on top and call anything else, which must be a type of exceptions, without
arguments. -/
def exceptionInstance : Lowering Unit := do
  let isException ← newLabel
  emit [.dup]
  emitClass .instanceof Library.baseExceptionClass
  branch .ifne isException
  packArguments 0
  callPacked
  mark isException
  emitClass .checkcast Library.baseExceptionClass

/-- Raise what is on top of the host stack and drop slots. -/
def throwTop (n : Nat) : Lowering Unit := do
  emit [.athrow]
  drop n
  stop

/-- Raise an exception: the current one, the top slot, or the slot under the top with the top as its
cause. -/
def raise (argc : Int) : Lowering Unit := do
  if argc = 0 then
    loadRef (← read).exceptionSlot
    throwTop 0
  else if argc = 1 then
    exceptionInstance
    throwTop 1
  else if argc = 2 then
    emit [.swap]
    exceptionInstance
    emit [.swap]
    invoke Library.setCause
    throwTop 2
  else fail (.raiseOperands argc)

/-- Raise the top slot again. -/
def reraise : Lowering Unit := do
  exceptionInstance
  throwTop 1

end Lowering

end HostLowering.Lower
