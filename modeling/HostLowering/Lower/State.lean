import HostLowering.Lower.Failure
import HostLowering.Lower.Operator
import HostLowering.Lower.SlotPool
import HostLowering.Lower.Snapshot
import HostLowering.Machine.Assembler

set_option autoImplicit false

/-! # The state of lowering

Lowering a function emits host code operation by operation. Beside the code it keeps a snapshot of
the operand stack, the pool of local slots, the labels and expected snapshots of source offsets,
the exception handlers, and the points at which a suspended generator resumes. A failure is
recorded in the state; the operation that meets it returns, and later operations do nothing.
-/

namespace HostLowering.Lower

open Machine Catalog

/-- What is known of the function before it is lowered: options, host class and name, the number of
arguments, the declared types of the locals, and whether it is a generator. -/
structure Function where
  dialect : Option Dialect := none
  verify : Bool := true
  /-- Whether methods found in the registry may be called directly. -/
  direct : Bool := false
  owner : String := ""
  name : String := ""
  argCount : Int := 0
  locals : Array (Option TypeRef) := #[]
  generator : Bool := false
deriving Repr, Inhabited

namespace Function

/-- The host local of the first source local: a generator has its own object in front. -/
def localBase (f : Function) : Int := if f.generator then 1 else 0

def hostLocal (f : Function) (i : Int) : Int := f.localBase + i

/-- The first host local behind the source locals. -/
def slotBase (f : Function) : Int := f.localBase + f.locals.size

def exceptionSlot (f : Function) : Int := f.slotBase

/-- The slot of the exception that was current before the handler was entered. -/
def previousSlot (f : Function) : Int := f.slotBase + 1

/-- The host types of the parameters of the emitted method. -/
def params (r : Registry) (f : Function) : List String :=
  (if f.generator then [Library.generatorClass] else [])
    ++ (f.locals.toList.take f.argCount.toNat).map r.hostClassOf

end Function

/-- The handler entered at a source offset: the slots that keep the stack below the region, from
the bottom up, and whether the index of the raising instruction is wanted. -/
structure HandlerEntry where
  kept : List (Int × Slot)
  lasti : Bool
  emitted : Bool := false
deriving Repr, Inhabited

/-- A place where a suspended generator continues: its state, the snapshot saved at suspension and
the locals saved after it. A delegation restores the locals alone. -/
structure ResumePoint where
  state : Int
  label : Label
  stack : Snapshot
  frame : List Int
  frameOnly : Bool
deriving Repr, Inhabited

structure State where
  assembler : Assembler := {}
  registry : Registry
  stack : Snapshot := []
  pool : SlotPool
  reachable : Bool := false
  operation : String := "New"
  offset : Int := -1
  failure : Option Failure := none
  labels : Std.TreeMap Int Label := {}
  marked : Std.TreeMap Int Unit := {}
  expected : Std.TreeMap Int Snapshot := {}
  handlers : Std.TreeMap Int HandlerEntry := {}
  dispatch : Label := 0
  /-- The offset at which a generator starts, once an instruction stands at one. -/
  first : Option Nat := none
  resumes : Array ResumePoint := #[]
  nextState : Int := 1
deriving Inhabited

/-- A step of lowering. A step that ends with a defect still leaves a state. -/
abbrev Lowering := ReaderT Function (ExceptT Defect (StateM State))

namespace Lowering

/-- Run a step of the assembler. No code is left after a defect. -/
def assemble {α : Type} (step : Asm α) : Lowering α := fun _ s =>
  let a := s.assembler
  let s := { s with assembler := {} }
  match step a with
  | .ok (x, a) => (.ok x, { s with assembler := a })
  | .error d => (.error d, s)

def defect {α : Type} (d : Defect) : Lowering α := throw d

def times : Nat → Lowering Unit → Lowering Unit
  | 0, _ => pure ()
  | n + 1, step => do
    step
    times n step

/-- Record a failure, unless one is recorded already. -/
def fail (c : Cause) : Lowering Unit :=
  modify fun s => { s with failure := s.failure.or (some ⟨s.operation, s.offset, c⟩) }

def hasFailed : Lowering Bool := return (← get).failure.isSome

/-! ## Types -/

def showStack (s : Snapshot) : Lowering String := return s.describe (← get).registry

/-- How the host holds the value of a slot. -/
def slotKind (s : Slot) : Lowering Kind := return s.kind (← get).registry

/-- How the host holds values of a type. -/
def typeKind (t : TypeRef) : Lowering Kind := return (← get).registry.kind t

def hostClassOf (t : Option TypeRef) : Lowering String := return (← get).registry.hostClassOf t

/-- Whether a known type derives from another. -/
def isSubtype (a b : TypeRef) : Lowering Bool := return (← get).registry.isSubtype a b

/-- The method that a direct call may use. -/
def lookup? (t : TypeRef) (name : String) : Lowering (Option Signature) := do
  if (← read).direct then return (← get).registry.lookup? t name else return none

/-! ## The snapshot -/

def stack : Lowering Snapshot := return (← get).stack

def setStack (s : Snapshot) : Lowering Unit := modify fun st => { st with stack := s }

def pushSlot (s : Slot) : Lowering Unit := modify fun st => { st with stack := s :: st.stack }

/-- Push a value of a type, produced by the current operation. -/
def pushType? (t : Option TypeRef) : Lowering Unit :=
  modify fun st => { st with stack := { type := t, source := st.offset } :: st.stack }

/-- Push a value of a known type, produced by the current operation. -/
def pushType (t : TypeRef) : Lowering Unit := pushType? (some t)

def popSlot : Lowering Slot := do
  match ← stack with
  | s :: rest => setStack rest; return s
  | [] => defect .invalidAccess

/-- Drop the top slots. -/
def drop (n : Nat) : Lowering Unit := do
  let s ← stack
  if n ≤ s.length then setStack (s.drop n) else defect .invalidAccess

def peek (d : Int) : Lowering Slot := do
  match (← stack).peek d with
  | .ok s => return s
  | .error e => defect e

/-- The known type of the slot at a depth. -/
def peekType (d : Int) : Lowering TypeRef := return (← peek d).known

def setTop (s : Slot) : Lowering Unit := do
  let _ ← popSlot
  pushSlot s

/-! ## The slot pool -/

/-- Take a temporary. -/
def alloc (k : Kind) : Lowering Int := do
  let (i, pool) := (← get).pool.allocBy id k
  modify fun s => { s with pool }
  return i

/-- Take a temporary for a reference. -/
def allocRef : Lowering Int := alloc .ref

/-- Free the latest temporary. -/
def free (i : Int) : Lowering Unit := do
  match (← get).pool.free i with
  | .ok pool => modify fun s => { s with pool }
  | .error d => defect d

/-- Take a persistent slot. -/
def reserve (k : Kind) : Lowering Int := do
  match (← get).pool.reserveBy id k with
  | .ok (i, pool) =>
    modify fun s => { s with pool }
    return i
  | .error d => defect d

/-! ## Operations -/

/-- Open an operation that needs a number of operands. It must do nothing when the answer is
false. -/
def begin (name : String) (needed : Int) : Lowering Bool := do
  if ← hasFailed then return false
  modify fun s => { s with operation := name }
  let s ← get
  if !s.reachable then
    fail .unreachable
    return false
  else if (s.stack.length : Int) < needed then
    fail (.needsOperands needed (← showStack s.stack))
    return false
  else return true

/-- Close an operation: temporaries never outlive it. -/
def finishOperation : Lowering Unit := do
  let s ← get
  if s.failure.isNone ∧ s.pool.liveCount ≠ 0 then
    defect (.temporariesLeft s.operation s.pool.liveCount)

/-- An operation: its body between opening and closing. It is closed after a defect as well, and
temporaries left behind count before the defect that left them. -/
def operation (name : String) (needed : Int) (body : Lowering Unit) : Lowering Unit := do
  if ← begin name needed then
    try body
    catch d =>
      finishOperation
      throw d
    finishOperation

end Lowering

end HostLowering.Lower
