import HostLowering.Lower.Emit

set_option autoImplicit false

/-! # Moving slots

Permutations and copies of stack slots. The host can exchange the top two values and copy the top
under one or two others; everything else goes through temporaries. The comments show the snapshot
from the bottom up.
-/

namespace HostLowering.Lower

open Machine Catalog

structure Temp where
  index : Int
  slot : Slot
deriving DecidableEq, Repr, Inhabited

namespace Lowering

/-! ## Temporaries -/

def loadTemp (t : Temp) : Lowering Unit := do load t.index (← slotKind t.slot)

/-- Load a temporary and push its slot. -/
def reloadTemp (t : Temp) : Lowering Unit := do
  loadTemp t
  pushSlot t.slot

/-- Pop the top slots into temporaries, which are given top first. -/
def spillMany : Nat → Lowering (List Temp)
  | 0 => return []
  | n + 1 => do
    let s ← popSlot
    let k ← slotKind s
    let i ← alloc k
    store i k
    let rest ← spillMany n
    return ⟨i, s⟩ :: rest

/-- Pop a number of slots, which must be there, into temporaries. -/
def spill (n : Int) : Lowering (List Temp) := do
  if 0 ≤ n ∧ n ≤ (← stack).length then spillMany n.toNat else defect .invalidAccess

/-- Push spilled slots back in their former order. The temporaries stay taken. -/
def reload (ts : List Temp) : Lowering Unit := ts.reverse.forM reloadTemp

/-- Free temporaries, the last taken first. -/
def release (ts : List Temp) : Lowering Unit := ts.reverse.forM fun t => free t.index

def copyOut (n : Int) : Lowering (List Temp) := do
  let ts ← spill n
  reload ts
  return ts

/-! ## Shuffles -/

/-- `[a b] -> [b a]` -/
def swap : Lowering Unit := do
  emit [.swap]
  match ← stack with
  | b :: a :: rest => setStack (a :: b :: rest)
  | _ => defect .invalidAccess

/-- `[a b c] -> [c a b]` -/
def rotate3 : Lowering Unit := do
  emit [.dupX2, .pop]
  match ← stack with
  | c :: b :: a :: rest => setStack (b :: a :: c :: rest)
  | _ => defect .invalidAccess

/-- `[a b c d] -> [d a b c]` -/
def rotate4 : Lowering Unit := do
  let ts ← spill 2
  match ts with
  | [d, c] =>
    reloadTemp d
    rotate3
    reloadTemp c
    release ts
  | _ => defect .invalidAccess

/-- Push a copy of the slot at a depth. -/
def duplicate (depth : Int) : Lowering Unit := do
  if depth = 0 then
    emit [.dup]
    pushSlot (← peek 0)
  else if depth = 1 then
    emit [.dup2, .pop]
    pushSlot (← peek 1)
  else
    let ts ← spill depth
    emit [.dup]
    let x ← peek 0
    pushSlot x
    ts.reverse.forM fun t => do
      loadTemp t
      emit [.swap]
      setTop t.slot
      pushSlot x
    release ts

/-- Move the top slot under the slots beneath it: `[x_p .. x_1 x_0] -> [x_0 x_p .. x_1]`. -/
def bury (depth : Int) : Lowering Unit := do
  if depth = 0 then pure ()
  else if depth = 1 then swap
  else if depth = 2 then rotate3
  else
    let top ← spill 1
    let under ← spill depth
    reload top
    reload under
    release under
    release top

/-- Exchange the top slot with the slot at a depth:
`[x_p x_(p-1) .. x_1 x_0] -> [x_0 x_(p-1) .. x_1 x_p]`. -/
def exchange (depth : Int) : Lowering Unit := do
  if depth = 0 then pure ()
  else if depth = 1 then swap
  else
    let ts ← spill (depth + 1)
    match ts, ts.getLast? with
    | top :: rest, some bottom =>
      reload (bottom :: rest.dropLast ++ [top])
      release ts
    | _, _ => defect .invalidAccess

/-- A step on the slot at a depth, which must not be negative. -/
def atDepth (depth : Int) (step : Int → Lowering Unit) : Lowering Unit :=
  if depth < 0 then fail (.negativeDepth depth) else step depth

/-- Drop the top slot. -/
def discardTop : Lowering Unit := do
  emit [.pop]
  drop 1

end Lowering

end HostLowering.Lower
