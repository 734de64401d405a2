import HostLowering.Defect
import HostLowering.Machine.Opcode
import Std.Data.TreeMap

set_option autoImplicit false

/-! # The pool of local slots

Lowered code keeps values in host locals above a fixed base. *Temporaries* are taken and freed in
last-in, first-out order. *Persistent* slots belong to the whole method and can be taken only while
no temporary is live; each raises the base under the temporaries. Slots are numbered in 64 bits.
Where the base is a count of locals these always suffice, and the numbers are the integers themselves.
-/

namespace HostLowering.Lower

open Machine

/-- The state of the pool: the first index above the persistent slots, the live temporaries with
the latest first, the kinds slots were taken with, the persistent slots with the latest first, and
the number of locals needed so far. -/
structure SlotPool where
  base : Int
  live : List Int := []
  kinds : Std.TreeMap Int Kind := {}
  reserved : List Int := []
  maxLocals : Int
deriving Inhabited

namespace SlotPool

/-- A pool whose first slot is `base`. -/
def new (base : Int) : SlotPool := { base, maxLocals := base }

/-- Take a persistent slot, where `number` gives the integers that number slots. -/
def reserveBy (number : Int → Int) (p : SlotPool) (k : Kind) : Except Defect (Int × SlotPool) :=
  if p.live.isEmpty then
    .ok (p.base, { p with
      base := number (p.base + 1)
      kinds := p.kinds.insert p.base k
      reserved := p.base :: p.reserved
      maxLocals := max p.maxLocals (number (p.base + 1)) })
  else .error (.reserveWhileLive p.live.length)

/-- Take a temporary. -/
def allocBy (number : Int → Int) (p : SlotPool) (k : Kind) : Int × SlotPool :=
  let i := number (p.base + p.live.length)
  (i, { p with
    live := i :: p.live
    kinds := p.kinds.insert i k
    maxLocals := max p.maxLocals (number (i + 1)) })

/-- Take a persistent slot, numbered in 64 bits. -/
def reserve : SlotPool → Kind → Except Defect (Int × SlotPool) := reserveBy wrap64

/-- Take a temporary, numbered in 64 bits. -/
def alloc : SlotPool → Kind → Int × SlotPool := allocBy wrap64

/-- Free the latest live temporary, which must be the given slot. -/
def free (p : SlotPool) (slot : Int) : Except Defect SlotPool :=
  match p.live with
  | i :: rest => if i = slot then .ok { p with live := rest } else outOfOrder
  | [] => outOfOrder
where
  outOfOrder : Except Defect SlotPool := .error (.freeOutOfOrder slot p.live.reverse)

/-- The kind a slot was last taken with. -/
def kind (p : SlotPool) (slot : Int) : Kind := p.kinds.getD slot .ref

/-- The number of live temporaries. -/
def liveCount (p : SlotPool) : Nat := p.live.length

/-- The persistent slots in the order they were taken. -/
def persistent (p : SlotPool) : List Int := p.reserved.reverse

end SlotPool

end HostLowering.Lower
