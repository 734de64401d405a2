import HostLowering.Catalog.Registry

set_option autoImplicit false

/-! # Snapshots of the operand stack

A snapshot says what is known of the operand stack at a point of the code: for every slot the
static type of the value, if any, and the source offset of the operation that produced it. A
snapshot lists its slots from the top down; texts show them from the bottom up.
-/

namespace HostLowering.Lower

open Machine Catalog

/-- One entry of the operand stack. -/
structure Slot where
  type : Option TypeRef
  source : Int := -1
deriving DecidableEq, Repr, Inhabited

namespace Slot

/-- A slot of unknown type. -/
def dynamic : Slot := { type := some objectType }

def ofType (t : Option TypeRef) : Slot := { type := t }

def known (s : Slot) : TypeRef := s.type.getD objectType

/-- How the host holds the value of a slot. -/
def kind (r : Registry) (s : Slot) : Kind := r.kind s.known

end Slot

/-- The slots of the operand stack, top first. -/
abbrev Snapshot := List Slot

namespace Snapshot

def ofTypes (ts : List (Option TypeRef)) : Snapshot := (ts.map Slot.ofType).reverse

/-- The slot at a depth, zero being the top. -/
def peek (s : Snapshot) (d : Int) : Except Defect Slot :=
  if 0 ≤ d then need s[d.toNat]? else .error .invalidAccess

def push (s : Snapshot) (slots : List Slot) : Snapshot := slots.reverse ++ s

/-- The snapshot without its top slots. -/
def pop (s : Snapshot) (n : Int) : Except Defect Snapshot :=
  if 0 ≤ n ∧ n ≤ s.length then .ok (s.drop n.toNat) else .error .invalidAccess

/-- Whether control may join with both snapshots: equal depth and, slot by slot, the same kind and
related types. -/
def compatible (r : Registry) : Snapshot → Snapshot → Bool
  | [], [] => true
  | a :: s, b :: t =>
    a.kind r == b.kind r && r.related a.known b.known && compatible r s t
  | _, _ => false

/-- The names of the types, from the bottom up. -/
def describe (r : Registry) (s : Snapshot) : String :=
  "[" ++ String.intercalate " " (s.reverse.map fun slot => r.typeName slot.known) ++ "]"

end Snapshot

end HostLowering.Lower
