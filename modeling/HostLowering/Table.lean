set_option autoImplicit false

/-! # Tables

A finite map kept as the list of its entries in order of first insertion. Setting a key that is
present replaces its value in place, so the order of the keys is the order in which they
appeared.
-/

namespace HostLowering

/-- Entries in order of first insertion. -/
abbrev Table (κ α : Type) := List (κ × α)

namespace Table

variable {κ α : Type} [BEq κ]

/-- The value under a key. -/
def get? : Table κ α → κ → Option α
  | [], _ => none
  | (k, v) :: t, key => if k == key then some v else get? t key

def has (t : Table κ α) (key : κ) : Bool := (t.get? key).isSome

/-- Set the value of a key, keeping the position of a key that is present. -/
def set : Table κ α → κ → α → Table κ α
  | [], key, val => [(key, val)]
  | (k, v) :: t, key, val => if k == key then (k, val) :: t else (k, v) :: set t key val

/-- The keys in order of first insertion. -/
def keys (t : Table κ α) : List κ := t.map Prod.fst

/-- The values in the order of their keys. -/
def values (t : Table κ α) : List α := t.map Prod.snd

end Table

end HostLowering
