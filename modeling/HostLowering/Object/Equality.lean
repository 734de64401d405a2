import HostLowering.Object.World

set_option autoImplicit false

/-! # Equality, dicts and sets

Membership of a collection is decided by identity, then by the value of integers and strings, then
item by item for sequences of one sort. A dict keeps its keys and a set its items distinct in this
sense.
-/

namespace HostLowering.Object.World

/-- Equality of values nested at most so deep. -/
def equalUpTo (w : World) : Nat → Value → Value → Bool
  | 0, _, _ => false
  | n + 1, a, b =>
    a == b ||
      match w.int? a, w.int? b, w.object? a, w.object? b with
      | some x, some y, _, _ => x == y
      | _, _, some (.str s), some (.str t) => s == t
      | _, _, some (.sequence k place), some (.sequence l other) =>
        let xs := w.items place
        let ys := w.items other
        k == l && xs.length == ys.length
          && (xs.zip ys).all fun (x, y) => equalUpTo w n x y
      | _, _, _, _ => false

/-- Equality of values. Values that do not contain themselves are nested less deep than there are
objects. -/
def equal (w : World) (a b : Value) : Bool := w.equalUpTo (w.heap.size + 1) a b

/-! ## Dicts -/

def valueAt? (w : World) (entries : List (Value × Value)) (key : Value) : Option Value :=
  (entries.find? fun e => w.equal e.1 key).map Prod.snd

/-- The entries with a value under a key. A key that is present keeps its form and its place. -/
def putEntry (w : World) (key v : Value) : List (Value × Value) → List (Value × Value)
  | [] => [(key, v)]
  | e :: rest => if w.equal e.1 key then (e.1, v) :: rest else e :: w.putEntry key v rest

def withoutKey? (w : World) (key : Value) :
    List (Value × Value) → Option (List (Value × Value))
  | [] => none
  | e :: rest => if w.equal e.1 key then some rest else (w.withoutKey? key rest).map (e :: ·)

/-! ## Sets -/

def hasItem (w : World) (items : List Value) (v : Value) : Bool := items.any fun x => w.equal x v

end HostLowering.Object.World
