import HostLowering.Object.LibraryMethod

set_option autoImplicit false

/-! # Indices and slices of sequences -/

namespace HostLowering.Object

/-- A bound of a slice of a sequence: counted from the end if negative, and clamped. -/
def clampBound (length : Nat) (i : Int) : Nat :=
  min (max (if i < 0 then i + length else i) 0).toNat length

namespace Effect

def index (kind : SequenceKind) (items : List Value) (v : Value) : Effect Nat := do
  let w ← get
  let name := w.className kind.cls
  match w.int? v with
  | none => raise .typeError (name ++ " indices must be integers, not " ++ w.typeName v)
  | some n =>
    let i := if n < 0 then n.toInt + items.length else n.toInt
    if 0 ≤ i ∧ i < items.length then return i.toNat
    else raise .indexError (name ++ " index out of range")

def sliceBound (length : Nat) (v : Value) (default : Nat) : Effect Nat := do
  if v = .null ∨ v = .none then return default
  else match (← get).int? v with
    | some n => return clampBound length n.toInt
    | none => raise .typeError "slice indices must be integers or None"

/-- The bounds of a slice of a sequence, the upper one not below the lower one. -/
def sliceBounds (start stop step : Value) (length : Nat) : Effect (Nat × Nat) := do
  unless step = .null ∨ step = .none ∨ (← get).int? step = some 1 do
    raise .valueError "slice step other than 1 is not supported"
  let lo ← sliceBound length start 0
  let hi ← sliceBound length stop length
  return (lo, max lo hi)

/-- The item or the slice of a sequence under a key. -/
def getItem (s key : Value) : Effect Value := do
  let (kind, items) ← sequence s
  match (← get).object? key with
  | some (.slice start stop step) =>
    let (lo, hi) ← sliceBounds start stop step items.length
    newCopy kind ((items.take hi).drop lo)
  | _ =>
    let i ← index kind items key
    require items[i]?

/-- Set the item or the slice of a list under a key. A missing value is a defect once the key is
known to fit. -/
def setItem (call : Caller) (s key : Value) (v : Option Value) : Effect Unit := do
  let (kind, items) ← sequence s
  match (← get).object? key with
  | some (.slice start stop step) =>
    let (lo, hi) ← sliceBounds start stop step items.length
    let replacement ← iterate call (← require v)
    let (_, items) ← sequence s
    if items.length < hi then defect .invalidAccess
    changeItems s (·.replace · lo hi replacement)
  | _ =>
    let i ← index kind items key
    let v ← require v
    changeItems s (·.set · i v)

/-- Delete the item or the slice of a list under a key. -/
def deleteItem (s key : Value) : Effect Unit := do
  let (kind, items) ← sequence s
  let (lo, hi) ← match (← get).object? key with
    | some (.slice start stop step) => sliceBounds start stop step items.length
    | _ => do
      let i ← index kind items key
      pure (i, i + 1)
  changeItems s (·.replace · lo hi [])

end Effect

end HostLowering.Object
