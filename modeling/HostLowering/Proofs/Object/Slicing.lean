import HostLowering.Object.Builtin
import HostLowering.Proofs.Object.Answers

set_option autoImplicit false

/-! # Slices of lists

A slice of a list has two bounds, each left out or any number. `placeOf` says where in a list a bound
stands. Reading, assigning and deleting a slice then are what the places say (`list_slices`), although
the list is changed where it stands: the cells behind the slice are saved before anything is written.
-/

namespace HostLowering.Object

/-! ## Bounds -/

/-- Where a bound stands in a list of some length: a number counts from the end if it is negative, and
not past either end. -/
def placeOf (length : Nat) (default : Nat) : Option Int64 → Int
  | none => default
  | some i => max 0 (min length (if i.toInt < 0 then length + i.toInt else i.toInt))

/-- A value is left out as a bound, or is a number. -/
def World.Bound (w : World) (v : Value) : Option Int64 → Prop
  | none => v = .null ∨ v = .none
  | some i => w.int? v = some i

/-- A value is a slice with some bounds that takes every item between them. -/
def World.Slices (w : World) (key : Value) (start stop : Option Int64) : Prop :=
  ∃ a b step, w.object? key = some (.slice a b step) ∧ w.Bound a start ∧ w.Bound b stop ∧
    (w.Bound step none ∨ w.Bound step (some 1))

variable {w w' : World} {call : Caller} {l key v r : Value} {kind : SequenceKind} {place : Window}
  {items more : List Value} {start stop bound : Option Int64} {length default lo hi : Nat}

theorem clampBound_eq (length : Nat) (i : Int64) :
    (clampBound length i.toInt : Int) = placeOf length default (some i) := by
  unfold clampBound placeOf
  dsimp only
  split <;> omega

theorem placeOf_bounds (le : default ≤ length) (bound : Option Int64) :
    0 ≤ placeOf length default bound ∧ placeOf length default bound ≤ length := by
  cases bound with
  | none => exact ⟨Int.natCast_nonneg _, Int.ofNat_le.mpr le⟩
  | some i =>
    unfold placeOf
    dsimp only
    omega

/-- An object or a truth value is not left out. -/
theorem World.Bound.given {i : Int64} (h : w.Bound v (some i)) : ¬(v = .null ∨ v = .none) := by
  rintro (rfl | rfl) <;> cases h

theorem sliceBound_eq (h : w.Bound v bound) :
    Effect.sliceBound length v default w =
      (.ok (placeOf length default bound).toNat, w) := by
  unfold Effect.sliceBound
  cases bound with
  | none =>
    rw [if_pos (show v = .null ∨ v = .none from h)]
    rfl
  | some i =>
    rw [if_neg h.given, Effect.bind_get, show w.int? v = some i from h, ← clampBound_eq]
    rfl

/-- The places of the bounds of a slice, the upper one not below the lower one. -/
structure Bounds (length : Nat) (start stop : Option Int64) (lo hi : Nat) : Prop where
  low : (lo : Int) = placeOf length 0 start
  high : (hi : Int) = max (lo : Int) (placeOf length length stop)

theorem exists_bounds (length : Nat) (start stop : Option Int64) :
    ∃ lo hi, Bounds length start stop lo hi ∧ lo ≤ hi ∧ hi ≤ length := by
  have first := placeOf_bounds length.zero_le start
  have second := placeOf_bounds (le_refl length) stop
  refine ⟨(placeOf length 0 start).toNat,
    max (placeOf length 0 start).toNat (placeOf length length stop).toNat, ⟨?_, ?_⟩, ?_, ?_⟩ <;> omega

theorem sliceBounds_eq {a b step : Value} (h : w.Bound a start) (h' : w.Bound b stop)
    (unit : w.Bound step none ∨ w.Bound step (some 1)) (bounds : Bounds length start stop lo hi) :
    Effect.sliceBounds a b step length w = (.ok (lo, hi), w) := by
  have every : step = .null ∨ step = .none ∨ w.int? step = some 1 := by
    rcases unit with (left | left) | one
    · exact .inl left
    · exact .inr (.inl left)
    · exact .inr (.inr one)
  have first : (placeOf length 0 start).toNat = lo := by
    rw [← bounds.low]
    rfl
  have second : max lo (placeOf length length stop).toNat = hi := by
    have := bounds.high
    omega
  unfold Effect.sliceBounds
  rw [Effect.bind_get, if_pos every]
  dsimp only
  rw [Effect.bind_ok (sliceBound_eq h), Effect.bind_ok (sliceBound_eq h'), first, second]
  rfl

/-! ## Cells -/

/-- The items between two places of a window are replaced. -/
theorem Storage.items_replace (s : Storage) (place : Window) (values : List Value)
    (inside : lo ≤ (s.items place).length) :
    (s.replace place lo hi values).2.items (s.replace place lo hi values).1 =
      (s.items place).take lo ++ values ++ (s.items place).drop hi := by
  have front : s.items ⟨place.block, lo⟩ = (s.items place).take lo := by
    rw [Storage.items, List.length_take] at inside
    rw [Storage.items, Storage.items, List.take_take, Nat.min_eq_left (by omega)]
    rfl
  unfold Storage.replace
  dsimp only
  rw [Storage.items_append, Storage.items_append, front]

/-- The items of a sequence are changed, and no other object. -/
theorem changeItems_eq (h : w.sequence? l = some (kind, items))
    (step : Storage → Window → Window × Storage)
    (changed : ∀ place, w.items place = items →
      (step w.storage place).2.items (step w.storage place).1 = more) :
    ∃ w', Effect.changeItems l step w = (.ok (), w') ∧ w'.sequence? l = some (kind, more) ∧
      ∀ u, u ≠ l → w'.object? u = w.object? u := by
  obtain ⟨ref, place, rfl, found, same⟩ := World.exists_window h
  have objects := World.object?_put (w := { w with storage := (step w.storage place).2 }) found
    (.sequence kind (step w.storage place).1)
  refine ⟨_, changeItems_object found step, ?_, fun u other => (objects u).trans (if_neg other)⟩
  rw [World.sequence?, World.window?, objects, if_pos rfl]
  exact congrArg (fun xs => some (kind, xs)) (changed place same)

/-! ## Slices -/

/-- The list with the items between two places replaced. -/
def splice (items : List Value) (lo hi : Nat) (more : List Value) : List Value :=
  items.take lo ++ more ++ items.drop hi

/-- The items of a list between two places are replaced. -/
theorem changeItems_replace (list : w.sequence? l = some (kind, items)) (inside : lo ≤ items.length)
    (hi : Nat) (more : List Value) :
    ∃ w', Effect.changeItems l (·.replace · lo hi more) w = (.ok (), w') ∧
      w'.sequence? l = some (kind, splice items lo hi more) ∧
      ∀ u, u ≠ l → w'.object? u = w.object? u := by
  refine changeItems_eq list (·.replace · lo hi more) fun place same => ?_
  subst same
  exact w.storage.items_replace place more inside

theorem iterate_sequence (given : w.sequence? r = some (kind, more)) (call : Caller) :
    Effect.iterate call r w = (.ok more, w) := by
  obtain ⟨ref, place, rfl, there, rfl⟩ := World.exists_window given
  rw [Effect.iterate, Effect.bind_get, show w.object? (.object ref) = _ from there]
  rfl

section Steps

variable (list : w.sequence? l = some (.list, items)) (slice : w.Slices key start stop)
  (bounds : Bounds items.length start stop lo hi)

include list slice bounds

theorem getItem_slice :
    ∃ v w', Effect.getItem l key w = (.ok v, w') ∧ w.Gathers v ((items.take hi).drop lo) w' := by
  obtain ⟨a, b, step, found, first, second, unit⟩ := slice
  obtain ⟨v, w', copied, gathers⟩ := gathers_newCopy w ((items.take hi).drop lo)
  refine ⟨v, w', ?_, gathers⟩
  simp only [Effect.getItem, Effect.bind_ok (sequence_eq list), Effect.bind_get, found,
    Effect.bind_ok (sliceBounds_eq first second unit bounds)]
  exact copied

theorem setItem_slice (inside : lo ≤ hi ∧ hi ≤ items.length)
    (given : w.sequence? r = some (kind, more)) (call : Caller) :
    ∃ w', Effect.setItem call l key (some r) w = (.ok (), w') ∧
      w'.sequence? l = some (.list, splice items lo hi more) ∧
      ∀ u, u ≠ l → w'.object? u = w.object? u := by
  obtain ⟨a, b, step, found, first, second, unit⟩ := slice
  obtain ⟨w', changed, new, others⟩ := changeItems_replace list (inside.1.trans inside.2) hi more
  have required : Effect.require (some r) w = (.ok r, w) := rfl
  refine ⟨w', ?_, new, others⟩
  simp only [Effect.setItem, Effect.bind_ok (sequence_eq list), Effect.bind_get, found,
    Effect.bind_ok (sliceBounds_eq first second unit bounds), Effect.bind_ok required,
    Effect.bind_ok (iterate_sequence given call)]
  rw [if_neg (by omega)]
  exact changed

theorem deleteItem_slice (inside : lo ≤ hi ∧ hi ≤ items.length) :
    ∃ w', Effect.deleteItem l key w = (.ok (), w') ∧
      w'.sequence? l = some (.list, splice items lo hi []) ∧
      ∀ u, u ≠ l → w'.object? u = w.object? u := by
  obtain ⟨a, b, step, found, first, second, unit⟩ := slice
  obtain ⟨w', changed, new, others⟩ := changeItems_replace list (inside.1.trans inside.2) hi []
  refine ⟨w', ?_, new, others⟩
  simp only [Effect.deleteItem, Effect.bind_ok (sequence_eq list), Effect.bind_get, found,
    Effect.bind_ok (sliceBounds_eq first second unit bounds)]
  exact changed

end Steps

/-- The items that were put between two places are found there. -/
theorem drop_take_splice (inside : lo ≤ items.length) :
    ((splice items lo hi more).take (lo + more.length)).drop lo = more := by
  have front : (items.take lo).length = lo := List.length_take_of_le inside
  rw [splice, List.take_left' (by rw [List.length_append, front]), List.drop_left' front]

/-- Slices of lists. The bounds of a slice stand where `placeOf` says, the upper one raised to the lower
one, and inside the list. Reading makes a new list of the items between them and changes nothing.
Deleting leaves the items outside, and assigning a sequence, also the list itself, puts its items
there; both change no other object of the heap, though one that shares its cells with the list may read
differently. The items that were assigned are read under their places. -/
theorem list_slices (call : Caller) (w : World) (l key : Value) (items : List Value)
    (start stop : Option Int64) (list : w.sequence? l = some (.list, items))
    (slice : w.Slices key start stop) :
    ∃ lo hi, lo ≤ hi ∧ hi ≤ items.length ∧ (lo : Int) = placeOf items.length 0 start ∧
      (hi : Int) = max (lo : Int) (placeOf items.length items.length stop) ∧
      (∀ a b step, w.object? key = some (.slice a b step) →
        Effect.sliceBounds a b step items.length w = (.ok (lo, hi), w)) ∧
      (∃ v w', Effect.builtin call .sequenceItem [l, key] w = (.ok v, w') ∧
        w.Gathers v ((items.take hi).drop lo) w') ∧
      (∃ w', Effect.builtin call .deleteListItem [l, key] w = (.ok .none, w') ∧
        w'.sequence? l = some (.list, items.take lo ++ items.drop hi) ∧
        ∀ u, u ≠ l → w'.object? u = w.object? u) ∧
      ∀ r kind more, w.sequence? r = some (kind, more) →
        ∃ w', Effect.builtin call .setListItem [l, key, r] w = (.ok .none, w') ∧
          w'.sequence? l = some (.list, items.take lo ++ more ++ items.drop hi) ∧
          (∀ u, u ≠ l → w'.object? u = w.object? u) ∧
          ∀ key' i j, w'.Slices key' (some i) (some j) → i.toInt = lo → j.toInt = lo + more.length →
            ∃ v w'', Effect.builtin call .sequenceItem [l, key'] w' = (.ok v, w'') ∧
              w'.Gathers v more w'' := by
  obtain ⟨lo, hi, bounds, le, le'⟩ := exists_bounds items.length start stop
  refine ⟨lo, hi, le, le', bounds.low, bounds.high, fun a b step found => ?_, ?_, ?_, ?_⟩
  · obtain ⟨a', b', step', found', first, second, unit⟩ := slice
    cases found.symm.trans found'
    exact sliceBounds_eq first second unit bounds
  · exact getItem_slice list slice bounds
  · obtain ⟨w', deleted, new, others⟩ := deleteItem_slice list slice bounds ⟨le, le'⟩
    refine ⟨w', by rw [Effect.builtin, Effect.bind_ok deleted]; rfl, ?_, others⟩
    rw [new, splice, List.append_nil]
  · intro r kind more given
    obtain ⟨w', assigned, new, others⟩ := setItem_slice list slice bounds ⟨le, le'⟩ given call
    refine ⟨w', by rw [Effect.builtin]; exact Effect.bind_ok assigned, new, others, ?_⟩
    intro key' i j slice' low high
    have length : (splice items lo hi more).length = lo + more.length + (items.length - hi) := by
      rw [splice, List.length_append, List.length_append, List.length_take_of_le (le.trans le'),
        List.length_drop]
    have bounds' : Bounds (splice items lo hi more).length (some i) (some j) lo (lo + more.length) := by
      rw [length]
      constructor <;> simp only [placeOf, low, high] <;> omega
    obtain ⟨v, w'', read, gathers⟩ := getItem_slice new slice' bounds'
    rw [drop_take_splice (le.trans le')] at gathers
    exact ⟨v, w'', read, gathers⟩

/-- The list `[None, True, False]` gets itself in the place of its last two items. -/
theorem list_slices_itself :
    let w : World := {
      heap := #[.sequence .list ⟨0, 3⟩, .int (-2), .slice (.object ⟨1⟩) .none .none]
      storage := ⟨#[[.none, .bool true, .bool false]]⟩ }
    ∃ w', Effect.builtin (fun _ => Effect.defect .invalidAccess) .setListItem
        [.object ⟨0⟩, .object ⟨2⟩, .object ⟨0⟩] w = (.ok .none, w') ∧
      w'.sequence? (.object ⟨0⟩) =
        some (.list, [.none, .none, .bool true, .bool false]) := by
  obtain ⟨lo, hi, -, -, low, high, -, -, -, assigns⟩ := list_slices
    (fun _ => Effect.defect .invalidAccess)
    { heap := #[.sequence .list ⟨0, 3⟩, .int (-2), .slice (.object ⟨1⟩) .none .none]
      storage := ⟨#[[.none, .bool true, .bool false]]⟩ }
    (.object ⟨0⟩) (.object ⟨2⟩) _ (some (-2)) none rfl ⟨_, _, _, rfl, rfl, .inr rfl, .inl (.inr rfl)⟩
  obtain rfl : lo = 1 := Int.ofNat.inj low
  obtain rfl : hi = 3 := Int.ofNat.inj high
  obtain ⟨w', assigned, new, -⟩ := assigns (.object ⟨0⟩) .list _ rfl
  exact ⟨w', assigned, new⟩

end HostLowering.Object
