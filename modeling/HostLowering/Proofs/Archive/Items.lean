import Mathlib.Tactic
import HostLowering.Cbor.Reader

set_option autoImplicit false

/-!
# Written items read back

The reader gives back every item that is written canonically, with what stands behind it, as long
as the item keeps the reader's limits. `Sound room i` says what those limits ask of an item: its
arguments fit the eight bytes of the widest head, a text is in one chunk, a container has no more
than `maxElements` elements or pairs, and containers stand at most `room` deep.

The recursion of the reader is limited by a bound on its calls. An item takes one call, and each
element of a container one more for the list it stands in; since every item has at least one
byte, twice the number of bytes is enough.
-/

namespace HostLowering.Cbor

variable {n room : Nat} {major info : UInt8} {i : Item}

/-! ## Numbers and heads -/

@[simp] theorem length_bigEndian (count n : Nat) : (bigEndian count n).length = count := by
  induction count with
  | zero => rfl
  | succ count ih => simp [bigEndian, ih]

/-- Folding the bytes of a number puts its low bytes behind what was read before. -/
theorem foldl_bigEndian (count n before : Nat) :
    (bigEndian count n).foldl (fun m b => m * 256 + b.toNat) before
      = before * 256 ^ count + n % 256 ^ count := by
  induction count generalizing before with
  | zero => simp [bigEndian, Nat.mod_one]
  | succ count ih =>
    have split : n % 256 ^ (count + 1)
        = n / 256 ^ count % 256 * 256 ^ count + n % 256 ^ count := by
      rw [pow_succ, Nat.mod_mul]
      ring
    calc (bigEndian (count + 1) n).foldl (fun m b => m * 256 + b.toNat) before
        = (bigEndian count n).foldl (fun m b => m * 256 + b.toNat)
            (before * 256 + n / 256 ^ count % 256) := by simp [bigEndian]
      _ = (before * 256 + n / 256 ^ count % 256) * 256 ^ count + n % 256 ^ count := ih _
      _ = before * 256 ^ (count + 1) + n % 256 ^ (count + 1) := by rw [split]; ring

theorem readNumber_bigEndian {count : Nat} (fits : n < 256 ^ count) (rest : List UInt8) :
    readNumber count (bigEndian count n ++ rest) = some (n, rest) := by
  have value := foldl_bigEndian count n 0
  rw [Nat.mod_eq_of_lt fits, Nat.zero_mul, Nat.zero_add] at value
  have enough : ¬ (bigEndian count n ++ rest).length < count := by simp
  rw [readNumber, if_neg enough, List.take_left' (length_bigEndian _ _),
    List.drop_left' (length_bigEndian _ _), value]

/-- The two parts of the first byte of a head. -/
theorem major_info (hmajor : major < 8) (hinfo : info < 32) :
    (major <<< 5 ||| info) >>> 5 = major ∧ (major <<< 5 ||| info) &&& 31 = info := by
  have all : ∀ m : Fin 8, ∀ i : Fin 32,
      (UInt8.ofNat m <<< 5 ||| UInt8.ofNat i) >>> 5 = UInt8.ofNat m ∧
      (UInt8.ofNat m <<< 5 ||| UInt8.ofNat i) &&& 31 = UInt8.ofNat i := by decide +kernel
  simpa using all ⟨major.toNat, hmajor⟩ ⟨info.toNat, hinfo⟩

theorem head_ne_nil (major : UInt8) (n : Nat) : head major n ≠ [] := by
  unfold head
  split_ifs <;> simp

/-- Additional information that is itself the argument announces no other form of head. -/
theorem ofNat_ne_of_lt (small : n < 24) (hinfo : 24 ≤ info.toNat) : UInt8.ofNat n ≠ info := by
  rintro rfl
  rw [UInt8.toNat_ofNat'] at hinfo
  omega

theorem readHead_small (hmajor : major < 8) (small : n < 24) (rest : List UInt8) :
    readHead (head major n ++ rest) = some (⟨major, UInt8.ofNat n, n⟩, rest) := by
  have value : (UInt8.ofNat n).toNat = n := by
    rw [UInt8.toNat_ofNat']
    omega
  have hinfo : UInt8.ofNat n < 32 := by
    rw [UInt8.lt_iff_toNat_lt, value]
    show n < 32
    omega
  have bits := major_info hmajor hinfo
  rw [head, if_pos small, List.singleton_append, readHead]
  simp only [bits.1, bits.2]
  -- no value below 24 selects one of the wide forms
  split
  case h_9 => rw [value]
  all_goals
    next same => exact absurd same (ofNat_ne_of_lt small (by decide))

/-- A head with its argument in the bytes that follow. -/
theorem readHead_wide (hmajor : major < 7) {count : Nat}
    (form : (info = 24 ∧ count = 1) ∨ (info = 25 ∧ count = 2) ∨ (info = 26 ∧ count = 4) ∨
      (info = 27 ∧ count = 8)) (fits : n < 256 ^ count) (rest : List UInt8) :
    readHead ((major <<< 5 ||| info) :: bigEndian count n ++ rest)
      = some (⟨major, info, n⟩, rest) := by
  have notSimple : (major == 7) = false := by
    apply beq_false_of_ne
    rintro rfl
    exact absurd hmajor (by decide)
  have hmajor : major < 8 := UInt8.lt_trans hmajor (by decide)
  have hinfo : info < 32 := by
    rcases form with ⟨rfl, _⟩ | ⟨rfl, _⟩ | ⟨rfl, _⟩ | ⟨rfl, _⟩ <;> decide
  have bits := major_info hmajor hinfo
  rw [List.cons_append, readHead]
  simp only [bits.1, bits.2]
  rcases form with ⟨rfl, rfl⟩ | ⟨rfl, rfl⟩ | ⟨rfl, rfl⟩ | ⟨rfl, rfl⟩ <;>
    simp [readNumber_bigEndian fits, notSimple]

/-- Every head but that of a simple value reads back as a definite one. -/
theorem readHead_head (major : UInt8) (hmajor : major < 7) (fits : n < 2 ^ 64) (rest : List UInt8) :
    ∃ info, info ≠ 31 ∧ readHead (head major n ++ rest) = some (⟨major, info, n⟩, rest) := by
  by_cases small : n < 24
  · exact ⟨UInt8.ofNat n, ofNat_ne_of_lt small (by decide),
      readHead_small (UInt8.lt_trans hmajor (by decide)) small rest⟩
  · rw [head, if_neg small]
    split_ifs with h8 h16 h32
    · exact ⟨24, by decide, readHead_wide hmajor (.inl ⟨rfl, rfl⟩) (by omega) rest⟩
    · exact ⟨25, by decide, readHead_wide hmajor (.inr (.inl ⟨rfl, rfl⟩)) (by omega) rest⟩
    · exact ⟨26, by decide,
        readHead_wide hmajor (.inr (.inr (.inl ⟨rfl, rfl⟩))) (by omega) rest⟩
    · exact ⟨27, by decide,
        readHead_wide hmajor (.inr (.inr (.inr ⟨rfl, rfl⟩))) (by omega) rest⟩

theorem splitBytes_append (data rest : List UInt8) :
    splitBytes data.length (data ++ rest) = some (data, rest) := by
  simp [splitBytes]

/-! ## Items -/

/-- Items whose written form the reader takes back where `room` more containers may be opened. -/
inductive Sound : Nat → Item → Prop
  | unsigned {room n : Nat} : n < 2 ^ 64 → Sound room (.unsigned n)
  | negative {room n : Nat} : n < 2 ^ 64 → Sound room (.negative n)
  | bytes {room : Nat} {data : List UInt8} : data.length < 2 ^ 64 → Sound room (.bytes data)
  | text {room : Nat} {chunk : List UInt8} : chunk.length < 2 ^ 64 → Sound room (.text [chunk])
  | array {room : Nat} {items : List Item} : items.length ≤ maxElements →
      (∀ i ∈ items, Sound room i) → Sound (room + 1) (.array items)
  | map {room pairs : Nat} {items : List Item} : items.length = 2 * pairs →
      pairs ≤ maxElements → (∀ i ∈ items, Sound room i) → Sound (room + 1) (.map items)
  | simple {room n : Nat} : n < 24 → Sound room (.simple n)

theorem Sound.encode_length_pos (sound : Sound room i) : 0 < i.encode.length := by
  have pos : ∀ major n (rest : List UInt8), 0 < (head major n ++ rest).length := by
    intro major n rest
    have := List.length_pos_iff.mpr (head_ne_nil major n)
    rw [List.length_append]
    omega
  cases sound <;> rw [Item.encode]
  case bytes | text | array | map => exact pos _ _ _
  all_goals exact List.length_pos_iff.mpr (head_ne_nil _ _)

/-- The items of a list read back one after the other, if each of them does. -/
theorem readItems_encodeAll {depth : Nat} {items : List Item} (sound : ∀ i ∈ items, Sound room i)
    (one : ∀ i ∈ items, ∀ bound rest, 2 * i.encode.length ≤ bound + 2 →
      readItem (bound + 1) depth (i.encode ++ rest) = some (i, rest)) (bound : Nat)
    (enough : 2 * (encodeAll items).length ≤ bound) (before : List Item) (rest : List UInt8) :
    readItems bound depth items.length before (encodeAll items ++ rest)
      = some (before.reverse ++ items, rest) := by
  induction items generalizing bound before with
  | nil =>
    rw [encodeAll, List.nil_append, List.append_nil]
    cases bound <;> simp [readItems]
  | cons i items ih =>
    rw [List.forall_mem_cons] at sound one
    have pos := sound.1.encode_length_pos
    rw [encodeAll, List.length_append] at enough
    -- one call goes to the list and one to the item, which has a byte for them
    obtain ⟨bound, rfl⟩ : ∃ b, bound = b + 2 := ⟨bound - 2, by omega⟩
    have first := one.1 bound (encodeAll items ++ rest) (by omega)
    have later := ih sound.2 one.2 (bound + 1) (by omega) (i :: before)
    rw [encodeAll, List.append_assoc, List.length_cons, readItems, first]
    simpa using later

/-- A sound item reads back with what stands behind it. -/
theorem Sound.readItem_encode (sound : Sound room i) :
    ∀ depth, depth + room ≤ maxNesting → ∀ bound rest, 2 * i.encode.length ≤ bound + 2 →
      readItem (bound + 1) depth (i.encode ++ rest) = some (i, rest) := by
  induction sound with
  | unsigned fits =>
    intro depth _ bound rest _
    obtain ⟨info, -, read⟩ := readHead_head 0 (by decide) fits rest
    rw [Item.encode, readItem, read]
    rfl
  | negative fits =>
    intro depth _ bound rest _
    obtain ⟨info, -, read⟩ := readHead_head 1 (by decide) fits rest
    rw [Item.encode, readItem, read]
    rfl
  | @bytes _ data fits =>
    intro depth _ bound rest _
    obtain ⟨info, definite, read⟩ := readHead_head 2 (by decide) fits (data ++ rest)
    rw [Item.encode, List.append_assoc, readItem, read]
    simp [Head.indefinite, definite, splitBytes_append]
  | @text _ chunk fits =>
    intro depth _ bound rest _
    obtain ⟨info, definite, read⟩ := readHead_head 3 (by decide) fits (chunk ++ rest)
    rw [Item.encode, List.flatten_singleton, List.append_assoc, readItem, read]
    simp [Head.indefinite, definite, splitBytes_append]
  | @array room items few sound ih =>
    intro depth nested bound rest enough
    have fits : items.length < 2 ^ 64 := lt_of_le_of_lt few (by decide)
    obtain ⟨info, definite, read⟩ :=
      readHead_head 4 (by decide) fits (encodeAll items ++ rest)
    have pos := List.length_pos_iff.mpr (head_ne_nil 4 items.length)
    rw [Item.encode, List.length_append] at enough
    have elements := readItems_encodeAll sound
      (fun i hi => ih i hi (depth + 1) (by omega)) bound (by omega) [] rest
    rw [Item.encode, List.append_assoc, readItem, read]
    simp [Head.indefinite, definite, elements, few, show depth < maxNesting by omega]
  | @map room pairs items even few sound ih =>
    intro depth nested bound rest enough
    have half : items.length / 2 = pairs := by omega
    have fits : pairs < 2 ^ 64 := lt_of_le_of_lt few (by decide)
    obtain ⟨info, definite, read⟩ :=
      readHead_head 5 (by decide) fits (encodeAll items ++ rest)
    have pos := List.length_pos_iff.mpr (head_ne_nil 5 pairs)
    rw [Item.encode, half, List.length_append] at enough
    have elements := readItems_encodeAll sound
      (fun i hi => ih i hi (depth + 1) (by omega)) bound (by omega) [] rest
    rw [even] at elements
    rw [Item.encode, half, List.append_assoc, readItem, read]
    simp [Head.indefinite, definite, elements, few, show depth < maxNesting by omega]
  | @simple _ n small =>
    intro depth _ bound rest _
    have narrow : UInt8.ofNat n ≠ 25 ∧ UInt8.ofNat n ≠ 26 ∧ UInt8.ofNat n ≠ 27 :=
      ⟨ofNat_ne_of_lt small (by decide), ofNat_ne_of_lt small (by decide),
        ofNat_ne_of_lt small (by decide)⟩
    rw [Item.encode, readItem, readHead_small (by decide) small rest]
    simp [narrow]

theorem Sound.readDocument_encode (sound : Sound maxNesting i) :
    readDocument i.encode = some i := by
  have read := sound.readItem_encode 0 (by simp) (2 * i.encode.length + 1) [] (by omega)
  rw [List.append_nil] at read
  rw [readDocument, read]

end HostLowering.Cbor
