import HostLowering.Proofs.Machine.Encoding
import HostLowering.Proofs.Machine.Pool

set_option autoImplicit false

/-!
# Pieces of code

Code as the list of what was emitted, in order: whole instructions, and jumps to labels whose
distance depends on where the label is marked. `Holds pieces a` says exactly what an assembler
keeps of such a list: every byte of the whole instructions, the opcode of every jump, the distance
of each jump whose label is marked near enough, the jumps that wait for each label, and an error
precisely when a marked label is too far from one of its jumps. Jumps and marks come in any order;
each of them is one lemma about `Holds`.
-/

namespace HostLowering.Machine

variable {α : Type} {a a' : Assembler} {op : Opcode} {l : Label} {s : LabelState} {p q : Nat} {d k : Int}

/-! ## Appending -/

namespace Assembler

theorem bytes_append (a : Assembler) (bs : List UInt8) :
    (a.append bs).bytes = a.bytes ++ bs.toArray := by
  simp [append]

theorem getElem?_append_left (a : Assembler) (bs : List UInt8) (k : Nat) (lt : k < a.bytes.size) :
    (a.append bs).bytes[k]? = a.bytes[k]? := by
  simp [bytes_append, Array.getElem?_append_left lt]

theorem getElem?_append (a : Assembler) (bs : List UInt8) (k : Nat) :
    (a.append bs).bytes[a.bytes.size + k]? = bs[k]? := by
  rw [bytes_append, Array.getElem?_append_right (by omega)]
  simp

theorem size_append (a : Assembler) (bs : List UInt8) :
    (a.append bs).bytes.size = a.bytes.size + bs.length := by
  simp [bytes_append]

theorem emit_eq_append (a : Assembler) (op : Opcode) : a.emit op = a.append [op.toByte] := rfl

theorem word_emitWord (a : Assembler) (op : Opcode) (n : Int) (bs : List UInt8) :
    Word (a.append (op.toByte :: lowByte n :: highByte n :: bs)).bytes (a.bytes.size + 1) n :=
  ⟨getElem?_append a _ 1, getElem?_append a _ 2⟩

end Assembler

theorem Assembler.error_fail (a : Assembler) (err : BuildError) : (a.fail err).error ≠ none := by
  unfold Assembler.fail
  cases a.error <;> simp

theorem Assembler.error_emitLocal (h : (a.emitLocal op k).error = none) :
    a.error = none ∧ 0 ≤ k ∧ k ≤ 65535 := by
  unfold Assembler.emitLocal at h
  split at h
  · rename_i range
    exact ⟨h, range⟩
  · exact absurd h (a.error_fail _)

theorem Assembler.emitLocal_rest (a : Assembler) (op : Opcode) (k : Int) :
    (a.emitLocal op k).pool = a.pool ∧ (a.emitLocal op k).handlers = a.handlers ∧
      (a.emitLocal op k).labels = a.labels := by
  unfold Assembler.emitLocal
  split <;> exact ⟨rfl, rfl, rfl⟩

/-! ## Patching -/

namespace Assembler

/-- Fill in the distances of branches to one place. -/
def patchAll (a : Assembler) (here : Nat) (ws : List Nat) : Assembler :=
  ws.foldl (fun a pos => a.patch pos (here - (pos + 2))) a

/-- Operands of two bytes that do not overlap unless they are the same. -/
def Spread (ws : List Nat) : Prop := ∀ x ∈ ws, ∀ y ∈ ws, x = y ∨ x + 1 < y ∨ y + 1 < x

end Assembler

/-- A distance that an operand of two bytes can hold. -/
def Near (d : Int) : Prop := -32768 ≤ d ∧ d ≤ 32767

/-- The distance of a jump at `p` to `q`, which counts from behind its operand. -/
def distance (p q : Nat) : Int := q - (p + 3)

/-- The same distance, counted from the operand of the jump. -/
theorem distance_eq (p q : Nat) : (q : Int) - (((p + 1 : Nat) : Int) + 2) = distance p q := by
  unfold distance
  push_cast
  ring

/-- What patches leave as it is, what they write, and when they record an error. -/
structure Assembler.Filled (a b : Assembler) (here : Nat) (ws : List Nat) : Prop where
  labels : b.labels = a.labels
  pool : b.pool = a.pool
  handlers : b.handlers = a.handlers
  size : b.bytes.size = a.bytes.size
  frame : ∀ k, (∀ pos ∈ ws, k ≠ pos ∧ k ≠ pos + 1) → b.bytes[k]? = a.bytes[k]?
  words : Assembler.Spread ws → (∀ pos ∈ ws, pos + 1 < a.bytes.size) → ∀ pos ∈ ws,
    Near (here - (pos + 2)) → Word b.bytes pos (here - (pos + 2))
  error : b.error ≠ none ↔ a.error ≠ none ∨ ∃ pos ∈ ws, ¬ Near (here - (pos + 2))

/-- One patch writes the distance if an operand can hold it, and records an error otherwise. -/
theorem Assembler.patch_cases (a : Assembler) (pos : Nat) (d : Int) :
    (Near d ∧ a.patch pos d = { a with bytes :=
      (a.bytes.setIfInBounds pos (lowByte d)).setIfInBounds (pos + 1) (highByte d) }) ∨
    (¬ Near d ∧ a.patch pos d = a.fail (.branchOutOfRange d (pos - 1))) := by
  unfold patch
  by_cases near : Near d
  · exact .inl ⟨near, if_pos near⟩
  · exact .inr ⟨near, if_neg near⟩

theorem Assembler.filled_one (a : Assembler) (here pos : Nat) :
    a.Filled (a.patch pos (here - (pos + 2))) here [pos] := by
  rcases a.patch_cases pos (here - (pos + 2)) with ⟨near, patched⟩ | ⟨far, patched⟩ <;> rw [patched]
  · refine ⟨rfl, rfl, rfl, by simp, ?_, ?_, ?_⟩
    · intro k other
      obtain ⟨h, h'⟩ := other pos List.mem_cons_self
      simp [Ne.symm h, Ne.symm h']
    · intro _ inside w hw _
      obtain rfl := List.mem_singleton.mp hw
      have inBounds := inside w List.mem_cons_self
      constructor
      · simp [show w < a.bytes.size by omega]
      · simp [inBounds]
    · simp [near]
  · refine ⟨rfl, rfl, rfl, rfl, fun _ _ => rfl, ?_, ?_⟩
    · intro _ _ w hw near
      obtain rfl := List.mem_singleton.mp hw
      exact absurd near far
    · simp only [ne_eq, a.error_fail, not_false_eq_true, true_iff]
      exact .inr ⟨pos, List.mem_cons_self, far⟩

theorem Assembler.filled_patchAll (here : Nat) (ws : List Nat) (a : Assembler) :
    a.Filled (a.patchAll here ws) here ws := by
  induction ws generalizing a with
  | nil =>
    refine ⟨rfl, rfl, rfl, rfl, fun _ _ => rfl, ?_, by simp [patchAll]⟩
    intro _ _ pos h
    cases h
  | cons w ws ih =>
    have first := a.filled_one here w
    have rest := ih (a.patch w (here - (w + 2)))
    refine ⟨rest.labels.trans first.labels, rest.pool.trans first.pool,
      rest.handlers.trans first.handlers, rest.size.trans first.size, ?_, ?_, ?_⟩
    · intro k other
      rw [List.forall_mem_cons] at other
      exact (rest.frame k other.2).trans (first.frame k (by simpa using other.1))
    · intro spread inside pos hpos near
      by_cases again : pos ∈ ws
      · exact rest.words
          (fun x hx y hy => spread x (List.mem_cons_of_mem w hx) y (List.mem_cons_of_mem w hy))
          (fun x hx => first.size ▸ inside x (List.mem_cons_of_mem w hx)) pos again near
      · obtain rfl : pos = w := (List.mem_cons.mp hpos).resolve_right again
        have word := first.words (by simp [Spread]) (by simpa using inside pos hpos) pos
          List.mem_cons_self near
        -- the later patches are elsewhere
        have apart (y : Nat) (hy : y ∈ ws) : pos + 1 < y ∨ y + 1 < pos := by
          refine (spread pos hpos y (List.mem_cons_of_mem pos hy)).resolve_left ?_
          rintro rfl
          exact again hy
        constructor
        · refine (rest.frame pos fun y hy => ?_).trans word.1
          have := apart y hy
          omega
        · refine (rest.frame (pos + 1) fun y hy => ?_).trans word.2
          have := apart y hy
          omega
    · rw [show a.patchAll here (w :: ws) = (a.patch w (here - (w + 2))).patchAll here ws from rfl,
        rest.error, first.error]
      simp [or_assoc]

/-! ## Labels -/

theorem position?_push (a : Assembler) (l : Label) :
    Assembler.position? { a with labels := a.labels.push {} } l = a.position? l := by
  unfold Assembler.position?
  rw [Array.getElem?_push]
  split
  · rename_i here
    subst here
    simp
  · rfl

theorem position?_setLabel (a : Assembler) (known : a.labels[l]? = some s) (t : LabelState)
    (l' : Label) : (a.setLabel l t).position? l' = if l = l' then t.position else a.position? l' := by
  have lt : l < a.labels.size := (Array.getElem?_eq_some_iff.mp known).1
  unfold Assembler.position? Assembler.setLabel
  rw [Array.getElem?_setIfInBounds]
  split
  · rfl
  · rfl

theorem Asm.mark_eq_ok (h : Asm.mark l a = .ok ((), a')) :
    ∃ s, a.labels[l]? = some s ∧ s.position = none ∧
      (a.setLabel l { position := some a.size, waiting := #[] }).patchAll a.size s.waiting.toList = a' := by
  unfold Asm.mark at h
  cases known : a.labels[l]? with
  | none => simp [known, need, bind, Except.bind] at h
  | some s =>
    cases unmarked : s.position with
    | some q => simp [known, need, bind, Except.bind, unmarked] at h
    | none =>
      simp only [known, need, bind, Except.bind, unmarked, pure, Except.pure, Except.ok.injEq,
        Prod.mk.injEq, true_and, ← Array.foldl_toList] at h
      exact ⟨s, rfl, unmarked, h⟩

/-- What marking a label does, whatever waits for it. -/
structure Marked (l : Label) (a a' : Assembler) : Prop where
  positions : ∀ l', a'.position? l' = if l = l' then some a.bytes.size else a.position? l'
  count : a'.labels.size = a.labels.size
  pool : a'.pool = a.pool
  handlers : a'.handlers = a.handlers
  error : a.error ≠ none → a'.error ≠ none

theorem marked_of_mark (h : Asm.mark l a = .ok ((), a')) : Marked l a a' := by
  obtain ⟨s, known, unmarked, rfl⟩ := Asm.mark_eq_ok h
  have filled := Assembler.filled_patchAll a.size s.waiting.toList
    (a.setLabel l { position := some a.size, waiting := #[] })
  refine ⟨fun l' => ?_, ?_, filled.pool, filled.handlers, ?_⟩
  · unfold Assembler.position?
    rw [filled.labels]
    exact position?_setLabel a known _ l'
  · rw [filled.labels]
    simp [Assembler.setLabel]
  · exact fun error => filled.error.mpr (.inl error)

theorem Asm.error_mark (h : Asm.mark l a = .ok ((), a')) (fine : a'.error = none) :
    a.error = none := by
  by_contra error
  exact (marked_of_mark h).error error fine

/-- What a branch to a label does. -/
theorem Asm.jump_eq_ok (h : Asm.jump op l a = .ok ((), a')) :
    ∃ s, a.labels[l]? = some s ∧
      ((∃ q, s.position = some q ∧
          (a.append [op.toByte, 0, 0]).patchAll q [a.bytes.size + 1] = a') ∨
        s.position = none ∧ (a.append [op.toByte, 0, 0]).setLabel l
          { waiting := s.waiting.push (a.bytes.size + 1) } = a') := by
  unfold Asm.jump at h
  cases known : a.labels[l]? with
  | none => simp [known, need, bind, Except.bind] at h
  | some s =>
    refine ⟨s, rfl, ?_⟩
    cases place : s.position with
    | some q =>
      simp only [known, need, bind, Except.bind, place, pure, Except.pure, Except.ok.injEq,
        Prod.mk.injEq, true_and] at h
      exact .inl ⟨q, rfl, h⟩
    | none =>
      simp only [known, need, bind, Except.bind, place, pure, Except.pure, Except.ok.injEq,
        Prod.mk.injEq, true_and] at h
      exact .inr ⟨rfl, h⟩

/-- What a jump to a label does to an assembler, whether or not the label is marked. -/
structure Jumped (op : Opcode) (l : Label) (a a' : Assembler) : Prop where
  size : a'.bytes.size = a.bytes.size + 3
  bytes : ∀ k < a.bytes.size, a'.bytes[k]? = a.bytes[k]?
  opcode : a'.bytes[a.bytes.size]? = some op.toByte
  operand : ∀ q, a.position? l = some q → Near (distance a.bytes.size q) →
    Word a'.bytes (a.bytes.size + 1) (distance a.bytes.size q)
  labels : ∀ (l' : Label) (s : LabelState), a.labels[l']? = some s →
    ∃ s', a'.labels[l']? = some s' ∧ s'.position = s.position ∧
      ∀ pos ∈ s.waiting, pos ∈ s'.waiting
  known : ∃ s, a'.labels[l]? = some s ∧ (s.position = none → a.bytes.size + 1 ∈ s.waiting)
  waiting : ∀ (l' : Label) (s' : LabelState) (pos : Nat), a'.labels[l']? = some s' →
    pos ∈ s'.waiting → (∃ s, a.labels[l']? = some s ∧ pos ∈ s.waiting) ∨
      s'.position = none ∧ pos = a.bytes.size + 1 ∧ l' = l
  error : a'.error ≠ none ↔
    a.error ≠ none ∨ ∃ q, a.position? l = some q ∧ ¬ Near (distance a.bytes.size q)
  count : a'.labels.size = a.labels.size
  pool : a'.pool = a.pool
  handlers : a'.handlers = a.handlers

theorem Jumped.positions (jumped : Jumped op l a a') (l' : Label) :
    a'.position? l' = a.position? l' := by
  unfold Assembler.position?
  cases known : a.labels[l']? with
  | some s =>
    obtain ⟨s', known', position, -⟩ := jumped.labels l' s known
    rw [known']
    exact position
  | none =>
    have outside := Array.getElem?_eq_none_iff.mp known
    rw [Array.getElem?_eq_none_iff.mpr (jumped.count ▸ outside)]

/-- A jump to a marked label gets its distance at once. -/
theorem jumped_back (known : a.labels[l]? = some s) (marked : s.position = some q) :
    Jumped op l a ((a.append [op.toByte, 0, 0]).patchAll q [a.bytes.size + 1]) := by
  have place : a.position? l = some q := by
    unfold Assembler.position?
    rw [known]
    exact marked
  have filled := Assembler.filled_patchAll q [a.bytes.size + 1] (a.append [op.toByte, 0, 0])
  have size := a.size_append [op.toByte, 0, 0]
  have bytes (k : Nat) (le : k ≤ a.bytes.size) :
      ((a.append [op.toByte, 0, 0]).patchAll q [a.bytes.size + 1]).bytes[k]?
        = (a.append [op.toByte, 0, 0]).bytes[k]? := by
    apply filled.frame
    intro pos hpos
    obtain rfl := List.mem_singleton.mp hpos
    omega
  refine ⟨filled.size.trans size, ?_, ?_, ?_, ?_, ?_, ?_, ?_, ?_, filled.pool, filled.handlers⟩
  · intro k lt
    rw [bytes k lt.le]
    exact a.getElem?_append_left _ k lt
  · rw [bytes _ le_rfl]
    exact a.getElem?_append _ 0
  · intro q' place' near
    cases place.symm.trans place'
    rw [← distance_eq] at near ⊢
    exact filled.words (by simp [Assembler.Spread]) (by simp [size]) _ List.mem_cons_self near
  · intro l' t found
    exact ⟨t, by rw [filled.labels]; exact found, rfl, fun _ => id⟩
  · refine ⟨s, by rw [filled.labels]; exact known, ?_⟩
    simp [marked]
  · intro l' s' pos found wait
    rw [filled.labels] at found
    exact .inl ⟨s', found, wait⟩
  · rw [filled.error]
    simp [place, ← distance_eq, Assembler.append]
  · rw [filled.labels]
    rfl

theorem jumped_ahead (known : a.labels[l]? = some s) (unmarked : s.position = none) :
    Jumped op l a ((a.append [op.toByte, 0, 0]).setLabel l
      { waiting := s.waiting.push (a.bytes.size + 1) }) := by
  have place : a.position? l = none := by
    unfold Assembler.position?
    rw [known]
    exact unmarked
  have lt : l < a.labels.size := (Array.getElem?_eq_some_iff.mp known).1
  have label (l' : Label) : (a.labels.setIfInBounds l
      { waiting := s.waiting.push (a.bytes.size + 1) })[l']? =
      if l = l' then some { waiting := s.waiting.push (a.bytes.size + 1) }
      else a.labels[l']? := by
    rw [Array.getElem?_setIfInBounds]
    split <;> simp_all
  refine ⟨a.size_append _, a.getElem?_append_left _, a.getElem?_append _ 0, ?_, ?_, ?_, ?_, ?_,
    ?_, rfl, rfl⟩
  · intro q marked
    cases place.symm.trans marked
  · intro l' t found
    by_cases same : l = l'
    · subst same
      cases known.symm.trans found
      refine ⟨_, (label l).trans (if_pos rfl), unmarked.symm, fun pos wait => ?_⟩
      exact Array.mem_push.mpr (.inl wait)
    · exact ⟨t, ((label l').trans (if_neg same)).trans found, rfl, fun _ => id⟩
  · exact ⟨_, (label l).trans (if_pos rfl), fun _ => Array.mem_push.mpr (.inr rfl)⟩
  · intro l' t pos found wait
    have found := (label l').symm.trans found
    by_cases same : l = l'
    · subst same
      rw [if_pos rfl] at found
      cases found
      rcases Array.mem_push.mp wait with old | rfl
      · exact .inl ⟨s, known, old⟩
      · exact .inr ⟨rfl, rfl, rfl⟩
    · rw [if_neg same] at found
      exact .inl ⟨t, found, wait⟩
  · simp [place, Assembler.setLabel, Assembler.append]
  · simp [Assembler.setLabel, Assembler.append]

theorem jumped_of_jump (h : Asm.jump op l a = .ok ((), a')) : Jumped op l a a' := by
  obtain ⟨s, known, ⟨q, marked, rfl⟩ | ⟨unmarked, rfl⟩⟩ := Asm.jump_eq_ok h
  · exact jumped_back known marked
  · exact jumped_ahead known unmarked

theorem Asm.error_jump (h : Asm.jump op l a = .ok ((), a')) (fine : a'.error = none) :
    a.error = none := by
  by_contra error
  exact (jumped_of_jump h).error.mpr (.inl error) fine

/-! ## Offsets -/

/-- A piece of code. -/
inductive Piece (α : Type) where
  | whole (i : Instruction)
  | jump (op : Opcode) (target : α)
deriving DecidableEq, Repr

/-- The number of bytes of a piece. -/
def Piece.size : Piece α → Nat
  | whole i => i.opcode.size
  | jump _ _ => 3

@[simp] theorem Piece.size_jump (op : Opcode) (target : α) : (jump op target).size = 3 := rfl

def extent (pieces : List (Piece α)) : Nat := (pieces.map Piece.size).sum

@[simp] theorem extent_nil : extent ([] : List (Piece α)) = 0 := rfl

@[simp] theorem extent_cons (x : Piece α) (xs : List (Piece α)) :
    extent (x :: xs) = x.size + extent xs := by
  simp [extent]

@[simp] theorem extent_append (xs ys : List (Piece α)) :
    extent (xs ++ ys) = extent xs + extent ys := by
  simp [extent]

/-- A piece stands at an offset. -/
inductive Located : List (Piece α) → Nat → Piece α → Prop where
  | here {x : Piece α} {xs : List (Piece α)} : Located (x :: xs) 0 x
  | later {x y : Piece α} {xs : List (Piece α)} {p : Nat} (h : Located xs p x) :
      Located (y :: xs) (y.size + p) x

variable {pieces : List (Piece α)} {x y : Piece α}

theorem Located.le (h : Located pieces p x) : p + x.size ≤ extent pieces := by
  induction h with
  | here => simp
  | later _ ih => simp; omega

theorem Located.mem (h : Located pieces p x) : x ∈ pieces := by
  induction h with
  | here => exact List.mem_cons_self
  | later _ ih => exact List.mem_cons_of_mem _ ih

theorem located_of_mem (h : x ∈ pieces) : ∃ p, Located pieces p x := by
  induction pieces with
  | nil => cases h
  | cons y ys ih =>
    rcases List.mem_cons.mp h with rfl | h
    · exact ⟨0, .here⟩
    · obtain ⟨p, hp⟩ := ih h
      exact ⟨_, .later hp⟩

/-- A piece at the end stands behind all others. -/
theorem located_append :
    Located (pieces ++ [y]) p x ↔ Located pieces p x ∨ p = extent pieces ∧ x = y := by
  induction pieces generalizing p with
  | nil =>
    constructor
    · intro h
      cases h with
      | here => exact .inr ⟨rfl, rfl⟩
      | later h => cases h
    · rintro (h | ⟨rfl, rfl⟩)
      · cases h
      · exact .here
  | cons z zs ih =>
    constructor
    · intro h
      cases h with
      | here => exact .inl .here
      | later h =>
        rcases ih.mp h with h | ⟨rfl, rfl⟩
        · exact .inl (.later h)
        · exact .inr ⟨by simp, rfl⟩
    · rintro (h | ⟨rfl, rfl⟩)
      · cases h with
        | here => exact .here
        | later h => exact .later (ih.mpr (.inl h))
      · rw [extent_cons]
        exact .later (ih.mpr (.inr ⟨rfl, rfl⟩))

/-- Two pieces are the same or take different bytes. -/
theorem Located.apart (hx : Located pieces p x) (hy : Located pieces q y) :
    p + x.size ≤ q ∨ q + y.size ≤ p ∨ p = q ∧ x = y := by
  induction hx generalizing q with
  | here =>
    cases hy with
    | here => exact .inr (.inr ⟨rfl, rfl⟩)
    | later _ => exact .inl (by omega)
  | later _ ih =>
    cases hy with
    | here => exact .inr (.inl (by omega))
    | later hy =>
      rcases ih hy with h | h | ⟨rfl, rfl⟩
      · exact .inl (by omega)
      · exact .inr (.inl (by omega))
      · exact .inr (.inr ⟨rfl, rfl⟩)

/-! ## Assemblers -/

/-- The opcode of a piece is known, and a jump has an operand of two bytes. -/
def Piece.Proper : Piece α → Prop
  | whole i => i.opcode.isKnown = true
  | jump op _ => op.isKnown = true ∧ op.shape.width = 2

/-- The assembler keeps the pieces. -/
structure Holds (pieces : List (Piece Label)) (a : Assembler) : Prop where
  size : a.bytes.size = extent pieces
  proper : ∀ x ∈ pieces, x.Proper
  whole : ∀ {p i}, Located pieces p (.whole i) → instructionAt a.bytes p = .ok i
  opcode : ∀ {p op l}, Located pieces p (.jump op l) → a.bytes[p]? = some op.toByte
  operand : ∀ {p op l q}, Located pieces p (.jump op l) → a.position? l = some q →
    Near (distance p q) → Word a.bytes (p + 1) (distance p q)
  waits : ∀ {p op l}, Located pieces p (.jump op l) →
    ∃ s, a.labels[l]? = some s ∧ (s.position = none → p + 1 ∈ s.waiting)
  waiting : ∀ {l s pos}, a.labels[l]? = some s → pos ∈ s.waiting →
    s.position = none ∧ ∃ p op, pos = p + 1 ∧ Located pieces p (.jump op l)
  error : a.error ≠ none ↔
    ∃ p op l q, Located pieces p (.jump op l) ∧ a.position? l = some q ∧ ¬ Near (distance p q)

theorem holds_nil : Holds [] {} where
  size := rfl
  proper x h := by cases h
  whole h := by cases h
  opcode h := by cases h
  operand h := by cases h
  waits h := by cases h
  waiting h := by simp at h
  error := by
    constructor
    · intro h
      exact absurd rfl h
    · rintro ⟨p, op, l, q, h, -⟩
      cases h

/-- What is kept does not depend on the pool and the exception table. -/
theorem Holds.congr {pieces : List (Piece Label)} (holds : Holds pieces a)
    (bytes : a'.bytes = a.bytes) (labels : a'.labels = a.labels) (error : a'.error = a.error) :
    Holds pieces a' := by
  obtain ⟨_, _, _, _, _⟩ := a
  obtain ⟨_, _, _, _, _⟩ := a'
  cases bytes
  cases labels
  cases error
  exact { __ := holds }

section Steps

variable {pieces : List (Piece Label)}

theorem Holds.le (holds : Holds pieces a) {x : Piece Label} (h : Located pieces p x) :
    p + x.size ≤ a.bytes.size := by
  rw [holds.size]
  exact h.le

/-- The bytes of the pieces are the same behind any appended bytes. -/
theorem Holds.agree (holds : Holds pieces a) {x : Piece Label} (h : Located pieces p x)
    (bs : List UInt8) : Agree a.bytes (a.append bs).bytes p x.size :=
  fun k _ high => a.getElem?_append_left bs k (high.trans_le (holds.le h))

theorem Word.of_agree {code code' : Array UInt8} {n : Nat} (agree : Agree code code' p n)
    (three : 3 ≤ n) (word : Word code (p + 1) d) : Word code' (p + 1) d :=
  ⟨(agree _ (by omega) (by omega)).trans word.1, (agree _ (by omega) (by omega)).trans word.2⟩

theorem Holds.append (holds : Holds pieces a) {i : Instruction} {bs : List UInt8}
    (known : i.opcode.isKnown = true) (length : bs.length = i.opcode.size)
    (read : instructionAt (a.append bs).bytes a.bytes.size = .ok i) :
    Holds (pieces ++ [.whole i]) (a.append bs) := by
  have old {p : Nat} {op : Opcode} {l : Label}
      (h : Located (pieces ++ [.whole i]) p (.jump op l)) : Located pieces p (.jump op l) := by
    rcases located_append.mp h with h | ⟨-, other⟩
    · exact h
    · cases other
  refine ⟨?_, ?_, ?_, ?_, ?_, ?_, ?_, ?_⟩
  · rw [a.size_append, holds.size, extent_append, length]
    simp [Piece.size]
  · rw [List.forall_mem_append]
    exact ⟨holds.proper, by simpa [Piece.Proper] using known⟩
  · intro p j h
    rcases located_append.mp h with h | ⟨rfl, same⟩
    · exact instructionAt_congr (holds.whole h) (holds.agree h bs)
    · cases same
      rw [← holds.size]
      exact read
  · intro p op l h
    rw [holds.agree (old h) bs p le_rfl (by simp)]
    exact holds.opcode (old h)
  · intro p op l q h marked near
    exact (holds.operand (old h) marked near).of_agree (holds.agree (old h) bs) le_rfl
  · intro p op l h
    exact holds.waits (old h)
  · intro l s pos known wait
    obtain ⟨unmarked, p, op, rfl, h⟩ := holds.waiting known wait
    exact ⟨unmarked, p, op, rfl, located_append.mpr (.inl h)⟩
  · rw [show (a.append bs).error = a.error from rfl, holds.error]
    constructor
    · rintro ⟨p, op, l, q, h, far⟩
      exact ⟨p, op, l, q, located_append.mpr (.inl h), far⟩
    · rintro ⟨p, op, l, q, h, far⟩
      exact ⟨p, op, l, q, old h, far⟩

theorem Holds.emit (holds : Holds pieces a) (known : op.isKnown = true)
    (shape : op.shape = .plain) : Holds (pieces ++ [.whole ⟨op, .plain⟩]) (a.emit op) := by
  rw [Assembler.emit_eq_append]
  apply holds.append known
  · simp [Opcode.size, Opcode.operandBytes, shape, Opcode.Shape.width]
  · apply instructionAt_of_operandAt known (a.getElem?_append _ 0)
    rw [shape]
    rfl

theorem Holds.emitWord (holds : Holds pieces a) (known : op.isKnown = true)
    (two : op.shape.width = 2) (n : Int) :
    Holds (pieces ++ [.whole ⟨op, .ofWord n op.shape⟩]) (a.emitWord op n) := by
  apply holds.append known
  · simp [Opcode.size, Opcode.operandBytes, two]
  · exact instructionAt_word known two (a.getElem?_append _ 0) (a.word_emitWord op n [])

theorem signed8_lowByte (low : -128 ≤ d) (high : d ≤ 127) :
    signed8 (Assembler.lowByte d).toNat = d := by
  unfold signed8
  rw [toNat_lowByte, Int.bmod_def]
  omega

theorem Holds.emitIncrement (holds : Holds pieces a) (range : 0 ≤ k ∧ k ≤ 65535) :
    Holds (pieces ++ [.whole ⟨.iinc, .increment k.toNat (signed8 (Assembler.lowByte d).toNat)⟩])
      (a.emitIncrement k d) := by
  let bs := [Opcode.toByte .iinc, Assembler.lowByte k, Assembler.highByte k, Assembler.lowByte d]
  have word : wordAt (a.append bs).bytes (a.bytes.size + 1) = .ok (k % 65536).toNat :=
    (a.word_emitWord .iinc k [Assembler.lowByte d]).wordAt
  rw [Int.emod_eq_of_lt range.1 (by omega)] at word
  rw [Assembler.emitIncrement, Assembler.emitLocal, if_pos range]
  have byte := byteAt_of_getElem? (a.getElem?_append bs 3)
  refine holds.append rfl (show bs.length = _ from rfl)
    (instructionAt_of_operandAt rfl (a.getElem?_append bs 0) ?_)
  simp only [Opcode.shape, operandAt, word, byte, Nat.add_assoc, bind, Except.bind]
  rfl

theorem Holds.repeated (holds : Holds pieces a) (known : op.isKnown = true)
    (shape : op.shape = .plain) (count : Nat) :
    Holds (pieces ++ List.replicate count (.whole ⟨op, .plain⟩))
      (Nat.repeat (·.emit op) count a) := by
  induction count with
  | zero => simpa [Nat.repeat] using holds
  | succ count ih =>
    rw [List.replicate_succ', ← List.append_assoc]
    exact ih.emit known shape

/-! ### Jumps -/

theorem Holds.jump (holds : Holds pieces a) (proper : (Piece.jump op l).Proper)
    (jumped : Jumped op l a a') : Holds (pieces ++ [.jump op l]) a' := by
  have agree {p : Nat} {x : Piece Label} (h : Located pieces p x) :
      Agree a.bytes a'.bytes p x.size := by
    intro k _ high
    have le := holds.le h
    exact jumped.bytes k (by omega)
  refine ⟨?_, ?_, ?_, ?_, ?_, ?_, ?_, ?_⟩
  · rw [jumped.size, holds.size, extent_append]
    simp [Piece.size]
  · rw [List.forall_mem_append]
    exact ⟨holds.proper, by simpa using proper⟩
  · intro p i h
    rcases located_append.mp h with h | ⟨-, other⟩
    · exact instructionAt_congr (holds.whole h) (agree h)
    · cases other
  · intro p op' l' h
    rcases located_append.mp h with h | ⟨rfl, same⟩
    · rw [agree h p le_rfl (by simp)]
      exact holds.opcode h
    · cases same
      rw [← holds.size]
      exact jumped.opcode
  · intro p op' l' q h
    rw [jumped.positions]
    rcases located_append.mp h with h | ⟨rfl, same⟩
    · intro marked near
      exact (holds.operand h marked near).of_agree (agree h) le_rfl
    · cases same
      rw [← holds.size]
      exact jumped.operand q
  · intro p op' l' h
    rcases located_append.mp h with h | ⟨rfl, same⟩
    · obtain ⟨s, known, wait⟩ := holds.waits h
      obtain ⟨s', known', position, more⟩ := jumped.labels l' s known
      exact ⟨s', known', fun unmarked => more _ (wait (position ▸ unmarked))⟩
    · cases same
      rw [← holds.size]
      exact jumped.known
  · intro l' s' pos known' wait
    rcases jumped.waiting l' s' pos known' wait with ⟨s, known, old⟩ | ⟨unmarked, rfl, rfl⟩
    · obtain ⟨unmarked, p, op', rfl, h⟩ := holds.waiting known old
      obtain ⟨t, found, position, -⟩ := jumped.labels l' s known
      cases known'.symm.trans found
      exact ⟨position.trans unmarked, p, op', rfl, located_append.mpr (.inl h)⟩
    · exact ⟨unmarked, _, op, rfl, located_append.mpr (.inr ⟨holds.size, rfl⟩)⟩
  · rw [jumped.error, holds.error]
    simp only [jumped.positions]
    constructor
    · rintro (⟨p, op', l', q, h, far⟩ | ⟨q, marked, far⟩)
      · exact ⟨p, op', l', q, located_append.mpr (.inl h), far⟩
      · exact ⟨_, op, l, q, located_append.mpr (.inr ⟨holds.size, rfl⟩), marked, far⟩
    · rintro ⟨p, op', l', q, h, marked, far⟩
      rcases located_append.mp h with h | ⟨rfl, same⟩
      · exact .inl ⟨p, op', l', q, h, marked, far⟩
      · cases same
        rw [← holds.size] at far
        exact .inr ⟨q, marked, far⟩

/-- A jump can be read as soon as it is written; if its label is marked, with the distance. -/
theorem Holds.reads (holds : Holds pieces a) (fine : a.error = none) (shape : op.shape = .branch)
    (located : Located pieces p (.jump op l)) :
    ∃ d, instructionAt a.bytes p = .ok ⟨op, .branch d⟩ ∧
      ∀ q, a.position? l = some q → d = distance p q := by
  obtain ⟨known, -⟩ := holds.proper _ located.mem
  suffices operand : ∃ d, operandAt a.bytes (p + 1) .branch = .ok (.branch d) ∧
      ∀ q, a.position? l = some q → d = distance p q by
    obtain ⟨d, operand, far⟩ := operand
    rw [← shape] at operand
    exact ⟨d, instructionAt_of_operandAt known (holds.opcode located) operand, far⟩
  cases marked : a.position? l with
  | some q =>
    have near : Near (distance p q) := by
      by_contra far
      exact holds.error.mpr ⟨p, op, l, q, located, marked, far⟩ fine
    refine ⟨_, operandAt_branch near.1 near.2 (holds.operand located marked near), ?_⟩
    rintro q' ⟨⟩
    rfl
  | none =>
    have le : p + 3 ≤ a.bytes.size := holds.le located
    have first := Array.getElem?_eq_getElem (show p + 1 < a.bytes.size by omega)
    have second := Array.getElem?_eq_getElem (show p + 1 + 1 < a.bytes.size by omega)
    simp only [operandAt, wordAt, byteAt_of_getElem? first, byteAt_of_getElem? second]
    refine ⟨_, rfl, ?_⟩
    rintro q ⟨⟩

theorem jump_of_known (known : a.labels[l]? = some s) (op : Opcode) :
    ∃ a', Asm.jump op l a = .ok ((), a') := by
  unfold Asm.jump
  rw [known]
  simp only [need, bind, Except.bind]
  cases s.position <;> exact ⟨_, rfl⟩

/-! ### Labels -/

theorem mark_of_unmarked (known : a.labels[l]? = some s) (unmarked : s.position = none) :
    ∃ a', Asm.mark l a = .ok ((), a') := by
  unfold Asm.mark
  rw [known]
  simp only [need, bind, Except.bind, unmarked]
  exact ⟨_, rfl⟩

/-- The operands waiting for a label do not overlap. -/
theorem Holds.spread (holds : Holds pieces a) (known : a.labels[l]? = some s) :
    Assembler.Spread s.waiting.toList := by
  intro x hx y hy
  obtain ⟨-, p, op, rfl, hp⟩ := holds.waiting known (Array.mem_toList_iff.mp hx)
  obtain ⟨-, q, op', rfl, hq⟩ := holds.waiting known (Array.mem_toList_iff.mp hy)
  have apart := hp.apart hq
  rw [Piece.size_jump, Piece.size_jump] at apart
  omega

/-- The operands waiting for a label lie in the code. -/
theorem Holds.inside (holds : Holds pieces a) (known : a.labels[l]? = some s) :
    ∀ pos ∈ s.waiting.toList, pos + 1 < a.bytes.size := by
  intro pos hpos
  obtain ⟨-, p, op, rfl, hp⟩ := holds.waiting known (Array.mem_toList_iff.mp hpos)
  have le := holds.le hp
  rw [Piece.size_jump] at le
  omega

/-- No operand waiting for a label is in the bytes of another piece, nor in the first byte of a
jump. -/
theorem Holds.elsewhere (holds : Holds pieces a) (known : a.labels[l]? = some s) {x : Piece Label}
    {k : Nat} (h : Located pieces p x) (low : p ≤ k) (high : k < p + x.size)
    (other : k = p ∨ ∀ op, x ≠ .jump op l) : ∀ pos ∈ s.waiting.toList, k ≠ pos ∧ k ≠ pos + 1 := by
  intro pos hpos
  obtain ⟨-, q, op, rfl, hq⟩ := holds.waiting known (Array.mem_toList_iff.mp hpos)
  have apart := h.apart hq
  rw [Piece.size_jump] at apart
  rcases apart with before | behind | ⟨rfl, rfl⟩
  · omega
  · omega
  · rcases other with rfl | other
    · omega
    · exact absurd rfl (other op)

/-- Marking a label keeps the pieces: the jumps to it get their distances. -/
theorem Holds.mark (holds : Holds pieces a) (h : Asm.mark l a = .ok ((), a')) :
    Holds pieces a' := by
  have positions := (marked_of_mark h).positions
  obtain ⟨s, known, unmarked, rfl⟩ := Asm.mark_eq_ok h
  have lt : l < a.labels.size := (Array.getElem?_eq_some_iff.mp known).1
  have unplaced : a.position? l = none := by simp [Assembler.position?, known, unmarked]
  generalize hb : (a.setLabel l { position := some a.size, waiting := #[] }) = b
  have filled := Assembler.filled_patchAll a.size s.waiting.toList b
  rw [hb] at positions
  generalize b.patchAll a.size s.waiting.toList = a' at filled positions
  subst hb
  have labels (l' : Label) : a'.labels[l']? =
      if l = l' then some { position := some a.size, waiting := #[] } else a.labels[l']? := by
    rw [filled.labels, Assembler.setLabel, Array.getElem?_setIfInBounds]
    split <;> simp_all
  have agree {p : Nat} {x : Piece Label} (h : Located pieces p x)
      (other : ∀ op, x ≠ .jump op l) : Agree a.bytes a'.bytes p x.size :=
    fun k low high => filled.frame k (holds.elsewhere known h low high (.inr other))
  refine ⟨filled.size.trans holds.size, holds.proper, ?_, ?_, ?_, ?_, ?_, ?_⟩
  · intro p i h
    exact instructionAt_congr (holds.whole h) (agree h (by simp))
  · intro p op l' h
    rw [filled.frame p (holds.elsewhere known h le_rfl (by simp) (.inl rfl))]
    exact holds.opcode h
  · intro p op l' q h marked near
    rw [positions] at marked
    by_cases same : l = l'
    · subst same
      -- the jump was waiting, so its operand was patched
      rw [if_pos rfl] at marked
      cases marked
      obtain ⟨t, found, wait⟩ := holds.waits h
      cases known.symm.trans found
      rw [← distance_eq] at near ⊢
      exact filled.words (holds.spread known) (holds.inside known) (p + 1)
        (Array.mem_toList_iff.mpr (wait unmarked)) near
    · rw [if_neg same] at marked
      exact (holds.operand h marked near).of_agree
        (agree h (by rintro op ⟨⟩; exact same rfl)) le_rfl
  · intro p op l' h
    rw [labels]
    by_cases same : l = l'
    · rw [if_pos same]
      exact ⟨_, rfl, by simp⟩
    · rw [if_neg same]
      exact holds.waits h
  · intro l' t pos found wait
    rw [labels] at found
    by_cases same : l = l'
    · rw [if_pos same] at found
      cases found
      simp at wait
    · rw [if_neg same] at found
      exact holds.waiting found wait
  · rw [filled.error, show (a.setLabel l _).error = a.error from rfl, holds.error]
    constructor
    · rintro (⟨p, op, l', q, h, marked, far⟩ | ⟨pos, wait, far⟩)
      · refine ⟨p, op, l', q, h, ?_, far⟩
        rw [positions, if_neg]
        · exact marked
        · rintro rfl
          cases unplaced.symm.trans marked
      · obtain ⟨-, p, op, rfl, h⟩ := holds.waiting known (Array.mem_toList_iff.mp wait)
        refine ⟨p, op, l, a.bytes.size, h, by rw [positions, if_pos rfl], ?_⟩
        rw [← distance_eq]
        exact far
    · rintro ⟨p, op, l', q, h, marked, far⟩
      rw [positions] at marked
      by_cases same : l = l'
      · subst same
        rw [if_pos rfl] at marked
        cases marked
        obtain ⟨t, found, wait⟩ := holds.waits h
        cases known.symm.trans found
        rw [← distance_eq] at far
        exact .inr ⟨p + 1, Array.mem_toList_iff.mpr (wait unmarked), far⟩
      · rw [if_neg same] at marked
        exact .inl ⟨p, op, l', q, h, marked, far⟩

theorem Holds.newLabel (holds : Holds pieces a) :
    Holds pieces { a with labels := a.labels.push {} } := by
  have old {l : Label} {s : LabelState} (h : a.labels[l]? = some s) :
      (a.labels.push {})[l]? = some s := by
    have lt : l < a.labels.size := (Array.getElem?_eq_some_iff.mp h).1
    rw [Array.getElem?_push_lt lt, ← Array.getElem?_eq_getElem lt, h]
  refine ⟨holds.size, holds.proper, holds.whole, holds.opcode, ?_, ?_, ?_, ?_⟩
  · intro p op l q h
    rw [position?_push]
    exact holds.operand h
  · intro p op l h
    obtain ⟨s, known, wait⟩ := holds.waits h
    exact ⟨s, old known, wait⟩
  · intro l s pos known wait
    rw [Array.getElem?_push] at known
    split at known
    · cases known
      simp at wait
    · exact holds.waiting known wait
  · simp only [position?_push]
    exact holds.error

end Steps

end HostLowering.Machine
