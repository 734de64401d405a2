import HostLowering.Proofs.Machine.Pieces

set_option autoImplicit false

/-! # Symbolic code

The code that an assembler holds, as a list of *items* with the latest first: a line is an opcode
with its operand, where the operand of a branch is a label, and a mark is the place of a label. Each
line also carries the operands it needs and its effect on the depth of the stack. `Coded items a`
says that the assembler holds these items: every line can be read at its offset, a branch to a
marked label with its distance and a branch to another label on the list of those waiting for it.
There is one lemma for each step of the assembler. A step that records an error leaves nothing to
say, so all of them are about assemblers without one.
-/

namespace HostLowering.Machine

theorem Opcode.size_of_branch {op : Opcode} (shape : op.shape = .branch) : op.size = 3 := by
  simp [Opcode.size, Opcode.operandBytes, shape, Opcode.Shape.width]

/-! ## Items -/

/-- The operand of a line: known, or the distance to a label. -/
inductive Part where
  | known (o : Operand)
  | branch (l : Label)
deriving DecidableEq, Repr

/-- A line of code with the operands it needs and its effect on the depth, or the place of a
label. -/
inductive Item where
  | line (op : Opcode) (part : Part) (needed : Nat) (effect : Int)
  | mark (l : Label)
deriving DecidableEq, Repr

/-- The shape of the operand of a line. -/
def Part.shape : Part → Opcode.Shape
  | known o => o.shape
  | branch _ => .branch

/-- The use of the stack that a line states is that of its instruction. -/
def Part.Uses (pool : Array Constant) (op : Opcode) (needed : Nat) (effect : Int) : Part → Prop
  | known o => Machine.Uses { pool } ⟨op, o⟩ needed effect
  | branch _ => op.isInvoke = false ∧ needed = op.operandsNeeded ∧ effect = op.stackEffect

/-- The number of bytes of an item. -/
def Item.size : Item → Nat
  | line op _ _ _ => op.size
  | mark _ => 0

/-- The number of bytes of all items. -/
def span (items : List Item) : Nat := (items.map Item.size).sum

@[simp] theorem span_nil : span [] = 0 := rfl

@[simp] theorem span_cons (i : Item) (items : List Item) :
    span (i :: items) = i.size + span items := by
  simp [span]

/-- An item stands at an offset. -/
inductive Stands : List Item → Nat → Item → Prop where
  | last {items : List Item} {i : Item} : Stands (i :: items) (span items) i
  | earlier {items : List Item} {x i : Item} {p : Nat} (h : Stands items p i) :
      Stands (x :: items) p i

variable {items : List Item} {i j : Item} {p q : Nat} {part : Part} {k : Int}

theorem Stands.le (h : Stands items p i) : p + i.size ≤ span items := by
  induction h with
  | last => simp; omega
  | earlier _ ih => simp; omega

theorem stands_cons : Stands (j :: items) p i ↔ Stands items p i ∨ p = span items ∧ i = j := by
  constructor
  · intro h
    cases h with
    | last => exact .inr ⟨rfl, rfl⟩
    | earlier h => exact .inl h
  · rintro (h | ⟨rfl, rfl⟩)
    · exact .earlier h
    · exact .last

/-! ## Assemblers that hold items -/

/-- The distance of a branch at an offset, as far as its label is known. -/
def Distance (a : Assembler) (p : Nat) (l : Label) (d : Int) : Prop :=
  ∃ s, a.labels[l]? = some s ∧
    (∀ q, s.position = some q → d = q - (p + 3)) ∧ (s.position = none → p + 1 ∈ s.waiting)

/-- A line can be read at an offset. -/
def Written (a : Assembler) (p : Nat) (op : Opcode) : Part → Prop
  | .known o => instructionAt a.bytes p = .ok ⟨op, o⟩
  | .branch l => ∃ d, instructionAt a.bytes p = .ok ⟨op, .branch d⟩ ∧ Distance a p l d

/-- The assembler holds the items. -/
structure Coded (items : List Item) (a : Assembler) : Prop where
  size : a.bytes.size = span items
  lines : ∀ {p : Nat} {op : Opcode} {part : Part} {n : Nat} {e : Int},
    Stands items p (.line op part n e) →
      op.isKnown = true ∧ part.shape = op.shape ∧ part.Uses a.pool.entries op n e ∧
        Written a p op part
  marks : ∀ l p, a.position? l = some p ↔ Stands items p (.mark l)
  waiting : ∀ l s pos, a.labels[l]? = some s → pos ∈ s.waiting →
    s.position = none ∧
      ∃ p op n e, pos = p + 1 ∧ Stands items p (.line op (.branch l) n e)

theorem coded_nil : Coded [] {} where
  size := rfl
  lines h := by cases h
  marks l p := by
    constructor
    · intro h
      simp [Assembler.position?] at h
    · intro h
      cases h
  waiting l s pos h := by simp at h

theorem methodAt_extends {pool pool' : Array Constant} (h : Extends pool pool') {k : Nat}
    {r : MethodRef} (found : Method.methodAt { pool } k = .ok r) :
    Method.methodAt { pool := pool' } k = .ok r := by
  unfold Method.methodAt Method.constantAt at found ⊢
  cases hc : pool[k]? with
  | none => simp [hc, bind, Except.bind] at found
  | some c => simpa [hc, h k c hc] using found

theorem Part.Uses.mono {pool pool' : Array Constant} (h : Extends pool pool') {op : Opcode}
    {n : Nat} {e : Int} (use : part.Uses pool op n e) : part.Uses pool' op n e := by
  cases part with
  | branch l => exact use
  | known o =>
    cases use with
    | invocation invoke entry => exact .invocation invoke (methodAt_extends h entry)
    | other plain => exact .other plain

/-! ## Pieces of items -/

variable {a a' : Assembler} {op : Opcode} {n : Nat} {e : Int}

/-- What is emitted for a line. -/
def Part.piece (op : Opcode) : Part → Piece Label
  | known o => .whole ⟨op, o⟩
  | branch l => .jump op l

/-- What is emitted for items, in order. -/
def pieces : List Item → List (Piece Label)
  | [] => []
  | .line op part _ _ :: items => pieces items ++ [part.piece op]
  | .mark _ :: items => pieces items

/-- The opcodes of the lines are known, and their operands have the right shape. -/
def Shaped (items : List Item) : Prop :=
  ∀ {p op part n e}, Stands items p (.line op part n e) → op.isKnown = true ∧ part.shape = op.shape

theorem extent_pieces (shaped : Shaped items) : extent (pieces items) = span items := by
  induction items with
  | nil => rfl
  | cons x items ih =>
    have rest := ih fun h => shaped (.earlier h)
    cases x with
    | mark l => simpa [pieces, Item.size] using rest
    | line op part n e =>
      have size : (part.piece op).size = op.size := by
        cases part with
        | known o => rfl
        | branch l => exact (Opcode.size_of_branch (shaped .last).2.symm).symm
      simp [pieces, rest, size, Item.size, Nat.add_comm]

theorem located_pieces {x : Piece Label} (shaped : Shaped items) : Located (pieces items) p x ↔
    ∃ op part n e, Stands items p (.line op part n e) ∧ part.piece op = x := by
  induction items with
  | nil =>
    constructor
    · intro h
      cases h
    · rintro ⟨op, part, n, e, h, -⟩
      cases h
  | cons y items ih =>
    have rest := ih fun h => shaped (.earlier h)
    cases y with
    | mark l => simp [pieces, rest, stands_cons]
    | line op part n e =>
      rw [pieces, located_append, rest, extent_pieces fun h => shaped (.earlier h)]
      simp only [stands_cons]
      constructor
      · rintro (⟨op', part', n', e', old, same⟩ | ⟨rfl, rfl⟩)
        · exact ⟨op', part', n', e', .inl old, same⟩
        · exact ⟨op, part, n, e, .inr ⟨rfl, rfl⟩, rfl⟩
      · rintro ⟨op', part', n', e', old | ⟨rfl, same⟩, rfl⟩
        · exact .inl ⟨op', part', n', e', old, rfl⟩
        · cases same
          exact .inr ⟨rfl, rfl⟩

theorem Coded.shaped (coded : Coded items a) : Shaped items :=
  fun h => ⟨(coded.lines h).1, (coded.lines h).2.1⟩

/-- Where items are coded their pieces are kept, as if there had not been an error. -/
theorem Coded.holds (coded : Coded items a) : Holds (pieces items) { a with error := none } := by
  have line {p : Nat} {x : Piece Label} (h : Located (pieces items) p x) :=
    (located_pieces coded.shaped).mp h
  have jump {p : Nat} {op : Opcode} {l : Label} (h : Located (pieces items) p (.jump op l)) :
      ∃ d, instructionAt a.bytes p = .ok ⟨op, .branch d⟩ ∧ op.isKnown = true ∧ op.shape = .branch ∧
        Distance a p l d := by
    obtain ⟨op', part, n, e, stands, same⟩ := line h
    cases part with
    | known o => cases same
    | branch l =>
      cases same
      obtain ⟨known, shape, -, d, read, distance⟩ := coded.lines stands
      exact ⟨d, read, known, shape.symm, distance⟩
  have place {p : Nat} {op : Opcode} {l : Label} {q : Nat}
      (h : Located (pieces items) p (.jump op l)) (marked : a.position? l = some q) :
      Word a.bytes (p + 1) (distance p q) ∧ Near (distance p q) := by
    obtain ⟨d, read, -, shape, s, label, far, -⟩ := jump h
    rw [Assembler.position?, label] at marked
    cases far q marked
    obtain ⟨-, -, -, operand⟩ := instructionAt_eq_ok.mp read
    rw [shape] at operand
    exact word_of_operandAt operand
  refine {
    size := coded.size.trans (extent_pieces coded.shaped).symm
    proper := fun x mem => ?_
    whole := fun h => ?_
    opcode := fun h => ?_
    operand := fun h marked _ => (place h marked).1
    waits := fun h => ?_
    waiting := fun {l s pos} known wait => ?_
    error := ⟨fun no => absurd rfl no, ?_⟩ }
  · obtain ⟨p, h⟩ := located_of_mem mem
    cases x with
    | whole i =>
      obtain ⟨op, part, n, e, stands, same⟩ := line h
      cases part with
      | known o =>
        cases same
        exact (coded.lines stands).1
      | branch l => cases same
    | jump op l =>
      obtain ⟨-, -, known, shape, -⟩ := jump h
      exact ⟨known, by rw [shape]; rfl⟩
  · obtain ⟨op, part, n, e, stands, same⟩ := line h
    cases part with
    | known o =>
      cases same
      exact (coded.lines stands).2.2.2
    | branch l => cases same
  · obtain ⟨d, read, -⟩ := jump h
    exact byte_of_instructionAt read
  · obtain ⟨-, -, -, -, s, label, -, wait⟩ := jump h
    exact ⟨s, label, wait⟩
  · obtain ⟨unmarked, p, op, n, e, rfl, stands⟩ := coded.waiting l s pos known wait
    exact ⟨unmarked, p, op, rfl, (located_pieces coded.shaped).mpr ⟨_, _, _, _, stands, rfl⟩⟩
  · rintro ⟨p, op, l, q, h, marked, far⟩
    exact absurd (place h marked).2 far

/-- Items whose pieces are kept are coded, if their lines and marks are as they should be. -/
theorem Coded.of_holds (holds : Holds (pieces items) { a with error := none }) (shaped : Shaped items)
    (uses : ∀ {p op part n e}, Stands items p (.line op part n e) → part.Uses a.pool.entries op n e)
    (marks : ∀ l p, a.position? l = some p ↔ Stands items p (.mark l)) : Coded items a where
  size := holds.size.trans (extent_pieces shaped)
  lines {p op part n e} stands := by
    have located := (located_pieces shaped).mpr ⟨op, part, n, e, stands, rfl⟩
    obtain ⟨known, shape⟩ := shaped stands
    refine ⟨known, shape, uses stands, ?_⟩
    cases part with
    | known o => exact holds.whole located
    | branch l =>
      obtain ⟨d, read, far⟩ := holds.reads rfl shape.symm located
      obtain ⟨s, label, wait⟩ := holds.waits located
      refine ⟨d, read, s, label, fun q marked => far q ?_, wait⟩
      rw [Assembler.position?, label]
      exact marked
  marks
  waiting l s pos known wait := by
    obtain ⟨unmarked, p, op, rfl, located⟩ := holds.waiting known wait
    obtain ⟨op', part, n, e, stands, same⟩ := (located_pieces shaped).mp located
    cases part with
    | known o => cases same
    | branch l =>
      cases same
      exact ⟨unmarked, p, op, n, e, rfl, stands⟩

/-- Items stay coded where no code is added and no label is marked. -/
theorem Coded.keep (coded : Coded items a) (holds : Holds (pieces items) { a' with error := none })
    (positions : ∀ l, a'.position? l = a.position? l)
    (pool : Extends a.pool.entries a'.pool.entries) : Coded items a' := by
  refine .of_holds holds coded.shaped (fun stands => (coded.lines stands).2.2.1.mono pool) fun l p => ?_
  rw [positions, coded.marks]

/-- The items do not depend on the rest of the assembler, and a longer pool will do. -/
theorem Coded.of_bytes (coded : Coded items a) (bytes : a'.bytes = a.bytes)
    (labels : a'.labels = a.labels) (pool : Extends a.pool.entries a'.pool.entries) :
    Coded items a' := by
  refine coded.keep (coded.holds.congr bytes labels rfl) (fun l => ?_) pool
  unfold Assembler.position?
  rw [labels]

/-- A line that is appended. -/
theorem Coded.line (coded : Coded items a)
    (holds : Holds (pieces items ++ [part.piece op]) { a' with error := none })
    (positions : ∀ l, a'.position? l = a.position? l) (pool : a'.pool = a.pool)
    (known : op.isKnown = true) (shape : part.shape = op.shape)
    (use : part.Uses a.pool.entries op n e) : Coded (.line op part n e :: items) a' := by
  refine .of_holds holds (fun stands => ?_) (fun stands => ?_) fun l p => ?_
  · rcases stands_cons.mp stands with old | ⟨-, same⟩
    · exact coded.shaped old
    · cases same
      exact ⟨known, shape⟩
  · rw [pool]
    rcases stands_cons.mp stands with old | ⟨-, same⟩
    · exact (coded.lines old).2.2.1
    · cases same
      exact use
  · rw [positions, coded.marks, stands_cons]
    simp

theorem Coded.emitWord (coded : Coded items a) (known : op.isKnown = true)
    (two : op.shape.width = 2)
    (use : Machine.Uses { pool := a.pool.entries } ⟨op, .ofWord k op.shape⟩ n e) :
    Coded (.line op (.known (.ofWord k op.shape)) n e :: items) (a.emitWord op k) :=
  coded.line (coded.holds.emitWord known two k) (fun _ => rfl) rfl known (Operand.shape_ofWord two) use

/-! ## Steps -/

/-- The assembler holds the items, and its pool is in order. -/
structure Held (refs : Set MethodRef) (items : List Item) (a : Assembler) : Prop where
  coded : Coded items a
  keyed : a.pool.Keyed refs

/-- What a step of the assembler keeps: the places of labels and the exception table. -/
structure Assembler.Kept (a a' : Assembler) : Prop where
  positions : ∀ l, a'.position? l = a.position? l
  labels : a.labels.size ≤ a'.labels.size
  handlers : a'.handlers = a.handlers

/-- A step that touches no label. -/
theorem Assembler.Kept.of_labels (labels : a'.labels = a.labels)
    (handlers : a'.handlers = a.handlers) : a.Kept a' where
  positions l := by
    unfold Assembler.position?
    rw [labels]
  labels := labels ▸ le_rfl
  handlers := handlers

variable {refs : Set MethodRef} {c : Constant} {l : Label}

theorem Held.emit (held : Held refs items a) (known : op.isKnown = true)
    (shape : op.shape = .plain) :
    Held refs (.line op (.known .plain) op.operandsNeeded op.stackEffect :: items) (a.emit op) ∧
      a.Kept (a.emit op) := by
  have plain : op.isInvoke = false := by
    by_contra invoke
    rw [Bool.not_eq_false] at invoke
    simp [Opcode.shape_of_isInvoke invoke] at shape
  exact ⟨⟨held.coded.line (held.coded.holds.emit known shape) (fun _ => rfl) rfl known shape.symm
    (.other plain), held.keyed⟩, .of_labels rfl rfl⟩

theorem Held.emitShort (held : Held refs items a) :
    Held refs (.line .sipush (.known (.ofWord k .short)) 0 1 :: items) (a.emitWord .sipush k) ∧
      a.Kept (a.emitWord .sipush k) :=
  ⟨⟨held.coded.emitWord rfl rfl (.other rfl), held.keyed⟩, .of_labels rfl rfl⟩

theorem Held.emitLocal (held : Held refs items a) (shape : op.shape = .slot)
    (fine : (a.emitLocal op k).error = none) :
    0 ≤ k ∧ Held refs (.line op (.known (.slot k.toNat)) op.operandsNeeded op.stackEffect :: items)
      (a.emitLocal op k) ∧ a.Kept (a.emitLocal op k) := by
  obtain ⟨-, range⟩ := a.error_emitLocal fine
  have known : op.isKnown = true := by cases op <;> first | rfl | cases shape
  have plain : op.isInvoke = false := by cases op <;> first | rfl | cases shape
  have operand : Operand.ofWord k op.shape = .slot k.toNat := by
    rw [shape, Operand.ofWord, Int.emod_eq_of_lt range.1 (by omega)]
  have line := held.coded.emitWord (k := k) known (by rw [shape]; rfl) (.other plain)
  rw [operand] at line
  rw [Assembler.emitLocal, if_pos range]
  exact ⟨range.1, ⟨line, held.keyed⟩, .of_labels rfl rfl⟩

theorem Held.emitIncrement {step : Int} (held : Held refs items a)
    (fine : (a.emitIncrement k step).error = none) :
    0 ≤ k ∧ Held refs (.line .iinc
      (.known (.increment k.toNat (signed8 (Assembler.lowByte step).toNat))) 0 0 :: items)
      (a.emitIncrement k step) ∧ a.Kept (a.emitIncrement k step) := by
  obtain ⟨-, range⟩ := Assembler.error_emitLocal (show (a.emitLocal .iinc k).error = none from fine)
  have line := held.coded.holds.emitIncrement (d := step) range
  rw [Assembler.emitIncrement, Assembler.emitLocal, if_pos range] at line ⊢
  exact ⟨range.1, ⟨held.coded.line line (fun _ => rfl) rfl rfl rfl (.other rfl), held.keyed⟩,
    .of_labels rfl rfl⟩

theorem Asm.emitConstant_eq_ok (h : Asm.emitConstant op c a = .ok ((), a')) :
    ∃ (k : Nat) (pool : Pool), a.pool.intern c = .ok (k, pool) ∧
      a' = Assembler.emitWord { a with pool } op k := by
  unfold Asm.emitConstant at h
  cases interned : a.pool.intern c with
  | error err => simp [interned, bind, Except.bind] at h
  | ok r =>
    simp only [interned, bind, Except.bind, pure, Except.pure, Except.ok.injEq, Prod.mk.injEq,
      true_and] at h
    exact ⟨r.1, r.2, rfl, h.symm⟩

theorem Held.emitConstant (held : Held refs items a) (proper : c.Proper refs)
    (shape : op.shape = .constant) (h : Asm.emitConstant op c a = .ok ((), a')) :
    ∃ k d, a'.pool.entries[k]? = some d ∧ d.key = c.key ∧ d.Proper refs ∧ a.Kept a' ∧ ∀ n e,
      Machine.Uses { pool := a'.pool.entries } ⟨op, .constant k⟩ n e →
      Held refs (.line op (.known (.constant k)) n e :: items) a' := by
  obtain ⟨k, pool, interned, rfl⟩ := Asm.emitConstant_eq_ok h
  obtain ⟨keyed, old, d, hd, key⟩ := held.keyed.intern proper interned
  have known : op.isKnown = true := by cases op <;> first | rfl | cases shape
  have lt : (k : Int) < 65536 := by exact_mod_cast keyed.lt_of_getElem? hd
  refine ⟨k, d, hd, key, keyed.proper k d hd, .of_labels rfl rfl, fun n e use => ⟨?_, keyed⟩⟩
  have operand : Operand.ofWord k op.shape = .constant k := by
    rw [shape, Operand.ofWord, Int.emod_eq_of_lt (by omega) lt, Int.toNat_natCast]
  have coded : Coded items { a with pool } := held.coded.of_bytes rfl rfl old
  have line := coded.emitWord (k := k) (n := n) (e := e) known (by rw [shape]; rfl)
    (by rw [operand]; exact use)
  rwa [operand] at line

/-- An instruction on a constant other than an invocation. -/
theorem Held.emitOther (held : Held refs items a) (proper : c.Proper refs)
    (shape : op.shape = .constant) (plain : op.isInvoke = false)
    (h : Asm.emitConstant op c a = .ok ((), a')) :
    ∃ k, Held refs (.line op (.known (.constant k)) op.operandsNeeded op.stackEffect :: items) a' ∧
      a.Kept a' := by
  obtain ⟨k, -, -, -, -, kept, line⟩ := held.emitConstant proper shape h
  exact ⟨k, line _ _ (.other plain), kept⟩

theorem Held.emitInvoke (held : Held refs items a) (clear : Clear refs) {r : MethodRef}
    (mem : r ∈ refs) (invoke : op.isInvoke = true) (h : Asm.emitInvoke op r a = .ok ((), a')) :
    ∃ k, Held refs
        (.line op (.known (.constant k)) (r.operandCount op) (r.stackEffect op) :: items) a' ∧
      a.Kept a' := by
  obtain ⟨k, d, hd, key, proper, kept, line⟩ :=
    held.emitConstant (.method mem) (Opcode.shape_of_isInvoke invoke) h
  obtain ⟨s, memS, rfl, text⟩ := proper.of_key key
  have same := clear s memS r mem text
  refine ⟨k, line _ _ ?_, kept⟩
  rw [← same.operandCount, ← same.stackEffect]
  exact .invocation invoke (methodAt_of_getElem? hd)

theorem Held.newLabel (held : Held refs items a) :
    Held refs items { a with labels := a.labels.push {} } ∧
      a.Kept { a with labels := a.labels.push {} } :=
  ⟨⟨held.coded.keep held.coded.holds.newLabel (position?_push a) (.refl _), held.keyed⟩,
    position?_push a, by simp, rfl⟩

/-- Nothing changes where no error was recorded. -/
theorem Assembler.cleared (fine : a.error = none) : { a with error := none } = a := by
  rw [← fine]

/-- Marking a label puts a mark behind the code and gives every branch to it its distance. -/
theorem Held.mark (held : Held refs items a) (h : Asm.mark l a = .ok ((), a'))
    (fine : a'.error = none) :
    Held refs (.mark l :: items) a' ∧
      (∀ l', a'.position? l' = if l = l' then some (span items) else a.position? l') ∧
      a'.labels.size = a.labels.size ∧ a'.handlers = a.handlers := by
  have coded := held.coded
  have marked := marked_of_mark h
  have line {p : Nat} {op : Opcode} {part : Part} {n : Nat} {e : Int}
      (stands : Stands (.mark l :: items) p (.line op part n e)) :
      Stands items p (.line op part n e) := by
    rcases stands_cons.mp stands with old | ⟨-, same⟩
    · exact old
    · cases same
  have holds := coded.holds
  rw [Assembler.cleared (Asm.error_mark h fine)] at holds
  refine ⟨⟨.of_holds ?_ (fun stands => coded.shaped (line stands)) (fun stands => ?_) fun l' q => ?_,
    ?_⟩, fun l' => ?_, marked.count, marked.handlers⟩
  · rw [Assembler.cleared fine]
    exact holds.mark h
  · rw [marked.pool]
    exact (coded.lines (line stands)).2.2.1
  · rw [marked.positions, stands_cons, ← coded.marks]
    by_cases ne : l = l'
    · subst ne
      obtain ⟨s, known, unmarked, -⟩ := Asm.mark_eq_ok h
      have unplaced : a.position? l = none := by simp [Assembler.position?, known, unmarked]
      rw [if_pos rfl, unplaced, coded.size]
      simp [eq_comm]
    · rw [if_neg ne]
      simp [Ne.symm ne]
  · rw [marked.pool]
    exact held.keyed
  · rw [marked.positions, coded.size]

/-- A branch to a label, marked or not. -/
theorem Held.jump (held : Held refs items a) (shape : op.shape = .branch)
    (h : Asm.jump op l a = .ok ((), a')) (fine : a'.error = none) :
    Held refs (.line op (.branch l) op.operandsNeeded op.stackEffect :: items) a' ∧ a.Kept a' := by
  have known : op.isKnown = true := by cases op <;> first | rfl | cases shape
  have plain : op.isInvoke = false := by cases op <;> first | rfl | cases shape
  have jumped := jumped_of_jump h
  have holds := held.coded.holds
  rw [Assembler.cleared (Asm.error_jump h fine)] at holds
  have line : Holds (pieces items ++ [.jump op l]) a' := holds.jump ⟨known, by rw [shape]; rfl⟩ jumped
  rw [← Assembler.cleared fine] at line
  exact ⟨⟨held.coded.line line jumped.positions jumped.pool known shape.symm ⟨plain, rfl, rfl⟩,
    jumped.pool ▸ held.keyed⟩, jumped.positions, jumped.count.ge, jumped.handlers⟩

end HostLowering.Machine
