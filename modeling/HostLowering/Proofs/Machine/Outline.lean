import HostLowering.Machine.Assembly
import HostLowering.Proofs.Catalog.Sound
import HostLowering.Proofs.Machine.Pieces

set_option autoImplicit false

/-!
# Outlines of assembly

What a list of assembly steps emits is an *outline*: the pieces of code in order, the place of
every label that was marked, and the exception table entries, all by the names of labels. An
outline knows nothing of bytes and patches. `advances` says what one step of a draft does, and
`steps_run` that a whole run drafts what its outline says (`Drafted`).
-/

namespace HostLowering.Machine

variable {a : Assembler} {pool : Pool} {c : Constant} {s : Step}

/-! ## Outlines -/

/-- The operand that an unsigned number of two bytes stands for. -/
def Operand.ofIndex (n : Nat) : Opcode.Shape → Operand
  | .short => .short (signed16 n)
  | .slot => .slot n
  | .constant => .constant n
  | .branch => .branch (signed16 n)
  | .plain | .increment => .plain

def Operand.ofDistance (d : Int) : Opcode.Shape → Operand
  | .branch => .branch d
  | shape => .ofWord d shape

/-- An exception table entry by the names of its labels. -/
structure NamedHandler where
  start : String
  stop : String
  target : String
  catches : String
deriving DecidableEq, Repr

/-- What steps emit. -/
structure Outline where
  pool : Pool := {}
  pieces : List (Piece String) := []
  places : List (String × Nat) := []
  entries : List NamedHandler := []

namespace Outline

/-- The place of a label, if it was marked. -/
def place (o : Outline) (name : String) : Option Nat := o.places.lookup name

/-- Further pieces of code. -/
def put (o : Outline) (pieces : List (Piece String)) : Outline :=
  { o with pieces := o.pieces ++ pieces }

def constant (o : Outline) (op : Opcode) (c : Constant) : Outline :=
  match o.pool.intern c with
  | .ok (i, pool) => { o with pool }.put [.whole ⟨op, .ofIndex i op.shape⟩]
  | .error _ => o

def step (o : Outline) : Step → Outline
  | .emit op => o.put [.whole ⟨op, .plain⟩]
  | .repeated op count => o.put (List.replicate count (.whole ⟨op, .plain⟩))
  | .word op n => o.put [.whole ⟨op, .ofIndex n.toNat op.shape⟩]
  | .slot op i => o.put [.whole ⟨op, .ofIndex i.toNat op.shape⟩]
  | .increment i d => o.put [.whole ⟨.iinc, .increment i.toNat d⟩]
  | .int n =>
    if -32768 ≤ n.toInt ∧ n.toInt ≤ 32767 then o.put [.whole ⟨.sipush, .short n.toInt⟩]
    else o.constant .ldc (.ofInt n)
  | .constant op c => o.constant op c
  | .label _ => o
  | .mark name => { o with places := (name, extent o.pieces) :: o.places }
  | .jump op name => o.put [.jump op name]
  | .tryCatch start stop target catches =>
    { o with entries := o.entries ++ [⟨start, stop, target, catches⟩] }

def ofSteps (steps : List Step) : Outline := steps.foldl step {}

end Outline

/-- The instruction that a piece at an offset stands for. -/
def Piece.resolve (place : String → Option Nat) (p : Nat) : Piece String → Instruction
  | whole i => i
  | jump op name => ⟨op, .ofDistance (distance p ((place name).getD 0)) op.shape⟩

/-- The instructions that pieces from an offset on stand for. -/
def resolveFrom (place : String → Option Nat) : Nat → List (Piece String) → List Instruction
  | _, [] => []
  | p, x :: xs => x.resolve place p :: resolveFrom place (p + x.size) xs

def Outline.instructions (o : Outline) : List Instruction := resolveFrom o.place 0 o.pieces

/-- The entry with places for its labels, unless one has none or the range is empty. -/
def NamedHandler.resolve (place : String → Option Nat) (e : NamedHandler) : Option Handler :=
  match place e.start, place e.stop, place e.target with
  | some s, some t, some u => if s = t then none else some ⟨s, t, u, e.catches⟩
  | _, _, _ => none

/-- The exception table entries that are kept. -/
def Outline.handlers (o : Outline) : List Handler := o.entries.filterMap (·.resolve o.place)

/-! ## Steps -/

/-- Steps that give each opcode to the emitter of its operand width, with numbers of the size that
the emitter takes. -/
def Step.Proper : Step → Prop
  | .emit op | .repeated op _ => op.isKnown = true ∧ op.operandBytes = 0
  | .word op n => op.isKnown = true ∧ op.operandBytes = 2 ∧ 0 ≤ n ∧ n ≤ 65535
  | .slot op _ | .constant op _ | .jump op _ => op.isKnown = true ∧ op.operandBytes = 2
  | .increment _ d => -128 ≤ d ∧ d ≤ 127
  | _ => True

def Step.index? : Step → Option Int
  | .slot _ i => some i
  | .increment i _ => some i
  | _ => none

/-- A step accesses a local that has no encoding. -/
def Step.Astray (s : Step) : Prop := ∃ i, s.index? = some i ∧ ¬ (0 ≤ i ∧ i ≤ 65535)

def Step.marks : Step → List String
  | .mark name => [name]
  | _ => []

/-! ## Names -/

namespace Draft

/-- The draft in which a label has been given a name. -/
def named (d : Draft) (name : String) : Draft :=
  match d.names.get? name with
  | some _ => d
  | none => {
      assembler := { d.assembler with labels := d.assembler.labels.push {} }
      names := d.names.set name d.assembler.labels.size }

variable {d : Draft} {marked : List String} {n : String} {l : Label}

theorem named_of_known (known : d.names.get? n = some l) : d.named n = d := by
  unfold named
  rw [known]

theorem named_of_new (new : d.names.get? n = none) : d.named n = {
    assembler := { d.assembler with labels := d.assembler.labels.push {} }
    names := d.names.set n d.assembler.labels.size } := by
  unfold named
  rw [new]

/-- A name stands for the label it was given, or for a new one. -/
theorem label_eq (d : Draft) (n : String) : ∃ l, Drafting.label n d = .ok (l, d.named n) ∧
    (d.named n).names.get? n = some l := by
  cases known : d.names.get? n with
  | some l =>
    rw [named_of_known known]
    refine ⟨l, ?_, known⟩
    simp [Drafting.label, known, bind, StateT.bind, get, getThe, MonadStateOf.get, StateT.get,
      pure, Except.pure, Except.bind]
    rfl
  | none =>
    rw [named_of_new known]
    refine ⟨d.assembler.labels.size, ?_, ?_⟩
    · simp [Drafting.label, known, bind, StateT.bind, get, getThe, MonadStateOf.get, StateT.get,
        pure, Except.pure, Except.bind, Drafting.assemble, Asm.newLabel, modify,
        modifyGet, MonadStateOf.modifyGet, StateT.modifyGet]
      rfl
    · rw [Table.get?_set]
      simp

/-- The names of a draft: each stands for a label of its own, and those with a place were
marked. -/
structure Named (marked : List String) (d : Draft) : Prop where
  range : ∀ {n l}, d.names.get? n = some l → l < d.assembler.labels.size
  own : ∀ {n n' l}, d.names.get? n = some l → d.names.get? n' = some l → n = n'
  marked : ∀ {n q}, d.position? n = some q → n ∈ marked

theorem names_named {n' : String} (known : d.names.get? n' = some l) :
    (d.named n).names.get? n' = some l := by
  cases new : d.names.get? n with
  | some l' => rwa [named_of_known new]
  | none =>
    have other : n ≠ n' := by
      rintro rfl
      cases new.symm.trans known
    rw [named_of_new new, Table.get?_set, if_neg (by simpa using other), known]

theorem position?_named (d : Draft) (n n' : String) :
    (d.named n).position? n' = d.position? n' := by
  cases new : d.names.get? n with
  | some l => rw [named_of_known new]
  | none =>
    rw [named_of_new new]
    unfold position?
    rw [Table.get?_set]
    by_cases same : n = n'
    · subst same
      simp [new, Assembler.position?]
    · rw [if_neg (by simpa using same)]
      congr 1
      funext l
      exact position?_push d.assembler l

theorem Named.named (h : d.Named marked) (n : String) : (d.named n).Named marked := by
  refine ⟨?_, ?_, ?_⟩
  · cases new : d.names.get? n with
    | some l => rw [named_of_known new]; exact h.range
    | none =>
      rw [named_of_new new]
      intro n' l found
      rw [Table.get?_set] at found
      rw [Array.size_push]
      split at found
      · cases found
        exact Nat.lt_succ_self _
      · exact (h.range found).trans (Nat.lt_succ_self _)
  · cases new : d.names.get? n with
    | some l => rw [named_of_known new]; exact h.own
    | none =>
      rw [named_of_new new]
      intro n₁ n₂ l h₁ h₂
      rw [Table.get?_set] at h₁ h₂
      -- the new label is none of the old ones
      by_cases s₁ : n = n₁ <;> by_cases s₂ : n = n₂
      · exact s₁.symm.trans s₂
      · rw [if_pos (by simpa using s₁)] at h₁
        rw [if_neg (by simpa using s₂)] at h₂
        cases h₁
        exact absurd (h.range h₂) (lt_irrefl _)
      · rw [if_neg (by simpa using s₁)] at h₁
        rw [if_pos (by simpa using s₂)] at h₂
        cases h₂
        exact absurd (h.range h₁) (lt_irrefl _)
      · rw [if_neg (by simpa using s₁)] at h₁
        rw [if_neg (by simpa using s₂)] at h₂
        exact h.own h₁ h₂
  · intro n' q found
    rw [position?_named] at found
    exact h.marked found

theorem error_named (d : Draft) (n : String) :
    (d.named n).assembler.error = d.assembler.error := by
  unfold Draft.named
  split <;> rfl

/-- A step of the assembler that leaves the labels alone. -/
theorem Named.of_labels (h : d.Named marked) (labels : a.labels = d.assembler.labels) :
    Named marked { d with assembler := a } := by
  refine ⟨?_, h.own, ?_⟩
  · intro n l found
    rw [labels]
    exact h.range found
  · intro n q found
    apply h.marked (n := n) (q := q)
    unfold position? Assembler.position? at found ⊢
    rw [labels] at found
    exact found

end Draft

/-! ## Drafts and outlines -/

/-- A piece with a label for its name. -/
inductive Piece.Names (names : Table String Label) : Piece String → Piece Label → Prop where
  | whole (i : Instruction) : Names names (.whole i) (.whole i)
  | jump (op : Opcode) {n : String} {l : Label} (found : names.get? n = some l) :
      Names names (.jump op n) (.jump op l)

/-- An exception table entry with labels for its names. -/
structure NamedHandler.Names (names : Table String Label) (e : NamedHandler)
    (h : PendingHandler) : Prop where
  start : names.get? e.start = some h.start
  stop : names.get? e.stop = some h.stop
  target : names.get? e.target = some h.target
  catches : e.catches = h.catches

/-- Every index of the pool fits two bytes. -/
structure Pool.Bounded (pool : Pool) : Prop where
  size : pool.entries.size ≤ Pool.capacity
  index : ∀ (key : String) (k : Nat), pool.index[key]? = some k → k < pool.entries.size

/-- The draft is what the outline says. -/
structure Drafted (o : Outline) (d : Draft) : Prop where
  positions : ∀ n, d.position? n = o.place n
  code : ∃ pieces, List.Forall₂ (Piece.Names d.names) o.pieces pieces ∧ Holds pieces d.assembler
  pool : d.assembler.pool = o.pool
  bounded : o.pool.Bounded
  entries : List.Forall₂ (NamedHandler.Names d.names) o.entries d.assembler.handlers.toList

theorem drafted_empty : Drafted {} {} where
  positions n := rfl
  code := ⟨[], .nil, holds_nil⟩
  pool := rfl
  bounded := ⟨by decide, fun key k h => by simp at h⟩
  entries := .nil

theorem Pool.Bounded.intern {pool' : Pool} {k : Nat} (bounded : pool.Bounded)
    (h : pool.intern c = .ok (k, pool')) : pool'.Bounded ∧ k < 65536 := by
  unfold Pool.intern at h
  cases known : pool.index[c.key]? with
  | some i =>
    simp only [known, Except.ok.injEq, Prod.mk.injEq] at h
    obtain ⟨rfl, rfl⟩ := h
    exact ⟨bounded, (bounded.index _ _ known).trans_le bounded.size⟩
  | none =>
    simp only [known] at h
    split at h
    · rename_i room
      simp only [Except.ok.injEq, Prod.mk.injEq] at h
      obtain ⟨rfl, rfl⟩ := h
      refine ⟨⟨by simpa using room, ?_⟩, room⟩
      intro key i found
      rw [Std.TreeMap.getElem?_insert] at found
      rw [Array.size_push]
      split at found
      · cases found
        exact Nat.lt_succ_self _
      · exact (bounded.index key i found).trans (Nat.lt_succ_self _)
    · cases h

theorem Pool.intern_error {e : Defect} (h : pool.intern c = .error e) : e = .poolOverflow := by
  unfold Pool.intern at h
  split at h
  · cases h
  · split at h
    · cases h
    · exact (Except.error.inj h).symm

theorem Operand.ofWord_eq_ofIndex {n : Int} (low : 0 ≤ n) (high : n < 65536)
    (shape : Opcode.Shape) : Operand.ofWord n shape = .ofIndex n.toNat shape := by
  cases shape <;> simp [ofWord, ofIndex, Int.emod_eq_of_lt low high]

section Steps

variable {o : Outline} {d : Draft} {op : Opcode}

/-- Whole instructions are appended. -/
theorem Drafted.put (drafted : Drafted o d) (a : Assembler) (is : List Instruction)
    (labels : a.labels = d.assembler.labels) (pool : a.pool = d.assembler.pool)
    (handlers : a.handlers = d.assembler.handlers)
    (holds : ∀ pieces, Holds pieces d.assembler → Holds (pieces ++ is.map .whole) a) :
    Drafted (o.put (is.map .whole)) { d with assembler := a } := by
  refine ⟨?_, ?_, pool.trans drafted.pool, drafted.bounded, ?_⟩
  · intro n
    rw [show (o.put _).place n = o.place n from rfl, ← drafted.positions]
    unfold Draft.position? Assembler.position?
    rw [labels]
  · obtain ⟨pieces, names, held⟩ := drafted.code
    refine ⟨_, List.rel_append names ?_, holds pieces held⟩
    rw [List.forall₂_map_left_iff, List.forall₂_map_right_iff, List.forall₂_same]
    exact fun i _ => .whole i
  · rw [handlers]
    exact drafted.entries

theorem Drafted.withPool (drafted : Drafted o d) (bounded : pool.Bounded) :
    Drafted { o with pool } { d with assembler := { d.assembler with pool } } := by
  obtain ⟨pieces, names, held⟩ := drafted.code
  exact ⟨drafted.positions, ⟨pieces, names, held.congr rfl rfl rfl⟩, rfl, bounded,
    drafted.entries⟩

theorem Drafted.constant (drafted : Drafted o d) (known : op.isKnown = true)
    (two : op.operandBytes = 2) {k : Nat} (interned : d.assembler.pool.intern c = .ok (k, pool)) :
    Drafted (o.constant op c)
      { d with assembler := { d.assembler with pool }.emitWord op k } := by
  rw [drafted.pool] at interned
  obtain ⟨bounded, lt⟩ := drafted.bounded.intern interned
  have outline : o.constant op c = { o with pool }.put [.whole ⟨op, .ofIndex k op.shape⟩] := by
    rw [Outline.constant, interned]
  have operand : Operand.ofWord (k : Int) op.shape = .ofIndex k op.shape :=
    Operand.ofWord_eq_ofIndex (by omega) (by omega) _
  rw [outline]
  refine (drafted.withPool bounded).put ({ d.assembler with pool }.emitWord op k)
    [⟨op, .ofIndex k op.shape⟩] rfl rfl rfl fun pieces held => ?_
  rw [← operand]
  exact held.emitWord known two k

/-- The draft holds the named entries, in their order. -/
def Registered (es : List NamedHandler) (d : Draft) : Prop :=
  List.Forall₂ (NamedHandler.Names d.names) es d.assembler.handlers.toList

theorem Registered.named {es : List NamedHandler} (registered : Registered es d) (n : String) :
    Registered es (d.named n) := by
  have handlers : (d.named n).assembler.handlers = d.assembler.handlers := by
    unfold Draft.named
    split <;> rfl
  unfold Registered
  rw [handlers]
  apply registered.imp
  rintro e h ⟨start, stop, target, catches⟩
  exact ⟨Draft.names_named start, Draft.names_named stop, Draft.names_named target, catches⟩

/-- A draft in which one more label has a name is still what the outline says. -/
theorem Drafted.named (drafted : Drafted o d) (n : String) : Drafted o (d.named n) := by
  refine ⟨?_, ?_, ?_, drafted.bounded, ?_⟩
  · intro n'
    rw [Draft.position?_named]
    exact drafted.positions n'
  · obtain ⟨pieces, names, held⟩ := drafted.code
    refine ⟨pieces, names.imp ?_, ?_⟩
    · rintro x y (i | ⟨op, found⟩)
      · exact .whole i
      · exact .jump op (Draft.names_named found)
    · cases new : d.names.get? n with
      | some l => rwa [Draft.named_of_known new]
      | none =>
        rw [Draft.named_of_new new]
        exact held.newLabel
  · rw [← drafted.pool]
    unfold Draft.named
    split <;> rfl
  · exact Registered.named drafted.entries n

theorem Drafted.jump (drafted : Drafted o d) {n : String} {l : Label} (known : op.isKnown = true)
    (two : op.operandBytes = 2) (found : d.names.get? n = some l)
    (jumped : Jumped op l d.assembler a) :
    Drafted (o.put [.jump op n]) { d with assembler := a } := by
  refine ⟨?_, ?_, jumped.pool.trans drafted.pool, drafted.bounded, ?_⟩
  · intro n'
    rw [show (o.put _).place n' = o.place n' from rfl, ← drafted.positions]
    unfold Draft.position?
    congr 1
    funext l'
    exact jumped.positions l'
  · obtain ⟨pieces, names, held⟩ := drafted.code
    exact ⟨_, List.rel_append names (.cons (.jump op found) .nil), held.jump ⟨known, two⟩ jumped⟩
  · rw [jumped.handlers]
    exact drafted.entries

theorem extent_of_names {names : Table String Label} {xs : List (Piece String)}
    {ys : List (Piece Label)} (h : List.Forall₂ (Piece.Names names) xs ys) :
    extent xs = extent ys := by
  induction h with
  | nil => rfl
  | cons first _ ih =>
    rw [extent_cons, extent_cons, ih]
    cases first <;> rfl

theorem Drafted.mark {marked : List String} (drafted : Drafted o d) (named : d.Named marked)
    {n : String} {l : Label} (found : d.names.get? n = some l)
    (h : Asm.mark l d.assembler = .ok ((), a)) :
    Drafted { o with places := (n, extent o.pieces) :: o.places } { d with assembler := a } := by
  obtain ⟨pieces, names, held⟩ := drafted.code
  have marks := marked_of_mark h
  refine ⟨?_, ⟨pieces, names, held.mark h⟩, marks.pool.trans drafted.pool, drafted.bounded, ?_⟩
  · intro n'
    have before := drafted.positions n'
    unfold Draft.position? at before ⊢
    unfold Outline.place at before ⊢
    rw [List.lookup_cons]
    by_cases same : n' = n
    · subst same
      simp [found, marks.positions, extent_of_names names, held.size]
    · rw [beq_false_of_ne same]
      cases other : d.names.get? n' with
      | none => rwa [other] at before
      | some l' =>
        have apart : l ≠ l' := by
          rintro rfl
          exact same (named.own other found)
        simpa [other, marks.positions, apart] using before
  · rw [marks.handlers]
    exact drafted.entries

/-- The draft with one more exception table entry. -/
def Draft.registering (d : Draft) (h : PendingHandler) : Draft :=
  { d with assembler := { d.assembler with handlers := d.assembler.handlers.push h } }

theorem Drafted.tryCatch (drafted : Drafted o d) {e : NamedHandler} {h : PendingHandler}
    (names : e.Names d.names h) :
    Drafted { o with entries := o.entries ++ [e] } (d.registering h) := by
  obtain ⟨pieces, named, held⟩ := drafted.code
  refine ⟨drafted.positions, ⟨pieces, named, held.congr rfl rfl rfl⟩, drafted.pool,
    drafted.bounded, ?_⟩
  rw [Draft.registering, Array.toList_push]
  exact List.rel_append drafted.entries (.cons names .nil)

/-! ### One step -/

/-- What one step of a draft does: the names stay in order, an error stays, an access without
encoding is an error, and otherwise the draft follows the outline. -/
structure Advances (marked : List String) (s : Step) (d d' : Draft) : Prop where
  named : d'.Named (marked ++ s.marks)
  error : d.assembler.error ≠ none → d'.assembler.error ≠ none
  astray : s.Astray → d'.assembler.error ≠ none
  outline : ∀ o, s.Proper → ¬ s.Astray → Drafted o d → Drafted (o.step s) d'

theorem step_of_perform {act : Asm Unit} (h : s.perform = Drafting.assemble act) (d : Draft) :
    d.step s = (act d.assembler).map fun r => { d with assembler := r.2 } := by
  unfold Draft.step
  rw [h]
  unfold Drafting.assemble StateT.run
  dsimp only
  cases act d.assembler <;> rfl

/-- A step that runs the assembler on a label given by its name. -/
theorem step_of_label (act : Label → Asm Unit) {n : String}
    (h : s.perform = (do Drafting.assemble (act (← Drafting.label n)))) (d : Draft) :
    ∃ l, (d.named n).names.get? n = some l ∧
      d.step s = (act l (d.named n).assembler).map fun r =>
        { d.named n with assembler := r.2 } := by
  obtain ⟨l, run, found⟩ := d.label_eq n
  refine ⟨l, found, ?_⟩
  unfold Draft.step
  rw [h]
  simp only [StateT.run, bind, StateT.bind, run, Except.bind]
  unfold Drafting.assemble
  cases act l (d.named n).assembler <;> rfl

theorem not_astray (none : s.index? = none) : ¬ s.Astray := by
  rintro ⟨i, some, -⟩
  cases none.symm.trans some

/-- A step that only appends whole instructions. -/
theorem Advances.put {marked : List String} (named : d.Named marked) (marks : s.marks = [])
    (a : Assembler) (is : List Instruction) (labels : a.labels = d.assembler.labels)
    (pool : a.pool = d.assembler.pool) (handlers : a.handlers = d.assembler.handlers)
    (error : d.assembler.error ≠ none → a.error ≠ none) (astray : s.Astray → a.error ≠ none)
    (outline : ∀ o : Outline, o.step s = o.put (is.map .whole))
    (holds : s.Proper → ¬ s.Astray → ∀ pieces, Holds pieces d.assembler →
      Holds (pieces ++ is.map .whole) a) : Advances marked s d { d with assembler := a } := by
  refine ⟨?_, error, astray, ?_⟩
  · rw [marks, List.append_nil]
    exact named.of_labels labels
  · intro o proper encoded drafted
    rw [outline]
    exact drafted.put a is labels pool handlers (holds proper encoded)

theorem shape_of_width (h : op.operandBytes = 0) : op.shape = .plain := by
  cases op <;> first | rfl | cases h

variable {marked : List String}

theorem advances_emit (named : d.Named marked) (op : Opcode) :
    ∃ d', d.step (.emit op) = .ok d' ∧ Advances marked (.emit op) d d' := by
  refine ⟨_, rfl, .put named rfl (d.assembler.emit op) [⟨op, .plain⟩] rfl rfl rfl id ?_ ?_ ?_⟩
  · exact fun astray => absurd astray (not_astray rfl)
  · exact fun o => rfl
  · rintro ⟨known, none⟩ _ pieces held
    exact held.emit known (shape_of_width none)

theorem emit_repeat_fields (op : Opcode) (count : Nat) (a : Assembler) :
    (Nat.repeat (·.emit op) count a).labels = a.labels ∧
    (Nat.repeat (·.emit op) count a).pool = a.pool ∧
    (Nat.repeat (·.emit op) count a).handlers = a.handlers ∧
    (Nat.repeat (·.emit op) count a).error = a.error := by
  induction count with
  | zero => exact ⟨rfl, rfl, rfl, rfl⟩
  | succ count ih => exact ih

theorem advances_repeated (named : d.Named marked) (op : Opcode) (count : Nat) :
    ∃ d', d.step (.repeated op count) = .ok d' ∧ Advances marked (.repeated op count) d d' := by
  obtain ⟨labels, pool, handlers, error⟩ := emit_repeat_fields op count d.assembler
  refine ⟨_, rfl, .put named rfl (Nat.repeat (·.emit op) count d.assembler)
    (List.replicate count ⟨op, .plain⟩) labels pool handlers (by rw [error]; exact id) ?_ ?_ ?_⟩
  · exact fun astray => absurd astray (not_astray rfl)
  · intro o
    rw [List.map_replicate]
    rfl
  · rintro ⟨known, none⟩ _ pieces held
    rw [List.map_replicate]
    exact held.repeated known (shape_of_width none) count

theorem advances_word (named : d.Named marked) (op : Opcode) (n : Int) :
    ∃ d', d.step (.word op n) = .ok d' ∧ Advances marked (.word op n) d d' := by
  refine ⟨_, rfl, .put named rfl (d.assembler.emitWord op n) [⟨op, .ofIndex n.toNat op.shape⟩]
    rfl rfl rfl id ?_ ?_ ?_⟩
  · exact fun astray => absurd astray (not_astray rfl)
  · exact fun o => rfl
  · rintro ⟨known, two, low, high⟩ _ pieces held
    rw [← Operand.ofWord_eq_ofIndex low (by omega)]
    exact held.emitWord known two n

/-- An access to a local leaves all but the code as it is; it is an error if it has no
encoding. -/
theorem emitLocal_fields (a : Assembler) (op : Opcode) (i : Int) :
    (a.emitLocal op i).labels = a.labels ∧ (a.emitLocal op i).pool = a.pool ∧
    (a.emitLocal op i).handlers = a.handlers ∧
    (a.error ≠ none → (a.emitLocal op i).error ≠ none) ∧
    (¬ (0 ≤ i ∧ i ≤ 65535) → (a.emitLocal op i).error ≠ none) := by
  unfold Assembler.emitLocal
  split
  · rename_i range
    exact ⟨rfl, rfl, rfl, id, fun outside => absurd range outside⟩
  · exact ⟨rfl, rfl, rfl, fun _ => a.error_fail _, fun _ => a.error_fail _⟩

theorem in_range {i : Int} (index : s.index? = some i) (encoded : ¬ s.Astray) :
    0 ≤ i ∧ i ≤ 65535 := by
  by_contra outside
  exact encoded ⟨i, index, outside⟩

theorem advances_slot (named : d.Named marked) (op : Opcode) (i : Int) :
    ∃ d', d.step (.slot op i) = .ok d' ∧ Advances marked (.slot op i) d d' := by
  obtain ⟨labels, pool, handlers, error, astray⟩ := emitLocal_fields d.assembler op i
  refine ⟨_, rfl, .put named rfl (d.assembler.emitLocal op i) [⟨op, .ofIndex i.toNat op.shape⟩]
    labels pool handlers error ?_ ?_ ?_⟩
  · rintro ⟨j, index, outside⟩
    cases index
    exact astray outside
  · exact fun o => rfl
  · rintro ⟨known, two⟩ encoded pieces held
    have range := in_range rfl encoded
    rw [← Operand.ofWord_eq_ofIndex range.1 (by omega), Assembler.emitLocal, if_pos range]
    exact held.emitWord known two i

theorem advances_increment (named : d.Named marked) (i step : Int) :
    ∃ d', d.step (.increment i step) = .ok d' ∧ Advances marked (.increment i step) d d' := by
  obtain ⟨labels, pool, handlers, error, astray⟩ := emitLocal_fields d.assembler .iinc i
  refine ⟨_, rfl, .put named rfl (d.assembler.emitIncrement i step)
    [⟨.iinc, .increment i.toNat step⟩] labels pool handlers error ?_ ?_ ?_⟩
  · rintro ⟨j, index, outside⟩
    cases index
    exact astray outside
  · exact fun o => rfl
  · rintro ⟨low, high⟩ encoded pieces held
    have line := held.emitIncrement (d := step) (in_range rfl encoded)
    rwa [signed8_lowByte low high] at line

/-- An instruction on a constant: the pool may be full. -/
theorem advances_constant (named : d.Named marked) (op : Opcode) (c : Constant)
    (marks : s.marks = []) (index : s.index? = none)
    (run : s.perform = Drafting.assemble (Asm.emitConstant op c))
    (outline : ∀ o : Outline, o.step s = o.constant op c)
    (proper : s.Proper → op.isKnown = true ∧ op.operandBytes = 2) :
    d.step s = .error .poolOverflow ∨ ∃ d', d.step s = .ok d' ∧ Advances marked s d d' := by
  rw [step_of_perform run, Asm.emitConstant]
  cases interned : d.assembler.pool.intern c with
  | error e =>
    rw [Pool.intern_error interned]
    exact .inl rfl
  | ok r =>
    obtain ⟨k, pool⟩ := r
    refine .inr ⟨{ d with assembler := { d.assembler with pool }.emitWord op k }, rfl, ?_⟩
    refine ⟨?_, id, fun astray => absurd astray (not_astray index), ?_⟩
    · rw [marks, List.append_nil]
      exact named.of_labels rfl
    · intro o hs _ drafted
      rw [outline]
      exact drafted.constant (proper hs).1 (proper hs).2 interned

theorem advances_int (named : d.Named marked) (n : Int64) :
    d.step (.int n) = .error .poolOverflow ∨
      ∃ d', d.step (.int n) = .ok d' ∧ Advances marked (.int n) d d' := by
  by_cases short : -32768 ≤ n.toInt ∧ n.toInt ≤ 32767
  · have run : (Step.int n).perform = Drafting.assemble (Asm.emitWord .sipush n.toInt) :=
      congrArg Drafting.assemble (if_pos short)
    refine .inr ⟨_, step_of_perform run d, .put named rfl (d.assembler.emitWord .sipush n.toInt)
      [⟨.sipush, .short n.toInt⟩] rfl rfl rfl id ?_ ?_ ?_⟩
    · exact fun astray => absurd astray (not_astray rfl)
    · intro o
      rw [Outline.step, if_pos short]
      rfl
    · intro _ _ pieces held
      have word := held.emitWord (show Opcode.isKnown .sipush = true from rfl) rfl n.toInt
      rwa [show Opcode.shape .sipush = .short from rfl, Operand.ofWord,
        signed16_toNat short.1 short.2] at word
  · apply advances_constant named .ldc (.ofInt n) rfl rfl
    · exact congrArg Drafting.assemble (if_neg short)
    · intro o
      rw [Outline.step, if_neg short]
    · exact fun _ => ⟨rfl, rfl⟩

theorem Draft.position?_of_found {n : String} {l : Label} (found : d.names.get? n = some l) :
    d.position? n = d.assembler.position? l := by
  rw [Draft.position?, found]
  rfl

theorem advances_mark (named : d.Named marked) {n : String} (new : n ∉ marked) :
    ∃ d', d.step (.mark n) = .ok d' ∧ Advances marked (.mark n) d d' := by
  obtain ⟨l, found, run⟩ := step_of_label (s := .mark n) Asm.mark rfl d
  have named' := named.named n
  have lt := named'.range found
  obtain ⟨s, known⟩ : ∃ s, (d.named n).assembler.labels[l]? = some s :=
    ⟨_, Array.getElem?_eq_getElem lt⟩
  have unmarked : s.position = none := by
    cases place : s.position with
    | none => rfl
    | some q =>
      have position : (d.named n).position? n = some q := by
        rw [Draft.position?_of_found found, Assembler.position?, known]
        exact place
      exact absurd (named'.marked position) new
  obtain ⟨a, marks⟩ := mark_of_unmarked known unmarked
  have marked' := marked_of_mark marks
  rw [marks] at run
  refine ⟨_, run, ?_, ?_, fun astray => absurd astray (not_astray rfl), ?_⟩
  · refine ⟨?_, named'.own, ?_⟩
    · intro n' l' found'
      show l' < a.labels.size
      rw [marked'.count]
      exact named'.range found'
    · intro n' q position
      show n' ∈ marked ++ [n]
      rw [List.mem_append, List.mem_singleton]
      by_cases same : n' = n
      · exact .inr same
      · left
        replace position : ((d.named n).names.get? n').bind a.position? = some q := position
        cases found' : (d.named n).names.get? n' with
        | none =>
          rw [found'] at position
          cases position
        | some l' =>
          have apart : l ≠ l' := by
            rintro rfl
            exact same (named'.own found' found)
          rw [found', Option.bind_some, marked'.positions, if_neg apart,
            ← Draft.position?_of_found found'] at position
          exact named'.marked position
  · intro error
    rw [← d.error_named n] at error
    exact marked'.error error
  · intro o _ _ drafted
    exact (drafted.named n).mark named' found marks

theorem advances_jump (named : d.Named marked) (op : Opcode) (n : String) :
    ∃ d', d.step (.jump op n) = .ok d' ∧ Advances marked (.jump op n) d d' := by
  obtain ⟨l, found, run⟩ := step_of_label (s := .jump op n) (Asm.jump op) rfl d
  have named' := named.named n
  obtain ⟨a, jumps⟩ := jump_of_known (Array.getElem?_eq_getElem (named'.range found)) op
  have jumped := jumped_of_jump jumps
  rw [jumps] at run
  refine ⟨_, run, ?_, ?_, fun astray => absurd astray (not_astray rfl), ?_⟩
  · refine ⟨?_, named'.own, ?_⟩
    · intro n' l' found'
      show l' < a.labels.size
      rw [jumped.count]
      exact named'.range found'
    · intro n' q position
      rw [show Step.marks (.jump op n) = [] from rfl, List.append_nil]
      apply named'.marked (n := n') (q := q)
      rw [← position]
      unfold Draft.position?
      congr 1
      funext l'
      exact (jumped.positions l').symm
  · intro error
    rw [← d.error_named n] at error
    exact jumped.error.mpr (.inl error)
  · rintro o ⟨known, two⟩ _ drafted
    exact (drafted.named n).jump known two found jumped

theorem advances_label (named : d.Named marked) (n : String) :
    ∃ d', d.step (.label n) = .ok d' ∧ Advances marked (.label n) d d' := by
  obtain ⟨l, run, found⟩ := d.label_eq n
  refine ⟨d.named n, ?_, ?_, ?_, fun astray => absurd astray (not_astray rfl), ?_⟩
  · unfold Draft.step Step.perform
    simp only [StateT.run, bind, StateT.bind, run, Except.bind]
    rfl
  · rw [show Step.marks (.label n) = [] from rfl, List.append_nil]
    exact named.named n
  · rw [d.error_named n]
    exact id
  · exact fun o _ _ drafted => drafted.named n

theorem advances_tryCatch (named : d.Named marked) (start stop target catches : String) :
    ∃ d', d.step (.tryCatch start stop target catches) = .ok d' ∧
      Advances marked (.tryCatch start stop target catches) d d' := by
  obtain ⟨l₁, run₁, found₁⟩ := d.label_eq start
  obtain ⟨l₂, run₂, found₂⟩ := (d.named start).label_eq stop
  obtain ⟨l₃, run₃, found₃⟩ := ((d.named start).named stop).label_eq target
  have named' := ((named.named start).named stop).named target
  refine ⟨(((d.named start).named stop).named target).registering ⟨l₁, l₂, l₃, catches⟩,
    ?_, ?_, ?_, fun astray => absurd astray (not_astray rfl), ?_⟩
  · unfold Draft.step Step.perform
    simp only [StateT.run, bind, StateT.bind, run₁, run₂, run₃, Except.bind]
    rfl
  · rw [show Step.marks (.tryCatch start stop target catches) = [] from rfl, List.append_nil]
    exact named'.of_labels rfl
  · intro error
    show (((d.named start).named stop).named target).assembler.error ≠ none
    rw [Draft.error_named, Draft.error_named, Draft.error_named]
    exact error
  · intro o _ _ drafted
    refine (((drafted.named start).named stop).named target).tryCatch
      (e := ⟨start, stop, target, catches⟩) ⟨?_, ?_, found₃, rfl⟩
    · exact Draft.names_named (Draft.names_named found₁)
    · exact Draft.names_named found₂

/-- One step: it runs unless the pool is full, and does what it should. -/
theorem advances (named : d.Named marked) (once : ∀ n ∈ s.marks, n ∉ marked) :
    d.step s = .error .poolOverflow ∨ ∃ d', d.step s = .ok d' ∧ Advances marked s d d' := by
  cases s with
  | emit op => exact .inr (advances_emit named op)
  | repeated op count => exact .inr (advances_repeated named op count)
  | word op n => exact .inr (advances_word named op n)
  | slot op i => exact .inr (advances_slot named op i)
  | increment i step => exact .inr (advances_increment named i step)
  | int n => exact advances_int named n
  | constant op c => exact advances_constant named op c rfl rfl rfl (fun _ => rfl) id
  | label n => exact .inr (advances_label named n)
  | mark n => exact .inr (advances_mark named (once n List.mem_cons_self))
  | jump op n => exact .inr (advances_jump named op n)
  | tryCatch start stop target catches =>
    exact .inr (advances_tryCatch named start stop target catches)

end Steps

/-! ## Whole runs -/

theorem Draft.steps_append (d : Draft) (steps : List Step) (s : Step) :
    d.steps (steps ++ [s]) = (d.steps steps).bind (·.step s) := by
  unfold Draft.steps
  rw [List.foldlM_append]
  cases List.foldlM Draft.step d steps with
  | error e => rfl
  | ok d' =>
    show (List.foldlM Draft.step d' [s]) = d'.step s
    rw [List.foldlM_cons]
    cases d'.step s <;> rfl

theorem Outline.ofSteps_append (steps : List Step) (s : Step) :
    ofSteps (steps ++ [s]) = (ofSteps steps).step s := by
  simp [ofSteps]

/-- A run of steps that mark each label at most once stops only where the pool is full. It keeps
the names in order, ends with an error if some access has no encoding, and otherwise drafts what
the outline says. -/
theorem steps_run (steps : List Step) (once : (steps.flatMap Step.marks).Nodup) :
    Draft.steps {} steps = .error .poolOverflow ∨ ∃ d, Draft.steps {} steps = .ok d ∧
      d.Named (steps.flatMap Step.marks) ∧
      ((∃ s ∈ steps, s.Astray) → d.assembler.error ≠ none) ∧
      ((∀ s ∈ steps, s.Proper) → (∀ s ∈ steps, ¬ s.Astray) →
        Drafted (Outline.ofSteps steps) d) := by
  induction steps using List.reverseRecOn with
  | nil =>
    refine .inr ⟨{}, rfl, ⟨?_, ?_, ?_⟩, by simp, fun _ _ => drafted_empty⟩
    · intro n l found
      cases found
    · intro n n' l found
      cases found
    · intro n q found
      cases found
  | append_singleton steps s ih =>
    rw [List.flatMap_append, List.flatMap_singleton] at once ⊢
    rw [Draft.steps_append]
    rcases ih once.of_append_left with full | ⟨d, run, named, astray, drafted⟩
    · rw [full]
      exact .inl rfl
    rw [run]
    have new : ∀ n ∈ s.marks, n ∉ steps.flatMap Step.marks :=
      fun n hn old => (List.disjoint_of_nodup_append once) old hn
    rcases advances named new with full | ⟨d', step, ahead⟩
    · exact .inl full
    refine .inr ⟨d', step, ahead.named, ?_, ?_⟩
    · rintro ⟨t, ht, bad⟩
      rcases List.mem_append.mp ht with old | last
      · exact ahead.error (astray ⟨t, old, bad⟩)
      · rw [List.mem_singleton.mp last] at bad
        exact ahead.astray bad
    · intro proper encoded
      rw [List.forall_mem_append] at proper encoded
      rw [Outline.ofSteps_append]
      exact ahead.outline _ (proper.2 s List.mem_cons_self) (encoded.2 s List.mem_cons_self)
        (drafted proper.1 encoded.1)

end HostLowering.Machine
