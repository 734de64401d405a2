import HostLowering.Proofs.Lower.Discipline

set_option autoImplicit false

/-! # The footprint of lowering steps

Which locals the code of an operation writes, which labels it marks and branches to, and what of the
state it leaves alone. An operation works in a *scope*: its code writes the source locals, the two slots
of exceptions, and temporaries, which stand from the base of the pool on; it marks labels and guards
code by labels of its own, and branches to these and to source offsets. `Keeps K x R` says that the
step `x` stays in the scope `K` and that its result has the property `R`.
-/

namespace HostLowering.Lower

open Machine Catalog Lowering

/-! ## Scopes -/

/-- What an operation may use: temporaries from `base` on, and labels from `labels` on, of which it
has made its own. It may be one that puts entries into the exception table. -/
structure Scope extends Source where
  base : Int
  labels : Nat
  own : List Label
  nonneg : 0 ≤ base
  guarding : Prop

/-- The labels of source offsets have been made. -/
def State.Sourced (s : State) : Prop :=
  ∀ (o : Int) (l : Label), s.labels[o]? = some l → l < s.assembler.labels.size

theorem State.Sourced.mono {s s' : State} (h : s.Sourced) (labelled : Labelled s s')
    (le : s.assembler.labels.size ≤ s'.assembler.labels.size) : s'.Sourced := by
  intro o l found
  rcases labelled.newer o l found with old | new
  · exact (h o l old).trans_le le
  · exact new.2

/-- A label that has been made and belongs to no source offset. -/
def State.Inner (s : State) (l : Label) : Prop :=
  l < s.assembler.labels.size ∧ ∀ o : Int, s.labels[o]? ≠ some l

theorem State.Inner.mono {s s' : State} {l : Label} (h : s.Inner l) (labelled : Labelled s s')
    (le : s.assembler.labels.size ≤ s'.assembler.labels.size) : s'.Inner l := by
  refine ⟨h.1.trans_le le, fun o found => ?_⟩
  rcases labelled.newer o l found with old | new
  · exact h.2 o old
  · exact absurd h.1 (Nat.not_lt.mpr new.1)

namespace Scope

/-- A local that the code of an operation may write. -/
def Writable (K : Scope) (i : Int) : Prop :=
  K.base ≤ i ∨ K.function.localBase ≤ i ∧ i < K.function.slotBase + 2

/-- A label belongs to the operation. -/
def Owns (K : Scope) (s : State) (l : Label) : Prop := K.labels ≤ l ∧ s.Inner l

/-- A label that the operation may branch to. -/
def Reaches (K : Scope) (s : State) (l : Label) : Prop :=
  K.Owns s l ∨ ∃ o : Int, s.labels[o]? = some l

/-- A line that an operation may write: it writes no local that it may not, marks no label of
something else, and branches to no such label. -/
def Confines (K : Scope) (s : State) (line : Line) : Prop :=
  (∀ i, line.written? = some i → K.Writable i) ∧ (∀ l, line = .mark l → K.Owns s l) ∧
    ∀ l, line.target? = some l → K.Reaches s l

def owning (K : Scope) (l : Label) : Scope := { K with own := l :: K.own }

/-- An operation works on a state. -/
structure Open (K : Scope) (s : State) : Prop where
  base : s.pool.base = K.base
  labels : K.labels ≤ s.assembler.labels.size
  own : ∀ l ∈ K.own, K.Owns s l
  sources : s.Sourced
  registry : ∀ sig, s.registry.Knows sig → sig.method ∈ K.refs

end Scope

/-- The labels of an entry of the exception table. -/
def guardLabels (h : PendingHandler) : List Label := [h.start, h.stop, h.target]

/-- What an operation leaves behind. -/
structure Kept (K : Scope) (s s' : State) : Prop where
  code : ∃ lines fresh guards, Wrote K.refs lines fresh guards s.assembler s'.assembler ∧
    (∀ line ∈ lines, K.Confines s' line) ∧
      ∀ h ∈ guards, K.guarding ∧ ∀ l ∈ guardLabels h, K.Owns s' l
  failure : s'.failure = none → s.failure = none
  labelled : Labelled s s'
  marked : s'.marked = s.marked
  handlers : s'.handlers = s.handlers
  dispatch : s'.dispatch = s.dispatch
  first : s'.first = s.first
  resumes : s'.resumes = s.resumes
  nextState : s'.nextState = s.nextState
  base : s'.pool.base = s.pool.base
  reserved : s'.pool.reserved = s.pool.reserved
  maxLocals : s.pool.maxLocals ≤ s'.pool.maxLocals
  registry : ∀ sig, s'.registry.Knows sig → s.registry.Knows sig ∨ sig.method ∈ K.refs

variable {K : Scope} {s s' s'' : State} {l : Label} {lines : List Line} {i : Int}

theorem Kept.labels (h : Kept K s s') : s.assembler.labels.size ≤ s'.assembler.labels.size := by
  obtain ⟨lines, fresh, guards, wrote, -⟩ := h.code
  rw [wrote.labels]
  exact Nat.le_add_right _ _

theorem Kept.owns (h : Kept K s s') (owns : K.Owns s l) : K.Owns s' l :=
  ⟨owns.1, owns.2.mono h.labelled h.labels⟩

theorem Kept.reaches (h : Kept K s s') (reaches : K.Reaches s l) : K.Reaches s' l :=
  reaches.imp h.owns fun ⟨o, source⟩ => ⟨o, h.labelled.sources o l source⟩

theorem Kept.opened (h : Kept K s s') (opened : K.Open s) : K.Open s' where
  base := h.base.trans opened.base
  labels := opened.labels.trans h.labels
  own l mem := h.owns (opened.own l mem)
  sources := opened.sources.mono h.labelled h.labels
  registry sig known := (h.registry sig known).elim (opened.registry sig) id

/-- Nothing but the snapshot, the temporaries and the expectations at source offsets changes. -/
theorem kept_update (s : State) (stack : Snapshot) (reachable : Bool) (operation : String)
    (offset : Int) (expected : Std.TreeMap Int Snapshot) (pool : SlotPool)
    (base : pool.base = s.pool.base) (reserved : pool.reserved = s.pool.reserved)
    (maxLocals : s.pool.maxLocals ≤ pool.maxLocals) :
    Kept K s { s with stack, reachable, operation, offset, expected, pool } :=
  ⟨⟨[], 0, [], .refl _, by simp, by simp⟩, id, labelled_of_eq rfl, rfl, rfl, rfl, rfl, rfl, rfl,
    base, reserved, maxLocals, fun _ => .inl⟩

theorem Kept.refl (s : State) : Kept K s s := kept_update s _ _ _ _ _ _ rfl rfl le_rfl

theorem Kept.trans (h : Kept K s s') (h' : Kept K s' s'') : Kept K s s'' where
  code := by
    obtain ⟨lines, fresh, guards, wrote, confines, owns⟩ := h.code
    obtain ⟨lines', fresh', guards', wrote', confines', owns'⟩ := h'.code
    refine ⟨_, _, _, wrote.trans wrote', fun line mem => ?_, fun g mem => ?_⟩
    · rcases List.mem_append.mp mem with old | new
      · obtain ⟨writes, marks, branches⟩ := confines line old
        exact ⟨writes, fun l same => h'.owns (marks l same), fun l same => h'.reaches (branches l same)⟩
      · exact confines' line new
    · rcases List.mem_append.mp mem with old | new
      · exact ⟨(owns g old).1, fun l hl => h'.owns ((owns g old).2 l hl)⟩
      · exact owns' g new
  failure fine := h.failure (h'.failure fine)
  labelled := h.labelled.trans h'.labelled h.labels h'.labels
  marked := h'.marked.trans h.marked
  handlers := h'.handlers.trans h.handlers
  dispatch := h'.dispatch.trans h.dispatch
  first := h'.first.trans h.first
  resumes := h'.resumes.trans h.resumes
  nextState := h'.nextState.trans h.nextState
  base := h'.base.trans h.base
  reserved := h'.reserved.trans h.reserved
  maxLocals := h.maxLocals.trans h'.maxLocals
  registry sig known := (h'.registry sig known).elim (h.registry sig) .inr

theorem kept_emitted {fresh : Nat} {guards : List PendingHandler}
    (h : Emitted K.toSource lines fresh guards s s') (confines : ∀ line ∈ lines, K.Confines s' line)
    (owns : ∀ h ∈ guards, K.guarding ∧ ∀ l ∈ guardLabels h, K.Owns s' l) : Kept K s s' := by
  obtain ⟨a, rfl, wrote⟩ := h
  exact ⟨⟨lines, fresh, guards, wrote, confines, owns⟩, id, labelled_of_eq rfl, rfl, rfl, rfl,
    rfl, rfl, rfl, rfl, rfl, le_rfl, fun _ => .inl⟩

/-- Emission leaves a state in which the operation can go on. -/
theorem Scope.Open.emitted {fresh : Nat} {guards : List PendingHandler} (opened : K.Open s)
    (emitted : Emitted K.toSource lines fresh guards s s') : K.Open s' := by
  have labelled := emitted.labelled
  have le := emitted.wrote.le_labels
  obtain ⟨a, rfl, -⟩ := emitted
  exact ⟨opened.base, opened.labels.trans le,
    fun l mem => ⟨(opened.own l mem).1, (opened.own l mem).2.mono labelled le⟩,
    opened.sources.mono labelled le, opened.registry⟩

/-! ## Steps -/

/-- A step stays in a scope, and its result has a property. -/
def Keeps {α : Type} (K : Scope) (x : Lowering α) (R : α → Prop) : Prop :=
  ∀ s a s', K.Open s → x K.function s = (.ok a, s') → Kept K s s' ∧ R a

variable {α β : Type} {x : Lowering α} {R : α → Prop} {R' : β → Prop}

namespace Keeps

theorem bind {k : α → Lowering β} (h : Keeps K x R) (h' : ∀ a, R a → Keeps K (k a) R') :
    Keeps K (x >>= k) R' := by
  intro s b s' opened run
  obtain ⟨a, s₁, first, second⟩ := bind_eq_ok run
  obtain ⟨kept, result⟩ := h s a s₁ opened first
  obtain ⟨kept', result'⟩ := h' a result s₁ b s' (kept.opened opened) second
  exact ⟨kept.trans kept', result'⟩

/-- Two steps of which nothing is known of the first one's result. -/
theorem seq {k : α → Lowering β} (h : Keeps K x fun _ => True) (h' : ∀ a, Keeps K (k a) R') :
    Keeps K (x >>= k) R' :=
  h.bind fun a _ => h' a

theorem ret {a : α} (h : R a) : Keeps K (pure a) R := by
  intro s b s' _ run
  obtain ⟨same, rfl⟩ : Except.ok a = Except.ok b ∧ s = s' := Prod.mk.inj run
  cases same
  exact ⟨.refl s, h⟩

theorem pure (a : α) : Keeps K (Pure.pure a) fun _ => True := ret trivial

theorem defect (d : Defect) : Keeps K (defect d : Lowering α) R := by
  intro s a s' _ run
  cases run

theorem fail (e : Cause) : Keeps K (fail e) fun _ => True := by
  intro s a s' _ run
  obtain ⟨-, rfl⟩ := Prod.mk.inj run
  refine ⟨⟨⟨[], 0, [], .refl _, by simp, by simp⟩, fun fine => ?_, labelled_of_eq rfl, rfl,
    rfl, rfl, rfl, rfl, rfl, rfl, rfl, le_rfl, fun _ => .inl⟩, trivial⟩
  simp at fine

/-- A step that reads the state. -/
theorem reads (h : ∀ s, (x K.function s).2 = s) : Keeps K x fun _ => True := by
  intro s a s' _ run
  obtain rfl : s = s' := by rw [← h s, run]
  exact ⟨.refl s, trivial⟩

/-- A step that reads the state, and what it finds. -/
theorem finds (h : ∀ s a s', K.Open s → x K.function s = (.ok a, s') → s' = s ∧ R a) :
    Keeps K x R := by
  intro s a s' opened run
  obtain ⟨rfl, result⟩ := h s a s' opened run
  exact ⟨.refl _, result⟩

/-- A change of the snapshot or of what else is of no consequence. -/
theorem update {g : State → State} (h : ∀ s, K.Open s → Kept K s (g s)) :
    Keeps K (modify g : Lowering Unit) fun _ => True := by
  intro s a s' opened run
  obtain ⟨-, rfl⟩ := Prod.mk.inj run
  exact ⟨h s opened, trivial⟩

/-- A step that only writes. -/
theorem writes {x : Lowering Unit} (h : ∀ r, Writes K.toSource r x lines)
    (confines : ∀ s, K.Open s → ∀ line ∈ lines, K.Confines s line) : Keeps K x fun _ => True := by
  intro s u s' opened run
  have emitted := (h s.registry).emits s u s' rfl run
  exact ⟨kept_emitted emitted (confines s' (opened.emitted emitted)) (by simp), trivial⟩

/-- More labels do no harm. -/
theorem owning (h : Keeps K x R) (l : Label) : Keeps (K.owning l) x R := by
  intro s a s' opened run
  obtain ⟨kept, result⟩ :=
    h s a s' { opened with own := fun l' mem => opened.own l' (List.mem_cons_of_mem l mem) } run
  exact ⟨{ kept with }, result⟩

theorem weaken (h : Keeps K x R) {R' : α → Prop} (imp : ∀ a, R a → R' a) : Keeps K x R' := by
  intro s a s' opened run
  obtain ⟨kept, result⟩ := h s a s' opened run
  exact ⟨kept, imp a result⟩

theorem forget (h : Keeps K x R) : Keeps K x fun _ => True := h.weaken fun _ _ => trivial

end Keeps

/-! ## The snapshot and the pool -/

theorem keeps_get : Keeps K (get : Lowering State) fun s => K.Open s :=
  .finds fun s a s' opened run => by
    obtain ⟨same, rfl⟩ := Prod.mk.inj run
    cases same
    exact ⟨rfl, opened⟩

theorem keeps_pushType? (t : Option TypeRef) : Keeps K (pushType? t) fun _ => True :=
  .update fun s _ => kept_update s _ _ _ _ _ _ rfl rfl le_rfl

theorem keeps_pushType (t : TypeRef) : Keeps K (pushType t) fun _ => True :=
  keeps_pushType? _

theorem keeps_showStack (st : Snapshot) : Keeps K (showStack st) fun _ => True :=
  .reads fun _ => rfl

theorem keeps_compatible (a b : Snapshot) : Keeps K (compatible a b) fun _ => True :=
  .reads fun _ => rfl

theorem keeps_alloc (k : Kind) : Keeps K (alloc k) fun i => K.base ≤ i := by
  intro s i s' opened run
  obtain ⟨rfl, pool, rfl, base, reserved, -, maxLocals, -⟩ := alloc_eq_ok run
  refine ⟨kept_update s _ _ _ _ _ _ base reserved maxLocals, ?_⟩
  rw [← opened.base]
  omega

theorem keeps_free (i : Int) : Keeps K (free i) fun _ => True := by
  intro s a s' _ run
  obtain ⟨rest, -, rfl⟩ := free_eq_ok run
  exact ⟨kept_update s _ _ _ _ _ _ rfl rfl le_rfl, trivial⟩

/-! ## Instructions -/

/-- Whether a line writes no local and marks no label. -/
def silent : Line → Bool
  | .store .. | .increment .. | .mark _ => false
  | _ => true

theorem Scope.confines_of_silent {line : Line} (h : silent line = true)
    (branches : ∀ l, line.target? = some l → K.Reaches s l) : K.Confines s line := by
  refine ⟨fun i hi => ?_, fun l same => ?_, branches⟩
  · cases line with
    | store | increment => cases h
    | _ => cases hi
  · subst same
    cases h

/-- Lines that write no local, mark no label and do not branch. -/
theorem Keeps.silent {x : Lowering Unit} (h : ∀ r, Writes K.toSource r x lines)
    (quiet : ∀ line ∈ lines, Lower.silent line = true ∧ line.target? = none) :
    Keeps K x fun _ => True :=
  .writes h fun _ _ line mem => Scope.confines_of_silent (quiet line mem).1 fun l same => by
    rw [(quiet line mem).2] at same
    cases same

theorem Keeps.idle {step : Asm Unit} (line : Line)
    (wrote : ∀ a a', step a = .ok ((), a') → Wrote K.refs [line] 0 [] a a')
    (idle : line.idle = true) : Keeps K (assemble step) fun _ => True := by
  refine .silent (fun _ => .assemble wrote) fun line' mem => ?_
  rw [List.mem_singleton.mp mem]
  cases line with
  | load | store | increment | branch | mark => cases idle
  | _ => exact ⟨rfl, rfl⟩

theorem keeps_load (i : Int) (k : Kind) : Keeps K (load i k) fun _ => True :=
  .silent (fun _ => writes_load i k) (by simp [silent])

theorem Scope.Writable.nonneg (h : K.Writable i) : 0 ≤ i := by
  rcases h with h | h
  · exact K.nonneg.trans h
  · exact K.function.nonneg_localBase.trans h.1

theorem keeps_store (k : Kind) (writable : K.Writable i) :
    Keeps K (store i k) fun _ => True := by
  refine .writes (fun _ => writes_store i k) fun _ _ line mem => ?_
  rw [List.mem_singleton] at mem
  subst mem
  refine ⟨fun j hj => ?_, by simp, by simp⟩
  cases hj
  rwa [Int.toNat_of_nonneg writable.nonneg]

theorem keeps_increment (writable : K.Writable i) :
    Keeps K (increment i) fun _ => True := by
  refine .writes (fun _ => writes_increment i) fun _ _ line mem => ?_
  rw [List.mem_singleton] at mem
  subst mem
  refine ⟨fun j hj => ?_, by simp, by simp⟩
  cases hj
  rwa [Int.toNat_of_nonneg writable.nonneg]

theorem keeps_mark (mem : l ∈ K.own) : Keeps K (mark l) fun _ => True := by
  refine .writes (fun _ => writes_mark l) fun s opened line here => ?_
  rw [List.mem_singleton] at here
  subst here
  refine ⟨by simp [Line.written?], fun l' same => ?_, by simp⟩
  cases same
  exact opened.own l mem

theorem keeps_branch {op : Opcode} (shape : op.shape = .branch) (mem : l ∈ K.own) :
    Keeps K (branch op l) fun _ => True := by
  refine .writes (fun _ => writes_branch shape l) fun s opened line here => ?_
  rw [List.mem_singleton.mp here]
  refine Scope.confines_of_silent rfl fun l' same => ?_
  cases same
  exact .inl (opened.own l mem)

theorem Scope.Open.newLabel (opened : K.Open s)
    (made : newLabel K.function s = (.ok l, s')) :
    Emitted K.toSource [] 1 [] s s' ∧ Kept K s s' ∧ (K.owning l).Open s' := by
  obtain ⟨rfl, emitted⟩ := emitted_newLabel (c := K.toSource) made
  have kept : Kept K s s' := kept_emitted emitted (by simp) (by simp)
  have opened' := kept.opened opened
  have own : K.Owns s' s.assembler.labels.size := by
    refine ⟨opened.labels, emitted.wrote.labels.ge, fun o found => ?_⟩
    obtain ⟨a, rfl, -⟩ := emitted
    exact absurd (opened.sources o _ found) (lt_irrefl _)
  exact ⟨emitted, kept, { opened' with
    own := fun l mem => (List.mem_cons.mp mem).elim (· ▸ own) (opened'.own l) }⟩

theorem Keeps.label {k : Label → Lowering β} (h : ∀ l, Keeps (K.owning l) (k l) R') :
    Keeps K (newLabel >>= k) R' := by
  intro s b s' opened run
  obtain ⟨l, s₁, made, run⟩ := bind_eq_ok run
  obtain ⟨-, kept, owning⟩ := opened.newLabel made
  obtain ⟨kept', result⟩ := h _ s₁ b s' owning run
  exact ⟨kept.trans { kept' with }, result⟩

theorem keeps_tryCatch {start stop target : Label} (cls : String) (may : K.guarding)
    (hs : start ∈ K.own) (he : stop ∈ K.own) (ht : target ∈ K.own) :
    Keeps K (tryCatch start stop target cls) fun _ => True := by
  intro s u s' opened run
  have emitted := emitted_tryCatch (c := K.toSource) run
  have owned {l : Label} (mem : l ∈ K.own) : K.Owns s' l :=
    ⟨(opened.own l mem).1, (opened.own l mem).2.mono emitted.labelled emitted.wrote.le_labels⟩
  refine ⟨kept_emitted emitted (by simp) fun h mem => ⟨may, fun l hl => ?_⟩, trivial⟩
  rw [List.mem_singleton] at mem
  subst mem
  simp only [guardLabels, List.mem_cons, List.not_mem_nil, or_false] at hl
  rcases hl with rfl | rfl | rfl
  · exact owned hs
  · exact owned he
  · exact owned ht

theorem keeps_offsetLabel (o : Int) : Keeps K (offsetLabel o) fun _ => True := by
  intro s l s' opened run
  obtain ⟨-, labelled, ⟨fresh, wrote⟩, a, labels, rfl⟩ := wrote_offsetLabel (c := K.toSource) run
  exact ⟨⟨⟨[], fresh, [], wrote, by simp, by simp⟩, id, labelled, rfl, rfl, rfl, rfl, rfl, rfl, rfl,
    rfl, le_rfl, fun _ => .inl⟩, trivial⟩

theorem keeps_branchOffset {op : Opcode} (shape : op.shape = .branch) (o : Int) :
    Keeps K (do branch op (← offsetLabel o)) fun _ => True := by
  intro s u s' opened run
  obtain ⟨l, s₁, found, run⟩ := bind_eq_ok run
  obtain ⟨kept, -⟩ := keeps_offsetLabel o s l s₁ opened found
  obtain ⟨source, -⟩ := wrote_offsetLabel (c := K.toSource) found
  have branches : Branches op := ⟨shape⟩
  have emitted := Emitted.of (c := K.toSource) run
  refine ⟨kept.trans (kept_emitted emitted (fun line mem => ?_) (by simp)), trivial⟩
  rw [List.mem_singleton.mp mem]
  refine Scope.confines_of_silent rfl fun l' same => ?_
  cases same
  exact .inr ⟨o, emitted.labelled.sources o l source⟩

end HostLowering.Lower
