import HostLowering.Proofs.Lower.Collection

set_option autoImplicit false

/-! # Jumps and exceptions

The depth at a source offset is settled by the first jump there, by the region whose handler begins
there, or by the visit of the offset, whichever comes first; later ones must agree. The label of an
offset may be older than its depth: a region may end at an offset of which nothing else is known.
-/

namespace HostLowering.Lower

set_option synthInstance.maxSize 1000000

open Machine Catalog Lowering

variable {c : Setting} {Γ : List Fact} {p q : Point} {v : View} {s s' : State} {d m n : Nat} {b : Bool}

/-! ## Source offsets -/

theorem State.sourceDepth_expect (s : State) (o : Int) (st : Snapshot) (o' : Int) :
    { s with expected := s.expected.insert o st }.sourceDepth o' =
      if s.handlers.contains o' then some 1
      else if o = o' then some st.length else (s.expected[o']?).map List.length := by
  unfold State.sourceDepth
  simp only [Std.TreeMap.getElem?_insert, Std.compare_eq_iff_eq]
  by_cases same : o = o'
  · simp only [if_pos same, Option.map_some]
  · simp only [if_neg same]

/-- A depth is settled for a source offset that had none. -/
theorem Invariant.declare (inv : Invariant c v s) {expected : Std.TreeMap Int Snapshot}
    {handlers : Std.TreeMap Int HandlerEntry} (o : Int) (n : Nat) (new : s.sourceDepth o = none)
    (now : { s with expected, handlers }.sourceDepth o = some n)
    (others : ∀ o' ≠ o, { s with expected, handlers }.sourceDepth o' = s.sourceDepth o')
    (kept : ∀ (o' : Int) (h : HandlerEntry), handlers[o']? = some h → ∀ k ∈ h.kept, k.1 < s.pool.maxLocals)
    (marked : ∀ o', s.marked.contains o' = true → handlers.contains o' = s.handlers.contains o') :
    ∃ depth, Invariant c ⟨v.items, depth⟩ { s with expected, handlers } ∧
      Grows v s ⟨v.items, depth⟩ { s with expected, handlers } := by
  let depth : Depths := fun l => if s.labels[o]? = some l then some n else v.depth l
  have le : v.depth.Le depth := by
    intro l d known
    have other : s.labels[o]? ≠ some l := by
      intro own
      rw [(inv.sources o l own).2.1, new] at known
      cases known
    exact (if_neg other).trans known
  have settled (o' : Int) (d : Nat) (known : s.sourceDepth o' = some d) :
      { s with expected, handlers }.sourceDepth o' = some d := by
    have ne : o' ≠ o := by
      rintro rfl
      rw [new] at known
      cases known
    exact (others o' ne).trans known
  refine ⟨depth, ?_, ?_⟩
  · exact {
      __ := inv
      fresh := fun l hl => by
        have other : s.labels[o]? ≠ some l := fun own =>
          absurd (inv.sources o l own).1 (Nat.not_lt.mpr hl)
        exact (if_neg other).trans (inv.fresh l hl)
      sources := fun o' l hl => by
        obtain ⟨lt, known, unplaced⟩ := inv.sources o' l hl
        refine ⟨lt, ?_, unplaced⟩
        by_cases same : o' = o
        · subst same
          exact (if_pos hl).trans now.symm
        · have other : s.labels[o]? ≠ some l := fun own => same (inv.distinct o' o l hl own)
          exact (if_neg other).trans (known.trans (others o' same).symm)
      guards := fun h mem => ⟨le _ _ (inv.guards h mem).1, (inv.guards h mem).2⟩
      resumes := fun r mem => ⟨le _ _ (inv.resumes r mem).1, (inv.resumes r mem).2⟩
      first := fun k hk => settled k 1 (inv.first k hk)
      kept := kept }
  · exact { Grows.refl v s with depth := le, expects := settled, handlers := marked }

/-- The invariant with a label for a source offset that had none. -/
theorem Invariant.offsetLabel (inv : Invariant c v s) {o : Int} (new : s.labels[o]? = none) :
    ∃ depth : Depths,
      Invariant c ⟨v.items, depth⟩ { s with
        assembler := { s.assembler with labels := s.assembler.labels.push {} }
        labels := s.labels.insert o s.assembler.labels.size } ∧
      Grows v s ⟨v.items, depth⟩ { s with
        assembler := { s.assembler with labels := s.assembler.labels.push {} }
        labels := s.labels.insert o s.assembler.labels.size } := by
  obtain ⟨depth, deep, inv', grows⟩ := inv.newLabel (s.sourceDepth o)
  have lookup (o' : Int) : (s.labels.insert o s.assembler.labels.size)[o']? =
      if o = o' then some s.assembler.labels.size else s.labels[o']? := by
    rw [Std.TreeMap.getElem?_insert]
    simp only [Std.compare_eq_iff_eq]
  have older {o' : Int} {l : Label} (hl : s.labels[o']? = some l) :
      (s.labels.insert o s.assembler.labels.size)[o']? = some l := by
    rw [lookup, if_neg, hl]
    rintro rfl
    rw [new] at hl
    cases hl
  refine ⟨depth, { inv' with sources := ?_, distinct := ?_, guards := ?_ }, ?_⟩
  · intro o' l hl
    rw [lookup] at hl
    split at hl
    · rename_i same
      cases hl
      subst same
      exact ⟨by simp, deep, fun _ => by simp [Assembler.position?]⟩
    · exact inv'.sources o' l hl
  · intro o₁ o₂ l h₁ h₂
    rw [lookup] at h₁ h₂
    split at h₁ <;> split at h₂
    · rename_i first second
      exact first.symm.trans second
    · cases h₁
      exact absurd (inv.sources o₂ _ h₂).1 (lt_irrefl _)
    · cases h₂
      exact absurd (inv.sources o₁ _ h₁).1 (lt_irrefl _)
    · exact inv.distinct o₁ o₂ l h₁ h₂
  · intro h mem
    obtain ⟨known, place, hp, ordered⟩ := inv'.guards h mem
    refine ⟨known, place, hp, ordered.imp_right ?_⟩
    rintro ⟨o', early, stop, marked⟩
    exact ⟨o', early, older stop, marked⟩
  · refine { grows with sources := fun _ _ => older, newer := ?_ }
    intro o' l hl
    rw [lookup] at hl
    split at hl
    · cases hl
      exact .inr le_rfl
    · exact .inl hl

theorem moves_offsetLabel (o : Int) :
    Moves c Γ (offsetLabel o) p p fun l => [.source o l] := by
  refine .step fun s l s' run fine => ?_
  rcases offsetLabel_eq_ok run with ⟨found, rfl⟩ | ⟨new, rfl, rfl⟩
  · refine ⟨fine, fun v inv here _ => ⟨v, inv, (Quiet.refl s').grows, here, fun φ mem => ?_⟩⟩
    rw [List.mem_singleton] at mem
    subst mem
    exact found
  · refine ⟨fine, fun v inv here _ => ?_⟩
    obtain ⟨depth, inv', grows⟩ := inv.offsetLabel new
    refine ⟨_, inv', grows, ⟨here.ends.mono grows.depth, here.slots, here.live⟩, fun φ mem => ?_⟩
    rw [List.mem_singleton] at mem
    subst mem
    exact Std.TreeMap.getElem?_insert_self

/-- The label of a source offset whose depth is settled. -/
theorem moves_settledLabel {o : Int} (settled : .expects o n ∈ Γ) :
    Moves c Γ (offsetLabel o) p p fun l => [.deep l n, .source o l] := by
  refine (moves_offsetLabel o).weaken fun l v s inv facts φ mem => ?_
  have source := facts (.source o l) (by simp)
  have depth := facts (.expects o n) (by simp [settled])
  simp only [List.mem_cons, List.not_mem_nil, or_false] at mem
  rcases mem with rfl | rfl
  · exact (inv.sources o l source).2.1.trans depth
  · exact source

/-! ## Jumps -/

def Snapshot.kinds (r : Registry) (s : Snapshot) : List Kind := s.map (Slot.kind r)

theorem Snapshot.kinds_of_compatible {r : Registry} {a b : Snapshot} (h : a.compatible r b = true) :
    a.kinds r = b.kinds r := by
  induction a generalizing b with
  | nil =>
    cases b with
    | nil => rfl
    | cons y b => cases h
  | cons x a ih =>
    cases b with
    | nil => cases h
    | cons y b =>
      have h : (x.kind r == y.kind r && r.related x.known y.known && compatible r a b) = true := h
      rw [Bool.and_eq_true, Bool.and_eq_true, beq_iff_eq] at h
      show x.kind r :: kinds r a = y.kind r :: kinds r b
      rw [h.1.1, ih h.2]

theorem Snapshot.length_eq_of_compatible {r : Registry} {a b : Snapshot} (h : a.compatible r b = true) :
    a.length = b.length := by
  simpa [kinds] using congrArg List.length (kinds_of_compatible h)

/-- A jump to a source offset, with the operands of the branch above the slots. -/
theorem moves_jumpTo {op : Opcode} {after : Option Nat} {k : Nat} (target : Int)
    (branches : ∀ Γ l, .deep l m ∈ Γ →
      Moves c Γ (branch op l) ⟨some (m + k), m, b⟩ ⟨after, m, b⟩ fun _ => []) :
    Moves c Γ (jumpTo op target) ⟨some (m + k), m, b⟩ ⟨after, m, b⟩ fun _ => [] := by
  unfold jumpTo
  refine .get fun s => ?_
  -- the branch, once the depth at the target is that of the snapshot
  have go (s : State) (depth : s.sourceDepth target = some s.stack.length) :
      MovesFrom c Γ (do branch op (← offsetLabel target)) s ⟨some (m + k), m, b⟩
        ⟨after, m, b⟩ fun _ => [] := by
    refine .note (φ := .expects target m) (fun v inv here _ => ?_) ?_
    · exact depth.trans (congrArg some here.slots)
    · exact ((moves_settledLabel List.mem_cons_self).bind fun l => branches _ l (by simp)) s
  split
  · exact Moves.fail _ s
  · rename_i free
    have depth : s.sourceDepth target = (s.expected[target]?).map List.length := if_neg free
    cases found : s.expected[target]? with
    | some e =>
      refine .reads (a := e.compatible s.registry s.stack) rfl ?_
      split
      · rename_i agrees
        refine go s ?_
        rw [depth, found, ← Snapshot.length_eq_of_compatible agrees]
        rfl
      · have failed {t : String × String} : Moves c Γ (do
            fail (.jumpJoin target t.1 t.2)
            pure ()) ⟨some (m + k), m, b⟩ ⟨after, m, b⟩ fun _ => [] :=
          .failThen _ (.pure ())
        exact Moves.seq (.reads fun _ => rfl) (fun there => .seq (.reads fun _ => rfl) fun here =>
          failed (t := (there, here))) s
    | none =>
      have now : { s with expected := s.expected.insert target s.stack }.sourceDepth target =
          some s.stack.length := by
        rw [State.sourceDepth_expect, if_neg free, if_pos rfl]
      refine .modify id (fun v inv here _ => ?_) (go _ now)
      obtain ⟨depth', inv', grows⟩ := inv.declare target s.stack.length (depth.trans (by rw [found]; rfl))
        now (fun o ne => by rw [State.sourceDepth_expect, if_neg ne.symm]; rfl) inv.kept fun _ _ => rfl
      exact ⟨_, inv', grows, here.ends.mono grows.depth, here.slots, here.live⟩

instance {op : Opcode} {e k : Nat} (target : Int) [t : Tests op k] [h : Splits k e m] :
    Leads c Γ (jumpTo op target) ⟨some e, m, b⟩ ⟨some m, m, b⟩ := by
  rw [h.eq]
  exact ⟨moves_jumpTo target fun _ _ deep => moves_branch k 0 deep t.tests.1 t.tests.2.1 t.tests.2.2⟩

instance (target : Int) : Leads c Γ (jumpTo .goto target) ⟨some m, m, b⟩ ⟨none, m, b⟩ :=
  ⟨moves_jumpTo (k := 0) target fun _ _ deep => moves_goto deep⟩

instance (equal : Bool) : Tests (compare equal) 2 := by
  cases equal <;> exact ⟨rfl, le_rfl, rfl⟩

instance {d : Option Nat} : Leads c Γ stop ⟨d, m, b⟩ ⟨d, m, false⟩ := by
  refine ⟨.quiet rfl fun s a s' run _ => ?_⟩
  obtain ⟨-, rfl⟩ := Prod.mk.inj run
  exact ⟨.update s _ _ _ _ _, id, fun _ => rfl, by simp⟩

theorem moves_jump (target : Int) :
    Moves c Γ (jump target) ⟨some m, m, b⟩ ⟨none, m, false⟩ fun _ => [] := by
  unfold jump
  exact .leads

instance (value : Bool) (target : Int) :
    Leads c Γ (popJumpIf value target) ⟨some (m + 1), m + 1, b⟩ ⟨some m, m, b⟩ := by
  unfold popJumpIf
  infer_instance

theorem moves_jumpIfOrPop (value : Bool) (target : Int) :
    Moves c Γ (jumpIfOrPop value target) ⟨some (m + 1), m + 1, b⟩ ⟨some m, m, b⟩ fun _ => [] :=
  .seq (moves_duplicate 0) fun _ => .leads

theorem moves_popJumpIfNone (isNone : Bool) (target : Int) :
    Moves c Γ (popJumpIfNone isNone target) ⟨some (m + 1), m + 1, b⟩ ⟨some m, m, b⟩
      fun _ => [] := by
  unfold popJumpIfNone
  exact .leads

/-- The handler for the end of the iteration restores what is below the iterator. -/
theorem moves_forIter (target : Int) :
    Moves c Γ (forIter target) ⟨some (m + 1), m + 1, b⟩ ⟨some (m + 2), m + 2, b⟩ fun _ => [] := by
  refine moves_stack.bind fun st => (moves_copyAll List.mem_cons_self).bind fun ts => ?_
  refine .label (m + 1) fun start => .ending (m + 2) fun ended => ?_
  refine .label 1 fun exhausted => .label (m + 2) fun continued => ?_
  refine .bind (moves_mark (by simp [ending]) (by simp [ending])) fun _ => .on ?_
  refine .bind (moves_markAfter (e := start) (by simp [ending]) (by simp [ending]) (by simp)) fun _ => .on ?_
  refine moves_stack.bind fun inLoop => .seq (moves_setStack []) fun _ => ?_
  refine .seq (moves_reloadOf (m := 0) (n := m) (P := ts.length = m + 1)
    (fun t ht => Temps.of_mem (by simp [spilled]) t (List.mem_of_mem_drop ht)) (by simp [spilled]) ?_) fun _ => ?_
  · intro length
    rw [List.length_drop, length]
    omega
  refine .seq (q := ⟨none, m, b⟩) (by simpa using .leads) fun _ => ?_
  refine .seq ((moves_setStack inLoop).post (P := inLoop.length = m + 1) (q := ⟨none, m + 1, b⟩) (by simp)
    fun length => by rw [length]) fun _ => ?_
  exact .leads

end HostLowering.Lower
