import HostLowering.Proofs.Lower.Operation

set_option autoImplicit false

/-! # Visits of source offsets

At a visit all that leads to an offset must agree with the snapshot given there. So a visit settles
the depth of the offset if it was not settled yet, and its label is marked with this depth
(`rests_atOffset`). An exception handler is entered with the thrown value alone; the slots that its
snapshot asks for are put under it by the code of the entry.
-/

namespace HostLowering.Lower

open Machine Catalog Lowering

variable {c : Setting} {Γ : List Fact} {p q : Point} {v : View} {s s' : State} {d m n : Nat}
  {b : Bool} {o : Int} {f : Function} {given : Snapshot} {r : Bool}

/-! ## Offsets that are still to be visited -/

/-- The setting in which regions may end at given offsets. -/
def Setting.until (c : Setting) (early : List Int) : Setting := { c with early }

/-- An offset that is not marked need not be kept in mind. -/
theorem Invariant.visiting {early : List Int} (inv : Invariant (c.until (o :: early)) v s)
    (unmarked : s.marked.contains o = false) : Invariant (c.until early) v s where
  __ := inv
  guards h mem := by
    obtain ⟨deep, place, hp, ordered⟩ := inv.guards h mem
    refine ⟨deep, place, hp, ordered.imp_right fun ⟨o', early', stop, marked⟩ => ?_⟩
    rcases List.mem_cons.mp early' with rfl | later
    · rw [unmarked] at marked
      cases marked
    · exact ⟨o', later, stop, marked⟩

/-! ## Marking source offsets -/

/-- The invariant when a source offset begins to count as marked. -/
theorem Invariant.markSource (inv : Invariant c v s) (o : Int) :
    Invariant c v { s with marked := s.marked.insert o () } ∧
      Grows v s v { s with marked := s.marked.insert o () } := by
  have older {o' : Int} (h : s.marked.contains o' = true) : (s.marked.insert o ()).contains o' = true := by
    rw [Std.TreeMap.contains_insert, h, Bool.or_true]
  refine ⟨{ inv with sources := fun o' l hl => ?_, guards := fun h mem => ?_ },
    { Grows.refl v s with marked := fun _ => older }⟩
  · obtain ⟨lt, depth, unplaced⟩ := inv.sources o' l hl
    refine ⟨lt, depth, fun unmarked => unplaced ?_⟩
    rw [Std.TreeMap.contains_insert, Bool.or_eq_false_iff] at unmarked
    exact unmarked.2
  · obtain ⟨deep, place, hp, ordered⟩ := inv.guards h mem
    exact ⟨deep, place, hp, ordered.imp_right fun ⟨o', early, stop, marked⟩ => ⟨o', early, stop, older marked⟩⟩

theorem moves_markSource {l : Label} {h : Bool} (source : .source o l ∈ Γ) (deep : .deep l d ∈ Γ)
    (marked : .marked o h ∈ Γ) :
    Moves c Γ (mark l) ⟨some d, m, b⟩ ⟨some d, m, b⟩ fun _ => [.placed l] := by
  refine moves_markBy deep fun v s inv facts o' ho => ?_
  obtain rfl := inv.distinct o' o l ho (facts _ source)
  exact (facts _ marked).1

/-- The label of a source offset is marked where the stack is as deep as the offset expects, or where
control does not get. -/
theorem movesFrom_markOffset {e : Option Nat} (d : Nat)
    (expected : s.sourceDepth o = some (if s.handlers.contains o then 1 else d))
    (here : e = some (if s.handlers.contains o then 1 else d) ∨ e = none) :
    MovesFrom c Γ (markOffset o) s ⟨e, m, b⟩
      ⟨some (if s.handlers.contains o then 1 else d), m, b⟩ fun _ => [.visited o d] := by
  generalize handlerIs : s.handlers.contains o = handler at *
  generalize depthIs : (if handler then 1 else d) = n at *
  refine .modify (q := ⟨e, m, b⟩) id (fun v inv at_ _ => ?_) ?_
  · obtain ⟨inv', grows⟩ := inv.markSource o
    exact ⟨v, inv', grows, at_.ends, at_.slots, at_.live⟩
  refine .notes (Φ := [.expects o n, .marked o handler]) (fun v inv _ _ φ mem => ?_) ?_
  · simp only [List.mem_cons, List.not_mem_nil, or_false] at mem
    rcases mem with rfl | rfl
    · exact expected
    · exact ⟨Std.TreeMap.contains_insert_self, handlerIs⟩
  refine Moves.bind (moves_settledLabel (n := n) (by simp)) (fun l => ?_) _
  refine Moves.weaken (Δ := fun _ => [.placed l]) ?_ fun _ v s inv facts φ mem => ?_
  · rcases here with rfl | rfl
    · exact moves_markSource (o := o) (h := handler) (by simp) (by simp) (by simp)
    · exact .dead (moves_markSource (o := o) (h := handler) (by simp) (by simp) (by simp))
  · rw [List.mem_singleton] at mem
    subst mem
    obtain ⟨marked, kind⟩ := facts (.marked o handler) (by simp)
    have deep := facts (.deep l n) (by simp)
    refine ⟨marked, l, facts (.source o l) (by simp), facts (.placed l) (by simp), ?_⟩
    rw [kind, depthIs]
    exact deep

theorem handlers_markOffset (h : markOffset o f s = (.ok (), s')) :
    s'.handlers = s.handlers := by
  replace h := rest_of_ok h rfl
  obtain ⟨l, s₂, found, h⟩ := bind_eq_ok h
  obtain ⟨a, -, rfl⟩ := assemble_eq_ok h
  rcases offsetLabel_eq_ok found with ⟨-, rfl⟩ | ⟨-, -, rfl⟩ <;> rfl

/-! ## Visits -/

theorem moves_compatible (x y : Snapshot) :
    Moves c Γ (compatible x y) p p fun r => [.prop (r = true → x.length = y.length)] := by
  refine .get fun s => Moves.ret (fun v s' _ φ mem => ?_) s
  rw [List.mem_singleton] at mem
  subst mem
  exact Snapshot.length_eq_of_compatible

theorem moves_resumeWith {depth : Option Nat} (given : Snapshot) :
    Moves c Γ (resumeWith given) ⟨depth, m, b⟩ ⟨depth, given.length, true⟩ fun _ => [] := by
  refine .quiet rfl fun s a s' run _ => ?_
  obtain ⟨-, rfl⟩ := Prod.mk.inj run
  exact ⟨.update s _ _ _ _ _, fun _ => rfl, fun _ => rfl, by simp⟩

theorem movesFrom_atHandler {h : HandlerEntry} (found : s.handlers[o]? = some h) :
    MovesFrom c Γ (atHandler o h given) s (boundary s.stack.length s.reachable)
      (boundary given.length true) fun _ => [.visited o given.length] := by
  unfold atHandler
  refine .reads (a := s) rfl ?_
  split
  · exact Moves.fail _ s
  · rename_i unreachable
    rw [Bool.not_eq_true] at unreachable
    have catches : s.handlers.contains o = true := by
      rw [Std.TreeMap.contains_eq_isSome_getElem?, found]
      rfl
    have marks := movesFrom_markOffset (c := c) (Γ := Γ) (s := s) (o := o) (m := s.stack.length) (b := false)
      given.length (by rw [State.sourceDepth, if_pos catches, if_pos catches]) (.inr rfl)
    rw [unreachable]
    refine marks.bindFrom fun _ s₁ run => ?_
    have found' : s₁.handlers[o]? = some h := by rw [handlers_markOffset run, found]
    rw [if_pos catches]
    refine (movesFrom_enterHandler found').bind fun _ => ?_
    refine moves_stack.bind fun entry => ?_
    refine (moves_compatible entry given).bind fun agrees => ?_
    cases agrees with
    | true =>
      refine .derive (φ := .prop (h.entered c.function.dialect = given.length)) (fun v s facts => ?_) ?_
      · have entered := facts (.prop (entry.length = h.entered c.function.dialect)) (by simp)
        have same := facts (.prop (true = true → entry.length = given.length)) (by simp)
        exact entered.symm.trans (same rfl)
      refine ((moves_resumeWith given).post (fun _ => List.mem_cons_self) fun same => ?_).weaken ?_
      · rw [same]
        rfl
      · intro _ v s _ facts φ mem
        exact facts φ (by simp_all)
    | false =>
      refine .seq (.reads fun _ => rfl) fun there => ?_
      refine .seq (.reads fun _ => rfl) fun here => ?_
      exact .failThen _ (moves_resumeWith (m := 0) (b := false) given)

/-- The label of an offset that is no handler is marked, and the source goes on there. -/
theorem movesFrom_resumeAt (other : s.handlers.contains o = false)
    (expected : s.sourceDepth o = some given.length) :
    MovesFrom c Γ (do markOffset o; resumeWith given) s
      ⟨if b then some given.length else none, m, b⟩ (boundary given.length true)
      fun _ => [.visited o given.length] := by
  have marks := movesFrom_markOffset (c := c) (Γ := Γ) (s := s) (o := o) (m := m) (b := b)
    (e := if b then some given.length else none) given.length (by rw [other]; exact expected) ?_
  · rw [other] at marks
    refine marks.bind fun _ => (moves_resumeWith given).weaken fun _ v s _ facts φ mem => facts φ ?_
    exact List.mem_append_right _ (List.mem_append_left _ mem)
  · rw [other]
    cases b with
    | true => exact .inl rfl
    | false => exact .inr rfl

/-- The checks of a visit: all that lead to an offset must agree with the snapshot given there. -/
theorem agree_eq_ok {x y : Snapshot} {cause : String → String → Cause}
    (h : agree x y cause f s = (.ok r, s')) :
    r = true ∧ s' = s ∧ x.compatible s.registry y = true ∨ r = false ∧ s'.failure ≠ none := by
  replace h := rest_of_ok h rfl
  split at h
  · rename_i agrees
    cases h
    exact .inl ⟨rfl, rfl, agrees⟩
  · replace h := rest_of_ok h rfl
    replace h := rest_of_ok h rfl
    exact .inr ⟨by cases h; rfl, failed_of_failWith h⟩

theorem agreeWith_eq_ok {found : Option Snapshot} {cause : String → String → Cause}
    (h : agreeWith found given cause f s = (.ok r, s')) :
    r = true ∧ s' = s ∧ (∀ x, found = some x → x.compatible s.registry given = true) ∨
      r = false ∧ s'.failure ≠ none := by
  cases found with
  | none =>
    cases h
    exact .inl ⟨rfl, rfl, by simp⟩
  | some x =>
    rcases agree_eq_ok h with ⟨yes, same, agrees⟩ | refused
    · exact .inl ⟨yes, same, fun y hy => by cases hy; exact agrees⟩
    · exact .inr refused

theorem beginAt_eq_ok (h : beginAt o given f s = (.ok r, s')) :
    r = true ∧ (s' = s ∨ s' = { s with first := o.toNat? } ∧ given.length = 1) ∨
      r = false ∧ s'.failure ≠ none := by
  replace h := rest_of_ok h rfl
  replace h := rest_of_ok h rfl
  split at h
  · replace h := rest_of_ok h rfl
    rcases agree_eq_ok h with ⟨rfl, rfl, agrees⟩ | refused
    · exact .inl ⟨rfl, .inr ⟨rfl, (Snapshot.length_eq_of_compatible agrees).symm⟩⟩
    · exact .inr refused
  · cases h
    exact .inl ⟨rfl, .inl rfl⟩

theorem acceptAt_eq_ok (h : acceptAt o given f s = (.ok r, s')) :
    r = true ∧ (s.reachable = true → s.stack.compatible s.registry given = true) ∧
        (∀ e, s.expected[o]? = some e → e.compatible s.registry given = true) ∧
        (s' = s ∨ s' = { s with first := o.toNat? } ∧ given.length = 1) ∨
      r = false ∧ s'.failure ≠ none := by
  replace h := rest_of_ok h rfl
  obtain ⟨falls, s₂, checked, h₁⟩ := bind_eq_ok h
  rcases agreeWith_eq_ok checked with ⟨rfl, rfl, through⟩ | ⟨rfl, refused⟩
  · obtain ⟨jumps, s₃, checked, h₂⟩ := bind_eq_ok h₁
    rcases agreeWith_eq_ok checked with ⟨rfl, rfl, expected⟩ | ⟨rfl, refused⟩
    · rcases beginAt_eq_ok h₂ with ⟨yes, state⟩ | refused
      · exact .inl ⟨yes, fun reachable => through _ (if_pos reachable), expected, state⟩
      · exact .inr refused
    · cases h₂
      exact .inr ⟨rfl, refused⟩
  · cases h₁
    exact .inr ⟨rfl, refused⟩

/-- The invariant with the snapshot given at an offset that is no handler. -/
theorem Invariant.expect (inv : Invariant c v s) (other : s.handlers.contains o = false)
    (same : ∀ e, s.expected[o]? = some e → e.length = given.length) :
    ∃ depth, Invariant c ⟨v.items, depth⟩ { s with expected := s.expected.insert o given } ∧
      Grows v s ⟨v.items, depth⟩ { s with expected := s.expected.insert o given } := by
  have others (o' : Int) (ne : o' ≠ o) :
      { s with expected := s.expected.insert o given }.sourceDepth o' = s.sourceDepth o' := by
    rw [State.sourceDepth_expect, if_neg ne.symm, State.sourceDepth]
  have now : { s with expected := s.expected.insert o given }.sourceDepth o = some given.length := by
    rw [State.sourceDepth_expect, if_pos rfl, other]
    rfl
  cases found : s.expected[o]? with
  | none =>
    have new : s.sourceDepth o = none := by
      rw [State.sourceDepth, other, found]
      rfl
    exact inv.declare o given.length new now others inv.kept fun _ _ => rfl
  | some e =>
    have all (o' : Int) : { s with expected := s.expected.insert o given }.sourceDepth o' = s.sourceDepth o' := by
      by_cases own : o' = o
      · subst own
        rw [now, State.sourceDepth, other, found, ← same e found]
        rfl
      · exact others o' own
    refine ⟨v.depth, { inv with sources := fun o' l hl => ?_, first := fun n hn => ?_ },
      { Grows.refl v s with expects := fun o' d h => (all o').trans h }⟩
    · rw [all]
      exact inv.sources o' l hl
    · rw [all]
      exact inv.first n hn

/-- A generator may begin where the stack holds just the value sent first. -/
theorem Invariant.beginAt (inv : Invariant c v s) (deep : s.sourceDepth o = some 1) :
    Invariant c v { s with first := o.toNat? } := by
  refine { inv with first := fun n hn => ?_ }
  obtain rfl := Int.mem_toNat?.mp hn
  exact deep

/-- A visit that was accepted settles the depth of the offset. -/
theorem Rests.accepted {s₁ : State} (rests : Rests c Γ s) (other : s.handlers.contains o = false)
    (through : s.reachable = true → s.stack.length = given.length)
    (same : ∀ e, s.expected[o]? = some e → e.length = given.length)
    (state : s₁ = s ∨ s₁ = { s with first := o.toNat? } ∧ given.length = 1) :
    Known c Γ ⟨if s.reachable then some given.length else none, s.stack.length, s.reachable⟩
      { s₁ with expected := s₁.expected.insert o given } := by
  obtain ⟨v, inv, here, facts⟩ := rests
  obtain ⟨depth, inv', grows⟩ := inv.expect other same
  have ends : View.Ends ⟨v.items, depth⟩ (if s.reachable then some given.length else none) := by
    cases reachable : s.reachable with
    | true =>
      have ends := here.ends
      rw [boundary, reachable, through reachable] at ends
      exact ends.mono grows.depth
    | false =>
      have ends := here.ends
      rw [boundary, reachable] at ends
      exact ends.mono grows.depth
  rcases state with rfl | ⟨rfl, one⟩
  · exact ⟨_, inv', ⟨ends, rfl, rfl⟩, fun φ mem => (facts φ mem).mono grows⟩
  · refine ⟨_, inv'.beginAt (o := o) ?_, ⟨ends, rfl, rfl⟩, fun φ mem =>
      ((facts φ mem).mono grows).mono (.of_eq rfl rfl rfl rfl rfl rfl le_rfl)⟩
    rw [State.sourceDepth_expect, other, if_pos rfl, one]
    rfl

/-- A visit without a failure: the offset is new, and it is that of a handler, or the snapshot given is
accepted. -/
theorem atOffset_cases {u : Unit} (run : atOffset o given f s = (.ok u, s'))
    (fine : s'.failure = none) : s.marked.contains o = false ∧
      ((∃ h, s.handlers[o]? = some h ∧
          atHandler o h given f { s with operation := "At", offset := o } = (.ok u, s')) ∨
        s.handlers[o]? = none ∧ ∃ s₁,
          acceptAt o given f { s with operation := "At", offset := o } = (.ok true, s₁) ∧
          (do markOffset o; resumeWith given : Lowering Unit) f
            { s₁ with expected := s₁.expected.insert o given } = (.ok u, s')) := by
  replace run := rest_of_ok run rfl
  split at run
  · rename_i failed
    cases run
    simp [fine] at failed
  replace run := rest_of_ok run rfl
  replace run := rest_of_ok run rfl
  split at run
  · exact absurd fine (failed_of_fail run)
  rename_i unmarked
  refine ⟨Bool.eq_false_of_not_eq_true unmarked, ?_⟩
  cases found : s.handlers[o]? with
  | some h =>
    simp only [found] at run
    exact .inl ⟨h, rfl, run⟩
  | none =>
    simp only [found] at run
    obtain ⟨accepted, s₁, checked, run⟩ := bind_eq_ok run
    rcases acceptAt_eq_ok checked with ⟨rfl, -⟩ | ⟨rfl, refused⟩
    · replace run := rest_of_ok run rfl
      exact .inr ⟨rfl, s₁, checked, run⟩
    · cases run
      exact absurd fine refused

/-- A visited offset is marked with the depth of the snapshot given there. -/
theorem rests_atOffset {early : List Int} (rests : s.Fine → Rests (c.until (o :: early)) Γ s)
    (run : atOffset o given c.function s = (.ok (), s')) (fine : s'.Fine) :
    Rests (c.until early) (.visited o given.length :: Γ) s' := by
  obtain ⟨unmarked, visits⟩ := atOffset_cases run fine.1
  have quiet : Quiet s { s with operation := "At", offset := o } := .update s _ _ _ _ _
  have ready (start : s.Fine) : Rests (c.until early) Γ { s with operation := "At", offset := o } := by
    obtain ⟨v, inv, here, facts⟩ := (rests start).quiet quiet rfl rfl
    exact ⟨v, inv.visiting unmarked, here, facts⟩
  rcases visits with ⟨h, found, run⟩ | ⟨unknown, s₁, checked, run⟩
  · exact (movesFrom_atHandler (s := { s with operation := "At", offset := o }) found () s' ready run
      fine).rests
  · rcases acceptAt_eq_ok checked with ⟨-, through, same, left⟩ | ⟨no, -⟩
    · have other : s.handlers.contains o = false := by
        rw [Std.TreeMap.contains_eq_isSome_getElem?, unknown]
        rfl
      have settled : s₁.Fine → Known (c.until early) Γ
          ⟨if s.reachable then some given.length else none, s.stack.length, s.reachable⟩
          { s₁ with expected := s₁.expected.insert o given } := fun start =>
        (ready (by rcases left with rfl | ⟨rfl, -⟩ <;> exact start)).accepted other
          (fun goes => Snapshot.length_eq_of_compatible (through goes))
          (fun e known => Snapshot.length_eq_of_compatible (same e known)) left
      have other' : s₁.handlers.contains o = false := by rcases left with rfl | ⟨rfl, -⟩ <;> exact other
      have expected : { s₁ with expected := s₁.expected.insert o given }.sourceDepth o =
          some given.length := by
        rw [State.sourceDepth_expect, other', if_pos rfl]
        rfl
      exact (movesFrom_resumeAt (by exact other') expected () s' settled run fine).rests
    · cases no

end HostLowering.Lower
