import HostLowering.Proofs.Lower.Joins

set_option autoImplicit false

/-! # The first failure

Once a failure is recorded, visits and operations do nothing, and the function ends with this failure
and no method. So a method tells that nothing has failed, and with the checks at the end that control
does not fall off, that the source has visited the target of every jump and that every handler has been
entered after its region was opened (`first_failure_final`).
-/

namespace HostLowering.Lower

open Machine Catalog Lowering

variable {f : Function} {r : Registry} {s s' : State} {e : Failure} {o : Int}

/-! ## After a failure -/

theorem hasFailed_of_failed (failed : s.failure = some e) : hasFailed f s = (.ok true, s) := by
  show (Except.ok s.failure.isSome, s) = _
  rw [failed]
  rfl

theorem visit_of_failed (failed : s.failure = some e) (given : Snapshot) :
    (Action.visit o given).run f s = (.ok (), s) := by
  show atOffset o given f s = _
  unfold atOffset
  rw [bind_of_eq_ok (hasFailed_of_failed failed)]
  rfl

theorem perform_of_failed (failed : s.failure = some e) (op : Operation) :
    op.perform f s = (.ok (), s) := by
  have refuses (name : String) (needed : Int) : begin name needed f s = (.ok false, s) := by
    unfold begin
    rw [bind_of_eq_ok (hasFailed_of_failed failed)]
    rfl
  show operation op.name (op.needed f.dialect) op.body f s = _
  unfold operation
  rw [bind_of_eq_ok (refuses _ _)]
  rfl

theorem forM_of_failed {actions : List Action} (failed : s.failure = some e)
    (visits : ∀ types, .spell types ∉ actions) : actions.forM Action.run f s = (.ok (), s) := by
  induction actions with
  | nil => rfl
  | cons a actions ih =>
    have first : a.run f s = (.ok (), s) := by
      cases a with
      | visit o given => exact visit_of_failed failed given
      | perform op => exact perform_of_failed failed op
      | spell types => exact absurd List.mem_cons_self (visits types)
    have rest := ih fun types mem => visits types (List.mem_cons_of_mem a mem)
    exact (bind_of_eq_ok first).trans rest

theorem registry_of_failed {actions : List Action} (failed : s.failure = some e)
    (run : actions.forM Action.run f s = (.ok (), s')) : ∃ r', s' = { s with registry := r' } := by
  induction actions generalizing s with
  | nil =>
    cases run
    exact ⟨s'.registry, rfl⟩
  | cons a actions ih =>
    obtain ⟨_, s₁, first, run⟩ := bind_eq_ok (x := a.run) run
    have stays : ∃ r', s₁ = { s with registry := r' } := by
      cases a with
      | visit o given =>
        have same : s = s₁ := (Prod.mk.inj ((visit_of_failed failed given).symm.trans first)).2
        exact ⟨s.registry, same.symm⟩
      | perform op =>
        have same : s = s₁ := (Prod.mk.inj ((perform_of_failed failed op).symm.trans first)).2
        exact ⟨s.registry, same.symm⟩
      | spell types =>
        obtain ⟨registry, rfl, -⟩ := spell_eq_ok first
        exact ⟨registry, rfl⟩
    obtain ⟨r₁, rfl⟩ := stays
    obtain ⟨r', same⟩ := ih (s := { s with registry := r₁ }) failed run
    exact ⟨r', same⟩

/-- The function ends with the failure. -/
theorem finish_of_failed (failed : s.failure = some e) : s.finish f = .ok (.error (.failed e)) := by
  have skips (x : Lowering Unit) : unlessFailed x f { s with operation := "Finish" } =
      (.ok (), { s with operation := "Finish" }) := by
    unfold unlessFailed
    rw [bind_of_eq_ok (hasFailed_of_failed (s := { s with operation := "Finish" }) failed)]
    rfl
  have renames : (modify fun s => { s with operation := "Finish" } : Lowering Unit) f s =
      (.ok (), { s with operation := "Finish" }) := rfl
  have completes : complete f s = (.ok (), { s with operation := "Finish" }) := by
    unfold complete
    rw [bind_of_eq_ok renames, bind_of_eq_ok (skips _), bind_of_eq_ok (skips _),
      bind_of_eq_ok (skips _), skips _]
  unfold State.finish State.after
  rw [completes]
  show Except.ok _ = _
  simp only [failed]
  rfl

/-! ## The checks at the end -/

theorem nil_of_failForLeast {offsets : List Int} {cause : Int → Cause}
    (run : failForLeast offsets cause f s = (.ok (), s')) (fine : s'.failure = none) :
    offsets = [] ∧ s' = s := by
  unfold failForLeast at run
  cases least : offsets.min? with
  | some n =>
    simp only [least] at run
    exact absurd fine (failed_of_fail run)
  | none =>
    simp only [least] at run
    cases run
    exact ⟨List.min?_eq_none_iff.mp least, rfl⟩

/-- What holds at the end of a function that is complete. -/
structure Completed (s : State) : Prop where
  stopped : s.reachable = false
  reached : ∀ o : Int, s.expected.contains o = true → s.marked.contains o = true
  entered : ∀ (o : Int) h, s.handlers[o]? = some h → h.emitted = true

theorem completed_of_complete (orderly : Orderly f s) (run : complete f s = (.ok (), s'))
    (fine : s'.Fine) : Completed s := by
  obtain ⟨-, passed⟩ := (concludes_complete orderly).of_ok run
  obtain ⟨⟨fine₀, -⟩, -⟩ := complete_eq_ok (c := ⟨f, Set.univ, fun _ _ => trivial⟩) run fine
  replace run := rest_of_ok run rfl
  obtain ⟨_, s₂, falls, run⟩ := bind_eq_ok run
  obtain ⟨_, s₃, dispatched, run⟩ := bind_eq_ok run
  obtain ⟨_, s₄, jumps, handlers⟩ := bind_eq_ok run
  -- The last two checks find nothing, so they leave the state as it is.
  obtain ⟨_, _, got, handled⟩ := bind_eq_ok (unlessFailed_eq_ok handlers fine)
  cases got
  obtain ⟨entered, rfl⟩ := nil_of_failForLeast handled fine.1
  obtain ⟨_, _, got, jumped⟩ := bind_eq_ok (unlessFailed_eq_ok jumps fine)
  cases got
  obtain ⟨reached, rfl⟩ := nil_of_failForLeast jumped fine.1
  refine ⟨?_, fun o expected => ?_, fun o h found => ?_⟩
  · by_contra reachable
    have fails : s₂.failure ≠ none := by
      replace falls := rest_of_ok falls rfl
      split at falls
      · rename_i failed
        simp [fine₀] at failed
      · replace falls := rest_of_ok falls rfl
        rw [if_pos (by simpa using reachable)] at falls
        obtain ⟨-, rfl⟩ := Prod.mk.inj falls
        simp
    obtain ⟨e, failed⟩ := Option.ne_none_iff_exists'.mp fails
    -- Nothing is dispatched after a failure, and the failure stays.
    unfold unlessFailed at dispatched
    rw [bind_of_eq_ok (hasFailed_of_failed failed)] at dispatched
    cases dispatched
    exact fails fine.1
  · have same : s.expected[o]? = s'.expected[o]? := (passed.elsewhere o nofun).symm
    by_contra unmarked
    have mem : o ∈ s'.expected.keys.filter fun n => !s'.marked.contains n := by
      rw [List.mem_filter, passed.marked]
      refine ⟨?_, by rw [Bool.eq_false_of_not_eq_true unmarked]; rfl⟩
      rw [Std.TreeMap.mem_keys, Std.TreeMap.mem_iff_isSome_getElem?, ← same]
      rwa [Std.TreeMap.contains_eq_isSome_getElem?] at expected
    rw [reached] at mem
    cases mem
  · by_contra waiting
    rw [← passed.handlers] at found
    have mem : (o, h) ∈ s'.handlers.toList.filter fun x => !x.2.emitted := by
      rw [List.mem_filter]
      exact ⟨Std.TreeMap.mem_toList_iff_getElem?_eq_some.mpr found, by simpa using waiting⟩
    have none := List.map_eq_nil_iff.mp entered
    rw [none] at mem
    cases mem

/-! ## Sessions -/

namespace Proceeds

variable {actions : List Action}

theorem visited (h : Proceeds f s actions s') (marked : s'.marked.contains o = true) :
    s.marked.contains o = true ∨ ∃ given, .visit o given ∈ actions := by
  induction h with
  | nil _ => exact .inl marked
  | cons _ _ leaves _ _ ih =>
    rcases ih marked with old | ⟨given, mem⟩
    · refine (leaves.visited o old).imp_right ?_
      rintro ⟨given, rfl⟩
      exact ⟨given, List.mem_cons_self⟩
    · exact .inr ⟨given, List.mem_cons_of_mem _ mem⟩

/-- Where a snapshot is expected, one is expected from then on. -/
theorem expects (h : Proceeds f s actions s') (expected : s.expected.contains o = true) :
    s'.expected.contains o = true := by
  induction h with
  | nil _ => exact expected
  | cons _ _ leaves _ _ ih =>
    apply ih
    rw [Std.TreeMap.contains_eq_isSome_getElem?] at expected ⊢
    obtain ⟨st, found⟩ := Option.isSome_iff_exists.mp expected
    rcases leaves.expected o st found with same | ⟨given, -, now⟩
    · rw [same]
      rfl
    · rw [now]
      rfl

theorem handlers (h : Proceeds f s actions s') (handler : s.handlers.contains o = true) :
    s'.handlers.contains o = true := by
  induction h with
  | nil _ => exact handler
  | cons _ _ leaves _ _ ih => exact ih (leaves.handler handler)

end Proceeds

theorem handler_of_openRegion {region : Region}
    (run : (Operation.openRegion region).perform f s = (.ok (), s')) (fine : s'.failure = none) :
    s.marked.contains region.target = false ∧ s'.handlers.contains region.target = true := by
  have opened := (perform_eq_ok run fine).2.2
  obtain ⟨new, h, s₁, upper, start, handled, opens⟩ :=
    openRegion_eq_ok (c := ⟨f, Set.univ, fun _ _ => trivial⟩) opened fine
  refine ⟨new, ?_⟩
  obtain ⟨a, st, p, labels, rfl, -⟩ := opens.rest
  show s₁.handlers.contains region.target = true
  rcases regionHandler_eq_ok handled with ⟨-, ⟨found, rfl⟩ | ⟨-, p', -, rfl⟩⟩
  · rw [Std.TreeMap.contains_eq_isSome_getElem?]
    show (s.handlers[region.target]?).isSome = true
    rw [show s.handlers[region.target]? = some h from found]
    rfl
  · exact Std.TreeMap.contains_insert_self

/-- In a session without a failure, an offset that is marked at the end has been visited. -/
theorem visited_of_marked {actions : List Action} (reached : stateBy f r actions = .ok s)
    (fine : s.failure = none) (marked : s.marked.contains o = true) : ∃ given, .visit o given ∈ actions := by
  obtain ⟨s₀, started, acted⟩ := except_bind_eq_ok reached
  have begun := begun_of_start started
  obtain ⟨proceeds, -⟩ := proceeds_of_forM begun.orderly (after_eq_ok acted) fine
  refine (proceeds.visited marked).resolve_left ?_
  rw [begun.marked]
  simp

theorem target_visited {before after : List Action} {op : Operation}
    (reached : stateBy f r (before ++ .perform op :: after) = .ok s) (fine : s.failure = none)
    (ends : Completed s) (jumps : op.target? = some o) :
    ∃ given, .visit o given ∈ before ++ .perform op :: after := by
  obtain ⟨s₀, s₁, s₂, -, -, run, fine₂, -, later⟩ := proceeds_of_stateBy reached fine
  obtain ⟨-, st, expected, -⟩ := joined_of_perform jumps run fine₂
  have expects : s₂.expected.contains o = true := by
    rw [Std.TreeMap.contains_eq_isSome_getElem?, expected]
    rfl
  exact visited_of_marked reached fine (ends.reached o (later.expects expects))

theorem handler_visited {before after : List Action} {region : Region}
    (reached : stateBy f r (before ++ .perform (.openRegion region) :: after) = .ok s)
    (fine : s.failure = none) (ends : Completed s) : ∃ given, .visit region.target given ∈ after := by
  obtain ⟨s₀, s₁, s₂, -, -, run, fine₂, earlier, later⟩ := proceeds_of_stateBy reached fine
  obtain ⟨new, handler⟩ := handler_of_openRegion run fine₂
  obtain ⟨-, leaves⟩ := (concludes_run (.perform (.openRegion region)) earlier.orderly).of_ok run
  -- At the end the handler is there and has been entered, so its offset is marked.
  have known := later.handlers handler
  rw [Std.TreeMap.contains_eq_isSome_getElem?] at known
  obtain ⟨h, found⟩ := Option.isSome_iff_exists.mp known
  have marked := later.orderly.entered region.target h found (ends.entered region.target h found)
  refine (later.visited marked).resolve_left fun old => ?_
  rcases leaves.visited region.target old with older | ⟨given, same⟩
  · rw [new] at older
    cases older
  · cases same

/-- **The first failure is final.** Once a failure is recorded, visits and operations leave the state
as it is, and the function ends with this failure. A method comes of a function only if no action
fails, control does not go on behind the last one, the targets of all jumps are visited and every
handler is entered after its region is opened. -/
theorem first_failure_final (f : Function) (r : Registry) :
    (∀ before s e, stateBy f r before = .ok s → s.failure = some e → ∀ after,
      ((∀ types, .spell types ∉ after) → stateBy f r (before ++ after) = .ok s ∧
        methodBy f r (before ++ after) = .ok (.error (.failed e))) ∧
      ∀ s', stateBy f r (before ++ after) = .ok s' →
        (∃ r', s' = { s with registry := r' }) ∧ s'.finish f = .ok (.error (.failed e))) ∧
    ∀ actions m, methodBy f r actions = .ok (.ok m) → ∃ s, stateBy f r actions = .ok s ∧
      s.reachable = false ∧ (∀ (o : Int) h, s.handlers[o]? = some h → h.emitted = true) ∧
      (∀ before after s₁, actions = before ++ after → stateBy f r before = .ok s₁ →
        s₁.failure = none) ∧
      ∀ before op after, actions = before ++ .perform op :: after →
        (∀ o, op.target? = some o → ∃ given, .visit o given ∈ actions) ∧
        ∀ region, op = .openRegion region → ∃ given, .visit region.target given ∈ after := by
  constructor
  · intro before s e reached failed after
    constructor
    · intro visits
      obtain ⟨s₀, started, acted⟩ := except_bind_eq_ok reached
      have run : (before ++ after).forM Action.run f s₀ = (.ok (), s) := by
        rw [List.forM_eq_forM, List.forM_append]
        exact (bind_of_eq_ok (after_eq_ok acted)).trans (forM_of_failed failed visits)
      have all := stateBy_of_eq_ok started run
      refine ⟨all, ?_⟩
      show (stateBy f r (before ++ after) >>= _) = _
      rw [all]
      exact finish_of_failed failed
    · intro s' all
      obtain ⟨r', same⟩ := registry_of_failed failed (forM_of_stateBy reached all)
      refine ⟨⟨r', same⟩, finish_of_failed ?_⟩
      rw [same]
      exact failed
  · intro actions m lowered
    obtain ⟨s, reached, finished⟩ := except_bind_eq_ok lowered
    obtain ⟨s', completed, fine', -, -⟩ := finish_eq_ok finished
    obtain ⟨⟨fine, -⟩, -⟩ := complete_eq_ok (c := ⟨f, Set.univ, fun _ _ => trivial⟩) completed fine'
    obtain ⟨orderly, -⟩ := orderly_stateBy reached
    have ends := completed_of_complete orderly completed fine'
    refine ⟨s, reached, ends.stopped, ends.entered, ?_, ?_⟩
    · rintro before after s₁ rfl reached₁
      obtain ⟨orderly₁, -⟩ := orderly_stateBy reached₁
      exact (proceeds_of_forM orderly₁ (forM_of_stateBy reached₁ reached) fine).2
    · rintro before op after rfl
      refine ⟨fun o jumps => target_visited reached fine ends jumps, ?_⟩
      rintro region rfl
      exact handler_visited reached fine ends

/-- An operand is popped that is not there. -/
def poppingNothing : List Action := [.visit 0 [], .perform .pop]

/-- The argument is returned from a region and from its handler alike. -/
def returningEither : List Action :=
  [.visit 0 [], .perform (.openRegion ⟨10, 20, 0, false⟩), .perform (.loadLocal 0), .visit 10 [.dynamic],
    .perform (.jump 30), .visit 20 [.dynamic], .perform (.jump 30), .visit 30 [.dynamic],
    .perform .returnValue]

theorem first_failure_final_returningEither :
    (∃ s e, stateBy taking .builtin poppingNothing = .ok s ∧ s.failure = some e ∧
      stateBy taking .builtin (poppingNothing ++ returningEither) = .ok s ∧
      methodBy taking .builtin (poppingNothing ++ returningEither) = .ok (.error (.failed e))) ∧
    ∃ m s, methodBy taking .builtin returningEither = .ok (.ok m) ∧
      stateBy taking .builtin returningEither = .ok s ∧ s.reachable = false ∧
      (∃ given, .visit 30 given ∈ returningEither) ∧
      ∃ given, .visit 20 given ∈ returningEither.drop 2 := by
  obtain ⟨poisons, completes⟩ := first_failure_final taking .builtin
  constructor
  · obtain ⟨s, reached, failed⟩ := exists_of_any (x := stateBy taking .builtin poppingNothing)
      (p := fun s => s.failure.isSome) (by decide +kernel)
    obtain ⟨e, failed⟩ := Option.isSome_iff_exists.mp failed
    obtain ⟨stays, -⟩ := poisons poppingNothing s e reached failed returningEither
    obtain ⟨same, ends⟩ := stays fun types => by simp [returningEither]
    exact ⟨s, e, reached, failed, same, ends⟩
  · have some_ : (method? taking .builtin returningEither).isSome = true := by decide +kernel
    obtain ⟨m, lowered⟩ := Option.isSome_iff_exists.mp some_
    have lowered := methodBy_of_method? lowered
    obtain ⟨s, reached, stopped, -, -, performs⟩ := completes returningEither m lowered
    refine ⟨m, s, lowered, reached, stopped, ?_, ?_⟩
    · exact (performs (returningEither.take 4) (.jump 30) (returningEither.drop 5) rfl).1 30 rfl
    · exact (performs (returningEither.take 1) (.openRegion ⟨10, 20, 0, false⟩)
        (returningEither.drop 2) rfl).2 ⟨10, 20, 0, false⟩ rfl

end HostLowering.Lower
