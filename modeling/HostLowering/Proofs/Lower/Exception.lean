import HostLowering.Proofs.Lower.Control

set_option autoImplicit false

/-! # Exceptions and context managers

A region saves the slots that its handler keeps in locals of the method, and the handler loads as
many of them as the region has saved. A handler is entered with the exception alone.
-/

namespace HostLowering.Lower

set_option synthInstance.maxSize 1000000

open Machine Catalog Lowering

variable {c : Setting} {Γ : List Fact} {p q : Point} {v : View} {s s' : State} {d m n : Nat}
  {b : Bool} {o : Int} {h : HandlerEntry} {P : Prop}

/-! ## Regions -/

/-- What no step but those at source offsets and jumps touches. -/
structure Untouched (s s' : State) : Prop where
  marked : s'.marked = s.marked
  expected : s'.expected = s.expected
  handlers : s'.handlers = s.handlers

theorem untouched_reserve {k : Kind} {i : Int} {f : Function}
    (h : reserve k f s = (.ok i, s')) : Untouched s s' := by
  obtain ⟨-, rfl⟩ := reserve_eq_ok h
  exact ⟨rfl, rfl, rfl⟩

theorem untouched_mapM {α β : Type} {x : α → Lowering β} {f : Function}
    (step : ∀ y s z s', x y f s = (.ok z, s') → Untouched s s') {ys : List α} {zs : List β}
    (h : ys.mapM x f s = (.ok zs, s')) : Untouched s s' := by
  induction ys generalizing s zs with
  | nil =>
    cases h
    exact ⟨rfl, rfl, rfl⟩
  | cons y ys ih =>
    rw [List.mapM_cons] at h
    obtain ⟨z, s₁, first, h⟩ := bind_eq_ok h
    obtain ⟨rest, s₂, others, h⟩ := bind_eq_ok h
    cases h
    have here := step y s z s₁ first
    have there := ih others
    exact ⟨there.marked.trans here.marked, there.expected.trans here.expected,
      there.handlers.trans here.handlers⟩

theorem State.sourceDepth_catch (s : State) (o : Int) (h : HandlerEntry) (o' : Int) :
    { s with handlers := s.handlers.insert o h }.sourceDepth o' =
      if o = o' then some 1 else s.sourceDepth o' := by
  unfold State.sourceDepth
  simp only [Std.TreeMap.contains_insert, Bool.or_eq_true, beq_iff_eq, Std.compare_eq_iff_eq]
  by_cases same : o = o'
  · simp only [same, true_or, if_true]
  · simp only [same, false_or, if_false]

/-- The entry of a handler, where nothing else was known of the offset. -/
theorem Invariant.newHandler (inv : Invariant c v s) (new : s.sourceDepth o = none)
    (unmarked : s.marked.contains o = false) (kept : ∀ k ∈ h.kept, k.1 < s.pool.maxLocals) :
    ∃ depth, Invariant c ⟨v.items, depth⟩ { s with handlers := s.handlers.insert o h } ∧
      Grows v s ⟨v.items, depth⟩ { s with handlers := s.handlers.insert o h } := by
  refine inv.declare o 1 new ((s.sourceDepth_catch o h o).trans (if_pos rfl))
    (fun o' ne => (s.sourceDepth_catch o h o').trans (if_neg ne.symm)) (fun o' h' found => ?_)
    fun o' marked => ?_
  · rw [Std.TreeMap.getElem?_insert] at found
    split at found
    · cases found
      exact kept
    · exact inv.kept o' h' found
  · have ne : o ≠ o' := by
      rintro rfl
      rw [unmarked] at marked
      cases marked
    simp [Std.TreeMap.contains_insert, ne]

/-- What is known of the handler of a region that keeps some slots. -/
def handlerFacts (target : Int) (n : Nat) : Option HandlerEntry → List Fact
  | some h => [.expects target 1, .locals (h.kept.map Prod.fst), .prop (h.kept.length = n)]
  | none => [.prop False]

theorem movesFrom_regionHandler {r : Region} {saved : Snapshot}
    (unmarked : s.marked.contains r.target = false) :
    MovesFrom c Γ (regionHandler r saved) s p p (handlerFacts r.target saved.length) := by
  unfold regionHandler
  refine .reads (a := s) rfl ?_
  cases found : s.handlers[r.target]? with
  | some h =>
    have failed (Γ : List Fact) : Moves c Γ (do
        fail (.regionStack (← showStack saved) r.target (← showStack h.snapshot))
        return none) p p (handlerFacts r.target saved.length) :=
      .seq (.reads fun _ => rfl) fun _ => .seq (.reads fun _ => rfl) fun _ => .failWith _ _
    dsimp only
    split
    · refine .reads (a := h.snapshot.compatible s.registry saved) rfl ?_
      split
      · rename_i agrees
        refine .note (φ := .expects r.target 1) (fun _ _ _ _ => ?_) ?_
        · exact if_pos (Std.TreeMap.contains_eq_isSome_getElem?.trans (by rw [found]; rfl))
        refine .note (φ := .locals (h.kept.map Prod.fst)) (fun v inv _ _ i hi => ?_) ?_
        · obtain ⟨k, hk, rfl⟩ := List.mem_map.mp hi
          exact inv.kept r.target h found k hk
        refine Moves.ret (fun v s facts φ mem => ?_) s
        simp only [handlerFacts, List.mem_cons, List.not_mem_nil, or_false] at mem
        rcases mem with rfl | rfl | rfl
        · exact facts _ (by simp)
        · exact facts _ (by simp)
        · have length := Snapshot.length_eq_of_compatible agrees
          rwa [HandlerEntry.snapshot, List.length_reverse, List.length_map] at length
      · exact failed Γ s
    · exact failed Γ s
  | none =>
    dsimp only
    split
    · exact Moves.failWith _ _ s
    · rename_i unexpected
      have reserves : Moves c Γ (saved.reverse.mapM fun slot => do
          return (← reserve (← slotKind slot), slot)) p p
          fun kept => [.locals (kept.map Prod.fst), .prop (kept.length = saved.reverse.length)] := by
        refine moves_mapM Prod.fst _ fun slot Γ => ?_
        refine .seq (.reads fun _ => rfl) fun k => (moves_reserve k).bind fun i => ?_
        exact .ret fun v s facts φ mem => facts φ (List.mem_append_left _ mem)
      refine MovesFrom.bindFrom (reserves s) fun kept s₁ run => ?_
      have same : Untouched s s₁ := untouched_mapM (fun slot s pair s' run => by
        replace run := rest_of_ok run rfl
        obtain ⟨i, s₃, reserved, run⟩ := bind_eq_ok run
        cases run
        exact untouched_reserve reserved) run
      have absent : s₁.handlers.contains r.target = false := by
        rw [same.handlers, Std.TreeMap.contains_eq_isSome_getElem?, found]
        rfl
      have new : s₁.sourceDepth r.target = none := by
        unfold State.sourceDepth
        rw [absent, same.expected, Std.TreeMap.getElem?_eq_none (by simpa using unexpected)]
        rfl
      refine .modify (q := p) id (fun v inv here facts => ?_) ?_
      · obtain ⟨depth, inv', grows⟩ := inv.newHandler (h := { kept, lasti := r.lasti }) new
          (by rw [same.marked, unmarked]) fun k hk =>
            facts (.locals (kept.map Prod.fst)) (by simp) k.1 (List.mem_map_of_mem hk)
        exact ⟨_, inv', grows, here.ends.mono grows.depth, here.slots, here.live⟩
      · refine .note (φ := .expects r.target 1) (fun _ _ _ _ => ?_) ?_
        · exact (State.sourceDepth_catch _ _ _ _).trans (if_pos rfl)
        refine Moves.ret (fun v s facts φ mem => ?_) _
        simp only [handlerFacts, List.mem_cons, List.not_mem_nil, or_false] at mem
        rcases mem with rfl | rfl | rfl
        · exact facts _ (by simp)
        · exact facts _ (by simp)
        · have length := facts (.prop (kept.length = saved.reverse.length)) (by simp)
          exact length.trans List.length_reverse

theorem moves_loadKept (locals : .locals (h.kept.map Prod.fst) ∈ Γ) (mem : .prop P ∈ Γ)
    (length : P → h.kept.length = n) :
    Moves c Γ (loadKept h) ⟨some d, m, b⟩ ⟨some (d + n), m, b⟩ fun _ => [] := by
  have loop := moves_forM (c := c) (Γ := Γ) (x := fun (k : Int × Slot) => do
      load k.1 (← slotKind k.2)) (fun i => ⟨some (d + i), m, b⟩) h.kept 0
    fun k hk i => .seq (.reads fun _ => rfl) fun kind =>
      moves_load kind (usable_of_mem locals (List.mem_map_of_mem hk))
  refine loop.post (fun _ => mem) fun holds => ?_
  rw [Nat.zero_add, length holds]

theorem moves_storeKept (locals : .locals (h.kept.map Prod.fst) ∈ Γ) (mem : .prop P ∈ Γ)
    (length : P → h.kept.length = n) :
    Moves c Γ (storeKept h) ⟨some (d + n), m, b⟩ ⟨some d, m, b⟩ fun _ => [] := by
  have loop := moves_forMDown (c := c) (Γ := Γ) (x := fun (k : Int × Slot) => do
      store k.1 (← slotKind k.2)) (fun i => ⟨some (d + i), m, b⟩) h.kept.reverse
    fun k hk i => .seq (.reads fun _ => rfl) fun kind =>
      moves_store kind (usable_of_mem locals (List.mem_map_of_mem (List.mem_reverse.mp hk)))
  refine .conv mem (fun holds => ?_) loop
  rw [List.length_reverse, length holds]

/-- An exception table entry for a region. The region may end at an offset that was marked before;
it is then one of those given. -/
theorem moves_tryRegion {start stop target : Label} {catches : String} (deep : .deep target 1 ∈ Γ)
    (placed : .placed start ∈ Γ) (source : .source o stop ∈ Γ) (early : o ∈ c.early) :
    Moves c Γ (tryCatch start stop target catches) p p fun _ => [] := by
  refine moves_tryBy deep fun v s inv facts => ?_
  obtain ⟨p, hp⟩ := Option.isSome_iff_exists.mp (facts _ placed)
  have own := facts _ source
  refine ⟨p, hp, ?_⟩
  cases marked : s.marked.contains o with
  | true => exact .inr ⟨o, early, own, marked⟩
  | false =>
    have unplaced := (inv.sources o stop own).2.2 marked
    exact .inl fun q hq => by simp [unplaced] at hq

theorem moves_openRegion {r : Region} (early : r.stop ∈ c.early) (le : r.depth ≤ n) :
    Moves c Γ (openRegion r) ⟨some n, n, b⟩ ⟨some n, n, b⟩ fun _ => [] := by
  unfold openRegion
  refine .get fun s => ?_
  split
  · exact Moves.fail _ s
  refine .reads (a := c.function) rfl ?_
  split
  · exact Moves.fail _ s
  split
  · exact Moves.fail _ s
  rename_i nonneg _ unmarked
  obtain ⟨k, depth⟩ := Int.eq_ofNat_of_zero_le (Int.not_lt.mp nonneg)
  have le : k ≤ n := by omega
  dsimp only
  rw [depth, Int.toNat_natCast]
  refine .note (φ := .prop (s.stack.length = n)) (fun _ _ here _ => here.slots) ?_
  refine MovesFrom.bind (movesFrom_regionHandler (Bool.eq_false_of_not_eq_true unmarked)) fun o => ?_
  cases o with
  | none => exact .never (P := False) (by simp [handlerFacts]) id
  | some h =>
    dsimp only
    generalize savedIs : s.stack.drop (s.stack.length - k) = saved
    generalize aboveIs : s.stack.length - k = above at savedIs ⊢
    -- the slots above the region and those that its handler keeps are all there are
    have all (length : s.stack.length = n) : 0 + saved.length + above = n := by
      rw [← savedIs, List.length_drop]
      omega
    refine .conv (P := s.stack.length = n) (by simp)
      (r := ⟨some (0 + saved.length + above), 0 + saved.length + above, b⟩) (fun length => by rw [all length]) ?_
    refine (moves_spill above).bind fun upper => ?_
    refine .seq (moves_storeKept (P := h.kept.length = saved.length) (by simp [handlerFacts])
      (by simp [handlerFacts]) id) fun _ => ?_
    refine .seq (moves_loadKept (P := h.kept.length = saved.length) (by simp [handlerFacts])
      (by simp [handlerFacts]) id) fun _ => ?_
    refine .seq (moves_reloadOf (P := upper.length = above) (.of_mem (by simp [spilled]))
      (by simp [spilled]) id) fun _ => ?_
    refine .conv (P := s.stack.length = n) (by simp) (r := ⟨some n, n, b⟩) (fun length => by rw [all length]) ?_
    refine .on (.label n fun start => .bind (moves_mark (by simp) (by simp)) fun _ => ?_)
    refine (moves_offsetLabel r.stop).bind fun stop => ?_
    refine (moves_settledLabel (n := 1) (by simp [handlerFacts])).bind fun target => ?_
    exact (moves_tryRegion (by simp) (by simp) (by simp) early).weaken (by simp)

/-! ## Handlers -/

/-- Another entry for a handler that is known. -/
theorem Invariant.rehandle (inv : Invariant c v s) (operation : String)
    (old : s.handlers.contains o = true) (kept : ∀ k ∈ h.kept, k.1 < s.pool.maxLocals) :
    Invariant c v { s with operation, handlers := s.handlers.insert o h } ∧
      Grows v s v { s with operation, handlers := s.handlers.insert o h } := by
  have same (o' : Int) : { s with operation, handlers := s.handlers.insert o h }.sourceDepth o' =
      s.sourceDepth o' := by
    refine (State.sourceDepth_catch s o h o').trans ?_
    split
    · rename_i here
      subst here
      exact (if_pos old).symm
    · rfl
  refine ⟨{ inv with
      sources := fun o' l hl => ?_
      first := fun n hn => (same n).trans (inv.first n hn)
      kept := fun o' h' found => ?_ },
    { Grows.refl v s with
      expects := fun o' d hd => (same o').trans hd
      handlers := fun o' _ => ?_ }⟩
  · rw [same]
    exact inv.sources o' l hl
  · rw [Std.TreeMap.getElem?_insert] at found
    split at found
    · cases found
      exact kept
    · exact inv.kept o' h' found
  · rw [Std.TreeMap.contains_insert]
    by_cases here : o = o'
    · subst here
      simp [old]
    · simp [here]

/-- The depth with which the body of a handler begins. -/
def HandlerEntry.entered (h : HandlerEntry) : Option Dialect → Nat
  | some .tuple => h.kept.length + 6
  | some .bare => h.kept.length + (if h.lasti then 2 else 1)
  | none => h.kept.length

instance : Has c Γ c.function.exceptionSlot :=
  ⟨usable_of_lt (by unfold Function.exceptionSlot; omega)⟩

instance : Has c Γ c.function.previousSlot :=
  ⟨usable_of_lt (by unfold Function.previousSlot; omega)⟩

instance : Shifts pushNone 0 1 0 1 := by
  unfold pushNone
  exact ⟨.leads⟩

instance (i : Int) : Shifts (pushIntObject i) 0 1 0 1 := by
  unfold pushIntObject
  exact ⟨.leads⟩

instance : Shifts pushException 0 1 0 1 := by
  unfold pushException
  exact ⟨.leads⟩

theorem movesFrom_enterHandler (found : s.handlers[o]? = some h) :
    MovesFrom c Γ (enterHandler o h) s ⟨some 1, m, b⟩
      ⟨some (h.entered c.function.dialect), h.entered c.function.dialect, b⟩ fun _ => [] := by
  have old : s.handlers.contains o = true := by
    rw [Std.TreeMap.contains_eq_isSome_getElem?, found]
    rfl
  refine .modify (q := ⟨some 1, m, b⟩) id (fun v inv here _ => ?_) ?_
  · obtain ⟨inv', grows⟩ := inv.rehandle (h := { h with emitted := true }) "Handler" old
      (inv.kept o h found)
    exact ⟨v, inv', grows, here.ends, here.slots, here.live⟩
  refine .note (φ := .locals (h.kept.map Prod.fst)) (fun v inv _ _ i hi => ?_) ?_
  · obtain ⟨k, hk, rfl⟩ := List.mem_map.mp hi
    exact inv.kept o _ Std.TreeMap.getElem?_insert_self k hk
  refine .note (φ := .prop True) (fun _ _ _ _ => trivial) ?_
  refine Moves.read ?_ _
  refine .on (.seq (moves_loadKept (P := True) (by simp) (by simp) fun _ => rfl) fun _ => ?_)
  refine .seq (moves_setStack _) fun _ => ?_
  rw [HandlerEntry.snapshot, List.length_reverse, List.length_map, Nat.zero_add]
  rcases c.function.dialect with _ | _ | _
  · exact .fail _
  · exact .leads
  · cases lasti : h.lasti with
    | true =>
      simp only [HandlerEntry.entered, lasti, if_true]
      exact .leads
    | false =>
      simp only [HandlerEntry.entered, lasti, Bool.false_eq_true, if_false]
      exact .leads

theorem moves_startBlock :
    Moves c Γ startBlock
      ⟨some (d + blockValues c.function.dialect), m + blockValues c.function.dialect, b⟩
      ⟨some d, m, b⟩ fun _ => [] := by
  unfold startBlock
  refine .read ?_
  split
  · exact .fail _
  refine .on (.seq (q := ⟨some d, m + blockValues c.function.dialect, b⟩) ?_ fun _ => .leads)
  rcases c.function.dialect with _ | _ | _
  · exact moves_emit 1 0 rfl
  · exact moves_emit 3 0 rfl
  · exact moves_emit 1 0 rfl

instance : Shifts pushPrevious 1 2 1 2 := by
  unfold pushPrevious
  exact ⟨.leads⟩

instance : Shifts popException 1 0 1 0 := by
  unfold popException
  exact ⟨.leads⟩

instance : Shifts testMatch 2 1 0 0 := by
  unfold testMatch
  exact ⟨.leads⟩

instance : Shifts checkMatch 2 2 2 2 := by
  unfold checkMatch
  exact ⟨.leads⟩

theorem moves_jumpUnlessMatch (target : Int) :
    Moves c Γ (jumpUnlessMatch target) ⟨some (m + 2), m + 2, b⟩ ⟨some m, m, b⟩ fun _ => [] := by
  unfold jumpUnlessMatch
  exact .leads

/-! ## Raising -/

instance : Shifts exceptionInstance 1 1 0 0 :=
  ⟨@fun _ _ d _ _ => .label (d + 1) fun _ => .leads⟩

instance {m' : Nat} [Splits n m' m] :
    Leads c Γ (throwTop n) ⟨some (d + 1), m', b⟩ ⟨none, m, false⟩ := by
  unfold throwTop
  infer_instance

theorem moves_raise (argc : Int) :
    Moves c Γ (raise argc) ⟨some (d + argc.toNat), m + argc.toNat, b⟩ ⟨none, m, false⟩
      fun _ => [] := by
  unfold raise
  split
  · subst_vars
    exact .leads
  split
  · subst_vars
    exact Moves.leads (p := ⟨some (d + 1), m + 1, b⟩)
  split
  · subst_vars
    exact Moves.leads (p := ⟨some (d + 2), m + 2, b⟩)
  · exact .fail _

theorem moves_reraise :
    Moves c Γ reraise ⟨some (d + 1), m + 1, b⟩ ⟨none, m, false⟩ fun _ => [] := by
  unfold reraise
  exact .leads

/-! ## Context managers -/

instance : Shifts enterContext 1 2 1 2 := by
  unfold enterContext
  exact ⟨.leads⟩

theorem moves_exitNormally :
    Moves c Γ exitNormally ⟨some (d + 1), m + 1, b⟩ ⟨some d, m, b⟩ fun _ => [] := by
  refine .seq (q := ⟨some (d + 4), m + 4, b⟩) ?_ fun _ => ?_
  · exact .seq .leads fun _ => .seq .leads fun _ => .seq .leads fun _ => .pure ()
  · exact .seq (moves_genericCall 3 []) fun _ => .leads

theorem moves_boundExit? :
    Moves c Γ boundExit? ⟨some d, m, b⟩ ⟨some d, m, b⟩ fun o =>
      [.prop (∀ n, o = some n → 1 ≤ n ∧ n + 1 ≤ m)] := by
  refine .seq (.reads fun _ => rfl) fun st => ?_
  refine moves_stack.bind fun stack => ?_
  cases stack with
  | nil =>
    refine .ret fun v s facts φ mem => ?_
    rw [List.mem_singleton] at mem
    subst mem
    simp [Fact.Holds]
  | cons top below =>
    refine .ret fun v s facts φ mem => ?_
    rw [List.mem_singleton] at mem
    subst mem
    have length := facts (.prop ((top :: below).length = m)) (by simp)
    intro n found
    obtain ⟨i, at_, rfl⟩ := Option.map_eq_some_iff.mp found
    have lt := (List.findIdx?_eq_some_iff_getElem.mp at_).1
    rw [Fact.Holds, List.length_cons] at length
    omega

theorem moves_loadFirst {ts : List Temp} (temps : Temps c Γ ts) (mem : .prop P ∈ Γ)
    (some_ : P → 1 ≤ ts.length) :
    Moves c Γ (ts.head?.forM loadTemp) ⟨some d, m, b⟩ ⟨some (d + 1), m, b⟩ fun _ => [] := by
  cases ts with
  | cons t ts => exact moves_loadTemp (temps t List.mem_cons_self)
  | nil => exact (Moves.pure ()).conv mem fun holds => absurd (some_ holds) (by simp)

theorem moves_exitWithException {k : Nat} :
    Moves c Γ exitWithException ⟨some k, k, b⟩ ⟨some (k + 1), k + 1, b⟩ fun _ => [] := by
  refine moves_boundExit?.bind fun o => ?_
  cases o with
  | none =>
    refine .seq (.reads fun _ => rfl) fun st => ?_
    exact .seq (.reads fun _ => rfl) fun _ => .fail _
  | some n =>
    refine .conv (P := ∀ j, some n = some j → 1 ≤ j ∧ j + 1 ≤ k) (by simp)
      (r := ⟨some (k - n - 1 + 1 + n), k - n - 1 + 1 + n, b⟩) (fun found => ?_) ?_
    · have bounds := found n rfl
      rw [show k - n - 1 + 1 + n = k by omega]
    refine (moves_spill n).bind fun ts => ?_
    have temps {Γ : List Fact} (mem : .locals (ts.map Temp.index) ∈ Γ) : Temps c Γ ts := .of_mem mem
    refine .derive (φ := .prop (1 ≤ ts.length)) (fun v s facts => ?_) ?_
    · have length := facts (.prop (ts.length = n)) (by simp [spilled])
      have found := facts (.prop (∀ j, some n = some j → 1 ≤ j ∧ j + 1 ≤ k)) (by simp)
      have bounds := found n rfl
      rw [Fact.Holds] at length ⊢
      omega
    have first {Γ : List Fact} {d m : Nat} (mem : .locals (ts.map Temp.index) ∈ Γ)
        (some_ : .prop (1 ≤ ts.length) ∈ Γ) := moves_loadFirst (d := d) (m := m) (b := b) (temps mem) some_ id
    refine .on (.seq (first (by simp [spilled]) List.mem_cons_self) fun _ => .on ?_)
    refine .seq (first (by simp [spilled]) List.mem_cons_self) fun _ => .on (.alloc fun result => .on ?_)
    refine .seq (moves_reloadOf (P := ts.length = n) (temps (by simp [spilled])) (by simp [spilled]) id)
      fun _ => .on ?_
    refine (Moves.leads.post (P := ∀ j, some n = some j → 1 ≤ j ∧ j + 1 ≤ k) (by simp) ?_).weaken (by simp)
    intro found
    have bounds := found n rfl
    rw [show k - n - 1 + 1 + n = k by omega]

end HostLowering.Lower
