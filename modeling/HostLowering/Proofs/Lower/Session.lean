import HostLowering.Proofs.Lower.Visit
import HostLowering.Proofs.Machine.Texts

set_option autoImplicit false

/-! # Lowering agrees with the verifier

A function is lowered by visiting source offsets and performing operations. If all of it is done
without a failure and the code can be built, the verifier accepts the method, and where it reaches a
source offset that was visited it finds the stack as deep as the snapshot given there. This needs that
the methods invoked can be told apart by their texts, as far as their operands go: the constant pool
keeps only one of two methods with the same text.
-/

namespace HostLowering.Lower

open Machine Catalog Lowering

variable {c : Setting} {Γ : List Fact} {s s' : State} {f : Function} {r : Registry}

/-! ## Sessions -/

/-- What is done to lower a function: visit a source offset with a snapshot, perform an operation, or
spell out types, some of which may be new. -/
inductive Action where
  | visit (offset : Int) (given : Snapshot)
  | perform (operation : Operation)
  | spell (types : List TypeSpec)
deriving Inhabited

namespace Action

/-- Do what an action says. -/
def run : Action → Lowering Unit
  | visit offset given => atOffset offset given
  | perform operation => operation.perform
  | spell types => discard (resolveSnapshot types)

def offsets : List Action → List Int
  | [] => []
  | visit offset _ :: rest => offset :: offsets rest
  | _ :: rest => offsets rest

/-- Every region that actions open ends at an offset that is visited later. -/
def CloseRegions : List Action → Prop
  | [] => True
  | perform (.openRegion r) :: rest => r.stop ∈ offsets rest ∧ CloseRegions rest
  | _ :: rest => CloseRegions rest

end Action

/-- The state in which a function ends that is lowered by actions. -/
def lowerBy (f : Function) (r : Registry) (actions : List Action) : Except Defect State := do
  let s ← State.start f r
  let s ← s.after f (actions.forM Action.run)
  s.after f complete

def State.method (f : Function) (s : State) : Except BuildError Method :=
  s.assembler.build f.owner f.name (f.params s.registry) s.pool.maxLocals

theorem after_eq_ok {step : Lowering Unit} (h : s.after f step = .ok s') :
    step f s = (.ok (), s') := by
  unfold State.after at h
  split at h
  · rename_i run
    cases h
    exact run
  · cases h

variable {actions : List Action}

/-! ## The beginning -/

/-- The code of a generator may go to its dispatcher, with nothing on the stack. -/
def Dispatches (f : Function) (Γ : List Fact) : Prop :=
  f.generator = true → ∃ l, .dispatch l ∈ Γ ∧ .deep l 0 ∈ Γ ∧ .inner l ∈ Γ

/-- Without code there is nothing to be wrong with. -/
theorem invariant_blank (c : Setting) {pool : SlotPool}
    (registry : ∀ sig, r.Knows sig → sig.Sound ∧ sig.method ∈ c.refs)
    (arguments : c.function.argCount ≤ c.function.locals.size)
    (slots : c.function.slotBase + 2 ≤ pool.maxLocals)
    (reserved : ∀ i ∈ pool.reserved, i < pool.maxLocals) :
    Invariant c ⟨[], fun _ => none⟩ { registry := r, pool } where
  held := ⟨coded_nil, Pool.keyed_empty⟩
  within p op o n e k h := by cases h
  fresh _ _ := rfl
  sources o l h := by simp at h
  distinct o o' l h := by simp at h
  guards h mem := by simp at mem
  resumes p hp := by simp at hp
  first n h := by simp at h
  kept o h found := by simp at found
  arguments := arguments
  slots := slots
  reserved := reserved
  registry := registry

theorem checkArguments_eq_ok (h : checkArguments f s = (.ok (), s')) :
    s' = s ∧ f.argCount ≤ f.locals.size ∨ ¬s'.Fine := by
  replace h := rest_of_ok h rfl
  split at h
  · obtain ⟨-, rfl⟩ := Prod.mk.inj h
    exact .inr fun fine => absurd fine.1 (by simp)
  · rename_i enough
    cases h
    exact .inl ⟨rfl, Int.not_lt.mp enough⟩

theorem moves_clearSlot {d m : Nat} {b : Bool} {i : Int} (usable : Usable c Γ i) :
    Moves c Γ (clearSlot i) ⟨some d, m, b⟩ ⟨some d, m, b⟩ fun _ => [] :=
  .seq (moves_emit 0 1 rfl) fun _ => moves_store .ref usable

theorem Invariant.dispatch {v : View} (inv : Invariant c v s) (l : Label) :
    Invariant c v { s with dispatch := l } :=
  { inv with }

/-- Entering the source leads to a boundary. -/
theorem rests_enter (known : s.Fine → Known c [] ⟨some 0, 0, false⟩ s)
    (run : enter c.function s = (.ok (), s')) (fine : s'.Fine) :
    ∃ Γ, Dispatches c.function Γ ∧ Rests c Γ s' := by
  replace run := rest_of_ok run rfl
  split at run
  · obtain ⟨l, s₁, new, run⟩ := bind_eq_ok run
    replace run := rest_of_ok run rfl
    have labelled := moves_newLabel 0 s l s₁ known new
    have goes : Moves c [.dispatch l, .deep l 0, .inner l] (branch .goto l)
        ⟨some 0, 0, false⟩ ⟨none, 0, false⟩ fun _ => [] := moves_goto (by simp)
    have away : Known c [.dispatch l, .deep l 0, .inner l] (boundary 0 false) s' := by
      refine goes _ () s' (fun start => ?_) run fine
      obtain ⟨v, inv, here, facts⟩ := labelled start
      refine ⟨v, inv.dispatch l, ⟨here.ends, here.slots, here.live⟩, fun φ mem => ?_⟩
      simp only [List.mem_cons, List.not_mem_nil, or_false] at mem
      rcases mem with rfl | rfl | rfl
      · rfl
      · exact facts (.deep l 0) (by simp)
      · exact facts (.inner l) (by simp)
    exact ⟨_, fun _ => ⟨l, by simp⟩, away.rests⟩
  · rename_i plain
    obtain ⟨-, rfl⟩ := Prod.mk.inj run
    refine ⟨[], fun generator => absurd generator plain, ?_⟩
    obtain ⟨v, inv, here, facts⟩ := known fine
    refine (show Known c [] (boundary 0 true) _ from ?_).rests
    exact ⟨v, inv.quiet (.update s _ _ _ _ _), ⟨here.ends, here.slots, rfl⟩, by simp⟩

theorem moves_clearSlots {d m : Nat} {b : Bool} {i j : Int} (first : Usable c Γ i) (second : Usable c Γ j) :
    Moves c Γ ([i, j].forM clearSlot) ⟨some d, m, b⟩ ⟨some d, m, b⟩ fun _ => [] := by
  refine moves_forMSame _ fun k hk => moves_clearSlot ?_
  simp only [List.mem_cons, List.not_mem_nil, or_false] at hk
  rcases hk with rfl | rfl
  · exact first
  · exact second

/-- A function begins at a boundary. -/
theorem rests_start (registry : ∀ sig, r.Knows sig → sig.Sound ∧ sig.method ∈ c.refs)
    (run : State.start c.function r = .ok s) (fine : s.Fine) :
    ∃ Γ, Dispatches c.function Γ ∧ Rests c Γ s := by
  obtain ⟨_, s₁, checked, run⟩ := bind_eq_ok (after_eq_ok run)
  obtain ⟨current, s₂, first, run⟩ := bind_eq_ok run
  obtain ⟨rfl, rfl⟩ := reserve_eq_ok first
  obtain ⟨previous, s₃, second, run⟩ := bind_eq_ok run
  obtain ⟨rfl, rfl⟩ := reserve_eq_ok second
  obtain ⟨_, s₄, cleared, run⟩ := bind_eq_ok run
  refine rests_enter (fun start => ?_) run fine
  rcases checkArguments_eq_ok checked with ⟨rfl, arguments⟩ | refused
  · have clears : Moves c [] ([c.function.slotBase, c.function.slotBase + 1].forM clearSlot)
        ⟨some 0, 0, false⟩ ⟨some 0, 0, false⟩ fun _ => [] :=
      moves_clearSlots (usable_of_lt (by omega)) (usable_of_lt (by omega))
    refine clears _ () s₄ (fun _ => ?_) cleared start
    refine ⟨_, invariant_blank c registry arguments ?_ ?_, ⟨rfl, rfl, rfl⟩, by simp⟩
    · simp only [SlotPool.new]
      omega
    · intro i hi
      simp only [SlotPool.new, List.mem_cons, List.not_mem_nil, or_false] at hi
      rcases hi with rfl | rfl <;> simp only [SlotPool.new] <;> omega
  · have never (i : Int) : Usable c [.prop False] i := fun _ _ _ facts => (facts _ List.mem_cons_self).elim
    exact absurd ((moves_clearSlots (d := 0) (m := 0) (b := false) (never _) (never _)).fine cleared start) refused

/-! ## Actions -/

/-- The facts that actions add: the offsets they visit. -/
def Action.notes : List Action → List Fact → List Fact
  | [], Γ => Γ
  | visit offset given :: rest, Γ => notes rest (.visited offset given.length :: Γ)
  | _ :: rest, Γ => notes rest Γ

theorem Action.mem_notes {φ : Fact} (mem : φ ∈ Γ) : φ ∈ notes actions Γ := by
  induction actions generalizing Γ with
  | nil => exact mem
  | cons a actions ih =>
    cases a with
    | visit o given => exact ih (List.mem_cons_of_mem _ mem)
    | perform op => exact ih mem
    | spell types => exact ih mem

theorem Action.visited_mem_notes {o : Int} {given : Snapshot} (mem : .visit o given ∈ actions) :
    .visited o given.length ∈ notes actions Γ := by
  induction actions generalizing Γ with
  | nil => cases mem
  | cons a actions ih =>
    rcases List.mem_cons.mp mem with rfl | later
    · show _ ∈ notes actions (.visited o given.length :: Γ)
      exact mem_notes List.mem_cons_self
    · cases a with
      | visit o' given' => exact ih later
      | perform op => exact ih later
      | spell types => exact ih later

/-- Spelling out types makes no new signatures. -/
theorem spell_eq_ok {types : List TypeSpec} {f : Function}
    (run : (Action.spell types).run f s = (.ok (), s')) :
    ∃ registry, s' = { s with registry } ∧ ∀ sig, registry.Knows sig → s.registry.Knows sig := by
  change (resolveSnapshot types >>= fun _ => pure ()) f s = _ at run
  obtain ⟨given, s₁, resolved, run⟩ := bind_eq_ok run
  cases run
  unfold resolveSnapshot at resolved
  split at resolved
  · rename_i ts registry eq
    obtain ⟨-, rfl⟩ := Prod.mk.inj resolved
    exact ⟨registry, rfl, ((Registry.familiar_resolveAll types).known eq).2⟩
  · cases resolved

theorem rests_spell {types : List TypeSpec} (rests : s.Fine → Rests c Γ s)
    (run : (Action.spell types).run c.function s = (.ok (), s')) (fine : s'.Fine) : Rests c Γ s' := by
  obtain ⟨registry, rfl, known⟩ := spell_eq_ok run
  exact (rests fine).quiet
    ⟨rfl, rfl, rfl, rfl, rfl, rfl, rfl, rfl, id, le_rfl, fun _ => .inl, known⟩ rfl rfl

/-- Actions lead from rest to rest. While they are done, the offsets still to be visited are those at
which a region may end. -/
theorem rests_actions (close : Action.CloseRegions actions)
    (rests : s.Fine → Rests (c.until (Action.offsets actions)) Γ s)
    (run : actions.forM Action.run c.function s = (.ok (), s')) (fine : s'.Fine) :
    Rests (c.until []) (Action.notes actions Γ) s' := by
  induction actions generalizing Γ s with
  | nil =>
    cases run
    exact rests fine
  | cons a actions ih =>
    change (a.run >>= fun _ => actions.forM Action.run) c.function s = _ at run
    obtain ⟨_, s₁, first, later⟩ := bind_eq_ok run
    cases a with
    | visit o given => exact ih close (fun start => rests_atOffset rests first start) later
    | perform op =>
      have closed : Action.CloseRegions actions ∧
          ∀ r, op = .openRegion r → r.stop ∈ Action.offsets actions := by
        cases op with
        | openRegion r => exact ⟨close.2, fun r' same => by cases same; exact close.1⟩
        | _ => exact ⟨close, fun r' same => by cases same⟩
      refine ih closed.1 (fun start => ?_) later
      exact rests_operation (c := c.until (Action.offsets actions))
        (fun k enough => crosses_body op enough closed.2) rests first start
    | spell types => exact ih close (fun start => rests_spell rests first start) later

/-! ## The end -/

theorem unlessFailed_eq_ok {step : Lowering Unit}
    (h : unlessFailed step f s = (.ok (), s')) (fine : s'.Fine) :
    step f s = (.ok (), s') := by
  replace h := rest_of_ok h rfl
  split at h
  · rename_i failed
    cases h
    simp [fine.1] at failed
  · exact h

theorem failForLeast_eq_ok {offsets : List Int} {cause : Int → Cause}
    (h : failForLeast offsets cause f s = (.ok (), s')) (fine : s'.Fine) : s' = s := by
  unfold failForLeast at h
  cases least : offsets.min? with
  | some n =>
    simp only [least] at h
    exact absurd fine.1 (failed_of_fail h)
  | none =>
    simp only [least] at h
    cases h
    rfl

/-- What completing a function does: control must not get to the end, and a generator gets its
dispatcher. -/
theorem complete_cases (run : complete f s = (.ok (), s')) (fine : s'.Fine) :
    ∃ t : State, (t.Fine → s.reachable = false ∧ t = { s with operation := "Finish" }) ∧
      ((f.generator = true ∧ ∃ n, t.first = some n ∧ emitDispatch n f t = (.ok (), s')) ∨
        (f.generator = false ∧ s' = t)) := by
  replace run := rest_of_ok run rfl
  obtain ⟨_, t, falls, run⟩ := bind_eq_ok run
  obtain ⟨_, s₃, dispatched, run⟩ := bind_eq_ok run
  obtain ⟨_, s₄, jumps, handlers⟩ := bind_eq_ok run
  obtain ⟨st, _, got, handled⟩ := bind_eq_ok (unlessFailed_eq_ok handlers fine)
  cases got
  obtain rfl := failForLeast_eq_ok handled fine
  obtain ⟨st, _, got, jumped⟩ := bind_eq_ok (unlessFailed_eq_ok jumps fine)
  cases got
  obtain rfl := failForLeast_eq_ok jumped fine
  obtain ⟨f, _, got, dispatched⟩ := bind_eq_ok (unlessFailed_eq_ok dispatched fine)
  cases got
  refine ⟨t, fun start => ?_, ?_⟩
  · obtain ⟨st, _, got, falls⟩ := bind_eq_ok (unlessFailed_eq_ok falls start)
    cases got
    split at falls
    · obtain ⟨-, rfl⟩ := Prod.mk.inj falls
      exact absurd start.1 (by simp)
    · rename_i unreachable
      cases falls
      exact ⟨Bool.eq_false_of_not_eq_true unreachable, rfl⟩
  · split at dispatched
    · rename_i generator
      replace dispatched := rest_of_ok dispatched rfl
      cases first : t.first with
      | some n =>
        simp only [first] at dispatched
        exact .inl ⟨generator, n, rfl, dispatched⟩
      | none =>
        simp only [first] at dispatched
        exact absurd fine.1 (failed_of_fail dispatched)
    · rename_i plain
      cases dispatched
      exact .inr ⟨Bool.eq_false_of_not_eq_true plain, rfl⟩

/-- Behind a complete function control does not get. -/
theorem known_complete (rests : s.Fine → Rests c Γ s) (dispatches : Dispatches c.function Γ)
    (run : complete c.function s = (.ok (), s')) (fine : s'.Fine) :
    Known c Γ ⟨none, s.stack.length, false⟩ s' := by
  obtain ⟨t, falls, ends⟩ := complete_cases run fine
  have stops (start : t.Fine) : Known c Γ ⟨none, s.stack.length, false⟩ t := by
    obtain ⟨unreachable, rfl⟩ := falls start
    exact ((rests start).quiet (.update s _ _ "Finish" _ _) rfl rfl).known unreachable
  rcases ends with ⟨generator, n, first, dispatched⟩ | ⟨-, rfl⟩
  · obtain ⟨l, dispatch, deep, inner⟩ := dispatches generator
    have emits : MovesFrom c Γ (emitDispatch n) t ⟨none, s.stack.length, false⟩
        ⟨none, s.stack.length, false⟩ fun _ => [] := by
      refine .note (φ := .expects n 1) (fun v inv _ _ => inv.first n first) ?_
      refine moves_emitDispatch (l := l) ?_ ?_ ?_ List.mem_cons_self _
      · exact List.mem_cons_of_mem _ dispatch
      · exact List.mem_cons_of_mem _ deep
      · exact List.mem_cons_of_mem _ inner
    exact emits () s' stops dispatched fine
  · exact stops fine

/-! ## Agreement -/

def Setting.of (f : Function) (r : Registry) (clear : Clear (references r)) (early : List Int) : Setting where
  function := f
  refs := references r
  clear := clear
  library _ mem := .inl mem
  early := early

theorem known_lowerBy (cataloged : Cataloged r) (clear : Clear (references r))
    (close : Action.CloseRegions actions) (run : lowerBy f r actions = .ok s) (fine : s.Fine) :
    ∃ Γ n, Known (.of f r clear []) (Action.notes actions Γ) ⟨none, n, false⟩ s := by
  obtain ⟨s₁, started, run⟩ := except_bind_eq_ok run
  obtain ⟨s₂, acted, completed⟩ := except_bind_eq_ok run
  have begins : ∃ Γ, Dispatches f Γ ∧
      (s₁.Fine → Rests (.of f r clear (Action.offsets actions)) Γ s₁) := by
    by_cases begun : s₁.Fine
    · obtain ⟨Γ, dispatches, rests⟩ := rests_start (c := .of f r clear (Action.offsets actions))
        (fun sig known => ⟨cataloged.sound known, .inr ⟨sig, known, rfl⟩⟩) started begun
      exact ⟨Γ, dispatches, fun _ => rests⟩
    · exact ⟨[.dispatch 0, .deep 0 0, .inner 0], fun _ => ⟨0, by simp⟩, fun start => absurd start begun⟩
  obtain ⟨Γ, dispatches, rests⟩ := begins
  have acts : s₂.Fine → Rests (.of f r clear []) (Action.notes actions Γ) s₂ := fun start =>
    rests_actions (c := .of f r clear (Action.offsets actions)) close rests (after_eq_ok acted) start
  refine ⟨Γ, _, known_complete acts (fun generator => ?_) (after_eq_ok completed) fine⟩
  obtain ⟨l, dispatch, deep, inner⟩ := dispatches generator
  exact ⟨l, Action.mem_notes dispatch, Action.mem_notes deep, Action.mem_notes inner⟩

/-- Lowering agrees with the verifier. -/
theorem analyze_lowerBy {f : Function} {r : Registry} {actions : List Action} {m : Method}
    (cataloged : Cataloged r) (clear : Clear (references r)) (close : Action.CloseRegions actions)
    (run : lowerBy f r actions = .ok s) (fine : s.failure = none) (build : s.method f = .ok m) :
    ∃ a, analyze m = .ok a ∧ ∀ o given, .visit o given ∈ actions →
      ∃ l p, s.labels[o]? = some l ∧ s.assembler.position? l = some p ∧
        ∀ d, (p, d) ∈ a.depths → d = if s.handlers.contains o then 1 else given.length := by
  have built := built_of_build build
  obtain ⟨Γ, n, v, inv, here, facts⟩ := known_lowerBy cataloged clear close run ⟨fine, built.fine⟩
  have dead : Dead v.depth v.items := here.ends
  have guards : s.assembler.Guards v.depth := fun h mem => by
    obtain ⟨deep, p, start, ordered | ⟨o, early, -⟩⟩ := inv.guards h mem
    · exact ⟨deep, p, start, ordered⟩
    · cases early
  have nonempty : 0 < m.code.size := by
    obtain ⟨op, part, n, e, before, suffix, place, -⟩ := exists_next dead List.nil_suffix settled_nil
    have lt := inv.held.coded.lt built (stands_iff.mpr ⟨before, suffix, rfl⟩)
    omega
  rcases examine_outcome nonempty with ⟨a, examined, safe, sound, -⟩ | ⟨-, unsafe_⟩
  · refine ⟨a, analyze_of_examine examined, fun o given visited => ?_⟩
    obtain ⟨-, l, label, placed, deep⟩ := facts _ (Action.visited_mem_notes visited)
    obtain ⟨p, place⟩ := Option.isSome_iff_exists.mp placed
    refine ⟨l, p, label, place, fun d reached => ?_⟩
    have reaches := (sound.reached p d (Analysis.mem_depths.mp reached)).2
    exact inv.held.coded.depth_of_reaches dead guards built place deep reaches
  · exact absurd (inv.held.coded.safe dead guards inv.within built) unsafe_

/-- The methods of the library and of the builtin types. -/
def builtinReferences : List MethodRef :=
  libraryReferences ++ builtinTypes.flatMap fun t => t.2.methods.map fun m => m.2.method

theorem mem_builtinReferences {m : MethodRef} (h : m ∈ references .builtin) :
    m ∈ builtinReferences := by
  obtain library | ⟨s, known, rfl⟩ := h
  · exact List.mem_append_left _ library
  · obtain ⟨t, memType, m, memMethod, rfl⟩ := exists_of_builtin known
    refine List.mem_append_right _ (List.mem_flatMap.mpr ⟨t, memType, ?_⟩)
    exact List.mem_map.mpr ⟨m, memMethod, rfl⟩

/-- The texts of the library's methods and of the builtin types' tell what they are. -/
theorem distinct_builtin : Distinct (references .builtin) := by
  let apart (m m' : MethodRef) : Prop :=
    (m.owner = m'.owner ∧ m.name = m'.name ∧ m.params.length = m'.params.length ∧
      m.returns = m'.returns) ∨ m.text ≠ m'.text
  have pairs : builtinReferences.Pairwise apart := by decide +kernel
  have : Std.Symm apart := ⟨fun m m' h => h.imp
    (fun same => ⟨same.1.symm, same.2.1.symm, same.2.2.1.symm, same.2.2.2.symm⟩) Ne.symm⟩
  have same_self : ∀ m ∈ builtinReferences, apart m m := fun m _ => .inl ⟨rfl, rfl, rfl, rfl⟩
  have all := List.Pairwise.forall_of_forall same_self pairs
  intro m hm m' hm' same
  obtain ⟨owner, name, params, returns⟩ := (all (mem_builtinReferences hm)
    (mem_builtinReferences hm')).resolve_right (not_not_intro same)
  exact ⟨owner, name, params, returns⟩

theorem clear_builtin : Clear (references .builtin) := distinct_builtin.clear

/-- The state and the method that come of a function, if one does. -/
def lowered? (f : Function) (r : Registry) (actions : List Action) : Option (State × Method) :=
  match lowerBy f r actions with
  | .error _ => none
  | .ok s => if s.failure.isSome then none else (s.method f).toOption.map fun m => (s, m)

theorem lowered?_eq_some {m : Method} (h : lowered? f r actions = some (s, m)) :
    lowerBy f r actions = .ok s ∧ s.failure = none ∧ s.method f = .ok m := by
  unfold lowered? at h
  cases run : lowerBy f r actions with
  | error d => simp [run] at h
  | ok s' =>
    simp only [run] at h
    split at h
    · cases h
    · rename_i fine
      cases build : s'.method f with
      | error e => simp [build, Except.toOption] at h
      | ok m' =>
        simp only [build, Except.toOption, Option.map_some, Option.some.injEq, Prod.mk.injEq] at h
        obtain ⟨rfl, rfl⟩ := h
        exact ⟨rfl, by simpa using fine, build⟩

/-- A function of an integer. -/
def doubling : Function where
  dialect := some .bare
  direct := true
  argCount := 1
  locals := #[some intType]

/-- Add the integer to itself in a region, again and again while the sum counts as true. -/
def doublingLoop : List Action :=
  [.visit 0 [], .perform (.openRegion ⟨6, 7, 0, false⟩), .visit 1 [], .perform (.loadLocal 0),
    .perform (.loadLocal 0), .perform (.binary 0), .perform (.popJumpIf true 1), .visit 6 [],
    .perform (.loadConst .none), .perform .returnValue, .visit 7 [.dynamic], .perform .returnValue]

/-- The sum is a call of the method of its class, and the region has an entry. -/
theorem analyze_lowerBy_doublingLoop :
    Cataloged .builtin ∧ Clear (references .builtin) ∧ Action.CloseRegions doublingLoop ∧
      ∃ s m a, lowerBy doubling .builtin doublingLoop = .ok s ∧ s.failure = none ∧
        s.method doubling = .ok m ∧ m.handlers = [⟨8, 37, 41, Library.baseExceptionClass⟩] ∧
        (m.methodAt 1).toOption = some
          ⟨Library.intClass, "__add__", [Library.intClass], Library.intClass, false⟩ ∧
        analyze m = .ok a ∧ ∀ o given, .visit o given ∈ doublingLoop →
          ∃ l p, s.labels[o]? = some l ∧ s.assembler.position? l = some p ∧
            ∀ d, (p, d) ∈ a.depths → d = if s.handlers.contains o then 1 else given.length := by
  have some_ : ((lowered? doubling .builtin doublingLoop).any fun (_, m) =>
      decide (m.handlers = [⟨8, 37, 41, Library.baseExceptionClass⟩]) &&
        decide ((m.methodAt 1).toOption = some
          ⟨Library.intClass, "__add__", [Library.intClass], Library.intClass, false⟩)) = true := by
    decide +kernel
  obtain ⟨⟨s, m⟩, lowered, shape⟩ := (Option.any_eq_true _ _).mp some_
  simp only [Bool.and_eq_true, decide_eq_true_eq] at shape
  obtain ⟨run, fine, build⟩ := lowered?_eq_some lowered
  have close : Action.CloseRegions doublingLoop := ⟨by decide, trivial⟩
  obtain ⟨a, accepted, depths⟩ := analyze_lowerBy .builtin clear_builtin close run fine build
  exact ⟨.builtin, clear_builtin, close, s, m, a, run, fine, build, shape.1, shape.2, accepted, depths⟩

/-! ## Methods with one text

The text of a method separates the classes of its parameters by commas, so the methods of the types
below have the same text: `u/H.m(p,q)pyrt/Object`. Only the first of them that a function invokes gets
into the pool, and both are invoked as that one. -/

/-- A type of a host class, registered unless its name is taken. -/
def declareType (r : Registry) (name host : String) : Registry := (r.register? { name, host }).getD r

theorem cataloged_declareType (h : Cataloged r) (name host : String) :
    Cataloged (declareType r name host) := by
  unfold declareType
  cases taken : r.register? { name, host } with
  | none => exact h
  | some r' => exact h.register taken

/-- A method that takes an object of each type and gives an object. -/
def declareMethod (r : Registry) (owner name : String) (types : List String) : Registry :=
  (r.addMethod owner {
    name
    params := types.map fun t => { name := t, type := some (.named t) }
    returns := some objectType }).toOption.getD r

theorem cataloged_declareMethod (h : Cataloged r) (owner name : String) (types : List String)
    (value : r.hostClass objectType ∉ ["", "void"]) :
    Cataloged (declareMethod r owner name types) := by
  unfold declareMethod
  cases added : r.addMethod owner _ with
  | error d => exact h
  | ok r' =>
    refine Cataloged.addMethod h ?_ ?_ added
    · rfl
    · exact value

/-- Two types of one host class, with a method of two parameters and one of one. -/
def twins : Registry :=
  let r := declareType (declareType (declareType .builtin "P" "p") "Q" "q") "PQ" "p,q"
  let r := declareMethod (declareType r "B" "u/H") "B" "m" ["P", "Q"]
  declareMethod (declareType r "A" "u/H") "A" "m" ["PQ"]

/-- A function of objects of these types. -/
def twinCaller : Function where
  direct := true
  argCount := 5
  locals := #[some (.named "A"), some (.named "PQ"), some (.named "B"), some (.named "P"),
    some (.named "Q")]

/-- Call one method and then the other. -/
def callingTwins : List Action :=
  [.visit 0 [], .perform (.loadLocal 2), .perform (.loadLocal 3), .perform (.loadLocal 4),
    .perform (.callMethod "m" 2 []), .perform .pop, .perform (.loadLocal 0), .perform (.loadLocal 1),
    .perform (.callMethod "m" 1 []), .perform .returnValue]

theorem callingTwins_rejected :
    Cataloged twins ∧ Action.CloseRegions callingTwins ∧
      ∃ s m e, lowerBy twinCaller twins callingTwins = .ok s ∧ s.failure = none ∧
        s.method twinCaller = .ok m ∧ analyze m = .error e := by
  have cataloged : Cataloged twins := by
    refine cataloged_declareMethod (cataloged_declareType (cataloged_declareMethod
      (cataloged_declareType (cataloged_declareType (cataloged_declareType (cataloged_declareType
        .builtin "P" "p") "Q" "q") "PQ" "p,q") "B" "u/H") "B" "m" ["P", "Q"] ?_) "A" "u/H")
          "A" "m" ["PQ"] ?_
    · decide +kernel
    · decide +kernel
  have rejected : ((lowered? twinCaller twins callingTwins).any fun (_, m) =>
      match analyze m with
      | .ok _ => false
      | .error _ => true) = true := by
    decide +kernel
  cases lowered : lowered? twinCaller twins callingTwins with
  | none => simp [lowered] at rejected
  | some result =>
      obtain ⟨s, m⟩ := result
      obtain ⟨run, fine, build⟩ := lowered?_eq_some lowered
      cases verdict : analyze m with
      | ok a => simp [lowered, verdict] at rejected
      | error e => exact ⟨cataloged, by trivial, s, m, e, run, fine, build, verdict⟩

end HostLowering.Lower
