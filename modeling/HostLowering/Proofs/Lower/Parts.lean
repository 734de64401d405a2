import HostLowering.Proofs.Lower.Actions
import HostLowering.Proofs.Machine.Table

set_option autoImplicit false

/-! # The parts of a method

The code of a method begins with the slots of exceptions cleared, goes on with what each action adds,
and ends with the dispatcher if it is that of a generator. Here such a method is cut at one of the
actions it comes from (`Cut`): what stands in front of it, what it adds itself, and what stands behind
it. Labels that an operation marks are its own, so no entry of the exception table that belongs to
another action begins, ends or leads into the middle of its code (`Cut.outside`).
-/

namespace HostLowering.Lower

open Machine Catalog

variable {c : Source} {r : Registry} {s s' : State} {u : Unit} {f : Function}

/-! ## The beginning -/

/-- The lines at the beginning of a method. -/
def startLines (f : Function) (dispatch : Label) : List Line :=
  [.plain .aconstNull, .store .ref f.exceptionSlot.toNat, .plain .aconstNull,
    .store .ref f.previousSlot.toNat] ++ if f.generator then [.branch .goto dispatch] else []

theorem mem_loud_start {f : Function} {dispatch : Label} {line : Line}
    (mem : line ∈ loud (startLines f dispatch)) : line = .store .ref f.exceptionSlot.toNat ∨
      line = .store .ref f.previousSlot.toNat ∨ f.generator ∧ line = .branch .goto dispatch := by
  rw [startLines, loud_append] at mem
  split at mem <;> simpa [loud, silent, *] using mem

instance (i : Int) : Writes c r (Lowering.clearSlot i) [.plain .aconstNull, .store .ref i.toNat] := by
  unfold Lowering.clearSlot
  infer_instance

theorem enter_eq_ok (run : Lowering.enter c.function s = (.ok u, s')) :
    ∃ a, (∃ fresh, Wrote c.refs (if c.function.generator then [.branch .goto s'.dispatch] else [])
        fresh [] s.assembler a) ∧ (c.function.generator = true → s'.dispatch < a.labels.size) ∧
      ∃ dispatch reachable, s' = { s with assembler := a, dispatch, reachable } := by
  replace run := rest_of_ok run rfl
  split at run
  · rename_i generator
    obtain ⟨l, s₁, first, e₁, run⟩ := newLabel_first run
    obtain ⟨_, s₂, changed, run⟩ := bind_eq_ok run
    obtain ⟨-, rfl⟩ := Prod.mk.inj changed
    have e₂ := Emitted.of (c := c) run
    obtain ⟨a₁, rfl, wrote₁⟩ := e₁
    obtain ⟨a₂, rfl, wrote₂⟩ := e₂
    refine ⟨a₂, ⟨1, ?_⟩, fun _ => ?_, l, s.reachable, rfl⟩
    · rw [if_pos generator]
      exact wrote₁.trans wrote₂
    · show l < _
      rw [first, (wrote₁.trans wrote₂).labels]
      exact Nat.lt_succ_self _
  · rename_i plain
    obtain ⟨-, rfl⟩ := Prod.mk.inj run
    refine ⟨s.assembler, ⟨0, ?_⟩, fun generator => absurd generator plain, s.dispatch, true, rfl⟩
    rw [if_neg plain]
    exact .refl _

/-- A function begins in order. -/
theorem start_eq_ok (known : ∀ sig, r.Knows sig → sig.method ∈ c.refs)
    (run : State.start c.function r = .ok s) (fine : s.Fine) :
    Tidy c s ∧ Spelled c.refs (startLines c.function s.dispatch) s.assembler ∧
      s.assembler.handlers.toList = [] ∧ s.nextState = 1 ∧
        (c.function.generator = true → s.dispatch < s.assembler.labels.size) ∧
          ∀ o : Int, s.labels[o]? = none := by
  obtain ⟨_, s₁, checked, run⟩ := bind_eq_ok (after_eq_ok run)
  obtain ⟨current, s₂, first, run⟩ := bind_eq_ok run
  obtain ⟨rfl, rfl⟩ := reserve_eq_ok first
  obtain ⟨previous, s₃, second, run⟩ := bind_eq_ok run
  obtain ⟨rfl, rfl⟩ := reserve_eq_ok second
  obtain ⟨s₄, cleared, run⟩ := Begins.rest (c := c) run
  obtain ⟨a, ⟨fresh, enters⟩, dispatched, dispatch, reachable, rfl⟩ := enter_eq_ok run
  obtain ⟨a', rfl, clears⟩ := cleared
  have wrote := clears.trans enters
  rcases checkArguments_eq_ok checked with ⟨rfl, -⟩ | refused
  · refine ⟨?_, wrote.spelled fine.2 [] spelled_empty, wrote.handlers, rfl, dispatched, by simp⟩
    exact {
      sources := fun o l found => by simp at found
      registry := known
      base := by
        simp only [SlotPool.new]
        omega
      maxLocals := by
        simp only [SlotPool.new]
        omega
      persistent := by
        show [c.function.slotBase, c.function.slotBase + 1] =
          slotsFrom c.function.slotBase (c.function.slotBase + 1 + 1 - c.function.slotBase).toNat
        rw [show (c.function.slotBase + 1 + 1 - c.function.slotBase).toNat = 2 by omega]
        simp [slotsFrom, List.range_succ]
      kept := fun o h found => by simp at found
      apart := fun o o' h h' found => by simp at found
      states := by simp
      numbered := by simp
      nextState := by simp
      frames := by simp }
  · exact absurd ⟨fine.1, wrote.error fine.2⟩ refused

/-! ## The end -/

/-- The lines at the end of a method: the dispatcher of a generator, and nothing otherwise. -/
def Ending (f : Function) (s : State) (lines : List Line) : Prop :=
  if f.generator then ∃ begin next nexts, nexts.length = s.resumes.size ∧
    (∀ l ∈ next :: nexts, s.assembler.labels.size ≤ l) ∧
      lines = dispatchLines f s.registry s.dispatch begin next s.resumes.toList nexts
  else lines = []

theorem complete_eq_ok (run : Lowering.complete c.function s = (.ok (), s')) (fine : s'.Fine) :
    s.Fine ∧ s'.pool = s.pool ∧ ∃ lines fresh,
      Ending c.function s lines ∧ Wrote c.refs lines fresh [] s.assembler s'.assembler := by
  obtain ⟨t, same, ⟨generator, n, -, dispatched⟩ | ⟨plain, rfl⟩⟩ := complete_cases run fine
  · obtain ⟨begin, next, nexts, fresh, count, newer, wrote, pool, failure⟩ :=
      wrote_emitDispatch (c := c) dispatched
    have start : t.Fine := ⟨failure ▸ fine.1, wrote.error fine.2⟩
    obtain ⟨-, rfl⟩ := same start
    refine ⟨start, pool, _, fresh, ?_, wrote⟩
    rw [Ending, if_pos generator]
    exact ⟨begin, next, nexts, count, newer, rfl⟩
  · obtain ⟨-, rfl⟩ := same fine
    exact ⟨fine, rfl, [], 0, by rw [Ending, if_neg (by simp [plain])], .refl _⟩

def stateBy (f : Function) (r : Registry) (actions : List Action) : Except Defect State := do
  let s ← State.start f r
  s.after f (actions.forM Action.run)

def methodBy (f : Function) (r : Registry) (actions : List Action) :
    Except Defect (Except FinishError Method) := do
  let s ← stateBy f r actions
  s.finish f

def method? (f : Function) (r : Registry) (actions : List Action) : Option Method :=
  match methodBy f r actions with
  | .ok (.ok m) => some m
  | _ => none

theorem methodBy_of_method? {f : Function} {actions : List Action} {m : Method}
    (h : method? f r actions = some m) : methodBy f r actions = .ok (.ok m) := by
  unfold method? at h
  split at h
  · rename_i found
    cases h
    exact found
  · cases h

/-- A method is built from the assembler of a complete function. The verifier at most states the
greatest depth. -/
theorem finish_eq_ok {m : Method} (h : s.finish f = .ok (.ok m)) :
    ∃ s', Lowering.complete f s = (.ok (), s') ∧ s'.Fine ∧
      Built s'.assembler s'.pool.maxLocals m ∧ Tabled s'.assembler m := by
  obtain ⟨s', completed, h⟩ := except_bind_eq_ok h
  refine ⟨s', after_eq_ok completed, ?_⟩
  have h := Except.ok.inj h
  cases failure : s'.failure with
  | some e =>
    simp only [failure] at h
    cases h
  | none =>
    simp only [failure] at h
    obtain ⟨m', built, h⟩ := except_bind_eq_ok h
    have build : s'.method f = .ok m' := by
      unfold State.method
      cases eq : s'.assembler.build f.owner f.name (f.params s'.registry) s'.pool.maxLocals with
      | error e => simp [eq, Except.mapError] at built
      | ok m₀ =>
        simp only [eq, Except.mapError, Except.ok.injEq] at built
        rw [built]
    have built := built_of_build build
    have tabled := tabled_of_build build
    refine ⟨⟨failure, built.fine⟩, ?_⟩
    split at h
    · cases verified : verify m' with
      | error e => simp [verified, Except.mapError] at h
      | ok m₀ =>
        simp only [verified, Except.mapError, Except.ok.injEq] at h
        obtain ⟨analysis, -, last⟩ := except_bind_eq_ok verified
        cases last
        subst h
        exact ⟨{ built with }, tabled⟩
    · cases h
      exact ⟨built, tabled⟩

/-! ## Cutting -/

theorem forM_append_eq_ok {before after : List Action}
    (run : (before ++ after).forM Action.run f s = (.ok u, s')) :
    ∃ s₁, before.forM Action.run f s = (.ok (), s₁) ∧ after.forM Action.run f s₁ = (.ok u, s') := by
  rw [List.forM_eq_forM, List.forM_append] at run
  obtain ⟨_, s₁, first, later⟩ := bind_eq_ok run
  exact ⟨s₁, first, later⟩

theorem stateBy_of_eq_ok {actions : List Action} (start : State.start f r = .ok s)
    (run : actions.forM Action.run f s = (.ok (), s')) : stateBy f r actions = .ok s' := by
  show (State.start f r >>= _) = _
  rw [start]
  show s.after f _ = _
  unfold State.after
  rw [run]

/-- Code writes no local in front of the source locals. -/
theorem State.Touches.localBase_le {base : Int} {targets : List Int} {i : Int} (tidy : Tidy c s)
    (low : c.function.slotBase + 2 ≤ base) (h : s.Touches c.function base targets i) :
    c.function.localBase ≤ i := by
  have le := c.function.localBase_le
  rcases h with temporary | fixed | ⟨o, -, e, found, mem⟩
  · omega
  · exact fixed.1
  · obtain ⟨b, slots, first, -⟩ := tidy.kept o e found
    rw [slots, mem_slotsFrom] at mem
    omega

/-- A method that comes of actions, cut at one of them, which leads from the state `s₁` to `s₂`. The
later ones lead on to `s₃`, and the function ends in the state `s`. -/
structure Cut (c : Source) (m : Method) (a : Action) (after : List Action) (s₁ s₂ s₃ s : State)
    (front back ending : List Line) (newer : List PendingHandler) : Prop where
  run : a.run c.function s₁ = (.ok (), s₂)
  fine : s₂.Fine
  tidy₁ : Tidy c s₁
  tidy₂ : Tidy c s₂
  tidy₃ : Tidy c s₃
  held : Spelled c.refs front s₁.assembler
  begins : startLines c.function s₁.dispatch <+: front
  early : ∀ line ∈ front, ∀ i : Nat, line.written? = some i → c.function.localBase ≤ i
  older : ∀ g ∈ s₁.assembler.handlers.toList, ∀ l ∈ guardLabels g, l < s₁.assembler.labels.size
  states : s₁.nextState ≤ 1 + codeSize front
  later : Advanced c (Action.targets after) back newer s₂ s₃
  ends : Ending c.function s₃ ending
  wrote : ∃ fresh, Wrote c.refs ending fresh [] s₃.assembler s.assembler
  completed : Lowering.complete c.function s₃ = (.ok (), s)
  pool : s.pool = s₃.pool
  complete : s.Fine
  built : Built s.assembler s.pool.maxLocals m
  tabled : Tabled s.assembler m

theorem exists_cut {before after : List Action} {a : Action} {m : Method}
    (known : ∀ sig, r.Knows sig → sig.method ∈ c.refs)
    (h : methodBy c.function r (before ++ a :: after) = .ok (.ok m)) :
    ∃ s₁ s₂ s₃ s front back ending newer, stateBy c.function r before = .ok s₁ ∧
      stateBy c.function r (before ++ [a]) = .ok s₂ ∧
        stateBy c.function r (before ++ a :: after) = .ok s₃ ∧
          Cut c m a after s₁ s₂ s₃ s front back ending newer := by
  obtain ⟨s₃, all, finished⟩ := except_bind_eq_ok h
  obtain ⟨s₀, started, acted⟩ := except_bind_eq_ok all
  obtain ⟨s, completed, fine, built, tabled⟩ := finish_eq_ok finished
  obtain ⟨fine₃, pool, ending, fresh, ends, wrote⟩ := complete_eq_ok completed fine
  obtain ⟨s₁, first, rest⟩ := forM_append_eq_ok (after_eq_ok acted)
  obtain ⟨_, s₂, run, last⟩ := bind_eq_ok (x := a.run) rest
  have fine₂ := Action.fine_of_forM last fine₃
  have fine₁ := Action.fine_of_run run fine₂
  obtain ⟨tidy₀, spelled, none, state, -⟩ :=
    start_eq_ok known started (Action.fine_of_forM first fine₁)
  obtain ⟨tidy₁, lines, guards, before_, -⟩ := advanced_actions tidy₀ first fine₁
  obtain ⟨tidy₂, -⟩ := advanced_run tidy₁ run fine₂
  obtain ⟨tidy₃, back, newer, later, -⟩ := advanced_actions tidy₂ last fine₃
  obtain ⟨fresh₁, wrote₁⟩ := before_.wrote
  have through : (before ++ [a]).forM Action.run c.function s₀ = (.ok (), s₂) := by
    rw [List.forM_eq_forM, List.forM_append]
    exact (bind_of_eq_ok first).trans (bind_of_eq_ok run)
  refine ⟨s₁, s₂, s₃, s, _, back, ending, newer, stateBy_of_eq_ok started first,
    stateBy_of_eq_ok started through, all, run, fine₂, tidy₁, tidy₂, tidy₃,
    wrote₁.spelled fine₁.2 _ spelled, ?_, fun line mem i writes => ?_, fun g mem l hl => ?_, ?_, later,
    ends, ⟨fresh, wrote⟩, completed, pool, fine, built, tabled⟩
  · rw [before_.dispatch]
    exact List.prefix_append _ _
  · rcases List.mem_append.mp mem with own | old
    · have le := c.function.localBase_le
      have nonneg := c.function.nonneg_localBase
      rcases mem_loud_start (written_mem_loud own writes) with rfl | rfl | ⟨-, rfl⟩ <;> cases writes
      · unfold Function.exceptionSlot
        omega
      · unfold Function.previousSlot
        omega
    · exact (before_.written line old i writes).localBase_le tidy₁ tidy₀.base
  · rw [wrote₁.handlers, none] at mem
    rcases before_.guarded g mem l hl with ⟨-, made⟩ | ⟨o, source⟩
    · exact made
    · exact tidy₁.sources o l source
  · have more := before_.nextState
    rw [state] at more
    rw [codeSize_append]
    push_cast
    omega

namespace Cut

variable {m : Method} {a : Action} {after : List Action} {s₁ s₂ s₃ : State}
  {front back ending lines : List Line} {newer guards : List PendingHandler} {fresh : Nat}
  (cut : Cut c m a after s₁ s₂ s₃ s front back ending newer)
  (wrote : Wrote c.refs lines fresh guards s₁.assembler s₂.assembler)

include cut

/-- No label of an entry that belongs to another action stands in the lines of an operation. -/
theorem notMem (inner : Private lines s₁ s₂) {g : PendingHandler}
    (mem : g ∈ s₁.assembler.handlers.toList ++ newer) {l : Label} (hl : l ∈ guardLabels g) :
    .mark l ∉ lines := by
  intro here
  obtain ⟨new, own⟩ := inner l here
  rcases List.mem_append.mp mem with old | later
  · exact absurd (cut.older g old l hl) (Nat.not_lt.mpr new)
  · rcases cut.later.guarded g later l hl with ⟨made, -⟩ | ⟨o, source⟩
    · exact absurd own.1 (Nat.not_lt.mpr made)
    · exact (own.mono cut.later.labelled cut.later.labels).2 o source

include wrote

theorem spelled : Spelled c.refs (front ++ (lines ++ (back ++ ending))) s.assembler := by
  obtain ⟨fresh₃, wrote₃⟩ := cut.later.wrote
  obtain ⟨fresh₄, wrote₄⟩ := cut.wrote
  exact (wrote.trans (wrote₃.trans wrote₄)).spelled cut.complete.2 front cut.held

/-- All entries of the exception table. -/
theorem handlers : s.assembler.handlers.toList =
    s₁.assembler.handlers.toList ++ (guards ++ newer) := by
  obtain ⟨fresh₃, wrote₃⟩ := cut.later.wrote
  obtain ⟨fresh₄, wrote₄⟩ := cut.wrote
  rw [(wrote.trans (wrote₃.trans wrote₄)).handlers, List.append_nil]

theorem reads : ReadsFrom m s.assembler.pool s.assembler.position? 0
    (front ++ (lines ++ (back ++ ending))) :=
  (cut.spelled wrote).reads cut.built

/-- An entry that belongs to another action begins, ends and leads outside the lines of an
operation. -/
theorem outside (inner : Private lines s₁ s₂) {g : PendingHandler}
    (mem : g ∈ s₁.assembler.handlers.toList ++ newer) {l : Label} (hl : l ∈ guardLabels g) {p : Nat}
    (place : s.assembler.position? l = some p) :
    p ≤ codeSize front ∨ codeSize front + codeSize lines ≤ p :=
  (cut.spelled wrote).outside (cut.notMem inner mem hl) place

end Cut

end HostLowering.Lower
