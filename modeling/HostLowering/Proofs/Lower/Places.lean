import HostLowering.Proofs.Lower.Activation
import HostLowering.Proofs.Lower.Balance.Session

set_option autoImplicit false

/-! # Where actions stand in a method

The code of a method comes of the actions of a session, one behind the other (`Session.cut`). Every
label in it is marked by an operation that has made it, or it is the label of a source offset and marked
where the offset is visited. So a source offset has its place in the code exactly where it is visited
(`Session.position_visit`, `Session.placed_of_position`).
-/

namespace HostLowering.Lower

open Machine Object Catalog

variable {c : Source} {f : Function} {r : Registry} {actions : List Action} {m : Method}
  {s s' s₁ s₂ s₃ : State} {u : Unit} {a : Action} {g : PendingHandler} {l : Label} {o : Int}
  {before : List Action}

/-! ## Sessions -/

/-- An action of a session leads from one state to another. -/
def Action.Leads (f : Function) (r : Registry) (actions : List Action) (a : Action) (s s' : State) :
    Prop :=
  ∃ before after, actions = before ++ a :: after ∧ stateBy f r before = .ok s ∧
    stateBy f r (before ++ [a]) = .ok s'

/-- A method comes of the actions of a session. They lead to the state `s`, and the function is complete
in the state `s'`. -/
structure Session (c : Source) (r : Registry) (actions : List Action) (m : Method) (s s' : State) :
    Prop where
  known : ∀ sig, r.Knows sig → sig.method ∈ c.refs
  lowered : methodBy c.function r actions = .ok (.ok m)
  reached : stateBy c.function r actions = .ok s
  completed : Lowering.complete c.function s = (.ok (), s')

theorem exists_session (known : ∀ sig, r.Knows sig → sig.method ∈ c.refs)
    (lowered : methodBy c.function r actions = .ok (.ok m)) : ∃ s s', Session c r actions m s s' := by
  obtain ⟨s, reached, finished⟩ := except_bind_eq_ok lowered
  obtain ⟨s', completed, -⟩ := finish_eq_ok finished
  exact ⟨s, s', known, lowered, reached, completed⟩

namespace Session

variable (session : Session c r actions m s₃ s)

include session

theorem cut (leads : a.Leads c.function r actions s₁ s₂) : ∃ after front back ending newer,
    Cut c m a after s₁ s₂ s₃ s front back ending newer := by
  obtain ⟨before, after, rfl, reached, passed⟩ := leads
  obtain ⟨t₁, t₂, t₃, t, front, back, ending, newer, e₁, e₂, e₃, cut⟩ :=
    exists_cut session.known session.lowered
  obtain rfl := Except.ok.inj (reached.symm.trans e₁)
  obtain rfl := Except.ok.inj (passed.symm.trans e₂)
  obtain rfl := Except.ok.inj (session.reached.symm.trans e₃)
  obtain rfl := (Prod.mk.inj (session.completed.symm.trans cut.completed)).2
  exact ⟨after, front, back, ending, newer, cut⟩

end Session

/-! ## Labels of source offsets -/

theorem mark_mem_dispatch {dispatch begin next : Label} {ps : List ResumePoint} {nexts : List Label}
    (mem : .mark l ∈ dispatchLines f r dispatch begin next ps nexts) :
    l = dispatch ∨ l ∈ next :: nexts := by
  simp only [dispatchLines, readLines, List.mem_cons, List.mem_append, List.not_mem_nil, or_false,
    reduceCtorEq, false_or, Line.mark.injEq] at mem
  rcases mem with same | same | mem
  · exact .inl same
  · exact .inr (same ▸ List.mem_cons_self)
  · exact .inr (List.mem_cons_of_mem next (mark_mem_entries mem))

/-! ## Places in the code -/

def codeAfter (f : Function) (r : Registry) (actions : List Action) : Nat :=
  match stateBy f r actions with
  | .ok s => s.assembler.bytes.size
  | .error _ => 0

theorem codeAfter_eq (reached : stateBy f r actions = .ok s) :
    codeAfter f r actions = s.assembler.bytes.size := by
  rw [codeAfter, reached]

/-- A source offset has its place in the code where it is visited. -/
def Placed (f : Function) (r : Registry) (actions : List Action) (o : Int) (p : Nat) : Prop :=
  ∃ before given after, actions = before ++ .visit o given :: after ∧ codeAfter f r before = p

/-- What the first actions of a session lead to is in order. -/
theorem spelled_of_stateBy (known : ∀ sig, r.Knows sig → sig.method ∈ c.refs)
    (reached : stateBy c.function r actions = .ok s) (fine : s.Fine) :
    Tidy c s ∧ ∃ lines, Spelled c.refs (startLines c.function s.dispatch ++ lines) s.assembler ∧
      (c.function.generator = true → s.Inner s.dispatch) ∧
        (∀ (o o' : Int) (l : Label), s.labels[o]? = some l → s.labels[o']? = some l → o = o') ∧
          ∀ l, .mark l ∈ lines →
            s.Inner l ∨ ∃ o given, .visit o given ∈ actions ∧ s.labels[o]? = some l := by
  obtain ⟨s₀, started, acted⟩ := except_bind_eq_ok reached
  have run := after_eq_ok acted
  obtain ⟨tidy₀, spelled, -, -, dispatched, blank⟩ :=
    start_eq_ok known started (Action.fine_of_forM run fine)
  obtain ⟨tidy, lines, guards, advanced, marks⟩ := advanced_actions tidy₀ run fine
  obtain ⟨fresh, wrote⟩ := advanced.wrote
  refine ⟨tidy, lines, ?_, fun generator => ?_, fun o o' l label label' => ?_, marks⟩
  · rw [advanced.dispatch]
    exact wrote.spelled fine.2 _ spelled
  · rw [advanced.dispatch]
    refine State.Inner.mono ⟨dispatched generator, fun o found => ?_⟩ advanced.labelled advanced.labels
    rw [blank o] at found
    cases found
  · rcases advanced.labelled.apart tidy₀.sources o o' l label label' with same | ⟨old, -⟩
    · exact same
    · rw [blank o] at old
      cases old

namespace Session

variable (session : Session c r actions m s₃ s)

include session

theorem finished : s₃.Fine ∧ s.Fine ∧ Tabled s.assembler m := by
  obtain ⟨s', reached, finished⟩ := except_bind_eq_ok session.lowered
  cases session.reached.symm.trans reached
  obtain ⟨s', completed, fine, -, tabled⟩ := finish_eq_ok finished
  cases session.completed.symm.trans completed
  exact ⟨(complete_eq_ok completed fine).1, fine, tabled⟩

/-- Every part of a session leads to a state. -/
theorem exists_state {after : List Action} (split : actions = before ++ after) :
    ∃ t, stateBy c.function r before = .ok t ∧ t.Fine := by
  have all := session.reached
  rw [split] at all
  obtain ⟨s₀, started, acted⟩ := except_bind_eq_ok all
  obtain ⟨t, first, -⟩ := forM_append_eq_ok (after_eq_ok acted)
  have reached := stateBy_of_eq_ok started first
  exact ⟨t, reached, Action.fine_of_forM (forM_of_stateBy reached all) session.finished.1⟩

theorem codeAfter_mono {before' : List Action} (first : before <+: before')
    (all : before' <+: actions) :
    codeAfter c.function r before ≤ codeAfter c.function r before' := by
  obtain ⟨more, rfl⟩ := first
  obtain ⟨after, split⟩ := all
  obtain ⟨t', reached', fine'⟩ := session.exists_state split.symm
  rw [List.append_assoc] at split
  obtain ⟨t, reached, fine⟩ := session.exists_state split.symm
  obtain ⟨tidy, lines, spelled, -⟩ := spelled_of_stateBy session.known reached fine
  obtain ⟨-, lines', guards, advanced, -⟩ :=
    advanced_actions tidy (forM_of_stateBy reached reached') fine'
  obtain ⟨fresh, wrote⟩ := advanced.wrote
  rw [codeAfter_eq reached, codeAfter_eq reached', spelled.size, (wrote.spelled fine'.2 _ spelled).size,
    codeSize_append (_ ++ lines)]
  omega

/-- The label of an offset that is visited has its place there. -/
theorem position_visit {after : List Action} {given : Snapshot}
    (split : actions = before ++ .visit o given :: after) : ∃ l, s₃.labels[o]? = some l ∧
      s.assembler.position? l = some (codeAfter c.function r before) := by
  obtain ⟨s₁, reached, -⟩ := session.exists_state split
  have behind : actions = (before ++ [.visit o given]) ++ after := by rw [split]; simp
  obtain ⟨s₂, passed, -⟩ := session.exists_state behind
  obtain ⟨after', front, back, ending, newer, cut⟩ := session.cut ⟨before, after, split, reached, passed⟩
  obtain ⟨l, fresh, label, wrote⟩ := (atOffset_eq_ok cut.run cut.fine.1).code
  refine ⟨l, cut.later.labelled.sources o l label, ?_⟩
  rw [codeAfter_eq reached, cut.held.size, (cut.spelled wrote).position?_iff]
  exact ⟨front, _, by rw [List.cons_append], rfl⟩

/-- The label of a source offset has a place only if the offset is visited. -/
theorem placed_of_position {p : Nat} (label : s₃.labels[o]? = some l)
    (place : s.assembler.position? l = some p) : Placed c.function r actions o p := by
  obtain ⟨fine, complete, -⟩ := session.finished
  obtain ⟨tidy, lines, spelled, inner, apart, marks⟩ :=
    spelled_of_stateBy session.known session.reached fine
  obtain ⟨-, -, ending, fresh, ends, wrote⟩ := complete_eq_ok session.completed complete
  obtain ⟨xs, ys, split, -⟩ := (wrote.spelled complete.2 _ spelled).position?_iff.mp place
  have mem : .mark l ∈ (startLines c.function s₃.dispatch ++ lines) ++ ending := by
    rw [split]
    simp
  rcases List.mem_append.mp mem with mem | mem
  · rcases List.mem_append.mp mem with mem | mem
    · unfold startLines at mem
      split at mem <;> simp at mem
    · -- the offset whose label this is was visited
      rcases marks l mem with inner | ⟨o', given, visited, label'⟩
      · exact absurd label (inner.2 o)
      · cases apart o o' l label label'
        obtain ⟨before, after, split⟩ := List.append_of_mem visited
        obtain ⟨l', same, position⟩ := session.position_visit split
        cases label.symm.trans same
        exact ⟨before, given, after, split, Option.some.inj (position.symm.trans place)⟩
  · unfold Ending at ends
    split at ends
    · rename_i generator
      obtain ⟨begin, next, nexts, -, newer, rfl⟩ := ends
      rcases mark_mem_dispatch mem with rfl | new
      · exact absurd label ((inner generator).2 o)
      · exact absurd (tidy.sources o l label) (Nat.not_lt.mpr (newer l new))
    · rw [ends] at mem
      cases mem

/-- A source offset has one place. -/
theorem placed_unique {p p' : Nat} (h : Placed c.function r actions o p)
    (h' : Placed c.function r actions o p') : p = p' := by
  obtain ⟨before, given, after, split, rfl⟩ := h
  obtain ⟨before', given', after', split', rfl⟩ := h'
  obtain ⟨l, label, place⟩ := session.position_visit split
  obtain ⟨l', label', place'⟩ := session.position_visit split'
  cases label.symm.trans label'
  exact Option.some.inj (place.symm.trans place')

/-- Every entry of the exception table has its place. -/
theorem resolve (mem : g ∈ s.assembler.handlers.toList) : ∃ h, s.assembler.resolve g = .ok h := by
  obtain ⟨-, -, hs, resolved, -⟩ := session.finished
  obtain ⟨h, -, same⟩ := mem_mapM_ok resolved g mem
  exact ⟨h, same⟩

end Session

end HostLowering.Lower
