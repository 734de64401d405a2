import HostLowering.Proofs.Lower.Confined
import HostLowering.Proofs.Lower.Handlers
import HostLowering.Proofs.Lower.Session
import HostLowering.Proofs.Lower.Suspension

set_option autoImplicit false

/-! # What an action adds

Everything that one action of a session adds to what was lowered before: the lines it writes, the
entries it puts into the exception table, the locals its code may write, and what it leaves alone
(`advanced_run`). All that is proved about whole sessions follows from this one account and the order
in which persistent slots, handlers and resumption points are kept (`Tidy`).
-/

namespace HostLowering.Lower

open Machine Catalog Lowering

variable {c : Source} {s s' s'' : State} {u : Unit} {o : Int} {given : Snapshot} {f : Function}
  {lines : List Line} {guards : List PendingHandler} {p : ResumePoint} {line : Line}

/-! ## Visits -/

/-- The lines that hand the values of a dialect to a handler. -/
def dialectLines (f : Function) (h : HandlerEntry) : List Line :=
  match f.dialect with
  | some .tuple =>
    [.onField .getstatic Library.noneField, .word (.ofInt h.kept.length),
      .invoke .invokestatic Library.intValueOf, .onField .getstatic Library.noneField,
      .invoke .invokestatic Library.currentTraceback, .load .ref f.exceptionSlot.toNat, .plain .dup]
  | some .bare =>
    (if h.lasti then [.word (.ofInt 0), .invoke .invokestatic Library.intValueOf] else []) ++
      [.load .ref f.exceptionSlot.toNat]
  | none => []

def handlerLines (f : Function) (r : Registry) (h : HandlerEntry) : List Line :=
  [.load .ref f.exceptionSlot.toNat, .store .ref f.previousSlot.toNat,
    .store .ref f.exceptionSlot.toNat] ++ (fetchLines (h.places r) ++ dialectLines f h)

section Entering

variable {r : Registry}

instance : Works c r pushNone [.onField .getstatic Library.noneField] := by
  unfold pushNone
  infer_instance

instance (n : Int) : Works c r (pushIntObject n)
    [.word (.ofInt n), .invoke .invokestatic Library.intValueOf] := by
  unfold pushIntObject
  infer_instance

instance : Works c r pushException [.load .ref c.function.exceptionSlot.toNat] := by
  constructor
  rintro s u s' rfl run
  replace run := rest_of_ok run rfl
  exact .of run

end Entering

/-- Entering a handler writes its lines and counts it as emitted. -/
theorem enterHandler_eq_ok {h : HandlerEntry}
    (run : enterHandler o h c.function s = (.ok u, s')) (fine : s'.failure = none) :
    Worked c (handlerLines c.function s.registry h)
      { s with
        operation := "Handler"
        handlers := s.handlers.insert o { h with emitted := true } } s' := by
  replace run := rest_of_ok run rfl
  replace run := rest_of_ok run rfl
  obtain ⟨s₂, e₂, run⟩ := Begins.rest (c := c) run
  obtain ⟨s₃, w₃, run⟩ := Works.first (c := c) run
  suffices h : Worked c (dialectLines c.function h) s₃ s' by
    have all := (e₂.worked.trans w₃).trans h
    simpa [handlerLines] using all
  unfold dialectLines
  cases dialect : c.function.dialect with
  | none =>
    simp only [dialect] at run
    exact absurd fine (failed_of_fail run)
  | some d =>
    cases d with
    | tuple =>
      simp only [dialect] at run
      exact .of run
    | bare =>
      simp only [dialect] at run
      cases lasti : h.lasti with
      | true =>
        simp only [lasti, if_true] at run ⊢
        exact .of run
      | false =>
        simp only [lasti, Bool.false_eq_true, if_false] at run ⊢
        exact .of run

theorem markOffset_eq_ok (run : markOffset o c.function s = (.ok u, s')) :
    ∃ l fresh, s'.labels[o]? = some l ∧ Labelled s s' ∧
      Wrote c.refs [.mark l] fresh [] s.assembler s'.assembler ∧
      ∃ a labels, s' = { s with assembler := a, labels, marked := s.marked.insert o () } := by
  replace run := rest_of_ok run rfl
  obtain ⟨l, s₂, found, run⟩ := bind_eq_ok run
  obtain ⟨label, labelled, ⟨fresh, wrote⟩, a, labels, rfl⟩ := wrote_offsetLabel (c := c) found
  have marks := Emitted.of (c := c) run
  have later : Labelled s s' :=
    Labelled.trans ⟨labelled.sources, labelled.newer, labelled.apart⟩ marks.labelled wrote.le_labels
      marks.wrote.le_labels
  obtain ⟨a', rfl, wrote'⟩ := marks
  exact ⟨l, _, label, later, wrote.trans wrote', a', labels, rfl⟩

/-- What a visit leaves behind: the label of the offset is marked, and a handler begins there if the
offset has one. -/
structure Visited (c : Source) (o : Int) (given : Snapshot) (s s' : State) : Prop where
  new : s.marked.contains o = false
  code : ∃ l fresh, s'.labels[o]? = some l ∧ Wrote c.refs (.mark l ::
    (s.handlers[o]?).elim [] (handlerLines c.function s.registry)) fresh [] s.assembler s'.assembler
  labelled : Labelled s s'
  handlers : s'.handlers = (s.handlers[o]?).elim s.handlers fun h =>
    s.handlers.insert o { h with emitted := true }
  stack : s'.stack = given
  registry : s'.registry = s.registry
  dispatch : s'.dispatch = s.dispatch
  resumes : s'.resumes = s.resumes
  nextState : s'.nextState = s.nextState
  base : s'.pool.base = s.pool.base
  reserved : s'.pool.reserved = s.pool.reserved
  maxLocals : s.pool.maxLocals ≤ s'.pool.maxLocals

theorem atHandler_eq_ok {h : HandlerEntry} (found : s.handlers[o]? = some h)
    (new : s.marked.contains o = false)
    (run : atHandler o h given c.function s = (.ok u, s')) (fine : s'.failure = none) :
    Visited c o given s s' := by
  replace run := rest_of_ok run rfl
  split at run
  · exact absurd fine (failed_of_fail run)
  obtain ⟨_, s₂, marked, run⟩ := bind_eq_ok run
  obtain ⟨_, s₃, entered, run⟩ := bind_eq_ok run
  replace run := rest_of_ok run rfl
  replace run := rest_of_ok run rfl
  have resumed : s' = { s₃ with stack := given, reachable := true } := by
    split at run
    · exact (Prod.mk.inj run).2.symm
    · replace run := rest_of_ok run rfl
      replace run := rest_of_ok run rfl
      obtain ⟨_, s₈, failed, run⟩ := bind_eq_ok run
      cases run
      exact (failed_of_fail failed fine).elim
  subst resumed
  obtain ⟨l, fresh, label, labelled, wrote, a, labels, rfl⟩ := markOffset_eq_ok (c := c) marked
  have enters := enterHandler_eq_ok (c := c) entered fine
  have later := labelled.trans
    ⟨enters.labelled.sources, enters.labelled.newer, enters.labelled.apart⟩ wrote.le_labels
    enters.wrote.le_labels
  obtain ⟨a', st, p, rfl, wrote', base, reserved, maxLocals⟩ := enters
  exact {
    new
    code := ⟨l, _, label, by rw [found]; exact wrote.trans wrote'⟩
    labelled := ⟨later.sources, later.newer, later.apart⟩
    handlers := by rw [found]; rfl
    stack := rfl
    registry := rfl
    dispatch := rfl
    resumes := rfl
    nextState := rfl
    base, reserved, maxLocals }

theorem atOffset_eq_ok (run : atOffset o given c.function s = (.ok u, s')) (fine : s'.failure = none) :
    Visited c o given s s' := by
  obtain ⟨new, ⟨h, found, run⟩ | ⟨found, s₁, checked, run⟩⟩ := atOffset_cases run fine
  · have visited := atHandler_eq_ok (c := c) (s := { s with operation := "At", offset := o })
      found new run fine
    exact { visited with labelled := { visited.labelled with } }
  · obtain ⟨_, s₂, marked, run⟩ := bind_eq_ok run
    obtain ⟨-, rfl⟩ := Prod.mk.inj run
    obtain ⟨l, fresh, label, labelled, wrote, a, labels, rfl⟩ := markOffset_eq_ok (c := c) marked
    have code : ∃ l fresh, labels[o]? = some l ∧ Wrote c.refs (.mark l ::
        (s.handlers[o]?).elim [] (handlerLines c.function s.registry)) fresh [] s₁.assembler a :=
      ⟨l, fresh, label, by rw [found]; exact wrote⟩
    have handlers : s₁.handlers = (s.handlers[o]?).elim s₁.handlers fun h =>
        s.handlers.insert o { h with emitted := true } := by
      rw [found]
      rfl
    rcases acceptAt_eq_ok checked with ⟨-, -, -, state⟩ | ⟨no, -⟩
    · rcases state with rfl | ⟨rfl, -⟩ <;> exact ⟨new, code,
        ⟨labelled.sources, labelled.newer, labelled.apart⟩, handlers, rfl, rfl, rfl, rfl, rfl, rfl,
        rfl, le_rfl⟩
    · cases no

/-! ## Operations -/

theorem perform_eq_ok {op : Operation} (run : op.perform f s = (.ok u, s'))
    (fine : s'.failure = none) : s.reachable = true ∧ op.needed f.dialect ≤ s.stack.length ∧
      op.body f { s with operation := op.name } = (.ok u, s') := by
  replace run := rest_of_ok run rfl
  exact operation_eq_ok run fine

/-- The setting of a function of which nothing is assumed. -/
private def anySetting (f : Function) (early : List Int) : Setting := .of f .builtin clear_builtin early

/-- An action that ends without a failure has not started with one. -/
theorem Action.fine_of_run {a : Action} (run : a.run f s = (.ok u, s')) (fine : s'.Fine) :
    s.Fine := by
  by_contra bad
  have rests (early : List Int) (start : s.Fine) : Rests (anySetting f early) [.prop False] s :=
    absurd start bad
  cases a with
  | visit o given =>
    obtain ⟨v, -, -, facts⟩ := rests_atOffset (c := anySetting f []) (rests [o]) run fine
    exact facts (.prop False) (by simp)
  | perform op =>
    have stops : ∃ early : List Int, ∀ r, op = .openRegion r → r.stop ∈ early := by
      cases op with
      | openRegion r => exact ⟨[r.stop], fun r' same => by cases same; simp⟩
      | _ => exact ⟨[], fun r same => by cases same⟩
    obtain ⟨early, opens⟩ := stops
    obtain ⟨v, -, -, facts⟩ := rests_operation (c := anySetting f early)
      (fun k enough => crosses_body op enough opens) (rests early) run fine
    exact facts (.prop False) (by simp)
  | spell types =>
    obtain ⟨v, -, -, facts⟩ := rests_spell (rests []) run fine
    exact facts (.prop False) (by simp)

theorem Action.fine_of_forM {actions : List Action}
    (run : actions.forM Action.run f s = (.ok u, s')) (fine : s'.Fine) : s.Fine := by
  induction actions generalizing s with
  | nil =>
    cases run
    exact fine
  | cons a actions ih =>
    obtain ⟨_, s₁, first, later⟩ := bind_eq_ok (x := a.run) run
    exact fine_of_run first (ih later)

/-! ## Order -/

/-- The locals from the first source local on, with the slots of exceptions and some of the slots
below `base`. -/
def Function.Framed (f : Function) (base : Int) (frame : List Int) : Prop :=
  ∃ n : Nat, frame = slotsFrom f.localBase n ∧ f.slotBase + 2 ≤ f.localBase + n ∧
    f.localBase + n ≤ base

/-- Everything that outlasts an operation is in order: labels and persistent slots are where they
were made, handlers have slots of their own, and suspension points are numbered. -/
structure Tidy (c : Source) (s : State) : Prop where
  sources : s.Sourced
  registry : ∀ sig, s.registry.Knows sig → sig.method ∈ c.refs
  base : c.function.slotBase + 2 ≤ s.pool.base
  maxLocals : s.pool.base ≤ s.pool.maxLocals
  persistent : s.pool.persistent =
    slotsFrom c.function.slotBase (s.pool.base - c.function.slotBase).toNat
  kept : ∀ (o : Int) (h : HandlerEntry), s.handlers[o]? = some h → ∃ b : Int,
    h.slots = slotsFrom b h.slots.length ∧ c.function.slotBase + 2 ≤ b ∧
      b + h.slots.length ≤ s.pool.base
  apart : ∀ (o o' : Int) (h h' : HandlerEntry), s.handlers[o]? = some h →
    s.handlers[o']? = some h' → o ≠ o' → ∀ i ∈ h.slots, i ∉ h'.slots
  states : ∀ p ∈ s.resumes, 1 ≤ p.state ∧ p.state < s.nextState ∧ p.label < s.assembler.labels.size
  numbered : s.resumes.toList.Pairwise fun p q => p.state < q.state
  nextState : 1 ≤ s.nextState
  frames : ∀ p ∈ s.resumes, c.function.Framed s.pool.base p.frame

theorem Tidy.nonneg (tidy : Tidy c s) : 0 ≤ s.pool.base := by
  have := tidy.base
  have := c.function.nonneg_slotBase
  omega

def Tidy.scope (tidy : Tidy c s) : Scope where
  toSource := c
  base := s.pool.base
  labels := s.assembler.labels.size
  own := []
  nonneg := tidy.nonneg
  guarding := True

theorem Tidy.opened (tidy : Tidy c s) : tidy.scope.Open s :=
  ⟨rfl, le_rfl, by simp [scope], tidy.sources, tidy.registry⟩

/-- What keeps persistent slots, handlers and suspension points keeps their order. -/
theorem Tidy.keep (tidy : Tidy c s) (labelled : Labelled s s')
    (labels : s.assembler.labels.size ≤ s'.assembler.labels.size)
    (registry : ∀ sig, s'.registry.Knows sig → sig.method ∈ c.refs)
    (base : s'.pool.base = s.pool.base) (reserved : s'.pool.reserved = s.pool.reserved)
    (maxLocals : s.pool.maxLocals ≤ s'.pool.maxLocals)
    (handlers : ∀ (o : Int) (h' : HandlerEntry), s'.handlers[o]? = some h' →
      ∃ h, s.handlers[o]? = some h ∧ h.slots = h'.slots)
    (resumes : s'.resumes = s.resumes) (nextState : s'.nextState = s.nextState) : Tidy c s' where
  sources := tidy.sources.mono labelled labels
  registry
  base := base ▸ tidy.base
  maxLocals := by
    rw [base]
    exact tidy.maxLocals.trans maxLocals
  persistent := by
    rw [SlotPool.persistent, reserved, base]
    exact tidy.persistent
  kept o h' found := by
    obtain ⟨h, old, same⟩ := handlers o h' found
    rw [base, ← same]
    exact tidy.kept o h old
  apart o o' h h' found found' ne := by
    obtain ⟨g, old, same⟩ := handlers o h found
    obtain ⟨g', old', same'⟩ := handlers o' h' found'
    rw [← same, ← same']
    exact tidy.apart o o' g g' old old' ne
  states p mem := by
    rw [resumes] at mem
    obtain ⟨first, below, made⟩ := tidy.states p mem
    exact ⟨first, nextState ▸ below, made.trans_le labels⟩
  numbered := resumes ▸ tidy.numbered
  nextState := nextState ▸ tidy.nextState
  frames := by
    rw [resumes, base]
    exact tidy.frames

/-- The frame of a function is all of its locals that are not temporary. -/
theorem Tidy.framed (tidy : Tidy c s) :
    c.function.frame s.pool =
      slotsFrom c.function.localBase (s.pool.base - c.function.localBase).toNat := by
  have base := tidy.base
  have count : (s.pool.base - c.function.localBase).toNat =
      c.function.locals.size + (s.pool.base - c.function.slotBase).toNat := by
    unfold Function.slotBase at base ⊢
    omega
  rw [Function.frame, tidy.persistent, count, slotsFrom_add]
  rfl

/-! ## What an action adds -/

def Action.target? : Action → Option Int
  | perform (.openRegion r) => some r.target
  | _ => none

def Action.targets (actions : List Action) : List Int := actions.filterMap target?

variable {targets : List Int}

/-- A local that code may write: a temporary from `base` on, a source local or a slot of exceptions,
or a slot of the handler at one of the targets. -/
def State.Touches (s : State) (f : Function) (base : Int) (targets : List Int) (i : Int) : Prop :=
  base ≤ i ∨ (f.localBase ≤ i ∧ i < f.slotBase + 2) ∨
    ∃ o ∈ targets, ∃ h, s.handlers[o]? = some h ∧ i ∈ h.slots

/-- Handlers stay where they are and keep their slots. -/
def State.Holds (s s' : State) : Prop :=
  ∀ (o : Int) (h : HandlerEntry), s.handlers[o]? = some h →
    ∃ h', s'.handlers[o]? = some h' ∧ h'.kept = h.kept ∧ h'.lasti = h.lasti

theorem State.holds_of_eq (same : s'.handlers = s.handlers) : s.Holds s' :=
  fun _ h found => ⟨h, same ▸ found, rfl, rfl⟩

theorem State.Holds.trans (h : s.Holds s') (h' : s'.Holds s'') : s.Holds s'' := by
  intro o e found
  obtain ⟨e', found', kept, lasti⟩ := h o e found
  obtain ⟨e'', found'', kept', lasti'⟩ := h' o e' found'
  exact ⟨e'', found'', kept'.trans kept, lasti'.trans lasti⟩

/-- What actions that open regions with the given targets add: lines and entries of the exception
table. The labels of an entry and those of branches are new or belong to source offsets. -/
structure Advanced (c : Source) (targets : List Int) (lines : List Line)
    (guards : List PendingHandler) (s s' : State) : Prop where
  wrote : ∃ fresh, Wrote c.refs lines fresh guards s.assembler s'.assembler
  labelled : Labelled s s'
  guarded : ∀ h ∈ guards, ∀ l ∈ guardLabels h,
    s.assembler.labels.size ≤ l ∧ l < s'.assembler.labels.size ∨ ∃ o : Int, s'.labels[o]? = some l
  branched : ∀ line ∈ lines, ∀ l, line.target? = some l →
    s.assembler.labels.size ≤ l ∧ l < s'.assembler.labels.size ∨ ∃ o : Int, s'.labels[o]? = some l
  written : ∀ line ∈ lines, ∀ i, line.written? = some i →
    s'.Touches c.function s.pool.base targets i
  base : s.pool.base ≤ s'.pool.base
  maxLocals : s.pool.maxLocals ≤ s'.pool.maxLocals
  persistent : s.pool.persistent <+: s'.pool.persistent
  handlers : s.Holds s'
  resumes : s.resumes.toList <+: s'.resumes.toList
  nextState : s'.nextState ≤ s.nextState + codeSize lines
  dispatch : s'.dispatch = s.dispatch

theorem State.Touches.mono {base base' : Int} {targets' : List Int} {i : Int}
    (h : s.Touches f base targets i) (le : base' ≤ base) (sub : targets ⊆ targets')
    (holds : s.Holds s') : s'.Touches f base' targets' i := by
  rcases h with temporary | fixed | ⟨o, mem, e, found, slot⟩
  · exact .inl (le.trans temporary)
  · exact .inr (.inl fixed)
  · obtain ⟨e', found', kept, -⟩ := holds o e found
    refine .inr (.inr ⟨o, sub mem, e', found', ?_⟩)
    rwa [HandlerEntry.slots, kept]

theorem Advanced.labels (h : Advanced c targets lines guards s s') :
    s.assembler.labels.size ≤ s'.assembler.labels.size := by
  obtain ⟨fresh, wrote⟩ := h.wrote
  exact wrote.le_labels

theorem Advanced.refl (s : State) : Advanced c [] [] [] s s where
  wrote := ⟨0, .refl _⟩
  labelled := labelled_of_eq rfl
  guarded := by simp
  branched := by simp
  written := by simp
  base := le_rfl
  maxLocals := le_rfl
  persistent := List.prefix_rfl
  handlers := State.holds_of_eq rfl
  resumes := List.prefix_rfl
  nextState := by simp
  dispatch := rfl

theorem Advanced.trans {targets' : List Int} {lines' : List Line} {guards' : List PendingHandler}
    (h : Advanced c targets lines guards s s') (h' : Advanced c targets' lines' guards' s' s'') :
    Advanced c (targets ++ targets') (lines ++ lines') (guards ++ guards') s s'' where
  wrote := by
    obtain ⟨fresh, wrote⟩ := h.wrote
    obtain ⟨fresh', wrote'⟩ := h'.wrote
    exact ⟨_, wrote.trans wrote'⟩
  labelled := h.labelled.trans h'.labelled h.labels h'.labels
  guarded g mem l hl := by
    rcases List.mem_append.mp mem with old | new
    · rcases h.guarded g old l hl with ⟨low, high⟩ | ⟨o, source⟩
      · exact .inl ⟨low, high.trans_le h'.labels⟩
      · exact .inr ⟨o, h'.labelled.sources o l source⟩
    · rcases h'.guarded g new l hl with ⟨low, high⟩ | source
      · exact .inl ⟨h.labels.trans low, high⟩
      · exact .inr source
  branched line mem l same := by
    rcases List.mem_append.mp mem with old | new
    · rcases h.branched line old l same with ⟨low, high⟩ | ⟨o, source⟩
      · exact .inl ⟨low, high.trans_le h'.labels⟩
      · exact .inr ⟨o, h'.labelled.sources o l source⟩
    · rcases h'.branched line new l same with ⟨low, high⟩ | source
      · exact .inl ⟨h.labels.trans low, high⟩
      · exact .inr source
  written line mem i writes := by
    rcases List.mem_append.mp mem with old | new
    · exact (h.written line old i writes).mono le_rfl (List.subset_append_left ..) h'.handlers
    · exact (h'.written line new i writes).mono h.base (List.subset_append_right ..)
        (State.holds_of_eq rfl)
  base := h.base.trans h'.base
  maxLocals := h.maxLocals.trans h'.maxLocals
  persistent := h.persistent.trans h'.persistent
  handlers := h.handlers.trans h'.handlers
  resumes := h.resumes.trans h'.resumes
  nextState := by
    rw [codeSize_append]
    have := h.nextState
    have := h'.nextState
    push_cast
    omega
  dispatch := h'.dispatch.trans h.dispatch

/-- Every label that stands in the lines is new and belongs to no source offset. -/
def Private (lines : List Line) (s s' : State) : Prop :=
  ∀ l, .mark l ∈ lines → s.assembler.labels.size ≤ l ∧ s'.Inner l

/-- What an ordinary operation adds. -/
theorem Kept.advanced (tidy : Tidy c s) (kept : Kept tidy.scope s s') :
    Tidy c s' ∧ ∃ lines guards, Advanced c [] lines guards s s' ∧ Private lines s s' := by
  obtain ⟨lines, fresh, guards, wrote, confines, owns⟩ := kept.code
  have opened := kept.opened tidy.opened
  refine ⟨tidy.keep kept.labelled kept.labels opened.registry kept.base kept.reserved kept.maxLocals
    (fun o h found => ⟨h, kept.handlers ▸ found, rfl⟩) kept.resumes kept.nextState, lines, guards, ?_,
    fun l mem => (confines _ mem).2.1 l rfl⟩
  exact {
    wrote := ⟨fresh, wrote⟩
    __ := kept
    guarded := fun h mem l hl => .inl ⟨((owns h mem).2 l hl).1, ((owns h mem).2 l hl).2.1⟩
    branched := fun line mem l same =>
      ((confines line mem).2.2 l same).imp_left fun own => ⟨own.1, own.2.1⟩
    written := fun line mem i writes => ((confines line mem).1 i writes).imp_right .inl
    base := kept.base.ge
    persistent := by rw [SlotPool.persistent, SlotPool.persistent, kept.reserved]
    handlers := State.holds_of_eq kept.handlers
    resumes := by rw [kept.resumes]
    nextState := by rw [kept.nextState]; omega }

/-- The lines that write a local, mark a label or branch. -/
def loud (lines : List Line) : List Line :=
  lines.filter fun line => !silent line || line.target?.isSome

@[simp] theorem loud_append (lines more : List Line) : loud (lines ++ more) = loud lines ++ loud more :=
  List.filter_append ..

@[simp] theorem loud_nil : loud [] = [] := rfl

theorem loud_flatten {ls : List (List Line)} (h : ∀ lines ∈ ls, loud lines = []) :
    loud ls.flatten = [] := by
  induction ls with
  | nil => rfl
  | cons lines ls ih =>
    rw [List.flatten_cons, loud_append, h lines List.mem_cons_self,
      ih fun more mem => h more (List.mem_cons_of_mem _ mem)]
    rfl

theorem loud_flatMap {α : Type} {xs : List α} {ls : α → List Line} (h : ∀ x ∈ xs, loud (ls x) = []) :
    loud (xs.flatMap ls) = [] :=
  loud_flatten (List.forall_mem_map.mpr h)

theorem mark_mem_loud {l : Label} (mem : .mark l ∈ lines) : .mark l ∈ loud lines :=
  List.mem_filter.mpr ⟨mem, rfl⟩

theorem written_mem_loud {i : Nat} (mem : line ∈ lines) (writes : line.written? = some i) :
    line ∈ loud lines := by
  refine List.mem_filter.mpr ⟨mem, ?_⟩
  cases line with
  | store | increment => rfl
  | _ => cases writes

theorem target_mem_loud {l : Label} (mem : line ∈ lines) (goes : line.target? = some l) :
    line ∈ loud lines :=
  List.mem_filter.mpr ⟨mem, by rw [goes, Option.isSome_some, Bool.or_true]⟩

/-- What an operation that suspends adds. -/
theorem Suspends.advanced {fresh : Nat} (tidy : Tidy c s)
    (h : Suspends c lines fresh guards p s s') (state : p.state = s.nextState)
    (label : p.label < s.assembler.labels.size + fresh) (frame : p.frame = c.function.frame s.pool)
    (own : ∀ line ∈ loud lines, ∀ l, line = .mark l ∨ line.target? = some l →
      s.assembler.labels.size ≤ l ∧ l < s.assembler.labels.size + fresh)
    (guarded : ∀ g ∈ guards, ∀ l ∈ guardLabels g,
      s.assembler.labels.size ≤ l ∧ l < s.assembler.labels.size + fresh)
    (written : ∀ line ∈ loud lines, ∀ i, line.written? = some i → s.pool.base ≤ i)
    (nonempty : 0 < codeSize lines) :
    Tidy c s' ∧ Advanced c [] lines guards s s' ∧ Private lines s s' := by
  have size := h.wrote.labels
  have background := h.background
  simp only [State.background, Prod.mk.injEq] at background
  obtain ⟨registry, -, labels, -, handlers, dispatch, -, base, reserved⟩ := background
  have labelled : Labelled s s' := labelled_of_eq labels
  have persistent : s'.pool.persistent = s.pool.persistent := by
    rw [SlotPool.persistent, reserved, SlotPool.persistent]
  have list : s'.resumes.toList = s.resumes.toList ++ [p] := by
    rw [h.resumes, Array.toList_push]
  have marks (l : Label) (mem : .mark l ∈ lines) := own _ (mark_mem_loud mem) l (.inl rfl)
  refine ⟨?_, ?_, fun l mem => ⟨(marks l mem).1, size ▸ (marks l mem).2, fun o found => ?_⟩⟩
  · exact {
      sources := tidy.sources.mono labelled h.wrote.le_labels
      registry := registry ▸ tidy.registry
      base := base ▸ tidy.base
      maxLocals := base ▸ tidy.maxLocals.trans h.maxLocals
      persistent := by rw [persistent, base, tidy.persistent]
      kept := by rw [handlers, base]; exact tidy.kept
      apart := by rw [handlers]; exact tidy.apart
      states := fun q mem => by
        rw [← Array.mem_toList_iff, list, List.mem_append, List.mem_singleton] at mem
        have first := tidy.nextState
        rcases mem with old | rfl
        · obtain ⟨low, high, made⟩ := tidy.states q (Array.mem_toList_iff.mp old)
          rw [h.nextState, size]
          exact ⟨low, by omega, made.trans_le (Nat.le_add_right _ _)⟩
        · rw [h.nextState, size]
          exact ⟨by omega, by omega, label⟩
      numbered := by
        rw [list, List.pairwise_append]
        refine ⟨tidy.numbered, List.pairwise_singleton _ _, fun q old q' new => ?_⟩
        rw [List.mem_singleton.mp new, state]
        exact (tidy.states q (Array.mem_toList_iff.mp old)).2.1
      nextState := by
        have := tidy.nextState
        rw [h.nextState]
        omega
      frames := fun q mem => by
        rw [← Array.mem_toList_iff, list, List.mem_append, List.mem_singleton] at mem
        rw [base]
        rcases mem with old | rfl
        · exact tidy.frames q (Array.mem_toList_iff.mp old)
        · have le := tidy.base
          have first := c.function.localBase_le
          exact ⟨_, frame.trans tidy.framed, by omega, by omega⟩ }
  · exact {
      wrote := ⟨fresh, h.wrote⟩
      labelled
      guarded := fun g mem l hl => .inl (size ▸ guarded g mem l hl)
      branched := fun line mem l same => .inl (size ▸ own line (target_mem_loud mem same) l (.inr same))
      written := fun line mem i writes => .inl (written line (written_mem_loud mem writes) i writes)
      base := base.ge
      maxLocals := h.maxLocals
      persistent := by rw [persistent]
      handlers := State.holds_of_eq handlers
      resumes := list ▸ List.prefix_append _ _
      nextState := by rw [h.nextState]; omega
      dispatch }
  · rw [labels] at found
    exact absurd (tidy.sources o l found) (Nat.not_lt.mpr (marks l mem).1)

/-! ### Suspensions -/

@[simp] theorem loud_reads (f : FieldRef) : loud (readLines f) = [] := rfl

@[simp] theorem loud_writes (f : FieldRef) : loud (writeLines f) = [] := rfl

@[simp] theorem loud_clears (f : FieldRef) : loud (clearLines f) = [] := rfl

@[simp] theorem loud_state (n : Int) : loud (stateLines n) = [] := rfl

@[simp] theorem loud_callOne : loud callOneLines = [] := rfl

@[simp] theorem loud_callUnary (method : String) : loud (callUnaryLines method) = [] := rfl

@[simp] theorem loud_item (i : Nat) (cls : String) : loud (itemLines i cls) = [] := by
  have casts : loud (castLines cls) = [] := by
    unfold castLines
    split <;> rfl
  rw [itemLines, loud_append, loud_reads, List.nil_append]
  exact casts

@[simp] theorem loud_stack (r : Registry) (below : Snapshot) : loud (stackLines r below) = [] :=
  loud_flatMap fun _ _ => loud_item _ _

@[simp] theorem loud_save (depth : Nat) (frame : List Int) (state : Int) :
    loud (saveLines depth frame state) = [] := by
  have pushes : loud (List.replicate depth (reverseAddLines Library.listClass)).flatten = [] :=
    loud_flatten fun lines mem => by
      rw [(List.mem_replicate.mp mem).2]
      rfl
  have adds : loud (addLines frame) = [] := loud_flatMap fun _ _ => rfl
  simp only [saveLines, loud_append, pushes, adds, loud_writes, loud_state, List.append_nil]
  rfl

theorem loud_yield (depth : Nat) (frame : List Int) (state : Int) (resume notThrown : Label) :
    loud (yieldLines depth frame state resume notThrown) =
      [.mark resume, .branch .ifnull notThrown, .mark notThrown] := by
  rw [yieldLines, loud_append, loud_append, loud_save]
  rfl

theorem loud_delegation (d : Delegation) (r : Registry) (rest : Snapshot) (frame : List Int)
    (state result : Int) : loud (d.lines r rest frame state result) =
      [.mark d.resume, .mark d.start, .branch .ifnull d.notThrown, .branch .ifnull d.noThrow,
        .branch .goto d.got, .mark d.notThrown, .branch .ifAcmpeq d.useNext, .branch .goto d.got,
        .mark d.useNext, .mark d.got, .mark d.ended, .mark d.noThrow, .mark d.exhausted,
        .store .ref result.toNat] := by
  have ends : loud (d.exhaustedLines r rest result) =
      [.mark d.exhausted, .store .ref result.toNat] := by
    show .mark d.exhausted :: .store .ref result.toNat :: loud (stackLines r rest ++ _) = _
    rw [loud_append, loud_stack]
    rfl
  rw [Delegation.lines, Delegation.loopLines, loud_append, loud_append, loud_append, loud_save]
  show .mark d.resume :: .mark d.start :: loud (d.throwLines ++ _) = _
  simp only [loud_append, ends]
  rfl

theorem yield_advanced {depth : Nat} {frame : List Int} (tidy : Tidy c s)
    (spells : lines = yieldLines depth frame s.nextState s.assembler.labels.size
      (s.assembler.labels.size + 1)) (h : Suspends c lines 2 [] p s s') (state : p.state = s.nextState)
    (label : p.label = s.assembler.labels.size) (framed : p.frame = c.function.frame s.pool) :
    Tidy c s' ∧ Advanced c [] lines [] s s' ∧ Private lines s s' := by
  subst spells
  refine h.advanced tidy state (label.trans_lt (Nat.lt_add_of_pos_right (by decide))) framed ?_
    (by simp) ?_ ?_
  · simp [loud_yield]
  · simp [loud_yield, Line.written?]
  · simp [yieldLines, writeLines, Line.size]

theorem yieldFrom_advanced {rest : Snapshot} {frame : List Int} {result : Int} (tidy : Tidy c s)
    (behind : s.pool.base ≤ result) {d : Delegation} (own : d = .from s.assembler.labels.size)
    (h : Suspends c (d.lines s.registry rest frame s.nextState result) 8 [d.guard] p s s')
    (state : p.state = s.nextState) (label : p.label = s.assembler.labels.size)
    (framed : p.frame = c.function.frame s.pool) :
    Tidy c s' ∧ Advanced c [] (d.lines s.registry rest frame s.nextState result) [d.guard] s s' ∧
      Private (d.lines s.registry rest frame s.nextState result) s s' := by
  subst own
  have nonneg := tidy.nonneg
  refine h.advanced tidy state (label.trans_lt (Nat.lt_add_of_pos_right (by decide))) framed ?_ ?_ ?_
    ?_
  · simp [loud_delegation, Delegation.from]
  · simp [guardLabels, Delegation.guard, Delegation.from]
  · simp [loud_delegation, Line.written?]
    omega
  · simp [Delegation.lines, writeLines, Line.size]

/-! ### Regions -/

theorem mem_storeLines {slots : List (Kind × Int)} (h : line ∈ storeLines slots) :
    ∃ x ∈ slots, line = .store x.1 x.2.toNat := by
  obtain ⟨x, hx, mem⟩ := List.mem_flatMap.mp h
  exact ⟨x, hx, List.mem_singleton.mp mem⟩

@[simp] theorem loud_fetch (slots : List (Kind × Int)) : loud (fetchLines slots) = [] :=
  loud_flatMap fun _ _ => rfl

theorem mem_loud_open {r : Registry} {h : HandlerEntry} {upper : List Temp} {start : Label}
    (mem : line ∈ loud (openLines r h upper start)) :
    (∃ t ∈ upper, line = .store (t.place r).1 t.index.toNat) ∨
      (∃ x ∈ h.places r, line = .store x.1 x.2.toNat) ∨ line = .mark start := by
  simp only [openLines, loud_append, loud_fetch, List.nil_append, List.mem_append] at mem
  rcases mem with stores | stores | mark
  · obtain ⟨x, hx, same⟩ := mem_storeLines (List.mem_filter.mp stores).1
    obtain ⟨t, ht, rfl⟩ := List.mem_map.mp hx
    exact .inl ⟨t, ht, same⟩
  · obtain ⟨x, hx, same⟩ := mem_storeLines (List.mem_filter.mp stores).1
    exact .inr (.inl ⟨x, List.mem_reverse.mp hx, same⟩)
  · exact .inr (.inr (List.mem_singleton.mp mark))

variable {region : Region} {h : HandlerEntry} {saved : Snapshot} {s₁ : State}

/-- A new handler gets slots behind all others. -/
theorem Tidy.handled (tidy : Tidy c s)
    (run : regionHandler region saved c.function s = (.ok (some h), s₁)) :
    Tidy c s₁ ∧ Advanced c [] [] [] s s₁ ∧ s₁.handlers[region.target]? = some h ∧
      s₁.assembler = s.assembler := by
  obtain ⟨-, ⟨found, rfl⟩ | ⟨unknown, p, reserved, rfl⟩⟩ := regionHandler_eq_ok run
  · exact ⟨tidy, .refl _, found, rfl⟩
  have grown := reserved.base
  have base := tidy.base
  have lookup (o : Int) : (s.handlers.insert region.target h)[o]? =
      if region.target = o then some h else s.handlers[o]? := by
    rw [Std.TreeMap.getElem?_insert]
    simp only [Std.compare_eq_iff_eq]
  have old {o : Int} {h' : HandlerEntry} (found : s.handlers[o]? = some h') : region.target ≠ o := by
    rintro rfl
    rw [unknown] at found
    cases found
  have below {o : Int} {h' : HandlerEntry} (found : s.handlers[o]? = some h') (i : Int)
      (mem : i ∈ h'.slots) : i < s.pool.base := by
    obtain ⟨b, slots, -, high⟩ := tidy.kept o h' found
    rw [slots, mem_slotsFrom] at mem
    omega
  have above (i : Int) (mem : i ∈ h.slots) : s.pool.base ≤ i := by
    rw [reserved.consecutive, mem_slotsFrom] at mem
    exact mem.1
  refine ⟨?_, ?_, ?_, rfl⟩
  · exact {
      __ := tidy
      base := by
        show _ ≤ p.base
        omega
      maxLocals := reserved.inside tidy.maxLocals
      persistent := by
        show p.persistent = slotsFrom _ (p.base - _).toNat
        have count : (p.base - c.function.slotBase).toNat =
            (s.pool.base - c.function.slotBase).toNat + h.slots.length := by omega
        rw [reserved.persistent, tidy.persistent, count, slotsFrom_add]
        congr 1
        have first : c.function.slotBase + ((s.pool.base - c.function.slotBase).toNat : Int) =
            s.pool.base := by omega
        rw [first]
        exact reserved.consecutive
      kept := fun o h' found => by
        rw [show _ = (s.handlers.insert region.target h)[o]? from rfl, lookup] at found
        split at found
        · cases found
          exact ⟨s.pool.base, reserved.consecutive, base, grown.ge⟩
        · obtain ⟨b, slots, low, high⟩ := tidy.kept o h' found
          refine ⟨b, slots, low, ?_⟩
          show _ ≤ p.base
          omega
      apart := fun o o' h₁ h₂ found found' ne i mem mem' => by
        rw [show _ = (s.handlers.insert region.target h)[o]? from rfl, lookup] at found
        rw [show _ = (s.handlers.insert region.target h)[o']? from rfl, lookup] at found'
        split at found <;> split at found'
        · rename_i same same'
          exact ne (same.symm.trans same')
        · cases found
          exact absurd (above i mem) (not_le.mpr (below found' i mem'))
        · cases found'
          exact absurd (above i mem') (not_le.mpr (below found i mem))
        · exact tidy.apart o o' h₁ h₂ found found' ne i mem mem'
      frames := fun q mem => by
        obtain ⟨n, same, low, high⟩ := tidy.frames q mem
        refine ⟨n, same, low, high.trans ?_⟩
        show _ ≤ p.base
        omega }
  · exact {
      wrote := ⟨0, .refl _⟩
      labelled := labelled_of_eq rfl
      guarded := by simp
      branched := by simp
      written := by simp
      base := by
        show _ ≤ p.base
        omega
      maxLocals := reserved.maxLocals
      persistent := ⟨_, reserved.persistent.symm⟩
      handlers := fun o h' found => ⟨h', by
        show (s.handlers.insert region.target h)[o]? = _
        rw [lookup, if_neg (old found), found], rfl, rfl⟩
      resumes := List.prefix_rfl
      nextState := by simp
      dispatch := rfl }
  · show (s.handlers.insert region.target h)[region.target]? = _
    rw [lookup, if_pos rfl]

theorem openRegion_advanced {upper : List Temp} {start : Label} (tidy : Tidy c s)
    (handled : regionHandler region saved c.function s = (.ok (some h), s₁))
    (opens : Opens c region h upper start s₁ s') :
    Tidy c s' ∧ ∃ stop target,
      s'.labels[region.stop]? = some stop ∧ s'.labels[region.target]? = some target ∧
        Advanced c [region.target] (openLines s₁.registry h upper start)
          [⟨start, stop, target, Library.baseExceptionClass⟩] s s' ∧
        Private (openLines s₁.registry h upper start) s s' := by
  obtain ⟨tidy₁, first, found, assembler⟩ := tidy.handled handled
  obtain ⟨fresh, stop, target, stops, targets, wrote⟩ := opens.wrote
  obtain ⟨a, st, p, labels, rfl, base, reserved, maxLocals⟩ := opens.rest
  have start_ : start = s.assembler.labels.size := opens.new.trans (by rw [assembler])
  have lone : ∀ l, .mark l ∈ openLines s₁.registry h upper start → l = start := by
    intro l mem
    rcases mem_loud_open (mark_mem_loud mem) with ⟨t, -, same⟩ | ⟨x, -, same⟩ | same <;> cases same
    rfl
  refine ⟨tidy₁.keep opens.labelled wrote.le_labels tidy₁.registry base reserved maxLocals
      (fun o h' found => ⟨h', found, rfl⟩) rfl rfl,
    stop, target, stops, targets, ?_, fun l mem => ?_⟩
  · refine first.trans (show Advanced c [region.target] (openLines s₁.registry h upper start)
        [⟨start, stop, target, Library.baseExceptionClass⟩] s₁ _ from {
      wrote := ⟨fresh, wrote⟩
      labelled := opens.labelled
      guarded := fun g mem l hl => ?_
      branched := fun line mem l same => ?_
      written := fun line mem i writes => ?_
      base := base.ge
      maxLocals
      persistent := by rw [SlotPool.persistent, SlotPool.persistent, reserved]
      handlers := State.holds_of_eq rfl
      resumes := List.prefix_rfl
      nextState := le_add_of_nonneg_right (Int.natCast_nonneg _)
      dispatch := rfl })
    · rw [List.mem_singleton.mp mem] at hl
      simp only [guardLabels, List.mem_cons, List.not_mem_nil, or_false] at hl
      rcases hl with rfl | rfl | rfl
      · exact .inl ⟨opens.new.ge, opens.inner.1⟩
      · exact .inr ⟨_, stops⟩
      · exact .inr ⟨_, targets⟩
    · rcases mem_loud_open (target_mem_loud mem same) with ⟨t, -, rfl⟩ | ⟨x, -, rfl⟩ | rfl <;> cases same
    · have nonneg := tidy₁.nonneg
      rcases mem_loud_open (written_mem_loud mem writes) with ⟨t, ht, rfl⟩ | ⟨x, hx, rfl⟩ | rfl
      · obtain ⟨u, spilled, -⟩ := opens.spilled
        have index : t.index ∈ slotsFrom (s₁.pool.base + s₁.pool.live.length) upper.length :=
          spilled.index ▸ List.mem_map_of_mem ht
        rw [mem_slotsFrom] at index
        cases writes
        left
        show s₁.pool.base ≤ (t.index.toNat : Int)
        omega
      · have slot : x.2 ∈ h.slots := by
          rw [← h.map_places s₁.registry]
          exact List.mem_map_of_mem hx
        have low : 0 ≤ x.2 := by
          obtain ⟨b, slots, low, -⟩ := tidy₁.kept _ h found
          have := c.function.nonneg_slotBase
          rw [slots, mem_slotsFrom] at slot
          omega
        cases writes
        refine .inr (.inr ⟨_, List.mem_singleton_self _, h, found, ?_⟩)
        rwa [Int.toNat_of_nonneg low]
      · cases writes
  · rw [lone l mem]
    refine ⟨start_.ge, opens.inner.1, fun o found => ?_⟩
    have old := tidy₁.sources o start (opens.inner.2 o found)
    rw [opens.new] at old
    exact lt_irrefl _ old

/-! ### All actions -/

theorem loud_handler (f : Function) (r : Registry) (h : HandlerEntry) :
    loud (handlerLines f r h) =
      [.store .ref f.previousSlot.toNat, .store .ref f.exceptionSlot.toNat] := by
  have dialect : loud (dialectLines f h) = [] := by
    unfold dialectLines
    split
    · rfl
    · split <;> rfl
    · rfl
  rw [handlerLines, loud_append, loud_append, loud_fetch, dialect]
  rfl

/-- What a visit writes, marks and branches to. -/
theorem mem_loud_visit {l : Label}
    (mem : line ∈ loud (.mark l :: (s.handlers[o]?).elim [] (handlerLines f s.registry))) :
    line = .mark l ∨ line = .store .ref f.previousSlot.toNat ∨
      line = .store .ref f.exceptionSlot.toNat := by
  cases here : s.handlers[o]? with
  | none =>
    rw [here] at mem
    exact .inl (List.mem_singleton.mp mem)
  | some e =>
    rw [here] at mem
    change line ∈ .mark l :: loud (handlerLines f s.registry e) at mem
    simpa [loud_handler] using mem

theorem Visited.advanced (tidy : Tidy c s) (h : Visited c o given s s') :
    Tidy c s' ∧ ∃ l, s'.labels[o]? = some l ∧ Advanced c [] (.mark l ::
      (s.handlers[o]?).elim [] (handlerLines c.function s.registry)) [] s s' := by
  obtain ⟨l, fresh, label, wrote⟩ := h.code
  have holds : s.Holds s' := by
    intro o' e found
    rw [h.handlers]
    cases here : s.handlers[o]? with
    | none => exact ⟨e, found, rfl, rfl⟩
    | some e' =>
      simp only [Option.elim_some, Std.TreeMap.getElem?_insert, Std.compare_eq_iff_eq]
      split
      · rename_i same
        subst same
        cases here.symm.trans found
        exact ⟨_, rfl, rfl, rfl⟩
      · exact ⟨e, found, rfl, rfl⟩
  have back (o' : Int) (e' : HandlerEntry) (found : s'.handlers[o']? = some e') :
      ∃ e, s.handlers[o']? = some e ∧ e.slots = e'.slots := by
    rw [h.handlers] at found
    cases here : s.handlers[o]? with
    | none =>
      rw [here] at found
      exact ⟨e', found, rfl⟩
    | some e =>
      rw [here] at found
      simp only [Option.elim_some, Std.TreeMap.getElem?_insert, Std.compare_eq_iff_eq] at found
      split at found
      · rename_i same
        subst same
        cases found
        exact ⟨e, here, rfl⟩
      · exact ⟨e', found, rfl⟩
  refine ⟨tidy.keep h.labelled wrote.le_labels (by rw [h.registry]; exact tidy.registry) h.base
    h.reserved h.maxLocals back h.resumes h.nextState, l, label, ?_⟩
  exact {
    wrote := ⟨fresh, wrote⟩
    __ := h
    guarded := by simp
    branched := fun line mem l' same => by
      rcases mem_loud_visit (target_mem_loud mem same) with rfl | rfl | rfl <;> cases same
    written := fun line mem i writes => by
      have low := c.function.nonneg_localBase
      have high := c.function.localBase_le
      right
      left
      rcases mem_loud_visit (written_mem_loud mem writes) with rfl | rfl | rfl <;> cases writes
      · simp only [Function.previousSlot]
        omega
      · simp only [Function.exceptionSlot]
        omega
    base := h.base.ge
    persistent := by rw [SlotPool.persistent, SlotPool.persistent, h.reserved]
    handlers := holds
    resumes := by rw [h.resumes]
    nextState := by rw [h.nextState]; omega }

theorem spell_advanced {types : List TypeSpec} (tidy : Tidy c s)
    (run : (Action.spell types).run c.function s = (.ok u, s')) :
    Tidy c s' ∧ Advanced c [] [] [] s s' := by
  obtain ⟨registry, rfl, known⟩ := spell_eq_ok run
  refine ⟨tidy.keep (labelled_of_eq rfl) le_rfl (fun sig new => tidy.registry sig (known sig new))
    rfl rfl le_rfl (fun o h found => ⟨h, found, rfl⟩) rfl rfl, ?_⟩
  have same : Advanced c [] [] [] s s := .refl s
  exact { same with labelled := labelled_of_eq rfl }

theorem Tidy.named (tidy : Tidy c s) (name : String) : Tidy c { s with operation := name } :=
  tidy.keep (labelled_of_eq rfl) le_rfl tidy.registry rfl rfl le_rfl
    (fun _ h found => ⟨h, found, rfl⟩) rfl rfl

theorem Advanced.unnamed {name : String}
    (h : Advanced c targets lines guards { s with operation := name } s') :
    Advanced c targets lines guards s s' :=
  { h with labelled := { h.labelled with } }

/-- What performing an operation adds. The labels in its lines are its own. -/
theorem perform_advanced {op : Operation} (tidy : Tidy c s)
    (run : op.perform c.function s = (.ok u, s')) (fine : s'.Fine) :
    Tidy c s' ∧ ∃ lines guards, Advanced c (Action.targets [.perform op]) lines guards s s' ∧
      Private lines s s' := by
  obtain ⟨-, -, body⟩ := perform_eq_ok run fine.1
  have renamed : Kept tidy.scope s { s with operation := op.name } :=
    kept_update s _ _ _ _ _ _ rfl rfl le_rfl
  have tidy' := tidy.named op.name
  have ordinary (h : op.Ordinary) (targets : Action.targets [.perform op] = []) :
      Tidy c s' ∧ ∃ lines guards, Advanced c (Action.targets [.perform op]) lines guards s s' ∧
        Private lines s s' := by
    have kept := (keeps_body h (fun _ => trivial) _ u s' (renamed.opened tidy.opened) body).1
    rw [targets]
    exact (renamed.trans kept).advanced tidy
  cases op with
  | yield =>
    obtain ⟨-, top, rest, -, suspends⟩ := yield_eq_ok body fine.1
    obtain ⟨tidy'', advanced, inner⟩ := yield_advanced tidy' rfl suspends rfl rfl rfl
    exact ⟨tidy'', _, _, advanced.unnamed, inner⟩
  | yieldFrom =>
    obtain ⟨rest, result, behind, suspends⟩ := yieldFrom_eq_ok body fine.1
    obtain ⟨tidy'', advanced, inner⟩ := yieldFrom_advanced tidy' behind rfl suspends rfl rfl rfl
    exact ⟨tidy'', _, _, advanced.unnamed, inner⟩
  | openRegion region =>
    obtain ⟨-, h, s₁, upper, start, handled, opens⟩ := openRegion_eq_ok body fine.1
    obtain ⟨tidy'', stop, target, -, -, advanced, inner⟩ :=
      openRegion_advanced tidy' handled opens
    exact ⟨tidy'', _, _, advanced.unnamed, inner⟩
  | _ => exact ordinary trivial rfl

/-- What an action adds. Every label that it marks belongs to no source offset, or the action is the
visit of that offset. -/
theorem advanced_run {a : Action} (tidy : Tidy c s) (run : a.run c.function s = (.ok u, s'))
    (fine : s'.Fine) :
    Tidy c s' ∧ ∃ lines guards, Advanced c (Action.targets [a]) lines guards s s' ∧
      ∀ l, .mark l ∈ lines → s'.Inner l ∨ ∃ o given, a = .visit o given ∧ s'.labels[o]? = some l := by
  cases a with
  | visit o given =>
    have visited := atOffset_eq_ok run fine.1
    obtain ⟨tidy', l, label, advanced⟩ := visited.advanced tidy
    refine ⟨tidy', _, _, advanced, fun l' mem => .inr ⟨o, given, rfl, ?_⟩⟩
    rcases List.mem_cons.mp mem with same | mem
    · cases same
      exact label
    · cases found : s.handlers[o]? with
      | none =>
        rw [found] at mem
        cases mem
      | some h =>
        rw [found] at mem
        have loud := mark_mem_loud mem
        rw [Option.elim_some, loud_handler] at loud
        simp at loud
  | perform op =>
    obtain ⟨tidy', lines, guards, advanced, inner⟩ := perform_advanced tidy run fine
    exact ⟨tidy', lines, guards, advanced, fun l mem => .inl (inner l mem).2⟩
  | spell types =>
    obtain ⟨tidy', advanced⟩ := spell_advanced tidy run
    exact ⟨tidy', _, _, advanced, by simp⟩

/-- What actions add. Every label that they mark belongs to no source offset, or to one that they
visit. -/
theorem advanced_actions {actions : List Action} (tidy : Tidy c s)
    (run : actions.forM Action.run c.function s = (.ok u, s'))
    (fine : s'.Fine) :
    Tidy c s' ∧ ∃ lines guards, Advanced c (Action.targets actions) lines guards s s' ∧
      ∀ l, .mark l ∈ lines →
        s'.Inner l ∨ ∃ o given, .visit o given ∈ actions ∧ s'.labels[o]? = some l := by
  induction actions generalizing s with
  | nil =>
    cases run
    exact ⟨tidy, _, _, .refl _, by simp⟩
  | cons a actions ih =>
    obtain ⟨_, s₁, first, later⟩ := bind_eq_ok (x := a.run) run
    obtain ⟨tidy₁, lines, guards, advanced, marks⟩ :=
      advanced_run tidy first (Action.fine_of_forM later fine)
    obtain ⟨tidy', more, others, advanced', marks'⟩ := ih tidy₁ later
    have both := advanced.trans advanced'
    rw [Action.targets, Action.targets, ← List.filterMap_append] at both
    refine ⟨tidy', _, _, both, fun l mem => ?_⟩
    rcases List.mem_append.mp mem with mem | mem
    · rcases marks l mem with inner | ⟨o, given, rfl, label⟩
      · exact .inl (inner.mono advanced'.labelled advanced'.labels)
      · exact .inr ⟨o, given, List.mem_cons_self, advanced'.labelled.sources o l label⟩
    · rcases marks' l mem with inner | ⟨o, given, mem, label⟩
      · exact .inl inner
      · exact .inr ⟨o, given, List.mem_cons_of_mem a mem, label⟩

end HostLowering.Lower
