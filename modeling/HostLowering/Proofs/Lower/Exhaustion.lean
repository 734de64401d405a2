import HostLowering.Proofs.Lower.Places

set_option autoImplicit false

/-! # The end of an iteration

Operations that advance an iterator hold their own entry of the exception table for the end of the
iteration. Each of them writes one stretch of code with labels of its own: the lines that advance the
iterator, some more, and the handler (`Guards`). Every other entry begins, ends and leads outside that
stretch, so one that covers the iterator's call spans all of it and stands behind the operation's own
entry in the table (`Cut.around`), and none leads to the operation's handler.
-/

namespace HostLowering.Lower

set_option synthInstance.maxSize 1000000

open Machine Object Catalog Lowering Library

variable {c : Source} {r : Registry} {s s' s'' : State} {u : Unit} {lines more : List Line}
  {n : Nat} {target : Int}

/-! ## Additions -/

/-- Lines, labels and entries of the exception table have been added. -/
structure Adds (c : Source) (lines : List Line) (fresh : Nat) (guards : List PendingHandler)
    (s s' : State) : Prop where
  wrote : Wrote c.refs lines fresh guards s.assembler s'.assembler
  labelled : Labelled s s'
  registry : s'.registry = s.registry
  failure : s'.failure = s.failure

theorem Adds.trans {n' : Nat} {gs gs' : List PendingHandler} (h : Adds c lines n gs s s')
    (h' : Adds c more n' gs' s' s'') : Adds c (lines ++ more) (n + n') (gs ++ gs') s s'' where
  wrote := h.wrote.trans h'.wrote
  labelled := h.labelled.trans h'.labelled h.wrote.le_labels h'.wrote.le_labels
  registry := h'.registry.trans h.registry
  failure := h'.failure.trans h.failure

theorem Emitted.adds {gs : List PendingHandler} (h : Emitted c lines n gs s s') :
    Adds c lines n gs s s' :=
  ⟨h.wrote, h.labelled, h.registry, h.failure⟩

theorem Worked.adds (h : Worked c lines s s') : Adds c lines 0 [] s s' := by
  refine ⟨h.wrote, h.labelled, h.registry, ?_⟩
  obtain ⟨a, st, p, rfl, -⟩ := h
  rfl

instance (n : Nat) : Works c r (drop n) [] := by
  constructor
  intro s u s' _ run
  replace run := rest_of_ok run rfl
  split at run
  · exact .of run
  · cases run

instance (t : Option TypeRef) : Works c r (pushType? t) [] := works_of_stack fun _ => rfl

theorem alloc_worked {k : Kind} {i : Int} (run : alloc k c.function s = (.ok i, s')) :
    Worked c [] s s' := by
  obtain ⟨-, pool, rfl, base, reserved, -, le, -⟩ := alloc_eq_ok run
  exact ⟨s.assembler, s.stack, pool, rfl, .refl _, base, reserved, le⟩

theorem ownerClass_eq_ok {sig : Signature} {cls : String} {f : Function}
    (run : ownerClass sig f s = (.ok cls, s')) : s' = s := by
  unfold ownerClass at run
  cases owner : sig.owner with
  | some t =>
    rw [owner] at run
    cases run
    rfl
  | none =>
    rw [owner] at run
    cases run

def copyLines (r : Registry) (ts : List Temp) : List Line :=
  storeLines (ts.map (Temp.place r)) ++ fetchLines (ts.reverse.map (Temp.place r))

theorem copyOut_eq_ok {n : Int} {ts : List Temp}
    (run : copyOut n c.function s = (.ok ts, s')) :
    Worked c (copyLines s.registry ts) s s' := by
  obtain ⟨ts', s₁, spills, run⟩ := bind_eq_ok run
  obtain ⟨_, s₂, reloads, run⟩ := bind_eq_ok run
  cases run
  obtain ⟨spilled, -⟩ := spill_eq_ok spills
  have reloaded := Worked.of (c := c) reloads
  rw [spilled.registry] at reloaded
  exact spilled.trans reloaded

/-- A branch to a source offset. -/
theorem jumpTo_eq_ok {op : Opcode} (shape : op.shape = .branch)
    (run : jumpTo op target c.function s = (.ok u, s')) (fine : s'.failure = none) :
    ∃ l fresh, s'.labels[target]? = some l ∧ Adds c [.branch op l] fresh [] s s' := by
  replace run := rest_of_ok run rfl
  split at run
  · exact absurd fine (failed_of_fail run)
  · have branches {t : State} (same : t.assembler = s.assembler ∧ t.labels = s.labels ∧
        t.registry = s.registry ∧ t.failure = s.failure)
        (run : (do
          let l ← offsetLabel target
          branch op l : Lowering Unit) c.function t = (.ok u, s')) :
        ∃ l fresh, s'.labels[target]? = some l ∧ Adds c [.branch op l] fresh [] s s' := by
      obtain ⟨l, t₁, found, run⟩ := bind_eq_ok run
      obtain ⟨label, labelled, ⟨fresh, wrote⟩, a, labels, rfl⟩ := wrote_offsetLabel (c := c) found
      have branches : Branches op := ⟨shape⟩
      have e := Emitted.of (c := c) run
      have later := labelled.trans e.labelled wrote.le_labels e.wrote.le_labels
      obtain ⟨assembler, labels_, registry, failure⟩ := same
      refine ⟨l, fresh + 0, e.labelled.sources _ _ label, ?_, ⟨?_, ?_, ?_⟩, e.registry.trans registry,
        e.failure.trans failure⟩
      · rw [← assembler]
        exact wrote.trans e.wrote
      · rw [← labels_]
        exact later.sources
      · rw [← labels_, ← assembler]
        exact later.newer
      · rw [← labels_, ← assembler]
        exact later.apart
    cases found : s.expected[target]? with
    | some e =>
      simp only [found] at run
      replace run := rest_of_ok run rfl
      split at run
      · exact branches ⟨rfl, rfl, rfl, rfl⟩ run
      · replace run := rest_of_ok run rfl
        replace run := rest_of_ok run rfl
        obtain ⟨_, _, failed, run⟩ := bind_eq_ok run
        cases run
        exact absurd fine (failed_of_fail failed)
    | none =>
      simp only [found] at run
      obtain ⟨_, t₁, updated, run⟩ := bind_eq_ok run
      obtain ⟨-, rfl⟩ := Prod.mk.inj updated
      exact branches (t := { s with expected := s.expected.insert target s.stack })
        ⟨rfl, rfl, rfl, rfl⟩ run

/-! ## Operations that advance an iterator -/

/-- Lines of which some are guarded by an entry of the exception table. -/
def guardLines (g : PendingHandler) (head guarded between tail : List Line) : List Line :=
  head ++ .mark g.start :: (guarded ++ .mark g.stop :: (between ++ .mark g.target :: tail))

/-- What an operation leaves behind that handles the end of an iteration itself. -/
def Guards (c : Source) (guarded handler : List Line) (s s' : State) : Prop :=
  ∃ g head between rest, g.catches = stopIterationClass ∧ 0 < codeSize between ∧
    (∃ fresh, Wrote c.refs (guardLines g head guarded between (handler ++ rest)) fresh [g]
      s.assembler s'.assembler) ∧
    Private (guardLines g head guarded between (handler ++ rest)) s s'

theorem mark_mem_guardLines {g : PendingHandler} {head guarded between tail : List Line} {l : Label} :
    .mark l ∈ guardLines g head guarded between tail ↔ .mark l ∈ head ∨ l = g.start ∨
      .mark l ∈ guarded ∨ l = g.stop ∨ .mark l ∈ between ∨ l = g.target ∨ .mark l ∈ tail := by
  simp [guardLines]

theorem unmarked_of_loud (h : loud lines = []) : Unmarked lines := by
  intro l mem
  have heard := mark_mem_loud mem
  rw [h] at heard
  cases heard

section Unmarked

variable {l : Label}

@[simp] theorem mark_notMem_store (slots : List (Kind × Int)) : .mark l ∉ storeLines slots := by
  intro mem
  obtain ⟨x, -, same⟩ := mem_storeLines mem
  cases same

@[simp] theorem mark_notMem_fetch (slots : List (Kind × Int)) : .mark l ∉ fetchLines slots :=
  unmarked_of_loud (loud_fetch slots) l

@[simp] theorem mark_notMem_copy (r : Registry) (ts : List Temp) : .mark l ∉ copyLines r ts := by
  simp [copyLines]

@[simp] theorem mark_notMem_callUnary (method : String) : .mark l ∉ callUnaryLines method :=
  unmarked_of_loud (loud_callUnary method) l

@[simp] theorem mark_notMem_callOne : .mark l ∉ callOneLines := unmarked_of_loud loud_callOne l

end Unmarked

/-- Labels that are made before any source offset gets a new one are an operation's own. -/
theorem guards_of_adds {t t' : State} {g : PendingHandler} {k : Nat}
    {head guarded handler : List Line} (between rest : List Line) (sources : s.Sourced)
    (first : Worked c head s t) (labels : Emitted c [] n [] t t') (later : Adds c lines k [g] t' s')
    (catches : g.catches = stopIterationClass) (size : 0 < codeSize between)
    (split : head ++ lines = guardLines g head guarded between (handler ++ rest))
    (made : ∀ l : Nat, .mark l ∈ head ++ lines →
      t.assembler.labels.size ≤ l ∧ l < t.assembler.labels.size + n) :
    Guards c guarded handler s s' := by
  have before := first.adds.trans labels.adds
  rw [List.append_nil] at before
  have same : t'.labels = s.labels := by
    obtain ⟨a, st, p, rfl, -⟩ := first
    obtain ⟨a', rfl, -⟩ := labels
    rfl
  refine ⟨g, head, between, rest, catches, size, ⟨_, split ▸ before.wrote.trans later.wrote⟩, ?_⟩
  intro l mem
  obtain ⟨new, old⟩ := made l (split ▸ mem)
  rw [← labels.wrote.labels] at old
  rw [show t.assembler.labels.size = s.assembler.labels.size from first.wrote.labels] at new
  refine ⟨new, State.Inner.mono ⟨old, fun o found => ?_⟩ later.labelled later.wrote.le_labels⟩
  rw [same] at found
  exact absurd (sources o l found) (Nat.not_lt.mpr new)

theorem forIter_eq_ok (sources : s.Sourced)
    (run : forIter target c.function s = (.ok u, s')) (fine : s'.failure = none) :
    ∃ kept l, s'.labels[target]? = some l ∧ Guards c (.plain .dup :: callUnaryLines "__next__")
      (.plain .pop :: (fetchLines kept ++ [.branch .goto l])) s s' := by
  replace run := rest_of_ok run rfl
  obtain ⟨ts, s₁, copied, run⟩ := bind_eq_ok run
  obtain ⟨start, t₁, n₁, l₁, run⟩ := newLabel_first run
  obtain ⟨ended, t₂, n₂, l₂, run⟩ := l₁.label run
  obtain ⟨exhausted, t₃, n₃, l₃, run⟩ := l₂.label run
  obtain ⟨continued, t₄, n₄, l₄, run⟩ := l₃.label run
  obtain ⟨u₁, e₁, run⟩ := Begins.rest (c := c) run
  obtain ⟨_, u₂, guarded, run⟩ := bind_eq_ok run
  have e₂ := emitted_tryCatch (c := c) guarded
  obtain ⟨u₃, e₃, run⟩ := Begins.rest (c := c) run
  replace run := rest_of_ok run rfl
  obtain ⟨u₄, w₄, run⟩ := Works.first (c := c) run
  obtain ⟨u₅, w₅, run⟩ := Works.first (c := c) run
  obtain ⟨_, u₆, jumped, run⟩ := bind_eq_ok run
  have ends : Worked c [.mark continued] u₆ s' := .of run
  obtain ⟨l, fresh, label, jumps⟩ := jumpTo_eq_ok rfl jumped (ends.adds.failure ▸ fine)
  have w₁ := copyOut_eq_ok copied
  have later := e₁.adds.trans <| e₂.adds.trans <| e₃.adds.trans <| w₄.adds.trans <|
    w₅.adds.trans <| jumps.trans ends.adds
  refine ⟨(ts.drop 1).reverse.map (Temp.place u₄.registry), l, ends.adds.labelled.sources _ _ label,
    guards_of_adds [.branch .goto continued] [.mark continued] sources w₁ l₄ later rfl
      (by simp [Line.size]) ?_ fun l mem => ?_⟩
  · simp [guardLines]
  · simp at mem
    rcases mem with rfl | rfl | rfl | rfl <;> omega

/-- The lines that send a value to a receiver, or advance it for the value none. -/
def sendingLines (value receiver : Kind × Int) (useNext got : Label) : List Line :=
  .load value.1 value.2.toNat :: .onField .getstatic noneField :: .branch .ifAcmpeq useNext ::
    .load receiver.1 receiver.2.toNat :: .text "send" :: callLine getAttributeOrError ::
      .load value.1 value.2.toNat :: (callOneLines ++ .branch .goto got :: .mark useNext ::
        .load receiver.1 receiver.2.toNat :: (callUnaryLines "__next__" ++ [.mark got]))

theorem send_eq_ok (sources : s.Sourced) (run : send target c.function s = (.ok u, s'))
    (fine : s'.failure = none) :
    ∃ value receiver useNext got kept result l, s'.labels[target]? = some l ∧
      Guards c (sendingLines value receiver useNext got)
        (.onClass .checkcast stopIterationClass :: callLine stopIterationValue :: .store .ref result ::
          (fetchLines kept ++ [.load .ref result, .branch .goto l])) s s' := by
  replace run := rest_of_ok run rfl
  obtain ⟨ts, s₁, copied, run⟩ := bind_eq_ok run
  split at run
  · rename_i value receiver rest
    obtain ⟨start, t₁, n₁, l₁, run⟩ := newLabel_first run
    obtain ⟨ended, t₂, n₂, l₂, run⟩ := l₁.label run
    obtain ⟨exhausted, t₃, n₃, l₃, run⟩ := l₂.label run
    obtain ⟨useNext, t₄, n₄, l₄, run⟩ := l₃.label run
    obtain ⟨got, t₅, n₅, l₅, run⟩ := l₄.label run
    obtain ⟨continued, t₆, n₆, l₆, run⟩ := l₅.label run
    obtain ⟨u₁, e₁, run⟩ := Begins.rest (c := c) run
    obtain ⟨_, u₂, guarded, run⟩ := bind_eq_ok run
    have e₂ := emitted_tryCatch (c := c) guarded
    obtain ⟨u₃, e₃, run⟩ := Begins.rest (c := c) run
    obtain ⟨result, _, took, run⟩ := bind_eq_ok run
    obtain ⟨-, taken, rfl, -⟩ := alloc_eq_ok took
    obtain ⟨u₄, e₄, run⟩ := Begins.rest (c := c) run
    obtain ⟨yielding, _, got', run⟩ := bind_eq_ok run
    cases got'
    obtain ⟨u₅, w₅, run⟩ := Works.first (c := c) run
    obtain ⟨u₆, w₆, run⟩ := Works.first (c := c) run
    obtain ⟨u₇, w₇, run⟩ := Works.first (c := c) run
    obtain ⟨u₈, w₈, run⟩ := Works.first (c := c) run
    obtain ⟨u₉, w₉, run⟩ := Works.first (c := c) run
    obtain ⟨_, v₁, jumped, run⟩ := bind_eq_ok run
    have ends : Worked c [.mark continued] v₁ s' := .of run
    obtain ⟨l, fresh, label, jumps⟩ := jumpTo_eq_ok rfl jumped (ends.adds.failure ▸ fine)
    have w₁ := copyOut_eq_ok copied
    have allocates : Adds c [] 0 [] u₃ { u₃ with pool := taken } :=
      ⟨.refl _, labelled_of_eq rfl, rfl, rfl⟩
    have later := e₁.adds.trans <| e₂.adds.trans <| e₃.adds.trans <| allocates.trans <|
      e₄.adds.trans <| w₅.adds.trans <| w₆.adds.trans <| w₇.adds.trans <| w₈.adds.trans <|
      w₉.adds.trans <| jumps.trans ends.adds
    refine ⟨value.place t₆.registry, receiver.place t₆.registry, useNext, got,
      rest.reverse.map (Temp.place u₅.registry), result.toNat, l,
      ends.adds.labelled.sources _ _ label, guards_of_adds [.plain .swap, .plain .pop,
        .branch .goto continued] [.mark continued] sources w₁ l₆ later rfl (by simp [Line.size]) ?_
        fun l mem => ?_⟩
    · simp [guardLines, sendingLines, Temp.place]
    · simp [callLine] at mem
      rcases mem with rfl | rfl | rfl | rfl | rfl | rfl <;> omega
  · cases run

/-- The lines that advance the iterator in a local. -/
def nextOfLines (it : Int) : List Line := .load .ref it.toNat :: callUnaryLines "__next__"

instance (it : Int) : Writes c r (nextOf it) (nextOfLines it) := by
  unfold nextOf
  infer_instance

/-- The lines that take items from an iterator and count them. -/
def unpackLines (it size : Int) (items : List Int) : List Line :=
  items.flatMap (fun i => nextOfLines it ++ [.store .ref i.toNat, .increment size.toNat 1]) ++
    nextOfLines it

/-- The lines that check how many items there were. -/
def countLines (n size : Int) (done : Label) : List Line :=
  [.plain .pop, .load .int size.toNat, .word (.ofInt n), .branch .ifIcmpge done, .word (.ofInt n),
    .load .int size.toNat, .invoke .invokestatic unpackTooFewError, .plain .athrow]

theorem peek_eq_ok {d : Int} {slot : Slot} {f : Function} (run : peek d f s = (.ok slot, s')) :
    s.stack.peek d = .ok slot ∧ s' = s := by
  replace run := rest_of_ok run rfl
  cases found : s.stack.peek d with
  | ok slot' =>
    rw [found] at run
    cases run
    exact ⟨rfl, rfl⟩
  | error e =>
    rw [found] at run
    cases run

theorem peekType_eq_ok {d : Int} {t : TypeRef} {f : Function}
    (run : peekType d f s = (.ok t, s')) :
    ∃ slot, s.stack.peek d = .ok slot ∧ t = slot.known ∧ s' = s := by
  obtain ⟨slot, s₁, peeks, run⟩ := bind_eq_ok run
  cases run
  obtain ⟨found, rfl⟩ := peek_eq_ok peeks
  exact ⟨slot, found, rfl, rfl⟩

/-- A protocol method without arguments is called in one way or the other. -/
theorem unary_eq_ok {method : String} (known : ∀ sig, s.registry.Knows sig → sig.method ∈ c.refs)
    (run : unary method c.function s = (.ok u, s')) :
    ∃ lines, Worked c lines s s' ∧ Unmarked lines := by
  obtain ⟨t, s₁, peeked, calls⟩ := bind_eq_ok run
  obtain ⟨slot, -, -, rfl⟩ := peekType_eq_ok peeked
  obtain ⟨found, s₂, looked, calls⟩ := bind_eq_ok calls
  rw [direct?_eq] at looked
  cases looked
  cases found : directMethod? c.function s₁.registry t method [] with
  | some sig =>
    rw [found] at calls
    obtain ⟨cls, s₂, owned, invokes⟩ := bind_eq_ok calls
    obtain rfl := ownerClass_eq_ok owned
    have named := known sig (knows_of_directMethod? found)
    have invoked : Writes c s₂.registry (invokeSignature sig) _ :=
      writes_invokeBy sig.isInvoke_opcode named
    exact ⟨_, .of invokes, fun l => by simp [castLines]⟩
  | none =>
    rw [found] at calls
    exact ⟨_, .of calls, fun l => by simp⟩

theorem allocs_eq_ok {α : Type} {xs : List α} {items : List Int}
    (run : (xs.mapM fun _ => allocRef) c.function s = (.ok items, s')) :
    items.length = xs.length ∧ Worked c [] s s' := by
  induction xs generalizing items s with
  | nil =>
    cases run
    exact ⟨rfl, .refl _⟩
  | cons x xs ih =>
    rw [List.mapM_cons] at run
    obtain ⟨i, s₁, took, run⟩ := bind_eq_ok run
    obtain ⟨rest, s₂, more, run⟩ := bind_eq_ok run
    cases run
    obtain ⟨length, worked⟩ := ih more
    exact ⟨congrArg Nat.succ length, (alloc_worked took).trans worked⟩

theorem unpack_eq_ok {n : Int} (sources : s.Sourced)
    (known : ∀ sig, s.registry.Knows sig → sig.method ∈ c.refs)
    (run : unpack n c.function s = (.ok u, s')) (fine : s'.failure = none) :
    ∃ it size items done, items.length = n.toNat ∧
      Guards c (unpackLines it size items) (countLines n size done) s s' := by
  unfold unpack at run
  split at run
  · exact absurd fine (failed_of_fail run)
  replace run := rest_of_ok run rfl
  obtain ⟨ts, s₁, spills, run⟩ := bind_eq_ok run
  obtain ⟨w₁, -⟩ := spill_eq_ok spills
  obtain ⟨s₂, w₂, run⟩ := Works.first (c := c) run
  obtain ⟨_, s₃, called, run⟩ := bind_eq_ok run
  obtain ⟨iter, w₃, unmarked⟩ := unary_eq_ok (c := c)
    (by rw [w₂.registry, w₁.registry]; exact known) called
  obtain ⟨it, s₄, took, run⟩ := bind_eq_ok run
  have w₄ := alloc_worked (c := c) took
  obtain ⟨s₅, w₅, run⟩ := Works.first (c := c) run
  obtain ⟨s₆, w₆, run⟩ := Works.first (c := c) run
  obtain ⟨size, s₇, took, run⟩ := bind_eq_ok run
  have w₇ := alloc_worked (c := c) took
  obtain ⟨s₈, e₈, run⟩ := Begins.rest (c := c) run
  split at run
  · obtain ⟨_, _, stopped, -⟩ := bind_eq_ok run
    cases stopped
  obtain ⟨items, s₁₀, made, run⟩ := bind_eq_ok run
  obtain ⟨length, w₁₀⟩ := allocs_eq_ok (c := c) made
  obtain ⟨start, t₁, n₁, l₁, run⟩ := newLabel_first run
  obtain ⟨stop, t₂, n₂, l₂, run⟩ := l₁.label run
  obtain ⟨exhausted, t₃, n₃, l₃, run⟩ := l₂.label run
  obtain ⟨done, t₄, n₄, l₄, run⟩ := l₃.label run
  obtain ⟨u₁, e₁, run⟩ := Begins.rest (c := c) run
  obtain ⟨_, u₂, guarded, run⟩ := bind_eq_ok run
  have e₂ := emitted_tryCatch (c := c) guarded
  have ends := Worked.of (c := c) run
  have prepares := w₁.trans <| w₂.trans <| w₃.trans <| w₄.trans <| w₅.trans <| w₆.trans <|
    w₇.trans <| e₈.worked.trans w₁₀
  have later := e₁.adds.trans <| e₂.adds.trans ends.adds
  refine ⟨it, size, items, done, by simpa using length, guards_of_adds
    [.plain .pop, .word (.ofInt n), .invoke .invokestatic unpackTooManyError, .plain .athrow]
    (.mark done :: (fetchLines ((ts.drop 1).reverse.map (Temp.place u₂.registry)) ++
      items.reverse.map fun i => .load .ref i.toNat))
    sources prepares l₄ later rfl (by simp [Line.size]) ?_ fun l mem => ?_⟩
  · simp [guardLines, unpackLines, countLines, ← List.map_eq_flatMap]
  · have quiet := unmarked l
    simp [quiet, nextOfLines] at mem
    rcases mem with rfl | rfl | rfl | rfl <;> omega

/-- The lines in which an operation advances an iterator, the ones to which it goes on when the
iteration has ended, and the source offset to which these lead, if there is one, with its label. -/
inductive Operation.Advances : Operation → List Line → List Line → Option (Int × Label) → Prop
  | forIter (target : Int) (kept : List (Kind × Int)) (l : Label) :
      Advances (.forIter target) (.plain .dup :: callUnaryLines "__next__")
        (.plain .pop :: (fetchLines kept ++ [.branch .goto l])) (some (target, l))
  | unpack (it size : Int) (items : List Int) (n : Int) (done : Label)
      (length : items.length = n.toNat) :
      Advances (.unpack n) (unpackLines it size items) (countLines n size done) none
  | send (target : Int) (value receiver : Kind × Int) (useNext got : Label)
      (kept : List (Kind × Int)) (result : Nat) (l : Label) :
      Advances (.send target) (sendingLines value receiver useNext got)
        (.onClass .checkcast stopIterationClass :: callLine stopIterationValue ::
          .store .ref result :: (fetchLines kept ++ [.load .ref result, .branch .goto l]))
        (some (target, l))
  | yieldFrom (d : Delegation) (r : Registry) (rest : Snapshot) (result : Int) :
      Advances .yieldFrom (d.throwLines ++ (d.sendLines ++ (d.nextLines ++ [.mark d.got])))
        (d.exhaustedLines r rest result).tail none

section Advances

variable {op : Operation} {guarded handler : List Line} {exit : Option (Int × Label)}

/-- There is something to go on with. -/
theorem Operation.Advances.pos (h : op.Advances guarded handler exit) : 0 < codeSize handler := by
  cases h <;> simp [countLines, Delegation.exhaustedLines, callLine, Line.size]

theorem Operation.Advances.leaves {o : Int} {l : Label}
    (h : op.Advances guarded handler (some (o, l))) : .branch .goto l ∈ handler := by
  cases h <;> simp

end Advances

theorem yieldFrom_guards (tidy : Tidy c s)
    (run : yieldFrom c.function s = (.ok u, s')) (fine : s'.failure = none) :
    ∃ guarded handler, Operation.Advances .yieldFrom guarded handler none ∧
      Guards c guarded handler s s' := by
  obtain ⟨rest, result, behind, suspends⟩ := yieldFrom_eq_ok run fine
  obtain ⟨-, advanced, inner⟩ := yieldFrom_advanced tidy behind rfl suspends rfl rfl rfl
  generalize Delegation.from s.assembler.labels.size = d at advanced inner
  have split : d.lines s.registry rest (c.function.frame s.pool) s.nextState result =
      guardLines d.guard (writeLines sentValue ++ (writeLines yieldFromIterator ++
        (saveLines rest.length (c.function.frame s.pool) s.nextState ++ [.mark d.resume])))
        (d.throwLines ++ (d.sendLines ++ (d.nextLines ++ [.mark d.got])))
        (writeLines yieldedValue ++ (stateLines s.nextState ++ .plain .returnVoid ::
          d.noThrowLines))
        ((d.exhaustedLines s.registry rest result).tail ++ []) := by
    simp [Delegation.lines, Delegation.loopLines, Delegation.gotLines, Delegation.exhaustedLines,
      guardLines, Delegation.guard]
  rw [split] at advanced inner
  exact ⟨_, _, .yieldFrom d s.registry rest result, d.guard, _, _, _, rfl,
    by simp [writeLines, Line.size], advanced.wrote, inner⟩

theorem Operation.Iterates.guards {op : Operation} (iterates : op.Iterates) (tidy : Tidy c s)
    (run : op.perform c.function s = (.ok u, s')) (fine : s'.Fine) :
    ∃ guarded handler exit, op.Advances guarded handler exit ∧
      (∀ o l, exit = some (o, l) → s'.labels[o]? = some l) ∧ Guards c guarded handler s s' := by
  obtain ⟨-, -, body⟩ := perform_eq_ok run fine.1
  have tidy' := tidy.named op.name
  cases op with
  | forIter target =>
    obtain ⟨kept, l, label, guards⟩ := forIter_eq_ok tidy'.sources body fine.1
    exact ⟨_, _, _, .forIter target kept l, by rintro _ _ ⟨⟩; exact label, guards⟩
  | unpack n =>
    obtain ⟨it, size, items, done, length, guards⟩ :=
      unpack_eq_ok tidy'.sources tidy'.registry body fine.1
    exact ⟨_, _, _, .unpack it size items n done length, by simp, guards⟩
  | send target =>
    obtain ⟨value, receiver, useNext, got, kept, result, l, label, guards⟩ :=
      send_eq_ok tidy'.sources body fine.1
    exact ⟨_, _, _, .send target value receiver useNext got kept result l,
      by rintro _ _ ⟨⟩; exact label, guards⟩
  | yieldFrom =>
    obtain ⟨guarded, handler, advances, guards⟩ := yieldFrom_guards tidy' body fine.1
    exact ⟨guarded, handler, none, advances, by simp, guards⟩
  | _ => exact iterates.elim

/-! ## The entry of an operation -/

section Entry

variable {m : Method} {a : Action} {after : List Action} {s₁ s₂ s₃ : State}
  {front back ending head guarded between tail : List Line} {newer : List PendingHandler}
  {g : PendingHandler} {fresh : Nat}

theorem mark_reads_iff {pool : Pool} {place : Label → Option Nat} {p : Nat} {l : Label} :
    Line.Reads m pool place p (.mark l) ↔ place l = some p :=
  ⟨fun | .mark known => known, .mark⟩

/-- Where the lines that are guarded by an entry begin, behind others. -/
def guardStart (front head : List Line) : Nat := codeSize front + codeSize head

/-- Where an entry leads. -/
def guardTarget (front head guarded between : List Line) : Nat :=
  guardStart front head + codeSize guarded + codeSize between

variable (cut : Cut c m a after s₁ s₂ s₃ s front back ending newer)
  (wrote : Wrote c.refs (guardLines g head guarded between tail) fresh [g] s₁.assembler s₂.assembler)

include cut wrote

/-- The labels of an entry stand around the lines that it guards and in front of those that it
leads to. -/
theorem Cut.entry : s.assembler.position? g.start = some (guardStart front head) ∧
    s.assembler.position? g.stop = some (guardStart front head + codeSize guarded) ∧
      s.assembler.position? g.target = some (guardTarget front head guarded between) ∧
        ReadsFrom m s.assembler.pool s.assembler.position? (guardStart front head) guarded ∧
          ReadsFrom m s.assembler.pool s.assembler.position?
            (guardTarget front head guarded between) tail := by
  have reads := cut.reads wrote
  simp only [guardLines, readsFrom_append, ReadsFrom, mark_reads_iff, Line.size, Nat.add_zero,
    Nat.zero_add] at reads
  obtain ⟨-, ⟨-, start, within, stop, -, target, handler⟩, -⟩ := reads
  exact ⟨start, stop, target, within, handler⟩

/-- Another entry begins, ends and leads outside the lines of the operation. -/
theorem Cut.elsewhere (inner : Private (guardLines g head guarded between tail) s₁ s₂)
    {g' : PendingHandler} (mem : g' ∈ s.assembler.handlers.toList) (other : g' ≠ g) {l : Label}
    (hl : l ∈ guardLabels g') {p : Nat} (place : s.assembler.position? l = some p) :
    p ≤ codeSize front ∨
      codeSize front + codeSize (guardLines g head guarded between tail) ≤ p := by
  refine cut.outside wrote inner ?_ hl place
  rw [cut.handlers wrote, List.singleton_append, List.mem_append, List.mem_cons] at mem
  rcases mem with old | own | new
  · exact List.mem_append_left _ old
  · exact absurd own other
  · exact List.mem_append_right _ new

/-- Another entry that covers some of the guarded lines covers all lines of the operation. -/
theorem Cut.around (inner : Private (guardLines g head guarded between tail) s₁ s₂)
    {g' : PendingHandler} {h : Handler} (mem : g' ∈ s.assembler.handlers.toList) (other : g' ≠ g)
    (resolved : s.assembler.resolve g' = .ok h) {pc : Nat} (le : guardStart front head ≤ pc)
    (lt : pc < guardStart front head + codeSize guarded) (covers : h.covers pc = true) :
    (codeSize (guardLines g head guarded between tail) : Int) ≤ h.span := by
  obtain ⟨start, stop, target, hs, he, -, rfl⟩ := resolve_eq_ok_iff.mp resolved
  have first := cut.elsewhere wrote inner mem other (l := g'.start) (by simp [guardLabels]) hs
  have last := cut.elsewhere wrote inner mem other (l := g'.stop) (by simp [guardLabels]) he
  simp only [Handler.covers, Bool.and_eq_true, decide_eq_true_eq] at covers
  simp only [Handler.span]
  simp only [guardStart, guardLines, codeSize_append, codeSize_cons, Line.size] at *
  omega

variable (catches : g.catches = stopIterationClass)
  (inner : Private (guardLines g head guarded between tail) s₁ s₂) {pc : Nat}
  (le : guardStart front head ≤ pc) (lt : pc < guardStart front head + codeSize guarded)
  {w : World} {e : Value}

include catches inner le lt

/-- The end of an iteration is handled by the operation. -/
theorem Cut.handler?_ended (apart : 0 < codeSize between)
    (ended : w.isHostInstance e stopIterationClass = true) :
    w.handler? m pc e = some ↑(guardTarget front head guarded between) := by
  obtain ⟨start, stop, target, -, -⟩ := cut.entry wrote
  have own : g ∈ s.assembler.handlers.toList := by
    rw [cut.handlers wrote]
    simp
  have found := cut.tabled.find? (q := fun h =>
    h.covers pc && (h.catches == "" || w.isHostInstance e h.catches)) own
    (resolve_eq_ok_iff.mpr ⟨_, _, _, start, stop, target, rfl⟩) (by omega) ?_
    fun g' mem h resolved holds => ?_
  · rw [World.handler?, found]
    rfl
  · simp [Handler.covers, catches, ended]
    omega
  · by_cases same : g' = g
    · exact .inl same
    · right
      rw [Bool.and_eq_true] at holds
      have around := cut.around wrote inner mem same resolved le lt holds.1
      simp only [guardLines, codeSize_append, codeSize_cons, Line.size] at around
      omega

/-- No other exception gets to where the operation handles the end of an iteration. -/
theorem Cut.handler?_other (handles : 0 < codeSize tail)
    (other : w.isHostInstance e stopIterationClass = false) :
    w.handler? m pc e ≠ some ↑(guardTarget front head guarded between) := by
  intro found
  obtain ⟨h, first, leads⟩ := Option.map_eq_some_iff.mp found
  have holds := List.find?_some first
  obtain ⟨g', mem, resolved⟩ := cut.tabled.mem (List.mem_of_find?_eq_some first)
  obtain ⟨start, stop, target, -, -, ht, rfl⟩ := resolve_eq_ok_iff.mp resolved
  by_cases same : g' = g
  · subst same
    have named : (stopIterationClass == "") = false := by decide
    simp [catches, other, named] at holds
  · have outside := cut.elsewhere wrote inner mem same (l := g'.target) (by simp [guardLabels]) ht
    have leads : (target : Int) = guardTarget front head guarded between := leads
    simp only [guardStart, guardTarget, guardLines, codeSize_append, codeSize_cons, Line.size] at *
    omega

end Entry

/-- What a request of the code from `start` up to `stop` raises leads to `target` exactly if it says
that an iteration has ended. -/
def HandlesEnd (m : Method) (start stop target : Nat) : Prop :=
  ∀ (call : Caller) (x x' : Frame) (q : Request) (w w' : World) (e : Value), x.method = m →
    x.step = .ok (.ask q x') → start ≤ x'.current → x'.current < stop →
    Effect.serve call q w = (.error (.raised e), w') →
      if w'.isHostInstance e stopIterationClass then
        Effect.turn call x w = .inr (x'.handle target e, w')
      else ∀ y, Effect.turn call x w = .inr y → y.1.position ≠ target

/-- A branch leads to a place. -/
theorem exists_place {m : Method} {pool : Pool} {place : Label → Option Nat} {p : Nat}
    {lines : List Line} {op : Opcode} {l : Label} (reads : ReadsFrom m pool place p lines)
    (mem : .branch op l ∈ lines) :
    ∃ q, place l = some q := by
  obtain ⟨xs, ys, rfl⟩ := List.append_of_mem mem
  rw [readsFrom_append] at reads
  obtain ⟨-, here, -⟩ := reads
  cases here with
  | branch shape place read => exact ⟨_, place⟩

/-- The end of an iteration does not leak. Whatever regions an operation that advances an iterator
stands in, when the code of the operation that advances the iterator raises the end of the iteration,
the operation goes on with its own handler, which stands behind in its code and leads to where the
source goes on then. No other exception gets there. -/
theorem iteration_ends_inside {f : Function} {before after : List Action} {op : Operation} {m : Method}
    (iterates : op.Iterates) (h : methodBy f r (before ++ .perform op :: after) = .ok (.ok m)) :
    ∃ guarded handler exit, op.Advances guarded handler exit ∧
      ∃ (pool : Pool) (place : Label → Option Nat) (start target : Nat), m.pool = pool.entries ∧
        codeAfter f r before ≤ start ∧ start + codeSize guarded < target ∧
        target + codeSize handler ≤ codeAfter f r (before ++ [.perform op]) ∧
        ReadsFrom m pool place start guarded ∧ ReadsFrom m pool place target handler ∧
        (∀ o l, exit = some (o, l) →
          ∃ p, place l = some p ∧ Placed f r (before ++ .perform op :: after) o p) ∧
          HandlesEnd m start (start + codeSize guarded) target := by
  obtain ⟨s₁, s₂, s₃, s, front, back, ending, newer, reached, passed, ended, cut⟩ :=
    exists_cut (c := ⟨f, Set.univ, fun _ _ => trivial⟩) (fun _ _ => trivial) h
  obtain ⟨guarded, handler, exit, advances, labels, g, head, between, rest, catches, apart,
    ⟨fresh, wrote⟩, inner⟩ := iterates.guards cut.tidy₁ cut.run cut.fine
  obtain ⟨-, -, -, within, handles⟩ := cut.entry wrote
  have leaves := (readsFrom_append.mp handles).1
  have low : codeAfter f r before = codeSize front := (codeAfter_eq reached).trans cut.held.size
  have high : codeAfter f r (before ++ [.perform op]) =
      codeSize front + codeSize (guardLines g head guarded between (handler ++ rest)) := by
    rw [codeAfter_eq passed, (wrote.spelled cut.fine.2 front cut.held).size, codeSize_append]
  refine ⟨guarded, handler, exit, advances, _, _, _, _, cut.built.pool, ?_, ?_, ?_, within, leaves,
    fun o l leads => ?_, ?_⟩
  · rw [low, guardStart]
    omega
  · rw [guardTarget]
    omega
  · rw [high]
    simp only [guardTarget, guardStart, guardLines, codeSize_append, codeSize_cons, Line.size]
    omega
  · subst leads
    obtain ⟨p, place⟩ := exists_place leaves advances.leaves
    have session : Session ⟨f, Set.univ, fun _ _ => trivial⟩ r (before ++ .perform op :: after)
        m s₃ s :=
      ⟨fun _ _ => trivial, h, ended, cut.completed⟩
    exact ⟨p, place, session.placed_of_position
      (cut.later.labelled.sources _ _ (labels o l rfl)) place⟩
  intro call x x' q w w' e method step le lt raised
  obtain ⟨_, _, _, _, _, same, _⟩ := Frame.step_eq_ok step
  have method' : x'.method = m := same.method.trans method
  have handles : 0 < codeSize (handler ++ rest) := by
    rw [codeSize_append]
    exact Nat.add_pos_left advances.pos _
  split
  · rename_i ended
    have found := cut.handler?_ended wrote catches inner le lt apart ended
    simp only [Effect.turn, step, raised, method', found]
  · rename_i other
    intro y turned
    have missed := cut.handler?_other wrote catches inner le lt handles (Bool.not_eq_true _ ▸ other)
    simp only [Effect.turn, step, raised, method'] at turned
    split at turned
    · rename_i t found
      cases turned
      exact fun leads => missed (found.trans (congrArg some leads))
    · cases turned

def looping : Function where
  dialect := some .bare
  verify := false
  argCount := 1
  locals := #[none]

/-- The loop stands in a region around the function and opens another one in each turn. -/
def loopStart : List Action :=
  [.visit 0 [], .perform (.openRegion ⟨3, 4, 0, false⟩), .perform (.loadLocal 0), .perform .getIter,
    .visit 1 [.dynamic], .perform (.openRegion ⟨3, 5, 1, false⟩)]

/-- The body of the loop, its end and the handlers of the regions. -/
def loopEnd : List Action :=
  [.perform .pop, .perform (.jump 1), .visit 3 [], .perform (.loadConst .none),
    .perform .returnValue, .visit 4 [.dynamic], .perform .returnValue,
    .visit 5 [.dynamic, .dynamic], .perform .returnValue]

/-- The loop has its code from 53 up to 103. What its call raises goes to its handler behind the call if
it ends the iteration, and not to the regions around. -/
theorem iteration_ends_inside_looping :
    ∃ m target, methodBy looping .builtin (loopStart ++ .perform (.forIter 3) :: loopEnd) =
      .ok (.ok m) ∧ 90 < target ∧ target < 100 ∧ HandlesEnd m 62 90 target := by
  have some_ : (method? looping .builtin
      (loopStart ++ .perform (.forIter 3) :: loopEnd)).isSome = true := by decide +kernel
  obtain ⟨m, found⟩ := Option.isSome_iff_exists.mp some_
  have lowered := methodBy_of_method? found
  have first : codeAfter looping .builtin loopStart = 53 := by decide +kernel
  have last : codeAfter looping .builtin (loopStart ++ [.perform (.forIter 3)]) = 103 := by decide +kernel
  obtain ⟨guarded, handler, exit, advances, -, -, start, target, -, low, gap, high, -, -, -, ends⟩ :=
    iteration_ends_inside (show Operation.Iterates (.forIter 3) from trivial) lowered
  rw [first] at low
  rw [last] at high
  cases advances with
  | forIter _ kept l =>
    rw [show codeSize (.plain .dup :: callUnaryLines "__next__") = 37 from rfl] at gap ends
    simp only [codeSize_append, codeSize_cons, Line.size] at high
    refine ⟨m, target, lowered, by omega, by omega, fun call x x' q w w' e method step le lt => ?_⟩
    exact ends call x x' q w w' e method step (by omega) (by omega)

end HostLowering.Lower
