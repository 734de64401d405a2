import HostLowering.Object.Run
import HostLowering.Proofs.Machine.Outline
import HostLowering.Proofs.Machine.Table

set_option autoImplicit false

/-!
# The order of the exception table

Exception table entries are registered in any order, with labels that may be marked before or after.
`registers` says what one assembly step registers and `registered_of_steps` that a draft holds the
entries of its steps in order. `table_innermost_first` then says how the table of the method that is
built from the draft is ordered, and which entry a raised exception finds in it.
-/

namespace HostLowering.Machine

variable {d d' : Draft} {es : List NamedHandler} {s : Step} {m : Method} {hs : List Handler}

/-! ## Registering -/

/-- The exception table entries that a step registers. -/
def Step.entries : Step → List NamedHandler
  | .tryCatch start stop target catches => [⟨start, stop, target, catches⟩]
  | _ => []

/-- An entry with the places of its labels, if all of them are marked. -/
def Draft.entry? (d : Draft) (e : NamedHandler) : Option Handler := do
  let start ← d.position? e.start
  let stop ← d.position? e.stop
  let target ← d.position? e.target
  return ⟨start, stop, target, e.catches⟩

theorem Registered.of_handlers {a : Assembler} (registered : Registered es d)
    (handlers : a.handlers = d.assembler.handlers) :
    Registered es { d with assembler := a } := by
  unfold Registered
  rw [handlers]
  exact registered

/-- A step that runs the assembler alone registers nothing, if the assembler does not. -/
theorem Registered.assemble {act : Asm Unit} (registered : Registered es d)
    (perform : s.perform = Drafting.assemble act) (run : d.step s = .ok d')
    (keeps : ∀ {a' : Assembler}, act d.assembler = .ok ((), a') →
      a'.handlers = d.assembler.handlers) : Registered es d' := by
  rw [step_of_perform perform] at run
  cases result : act d.assembler with
  | error e =>
    rw [result] at run
    cases run
  | ok r =>
    rw [result] at run
    cases run
    exact registered.of_handlers (keeps result)

/-- So does a step that gives a label its name first. -/
theorem Registered.label {act : Label → Asm Unit} {n : String} (registered : Registered es d)
    (perform : s.perform = (do Drafting.assemble (act (← Drafting.label n))))
    (run : d.step s = .ok d')
    (keeps : ∀ {l : Label} {a a' : Assembler}, act l a = .ok ((), a') → a'.handlers = a.handlers) :
    Registered es d' := by
  obtain ⟨l, -, same⟩ := step_of_label act perform d
  rw [same] at run
  cases result : act l (d.named n).assembler with
  | error e =>
    rw [result] at run
    cases run
  | ok r =>
    rw [result] at run
    cases run
    exact (registered.named n).of_handlers (keeps result)

theorem Asm.handlers_emitConstant {op : Opcode} {c : Constant} {a a' : Assembler}
    (h : Asm.emitConstant op c a = .ok ((), a')) : a'.handlers = a.handlers := by
  obtain ⟨k, pool, -, rfl⟩ := Asm.emitConstant_eq_ok h
  rfl

/-- One step registers its own entries, behind the ones that are there. -/
theorem registers (registered : Registered es d) (run : d.step s = .ok d') :
    Registered (es ++ s.entries) d' := by
  have unchanged : es = es ++ [] := (List.append_nil es).symm
  cases s with
  | tryCatch start stop target catches =>
    obtain ⟨l₁, run₁, found₁⟩ := d.label_eq start
    obtain ⟨l₂, run₂, found₂⟩ := (d.named start).label_eq stop
    obtain ⟨l₃, run₃, found₃⟩ := ((d.named start).named stop).label_eq target
    unfold Draft.step Step.perform at run
    simp only [StateT.run, bind, StateT.bind, run₁, run₂, run₃, Except.bind] at run
    cases run
    have earlier := ((registered.named start).named stop).named target
    show List.Forall₂ _ _ (Array.toList (Array.push _ _))
    rw [Array.toList_push]
    refine List.rel_append earlier (.cons ⟨?_, ?_, found₃, rfl⟩ .nil)
    · exact Draft.names_named (Draft.names_named found₁)
    · exact Draft.names_named found₂
  | emit op => exact unchanged ▸ registered.assemble rfl run fun h => by cases h; rfl
  | repeated op count =>
    refine unchanged ▸ registered.assemble rfl run fun h => ?_
    cases h
    exact (emit_repeat_fields op count d.assembler).2.2.1
  | word op n => exact unchanged ▸ registered.assemble rfl run fun h => by cases h; rfl
  | slot op i =>
    refine unchanged ▸ registered.assemble rfl run fun h => ?_
    cases h
    exact (emitLocal_fields d.assembler op i).2.2.1
  | increment i step =>
    refine unchanged ▸ registered.assemble rfl run fun h => ?_
    cases h
    exact (emitLocal_fields d.assembler .iinc i).2.2.1
  | int n =>
    refine unchanged ▸ registered.assemble rfl run fun h => ?_
    unfold Asm.pushInt at h
    split at h
    · cases h
      rfl
    · exact Asm.handlers_emitConstant h
  | constant op c => exact unchanged ▸ registered.assemble rfl run Asm.handlers_emitConstant
  | label n =>
    obtain ⟨l, named, -⟩ := d.label_eq n
    unfold Draft.step Step.perform at run
    simp only [StateT.run, bind, StateT.bind, named, Except.bind] at run
    cases run
    exact unchanged ▸ registered.named n
  | mark n => exact unchanged ▸ registered.label rfl run fun h => (marked_of_mark h).handlers
  | jump op n => exact unchanged ▸ registered.label rfl run fun h => (jumped_of_jump h).handlers

/-- A whole run registers the entries of its steps in order. -/
theorem registered_of_steps {steps : List Step} (run : Draft.steps {} steps = .ok d) :
    Registered (steps.flatMap Step.entries) d := by
  induction steps using List.reverseRecOn generalizing d with
  | nil =>
    cases run
    exact .nil
  | append_singleton steps s ih =>
    rw [Draft.steps_append] at run
    obtain ⟨before, ran, step⟩ := except_bind_eq_ok run
    rw [List.flatMap_append, List.flatMap_singleton]
    exact registers (ih ran) step

/-- What is registered resolves to the places of the labels in the draft. -/
theorem Registered.resolved (registered : Registered es d)
    (all : d.assembler.handlers.toList.mapM d.assembler.resolve = .ok hs) :
    List.Forall₂ (fun e h => d.entry? e = some h) es hs := by
  have each := forall₂_of_mapM_ok all
  clear all
  unfold Registered at registered
  generalize d.assembler.handlers.toList = pending at registered each
  induction registered generalizing hs with
  | nil =>
    cases each
    exact .nil
  | @cons e g _ _ names _ ih =>
    cases each with
    | cons first rest =>
      obtain ⟨start, stop, target, hs, ht, hu, rfl⟩ := resolve_eq_ok_iff.mp first
      refine .cons ?_ (ih rest)
      rw [Draft.entry?, Draft.position?_of_found names.start, hs,
        Draft.position?_of_found names.stop, ht, Draft.position?_of_found names.target, hu,
        names.catches]
      rfl

/-! ## The order of entries -/

/-- One range lies in another one and is not the whole of it. -/
structure Handler.Inside (inner outer : Handler) : Prop where
  start : outer.start ≤ inner.start
  stop : inner.stop ≤ outer.stop
  proper : outer.start < inner.start ∨ inner.stop < outer.stop

theorem Handler.Inside.span_lt {inner outer : Handler} (inside : inner.Inside outer) :
    inner.span < outer.span := by
  obtain ⟨start, stop, proper⟩ := inside
  unfold Handler.span
  omega

/-- A table holds the entries that have a range, by span, and in their given order where the span is
the same. -/
structure OrderedBySpan (hs table : List Handler) : Prop where
  perm : table.Perm (hs.filter fun h => h.start != h.stop)
  sorted : table.Pairwise fun a b => a.span ≤ b.span
  stable : ∀ k, table.filter (·.span == k) =
    (hs.filter fun h => h.start != h.stop).filter (·.span == k)

theorem orderedBySpan_orderHandlers (hs : List Handler) :
    OrderedBySpan hs (Assembler.orderHandlers hs) where
  perm := List.mergeSort_perm _ _
  sorted := sorted_orderHandlers hs
  stable := filter_orderHandlers hs

/-- An entry inside another one precedes it. -/
theorem OrderedBySpan.precedes {table : List Handler} (ordered : OrderedBySpan hs table) {i j : Nat}
    {inner outer : Handler} (hi : table[i]? = some inner) (hj : table[j]? = some outer)
    (inside : inner.Inside outer) : i < j := by
  by_contra behind
  have shorter := inside.span_lt
  obtain ⟨li, rfl⟩ := List.getElem?_eq_some_iff.mp hi
  obtain ⟨lj, rfl⟩ := List.getElem?_eq_some_iff.mp hj
  rcases Nat.lt_or_eq_of_le (Nat.le_of_not_lt behind) with before | rfl
  · have := List.pairwise_iff_getElem.mp ordered.sorted j i lj li before
    omega
  · omega

/-! ## The entry that is found -/

/-- The earliest of the entries of least span among those that satisfy a condition. -/
structure EarliestShortest (holds : Handler → Bool) (hs : List Handler) (h : Handler) : Prop where
  here : holds h = true
  least : ∃ front back, hs = front ++ h :: back ∧
    (∀ h' ∈ front, holds h' = true → h.span < h'.span) ∧
    ∀ h' ∈ back, holds h' = true → h.span ≤ h'.span

/-- If some entry satisfies a condition, one is the earliest of least span. -/
theorem exists_earliestShortest {holds : Handler → Bool} (some : ∃ h ∈ hs, holds h = true) :
    ∃ h, EarliestShortest holds hs h := by
  induction hs with
  | nil => simp at some
  | cons first hs ih =>
    by_cases others : ∃ h ∈ hs, holds h = true
    · obtain ⟨h, here, front, back, split, earlier, later⟩ := ih others
      by_cases wins : holds first = true ∧ first.span ≤ h.span
      · -- the first entry is not longer than the earliest shortest one behind it
        refine ⟨first, wins.1, [], hs, rfl, by simp, fun h' mem holds' => wins.2.trans ?_⟩
        rw [split, List.mem_append, List.mem_cons] at mem
        rcases mem with before | rfl | behind
        · exact (earlier h' before holds').le
        · exact le_rfl
        · exact later h' behind holds'
      · refine ⟨h, here, first :: front, back, by rw [split]; rfl, ?_, later⟩
        intro h' mem holds'
        rcases List.mem_cons.mp mem with rfl | mem
        · by_contra longer
          exact wins ⟨holds', by omega⟩
        · exact earlier h' mem holds'
    · obtain ⟨h, mem, here⟩ := some
      rcases List.mem_cons.mp mem with rfl | mem
      · exact ⟨h, here, [], hs, rfl, by simp, fun h' mem holds' => absurd ⟨h', mem, holds'⟩ others⟩
      · exact absurd ⟨h, mem, here⟩ others

/-- The first entry of the table that satisfies a condition is the earliest of least span, if only
entries with a range satisfy it. -/
theorem find?_orderHandlers_eq_some_iff {holds : Handler → Bool}
    (ranged : ∀ h, holds h = true → h.start ≠ h.stop) {h : Handler} :
    (Assembler.orderHandlers hs).find? holds = some h ↔ EarliestShortest holds hs h := by
  have finds {h : Handler} (shortest : EarliestShortest holds hs h) :
      (Assembler.orderHandlers hs).find? holds = some h := by
    obtain ⟨here, front, back, rfl, earlier, later⟩ := shortest
    exact find?_orderHandlers (ranged h here) here (fun h' mem _ => earlier h' mem)
      fun h' mem _ => later h' mem
  refine ⟨fun found => ?_, finds⟩
  have mem := List.mem_of_find?_eq_some found
  rw [Assembler.orderHandlers, List.mem_mergeSort, List.mem_filter] at mem
  obtain ⟨other, shortest⟩ := exists_earliestShortest ⟨h, mem.1, List.find?_some found⟩
  cases found.symm.trans (finds shortest)
  exact shortest

/-- Whether an entry covers an instruction and catches an exception. -/
def Handler.handles (w : Object.World) (pc : Nat) (exception : Object.Value) (h : Handler) : Bool :=
  h.covers pc && (h.catches == "" || w.isHostInstance exception h.catches)

theorem Handler.ranged_of_handles {w : Object.World} {pc : Nat} {exception : Object.Value}
    (h : Handler) (handles : h.handles w pc exception = true) : h.start ≠ h.stop := by
  simp only [Handler.handles, Handler.covers, Bool.and_eq_true, decide_eq_true_eq] at handles
  omega

/-- The handler of an exception is that of the earliest of the shortest entries that cover the
instruction and catch the exception, and there is none exactly if no entry does. -/
theorem handler?_orderHandlers (table : m.handlers = Assembler.orderHandlers hs) (w : Object.World)
    (pc : Nat) (exception : Object.Value) :
    (∀ target, w.handler? m pc exception = some target ↔
      ∃ h, EarliestShortest (Handler.handles w pc exception) hs h ∧ h.target = target) ∧
    (w.handler? m pc exception = none ↔ ∀ h ∈ hs, h.handles w pc exception = false) := by
  have first (target : Int) : w.handler? m pc exception = some target ↔
      ∃ h, EarliestShortest (Handler.handles w pc exception) hs h ∧ h.target = target := by
    unfold Object.World.handler?
    rw [table, Option.map_eq_some_iff]
    exact exists_congr fun h =>
      and_congr_left fun _ => find?_orderHandlers_eq_some_iff Handler.ranged_of_handles
  refine ⟨first, fun unhandled h mem => ?_, fun none => ?_⟩
  · by_contra handles
    obtain ⟨h', shortest⟩ := exists_earliestShortest ⟨h, mem, by simpa using handles⟩
    cases unhandled.symm.trans ((first _).mpr ⟨h', shortest, rfl⟩)
  · cases found : w.handler? m pc exception with
    | none => rfl
    | some target =>
      obtain ⟨h, ⟨handles, front, back, rfl, -⟩, -⟩ := (first target).mp found
      cases (none h (by simp)).symm.trans handles

/-- **The exception table is ordered innermost first.** The steps of a draft register their entries
in order, with labels that are marked anywhere. The table of a method built from the draft holds the
entries that have a range, by span, those of the same span in order of registration. So an entry
precedes every entry that it lies strictly inside of, and the entry found for an instruction and an
exception is the earliest of the shortest ones that cover the instruction and catch the exception;
none is found exactly if there is none. -/
theorem table_innermost_first {steps : List Step} {owner name : String} {params : List String}
    {maxLocals : Int} (run : Draft.steps {} steps = .ok d)
    (built : d.assembler.build owner name params maxLocals = .ok m) :
    ∃ hs, List.Forall₂ (fun e h => d.entry? e = some h) (steps.flatMap Step.entries) hs ∧
      OrderedBySpan hs m.handlers ∧
      (∀ (i j : Nat) (inner outer : Handler), m.handlers[i]? = some inner →
        m.handlers[j]? = some outer → inner.Inside outer → i < j) ∧
      ∀ (w : Object.World) (pc : Nat) (exception : Object.Value),
        (∀ target, w.handler? m pc exception = some target ↔
          ∃ h, EarliestShortest (Handler.handles w pc exception) hs h ∧ h.target = target) ∧
        (w.handler? m pc exception = none ↔ ∀ h ∈ hs, h.handles w pc exception = false) := by
  obtain ⟨hs, all, table⟩ := tabled_of_build built
  have ordered : OrderedBySpan hs m.handlers := table ▸ orderedBySpan_orderHandlers hs
  refine ⟨hs, (registered_of_steps run).resolved all, ordered, ?_, handler?_orderHandlers table⟩
  intro i j inner outer hi hj inside
  exact ordered.precedes hi hj inside

/-- Nested, equal, empty and reversed ranges, registered before and after their labels are marked. -/
def overlapping : List Step :=
  [.tryCatch "a" "d" "outer" "", .mark "a", .emit .nop, .mark "b",
    .tryCatch "b" "c" "inner" "pyrt/StopIteration", .emit .nop, .tryCatch "b" "c" "second" "",
    .mark "c", .emit .nop, .mark "d", .emit .returnVoid, .tryCatch "c" "c" "empty" "",
    .tryCatch "d" "a" "reversed" "", .mark "outer", .emit .athrow, .mark "inner", .emit .athrow,
    .mark "second", .emit .athrow, .mark "empty", .emit .athrow, .mark "reversed", .emit .athrow]

theorem table_innermost_first_overlapping : ∃ d m, Draft.steps {} overlapping = .ok d ∧
    d.assembler.build "p/Main" "f" [] 0 = .ok m ∧
    ∃ hs, List.Forall₂ (fun e h => d.entry? e = some h) (overlapping.flatMap Step.entries) hs ∧
      hs.length = 5 ∧ OrderedBySpan hs m.handlers := by
  have builds : ((Draft.steps {} overlapping).toOption.bind fun d =>
      (d.assembler.build "p/Main" "f" [] 0).toOption).isSome = true := by decide +kernel
  cases run : Draft.steps {} overlapping with
  | error e =>
      rw [run] at builds
      cases builds
  | ok d =>
      cases built : d.assembler.build "p/Main" "f" [] 0 with
      | error e => simp [run, Except.toOption, built] at builds
      | ok m =>
          obtain ⟨hs, registered, ordered, -⟩ := table_innermost_first run built
          exact ⟨d, m, rfl, built, hs, registered, registered.length_eq.symm, ordered⟩

end HostLowering.Machine
