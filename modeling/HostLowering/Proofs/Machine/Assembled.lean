import HostLowering.Proofs.Machine.Outline
import HostLowering.Proofs.Machine.Readers
import HostLowering.Proofs.Machine.Table

set_option autoImplicit false

/-!
# Assembled code reads back

The code that is built from assembly steps reads back as their outline says, by every reader
(`Assembled`), and building fails exactly when the outline cannot be encoded (`Unbuildable`).
-/

namespace HostLowering.Machine

/-! ## Building -/

section Building

variable {o : Outline} {d : Draft} {m : Method} {names : Table String Label}
  {xs : List (Piece String)} {ys : List (Piece Label)} {p : Nat}

theorem size_of_names {x : Piece String} {y : Piece Label} (h : Piece.Names names x y) :
    x.size = y.size := by
  cases h <;> rfl

theorem Located.labelled (h : List.Forall₂ (Piece.Names names) xs ys) {x : Piece String}
    (located : Located xs p x) : ∃ y, Piece.Names names x y ∧ Located ys p y := by
  induction h generalizing p with
  | nil => cases located
  | @cons x' y' _ _ first _ ih =>
    cases located with
    | here => exact ⟨y', first, .here⟩
    | later rest =>
      obtain ⟨y, same, at_⟩ := ih rest
      rw [size_of_names first]
      exact ⟨y, same, .later at_⟩

theorem Located.unlabelled (h : List.Forall₂ (Piece.Names names) xs ys) {y : Piece Label}
    (located : Located ys p y) : ∃ x, Piece.Names names x y ∧ Located xs p x := by
  induction h generalizing p with
  | nil => cases located
  | @cons x' y' _ _ first _ ih =>
    cases located with
    | here => exact ⟨x', first, .here⟩
    | later rest =>
      obtain ⟨x, same, at_⟩ := ih rest
      rw [← size_of_names first]
      exact ⟨x, same, .later at_⟩

/-- Pieces that can each be read where they stand are scanned one after the other. -/
theorem scans_of_located {code : Array UInt8} {place : String → Option Nat} (start : Nat)
    (size : start + extent xs = code.size)
    (read : ∀ p x, Located xs p x →
      instructionAt code (start + p) = .ok (x.resolve place (start + p)) ∧
        (x.resolve place (start + p)).opcode.size = x.size) :
    Scans code start (resolveFrom place start xs) := by
  induction xs generalizing start with
  | nil =>
    rw [extent_nil, Nat.add_zero] at size
    rw [size]
    exact .done
  | cons x xs ih =>
    obtain ⟨first, width⟩ := read 0 x .here
    rw [Nat.add_zero] at first width
    apply Scans.next first
    rw [width]
    apply ih
    · rw [← size, extent_cons]
      omega
    · intro p y located
      rw [Nat.add_assoc]
      exact read _ y (.later located)

theorem located_of_mem_resolveFrom {place : String → Option Nat} {start : Nat} {i : Instruction}
    (mem : i ∈ resolveFrom place start xs) :
    ∃ p x, Located xs p x ∧ i = x.resolve place (start + p) := by
  induction xs generalizing start with
  | nil => cases mem
  | cons x xs ih =>
    rcases List.mem_cons.mp mem with rfl | mem
    · exact ⟨0, x, .here, rfl⟩
    · obtain ⟨p, y, located, rfl⟩ := ih mem
      refine ⟨x.size + p, y, .later located, ?_⟩
      rw [Nat.add_assoc]

theorem Operand.ofDistance_eq {n : Int} (near : Near n) (shape : Opcode.Shape) :
    Operand.ofDistance n shape = .ofWord n shape := by
  cases shape with
  | branch => rw [ofDistance, ofWord, signed16_toNat near.1 near.2]
  | plain | short | slot | increment | constant => rfl

theorem mapM_ok {α β ε : Type} {f : α → Except ε β} {xs : List α}
    (each : ∀ x ∈ xs, ∃ y, f x = .ok y) : ∃ ys, xs.mapM f = .ok ys := by
  induction xs with
  | nil => exact ⟨[], rfl⟩
  | cons x xs ih =>
    rw [List.forall_mem_cons] at each
    obtain ⟨y, hy⟩ := each.1
    obtain ⟨ys, hys⟩ := ih each.2
    exact ⟨y :: ys, by rw [List.mapM_cons, hy, hys]; rfl⟩

/-- An assembler without error in which nothing waits and all entries have places is built. -/
theorem exists_build {a : Assembler} (fine : a.error = none)
    (resolved : ∀ (l : Label) (s : LabelState), a.labels[l]? = some s → s.position = none →
      s.waiting = #[])
    (entries : ∀ h ∈ a.handlers.toList, ∃ e, a.resolve h = .ok e)
    (owner name : String) (params : List String) (maxLocals : Int) :
    ∃ m, a.build owner name params maxLocals = .ok m := by
  obtain ⟨hs, table⟩ := mapM_ok entries
  have none : (a.labels.any fun l => l.position.isNone && !l.waiting.isEmpty) = false := by
    rw [Array.any_eq_false']
    intro s hs
    obtain ⟨l, known⟩ := Array.getElem?_of_mem hs
    cases place : s.position with
    | some q => simp
    | none => simp [resolved l s known place]
  unfold Assembler.build
  simp only [fine, none, table, bind, Except.bind, pure, Except.pure]
  exact ⟨_, rfl⟩

/-- Why code cannot be built. -/
inductive Unbuildable (steps : List Step) : Prop where
  | index {s : Step} {i : Int} (mem : s ∈ steps) (access : s.index? = some i)
      (outside : ¬ (0 ≤ i ∧ i ≤ 65535))
  | far {p q : Nat} {op : Opcode} {n : String}
      (located : Located (Outline.ofSteps steps).pieces p (.jump op n))
      (marked : (Outline.ofSteps steps).place n = some q) (far : ¬ Near (distance p q))
  | unmarked {op : Opcode} {n : String} (jump : .jump op n ∈ (Outline.ofSteps steps).pieces)
      (unmarked : (Outline.ofSteps steps).place n = none)
  | entry {e : NamedHandler} {n : String} (mem : e ∈ (Outline.ofSteps steps).entries)
      (label : n = e.start ∨ n = e.stop ∨ n = e.target)
      (unmarked : (Outline.ofSteps steps).place n = none)

/-- A method reads back as an outline says. -/
structure Assembled (o : Outline) (m : Method) : Prop where
  scans : Scans m.code 0 o.instructions
  opcodes : opcodes m.code = (o.instructions.map (·.opcode)).toArray
  listing : ∀ pool, listing m.code pool
    = .ok (String.intercalate "\n" (linesOf pool 0 o.instructions))
  starts : ∃ starts, instructionStarts m.code = .ok starts ∧
    ∀ p : Nat, starts[p]? = some true ↔ p ∈ offsets 0 o.instructions
  targets : ∀ {p : Nat} {op : Opcode} {n : String}, Located o.pieces p (.jump op n) →
    op.shape = .branch → ∃ d q, instructionAt m.code p = .ok ⟨op, .branch d⟩ ∧
      o.place n = some q ∧ (p + op.size : Nat) + d = q
  handlers : m.handlers.Perm o.handlers

theorem Drafted.place_of_found (drafted : Drafted o d) {n : String} {l : Label}
    (found : d.names.get? n = some l) : o.place n = d.assembler.position? l := by
  rw [← drafted.positions, Draft.position?_of_found found]

/-- An entry of the assembler resolves as the one of the outline does, but for empty ranges. -/
theorem Drafted.resolve_eq (drafted : Drafted o d) {e : NamedHandler} {h : PendingHandler}
    {r : Handler} (names : e.Names d.names h) (resolved : d.assembler.resolve h = .ok r) :
    e.resolve o.place = if r.start != r.stop then some r else none := by
  obtain ⟨s, t, u, hs, ht, hu, rfl⟩ := resolve_eq_ok_iff.mp resolved
  rw [NamedHandler.resolve, drafted.place_of_found names.start, hs,
    drafted.place_of_found names.stop, ht, drafted.place_of_found names.target, hu, names.catches]
  by_cases same : s = t <;> simp [same]

/-- The entries of the assembler, resolved and without empty ranges, are those of the outline. -/
theorem Drafted.filter_resolved (drafted : Drafted o d) {hs : List Handler}
    (table : d.assembler.handlers.toList.mapM d.assembler.resolve = .ok hs) :
    (hs.filter fun h => h.start != h.stop) = o.handlers := by
  have entries := drafted.entries
  unfold Outline.handlers
  generalize d.assembler.handlers.toList = pending at entries table
  generalize o.entries = named at entries
  induction entries generalizing hs with
  | nil =>
    cases table
    rfl
  | @cons e h _ rest names _ ih =>
    rw [List.mapM_cons] at table
    cases first : d.assembler.resolve h with
    | error err => simp [first, bind, Except.bind] at table
    | ok r =>
      cases others : rest.mapM d.assembler.resolve with
      | error err => simp [first, others, bind, Except.bind] at table
      | ok rs =>
        simp only [first, others, bind, Except.bind, pure, Except.pure,
          Except.ok.injEq] at table
        subst table
        rw [List.filter_cons, List.filterMap_cons, drafted.resolve_eq names first,
          ih others]
        split <;> rfl

variable {owner name : String} {params : List String} {maxLocals : Int}

/-- In code that was built every jump of the outline can be read, with the distance to the place
of its label. -/
theorem Drafted.reads_jump (drafted : Drafted o d)
    (built : d.assembler.build owner name params maxLocals = .ok m) {op : Opcode} {n : String}
    (located : Located o.pieces p (.jump op n)) :
    ∃ q, o.place n = some q ∧ op.size = 3 ∧
      instructionAt m.code p = .ok ⟨op, .ofDistance (distance p q) op.shape⟩ := by
  have whole := built_of_build built
  obtain ⟨pieces, names, held⟩ := drafted.code
  obtain ⟨y, named, located'⟩ := located.labelled names
  cases named with
  | @jump _ _ l found =>
  obtain ⟨known, two⟩ := held.proper _ located'.mem
  obtain ⟨s, label, wait⟩ := held.waits located'
  cases place : s.position with
  | none =>
    -- a jump that still waits keeps the code from being built
    have waiting := wait place
    rw [whole.resolved l s label place] at waiting
    simp at waiting
  | some q =>
    have position : d.assembler.position? l = some q := by
      rw [Assembler.position?, label]
      exact place
    have near : Near (distance p q) := by
      by_contra far
      exact held.error.mpr ⟨p, op, l, q, located', position, far⟩ whole.fine
    refine ⟨q, (drafted.place_of_found found).trans position, ?_, ?_⟩
    · rw [Opcode.size, Opcode.operandBytes, two]
    · rw [whole.code, Operand.ofDistance_eq near]
      exact instructionAt_word known two (held.opcode located')
        (held.operand located' position near)

/-- What is built from a draft reads back as its outline says. -/
theorem Drafted.assembled (drafted : Drafted o d)
    (built : d.assembler.build owner name params maxLocals = .ok m) : Assembled o m := by
  have whole := built_of_build built
  obtain ⟨pieces, names, held⟩ := drafted.code
  have read (p : Nat) (x : Piece String) (located : Located o.pieces p x) :
      instructionAt m.code p = .ok (x.resolve o.place p) ∧
        (x.resolve o.place p).opcode.size = x.size ∧
        (x.resolve o.place p).opcode.isKnown = true := by
    obtain ⟨y, named, located'⟩ := located.labelled names
    have proper := held.proper _ located'.mem
    cases named with
    | whole i =>
      rw [whole.code]
      exact ⟨held.whole located', rfl, proper⟩
    | @jump op n l found =>
      obtain ⟨q, place, three, reads⟩ := drafted.reads_jump built located
      rw [Piece.resolve, place]
      exact ⟨reads, three, proper.1⟩
  have scans : Scans m.code 0 o.instructions := by
    apply scans_of_located
    · rw [Nat.zero_add, whole.code, held.size, extent_of_names names]
    · intro p x located
      rw [Nat.zero_add]
      exact ⟨(read p x located).1, (read p x located).2.1⟩
  have known : ∀ i ∈ o.instructions, i.opcode.isKnown = true := by
    intro i mem
    obtain ⟨p, x, located, rfl⟩ := located_of_mem_resolveFrom mem
    rw [Nat.zero_add]
    exact (read p x located).2.2
  obtain ⟨starts, first⟩ := instructionStarts_of_splits (scans.splits known)
  refine ⟨scans, ?_, ?_, ⟨starts, first, ?_⟩, ?_, ?_⟩
  · rw [Machine.opcodes, scans.opcodesFrom_eq]
    simp
  · intro pool
    rw [Machine.listing, scans.linesFrom_eq]
    simp [bind, Except.bind, pure, Except.pure]
  · intro p
    rw [(instructionStarts_eq_ok first).2, ← scans.starts .zero]
    simp
  · intro p op n located branch
    obtain ⟨q, place, three, reads⟩ := drafted.reads_jump built located
    rw [branch, Operand.ofDistance] at reads
    refine ⟨_, q, reads, place, ?_⟩
    rw [three, distance]
    push_cast
    ring
  · obtain ⟨hs, table, handlers⟩ := tabled_of_build built
    rw [handlers, Assembler.orderHandlers, drafted.filter_resolved table]
    exact List.mergeSort_perm _ _

theorem exists_of_forall₂ {α β : Type} {R : α → β → Prop} {xs : List α} {ys : List β}
    (h : List.Forall₂ R xs ys) {y : β} (mem : y ∈ ys) : ∃ x ∈ xs, R x y := by
  induction h with
  | nil => cases mem
  | @cons x _ _ _ first _ ih =>
    rcases List.mem_cons.mp mem with rfl | mem
    · exact ⟨x, List.mem_cons_self, first⟩
    · obtain ⟨x, later, related⟩ := ih mem
      exact ⟨x, List.mem_cons_of_mem _ later, related⟩

theorem Drafted.builds {steps : List Step} (drafted : Drafted (Outline.ofSteps steps) d)
    (sound : ¬ Unbuildable steps) :
    ∃ m, d.assembler.build owner name params maxLocals = .ok m := by
  obtain ⟨pieces, names, held⟩ := drafted.code
  apply exists_build
  · by_contra error
    obtain ⟨p, op, l, q, located, position, far⟩ := held.error.mp error
    obtain ⟨x, named, located'⟩ := located.unlabelled names
    cases named with
    | jump _ found =>
      exact sound (.far located' ((drafted.place_of_found found).trans position) far)
  · intro l s known unmarked
    by_contra some
    obtain ⟨pos, wait⟩ := Array.exists_mem_of_ne_empty _ some
    obtain ⟨-, p, op, -, located⟩ := held.waiting known wait
    obtain ⟨x, named, located'⟩ := located.unlabelled names
    cases named with
    | jump _ found =>
      refine sound (.unmarked located'.mem ?_)
      rw [drafted.place_of_found found, Assembler.position?, known]
      exact unmarked
  · intro h mem
    obtain ⟨e, entry, labels⟩ := exists_of_forall₂ drafted.entries mem
    have placed {n : String} {l : Label} (found : d.names.get? n = some l)
        (label : n = e.start ∨ n = e.stop ∨ n = e.target) :
        ∃ q, d.assembler.position? l = some q := by
      rw [← Option.isSome_iff_exists, Option.isSome_iff_ne_none, ← drafted.place_of_found found]
      exact fun unmarked => sound (.entry entry label unmarked)
    obtain ⟨s, hs⟩ := placed labels.start (.inl rfl)
    obtain ⟨t, ht⟩ := placed labels.stop (.inr (.inl rfl))
    obtain ⟨u, hu⟩ := placed labels.target (.inr (.inr rfl))
    exact ⟨_, resolve_eq_ok_iff.mpr ⟨s, t, u, hs, ht, hu, rfl⟩⟩

/-- A draft that is built has an outline that can be encoded. -/
theorem Drafted.sound {steps : List Step} (drafted : Drafted (Outline.ofSteps steps) d)
    (encoded : ∀ s ∈ steps, ¬ s.Astray)
    (built : d.assembler.build owner name params maxLocals = .ok m) : ¬ Unbuildable steps := by
  intro bad
  cases bad with
  | index mem access outside => exact encoded _ mem ⟨_, access, outside⟩
  | far located marked far =>
    obtain ⟨pieces, names, held⟩ := drafted.code
    obtain ⟨y, named, located'⟩ := located.labelled names
    cases named with
    | jump _ found =>
      rw [drafted.place_of_found found] at marked
      exact held.error.mpr ⟨_, _, _, _, located', marked, far⟩ (built_of_build built).fine
  | unmarked jump unmarked =>
    obtain ⟨p, located⟩ := located_of_mem jump
    obtain ⟨q, place, -⟩ := drafted.reads_jump built located
    cases unmarked.symm.trans place
  | @entry e n mem label unmarked =>
    obtain ⟨h, pending, names⟩ := exists_of_forall₂ drafted.entries.flip mem
    obtain ⟨hs, table, -⟩ := tabled_of_build built
    obtain ⟨r, -, resolved⟩ := mem_mapM_ok table h pending
    obtain ⟨s, t, u, hs, ht, hu, rfl⟩ := resolve_eq_ok_iff.mp resolved
    rcases label with rfl | rfl | rfl
    · rw [drafted.place_of_found names.start, hs] at unmarked
      cases unmarked
    · rw [drafted.place_of_found names.stop, ht] at unmarked
      cases unmarked
    · rw [drafted.place_of_found names.target, hu] at unmarked
      cases unmarked

end Building

/-- **Assembled code reads back.** Steps that give each opcode to the emitter of its width and mark
each label at most once run to their end, unless the constant pool is full. What they draft is not
built exactly when some local index, some distance or some label has no encoding. What is built
reads back, by every reader, as exactly the instructions that were emitted: every jump decodes to
the place where its label was marked, and the exception table holds the entries with a non-empty
range by the places of their labels. -/
theorem assembled_reads_back (steps : List Step) (proper : ∀ s ∈ steps, s.Proper)
    (once : (steps.flatMap Step.marks).Nodup) :
    Draft.steps {} steps = .error .poolOverflow ∨
    ∃ d, Draft.steps {} steps = .ok d ∧ ∀ owner name params maxLocals,
      ((∃ e, d.assembler.build owner name params maxLocals = .error e) ↔ Unbuildable steps) ∧
      ∀ m, d.assembler.build owner name params maxLocals = .ok m →
        Assembled (Outline.ofSteps steps) m := by
  rcases steps_run steps once with full | ⟨d, run, named, astray, drafts⟩
  · exact .inl full
  refine .inr ⟨d, run, fun owner name params maxLocals => ?_⟩
  by_cases encoded : ∀ s ∈ steps, ¬ s.Astray
  · have drafted := drafts proper encoded
    refine ⟨⟨?_, ?_⟩, fun m built => drafted.assembled built⟩
    · rintro ⟨e, failed⟩
      by_contra sound
      obtain ⟨m, built⟩ := drafted.builds sound
      cases failed.symm.trans built
    · intro bad
      cases built : d.assembler.build owner name params maxLocals with
      | error e => exact ⟨e, rfl⟩
      | ok m => exact absurd bad (drafted.sound encoded built)
  · -- an access without encoding left an error behind, whatever came after it
    push Not at encoded
    obtain ⟨s, mem, bad⟩ := encoded
    have error := astray ⟨s, mem, bad⟩
    obtain ⟨i, access, outside⟩ := bad
    cases built : d.assembler.build owner name params maxLocals with
    | error e => exact ⟨⟨fun _ => .index mem access outside, fun _ => ⟨e, rfl⟩⟩, by simp⟩
    | ok m => exact absurd (built_of_build built).fine error

/-- A loop that counts a local down, with a jump ahead, a jump back and an exception table entry. -/
def countingDown : List Step :=
  [.mark "top", .slot .iload 300, .jump .ifeq "end", .increment 300 (-1), .int (-7), .emit .pop,
    .jump .goto "top", .mark "end", .word .sipush 65535, .emit .areturn,
    .tryCatch "top" "end" "end" "p/Error"]

theorem assembled_reads_back_countingDown :
    (∀ s ∈ countingDown, s.Proper) ∧ (countingDown.flatMap Step.marks).Nodup ∧
    ∃ d m, Draft.steps {} countingDown = .ok d ∧
      d.assembler.build "p/Main" "f" ["int"] 301 = .ok m ∧
      Assembled (Outline.ofSteps countingDown) m := by
  have proper : ∀ s ∈ countingDown, s.Proper := by
    simp [countingDown, Step.Proper, Opcode.isKnown, Opcode.operandBytes, Opcode.shape,
      Opcode.Shape.width]
  have once : (countingDown.flatMap Step.marks).Nodup := by decide
  refine ⟨proper, once, ?_⟩
  have builds : ((Draft.steps {} countingDown).toOption.bind fun d =>
      (d.assembler.build "p/Main" "f" ["int"] 301).toOption).isSome = true := by decide +kernel
  rcases assembled_reads_back countingDown proper once with full | ⟨d, run, reads⟩
  · rw [full] at builds
    cases builds
  · rw [run] at builds
    obtain ⟨m, built⟩ := Option.isSome_iff_exists.mp builds
    cases result : d.assembler.build "p/Main" "f" ["int"] 301 with
    | error e =>
        simp [Except.toOption, result] at built
    | ok m => exact ⟨d, m, run, result, (reads _ _ _ _).2 m result⟩

end HostLowering.Machine
