import HostLowering.Proofs.Machine.Spelling

set_option autoImplicit false

/-! # Exception tables

Where the labels of an assembler that holds lines have their places, and how the table of the method
that is built from it is ordered: of the entries that cover an instruction and catch an exception, the
first one in the table is the one with the least span.
-/

namespace HostLowering.Machine

variable {refs : Set MethodRef} {code front lines back : List Line} {a : Assembler} {l : Label}
  {p : Nat} {m : Method}

/-! ## Places -/

/-- A label has its place at the end of the lines in front of its mark. -/
theorem Spelled.position?_iff (spelled : Spelled refs code a) :
    a.position? l = some p ↔ ∃ xs ys, code = xs ++ .mark l :: ys ∧ p = codeSize xs := by
  obtain ⟨items, held, fits⟩ := spelled.held
  rw [held.coded.marks l p, stands_iff]
  constructor
  · rintro ⟨earlier, ⟨later, rfl⟩, rfl⟩
    rw [List.reverse_append, List.reverse_cons, List.append_assoc, List.singleton_append] at fits
    have before := List.forall₂_take_append _ _ _ fits
    have here := List.forall₂_drop_append _ _ _ fits
    obtain ⟨line, ys, mark, -, split⟩ := List.forall₂_cons_right_iff.mp here
    cases mark
    refine ⟨code.take earlier.reverse.length, ys, ?_, ?_⟩
    · rw [← split, List.take_append_drop]
    · rw [← span_of_fits before, span_reverse]
  · rintro ⟨xs, ys, rfl, rfl⟩
    obtain ⟨before, rest, first, others, split⟩ : ∃ before rest,
        List.Forall₂ (Line.Fits a.pool.entries) xs before ∧
          List.Forall₂ (Line.Fits a.pool.entries) (.mark l :: ys) rest ∧
            items.reverse = before ++ rest :=
      ⟨_, _, List.forall₂_take_append _ _ _ fits.flip |>.flip,
        List.forall₂_drop_append _ _ _ fits.flip |>.flip, (List.take_append_drop _ _).symm⟩
    obtain ⟨i, later, mark, -, rfl⟩ := List.forall₂_cons_left_iff.mp others
    cases mark
    refine ⟨before.reverse, ⟨later.reverse, ?_⟩, ?_⟩
    · rw [← List.reverse_reverse items, split]
      simp
    · rw [span_reverse, span_of_fits first]

/-- The mark of a label that does not stand in a stretch of code stands outside. -/
theorem outside_of_notMem {xs ys : List Line} (split : front ++ (lines ++ back) = xs ++ .mark l :: ys)
    (other : .mark l ∉ lines) :
    codeSize xs ≤ codeSize front ∨ codeSize front + codeSize lines ≤ codeSize xs := by
  rcases List.append_eq_append_iff.mp split with ⟨zs, rfl, rest⟩ | ⟨zs, rfl, -⟩
  · rcases List.append_eq_append_iff.mp rest with ⟨us, rfl, -⟩ | ⟨us, rfl, marks⟩
    · right
      simp only [codeSize_append]
      omega
    · cases us with
      | nil =>
        right
        simp
      | cons line us =>
        cases marks
        exact absurd (List.mem_append_right _ List.mem_cons_self) other
  · left
    simp

/-- A label that does not stand in a stretch of code has its place outside. -/
theorem Spelled.outside (spelled : Spelled refs (front ++ (lines ++ back)) a)
    (other : .mark l ∉ lines) (place : a.position? l = some p) :
    p ≤ codeSize front ∨ codeSize front + codeSize lines ≤ p := by
  obtain ⟨xs, ys, split, rfl⟩ := spelled.position?_iff.mp place
  exact outside_of_notMem split other

/-! ## The order of entries -/

theorem sorted_orderHandlers (hs : List Handler) :
    (Assembler.orderHandlers hs).Pairwise fun a b => a.span ≤ b.span := by
  refine (List.pairwise_mergeSort (fun a b c => ?_) (fun a b => ?_) _).imp of_decide_eq_true
  · simp only [decide_eq_true_eq]
    exact le_trans
  · simp only [Bool.or_eq_true, decide_eq_true_eq]
    exact le_total _ _

/-- Entries with the same span keep their order. -/
theorem filter_orderHandlers (hs : List Handler) (k : Int) :
    (Assembler.orderHandlers hs).filter (·.span == k) =
      (hs.filter fun h => h.start != h.stop).filter (·.span == k) := by
  let ranged := hs.filter fun h => h.start != h.stop
  have same : (ranged.filter (·.span == k)).Pairwise fun a b => decide (a.span ≤ b.span) = true := by
    refine List.pairwise_of_forall_mem_list fun a ha b hb => ?_
    have ha := (List.mem_filter.mp ha).2
    have hb := (List.mem_filter.mp hb).2
    simp only [beq_iff_eq] at ha hb
    simp [ha, hb]
  have kept : (ranged.filter (·.span == k)).Sublist (Assembler.orderHandlers hs) := by
    refine List.sublist_mergeSort (fun a b c => ?_) (fun a b => ?_) same List.filter_sublist
    · simp only [decide_eq_true_eq]
      exact le_trans
    · simp only [Bool.or_eq_true, decide_eq_true_eq]
      exact le_total _ _
  have inside := kept.filter (·.span == k)
  rw [List.filter_filter] at inside
  simp only [Bool.and_self] at inside
  exact (inside.eq_of_length ((List.mergeSort_perm ranged _).filter _).length_eq.symm).symm

/-- The first entry registered that satisfies a condition is found, if its span is less than those of
the earlier ones and not more than those of the later ones. -/
theorem find?_orderHandlers {front back : List Handler} {h : Handler} {holds : Handler → Bool}
    (range : h.start ≠ h.stop) (here : holds h = true)
    (earlier : ∀ h' ∈ front, h'.start ≠ h'.stop → holds h' = true → h.span < h'.span)
    (later : ∀ h' ∈ back, h'.start ≠ h'.stop → holds h' = true → h.span ≤ h'.span) :
    (Assembler.orderHandlers (front ++ h :: back)).find? holds = some h := by
  have member {h' : Handler} : h' ∈ Assembler.orderHandlers (front ++ h :: back) ↔
      h' ∈ front ++ h :: back ∧ h'.start ≠ h'.stop := by
    rw [Assembler.orderHandlers, List.mem_mergeSort, List.mem_filter, bne_iff_ne]
  have own : h ∈ Assembler.orderHandlers (front ++ h :: back) := member.mpr ⟨by simp, range⟩
  have least : ∀ h' ∈ Assembler.orderHandlers (front ++ h :: back), holds h' = true → h.span ≤ h'.span := by
    intro h' mem holds'
    obtain ⟨mem, ranged⟩ := member.mp mem
    simp only [List.mem_append, List.mem_cons] at mem
    rcases mem with before | rfl | behind
    · exact (earlier h' before ranged holds').le
    · exact le_rfl
    · exact later h' behind ranged holds'
  obtain ⟨x, found⟩ := Option.isSome_iff_exists.mp (List.find?_isSome.mpr ⟨h, own, here⟩)
  obtain ⟨holdsX, before, behind, split, others⟩ := List.find?_eq_some_iff_append.mp found
  have span : x.span = h.span := by
    have sorted := sorted_orderHandlers (front ++ h :: back)
    have mem := own
    rw [split] at sorted mem
    refine le_antisymm ?_ (least x (by rw [split]; simp) holdsX)
    rw [List.pairwise_append, List.pairwise_cons] at sorted
    simp only [List.mem_append, List.mem_cons] at mem
    rcases mem with first | rfl | last
    · have := others h first
      simp [here] at this
    · exact le_rfl
    · exact sorted.2.1.1 h last
  -- so it is found among the entries with this span, which stand in their first order
  have narrow : ((Assembler.orderHandlers (front ++ h :: back)).filter (·.span == h.span)).find? holds =
      some x := by
    rw [List.find?_filter, List.find?_eq_some_iff_append]
    refine ⟨by simp [span, holdsX], before, behind, split, fun y mem => ?_⟩
    have fails := others y mem
    simp only [Bool.not_eq_true'] at fails
    simp [fails]
  have first : (((front ++ h :: back).filter fun h => h.start != h.stop).filter
      (·.span == h.span)).find? holds = some h := by
    rw [List.filter_filter, List.find?_filter, List.find?_eq_some_iff_append]
    refine ⟨by simp [here, range], front, back, rfl, fun y mem => ?_⟩
    have strict := earlier y mem
    simp only [Bool.not_eq_true', decide_eq_false_iff_not, Bool.and_eq_true, beq_iff_eq, bne_iff_ne,
      not_and]
    rintro ⟨same, ranged⟩ holdsY
    have := strict ranged holdsY
    omega
  rw [filter_orderHandlers, first] at narrow
  rw [found, ← narrow]

/-- The table of a method comes from the entries that were registered. -/
def Tabled (a : Assembler) (m : Method) : Prop :=
  ∃ hs, a.handlers.toList.mapM a.resolve = .ok hs ∧ m.handlers = Assembler.orderHandlers hs

theorem tabled_of_build {owner name : String} {params : List String} {maxLocals : Int}
    (h : a.build owner name params maxLocals = .ok m) : Tabled a m := by
  obtain ⟨-, -, hs, resolved, rfl⟩ := build_eq_ok h
  exact ⟨hs, resolved, rfl⟩

theorem Tabled.mem {h : Handler} (tabled : Tabled a m) (mem : h ∈ m.handlers) :
    ∃ g ∈ a.handlers.toList, a.resolve g = .ok h := by
  obtain ⟨hs, resolved, handlers⟩ := tabled
  rw [handlers, Assembler.orderHandlers, List.mem_mergeSort, List.mem_filter] at mem
  exact mem_of_mapM_ok resolved h mem.1

/-- An entry is found in the table if its span is less than that of the ones that were registered before
it and would do, and not more than that of the others. -/
theorem Tabled.find?_first {g : PendingHandler} {q : Handler → Bool} {front back : List PendingHandler}
    (tabled : Tabled a m) (split : a.handlers.toList = front ++ g :: back) {start stop target : Nat}
    (own : a.resolve g = .ok ⟨start, stop, target, g.catches⟩) (range : start < stop)
    (here : q ⟨start, stop, target, g.catches⟩ = true)
    (earlier : ∀ g' ∈ front, ∀ h ∈ m.handlers, a.resolve g' = .ok h → q h = true →
      (stop : Int) - start < h.span)
    (later : ∀ g' ∈ back, ∀ h ∈ m.handlers, a.resolve g' = .ok h → q h = true →
      (stop : Int) - start ≤ h.span) :
    m.handlers.find? q = some ⟨start, stop, target, g.catches⟩ := by
  obtain ⟨entries, resolved, handlers⟩ := tabled
  rw [split, List.mapM_append] at resolved
  obtain ⟨before, first, resolved⟩ := except_bind_eq_ok resolved
  obtain ⟨rest, last, resolved⟩ := except_bind_eq_ok resolved
  cases resolved
  rw [List.mapM_cons] at last
  obtain ⟨h, same, last⟩ := except_bind_eq_ok last
  obtain ⟨behind, others, last⟩ := except_bind_eq_ok last
  cases last
  cases own.symm.trans same
  have listed {h : Handler} (mem : h ∈ before ++ ⟨start, stop, target, g.catches⟩ :: behind)
      (ranged : h.start ≠ h.stop) : h ∈ m.handlers := by
    rw [handlers, Assembler.orderHandlers, List.mem_mergeSort, List.mem_filter]
    exact ⟨mem, by simpa using ranged⟩
  rw [handlers]
  refine find?_orderHandlers (by simp only [ne_eq]; omega) here (fun h mem ranged holds => ?_)
    fun h mem ranged holds => ?_
  · obtain ⟨g', hg', resolved⟩ := mem_of_mapM_ok first h mem
    exact earlier g' hg' h (listed (by simp [mem]) ranged) resolved holds
  · obtain ⟨g', hg', resolved⟩ := mem_of_mapM_ok others h mem
    exact later g' hg' h (listed (by simp [mem]) ranged) resolved holds

/-- An entry is found in the table if it is there and its span is less than that of all others that
would do. -/
theorem Tabled.find? {g : PendingHandler} {q : Handler → Bool} (tabled : Tabled a m)
    (mem : g ∈ a.handlers.toList) {start stop target : Nat}
    (own : a.resolve g = .ok ⟨start, stop, target, g.catches⟩) (range : start < stop)
    (here : q ⟨start, stop, target, g.catches⟩ = true)
    (least : ∀ g' ∈ a.handlers.toList, ∀ h, a.resolve g' = .ok h → q h = true →
      g' = g ∨ (stop : Int) - start < h.span) :
    m.handlers.find? q = some ⟨start, stop, target, g.catches⟩ := by
  obtain ⟨front, back, split, first⟩ := List.eq_append_cons_of_mem mem
  refine tabled.find?_first split own range here (fun g' early h _ resolved holds => ?_)
    fun g' late h _ resolved holds => ?_
  · rcases least g' (by rw [split]; simp [early]) h resolved holds with rfl | lt
    · exact absurd early first
    · exact lt
  · rcases least g' (by rw [split]; simp [late]) h resolved holds with rfl | lt
    · cases own.symm.trans resolved
      exact le_rfl
    · exact lt.le

end HostLowering.Machine
