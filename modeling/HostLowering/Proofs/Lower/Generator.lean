import HostLowering.Proofs.Lower.Exception

set_option autoImplicit false

/-! # Generators

To suspend, a generator empties its host stack into a list; the dispatcher puts it back before it
jumps to the place to resume at. So the depth at that place is settled when the generator suspends,
and the dispatcher arrives with it (`moves_dispatchTo`).
-/

namespace HostLowering.Lower

set_option synthInstance.maxSize 1000000

open Machine Catalog Lowering

variable {c : Setting} {Γ : List Fact} {p q : Point} {v : View} {s s' : State} {d m n : Nat} {b : Bool}

/-! ## The generator object -/

instance : Shifts loadGenerator 0 1 0 0 := by
  refine ⟨@fun c Γ d m b => moves_load .ref (usable_of_lt ?_)⟩
  have base := c.function.nonneg_slotBase
  omega

section Fields

variable (f : FieldRef)

instance : Shifts (readGenerator f) 0 1 0 0 := by
  unfold readGenerator
  exact ⟨.leads⟩

instance : Shifts (writeGenerator f) 1 0 0 0 := by
  unfold writeGenerator
  exact ⟨.leads⟩

instance : Shifts (clearGenerator f) 0 0 0 0 := by
  unfold clearGenerator
  exact ⟨.leads⟩

end Fields

instance (i : Int) : Shifts (setState i) 0 0 0 0 := by
  unfold setState
  exact ⟨.leads⟩

theorem moves_inGenerator {x : Lowering Unit} (h : Moves c Γ x p q fun _ => []) :
    Moves c Γ (inGenerator x) p q fun _ => [] := by
  refine .read ?_
  split
  · exact h
  · exact .seq (.reads fun _ => rfl) fun _ => .fail _

/-! ## Frames -/

theorem moves_frameSlots : Moves c Γ frameSlots p p fun frame => [.locals frame] := by
  refine .read (.get fun s => ?_)
  refine .note (φ := .locals ((List.range c.function.locals.size).map
    (fun (i : Nat) => c.function.hostLocal i) ++ s.pool.persistent)) (fun v inv _ _ i hi => ?_) ?_
  · rcases List.mem_append.mp hi with source | persistent
    · obtain ⟨j, hj, rfl⟩ := List.mem_map.mp source
      have lt := List.mem_range.mp hj
      have slots := inv.slots
      simp only [Function.slotBase, Function.hostLocal] at slots ⊢
      omega
    · exact inv.reserved i (List.mem_reverse.mp persistent)
  · refine Moves.ret (fun v s facts φ mem => ?_) s
    rw [List.mem_singleton] at mem
    exact mem ▸ facts _ List.mem_cons_self

theorem moves_suspendError? (frame : List Int) :
    Moves c Γ (suspendError? frame) p p fun _ => [] :=
  .reads fun _ => rfl

theorem moves_saveFrame {frame : List Int} (state : Int) (locals : .locals frame ∈ Γ) :
    Moves c Γ (saveFrame frame state) ⟨some m, m, b⟩ ⟨some 0, m, b⟩ fun _ => [] := by
  refine moves_stack.bind fun st => .on ?_
  refine .conv (P := st.length = m) (r := ⟨some (st.length + 1), m, b⟩) (by simp) (fun length => by rw [length]) ?_
  refine .seq (moves_times (fun i => ⟨some (i + 1), m, b⟩) st.length fun i => .leads) fun _ => ?_
  refine .seq (moves_forMSame frame fun i hi => .on ?_) fun _ => .leads
  exact .seq (moves_load .ref (usable_of_mem (t := frame) (by simp [locals]) hi)) fun _ => .leads

instance (i : Nat) (cls : String) : Shifts (frameItem i cls) 0 1 0 0 := by
  unfold frameItem
  exact ⟨.leads⟩

theorem moves_restoreStack (st : Snapshot) :
    Moves c Γ (restoreStack st) ⟨some d, m, b⟩ ⟨some (d + st.length), m, b⟩ fun _ => [] := by
  have loop := moves_forM (c := c) (Γ := Γ) (x := fun (e : Slot × Nat) => do
      frameItem e.2 (← hostClassOf e.1.known))
    (fun i => ⟨some (d + i), m, b⟩) st.reverse.zipIdx 0
    fun e _ i => .leads
  rwa [Nat.zero_add, List.length_zipIdx, List.length_reverse] at loop

instance (i : Int) : Leads c Γ (frameClass i) p p := by
  refine ⟨.read ?_⟩
  dsimp only
  split
  · exact .leads
  · exact .leads

theorem moves_restoreFrame {r : ResumePoint} (locals : .locals r.frame ∈ Γ) :
    Moves c Γ (restoreFrame r) ⟨some d, m, b⟩ ⟨some d, m, b⟩ fun _ => [] := by
  refine moves_forMSame _ fun e he => ?_
  refine .seq .leads fun cls => .on ?_
  exact moves_store .ref (usable_of_mem locals (List.fst_mem_of_mem_zipIdx he))

/-- Suspending empties the host stack. The snapshot stays: it is restored on resumption. -/
theorem moves_suspend {step : Int → List Int → Lowering Unit}
    (h : ∀ state frame Γ, .locals frame ∈ Γ →
      Moves c Γ (step state frame) ⟨some 0, m, b⟩ q fun _ => []) :
    Moves c Γ (suspend step) ⟨some m, m, b⟩ q fun _ => [] := by
  refine .seq (.reads fun _ => rfl) fun s => ?_
  refine .seq (.quiet rfl fun s a s' run _ => ?_) fun _ => ?_
  · obtain ⟨-, rfl⟩ := Prod.mk.inj run
    exact ⟨.update s _ _ _ _ _, id, id, by simp⟩
  refine moves_frameSlots.bind fun frame => ?_
  refine .seq (moves_suspendError? frame) fun error => ?_
  cases error with
  | some e => exact .fail _
  | none =>
    refine .seq (moves_saveFrame _ List.mem_cons_self) fun _ => ?_
    exact (h _ frame _ List.mem_cons_self).weaken (by simp)

/-- A place to resume at. The dispatcher comes there with what the point says. -/
theorem moves_resumeHere {frame : List Int} {frameOnly : Bool} (state : Int)
    (locals : .locals frame ∈ Γ) (depth : (if frameOnly then 0 else m + 1) = d) :
    Moves c Γ (resumeHere state frame frameOnly) ⟨some d, m, b⟩ ⟨some d, m, b⟩ fun _ => [] := by
  refine .label d fun label => .on (moves_stack.bind fun stack => ?_)
  refine .step fun s a s' run fine => ?_
  cases run
  refine ⟨fine, fun v inv here facts => ⟨v, ?_, .of_eq rfl rfl rfl rfl rfl rfl le_rfl,
    ⟨here.ends, here.slots, here.live⟩, by simp⟩⟩
  refine { inv with resumes := fun r mem => ?_ }
  rcases Array.mem_push.mp mem with old | rfl
  · exact inv.resumes r old
  · have deep := facts (.deep label d) (by simp)
    have length := facts (.prop (stack.length = m)) (by simp)
    have frames := facts (.locals frame) (by simp [locals])
    refine ⟨deep.trans ?_, frames⟩
    rw [Fact.Holds] at length
    rw [ResumePoint.depth, length, depth]

/-! ## Yielding -/

theorem moves_yield :
    Moves c Γ yield ⟨some (m + 1), m + 1, b⟩ ⟨some (m + 1), m + 1, b⟩ fun _ => [] := by
  refine moves_inGenerator ?_
  refine .on (moves_suspend fun state frame Γ locals => .on ?_)
  refine .seq (.dead (moves_resumeHere (d := m + 1) state locals rfl)) fun _ => .on ?_
  exact .label (m + 2) fun notThrown => .leads

instance : Shifts callWithOne 2 1 0 0 := by
  unfold callWithOne
  exact ⟨.leads⟩

theorem moves_yieldFrom :
    Moves c Γ yieldFrom ⟨some (m + 2), m + 2, b⟩ ⟨some (m + 1), m + 1, b⟩ fun _ => [] := by
  refine moves_inGenerator (.on (moves_suspend fun state frame Γ locals => ?_))
  refine moves_stack.bind fun rest => ?_
  refine .seq (moves_resumeHere (d := 0) state (by simp [locals]) rfl) fun _ => ?_
  refine .label 0 fun start => .ending 1 fun ended => .label 1 fun exhausted => ?_
  refine .label 1 fun notThrown => .label 2 fun noThrow => .label 1 fun useNext => .label 1 fun got => ?_
  refine .bind (moves_mark (by simp [ending]) (by simp [ending])) fun _ => .on ?_
  refine .bind (moves_markAfter (e := start) (by simp [ending]) (by simp [ending]) (by simp)) fun _ => .on ?_
  refine .alloc fun result => .on ?_
  refine .seq ((moves_restoreStack rest).post (P := rest.length = m) (q := ⟨some m, m, b⟩) (by simp)
    fun length => by rw [length, Nat.zero_add]) fun _ => .leads

theorem moves_send (target : Int) :
    Moves c Γ (send target) ⟨some (m + 2), m + 2, b⟩ ⟨some (m + 2), m + 2, b⟩ fun _ => [] := by
  refine moves_stack.bind fun st => ?_
  refine (moves_copyAll List.mem_cons_self).bind fun ts => ?_
  match ts with
  | [] | [_] => exact .defect _
  | value :: receiver :: rest =>
    have temps {Γ : List Fact} (mem : .locals ((value :: receiver :: rest).map Temp.index) ∈ Γ) :
        Temps c Γ (value :: receiver :: rest) := .of_mem mem
    have first {Γ : List Fact} (mem : .locals ((value :: receiver :: rest).map Temp.index) ∈ Γ) :
        Usable c Γ value.index := temps mem value (by simp)
    have second {Γ : List Fact} (mem : .locals ((value :: receiver :: rest).map Temp.index) ∈ Γ) :
        Usable c Γ receiver.index := temps mem receiver (by simp)
    refine .label (m + 2) fun start => .ending (m + 3) fun ended => .label 1 fun exhausted => ?_
    refine .label (m + 2) fun useNext => .label (m + 3) fun got => .label (m + 2) fun continued => ?_
    refine .bind (moves_mark (by simp [ending]) (by simp [ending])) fun _ => ?_
    refine .seq (moves_loadTemp (first (by simp [spilled]))) fun _ => .on ?_
    refine .seq (moves_loadTemp (second (by simp [spilled]))) fun _ => .on ?_
    refine .seq (moves_loadTemp (first (by simp [spilled]))) fun _ => .on ?_
    refine .seq (moves_loadTemp (second (by simp [spilled]))) fun _ => .on ?_
    refine .bind (moves_markAfter (e := start) (by simp [ending]) (by simp [ending]) (by simp)) fun _ => .on ?_
    refine .alloc fun result => .on (moves_stack.bind fun yielding => ?_)
    refine .seq (moves_setStack []) fun _ => ?_
    refine .seq (moves_reloadOf (m := 0) (n := m) (P := (value :: receiver :: rest).length = m + 2)
      (fun t ht => temps (by simp [spilled]) t (by simp [ht])) (by simp [spilled])
      fun length => by simpa using length) fun _ => ?_
    rw [Nat.zero_add]
    refine .on (.seq ((moves_setStack yielding).post (P := yielding.length = m + 2) (q := ⟨none, m + 2, b⟩)
      (by simp) fun length => by rw [length]) fun _ => .leads)

/-! ## The end -/

instance : Leads c Γ finishGenerator ⟨some (d + 1), m, b⟩ ⟨none, m, b⟩ := by
  unfold finishGenerator
  infer_instance

theorem moves_endGenerator :
    Moves c Γ endGenerator ⟨some (d + 1), m + 1, b⟩ ⟨none, m, false⟩ fun _ => [] :=
  moves_inGenerator .leads

theorem moves_returnValue :
    Moves c Γ returnValue ⟨some (d + 1), m + 1, b⟩ ⟨none, m, false⟩ fun _ => [] := by
  refine .read ?_
  split
  · exact .leads
  · exact .leads

theorem moves_dispatchTo {r : ResumePoint} (deep : .deep r.label r.depth ∈ Γ)
    (locals : .locals r.frame ∈ Γ) :
    Moves c Γ (dispatchTo r) ⟨some 0, m, b⟩ ⟨some 0, m, b⟩ fun _ => [] := by
  refine .label 0 fun next => .on ?_
  refine .seq (moves_restoreFrame (by simp [locals])) fun _ => ?_
  dsimp only
  cases only : r.frameOnly with
  | true =>
    rw [show r.depth = 0 by simp [ResumePoint.depth, only]] at deep
    have : Among (.deep r.label 0) Γ := ⟨deep⟩
    rw [if_pos rfl]
    exact .leads
  | false =>
    rw [show r.depth = 0 + r.stack.length + 1 by simp [ResumePoint.depth, only]] at deep
    have : Among (.deep r.label (0 + r.stack.length + 1)) Γ := ⟨deep⟩
    exact .seq (moves_restoreStack r.stack) fun _ => .leads

/-- The dispatcher. It is entered with an empty stack, and the source is entered with one value. -/
theorem moves_emitDispatch {l : Label} {first : Nat} (dispatch : .dispatch l ∈ Γ) (deep : .deep l 0 ∈ Γ)
    (inner : .inner l ∈ Γ) (starts : .expects first 1 ∈ Γ) :
    Moves c Γ (emitDispatch first) ⟨none, m, b⟩ ⟨none, m, b⟩ fun _ => [] := by
  refine .seq (.quiet rfl fun s a s' run _ => ?_) fun _ => ?_
  · obtain ⟨-, rfl⟩ := Prod.mk.inj run
    exact ⟨.update s _ _ _ _ _, id, id, by simp⟩
  refine .get fun s => ?_
  refine .notes (Φ := [.deep s.dispatch 0, .inner s.dispatch]) (fun v inv here facts φ mem => ?_) ?_
  · have same : s.dispatch = l := facts _ dispatch
    rw [same] at mem
    simp only [List.mem_cons, List.not_mem_nil, or_false] at mem
    rcases mem with rfl | rfl
    · exact facts _ deep
    · exact facts _ inner
  refine Moves.bind (.dead (moves_mark (d := 0) (by simp) (by simp))) (fun _ => ?_) s
  refine .label 0 fun next => .on ?_
  refine (moves_settledLabel (n := 1) (by simp [starts])).bind fun source => .on ?_
  refine .get fun s => ?_
  refine .notes (Φ := s.resumes.toList.flatMap fun r => [.deep r.label r.depth, .locals r.frame])
    (fun v inv here facts φ mem => ?_) ?_
  · obtain ⟨r, hr, mem⟩ := List.mem_flatMap.mp mem
    obtain ⟨depth, frame⟩ := inv.resumes r (Array.mem_toList_iff.mp hr)
    simp only [List.mem_cons, List.not_mem_nil, or_false] at mem
    rcases mem with rfl | rfl
    · exact depth
    · exact frame
  refine Moves.seq (moves_forMSame s.resumes.toList fun r hr => ?_) (fun _ => ?_) s
  · refine moves_dispatchTo (List.mem_append_left _ ?_) (List.mem_append_left _ ?_)
    · exact List.mem_flatMap.mpr ⟨r, hr, by simp⟩
    · exact List.mem_flatMap.mpr ⟨r, hr, by simp⟩
  · exact .leads

end HostLowering.Lower
