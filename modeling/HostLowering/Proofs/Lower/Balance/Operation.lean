import HostLowering.Proofs.Lower.Confined
import HostLowering.Proofs.Lower.Workspace

set_option autoImplicit false

/-! # Operations free what they take

To free what was taken is a discipline, so the body of an operation frees its temporaries, also when it
records a failure, and does not end with a defect of the pool (`balanced_body`). The steps that suspend
a generator, which no scope allows, are done here. Opening a region, which takes persistent slots, is for
another module.
-/

namespace HostLowering.Lower

set_option synthInstance.maxSize 1000000

open Machine Catalog Lowering

variable {W : Workspace} {live : List Int} {own : List Label} {α : Type}

/-! ## The discipline of a workspace -/

/-- A jump to the offset of the workspace. The snapshot that the target must accept is noted there
unless one is noted already. -/
theorem balanced_jumpTo {op : Opcode} (shape : op.shape = .branch) {target : Int}
    (own : W.target = some target) : Balanced W (jumpTo op target) := by
  have branches (agrees : Bool) : Balanced W (do
      if agrees then branch op (← offsetLabel target)) := by
    cases agrees with
    | true => exact (balanced_offsetLabel target).seq fun l => balanced_branch shape l
    | false => exact .pure ()
  refine ⟨fun live s holds => ?_⟩
  change Concludes _ _ ((if s.handlers.contains target then _ else _ : Lowering Unit) W.function s)
  split
  · exact (Balanced.fail _).during live s holds
  · rename_i plain
    cases found : s.expected[target]? with
    | some e =>
      refine (balanced_compatible e s.stack).first (fun agrees => ?_) s holds
      cases agrees with
      | true => exact (branches true).during live
      | false =>
        exact (balanced_showStack _).first fun _ => (balanced_showStack _).first fun _ =>
          (Balanced.fail _).first fun _ => (branches false).during live
    | none =>
      -- The snapshot is noted in this very state, where nothing is noted for the target.
      have notes : W.Passed s { s with expected := s.expected.insert target s.stack } := by
        refine { Workspace.Passed.refl s with expected := ?_, elsewhere := ?_, guarded := ?_ }
        · intro o e old
          show (s.expected.insert target s.stack)[o]? = some e
          rw [Std.TreeMap.getElem?_insert, if_neg fun same => ?_]
          · exact old
          · rw [← Std.LawfulEqOrd.eq_of_compare same, found] at old
            cases old
        · intro o other
          show (s.expected.insert target s.stack)[o]? = _
          rw [Std.TreeMap.getElem?_insert, if_neg fun same => ?_]
          exact other (by rw [own, Std.LawfulEqOrd.eq_of_compare same])
        · intro o handler
          show (s.expected.insert target s.stack)[o]? = _
          rw [Std.TreeMap.getElem?_insert, if_neg fun same => ?_]
          rw [Std.LawfulEqOrd.eq_of_compare same] at plain
          exact plain handler
      have rest := (branches true).during live { s with expected := s.expected.insert target s.stack }
        { holds with }
      exact rest.after notes

/-- A callable is added to the registry that was read. -/
theorem balanced_addCallable (c : Callable) : Balanced W (do
    let (t, registry) := (← get).registry.addCallable c
    modify fun st => { st with registry }
    pushType t) := by
  refine ⟨fun live s holds => ?_⟩
  refine ⟨{ holds with }, ?_⟩
  exact Workspace.passed_update _ _ _ _ rfl le_rfl

theorem balanced_adjust (stack : State → Snapshot) (reachable : State → Bool) : Balanced W
    (modify fun s => { s with stack := stack s, reachable := reachable s } : Lowering Unit) :=
  .update (fun _ => rfl) fun _ => Workspace.passed_update _ _ _ _ rfl le_rfl

theorem local?_of_idle {line : Line} (h : line.idle = true) : line.local? = none := by
  cases line with
  | load | store | increment => cases h
  | _ => rfl

/-- To free what was taken. -/
def Workspace.discipline (W : Workspace) : Discipline where
  function := W.function
  refs := Set.univ
  library _ _ := trivial
  Does _ live x after := Balances W live x after
  writes := W.writes
  jumps target := W.target = some target
  guards := True
  bind h h' := h.bind h'
  ret a same := .ret a same
  defect other := .defect other
  fail e := (Balanced.fail e).during _
  congr same h s holds := same ▸ h s holds
  get h := .get fun s _ => h s fun _ _ => trivial
  owning h _ := h
  label h := balanced_newLabel.first h
  line line clean wrote idle :=
    .line line clean wrote fun _ _ => Workspace.allows_of_none (local?_of_idle idle)
  load k usable := balances_load (usable.imp_left fun h => ⟨h.1, h.2.trans_le W.behind⟩) k
  store k writable := balances_store writable k
  increment taken := balances_increment (.inr taken)
  mark _ := (balanced_mark _).during _
  branch shape _ := (balanced_branch shape _).during _
  tryCatch cls _ _ _ _ := (balanced_tryCatch _ _ _ cls).during _
  jumpTo shape may := (balanced_jumpTo shape may).during _
  adjust stack reachable := (balanced_adjust stack reachable).during _
  addCallable _ _ := (balanced_addCallable _).during _
  alloc k := balances_alloc k
  free i := balances_free i

theorem Workspace.balances {x : Lowering α} {after : α → List Int}
    (h : W.discipline.Conforms [] live x after) : Balances W live x after :=
  h.does

theorem Workspace.balanced {x : Lowering α} (h : W.discipline.Abides [] x) : Balanced W x :=
  ⟨fun live => (h live).does⟩

theorem Balanced.abides {x : Lowering α} (h : Balanced W x) : W.discipline.Abides own x :=
  fun live => ⟨h.during live⟩

/-! ## Suspension -/

/-- The locals of a frame are persistent. -/
def Workspace.Frames (W : Workspace) (frame : List Int) : Prop := ∀ i ∈ frame, 0 ≤ i ∧ i < W.base

/-- A step that goes on with the locals that survive a suspension. -/
theorem abides_frameSlots {k : List Int → Lowering Unit}
    (h : ∀ frame, W.Frames frame → W.discipline.Abides own (k frame)) :
    W.discipline.Abides own (frameSlots >>= k) := by
  refine Balanced.abides ⟨fun live s holds => ?_⟩
  refine (h _ (fun i mem => ?_) live).does s holds
  rcases List.mem_append.mp mem with declared | reserved
  · obtain ⟨n, inside, rfl⟩ := List.mem_map.mp declared
    have lt := List.mem_range.mp inside
    have persistent := W.function.inside (i := W.function.hostLocal n) (by
      unfold Function.hostLocal
      omega) (by
      unfold Function.hostLocal Function.slotBase
      omega)
    exact ⟨persistent.1, persistent.2.trans_le W.behind⟩
  · exact holds.reserved i (List.mem_reverse.mp reserved)

instance {frame : List Int} {state : Int} [inside : Given (W.Frames frame)] :
    W.discipline.Abides own (saveFrame frame state) := by
  have saves : W.discipline.Abides own (frame.forM fun i => do
      emit [.dup]
      loadRef i
      invoke Library.listAdd) := fun live => .forM fun i mem => by
    have : W.discipline.Abides own (loadRef i) := (balanced_loadRef (inside.holds i mem)).abides
    infer_instance
  exact fun live => .next fun st => inferInstance

/-- A step that is done once the frame is saved. -/
theorem abides_suspend {step : Int → List Int → Lowering Unit}
    (h : ∀ state frame, [Given (W.Frames frame)] → W.discipline.Abides own (step state frame)) :
    W.discipline.Abides own (suspend step) := by
  have counts (n : Int) :
      W.discipline.Abides own (modify fun s => { s with nextState := n } : Lowering Unit) :=
    Balanced.abides (.update (fun _ => rfl) fun s => { Workspace.Passed.refl s with })
  refine fun live => .get fun s _ => .next fun _ => abides_frameSlots (fun frame inside live => ?_) live
  have : Given (W.Frames frame) := ⟨inside⟩
  have : W.discipline.Abides own (suspendError? frame) := fun _ => .reads _ fun _ => rfl
  refine .next fun cause => ?_
  cases cause with
  | some c => infer_instance
  | none => exact .next fun _ => h _ frame live

/-- A point of resumption is noted. -/
instance {frame : List Int} {state : Int} {frameOnly : Bool} [suspends : Given W.suspends]
    [inside : Given (W.Frames frame)] :
    W.discipline.Abides own (resumeHere state frame frameOnly) := by
  have notes (p : ResumePoint) (same : p.frame = frame) : Balanced W
      (modify fun s => { s with resumes := s.resumes.push p } : Lowering Unit) := by
    refine .update (fun _ => rfl) fun s => ?_
    refine { Workspace.Passed.refl s with resumes := fun q mem => ?_ }
    rcases Array.mem_push.mp mem with old | rfl
    · exact .inl old
    · exact .inr ⟨suspends.holds, same ▸ inside.holds⟩
  exact fun live => .label (h := fun label => .next fun _ => .next fun st => (notes _ rfl).abides live)

instance [Given W.suspends] : W.discipline.Abides own yield := by
  refine abides_inGenerator fun live => .next fun _ => .next fun _ => ?_
  exact abides_suspend (fun state frame _ => inferInstance) live

instance : Given W.discipline.guards := ⟨trivial⟩

instance [Given W.suspends] : W.discipline.Abides own yieldFrom := by
  refine abides_inGenerator fun live => .next fun _ => .next fun _ => .next fun _ => .next fun _ => ?_
  exact abides_suspend (fun state frame _ => inferInstance) live

/-- The dispatcher stores the locals of a frame, which the workspace must allow. -/
theorem abides_restoreFrame {p : ResumePoint} (may : ∀ i ∈ p.frame, W.writes i) :
    W.discipline.Abides own (restoreFrame p) := by
  refine fun live => .forM fun (i, n) mem => ?_
  have : Given (W.discipline.writes i) := ⟨may i (List.fst_mem_of_mem_zipIdx mem)⟩
  infer_instance

theorem balanced_dispatchTo {p : ResumePoint} (may : ∀ i ∈ p.frame, W.writes i) :
    Balanced W (dispatchTo p) := by
  have restores (next : Label) : W.discipline.Abides [next] (restoreFrame p) :=
    abides_restoreFrame may
  have goes (next : Label) : W.discipline.Abides [next] (branch .goto p.label) :=
    (balanced_branch rfl p.label).abides
  refine W.balanced fun live => .label (h := fun next => ?_)
  refine .next fun _ => .next fun _ => .next fun _ => .next fun _ => ?_
  dsimp only
  infer_instance

/-! ## Operations -/

def Operation.Suspends : Operation → Prop
  | .yield | .yieldFrom => True
  | _ => False

/-- Every operation but the opening of a region frees what it takes. -/
theorem balanced_body {op : Operation} (region : ∀ r, op ≠ .openRegion r)
    (may : ∀ i, op.Writes W.function i → W.writes i)
    (own : ∀ t, op.target? = some t → W.target = some t)
    (suspends : op.Suspends → W.suspends) : Balanced W op.body := by
  cases op with
  | openRegion r => exact absurd rfl (region r)
  | yield | yieldFrom =>
    have : Given W.suspends := ⟨suspends trivial⟩
    unfold Operation.body
    exact W.balanced inferInstance
  | _ => exact W.balanced (abides_body trivial may own fun _ => trivial)

end HostLowering.Lower
