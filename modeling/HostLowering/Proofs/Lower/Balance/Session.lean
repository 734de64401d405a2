import HostLowering.Proofs.Lower.Balance.Actions
import HostLowering.Proofs.Object.Locals

set_option autoImplicit false

/-! # Sessions free what they take

A function is lowered by actions, one after the other. After each of them, also after one that records
a failure, no temporary is taken, and the code uses no local behind those that the pool has counted
(`slots_balanced`). The code of an action writes temporaries, and beside them only what the action is
for (`locals_framed`): so a local of the source, an exception or a slot of a handler keeps its value
while the code of any other action is executed.
-/

namespace HostLowering.Lower

open Machine Catalog Lowering

variable {f : Function} {r : Registry} {s s' : State} {a : Action} {use write : Int → Prop}
  {D : Defect → Prop} {α : Type} {before after : List Action}

/-! ## The beginning -/

/-- The code between two states of the assembler uses only some locals and writes only some of them. -/
def Codes (a a' : Assembler) (use write : Int → Prop) : Prop :=
  ∃ lines fresh guards, Wrote Set.univ lines fresh guards a a' ∧ ∀ line ∈ lines,
    (∀ i : Nat, line.local? = some i → use i) ∧ ∀ i : Nat, line.written? = some i → write i

theorem Codes.imp {a a' : Assembler} {use' write' : Int → Prop} (h : Codes a a' use write)
    (uses : ∀ i, use i → use' i) (writes : ∀ i, write i → write' i) : Codes a a' use' write' := by
  obtain ⟨lines, fresh, guards, wrote, here⟩ := h
  exact ⟨lines, fresh, guards, wrote, fun line mem =>
    ⟨fun i used => uses i ((here line mem).1 i used), fun i written => writes i ((here line mem).2 i written)⟩⟩

theorem Codes.trans {a a' a'' : Assembler} {use write : Int → Prop} (h : Codes a a' use write)
    (h' : Codes a' a'' use write) : Codes a a'' use write := by
  obtain ⟨lines, fresh, guards, wrote, here⟩ := h
  obtain ⟨lines', fresh', guards', wrote', here'⟩ := h'
  refine ⟨_, _, _, wrote.trans wrote', fun line mem => ?_⟩
  rcases List.mem_append.mp mem with old | new
  · exact here line old
  · exact here' line new

/-- A state in which nothing has been done. -/
structure Blank (f : Function) (s : State) : Prop where
  assembler : s.assembler = {}
  pool : s.pool = SlotPool.new f.slotBase
  marked : s.marked = {}
  expected : s.expected = {}
  handlers : s.handlers = {}
  resumes : s.resumes = #[]

/-- A function begins with the slots of exceptions, which its first code clears. -/
structure Begun (f : Function) (r : Registry) (s : State) : Prop where
  orderly : Orderly f s
  code : Codes {} s.assembler (· < s.pool.maxLocals) fun i =>
    s.pool.base ≤ i ∨ i = f.exceptionSlot ∨ i = f.previousSlot
  marked : s.marked = {}
  handlers : s.handlers = {}
  expected : ∀ o : Int, s.expected[o]? = none
  types : s.registry.types = r.types

/-- The slots of the current and of the previous exception are the first that are taken. -/
theorem reserve_exceptions (new : s.pool = SlotPool.new f.slotBase) :
    ∃ p : SlotPool, p.live = [] ∧ p.base = f.slotBase + 2 ∧ p.base ≤ p.maxLocals ∧
      p.reserved = [f.previousSlot, f.exceptionSlot] ∧ ∀ k : Int → Int → Lowering Unit,
        (do
          let current ← reserve .ref
          let previous ← reserve .ref
          k current previous : Lowering Unit) f s =
          k f.exceptionSlot f.previousSlot f { s with pool := p } := by
  obtain ⟨p, first, free⟩ := reserve_settled (f := f) (k := .ref) (s := s) (by rw [new]; rfl)
  obtain ⟨p', second, free'⟩ := reserve_settled (f := f) (k := .ref) (s := { s with pool := p }) free
  obtain ⟨-, same⟩ := reserve_eq_ok first
  obtain ⟨-, same'⟩ := reserve_eq_ok second
  have pool : p = _ := congrArg State.pool same
  have pool' : p' = _ := congrArg State.pool same'
  have base : p.base = f.slotBase + 1 := by
    rw [pool, new]
    rfl
  have reserved : p.reserved = [f.exceptionSlot] := by
    rw [pool, new]
    rfl
  refine ⟨p', free', ?_, ?_, ?_, fun k => ?_⟩
  · rw [pool']
    show p.base + 1 = _
    omega
  · rw [pool']
    exact le_max_right _ _
  · rw [pool']
    show p.base :: p.reserved = _
    rw [reserved, base]
    rfl
  · rw [bind_of_eq_ok first, bind_of_eq_ok second]
    show k s.pool.base p.base f _ = _
    rw [base, new]
    rfl

/-- What a function does first, once the slots of exceptions have been taken. -/
def clearing (f : Function) : Lowering Unit := do
  [f.exceptionSlot, f.previousSlot].forM clearSlot
  enter

theorem start_eq (blank : Blank f s) : ∃ (p : SlotPool) (failure : Option Failure), p.live = [] ∧
    p.base = f.slotBase + 2 ∧ p.base ≤ p.maxLocals ∧ p.reserved = [f.previousSlot, f.exceptionSlot] ∧
      start f s = clearing f f { s with pool := p, failure } := by
  obtain ⟨failure, checks⟩ : ∃ failure, checkArguments f s = (.ok (), { s with failure }) := by
    by_cases few : (f.locals.size : Int) < f.argCount
    · refine ⟨s.failure.or (some ⟨s.operation, s.offset, .tooFewLocals f.locals.size f.argCount⟩), ?_⟩
      show (if (f.locals.size : Int) < f.argCount then _ else _ : Lowering Unit) f s = _
      rw [if_pos few]
      rfl
    · refine ⟨s.failure, ?_⟩
      show (if (f.locals.size : Int) < f.argCount then _ else _ : Lowering Unit) f s = _
      rw [if_neg few]
      rfl
  obtain ⟨p, settled, base, room, reserved, goes⟩ := reserve_exceptions (s := { s with failure }) blank.pool
  refine ⟨p, failure, settled, base, room, reserved, ?_⟩
  unfold start clearing
  rw [bind_of_eq_ok checks, goes fun current previous => do
    [current, previous].forM clearSlot
    enter]

/-- The first code is written in front of the slots of exceptions. -/
theorem start_balances (blank : Blank f s) : ∃ (W : Workspace) (s₁ : State), W.function = f ∧
    W.base = s₁.pool.base ∧ (∀ i, W.writes i → i = f.exceptionSlot ∨ i = f.previousSlot) ∧
      W.target = none ∧ Orderly f s₁ ∧ Blank f { s₁ with pool := s.pool } ∧ s₁.registry = s.registry ∧
        Balanced W (clearing f) ∧ start f s = clearing f f s₁ := by
  obtain ⟨p, failure, settled, base, room, reserved, goes⟩ := start_eq blank
  have low := f.nonneg_slotBase
  have persistent (i : Int) (slot : i = f.exceptionSlot ∨ i = f.previousSlot) : 0 ≤ i ∧ i < p.base := by
    unfold Function.exceptionSlot Function.previousSlot at slot
    omega
  refine ⟨⟨f, p.base, fun i => i = f.exceptionSlot ∨ i = f.previousSlot, none, False, base.ge,
    persistent⟩, { s with pool := p, failure }, rfl, rfl, fun _ => id, rfl, ?_, ?_, rfl, ?_, goes⟩
  · refine ⟨settled, base.ge, room, fun i mem => persistent i ?_, ?_, ?_, ?_, ?_, ?_⟩
    · have mem : i ∈ p.reserved := mem
      rw [reserved] at mem
      simpa [or_comm] using mem
    · intro o h found
      simp [blank.handlers] at found
    · intro o o' h h' found
      simp [blank.handlers] at found
    · intro q mem
      simp [blank.resumes] at mem
    · intro o h found
      simp [blank.handlers] at found
    · intro o handler
      simp [blank.handlers] at handler
  · exact { blank with }
  · refine .seq (.forM fun i mem => ?_) fun _ => ?_
    · refine Workspace.balanced fun live => .next fun _ => ?_
      exact ⟨balances_storeRef (.inl (by simpa using mem))⟩
    · refine .read ?_
      split
      · refine balanced_newLabel.seq fun label => .seq ?_ fun _ => balanced_branch rfl label
        exact .update (fun _ => rfl) fun s => { Workspace.Passed.refl s with }
      · exact .update (fun _ => rfl) fun _ => Workspace.passed_update _ _ _ _ rfl le_rfl

theorem blank_new (f : Function) (r : Registry) :
    Blank f { registry := r, pool := SlotPool.new f.slotBase } :=
  ⟨rfl, rfl, rfl, rfl, rfl, rfl⟩

theorem begun_of_start (h : State.start f r = .ok s) : Begun f r s := by
  obtain ⟨W, s₁, same, base, writes, target, orderly, blank, registry, balanced, goes⟩ :=
    start_balances (blank_new f r)
  have run := after_eq_ok h
  rw [goes] at run
  subst same
  obtain ⟨holds, passed⟩ := balanced.eq_ok (orderly.holds base) run
  have assembler : s₁.assembler = {} := blank.assembler
  refine ⟨orderly.passed base holds passed, ?_, ?_, ?_, ?_, ?_⟩
  · obtain ⟨lines, fresh, guards, wrote, allows⟩ := passed.code
    rw [assembler] at wrote
    refine ⟨lines, fresh, guards, wrote, fun line mem => ⟨(allows line mem).1, fun i written => ?_⟩⟩
    rw [holds.base]
    exact ((allows line mem).2 i written).imp_right (writes i)
  · exact passed.marked.trans blank.marked
  · exact passed.handlers.trans blank.handlers
  · intro o
    rw [passed.elsewhere o (by rw [target]; simp)]
    show s₁.expected[o]? = none
    rw [show s₁.expected = {} from blank.expected]
    simp
  · rw [passed.types, registry]

theorem ofPool_start {d : Defect} (h : State.start f r = .error d) : d.ofPool = false := by
  obtain ⟨W, s₁, same, base, -, -, orderly, -, -, balanced, goes⟩ := start_balances (blank_new f r)
  unfold State.start State.after at h
  rw [goes] at h
  split at h
  · cases h
  · rename_i run
    cases h
    subst same
    exact balanced.eq_error (orderly.holds base) run

/-! ## The end -/

/-- The first entry of the dispatcher: the start state begins the body. -/
def dispatchFirst (first : Nat) : Lowering Unit := do
  modify fun s => { s with operation := "Dispatch" }
  mark (← get).dispatch
  let next ← newLabel
  readGenerator Library.generatorState
  branch .ifne next
  readGenerator Library.sentValue
  branch .goto (← offsetLabel first)
  mark next

theorem emitDispatch_eq (first : Nat) : emitDispatch first = (do
    dispatchFirst first
    (← get).resumes.toList.forM dispatchTo
    emit [.returnVoid]) := by
  simp only [emitDispatch, dispatchFirst, bind_assoc]

/-- The dispatcher stores the frames of the points of resumption. -/
theorem concludes_emitDispatch {W : Workspace} (holds : W.Holds [] s)
    (may : ∀ p ∈ s.resumes, ∀ i ∈ p.frame, W.writes i) (still : ¬W.suspends) (first : Nat) :
    Concludes (fun _ s' => W.Holds [] s' ∧ W.Passed s s') (fun d => d.ofPool = false)
      (emitDispatch first W.function s) := by
  have begins : Balanced W (dispatchFirst first) := by
    refine .seq (.update (fun _ => rfl) fun s => { Workspace.Passed.refl s with }) fun _ => ?_
    refine .get fun s => (balanced_mark _).seq fun _ => balanced_newLabel.seq fun next => ?_
    have reads (f : FieldRef) : Balanced W (readGenerator f) := W.balanced inferInstance
    refine (reads _).seq fun _ => (balanced_branch rfl next).seq fun _ => ?_
    refine (reads _).seq fun _ => (balanced_offsetLabel _).seq fun label => ?_
    exact (balanced_branch rfl label).seq fun _ => balanced_mark next
  rw [emitDispatch_eq]
  refine begins.then holds fun _ s₁ holds₁ passed => ?_
  have old {p : ResumePoint} (mem : p ∈ s₁.resumes.toList) : ∀ i ∈ p.frame, W.writes i := by
    rcases passed.resumes p (Array.mem_toList_iff.mp mem) with old | ⟨suspends, -⟩
    · exact may p old
    · exact absurd suspends still
  refine .run (x := get) rfl <| Concludes.after passed ?_
  refine Balanced.during (Balanced.seq (.forM fun p mem => balanced_dispatchTo (old mem)) fun _ => ?_)
    [] s₁ holds₁
  exact W.balanced inferInstance

/-- What completing a function may write: temporaries and the frames of suspended generators. -/
def Orderly.completing (orderly : Orderly f s) : Workspace where
  function := f
  base := s.pool.base
  writes i := ∃ p ∈ s.resumes, i ∈ p.frame
  target := none
  suspends := False
  behind := orderly.behind
  persistent i := fun ⟨p, mem, inside⟩ => orderly.frames p mem i inside

/-- A step that is done unless there is a failure. -/
theorem concludes_unlessFailed {x : Lowering Unit} {V : State → Prop} (skips : V s)
    (does : Concludes (fun _ => V) D (x f s)) :
    Concludes (fun _ => V) D (unlessFailed x f s) := by
  refine .run (x := hasFailed) rfl ?_
  split
  · exact skips
  · exact does

theorem concludes_complete (orderly : Orderly f s) :
    Concludes (fun _ s' => orderly.completing.Holds [] s' ∧ orderly.completing.Passed s s')
      (fun d => d.ofPool = false) (complete f s) := by
  have least (offsets : List Int) (cause : Int → Cause) :
      Balanced orderly.completing (failForLeast offsets cause) := by
    unfold failForLeast
    split
    · exact .fail _
    · exact .pure ()
  have checks {x : Lowering Unit} {s₁ : State} (h : Balanced orderly.completing x)
      (here : orderly.completing.Holds [] s₁ ∧ orderly.completing.Passed s s₁) :
      Concludes (fun _ s' => orderly.completing.Holds [] s' ∧ orderly.completing.Passed s s')
        (fun d => d.ofPool = false) (unlessFailed x f s₁) :=
    concludes_unlessFailed (V := fun s' => orderly.completing.Holds [] s' ∧ orderly.completing.Passed s s')
      here ((h.during [] s₁ here.1).after here.2)
  refine .run (t := { s with operation := "Finish" }) rfl ?_
  have holds : orderly.completing.Holds [] { s with operation := "Finish" } :=
    (orderly.fail "Finish" s.offset s.failure).holds (W := orderly.completing) rfl
  refine .bind (checks (.get fun s₁ => ?_) ⟨holds, { Workspace.Passed.refl s with }⟩) fun _ s₁ here => ?_
  · split
    · exact .fail _
    · exact .pure ()
  refine .bind (concludes_unlessFailed
    (V := fun s' => orderly.completing.Holds [] s' ∧ orderly.completing.Passed s s') here ?_)
    fun _ s₂ here => ?_
  · refine .run (x := read) rfl ?_
    split
    · refine .run (x := get) rfl ?_
      cases s₁.first with
      | none => exact ((Balanced.fail _).during [] s₁ here.1).after here.2
      | some n =>
        refine (concludes_emitDispatch here.1 (fun p mem i inside => ?_) id n).after here.2
        rcases here.2.resumes p mem with old | ⟨suspends, -⟩
        · exact ⟨p, old, inside⟩
        · exact suspends.elim
    · exact here
  refine .bind (checks (.get fun s₃ => least _ _) here) fun _ s₃ here => ?_
  exact checks (.get fun s₄ => least _ _) here

/-! ## Sessions -/

theorem Concludes.of_ok {V : α → State → Prop} {r : Except Defect α × State} {a : α}
    (h : Concludes V D r) (run : r = (.ok a, s')) : V a s' := by
  subst run
  exact h

theorem Concludes.of_error {V : α → State → Prop} {r : Except Defect α × State} {d : Defect}
    (h : Concludes V D r) (run : r = (.error d, s')) : D d := by
  subst run
  exact h

theorem Action.Leaves.codes (h : a.Leaves f s s') :
    Codes s.assembler s'.assembler (· < s'.pool.maxLocals) fun i => s'.pool.base ≤ i ∨ a.Writes f s' i :=
  h.code

/-- Actions lead from an orderly state to another one. -/
theorem orderly_forM {actions : List Action} (orderly : Orderly f s)
    (run : actions.forM Action.run f s = (.ok (), s')) :
    Orderly f s' ∧ s.pool.maxLocals ≤ s'.pool.maxLocals ∧
      Codes s.assembler s'.assembler (· < s'.pool.maxLocals) fun _ => True := by
  induction actions generalizing s with
  | nil =>
    cases run
    exact ⟨orderly, le_rfl, [], 0, [], .refl _, by simp⟩
  | cons a actions ih =>
    obtain ⟨_, s₁, first, run⟩ := bind_eq_ok (x := a.run) run
    obtain ⟨orderly₁, leaves⟩ := (concludes_run a orderly).of_ok first
    obtain ⟨orderly', room, codes⟩ := ih orderly₁ run
    refine ⟨orderly', leaves.room.trans room, Codes.trans ?_ codes⟩
    exact leaves.codes.imp (fun _ used => used.trans_le room) fun _ _ => trivial

theorem orderly_stateBy {actions : List Action} (reached : stateBy f r actions = .ok s) :
    Orderly f s ∧ Codes {} s.assembler (· < s.pool.maxLocals) fun _ => True := by
  obtain ⟨s₀, started, acted⟩ := except_bind_eq_ok reached
  have begun := begun_of_start started
  obtain ⟨orderly, room, codes⟩ := orderly_forM begun.orderly (after_eq_ok acted)
  exact ⟨orderly, (begun.code.imp (fun _ used => used.trans_le room) fun _ _ => trivial).trans codes⟩

/-- Completing a function leads to a state without temporaries. -/
theorem settled_complete (orderly : Orderly f s) (run : complete f s = (.ok (), s')) :
    s'.pool.live = [] ∧ s.pool.maxLocals ≤ s'.pool.maxLocals ∧
      Codes s.assembler s'.assembler (· < s'.pool.maxLocals)
        fun i => s.pool.base ≤ i ∨ ∃ p ∈ s.resumes, i ∈ p.frame := by
  obtain ⟨holds, passed⟩ := (concludes_complete orderly).of_ok run
  exact ⟨holds.taken, passed.room, passed.code⟩

theorem lined_finish {m : Method} (orderly : Orderly f s)
    (codes : Codes {} s.assembler (· < s.pool.maxLocals) fun _ => True)
    (finished : s.finish f = .ok (.ok m)) :
    ∃ lines pool place, Object.Lined m pool place lines ∧ ∀ line ∈ lines, ∀ i : Nat,
      line.local? = some i → (i : Int) < m.maxLocals := by
  obtain ⟨s', completed, -, built, -⟩ := finish_eq_ok finished
  obtain ⟨-, room, ends⟩ := settled_complete orderly completed
  have all := (codes.imp (fun _ used => used.trans_le room) fun _ => id).trans
    (ends.imp (fun _ => id) fun _ _ => trivial)
  obtain ⟨lines, fresh, guards, wrote, uses⟩ := all
  have spelled := wrote.spelled built.fine [] spelled_empty
  rw [List.nil_append] at spelled
  refine ⟨lines, _, _, Object.lined_of_spelled spelled built, fun line mem i used => ?_⟩
  rw [built.locals]
  exact (uses line mem).1 i used

/-- **Temporaries never outlive the operation that took them.** Between the actions of a session no
temporary is taken, whether the last operation was done or recorded a failure, and all code uses
locals that the pool has counted. Freeing a temporary out of order and taking a persistent slot at the
wrong time never happen, and an operation is never found to leave temporaries behind, unless its body
has ended with another defect before. -/
theorem slots_balanced {actions : List Action} (reached : stateBy f r actions = .ok s) :
    s.pool.live = [] ∧ Codes {} s.assembler (· < s.pool.maxLocals) (fun _ => True) ∧
    (∀ (a : Action) d s', a.run f s = (.error d, s') → d.ofPool = false ∨ a.Masks f s d) ∧
    (∀ d, s.finish f = .error d → d.ofPool = false) ∧
    (∀ d, State.start f r = .error d → d.ofPool = false) ∧
    (∀ s', s.after f Lowering.complete = .ok s' → s'.pool.live = []) ∧
    ∀ m, s.finish f = .ok (.ok m) → ∃ lines pool place, Object.Lined m pool place lines ∧
      ∀ line ∈ lines, ∀ i : Nat, line.local? = some i → (i : Int) < m.maxLocals := by
  obtain ⟨orderly, codes⟩ := orderly_stateBy reached
  refine ⟨orderly.settled, codes, fun a d s' run => (concludes_run a orderly).of_error run,
    fun d ends => ?_, fun d => ofPool_start, fun s' completed => ?_, fun m => lined_finish orderly codes⟩
  · rcases except_bind_eq_error ends with completes | ⟨s', -, last⟩
    · unfold State.after at completes
      split at completes
      · cases completes
      · rename_i run
        cases completes
        exact (concludes_complete orderly).of_error run
    · cases last
  · exact (settled_complete orderly (after_eq_ok completed)).1

theorem exists_of_any {ε : Type} {x : Except ε α} {p : α → Bool} (h : x.toOption.any p = true) :
    ∃ a, x = .ok a ∧ p a = true := by
  cases x with
  | error e => cases h
  | ok a => exact ⟨a, rfl, h⟩

def taking : Function where
  dialect := some .bare
  verify := false
  argCount := 1
  locals := #[none]

/-- The argument is unpacked into more items than there can be. -/
def unpackingTooMany : List Action :=
  [.visit 0 [], .perform (.loadLocal 0), .perform (.unpack (2 ^ 62))]

/-- The body ends with a defect while it holds three temporaries, and these are found. -/
theorem unpackingTooMany_leaves :
    stateBy taking .builtin unpackingTooMany = .error (.temporariesLeft "UnpackSequence" 3) := by
  have found : Except.casesOn (motive := fun _ => Bool) (stateBy taking .builtin unpackingTooMany)
      (fun d => decide (d = .temporariesLeft "UnpackSequence" 3)) (fun _ => false) = true := by
    decide +kernel
  cases run : stateBy taking .builtin unpackingTooMany with
  | error d =>
      rw [run] at found
      exact congrArg _ (of_decide_eq_true found)
  | ok s =>
      rw [run] at found
      cases found

/-- A region is opened, and a sequence unpacked in it, before it fails to open another one. -/
def unpackingInRegion : List Action :=
  [.visit 0 [], .perform (.loadLocal 0), .perform (.openRegion ⟨20, 30, 1, false⟩),
    .perform (.unpack 2), .perform (.openRegion ⟨20, 30, 1, true⟩)]

theorem slots_balanced_unpackingInRegion : ∃ s, stateBy taking .builtin unpackingInRegion = .ok s ∧
    s.failure.isSome = true ∧ s.pool.live = [] ∧
      Codes {} s.assembler (· < s.pool.maxLocals) fun _ => True := by
  obtain ⟨s, reached, failed⟩ := exists_of_any (x := stateBy taking .builtin unpackingInRegion)
    (p := fun s => s.failure.isSome) (by decide +kernel)
  obtain ⟨settled, codes, -⟩ := slots_balanced reached
  exact ⟨s, reached, failed, settled, codes⟩

/-! ## Locals that keep their values -/

section Turns

open Object

variable {m : Method} {maxLocals : Int} {a₀ a₁ a₂ : Assembler}

/-- While an activation of a method executes the code between two states of the assembler, a local
that no line there writes keeps its value. -/
theorem keeps_between (first : Codes {} a₀ (fun _ => True) fun _ => True)
    (part : Codes a₀ a₁ use write) (last : Codes a₁ a₂ (fun _ => True) fun _ => True)
    (built : Built a₂ maxLocals m) {x y z : Frame} (method : x.method = m) (entry : x.position = 0)
    (run : Relation.ReflTransGen Frame.Turn x y) (turn : y.Turn z)
    (low : (a₀.bytes.size : Int) ≤ y.position) (high : y.position < a₁.bytes.size) {n : Nat}
    (other : ¬write n) : z.locals[n]? = y.locals[n]? := by
  obtain ⟨front, _, _, wrote₀, -⟩ := first
  obtain ⟨lines, _, _, wrote₁, writes⟩ := part
  obtain ⟨back, _, _, wrote₂, -⟩ := last
  have fine₁ := wrote₂.error built.fine
  have spelled₀ := wrote₀.spelled (wrote₁.error fine₁) [] spelled_empty
  have spelled₁ := wrote₁.spelled fine₁ _ spelled₀
  have spelled₂ := wrote₂.spelled built.fine _ spelled₁
  rw [spelled₀.size, List.nil_append] at low
  rw [spelled₁.size, codeSize_append, List.nil_append] at high
  rw [List.nil_append, List.append_assoc] at spelled₂
  have lined := lined_of_spelled spelled₂ built
  obtain ⟨here, ⟨p, position, boundary⟩, -⟩ := lined.run (K := fun _ => False) (fun _ _ _ _ => id) run
    method ⟨0, entry, [], _, rfl, rfl⟩
  obtain ⟨xs, line, ys, split, size, rewrites, -⟩ := turn.stays lined here position boundary
  refine rewrites.locals n fun written => other ?_
  rw [position, size] at low high
  have mem := mem_of_between split (size_pos_of_written written) (by omega) (by omega)
  exact (writes line mem).2 n written

end Turns

/-- The actions that may write what outlasts operations: a local of the source is written by the
operations on it, an exception by the entry of a handler and by the operations on exceptions, and the
slots of a handler where a region of that handler is opened. -/
structure Action.Owns (f : Function) (a : Action) (s : State) : Prop where
  locals : ∀ n : Nat, n < f.locals.size → a.Writes f s (f.hostLocal n) →
    a = .perform (.storeLocal n) ∨ a = .perform (.clearLocal n)
  current : a.Writes f s f.exceptionSlot → a = .perform .startBlock ∨ a = .perform .popException ∨
    ∃ o given, a = .visit o given ∧ s.handlers.contains o = true
  previous : a.Writes f s f.previousSlot → ∃ o given, a = .visit o given ∧ s.handlers.contains o = true
  kept : ∀ (o : Int) h, s.handlers[o]? = some h → ∀ i ∈ h.slots, a.Writes f s i →
    ∃ region, a = .perform (.openRegion region) ∧ region.target = o

/-- What an operation writes beside temporaries is a local of the source or the current exception. -/
theorem Operation.Writes.cases {op : Operation} {i : Int} (h : op.Writes f i) :
    (∃ j, (op = .storeLocal j ∨ op = .clearLocal j) ∧ f.IsLocal j ∧ i = f.hostLocal j) ∨
      (op = .startBlock ∨ op = .popException) ∧ i = f.exceptionSlot := by
  cases op with
  | storeLocal j => exact .inl ⟨j, .inl rfl, h⟩
  | clearLocal j => exact .inl ⟨j, .inr rfl, h⟩
  | startBlock => exact .inr ⟨.inl rfl, h⟩
  | popException => exact .inr ⟨.inr rfl, h⟩
  | _ => cases h

theorem Orderly.owns (orderly : Orderly f s) (a : Action) : a.Owns f s := by
  -- The slots of handlers stand behind those of exceptions, and these behind the source locals.
  have source (j : Int) (there : f.IsLocal j) : f.hostLocal j < f.slotBase := by
    have bound := there.2
    unfold Function.hostLocal Function.slotBase
    omega
  have slots : f.exceptionSlot = f.slotBase ∧ f.previousSlot = f.slotBase + 1 := ⟨rfl, rfl⟩
  cases a with
  | spell types => exact ⟨fun _ _ h => h.elim, fun h => h.elim, fun h => h.elim, fun _ _ _ _ _ h => h.elim⟩
  | visit o given =>
    refine ⟨fun n inside h => ?_, fun h => .inr (.inr ⟨o, given, rfl, h.1⟩),
      fun h => ⟨o, given, rfl, h.1⟩, fun o' h' found i mem h => ?_⟩
    · have low := source n ⟨by omega, by omega⟩
      have high := h.2
      omega
    · have low := (orderly.kept o' h' found i mem).1
      have high := h.2
      omega
  | perform op =>
    by_cases opens : ∃ region, op = .openRegion region
    · obtain ⟨region, rfl⟩ := opens
      have behind {i : Int} (h : (Action.perform (.openRegion region)).Writes f s i) :
          f.slotBase + 2 ≤ i := by
        obtain ⟨h, found, mem⟩ := h
        exact (orderly.kept _ h found i mem).1
      refine ⟨fun n inside h => ?_, fun h => ?_, fun h => ?_, fun o h' found i mem h => ?_⟩
      · have low := source n ⟨by omega, by omega⟩
        have high := behind h
        omega
      · have high := behind h
        omega
      · have high := behind h
        omega
      · obtain ⟨h, own, mem'⟩ := h
        refine ⟨region, rfl, ?_⟩
        by_contra other
        exact orderly.apart _ o h h' own found other i mem' mem
    · have writes {i : Int} (h : (Action.perform op).Writes f s i) : op.Writes f i := by
        cases op with
        | openRegion region => exact absurd ⟨region, rfl⟩ opens
        | _ => exact h
      refine ⟨fun n inside h => ?_, fun h => ?_, fun h => ?_, fun o h' found i mem h => ?_⟩
      · rcases (writes h).cases with ⟨j, op, -, same⟩ | ⟨-, same⟩
        · unfold Function.hostLocal at same
          obtain rfl : j = n := by omega
          exact op.imp (congrArg _) (congrArg _)
        · have low := source n ⟨by omega, by omega⟩
          omega
      · rcases (writes h).cases with ⟨j, -, there, same⟩ | ⟨op, -⟩
        · have low := source j there
          omega
        · exact op.imp (congrArg _) fun pops => .inl (congrArg _ pops)
      · rcases (writes h).cases with ⟨j, -, there, same⟩ | ⟨-, same⟩
        · have low := source j there
          omega
        · omega
      · have low := (orderly.kept o h' found i mem).1
        rcases (writes h).cases with ⟨j, -, there, rfl⟩ | ⟨-, rfl⟩
        · have high := source j there
          omega
        · omega

/-- Later actions go on from the state that the earlier ones lead to. -/
theorem forM_of_stateBy (reached : stateBy f r before = .ok s)
    (all : stateBy f r (before ++ after) = .ok s') : after.forM Action.run f s = (.ok (), s') := by
  obtain ⟨s₀, started, acted⟩ := except_bind_eq_ok all
  obtain ⟨t, first, rest⟩ := forM_append_eq_ok (after_eq_ok acted)
  obtain ⟨s₀', started', acted'⟩ := except_bind_eq_ok reached
  -- The same actions lead to the same states.
  obtain rfl : s₀ = s₀' := Except.ok.inj (started.symm.trans started')
  obtain rfl : t = s := (Prod.mk.inj (first.symm.trans (after_eq_ok acted'))).2
  exact rest

/-- A method that comes of actions, from the state after one of them on. -/
theorem methodBy_after {m : Method} (reached : stateBy f r before = .ok s)
    (ran : a.run f s = (.ok (), s')) (h : methodBy f r (before ++ a :: after) = .ok (.ok m)) :
    ∃ s₁ s₂, after.forM Action.run f s' = (.ok (), s₁) ∧ complete f s₁ = (.ok (), s₂) ∧
      Built s₂.assembler s₂.pool.maxLocals m := by
  obtain ⟨s₁, all, finished⟩ := except_bind_eq_ok h
  obtain ⟨s₂, completed, -, built, -⟩ := finish_eq_ok finished
  obtain ⟨_, t', run, last⟩ := bind_eq_ok (x := a.run) (forM_of_stateBy reached all)
  obtain rfl : t' = s' := (Prod.mk.inj (run.symm.trans ran)).2
  exact ⟨s₁, s₂, last, completed, built⟩

/-- While an activation of a method executes the code of an action, what outlasts operations keeps its
value, unless the action writes it. -/
theorem keeps_during {m : Method} (reached : stateBy f r before = .ok s)
    (ran : a.run f s = (.ok (), s')) (lowered : methodBy f r (before ++ a :: after) = .ok (.ok m))
    {x y z : Object.Frame} (method : x.method = m) (entry : x.position = 0)
    (run : Relation.ReflTransGen Object.Frame.Turn x y) (turn : y.Turn z)
    (low : s.assembler.bytes.size ≤ y.position) (high : y.position < s'.assembler.bytes.size)
    {n : Nat} (persistent : (n : Int) < s'.pool.base) (other : ¬a.Writes f s' n) :
    z.locals[n]? = y.locals[n]? := by
  obtain ⟨orderly, codes⟩ := orderly_stateBy reached
  obtain ⟨orderly', leaves⟩ := (concludes_run a orderly).of_ok ran
  obtain ⟨s₁, s₂, later, completed, built⟩ := methodBy_after reached ran lowered
  obtain ⟨orderly₁, -, codes₁⟩ := orderly_forM orderly' later
  have ends := (settled_complete orderly₁ completed).2.2
  refine keeps_between (codes.imp (fun _ _ => trivial) fun _ => id) leaves.codes ?_ built method entry
    run turn low high (fun writes => ?_)
  · exact (codes₁.imp (fun _ _ => trivial) fun _ => id).trans
      (ends.imp (fun _ _ => trivial) fun _ _ => trivial)
  · rcases writes with temporary | own
    · omega
    · exact other own

/-- **The code of an action writes temporaries and what the action is for.** Beside temporaries, which
stand behind everything that outlasts operations, it writes only the locals of `Action.Writes`. So while
an activation of a method executes the code of an action, a local of the source, an exception and a
slot of a handler keep their values, unless the action is one of those that `Action.Owns` lists. The
first code of a method writes the slots of exceptions, and the dispatcher of a generator the frames that
it restores. -/
theorem locals_framed {before : List Action} {a : Action} (reached : stateBy f r before = .ok s)
    (ran : a.run f s = (.ok (), s')) :
    Codes s.assembler s'.assembler (fun _ => True) (fun i => s'.pool.base ≤ i ∨ a.Writes f s' i) ∧
    (∀ i, f.localBase ≤ i → i < f.slotBase + 2 → i < s'.pool.base) ∧
    (∀ (o : Int) h, s'.handlers[o]? = some h → ∀ i ∈ h.slots, i < s'.pool.base) ∧ a.Owns f s' ∧
    (∀ after m, methodBy f r (before ++ a :: after) = .ok (.ok m) → ∀ x y z : Object.Frame,
      x.method = m → x.position = 0 → Relation.ReflTransGen Object.Frame.Turn x y → y.Turn z →
      s.assembler.bytes.size ≤ y.position → y.position < s'.assembler.bytes.size →
      ∀ n : Nat, (n : Int) < s'.pool.base → ¬a.Writes f s' n → z.locals[n]? = y.locals[n]?) ∧
    (∀ s₀, State.start f r = .ok s₀ → Codes {} s₀.assembler (fun _ => True)
      fun i => s₀.pool.base ≤ i ∨ i = f.exceptionSlot ∨ i = f.previousSlot) ∧
    ∀ s₁, Lowering.complete f s' = (.ok (), s₁) → Codes s'.assembler s₁.assembler (fun _ => True)
      fun i => s'.pool.base ≤ i ∨ ∃ p ∈ s'.resumes, i ∈ p.frame := by
  obtain ⟨orderly, codes⟩ := orderly_stateBy reached
  obtain ⟨orderly', leaves⟩ := (concludes_run a orderly).of_ok ran
  refine ⟨leaves.codes.imp (fun _ _ => trivial) fun _ => id, fun i low high => ?_,
    fun o h found i mem => (orderly'.kept o h found i mem).2, orderly'.owns a, ?_, fun s₀ started => ?_,
    fun s₁ completed => ?_⟩
  · have behind := orderly'.behind
    omega
  · intro after m lowered x y z method entry run turn low high n persistent other
    exact keeps_during reached ran lowered method entry run turn low high persistent other
  · exact (begun_of_start started).code.imp (fun _ _ => trivial) fun _ => id
  · exact (settled_complete orderly' completed).2.2.imp (fun _ _ => trivial) fun _ => id

/-- The argument is unpacked in a region that keeps it for a handler. -/
def guarding : List Action :=
  [.visit 0 [], .perform (.loadLocal 0), .perform (.openRegion ⟨10, 20, 1, false⟩)]

def guardingEnd : List Action :=
  [.visit 10 [.dynamic], .perform .returnValue, .visit 20 [.dynamic, .dynamic], .perform .returnValue]

theorem run_of_stateBy (reached : stateBy f r before = .ok s)
    (h : stateBy f r (before ++ [a]) = .ok s') : a.run f s = (.ok (), s') := by
  obtain ⟨_, t', run, last⟩ := bind_eq_ok (x := a.run) (forM_of_stateBy reached h)
  cases last
  exact run

theorem locals_framed_guarding : ∃ s s' m, stateBy taking .builtin guarding = .ok s ∧
    (Action.perform (.unpack 1)).run taking s = (.ok (), s') ∧
    methodBy taking .builtin (guarding ++ .perform (.unpack 1) :: guardingEnd) = .ok (.ok m) ∧
    Codes s.assembler s'.assembler (fun _ => True)
      (fun i => s'.pool.base ≤ i ∨ (Action.perform (.unpack 1)).Writes taking s' i) ∧
    ∀ x y z : Object.Frame, x.method = m → x.position = 0 →
      Relation.ReflTransGen Object.Frame.Turn x y → y.Turn z → s.assembler.bytes.size ≤ y.position →
      y.position < s'.assembler.bytes.size → z.locals[0]? = y.locals[0]? := by
  obtain ⟨s, reached, -⟩ := exists_of_any (x := stateBy taking .builtin guarding) (p := fun _ => true)
    (by decide +kernel)
  obtain ⟨s', goes, -⟩ := exists_of_any
    (x := stateBy taking .builtin (guarding ++ [.perform (.unpack 1)])) (p := fun _ => true)
    (by decide +kernel)
  have some_ : (method? taking .builtin
      (guarding ++ .perform (.unpack 1) :: guardingEnd)).isSome = true := by decide +kernel
  obtain ⟨m, lowered⟩ := Option.isSome_iff_exists.mp some_
  have lowered := methodBy_of_method? lowered
  have ran := run_of_stateBy reached goes
  obtain ⟨codes, persistent, -, -, keeps, -⟩ := locals_framed reached ran
  refine ⟨s, s', m, reached, ran, lowered, codes, fun x y z method entry run turn low high => ?_⟩
  exact keeps guardingEnd m lowered x y z method entry run turn low high 0 (persistent 0 (by decide) (by decide)) id

end HostLowering.Lower
