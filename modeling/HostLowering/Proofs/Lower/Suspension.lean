import HostLowering.Proofs.Lower.Frames

set_option autoImplicit false

/-! # Suspending

What the operations that suspend a generator write, and what their code does. A yield saves the frame
and returns; behind the return stands the label at which the generator resumes, and the code that
raises what was thrown in. A delegation saves the frame once and then forwards requests in a loop,
which every resumption enters again.
-/

namespace HostLowering.Lower

set_option synthInstance.maxSize 1000000

open Machine Object Catalog Lowering Library

variable {c : Source} {r : Registry} {call : Caller} {pool : Pool} {code : List Line}
  {stack : List Value} {locals : Array Value} {w w' : World} {g v l : Value} {G : Generator}
  {s s' : State} {u : Unit} {f : Function}

/-! ## Steps of lowering -/

/-- The locals that survive a suspension. -/
def Function.frame (f : Function) (p : SlotPool) : List Int :=
  slotsFrom f.localBase f.locals.size ++ p.persistent

/-- A step done in a generator. -/
theorem inGenerator_eq_ok {x : Lowering Unit} (run : inGenerator x f s = (.ok u, s'))
    (fine : s'.failure = none) : f.generator = true ∧ x f s = (.ok u, s') := by
  replace run := rest_of_ok run rfl
  split at run
  · rename_i generator
    exact ⟨generator, run⟩
  · replace run := rest_of_ok run rfl
    exact absurd fine (failed_of_fail run)

theorem drop_first {α : Type} {k : Unit → Lowering α} {b : α} {top : Slot} {rest : Snapshot}
    (shape : s.stack = top :: rest) (run : (drop 1 >>= k) f s = (.ok b, s')) :
    k () f { s with stack := rest } = (.ok b, s') := by
  obtain ⟨u, s₁, dropped, run⟩ := bind_eq_ok run
  replace dropped := rest_of_ok dropped rfl
  rw [if_pos (by simp [shape])] at dropped
  obtain ⟨-, rfl⟩ := Prod.mk.inj dropped
  simpa [shape] using run

theorem exists_top_of_drop {α : Type} {k : Unit → Lowering α} {b : α}
    (run : (drop 1 >>= k) f s = (.ok b, s')) : ∃ top rest, s.stack = top :: rest := by
  obtain ⟨u, s₁, dropped, run⟩ := bind_eq_ok run
  replace dropped := rest_of_ok dropped rfl
  split at dropped
  · rename_i enough
    exact List.exists_cons_of_length_pos enough
  · cases dropped

theorem suspend_first {step : Int → List Int → Lowering Unit}
    (run : suspend step c.function s = (.ok u, s')) (fine : s'.failure = none) :
    ∃ state frame s₁, state = s.nextState ∧ frame = c.function.frame s.pool ∧
      Emitted c (saveLines s.stack.length frame state) 0 [] { s with nextState := state + 1 } s₁ ∧
        step state frame c.function s₁ = (.ok u, s') := by
  replace run := rest_of_ok run rfl
  replace run := rest_of_ok run rfl
  replace run := rest_of_ok run rfl
  obtain ⟨error, s₁, checked, run⟩ := bind_eq_ok run
  obtain ⟨-, rfl⟩ := Prod.mk.inj checked
  cases error with
  | some cause =>
    exact absurd fine (failed_of_fail run)
  | none =>
    obtain ⟨_, s₁, saved, run⟩ := bind_eq_ok run
    exact ⟨_, _, s₁, rfl, rfl, emitted_saveFrame saved, run⟩

theorem resumeHere_first {k : Unit → Lowering Unit} {state : Int} {frame : List Int} {only : Bool}
    (run : (resumeHere state frame only >>= k) c.function s = (.ok u, s')) :
    ∃ l s₁, l = s.assembler.labels.size ∧ Emitted c [.mark l] 1 [] s s₁ ∧
      k () c.function { s₁ with
        resumes := s.resumes.push
          { state, label := l, stack := s.stack, frame, frameOnly := only } } = (.ok u, s') := by
  obtain ⟨u', s₁, resumed, run⟩ := bind_eq_ok run
  obtain ⟨l, s₂, new, e₂, resumed⟩ := newLabel_first resumed
  obtain ⟨s₃, e₃, resumed⟩ := Begins.rest (c := c) resumed
  replace resumed := rest_of_ok resumed rfl
  obtain ⟨-, rfl⟩ := Prod.mk.inj resumed
  have both := e₂.trans e₃
  refine ⟨l, s₃, new, both, ?_⟩
  rw [← both.resumption.1, ← both.stack]
  exact run

/-! ## Yielding -/

/-- The lines that raise what was thrown in, if anything was. -/
def thrownLines (notThrown : Label) : List Line :=
  readLines thrownValue ++ .plain .dup :: .branch .ifnull notThrown ::
    (clearLines thrownValue ++ [.plain .athrow, .mark notThrown, .plain .pop])

def yieldLines (depth : Nat) (frame : List Int) (state : Int) (resume notThrown : Label) :
    List Line :=
  writeLines yieldedValue ++ (saveLines depth frame state ++
    .plain .returnVoid :: .mark resume :: thrownLines notThrown)

/-- What an operation that suspends leaves behind: its code and a new resumption point. -/
structure Suspends (c : Source) (lines : List Line) (fresh : Nat) (guards : List PendingHandler)
    (p : ResumePoint) (s s' : State) : Prop where
  wrote : Wrote c.refs lines fresh guards s.assembler s'.assembler
  resumes : s'.resumes = s.resumes.push p
  nextState : s'.nextState = s.nextState + 1
  background : s'.background = s.background
  maxLocals : s.pool.maxLocals ≤ s'.pool.maxLocals

/-- A yield saves the slots below the top. -/
theorem yield_eq_ok (run : yield c.function s = (.ok u, s')) (fine : s'.failure = none) :
    c.function.generator = true ∧ ∃ top rest, s.stack = top :: rest ∧
      Suspends c (yieldLines rest.length (c.function.frame s.pool) s.nextState s.assembler.labels.size
        (s.assembler.labels.size + 1)) 2 [] {
          state := s.nextState
          label := s.assembler.labels.size
          stack := rest
          frame := c.function.frame s.pool
          frameOnly := false } s s' := by
  obtain ⟨generator, run⟩ := inGenerator_eq_ok run fine
  obtain ⟨s₁, e₁, run⟩ := Begins.rest (c := c) run
  obtain ⟨top, rest, shape⟩ := exists_top_of_drop run
  obtain ⟨state, frame, s₂, hs, hf, e₂, run⟩ := suspend_first (drop_first shape run) fine
  obtain ⟨s₃, e₃, run⟩ := Begins.rest (c := c) run
  obtain ⟨resume, s₄, first, e₄, run⟩ := resumeHere_first run
  obtain ⟨_, s₅, pushed, run⟩ := bind_eq_ok run
  obtain ⟨-, rfl⟩ := Prod.mk.inj pushed
  obtain ⟨notThrown, s₆, second, e₆, run⟩ := newLabel_first run
  have e₇ := Emitted.of (c := c) run
  obtain rfl : state = s.nextState := hs.trans e₁.resumption.2
  obtain rfl : frame = c.function.frame s.pool := hf.trans (congrArg c.function.frame e₁.pool)
  have saves := e₂.trans e₃
  have stack : s₃.stack = rest := saves.stack
  have upTo : s₃.assembler.labels.size = s.assembler.labels.size :=
    saves.wrote.labels.trans e₁.wrote.labels
  obtain rfl : resume = s.assembler.labels.size := first.trans upTo
  obtain rfl : notThrown = s.assembler.labels.size + 1 :=
    second.trans (e₄.wrote.labels.trans (congrArg (· + 1) upTo))
  have ends := e₆.trans e₇
  refine ⟨generator, top, rest, ?_, ?_⟩
  · rw [← e₁.stack, shape]
  · refine ⟨?_, ?_, ?_, ?_, ?_⟩
    · exact e₁.wrote.trans <| e₂.wrote.trans <| e₃.wrote.trans <| e₄.wrote.trans <|
        e₆.wrote.trans e₇.wrote
    · rw [ends.resumption.1, ← stack, ← e₁.resumption.1]
      exact congrArg (fun ps : Array ResumePoint => ps.push _) saves.resumption.1
    · exact ends.resumption.2.trans (e₄.resumption.2.trans saves.resumption.2)
    · exact ends.background.trans <| e₄.background.trans <| saves.background.trans e₁.background
    · rw [ends.pool]
      show s.pool.maxLocals ≤ s₄.pool.maxLocals
      rw [e₄.pool, saves.pool]
      exact (congrArg SlotPool.maxLocals e₁.pool).ge

theorem exec_yield (honest : pool.Honest) (self : locals[0]? = some g)
    (gen : w.generator? g = some G) (known : w.byHost.get? listClass = some .list)
    {frame : List Int} {vs : List Value}
    (loads : List.Forall₂ (fun (i : Int) v => locals[i.toNat]? = some v) frame vs)
    (v : Value) (vals : List Value) (state : Int) (resume notThrown : Label) :
    ∃ l w', w'.generator? g = some (((G.withField yieldedValue v).withField
        generatorStack l).withField generatorState (.word (.ofInt state))) ∧
      w'.sequence? l = some (.list, vals.reverse ++ vs) ∧ w.KeepsClasses w' ∧
        exec call pool (yieldLines vals.length frame state resume notThrown) none (v :: vals) locals w =
          (.returns .null, w') := by
  have gen₁ : (w.withGenerator g (G.withField yieldedValue v)).generator? g = some _ :=
    World.generator?_withGenerator gen
  have known₁ : (w.withGenerator g (G.withField yieldedValue v)).byHost.get?
      listClass = some .list := by
    rwa [World.byHost_withGenerator]
  obtain ⟨l, w', gen', list, keeps, saves⟩ :=
    exec_save call honest self gen₁ known₁ loads vals state
  refine ⟨l, w', gen', list, (World.keepsClasses_withGenerator gen _).trans keeps, ?_⟩
  rw [yieldLines, exec_write honest self gen (by decide)]
  have saves := saves (.plain .returnVoid :: .mark resume :: thrownLines notThrown) []
  rw [List.append_nil] at saves
  exact saves

/-- Where nothing was thrown in, control goes on. -/
theorem exec_notThrown (honest : pool.Honest) (self : locals[0]? = some g)
    (gen : w.generator? g = some G) (none_ : G.field thrownValue.name = .null)
    (notThrown : Label) :
    exec call pool (thrownLines notThrown) none stack locals w = (.falls stack locals, w) := by
  rw [thrownLines, exec_read honest self gen (by decide), none_, exec_dup, exec_ifnull, if_pos rfl,
    exec_skip (by simp [clearLines])]
  show exec call pool [.mark notThrown, .plain .pop] (some notThrown) _ _ _ = _
  rw [exec_found]
  rfl

/-- What was thrown in is raised. -/
theorem exec_thrown (honest : pool.Honest) (self : locals[0]? = some g)
    (gen : w.generator? g = some G) {e : Value} (thrown : G.field thrownValue.name = e)
    (some_ : e ≠ .null)
    (raised : Effect.serve call (.throw e) (w.withGenerator g (G.withField thrownValue .null))
      = (.error (.raised e), w.withGenerator g (G.withField thrownValue .null)))
    (notThrown : Label) :
    exec call pool (thrownLines notThrown) none stack locals w =
      (.stops (.raised e) locals, w.withGenerator g (G.withField thrownValue .null)) := by
  rw [thrownLines, exec_read honest self gen (by decide), thrown, exec_dup, exec_ifnull,
    if_neg some_, exec_clear honest self gen (by decide)]
  exact exec_stop rfl raised

/-! ## Delegating -/

def callOneLines : List Line := packLines 1 ++ callPackedLines

instance : Writes c r callWithOne callOneLines := by
  unfold callWithOne
  infer_instance

/-- The labels of a delegation. -/
structure Delegation where
  resume : Label
  start : Label
  ended : Label
  exhausted : Label
  notThrown : Label
  noThrow : Label
  useNext : Label
  got : Label

/-- The labels of a delegation, as they are made. -/
def Delegation.from (n : Nat) : Delegation where
  resume := n
  start := n + 1
  ended := n + 2
  exhausted := n + 3
  notThrown := n + 4
  noThrow := n + 5
  useNext := n + 6
  got := n + 7

namespace Delegation

variable (d : Delegation)

/-- The lines that hand what was thrown in to the iterator. -/
def throwLines : List Line :=
  readLines thrownValue ++ .plain .dup :: .branch .ifnull d.notThrown ::
    (clearLines thrownValue ++ (readLines yieldFromIterator ++
      .text "throw" :: callLine getAttributeOrNull :: .plain .dup ::
        .branch .ifnull d.noThrow :: .plain .swap :: (callOneLines ++ [.branch .goto d.got])))

def sendLines : List Line :=
  .mark d.notThrown :: .plain .pop :: (readLines sentValue ++ .plain .dup ::
    .onField .getstatic noneField :: .branch .ifAcmpeq d.useNext ::
      (readLines yieldFromIterator ++ .text "send" ::
        callLine getAttributeOrError :: .plain .swap ::
          (callOneLines ++ [.branch .goto d.got])))

/-- The lines that advance the iterator. -/
def nextLines : List Line :=
  .mark d.useNext :: .plain .pop :: (readLines yieldFromIterator ++
    callUnaryLines "__next__")

/-- The lines that yield what came from the iterator. -/
def gotLines (state : Int) : List Line :=
  .mark d.got :: .mark d.ended :: (writeLines yieldedValue ++ (stateLines state ++
    [.plain .returnVoid]))

/-- The lines that raise what the iterator cannot take. -/
def noThrowLines : List Line :=
  .mark d.noThrow :: .plain .pop :: (clearLines yieldFromIterator ++ [.plain .athrow])

/-- The lines that go on when the iterator is exhausted. -/
def exhaustedLines (r : Registry) (rest : Snapshot) (result : Int) : List Line :=
  .mark d.exhausted :: .onClass .checkcast stopIterationClass ::
    callLine stopIterationValue :: (clearLines yieldFromIterator ++
      .store .ref result.toNat :: (stackLines r rest ++ [.load .ref result.toNat]))

/-- The lines that forward requests. -/
def loopLines (r : Registry) (rest : Snapshot) (state result : Int) : List Line :=
  .mark d.start :: (d.throwLines ++ (d.sendLines ++ (d.nextLines ++ (d.gotLines state ++
    (d.noThrowLines ++ d.exhaustedLines r rest result)))))

def lines (r : Registry) (rest : Snapshot) (frame : List Int) (state result : Int) : List Line :=
  writeLines sentValue ++ (writeLines yieldFromIterator ++
    (saveLines rest.length frame state ++ .mark d.resume :: d.loopLines r rest state result))

/-- The entry of the exception table. -/
def guard : PendingHandler := ⟨d.start, d.ended, d.exhausted, stopIterationClass⟩

end Delegation

/-- A delegation saves the slots below the iterator and the first value. -/
theorem yieldFrom_eq_ok (run : yieldFrom c.function s = (.ok u, s'))
    (fine : s'.failure = none) :
    ∃ rest result, s.pool.base ≤ result ∧
      Suspends c ((Delegation.from s.assembler.labels.size).lines s.registry rest
        (c.function.frame s.pool) s.nextState result) 8 [(Delegation.from s.assembler.labels.size).guard] {
          state := s.nextState
          label := s.assembler.labels.size
          stack := rest
          frame := c.function.frame s.pool
          frameOnly := true } s s' := by
  obtain ⟨-, run⟩ := inGenerator_eq_ok run fine
  obtain ⟨s₁, e₁, run⟩ := Begins.rest (c := c) run
  obtain ⟨top, below, shape⟩ := exists_top_of_drop run
  obtain ⟨s₂, e₂, run⟩ := Begins.rest (c := c) (drop_first shape run)
  obtain ⟨iterator, rest, shape'⟩ := exists_top_of_drop run
  obtain ⟨state, frame, s₃, hs, hf, e₃, run⟩ := suspend_first (drop_first shape' run) fine
  replace run := rest_of_ok run rfl
  obtain ⟨resume, s₄, n₀, e₄, run⟩ := resumeHere_first run
  obtain ⟨start, t₁, n₁, l₁, run⟩ := newLabel_first run
  obtain ⟨ended, t₂, n₂, l₂, run⟩ := l₁.label run
  obtain ⟨exhausted, t₃, n₃, l₃, run⟩ := l₂.label run
  obtain ⟨notThrown, t₄, n₄, l₄, run⟩ := l₃.label run
  obtain ⟨noThrow, t₅, n₅, l₅, run⟩ := l₄.label run
  obtain ⟨useNext, t₆, n₆, l₆, run⟩ := l₅.label run
  obtain ⟨got, t₇, n₇, l₇, run⟩ := l₆.label run
  obtain ⟨u₁, f₁, run⟩ := Begins.rest (c := c) run
  obtain ⟨_, u₂, guarded, run⟩ := bind_eq_ok run
  have f₂ := emitted_tryCatch (c := c) guarded
  obtain ⟨u₃, f₃, run⟩ := Begins.rest (c := c) run
  obtain ⟨result, _, took, run⟩ := bind_eq_ok run
  obtain ⟨behind, taken, rfl, base, reserved, -, maxLocals, -⟩ := alloc_eq_ok took
  obtain ⟨v₁, g₁, run⟩ := Begins.rest (c := c) run
  obtain ⟨_, _, freed, run⟩ := bind_eq_ok run
  obtain ⟨live, -, rfl⟩ := free_eq_ok freed
  obtain ⟨-, rfl⟩ := Prod.mk.inj run
  obtain rfl : state = s.nextState := hs.trans (e₂.resumption.2.trans e₁.resumption.2)
  obtain rfl : frame = c.function.frame s.pool :=
    hf.trans (congrArg c.function.frame (e₂.pool.trans e₁.pool))
  -- the labels are consecutive
  have before : s₃.assembler.labels.size = s.assembler.labels.size :=
    e₃.wrote.labels.trans (e₂.wrote.labels.trans e₁.wrote.labels)
  have size₀ : s₄.assembler.labels.size = s.assembler.labels.size + 1 :=
    e₄.wrote.labels.trans (congrArg (· + 1) before)
  obtain rfl : resume = s.assembler.labels.size := n₀.trans before
  obtain rfl := n₁.trans size₀
  obtain rfl := n₂.trans (congrArg (· + 1) size₀)
  obtain rfl := n₃.trans (congrArg (· + 2) size₀)
  obtain rfl := n₄.trans (congrArg (· + 3) size₀)
  obtain rfl := n₅.trans (congrArg (· + 4) size₀)
  obtain rfl := n₆.trans (congrArg (· + 5) size₀)
  obtain rfl := n₇.trans (congrArg (· + 6) size₀)
  have loops := l₇.trans <| f₁.trans <| f₂.trans f₃
  have stack : s₃.stack = rest := e₃.stack
  have pool : u₃.pool = s.pool := loops.pool.trans <| e₄.pool.trans <| e₃.pool.trans <|
    e₂.pool.trans e₁.pool
  have registry : u₃.registry = s.registry := loops.registry.trans <| e₄.registry.trans <|
    e₃.registry.trans <| e₂.registry.trans e₁.registry
  have g₁ : Emitted c ([.store .ref result.toNat] ++
      (stackLines s.registry rest ++ [.load .ref result.toNat])) 0 [] { u₃ with pool := taken } v₁ := by
    rw [← registry, ← stack]
    exact g₁
  refine ⟨rest, result, ?_, ?_⟩
  · rw [behind, pool]
    omega
  · refine ⟨?_, ?_, ?_, ?_, ?_⟩
    · exact e₁.wrote.trans <| e₂.wrote.trans <| e₃.wrote.trans <| e₄.wrote.trans <|
        l₇.wrote.trans <| f₁.wrote.trans <| f₂.wrote.trans <| f₃.wrote.trans g₁.wrote
    · have old : s₃.resumes = s.resumes :=
        e₃.resumption.1.trans (e₂.resumption.1.trans e₁.resumption.1)
      rw [← stack, ← old]
      exact g₁.resumption.1.trans loops.resumption.1
    · exact g₁.resumption.2.trans <| loops.resumption.2.trans <| e₄.resumption.2.trans e₃.resumption.2
    · have same : State.background { u₃ with pool := taken } = u₃.background := by
        rw [State.background, State.background]
        simp only [base, reserved]
      exact g₁.background.trans <| same.trans <| loops.background.trans <| e₄.background.trans <|
        e₃.background.trans <| e₂.background.trans e₁.background
    · rw [← pool]
      exact maxLocals.trans (congrArg SlotPool.maxLocals g₁.pool).ge

end HostLowering.Lower
