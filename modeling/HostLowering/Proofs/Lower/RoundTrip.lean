import HostLowering.Proofs.Lower.Activation

set_option autoImplicit false

/-! # Suspension and resumption

A generator that yields saves its operand stack and its frame and returns. When it is resumed, its
method runs from the start again: the beginning of the code clears the slots of exceptions and goes to
the dispatcher, which loads what was saved and goes to the code behind the return. Main statement:
whatever happens in between, as long as the generator itself is left alone, it goes on just behind the
yield with the same operand stack and the value sent on top, and with the same values in all locals that
are not temporary; or else it raises there what was thrown in (`yield_round_trip`).
-/

namespace HostLowering.Object

open Machine Library Effect

variable {w w' : World} {g v : Value} {G : Generator} {sent : Value} {thrown : Option Value}
  {e : Value}

/-! ## Resuming -/

/-- The generator while its body runs again. -/
def Generator.resumed (G : Generator) (sent : Value) (thrown : Option Value) : Generator :=
  { G.receive sent thrown with running := true }

theorem Generator.field_resumed (G : Generator) (sent : Value) (thrown : Option Value)
    (name : String) : (G.resumed sent thrown).field name =
      if thrownValue.name = name then thrown.getD .null
      else if sentValue.name = name then sent else G.field name := by
  show ((G.withField sentValue sent).withField thrownValue _).field name = _
  rw [field_withField, field_withField]

/-- The generator with what it yields and where it has saved its frame. -/
def Generator.suspended (G : Generator) (v l : Value) (state : Int) : Generator :=
  ((G.withField yieldedValue v).withField generatorStack l).withField
    generatorState (.word (.ofInt state))

section Suspended

variable (G : Generator) (v l : Value) (state : Int)

theorem Generator.yielded_suspended :
    (G.suspended v l state).field yieldedValue.name = v := by
  rw [suspended, field_withField, if_neg (by decide), field_withField, if_neg (by decide),
    field_withField, if_pos rfl]

theorem Generator.stack_suspended :
    (G.suspended v l state).field generatorStack.name = l := by
  rw [suspended, field_withField, if_neg (by decide), field_withField, if_pos rfl]

theorem Generator.state_suspended :
    (G.suspended v l state).field generatorState.name = .word (.ofInt state) := by
  rw [suspended, field_withField, if_pos rfl]

end Suspended

/-- The world in which the body of a generator runs that is resumed. -/
def World.resuming (w : World) (g : Value) (G : Generator) (sent : Value) (thrown : Option Value) :
    World :=
  w.withGenerator g (G.resumed sent thrown)

/-- What comes of a resumption when the body of the generator has run. -/
def Effect.settle (g : Value) (run : Except Stop Value × World) : Except Stop Value × World :=
  (do changeGenerator g ({ · with running := false })
      afterRun g run.1 : Effect Value) run.2

theorem Effect.runMethod_eq {m : Method} {args : List Value} {x : Frame} (call : Caller)
    (start : Frame.start m args = .ok x) :
    runMethod call m args = runFrom call stepLimit x := by
  simp only [runMethod, start]

/-- A generator runs its body when it is resumed. At the start nothing can be sent or thrown in. -/
theorem Effect.resume_eq (call : Caller) (gen : w.generator? g = some G)
    (unfinished : G.finished = false) (idle : G.running = false)
    (ready : G.inState stateStart = true → sent = .none ∧ thrown = none) :
    resume call g sent thrown w =
      settle g (runMethod call G.method (g :: G.args) (w.resuming g G sent thrown)) := by
  have required : require (w.generator? g) w = (.ok G, w) := by
    rw [gen]
    rfl
  unfold resume
  rw [bind_get, bind_ok required]
  have runs : (do
      changeGenerator g fun g => { g.receive sent thrown with running := true }
      let outcome ← attempt (runMethod call G.method (g :: G.args))
      changeGenerator g ({ · with running := false })
      afterRun g outcome : Effect Value) w =
        settle g (runMethod call G.method (g :: G.args) (w.resuming g G sent thrown)) := by
    rw [bind_ok (changeGenerator_eq gen _)]
    exact bind_ok rfl
  simp only [unfinished, idle, Bool.false_eq_true, if_false]
  split
  · rename_i start
    obtain ⟨rfl, rfl⟩ := ready start
    exact runs
  · exact runs

/-! ## Between suspension and resumption -/

/-- The generator when its body has returned. -/
def Generator.idle (G : Generator) : Generator := { G with running := false }

@[simp] theorem Generator.field_idle (G : Generator) (name : String) :
    G.idle.field name = G.field name := rfl

/-- A generator that has saved its frame runs its body when it is resumed. -/
theorem Effect.resume_suspended (call : Caller) {l : Value} {state : Int} {x : Frame}
    (gen : w.generator? g = some (G.suspended v l state).idle) (unfinished : G.finished = false)
    (begun : Int64.ofInt state ≠ 0) (start : Frame.start G.method (g :: G.args) = .ok x) :
    resume call g sent thrown w = settle g (runFrom call stepLimit x
      (w.resuming g (G.suspended v l state).idle sent thrown)) := by
  have zero : Int64.ofInt stateStart = 0 := by decide
  have later : (G.suspended v l state).idle.inState stateStart = false := by
    rw [Generator.inState, Generator.field_idle, G.state_suspended, zero]
    simpa using begun
  have body : (G.suspended v l state).idle.method = G.method := rfl
  have args : (G.suspended v l state).idle.args = G.args := rfl
  rw [resume_eq call gen unfinished rfl fun start => by simp [later] at start, body, args,
    runMethod_eq call start]

/-- A generator has been left alone since its body returned. -/
def World.Rested (g : Value) (w w' : World) : Prop :=
  ∃ G, w.generator? g = some G ∧ w'.generator? g = some G.idle ∧
    w'.sequence? (G.field generatorStack.name) =
      w.sequence? (G.field generatorStack.name)

def World.IsException (w : World) (e : Value) : Prop :=
  ∃ cls fields, w.record? e = some (cls, fields) ∧ w.isSubclass cls .baseException = true

theorem World.IsException.ne_null (h : w.IsException e) : e ≠ .null := by
  rintro rfl
  obtain ⟨cls, fields, found, -⟩ := h
  cases found

/-- An exception stays one when a generator changes. -/
theorem World.IsException.withGenerator (h : w.IsException e) (gen : w.generator? g = some G)
    (G' : Generator) : (w.withGenerator g G').IsException e := by
  obtain ⟨cls, fields, found, derived⟩ := h
  have other : e ≠ g := by
    rintro rfl
    rw [World.record?, World.object?_of_generator? gen] at found
    cases found
  refine ⟨cls, fields, ?_, ?_⟩
  · rw [World.record?, World.object?_withGenerator gen, if_neg other]
    exact found
  · rw [← derived]
    simp [World.isSubclass, World.lineage, World.info]

theorem World.IsException.serve_throw (h : w.IsException e) (call : Caller) :
    serve call (.throw e) w = (.error (.raised e), w) := by
  obtain ⟨cls, fields, found, derived⟩ := h
  rw [serve, throwValue, bind_get, found]
  cases e with
  | null => cases found
  | _ => simp only [derived, if_true]; rfl

end HostLowering.Object

namespace HostLowering.Lower

open Machine Object Catalog Library Effect
open Relation (ReflTransGen)

variable {c : Source} {f : Function} {r : Registry} {m : Method} {s s' s₁ s₂ s₃ : State} {u : Unit}
  {front back ending : List Line} {call : Caller} {g v : Value} {G : Generator} {vals : List Value}
  {x : Frame} {w : World}

/-! ## Yielding -/

theorem yield_added (tidy : Tidy c s) (run : Operation.perform .yield c.function s = (.ok u, s'))
    (fine : s'.Fine) :
    c.function.generator = true ∧ ∃ top rest resume notThrown, s.stack = top :: rest ∧
      Advanced c [] (yieldLines rest.length (c.function.frame s.pool) s.nextState resume notThrown) []
        s s' ∧
      Private (yieldLines rest.length (c.function.frame s.pool) s.nextState resume notThrown) s s' ∧
      s'.resumes = s.resumes.push {
        state := s.nextState
        label := resume
        stack := rest
        frame := c.function.frame s.pool
        frameOnly := false } := by
  obtain ⟨-, -, body⟩ := perform_eq_ok run fine.1
  obtain ⟨generator, top, rest, shape, suspends⟩ := yield_eq_ok body fine.1
  obtain ⟨-, advanced, inner⟩ := yield_advanced (tidy.named _) rfl suspends rfl rfl rfl
  exact ⟨generator, top, rest, _, _, shape, advanced.unnamed, inner, suspends.resumes⟩

/-- A local that is not temporary: one of the source, one of the two for exceptions, or one that is
reserved in the state `s`. -/
def Function.Keeps (f : Function) (s : State) (i : Int) : Prop :=
  (f.localBase ≤ i ∧ i < f.slotBase + 2) ∨ i ∈ s.pool.reserved

theorem Tidy.mem_frame (tidy : Tidy c s) (i : Int) :
    i ∈ c.function.frame s.pool ↔ c.function.Keeps s i := by
  have base := tidy.base
  have first := c.function.localBase_le
  have reserved : i ∈ s.pool.reserved ↔ c.function.slotBase ≤ i ∧ i < s.pool.base := by
    rw [← List.mem_reverse, ← SlotPool.persistent, tidy.persistent, mem_slotsFrom]
    omega
  rw [tidy.framed, mem_slotsFrom, Function.Keeps, reserved]
  omega

/-- An activation of the body `m` of the generator `g` stands in front of a yield that is lowered in
the state `s`, with the value `v` to yield and the values `vals` below it. All values can be used as
what is known of them, in terms of the registry `r`. -/
structure Yielding (f : Function) (s : State) (r : Registry) (m : Method) (call : Caller) (g : Value)
    (G : Generator) (v : Value) (vals : List Value) (x : Frame) (w : World) : Prop where
  generator : w.generator? g = some G
  body : G.method = m
  unfinished : G.finished = false
  runs : ∃ x₀ w₀, Frame.start m (g :: G.args) = .ok x₀ ∧
    ReflTransGen (Effect.Loops call) (x₀, w₀) (x, w)
  position : x.position = s.assembler.bytes.size
  stack : x.stack = v :: vals
  below : Fitting r w s.stack.tail vals
  frame : ∀ i, f.Keeps s i → ∀ u, x.locals[i.toNat]? = some u → Castable w (classOfLocal f r i) u
  lists : w.byHost.get? listClass = some .list

def valuesOf (locals : Array Value) (frame : List Int) : List Value :=
  frame.map fun i => locals[i.toNat]?.getD .null

theorem loads_valuesOf {locals : Array Value} {frame : List Int}
    (inside : ∀ i ∈ frame, i.toNat < locals.size) :
    List.Forall₂ (fun (i : Int) v => locals[i.toNat]? = some v) frame (valuesOf locals frame) := by
  rw [valuesOf, List.forall₂_map_right_iff, List.forall₂_same]
  intro i mem
  rw [Array.getElem?_eq_getElem (inside i mem)]
  rfl

/-- Saving takes code for each value. -/
theorem length_le_save (depth : Nat) (frame : List Int) (state : Int) :
    depth + frame.length ≤ codeSize (saveLines depth frame state) := by
  have stack : depth ≤
      codeSize (List.replicate depth (reverseAddLines listClass)).flatten := by
    induction depth with
    | zero => exact Nat.zero_le _
    | succ n ih =>
      rw [List.replicate_succ, List.flatten_cons, codeSize_append]
      have one : 1 ≤ codeSize (reverseAddLines listClass) := by decide
      omega
  have locals : frame.length ≤ codeSize (addLines frame) := by
    induction frame with
    | nil => exact Nat.zero_le _
    | cons i frame ih =>
      rw [addLines, List.flatMap_cons, codeSize_append, List.length_cons]
      have one : 1 ≤ codeSize [.plain .dup, .load .ref i.toNat, callLine listAdd] := by
        simp [Line.size]
      exact (Nat.add_comm _ _).trans_le (Nat.add_le_add one ih)
  simp only [saveLines, codeSize_append]
  omega

theorem Castable.mono {w w' : World} {cls : String} {v : Value} (keeps : w.KeepsClasses w')
    (h : Castable w cls v) : Castable w' cls v :=
  h.imp_right fun h => h.imp_right (keeps v cls)

/-- A method with a yield in it, which is lowered from the state `s₁` to `s₂`. -/
structure YieldCode (c : Source) (m : Method) (s₁ s₂ s₃ s : State) (front : List Line)
    (rest : Snapshot) (resume notThrown : Label) (back ending : List Line) : Prop where
  generator : c.function.generator = true
  whole : Whole c m s₃ s (front ++ (yieldLines rest.length (c.function.frame s₁.pool) s₁.nextState
    resume notThrown ++ back)) ending
  start : s₁.assembler.bytes.size = codeSize front
  stop : s₂.assembler.bytes.size = codeSize front + codeSize (yieldLines rest.length
    (c.function.frame s₁.pool) s₁.nextState resume notThrown)
  stack : s₁.stack.tail = rest
  frame : ∃ n : Nat, c.function.frame s₁.pool = slotsFrom c.function.localBase n ∧
    c.function.localBase + n ≤ s₃.pool.maxLocals
  keeps : ∀ i, i ∈ c.function.frame s₁.pool ↔ c.function.Keeps s₁ i
  point : ∃ qs, s₃.resumes.toList = s₁.resumes.toList ++ {
    state := s₁.nextState
    label := resume
    stack := rest
    frame := c.function.frame s₁.pool
    frameOnly := false } :: qs
  regions : ∀ h ∈ m.handlers, ∀ pc : Nat, s₁.assembler.bytes.size ≤ pc →
    pc < s₂.assembler.bytes.size → h.covers pc = h.covers s₁.assembler.bytes.size

/-- A yield is found in the method that comes of it and other actions. -/
theorem Cut.yieldCode {after : List Action} {newer : List PendingHandler}
    (cut : Cut c m (.perform .yield) after s₁ s₂ s₃ s front back ending newer) :
    ∃ rest resume notThrown, YieldCode c m s₁ s₂ s₃ s front rest resume notThrown back ending := by
  obtain ⟨generator, top, rest, resume, notThrown, shape, advanced, inner, resumes⟩ :=
    yield_added cut.tidy₁ cut.run cut.fine
  obtain ⟨fresh, wrote⟩ := advanced.wrote
  have start : s₁.assembler.bytes.size = codeSize front := cut.held.size
  have stop := (wrote.spelled cut.fine.2 front cut.held).size
  rw [codeSize_append] at stop
  refine ⟨rest, resume, notThrown, generator, cut.whole advanced, start, stop, by rw [shape]; rfl,
    ?_, cut.tidy₁.mem_frame, ?_, fun h mem pc le lt => ?_⟩
  · have base := cut.tidy₁.base
    have first := c.function.localBase_le
    have inside := cut.tidy₁.maxLocals
    have more := advanced.maxLocals.trans cut.later.maxLocals
    exact ⟨_, cut.tidy₁.framed, by omega⟩
  · obtain ⟨qs, split⟩ := cut.later.resumes
    rw [resumes, Array.toList_push, List.append_assoc] at split
    exact ⟨qs, split.symm⟩
  · -- no entry begins or ends in the middle of the yield
    obtain ⟨g, registered, resolved⟩ := cut.tabled.mem mem
    obtain ⟨first, last, target, hs, he, -, rfl⟩ := resolve_eq_ok_iff.mp resolved
    rw [cut.handlers wrote, List.nil_append] at registered
    have low := cut.outside wrote inner registered (l := g.start) (by simp [guardLabels]) hs
    have high := cut.outside wrote inner registered (l := g.stop) (by simp [guardLabels]) he
    rw [start] at le ⊢
    rw [stop] at lt
    simp only [Handler.covers]
    rw [Bool.eq_iff_iff]
    simp only [Bool.and_eq_true, decide_eq_true_eq]
    omega

namespace YieldCode

variable {rest : Snapshot} {resume notThrown : Label}
  (code : YieldCode c m s₁ s₂ s₃ s front rest resume notThrown back ending)

include code

/-- The frame is in the locals of an activation, behind the generator. -/
theorem usable (room : s₃.pool.maxLocals ≤ x.locals.size) :
    ∀ i ∈ c.function.frame s₁.pool, 0 < i.toNat ∧ i.toNat < x.locals.size := by
  intro i mem
  obtain ⟨n, frame, inside⟩ := code.frame
  have base : c.function.localBase = 1 := if_pos code.generator
  rw [frame, mem_slotsFrom] at mem
  omega

/-- An activation of the body of a generator has it in its first local, and room for all others. -/
theorem self (here : Yielding c.function s₁ r m call g G v vals x w) :
    x.locals[0]? = some g ∧ s₃.pool.maxLocals ≤ x.locals.size := by
  obtain ⟨x₀, w₀, start, run⟩ := here.runs
  exact code.whole.self code.generator start run

/-- The lines of the yield, in front of the place where it resumes and from there on. -/
theorem reads : ReadsFrom m s.assembler.pool s.assembler.position? s₁.assembler.bytes.size
      (yieldLines rest.length (c.function.frame s₁.pool) s₁.nextState resume notThrown) ∧
    ∃ q : Nat, s₁.assembler.bytes.size ≤ q ∧ s.assembler.position? resume = some q ∧
      q + codeSize (thrownLines notThrown) = s₂.assembler.bytes.size ∧
        ReadsFrom m s.assembler.pool s.assembler.position? q (thrownLines notThrown) := by
  have reads := code.whole.lined.reads
  rw [readsFrom_append, readsFrom_append, readsFrom_append, Nat.zero_add] at reads
  have own := reads.1.2.1
  rw [code.start]
  refine ⟨own, ?_⟩
  simp only [yieldLines, readsFrom_append, ReadsFrom, Line.size, Nat.add_zero] at own
  obtain ⟨-, -, -, mark, thrown⟩ := own
  cases mark with
  | mark place =>
    refine ⟨_, ?_, place, ?_, thrown⟩
    · omega
    · rw [code.stop]
      simp only [yieldLines, codeSize_append, codeSize_cons, Line.size]
      omega

/-- The generator suspends with its operand stack and its frame saved. -/
theorem suspends (here : Yielding c.function s₁ r m call g G v vals x w) :
    ∃ z w' l, ReflTransGen (Effect.Loops call) (x, w) (z, w') ∧ z.step = .ok (.return .null) ∧
      w.KeepsClasses w' ∧ w'.generator? g = some (G.suspended v l s₁.nextState) ∧
        w'.sequence? l = some (.list, vals.reverse ++ valuesOf x.locals (c.function.frame s₁.pool)) := by
  obtain ⟨self, room⟩ := code.self here
  obtain ⟨x₀, w₀, start, run⟩ := here.runs
  obtain ⟨method, -⟩ := code.whole.activation start run
  have loads := loads_valuesOf fun i mem => (code.usable room i mem).2
  have depth : rest.length = vals.length := by
    rw [← code.stack]
    exact here.below.length_eq
  obtain ⟨l, w', gen, list, keeps, runs⟩ := exec_yield code.whole.spelled.honest self
    here.generator here.lists loads v vals s₁.nextState resume notThrown
  rw [← depth] at runs
  have ready : Ready m s.assembler.position? s₁.assembler.bytes.size (v :: vals) x.locals x none :=
    ⟨method, here.position, here.stack, rfl⟩
  obtain ⟨z, reaches, returns⟩ := exec_reached code.reads.1 ready runs
  exact ⟨z, w', l, reaches.loops, returns, keeps, gen, list⟩

end YieldCode

/-! ## Resuming -/

/-- How a generator goes on that is resumed at a yield, which was lowered from the state `s` to `s'`.
The activation `x` was suspended there with the values `vals` below the one that was yielded. -/
def GoesOn (f : Function) (s s' : State) (m : Method) (call : Caller) (g : Value) (vals : List Value)
    (x : Frame) (sent : Value) (start : Frame × World) : Option Value → Prop
  | none => ∃ y, ReflTransGen (Effect.Loops call) start (y, start.2) ∧ y.method = m ∧
      y.position = s'.assembler.bytes.size ∧ y.stack = sent :: vals ∧
        ∀ i, f.Keeps s i → y.locals[i.toNat]? = x.locals[i.toNat]?
  | some e => ∃ y q y' w w', ReflTransGen (Effect.Loops call) start (y, w) ∧
      y.step = .ok (.ask q y') ∧ serve call q w = (.error (.raised e), w') ∧ y'.method = m ∧
        (∀ i, f.Keeps s i → y'.locals[i.toNat]? = x.locals[i.toNat]?) ∧
          (∀ h ∈ m.handlers, h.covers y'.current = h.covers x.position.toNat) ∧
            ∃ G, w'.generator? g = some G ∧ G.field thrownValue.name = .null

/-- A generator that holds what was saved at a yield goes on there. -/
theorem YieldCode.goesOn {rest : Snapshot} {resume notThrown : Label}
    (code : YieldCode c m s₁ s₂ s₃ s front rest resume notThrown back ending)
    (here : Yielding c.function s₁ s₃.registry m call g G v vals x w) {x₀ : Frame}
    (start : Frame.start m (g :: G.args) = .ok x₀) {w' : World} {G' : Generator} {sent : Value}
    {thrown : Option Value} (gen : w'.generator? g = some G')
    (state : G'.field generatorState.name = .word (.ofInt s₁.nextState))
    (list : w'.sequence? (G'.field generatorStack.name) =
      some (.list, vals.reverse ++ valuesOf x.locals (c.function.frame s₁.pool)))
    (sends : G'.field sentValue.name = sent)
    (throws : G'.field thrownValue.name = thrown.getD .null) (keeps : w.KeepsClasses w')
    (exception : ∀ e, thrown = some e → w'.IsException e) :
    GoesOn c.function s₁ s₂ m call g vals x sent (x₀, w') thrown := by
  obtain ⟨self, room⟩ := code.self here
  obtain ⟨-, room₀, arguments⟩ := start_eq_ok_iff start
  have inside := code.usable room
  have honest := code.whole.spelled.honest
  have loads := loads_valuesOf fun i mem => (inside i mem).2
  have depth : vals.length = rest.length := by
    rw [← code.stack]
    exact here.below.length_eq.symm
  have short := code.whole.short code.generator
  have small : (vals.reverse ++ valuesOf x.locals (c.function.frame s₁.pool)).length < 2 ^ 63 := by
    have saves := length_le_save rest.length (c.function.frame s₁.pool) s₁.nextState
    simp only [yieldLines, codeSize_append] at short
    simp only [List.length_append, List.length_reverse, valuesOf, List.length_map]
    omega
  have fits : Fitting s₃.registry w' rest vals := by
    rw [← code.stack]
    exact here.below.imp fun _ _ => .mono keeps
  have framed : List.Forall₂ (fun i v => Castable w' (classOfLocal c.function s₃.registry i) v)
      (c.function.frame s₁.pool) (valuesOf x.locals (c.function.frame s₁.pool)) := by
    rw [valuesOf, List.forall₂_map_right_iff, List.forall₂_same]
    intro i mem
    refine (here.frame i ((code.keeps i).mp mem) _ ?_).mono keeps
    rw [Array.getElem?_eq_getElem (inside i mem).2]
    rfl
  obtain ⟨qs, split⟩ := code.point
  obtain ⟨y, q, place, runs, there⟩ := code.whole.resumes code.generator call start split gen state
    ⟨⟨G', _, gen, rfl, list⟩, small⟩ depth
    ⟨fun _ => fits.loadable, framed.imp fun _ _ => Castable.narrows⟩
  obtain ⟨-, q', behind, place', ends, reads⟩ := code.reads
  cases place.symm.trans place'
  rw [sends] at there
  -- the frame is as it was, and the generator is still in the first local
  have room' : s₃.pool.maxLocals ≤ (clearedLocals c.function x₀.locals).size := by
    rw [size_clearedLocals, ← code.whole.maxLocals, ← code.whole.built.locals]
    exact room₀
  have inside' := code.usable (x := { x₀ with locals := clearedLocals c.function x₀.locals }) room'
  have restored : ∀ i ∈ c.function.frame s₁.pool, (fill (clearedLocals c.function x₀.locals)
      (c.function.frame s₁.pool) (valuesOf x.locals (c.function.frame s₁.pool)))[i.toNat]? =
        x.locals[i.toNat]? := by
    refine getElem?_fill ?_ (fun i mem => (inside' i mem).2) loads
    obtain ⟨n, frame, -⟩ := code.frame
    rw [frame]
    exact nodup_slotsFrom c.function.nonneg_localBase n
  have self' : (fill (clearedLocals c.function x₀.locals) (c.function.frame s₁.pool)
      (valuesOf x.locals (c.function.frame s₁.pool)))[0]? = some g := by
    rw [getElem?_fill_of_notMem fun i mem => (inside' i mem).1.ne',
      first_clearedLocals code.generator]
    exact arguments 0 (by simp)
  have ready : Ready m s.assembler.position? q (sent :: vals) _ y none := there
  cases thrown with
  | none =>
    obtain ⟨z, runs', there'⟩ := exec_reached reads ready
      (exec_notThrown honest self' gen throws notThrown)
    refine ⟨z, runs.loops.trans runs'.loops, there'.method, ?_, there'.stack, fun i kept => ?_⟩
    · rw [there'.position, ends]
    · rw [there'.locals]
      exact restored i ((code.keeps i).mpr kept)
  | some e =>
    have raises := exception e rfl
    obtain ⟨z, w₁, q₁, z', runs', step, served, method, locals, le, lt⟩ := exec_reached reads ready
      (exec_thrown honest self' gen throws raises.ne_null
        ((raises.withGenerator gen _).serve_throw call) notThrown)
    refine ⟨z, q₁, z', w₁, _, runs.loops.trans runs'.loops, step, served, method, fun i kept => ?_,
      fun h mem => ?_, _, World.generator?_withGenerator gen, ?_⟩
    · rw [locals]
      exact restored i ((code.keeps i).mpr kept)
    · rw [here.position]
      exact code.regions h mem _ (behind.trans le) (ends ▸ lt)
    · rw [Generator.field_withField, if_pos rfl]

/-- A generator that yields is resumed where it was suspended. The resumption starts the method again
on the generator and its arguments, in the world in which the generator has got what was sent and
thrown in, and it gets to the yield. -/
theorem yield_round_trip {before after : List Action}
    (reached : stateBy f r before = .ok s₁)
    (passed : stateBy f r (before ++ [.perform .yield]) = .ok s₂)
    (ended : stateBy f r (before ++ .perform .yield :: after) = .ok s₃)
    (finished : s₃.finish f = .ok (.ok m))
    (here : Yielding f s₁ s₃.registry m call g G v vals x w) :
    ∃ z w' G' x₁, ReflTransGen (Effect.Loops call) (x, w) (z, w') ∧ z.step = .ok (.return .null) ∧
      w'.generator? g = some G' ∧ G'.field Library.yieldedValue.name = v ∧
      Frame.start m (g :: G.args) = .ok x₁ ∧
        ∀ w₂ sent thrown, World.Rested g w' w₂ → w'.KeepsClasses w₂ →
          (∀ e, thrown = some e → w₂.IsException e) →
            Effect.resume call g sent thrown w₂ = Effect.settle g
                (Effect.runFrom call Effect.stepLimit x₁ (w₂.resuming g G'.idle sent thrown)) ∧
              GoesOn f s₁ s₂ m call g vals x sent (x₁, w₂.resuming g G'.idle sent thrown) thrown := by
  have lowered : methodBy f r (before ++ .perform .yield :: after) = .ok (.ok m) := by
    rw [methodBy, ended]
    exact finished
  obtain ⟨t₁, t₂, t₃, s, front, back, ending, newer, e₁, e₂, e₃, cut⟩ :=
    exists_cut (c := ⟨f, Set.univ, fun _ _ => trivial⟩) (fun _ _ => trivial) lowered
  obtain rfl := Except.ok.inj (reached.symm.trans e₁)
  obtain rfl := Except.ok.inj (passed.symm.trans e₂)
  obtain rfl := Except.ok.inj (ended.symm.trans e₃)
  obtain ⟨rest, resume, notThrown, code⟩ := cut.yieldCode
  obtain ⟨z, w', l, runs, returns, kept, gen, list⟩ := code.suspends here
  obtain ⟨x₀, -, start, -⟩ := here.runs
  refine ⟨z, w', _, x₀, runs, returns, gen, G.yielded_suspended v l _, start,
    fun w₂ sent thrown rested keeps exception => ?_⟩
  obtain ⟨G', gen', gen₂, same⟩ := rested
  cases gen.symm.trans gen'
  rw [G.stack_suspended, list] at same
  obtain ⟨qs, split⟩ := code.point
  obtain ⟨begun, -⟩ := code.whole.state_ne code.generator split
  have gen₃ : (w₂.withGenerator g ((G.suspended v l s₁.nextState).idle.resumed sent
      thrown)).generator? g = some ((G.suspended v l s₁.nextState).idle.resumed sent thrown) :=
    World.generator?_withGenerator gen₂
  rw [here.body.symm] at start
  refine ⟨Effect.resume_suspended call gen₂ here.unfinished begun start,
    code.goesOn here (here.body ▸ start) gen₃ ?_ ?_ ?_ ?_ ?_ ?_⟩
  · rw [Generator.field_resumed, if_neg (by decide), if_neg (by decide), Generator.field_idle,
      G.state_suspended]
  · rw [Generator.field_resumed, if_neg (by decide), if_neg (by decide), Generator.field_idle,
      G.stack_suspended, World.resuming, World.sequence?_withGenerator gen₂]
    exact same
  · rw [Generator.field_resumed, if_neg (by decide), if_pos rfl]
  · rw [Generator.field_resumed, if_pos rfl]
  · exact (kept.trans keeps).trans (World.keepsClasses_withGenerator gen₂ _)
  · exact fun e thrown_ => (exception e thrown_).withGenerator gen₂ _

/-- A generator that yields its argument with the argument below it. -/
def echoing : Function where
  dialect := some .bare
  verify := false
  generator := true
  argCount := 1
  locals := #[none]

def echoStart : List Action :=
  [.visit 0 [.dynamic], .perform .generatorStart, .perform (.loadLocal 0), .perform (.loadLocal 0)]

def echoEnd : List Action := [.perform .pop, .perform .returnValue]

/-- The echo of true, which has begun to run, as the only object of a world. -/
def echoWorld (m : Method) : World where
  heap := #[.generator { Generator.new m [.bool true] with running := true }]
  byHost := [(listClass, .list)]

theorem echoing_dynamic (r : Registry) (i : Int) : classOfLocal echoing r i = objectClass := by
  simp only [classOfLocal]
  split
  · rename_i range
    have first : (i - echoing.localBase).toNat = 0 := by
      have one : echoing.locals.size = 1 := rfl
      omega
    simp only [first]
    rfl
  · rfl

theorem yield_round_trip_echoing : ∃ s₁ s₂ s₃ m call g G v vals x w,
    stateBy echoing .builtin echoStart = .ok s₁ ∧
    stateBy echoing .builtin (echoStart ++ [.perform .yield]) = .ok s₂ ∧
    stateBy echoing .builtin (echoStart ++ .perform .yield :: echoEnd) = .ok s₃ ∧
    s₃.finish echoing = .ok (.ok m) ∧ Yielding echoing s₁ s₃.registry m call g G v vals x w ∧
    ∃ (w' : World) (G' : Generator) (x₁ : Frame), w'.generator? g = some G' ∧
      G'.field Library.yieldedValue.name = v ∧ Frame.start m (g :: G.args) = .ok x₁ ∧
      let w₂ := w'.withGenerator g G'.idle
      Effect.resume call g .none none w₂ = Effect.settle g
          (Effect.runFrom call Effect.stepLimit x₁ (w₂.resuming g G'.idle .none none)) ∧
        GoesOn echoing s₁ s₂ m call g vals x .none (x₁, w₂.resuming g G'.idle .none none) none := by
  have yields : (activation? echoing .builtin (echoStart ++ .perform .yield :: echoEnd)
      (fun _ => throw .outOfFuel) [.object ⟨0⟩, .bool true] echoWorld 14).any (fun (m, x, w) =>
      x.position == 18 && x.stack == [.bool true, .bool true] &&
        w.byHost.get? Library.listClass == some .list &&
          (w.generator? (.object ⟨0⟩)).any fun G =>
            G.method == m && G.args == [.bool true] && !G.finished) = true := by
    decide +kernel
  have stands : (stateBy echoing .builtin echoStart).toOption.any (fun s =>
      s.assembler.bytes.size == 18 && s.stack.tail.map (·.known) == [objectType]) = true := by
    decide +kernel
  have objects : (stateBy echoing .builtin
      (echoStart ++ .perform .yield :: echoEnd)).toOption.any (fun s =>
        s.registry.hostClass objectType == Library.objectClass) = true := by
    decide +kernel
  obtain ⟨⟨m, x, w⟩, found, holds⟩ := (Option.any_eq_true _ _).mp yields
  obtain ⟨lowered, start, started, runs⟩ := activation?_eq_some found
  obtain ⟨s₁, s₂, s₃, -, -, -, -, -, reached, passed, ended, -⟩ :=
    exists_cut (c := ⟨echoing, Set.univ, fun _ _ => trivial⟩) (fun _ _ => trivial) lowered
  have finished : s₃.finish echoing = .ok (.ok m) := by
    rw [methodBy, ended] at lowered
    exact lowered
  rw [reached] at stands
  rw [ended] at objects
  simp only [Except.toOption, Option.any_some, Bool.and_eq_true, beq_iff_eq, Option.any_eq_true,
    Bool.not_eq_true'] at holds stands objects
  obtain ⟨⟨⟨position, stack⟩, lists⟩, G, generator, ⟨body, args⟩, unfinished⟩ := holds
  have here : Yielding echoing s₁ s₃.registry m (fun _ => throw .outOfFuel) (.object ⟨0⟩) G
      (.bool true) [.bool true] x w := by
    refine ⟨generator, body, unfinished, ⟨start, _, args ▸ started, runs⟩, ?_, stack, ?_, ?_, lists⟩
    · rw [position, stands.1]
      rfl
    · obtain ⟨slot, eq, known⟩ := List.map_eq_singleton_iff.mp stands.2
      rw [eq]
      refine .cons (.inl ?_) .nil
      rw [known]
      exact objects
    · exact fun i _ u _ => .inl (echoing_dynamic _ i)
  obtain ⟨-, w', G', x₁, -, -, gen', yielded, begins, resumes⟩ :=
    yield_round_trip reached passed ended finished here
  refine ⟨s₁, s₂, s₃, m, _, _, G, _, _, x, w, reached, passed, ended, finished, here, w', G', x₁, gen',
    yielded, begins, resumes _ .none none ⟨G', gen', World.generator?_withGenerator gen',
      World.sequence?_withGenerator gen' _⟩ (World.keepsClasses_withGenerator gen' _) ?_⟩
  rintro e ⟨⟩

end HostLowering.Lower
