import HostLowering.Proofs.Lower.Binders
import HostLowering.Proofs.Lower.Exhaustion
import HostLowering.Proofs.Lower.RoundTrip
import HostLowering.Proofs.Object.Sparing

set_option autoImplicit false

/-! # The life of a generator

A generator is at its start, suspended, running or finished. What it answers when it is resumed depends
on that alone (`Generator.Answers`), unless its body runs; then the outcome of the resumption is that of
the body, which leaves the generator suspended or finished (`Effect.Settles`). Main statement: whatever
has been done before, also by the body itself while it runs, the generator runs only inside of
resumptions, is finished for ever once it is, and answers as it should (`generator_protocol`).
-/

namespace HostLowering.Object

open Machine Library
open Relation (ReflTransGen)

variable {w w' : World} {v : Value} {G H : Generator} {call : Caller} {sent : Value}
  {thrown : Option Value}

/-! ## Raising -/

/-- All objects are as they were, but there may be new ones. -/
def World.Grows (w w' : World) : Prop := ∀ u o, w.object? u = some o → w'.object? u = some o

/-- An error is raised with a text, and no object changes. -/
def World.Refuses (w : World) (c : ClassId) (text : String) (out : Except Stop Value × World) : Prop :=
  ∃ e, out.1 = .error (.raised e) ∧ out.2.Complains e c text ∧ w.Grows out.2

/-- The end of an iteration is raised with a value, and no object changes. -/
def World.Ends (w : World) (value : Value) (out : Except Stop Value × World) : Prop :=
  ∃ e fields, out.1 = .error (.raised e) ∧ out.2.record? e = some (.stopIteration, fields) ∧
    fields.get? "value" = some value ∧ w.Grows out.2

theorem Effect.grows_newException (w : World) (c : ClassId) (args : List Value) :
    w.Grows (Effect.newException c args w).2 := by
  intro u o found
  have stored : ({ w with storage := (w.storage.add args args.length).2 } : World).object? u = some o :=
    found
  exact World.object?_push _ (World.object?_push _ stored)

theorem Effect.refuses_raise (w : World) (c : ClassId) (text : String) :
    w.Refuses c text ((Effect.raise c text : Effect Value) w) := by
  obtain ⟨e, w', raised, complains⟩ := World.raise_complains (α := Value) w c text
  have grows : w.Grows ((Effect.raise c text : Effect Value) w).2 := fun u o found =>
    Effect.grows_newException (w.push (.str text)) c _ u o (World.object?_push _ found)
  rw [raised] at grows ⊢
  exact ⟨e, rfl, complains, grows⟩

theorem Effect.ends_stopIteration (ends : w.isSubclass .stopIteration .stopIteration = true) :
    w.Ends v ((Effect.stopIteration v : Effect Value) w) := by
  let place := (w.storage.add [v] 1).1
  let stored : World := { w with storage := (w.storage.add [v] 1).2 }
  let listed := stored.push (.sequence .tuple place)
  let fields : Table String Value := ("args", .object ⟨stored.heap.size⟩) ::
    if stored.isSubclass .stopIteration .stopIteration then
      [("value", (stored.items place).headD .none)]
    else []
  have raised : (Effect.stopIteration v : Effect Value) w =
    (.error (.raised (.object ⟨listed.heap.size⟩)), listed.push (.record .stopIteration fields)) := rfl
  refine ⟨_, fields, congrArg Prod.fst raised, ?_, ?_, Effect.grows_newException w _ _⟩
  · rw [raised]
    simp only [World.record?, World.object?_push_self]
  · have carried : stored.items place = [v] := Storage.items_add _ _ _
    have value : fields = [("args", .object ⟨stored.heap.size⟩), ("value", v)] := by
      show _ :: (if stored.isSubclass .stopIteration .stopIteration then _ else _) = _
      rw [if_pos (show stored.isSubclass .stopIteration .stopIteration = true from ends), carried]
      rfl
    rw [value]
    rfl

/-! ## Resuming -/

/-- The generator when it is finished. -/
def Generator.done (G : Generator) : Generator := { G with running := false, finished := true }

theorem Effect.bind_generator {k : Generator → Effect Value} (gen : w.generator? v = some G) :
    (do let g ← Effect.require ((← get).generator? v); k g : Effect Value) w = k G w := by
  rw [Effect.bind_get, gen]
  rfl

/-- What a generator answers when it is resumed in a world and its body does not run. -/
structure Generator.Answers (G : Generator) (call : Caller) (w : World) (v : Value) : Prop where
  finished : G.finished = true → ∀ sent,
    (∀ e, Effect.resume call v sent (some e) w = (.error (.raised e), w)) ∧
      Effect.resume call v sent none w = Effect.stopIteration .none w ∧
        w.Ends .none (Effect.resume call v sent none w)
  running : G.finished = false → G.running = true → ∀ sent thrown,
    w.Refuses .valueError "generator already executing" (Effect.resume call v sent thrown w)
  thrown : G.finished = false → G.running = false → G.inState stateStart = true →
    ∀ sent e, Effect.resume call v sent (some e) w = (.error (.raised e), w.withGenerator v G.done)
  sent : G.finished = false → G.running = false → G.inState stateStart = true →
    ∀ sent, sent ≠ .none → w.Refuses .typeError
      "can't send non-None value to a just-started generator" (Effect.resume call v sent none w)

theorem Generator.answers (call : Caller) (gen : w.generator? v = some G)
    (ends : w.isSubclass .stopIteration .stopIteration = true) : G.Answers call w v where
  finished done sent := by
    have stops : Effect.resume call v sent none w = Effect.stopIteration .none w := by
      refine (Effect.bind_generator gen).trans ?_
      rw [if_pos done]
    refine ⟨fun e => ?_, stops, ?_⟩
    · refine (Effect.bind_generator gen).trans ?_
      rw [if_pos done]
      rfl
    · rw [stops]
      exact Effect.ends_stopIteration ends
  running unfinished runs sent thrown := by
    have raises : Effect.resume call v sent thrown w =
        Effect.raise .valueError "generator already executing" w := by
      refine (Effect.bind_generator gen).trans ?_
      simp only [unfinished, runs, Bool.false_eq_true, if_false, if_true]
    rw [raises]
    exact Effect.refuses_raise w _ _
  thrown unfinished idle start sent e := by
    refine (Effect.bind_generator gen).trans ?_
    simp only [unfinished, idle, start, Bool.false_eq_true, if_false, if_true]
    have done : { G with finished := true } = G.done := by rw [Generator.done, ← idle]
    rw [← done]
    exact (Effect.bind_ok (Effect.changeGenerator_eq gen _)).trans (Effect.bind_error rfl)
  sent unfinished idle start sent other := by
    have raises : Effect.resume call v sent none w =
        Effect.raise .typeError "can't send non-None value to a just-started generator" w := by
      refine (Effect.bind_generator gen).trans ?_
      simp only [unfinished, idle, start, Bool.false_eq_true, if_false, if_true]
      rw [if_pos other]
      exact Effect.bind_error rfl
    rw [raises]
    exact Effect.refuses_raise w _ _

/-! ## What comes of the body -/

namespace World

theorem withGenerator_withGenerator (w : World) (v : Value) (G H : Generator) :
    (w.withGenerator v G).withGenerator v H = w.withGenerator v H := by
  cases v with
  | object r => simp [withGenerator, put]
  | _ => rfl

theorem record?_withGenerator (gen : w.generator? v = some G) (H : Generator) (u : Value) :
    (w.withGenerator v H).record? u = w.record? u := by
  rw [record?, record?, object?_withGenerator gen]
  by_cases same : u = v
  · rw [if_pos same, same, object?_of_generator? gen]
  · rw [if_neg same]

end World

theorem endsIteration_withGenerator (gen : w.generator? v = some G) (H : Generator) (s : Stop) :
    Effect.endsIteration (w.withGenerator v H) s = Effect.endsIteration w s := by
  cases s with
  | raised e =>
    simp only [Effect.endsIteration, World.record?_withGenerator gen, World.isSubclass,
      World.lineage_withGenerator]
  | _ => rfl

/-- What comes of a resumption in which the body has run and left the generator as `H`. An error goes on,
but the end of an iteration is another error then; a return is the end of the iteration; and otherwise
the body has yielded. -/
def Effect.Settles (v : Value) (H : Generator) (run out : Except Stop Value × World) : Prop :=
  match run.1 with
  | .error s =>
    if endsIteration run.2 s then
      (run.2.withGenerator v H.done).Refuses .runtimeError "generator raised StopIteration" out
    else out = (.error s, run.2.withGenerator v H.done)
  | .ok _ =>
    if H.inState stateFinished then
      (run.2.withGenerator v H.done).Ends (H.field yieldedValue.name) out
    else out = (.ok (H.field yieldedValue.name), run.2.withGenerator v H.idle)

theorem Effect.settles {run : Except Stop Value × World} (gen : run.2.generator? v = some H)
    (ends : run.2.isSubclass .stopIteration .stopIteration = true) :
    Effect.Settles v H run (Effect.settle v run) := by
  obtain ⟨r, w⟩ := run
  have idle : (w.withGenerator v H.idle).generator? v = some H.idle :=
    World.generator?_withGenerator gen
  have finishes : Effect.finishGenerator v (w.withGenerator v H.idle) =
      (.ok (), w.withGenerator v H.done) := by
    rw [Effect.finishGenerator, Effect.changeGenerator_eq idle, World.withGenerator_withGenerator]
    rfl
  have settled : Effect.settle v (r, w) = Effect.afterRun v r (w.withGenerator v H.idle) :=
    Effect.bind_ok (Effect.changeGenerator_eq gen _)
  rw [settled]
  cases r with
  | error s =>
    have runs : Effect.afterRun v (.error s) (w.withGenerator v H.idle) =
        (if Effect.endsIteration w s then
          Effect.raise .runtimeError "generator raised StopIteration" else throw s : Effect Value)
            (w.withGenerator v H.done) := by
      refine (Effect.bind_ok finishes).trans ?_
      rw [Effect.bind_get, endsIteration_withGenerator gen]
    rw [runs]
    show if _ then _ else _
    split
    · exact Effect.refuses_raise _ _ _
    · rfl
  | ok u =>
    have runs : Effect.afterRun v (.ok u) (w.withGenerator v H.idle) =
        (if H.inState stateFinished then
          Effect.finishGenerator v >>= fun _ => Effect.stopIteration (H.field yieldedValue.name)
        else pure (H.field yieldedValue.name) : Effect Value) (w.withGenerator v H.idle) := by
      refine (Effect.bind_generator idle).trans ?_
      rfl
    rw [runs]
    show if _ then _ else _
    split
    · rw [Effect.bind_ok finishes]
      refine Effect.ends_stopIteration ?_
      rwa [World.isSubclass, World.lineage_withGenerator]
    · rfl

def Generator.returned (G : Generator) (u : Value) : Generator :=
  ((G.withField yieldedValue u).withField generatorStack .null).withField
    generatorState (.word (.ofInt stateFinished))

/-- A return is the end of the iteration. -/
theorem Effect.Settles.ends {u r : Value} {out : Except Stop Value × World}
    (h : Effect.Settles v (G.returned u) (.ok r, w.withGenerator v (G.returned u)) out) :
    (w.withGenerator v (G.returned u).done).Ends u out := by
  have finished : (G.returned u).inState stateFinished = true := by
    rw [Generator.inState, Generator.returned, Generator.field_withField, if_pos rfl]
    exact beq_self_eq_true _
  have value : (G.returned u).field yieldedValue.name = u := by
    rw [Generator.returned, Generator.field_withField, if_neg (by decide), Generator.field_withField,
      if_neg (by decide), Generator.field_withField, if_pos rfl]
  have ends : if _ then _ else _ := h
  rwa [if_pos finished, value, World.withGenerator_withGenerator] at ends

/-! ## Whatever is done -/

/-- Something that is done in a world: a call, or a resumption of a generator. -/
inductive Deed
  | call (c : Call)
  | resume (sent : Value) (thrown : Option Value)

def Deed.perform (v : Value) (n depth : Nat) : Deed → Effect Value
  | .call c => Effect.performUpTo n depth c
  | .resume sent thrown => Effect.resume (Effect.performUpTo n depth) v sent thrown

/-- The world after several deeds, whatever has come of them. Each is done inside some calls and has
some fuel. -/
def World.after (w : World) (v : Value) (deeds : List (Nat × Nat × Deed)) : World :=
  deeds.foldl (fun w (n, depth, d) => (d.perform v n depth w).2) w

instance {n depth : Nat} {d : Deed} : Effect.Sparing (d.perform v n depth) := by
  cases d <;> unfold Deed.perform <;> infer_instance

theorem World.spares_after (w : World) (v : Value) (deeds : List (Nat × Nat × Deed)) :
    w.Spares (w.after v deeds) := by
  induction deeds generalizing w with
  | nil => exact .refl w
  | cons d deeds ih =>
    have first : Effect.SparesIn w (d.2.2.perform v d.1 d.2.1) := inferInstance
    exact first.spares.trans (ih _)

/-- Whatever the body of a method does, generators are spared. -/
theorem Effect.spares_loops [∀ c, Effect.Sparing (call c)] {x y : Frame × World}
    (run : ReflTransGen (Effect.Loops call) x y) : x.2.Spares y.2 := by
  induction run with
  | refl => exact .refl _
  | tail _ step ih => exact ih.trans (Effect.spares_turn step)

/-- A method runs to where its loop ends, unless it takes too long. -/
theorem Effect.runFrom_of_loops {x y : Frame × World} {out : Except Stop Value × World}
    (run : ReflTransGen (Effect.Loops call) x y) (ends : Effect.turn call y.1 y.2 = .inl out) (n : Nat) :
    Effect.runFrom call n x.1 x.2 = out ∨ (Effect.runFrom call n x.1 x.2).1 = .error .outOfFuel := by
  induction run using ReflTransGen.head_induction_on generalizing n with
  | refl =>
    cases n with
    | zero => exact .inr rfl
    | succ n =>
      left
      simp only [Effect.runFrom, ends]
  | head step _ ih =>
    cases n with
    | zero => exact .inr rfl
    | succ n =>
      have next : Effect.turn call _ _ = .inr _ := step
      simp only [Effect.runFrom, next]
      exact ih n

/-- What becomes of a generator whose body runs: meanwhile, whatever is done, it counts as running and is
not finished, so that it refuses to be resumed; and in the end what comes of the body settles what comes
of the resumption. -/
structure Generator.Runs (G : Generator) (call : Caller) (w : World) (v : Value) (sent : Value)
    (thrown : Option Value) : Prop where
  meanwhile : ∀ x₀ x w', Frame.start G.method (v :: G.args) = .ok x₀ →
    ReflTransGen (Effect.Loops call) (x₀, w.resuming v G sent thrown) (x, w') → ∀ deeds,
      ∃ H, (w'.after v deeds).generator? v = some H ∧ H.running = true ∧ H.finished = false ∧
        ∀ call, H.Answers call (w'.after v deeds) v
  settled : ∃ H,
    (Effect.runMethod call G.method (v :: G.args) (w.resuming v G sent thrown)).2.generator? v = some H ∧
      (G.resumed sent thrown).Becomes H ∧ Effect.Settles v H
        (Effect.runMethod call G.method (v :: G.args) (w.resuming v G sent thrown))
        (Effect.resume call v sent thrown w)

theorem Generator.runs [∀ c, Effect.Sparing (call c)] (gen : w.generator? v = some G)
    (ends : w.isSubclass .stopIteration .stopIteration = true) (unfinished : G.finished = false)
    (idle : G.running = false)
    (ready : G.inState stateStart = true → sent = .none ∧ thrown = none) :
    G.Runs call w v sent thrown := by
  have resumed : (w.resuming v G sent thrown).generator? v = some (G.resumed sent thrown) :=
    World.generator?_withGenerator gen
  have still {w' : World} (spares : (w.resuming v G sent thrown).Spares w') :
      w'.isSubclass .stopIteration .stopIteration = true := by
    rw [World.isSubclass, spares.lineage, World.resuming, World.lineage_withGenerator]
    exact ends
  constructor
  · intro x₀ x w' start run deeds
    have spares := (Effect.spares_loops run).trans (w'.spares_after v deeds)
    obtain ⟨H, gen', becomes⟩ := spares.kept v _ resumed
    refine ⟨H, gen', becomes.running, ?_, fun call => H.answers call gen' (still spares)⟩
    rw [becomes.undisturbed rfl]
    exact unfinished
  · have ran : Effect.SparesIn (w.resuming v G sent thrown)
        (Effect.runMethod call G.method (v :: G.args)) := inferInstance
    obtain ⟨H, gen', becomes⟩ := ran.spares.kept v _ resumed
    refine ⟨H, gen', becomes, ?_⟩
    rw [Effect.resume_eq call gen unfinished idle ready]
    exact Effect.settles gen' (still ran.spares)

end HostLowering.Object

namespace HostLowering.Lower

open Machine Object Catalog Library
open Relation (ReflTransGen)

variable {c : Source} {f : Function} {r : Registry} {m : Method} {s s' s₁ s₂ s₃ : State}
  {front back ending : List Line} {call : Caller} {v u : Value} {G H : Generator} {vals : List Value}
  {x x₀ : Frame} {w w₁ : World} {sent : Value} {thrown : Option Value}

/-! ## Returning -/

def finishLines : List Line :=
  writeLines yieldedValue ++ (clearLines generatorStack ++
    (stateLines stateFinished ++ [.plain .returnVoid]))

instance : Writes c r Lowering.finishGenerator finishLines := by
  unfold Lowering.finishGenerator
  infer_instance

/-- The operations that end a generator with a value. -/
def Operation.Finishes (op : Operation) : Prop := op = .returnValue ∨ op = .endGenerator

/-- What they add to the code. -/
theorem finishes_wrote {op : Operation} (finishes : op.Finishes) (generator : c.function.generator = true)
    {u : Unit} (run : op.perform c.function s = (.ok u, s')) (fine : s'.Fine) :
    Wrote c.refs finishLines 0 [] s.assembler s'.assembler := by
  obtain ⟨-, -, body⟩ := perform_eq_ok run fine.1
  have ends : (do
      Lowering.finishGenerator
      Lowering.drop 1
      Lowering.stop) c.function { s with operation := op.name } = (.ok u, s') := by
    rcases finishes with rfl | rfl
    · change (if c.function.generator = true then _ else _ : Lowering Unit) c.function _ = _ at body
      rwa [if_pos generator] at body
    · change (if c.function.generator = true then _ else _ : Lowering Unit) c.function _ = _ at body
      rwa [if_pos generator] at body
  obtain ⟨t, worked, rest⟩ := Works.first (c := c) ends
  obtain ⟨t', dropped, stopped⟩ := Works.first (c := c) rest
  cases stopped
  have wrote := worked.wrote.trans dropped.wrote
  rwa [List.append_nil] at wrote

theorem exec_finish {pool : Pool} {locals : Array Value} (honest : pool.Honest)
    (self : locals[0]? = some v) (gen : w.generator? v = some G) (vals : List Value) :
    exec call pool finishLines none (u :: vals) locals w =
      (.returns .null, w.withGenerator v (G.returned u)) := by
  have changed {G' : Generator} : (w.withGenerator v G').generator? v = some G' :=
    World.generator?_withGenerator gen
  rw [finishLines, exec_write honest self gen (by decide), exec_clear honest self changed (by decide),
    World.withGenerator_withGenerator, exec_setState honest self changed,
    World.withGenerator_withGenerator]
  rfl

/-- The body of a generator has come to where it returns the value on top of its stack. -/
structure Returning (f : Function) (r : Registry) (before : List Action) (call : Caller) (w : World)
    (v : Value) (G : Generator) (sent : Value) (thrown : Option Value) (x : Frame) (w₁ : World)
    (u : Value) : Prop where
  generator : f.generator = true
  lowered : ∃ op after, op.Finishes ∧ methodBy f r (before ++ .perform op :: after) = .ok (.ok G.method)
  stands : ∃ s₁, stateBy f r before = .ok s₁ ∧ x.position = s₁.assembler.bytes.size
  stack : ∃ vals, x.stack = u :: vals
  runs : ∃ x₀, Frame.start G.method (v :: G.args) = .ok x₀ ∧
    ReflTransGen (Effect.Loops call) (x₀, w.resuming v G sent thrown) (x, w₁)
  inTime : (Effect.runMethod call G.method (v :: G.args) (w.resuming v G sent thrown)).1 ≠
    .error .outOfFuel

/-- A body that comes to a return ends there. -/
theorem Returning.outcome {before : List Action}
    (here : Returning f r before call w v G sent thrown x w₁ u) (gen : w₁.generator? v = some H) :
    Effect.runMethod call G.method (v :: G.args) (w.resuming v G sent thrown) =
      (.ok .null, w₁.withGenerator v (H.returned u)) := by
  obtain ⟨op, after, finishes, lowered⟩ := here.lowered
  obtain ⟨s₁, reached, position⟩ := here.stands
  obtain ⟨vals, stack⟩ := here.stack
  obtain ⟨x₀, start, run⟩ := here.runs
  obtain ⟨t₁, s₂, s₃, s, front, back, ending, newer, e₁, -, -, cut⟩ :=
    exists_cut (c := ⟨f, Set.univ, fun _ _ => trivial⟩) (fun _ _ => trivial) lowered
  obtain rfl := Except.ok.inj (reached.symm.trans e₁)
  obtain ⟨-, lines, guards, advanced, -⟩ := perform_advanced cut.tidy₁ cut.run cut.fine
  have whole := cut.whole advanced
  obtain ⟨method, -⟩ := whole.activation start run
  obtain ⟨self, -⟩ := whole.self here.generator start run
  have wrote := finishes_wrote finishes here.generator cut.run cut.fine
  have reads := cut.reads wrote
  rw [readsFrom_append, readsFrom_append, Nat.zero_add, ← cut.held.size] at reads
  have ready : Ready G.method s.assembler.position? s₁.assembler.bytes.size (u :: vals) x.locals x none :=
    ⟨method, position, stack, rfl⟩
  obtain ⟨z, reaches, returns⟩ := exec_reached reads.2.1 ready
    (exec_finish whole.spelled.honest self gen vals)
  have turned : Effect.turn call z (w₁.withGenerator v (H.returned u)) =
      .inl (.ok .null, w₁.withGenerator v (H.returned u)) := by
    simp only [Effect.turn, returns]
  have inTime := here.inTime
  rw [Effect.runMethod_eq call start] at inTime ⊢
  exact (Effect.runFrom_of_loops (run.trans reaches.loops) turned _).resolve_right inTime

/-- Generators follow their protocol, whatever has been done before. No generator has come to run by
that, and one that was finished still is. A generator that is finished, running or at its start answers
accordingly, whoever resumes it. In all other cases its body runs, during which it can be left running
and unfinished only; and where its lowered body returns a value, that is the value of the end of the
iteration, and the generator is finished. Calls that end with a defect are not meant: nothing comes
after one. -/
theorem generator_protocol (gen : w.generator? v = some G)
    (ends : w.isSubclass .stopIteration .stopIteration = true) (deeds : List (Nat × Nat × Deed)) :
    (∀ u H, (w.after v deeds).generator? u = some H → H.running = true →
      ∃ H₀, w.generator? u = some H₀ ∧ H₀.running = true) ∧
    ∃ G', (w.after v deeds).generator? v = some G' ∧ G.Becomes G' ∧
      (∀ call, G'.Answers call (w.after v deeds) v) ∧
      (G'.finished = false → G'.running = false → ∀ n depth sent thrown,
        (G'.inState Library.stateStart = true → sent = .none ∧ thrown = none) →
          G'.Runs (Effect.performUpTo n depth) (w.after v deeds) v sent thrown ∧
          ∀ f r before x w₁ u,
            Returning f r before (Effect.performUpTo n depth) (w.after v deeds) v G' sent thrown x w₁ u →
              ∃ H, w₁.generator? v = some H ∧ (w₁.withGenerator v (H.returned u).done).Ends u
                (Effect.resume (Effect.performUpTo n depth) v sent thrown (w.after v deeds))) := by
  have spares := w.spares_after v deeds
  have still : (w.after v deeds).isSubclass .stopIteration .stopIteration = true := by
    rw [World.isSubclass, spares.lineage]
    exact ends
  obtain ⟨G', gen', becomes⟩ := spares.kept v G gen
  refine ⟨fun u H => spares.ran, G', gen', becomes, fun call => G'.answers call gen' still,
    fun unfinished idle n depth sent thrown ready => ?_⟩
  have runs : G'.Runs (Effect.performUpTo n depth) (w.after v deeds) v sent thrown :=
    Generator.runs gen' still unfinished idle ready
  refine ⟨runs, fun f r before x w₁ u here => ?_⟩
  obtain ⟨x₀, start, run⟩ := here.runs
  obtain ⟨H, now, -⟩ := runs.meanwhile x₀ x w₁ start run []
  obtain ⟨H', after, -, settles⟩ := runs.settled
  rw [here.outcome now] at after settles
  cases after.symm.trans (World.generator?_withGenerator now)
  exact ⟨H, now, settles.ends⟩

/-- The beginning of a generator that returns its argument. -/
def answering : List Action :=
  [.visit 0 [.dynamic], .perform .generatorStart, .perform (.loadLocal 0)]

/-- The generator at its start, as the only object of a world. -/
def startWorld (m : Method) : World where
  heap := #[.generator (.new m [.bool true])]
  classes := (Array.replicate ClassId.stopIteration.index default).push {
    name := "StopIteration"
    host := stopIterationClass
    lineage := [.stopIteration] }

/-- The world after a value was sent to the generator too early. -/
def refusedWorld (m : Method) : World :=
  (startWorld m).after (.object ⟨0⟩) [(0, 0, .resume (.bool true) none)]

theorem generator?_refusedWorld (m : Method) :
    (refusedWorld m).generator? (.object ⟨0⟩) = some (.new m [.bool true]) := rfl

theorem generator_protocol_answering : ∃ (m : Method) (w₁ : World) (H : Generator),
    methodBy echoing .builtin (answering ++ [.perform .returnValue]) = .ok (.ok m) ∧
    (startWorld m).generator? (.object ⟨0⟩) = some (.new m [.bool true]) ∧
    (startWorld m).isSubclass .stopIteration .stopIteration = true ∧
    w₁.generator? (.object ⟨0⟩) = some H ∧
    (w₁.withGenerator (.object ⟨0⟩) (H.returned (.bool true)).done).Ends (.bool true)
      (Effect.resume (Effect.performUpTo 0 0) (.object ⟨0⟩) .none none (refusedWorld m)) := by
  have returns : (activation? echoing .builtin (answering ++ [.perform .returnValue])
      (Effect.performUpTo 0 0) [.object ⟨0⟩, .bool true]
      (fun m => (refusedWorld m).resuming (.object ⟨0⟩) (.new m [.bool true]) .none none) 13).any
        (fun (m, x, _) => x.position == 15 && x.stack == [.bool true] &&
          !(Effect.runMethod (Effect.performUpTo 0 0) m [.object ⟨0⟩, .bool true] ((refusedWorld m).resuming
            (.object ⟨0⟩) (.new m [.bool true]) .none none)).1 matches .error .outOfFuel) = true := by
    decide +kernel
  have stands : (stateBy echoing .builtin answering).toOption.any
      (fun s => s.assembler.bytes.size == 15) = true := by
    decide +kernel
  obtain ⟨⟨m, x, w₁⟩, found, holds⟩ := (Option.any_eq_true _ _).mp returns
  obtain ⟨lowered, start, started, runs⟩ := activation?_eq_some found
  obtain ⟨s₁, -, -, -, -, -, -, -, reached, -⟩ :=
    exists_cut (c := ⟨echoing, Set.univ, fun _ _ => trivial⟩) (fun _ _ => trivial) lowered
  rw [reached] at stands
  simp only [Except.toOption, Option.any_some, Bool.and_eq_true, beq_iff_eq] at holds stands
  obtain ⟨⟨position, stack⟩, inTime⟩ := holds
  have gen : (startWorld m).generator? (.object ⟨0⟩) = some (.new m [.bool true]) := rfl
  have ends : (startWorld m).isSubclass .stopIteration .stopIteration = true := rfl
  obtain ⟨-, G', gen', -, -, protocol⟩ :=
    generator_protocol gen ends [(0, 0, .resume (.bool true) none)]
  cases gen'.symm.trans (generator?_refusedWorld m)
  have returning : Returning echoing .builtin answering (Effect.performUpTo 0 0) (refusedWorld m)
      (.object ⟨0⟩) (.new m [.bool true]) .none none x w₁ (.bool true) := by
    refine ⟨rfl, ⟨_, [], .inl rfl, lowered⟩, ⟨s₁, reached, ?_⟩, ⟨[], stack⟩, ⟨start, started, runs⟩,
      fun late => ?_⟩
    · rw [position, stands]
      rfl
    · have late : (Effect.runMethod (Effect.performUpTo 0 0) m [.object ⟨0⟩, .bool true]
        ((refusedWorld m).resuming (.object ⟨0⟩) (.new m [.bool true]) .none none)).1 = _ := late
      rw [late] at inTime
      cases inTime
  obtain ⟨-, answers⟩ := protocol rfl rfl 0 0 .none none fun _ => ⟨rfl, rfl⟩
  obtain ⟨H, now, outcome⟩ := answers _ _ _ _ _ _ returning
  exact ⟨m, w₁, H, lowered, gen, ends, now, outcome⟩

end HostLowering.Lower
