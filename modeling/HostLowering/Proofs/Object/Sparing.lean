import HostLowering.Object.Perform
import HostLowering.Proofs.Object.Answers

set_option autoImplicit false

/-! # Generators while other things happen

Nothing but a resumption changes the flags of a generator, and a resumption puts back the one that says
that it runs. So from one world to the next every generator keeps its method, its arguments and whether
it runs; it can become finished, for good, but not while it runs; and no other generator comes to run
(`World.Spares`). A step that sees to this in every world is `Effect.Sparing`. That is a class: steps
made of such steps are found to be such by instance resolution, and so is every call
(`Effect.performUpTo`).
-/

namespace HostLowering.Object

open Machine

variable {α β : Type} {w w' w'' : World} {v : Value} {G G' G'' : Generator} {o : Entity}

/-- What a generator can become while something is done. -/
structure Generator.Becomes (G G' : Generator) : Prop where
  method : G'.method = G.method
  args : G'.args = G.args
  running : G'.running = G.running
  finished : G.finished = true → G'.finished = true
  undisturbed : G.running = true → G'.finished = G.finished

theorem Generator.Becomes.refl (G : Generator) : G.Becomes G := ⟨rfl, rfl, rfl, id, fun _ => rfl⟩

theorem Generator.Becomes.trans (h : G.Becomes G') (h' : G'.Becomes G'') : G.Becomes G'' where
  method := h'.method.trans h.method
  args := h'.args.trans h.args
  running := h'.running.trans h.running
  finished done := h'.finished (h.finished done)
  undisturbed runs := (h'.undisturbed (h.running.trans runs)).trans (h.undisturbed runs)

/-- From one world to the other every generator becomes what it can become, and no new one runs. The
lineages of classes stay, by which the end of an iteration is told. -/
structure World.Spares (w w' : World) : Prop where
  kept : ∀ v G, w.generator? v = some G → ∃ G', w'.generator? v = some G' ∧ G.Becomes G'
  idle : ∀ v G', w'.generator? v = some G' → G'.running = true → ∃ G, w.generator? v = some G
  lineage : ∀ c, w'.lineage c = w.lineage c

namespace World

theorem Spares.of_eq (same : ∀ v, w'.generator? v = w.generator? v)
    (lineage : ∀ c, w'.lineage c = w.lineage c) : w.Spares w' where
  kept v G found := ⟨G, (same v).trans found, .refl G⟩
  idle v G' found _ := ⟨G', (same v).symm.trans found⟩
  lineage := lineage

theorem Spares.refl (w : World) : w.Spares w := .of_eq (fun _ => rfl) fun _ => rfl

theorem Spares.ran (h : w.Spares w') (found : w'.generator? v = some G') (runs : G'.running = true) :
    ∃ G, w.generator? v = some G ∧ G.running = true := by
  obtain ⟨G, old⟩ := h.idle v G' found runs
  obtain ⟨_, same, becomes⟩ := h.kept v G old
  cases found.symm.trans same
  exact ⟨G, old, becomes.running.symm.trans runs⟩

theorem Spares.trans (h : w.Spares w') (h' : w'.Spares w'') : w.Spares w'' where
  kept v G found := by
    obtain ⟨G', found', becomes⟩ := h.kept v G found
    obtain ⟨G'', found'', becomes'⟩ := h'.kept v G' found'
    exact ⟨G'', found'', becomes.trans becomes'⟩
  idle v G'' found'' runs := by
    obtain ⟨G', found', runs'⟩ := h'.ran found'' runs
    exact h.idle v G' found' runs'
  lineage c := (h'.lineage c).trans (h.lineage c)

theorem spares_push (w : World) (new : ∀ G, o = .generator G → G.running = false) :
    w.Spares (w.push o) where
  kept v G found := by
    refine ⟨G, ?_, .refl G⟩
    rw [generator?_eq_some] at found ⊢
    exact object?_push o found
  idle v G' found runs := by
    rw [generator?_eq_some] at found
    cases v with
    | object r =>
      have found : (w.heap.push o)[r.index]? = some (.generator G') := found
      rw [Array.getElem?_push] at found
      split at found
      · cases found
        rw [new G' rfl] at runs
        cases runs
      · exact ⟨G', generator?_eq_some.mpr found⟩
    | _ => cases found
  lineage _ := rfl

/-- An object that is no generator becomes another one. -/
theorem spares_put {r : Ref} (old : w.generator? (.object r) = none) (new : ∀ G, o ≠ .generator G) :
    w.Spares (w.put r o) := by
  refine .of_eq (fun v => ?_) fun _ => rfl
  cases v with
  | object r' =>
    by_cases same : r.index = r'.index
    · have here : w.generator? (.object r') = none := by
        rw [← old, generator?, generator?, object?, object?, same]
      rw [here]
      refine Option.eq_none_iff_forall_ne_some.mpr fun G found => ?_
      have found : (w.heap.setIfInBounds r.index o)[r'.index]? = _ := generator?_eq_some.mp found
      rw [Array.getElem?_setIfInBounds, if_pos same] at found
      split at found
      · exact new G (Option.some.inj found)
      · cases found
    · have apart : (w.put r o).object? (.object r') = w.object? (.object r') := by
        show (w.heap.setIfInBounds r.index o)[r'.index]? = _
        rw [Array.getElem?_setIfInBounds, if_neg same]
        rfl
      rw [generator?, apart, generator?]
  | _ => rfl

theorem generator?_withGenerator_of_ne {u : Value} (gen : w.generator? v = some G) (other : u ≠ v) :
    (w.withGenerator v G').generator? u = w.generator? u := by
  rw [generator?, object?_withGenerator gen, if_neg other, generator?]

theorem lineage_withGenerator (w : World) (v : Value) (G : Generator) (c : ClassId) :
    (w.withGenerator v G).lineage c = w.lineage c := by
  simp [lineage, info]

/-- Between two changes of a generator it may run, if it is then what it could have become. -/
theorem spares_between (gen : w.generator? v = some G) (h : (w.withGenerator v G').Spares w')
    {H H' : Generator} (gen' : w'.generator? v = some H) (becomes : G.Becomes H') :
    w.Spares (w'.withGenerator v H') where
  kept u K found := by
    by_cases same : u = v
    · subst same
      cases gen.symm.trans found
      exact ⟨H', generator?_withGenerator gen', becomes⟩
    · rw [generator?_withGenerator_of_ne gen' same]
      exact h.kept u K (by rwa [generator?_withGenerator_of_ne gen same])
  idle u K found runs := by
    by_cases same : u = v
    · exact ⟨G, same ▸ gen⟩
    · rw [generator?_withGenerator_of_ne gen' same] at found
      obtain ⟨K', found⟩ := h.idle u K found runs
      exact ⟨K', by rwa [generator?_withGenerator_of_ne gen same] at found⟩
  lineage c := by rw [lineage_withGenerator, h.lineage, lineage_withGenerator]

theorem spares_withGenerator (gen : w.generator? v = some G) (becomes : G.Becomes G') :
    w.Spares (w.withGenerator v G') := by
  have unchanged (u : Value) : w.generator? u = (w.withGenerator v G).generator? u := by
    by_cases same : u = v
    · rw [same, generator?_withGenerator gen, gen]
    · rw [generator?_withGenerator_of_ne gen same]
  exact spares_between gen (.of_eq unchanged fun c => (w.lineage_withGenerator v G c).symm) gen becomes

end World

/-- An object that is not a running generator. -/
class Entity.Still (o : Entity) : Prop where
  still : ∀ G, o = .generator G → G.running = false

/-! ## Steps -/

namespace Effect

/-- A step done in a world spares generators. -/
class SparesIn (w : World) (x : Effect α) : Prop where
  spares : w.Spares (x w).2

/-- A step spares generators in every world. -/
class Sparing (x : Effect α) : Prop where
  anywhere : ∀ w, SparesIn w x

attribute [instance] Sparing.anywhere

variable {x y : Effect α} {k : α → Effect β}

/-- What the first step has done is known in the second. -/
theorem SparesIn.bind [h : SparesIn w x] (h' : ∀ a w', x w = (.ok a, w') → SparesIn w' (k a)) :
    SparesIn w (x >>= k) := by
  constructor
  have first := h.spares
  cases eq : x w with
  | mk r w' =>
    rw [eq] at first
    cases r with
    | error e =>
      rw [bind_error eq]
      exact first
    | ok a =>
      rw [bind_ok eq]
      exact first.trans (h' a w' eq).spares

theorem SparesIn.read {k : World → Effect β} (h : SparesIn w (k w)) : SparesIn w (get >>= k) :=
  ⟨h.spares⟩

theorem SparesIn.require {a : Option α} (h : ∀ b, a = some b → SparesIn w (k b)) :
    SparesIn w (require a >>= k) := by
  cases a with
  | none => exact ⟨.refl w⟩
  | some b => exact ⟨(h b rfl).spares⟩

instance [Sparing x] [∀ a, Sparing (k a)] : Sparing (x >>= k) :=
  ⟨fun _ => .bind fun _ _ _ => inferInstance⟩

theorem Sparing.bind [Sparing x] (h : ∀ a, Sparing (k a)) : Sparing (x >>= k) := inferInstance

theorem Sparing.reading {k : World → Effect β} (h : ∀ w, SparesIn w (k w)) : Sparing (get >>= k) :=
  ⟨fun w => .read (h w)⟩

instance (a : α) : Sparing (pure a) := ⟨fun w => ⟨.refl w⟩⟩

instance (s : Stop) : Sparing (throw s : Effect α) := ⟨fun w => ⟨.refl w⟩⟩

instance (d : Defect) : Sparing (defect d : Effect α) := ⟨fun w => ⟨.refl w⟩⟩

instance (t : String) : Sparing (fault t : Effect α) := ⟨fun w => ⟨.refl w⟩⟩

instance : Sparing (get : Effect World) := ⟨fun w => ⟨.refl w⟩⟩

instance {p : Prop} [Decidable p] [Sparing x] [Sparing y] : Sparing (if p then x else y) := by
  split <;> infer_instance

instance (a : Option α) : Sparing (require a) := by
  unfold require
  split <;> infer_instance

instance {xs : List α} {g : α → Effect β} [∀ a, Sparing (g a)] : Sparing (xs.mapM g) := by
  induction xs with
  | nil => exact inferInstanceAs (Sparing (pure []))
  | cons a xs ih =>
    rw [List.mapM_cons]
    infer_instance

/-! ## New objects -/

variable {n : Int64} {t name : String} {kind : SequenceKind} {place : Window} {c : ClassId}
  {args items rest : List Value} {keywords : List (Value × Value)} {s key e cause f sent : Value}
  {thrown : Option Value} {fields : Table String Value} {entries : List (Value × Value)}

instance : (Entity.record c fields).Still := ⟨by simp⟩

instance : (Entity.int n).Still := ⟨by simp⟩

instance : (Entity.str t).Still := ⟨by simp⟩

instance : (Entity.sequence kind place).Still := ⟨by simp⟩

instance : (Entity.dict entries).Still := ⟨by simp⟩

instance : (Entity.slice s key e).Still := ⟨by simp⟩

instance : (Entity.bound s f).Still := ⟨by simp⟩

instance : (Entity.iterator items).Still := ⟨by simp⟩

instance {m : Method} : (Entity.generator (.new m args)).Still := ⟨by simp [Generator.new]⟩

instance [o.Still] : Sparing (alloc o) := ⟨fun w => ⟨w.spares_push Entity.Still.still⟩⟩

instance {step : Storage → Window × Storage} : Sparing (withStorage step) :=
  ⟨fun _ => ⟨.of_eq (fun _ => rfl) fun _ => rfl⟩⟩

instance : Sparing (store items) := inferInstanceAs (Sparing (withStorage _))

instance : Sparing (newInt n) := inferInstanceAs (Sparing (alloc _))

instance : Sparing (newStr t) := inferInstanceAs (Sparing (alloc _))

instance : Sparing (newCopy kind items) := by
  unfold newCopy
  infer_instance

instance : Sparing (newTuple items) := by
  unfold newTuple
  infer_instance

instance : Sparing (newList items) := by
  unfold newList
  infer_instance

instance : Sparing (newExceptionOver c place) := by
  unfold newExceptionOver
  infer_instance

instance : Sparing (newException c args) := by
  unfold newException
  infer_instance

instance : Sparing (newError c t) := by
  unfold newError
  infer_instance

instance : Sparing (raise c t : Effect α) := by
  unfold raise
  infer_instance

instance : Sparing (stopIteration v : Effect α) := by
  unfold stopIteration
  infer_instance

instance : Sparing (missingAttribute v name) := by
  unfold missingAttribute
  infer_instance

instance : Sparing (missingKey key : Effect α) := by
  unfold missingKey
  infer_instance

instance : Sparing (getAttribute? v name) := .bind fun w => by split <;> infer_instance

instance : Sparing (getAttribute v name) := .bind fun found => by split <;> infer_instance

/-! ## Objects that change -/

theorem generator?_of_other (h : (w.window? v).isSome ∨ (w.dict? v).isSome ∨ (w.record? v).isSome) :
    w.generator? v = none := by
  unfold World.window? World.dict? World.record? at h
  unfold World.generator?
  cases found : w.object? v with
  | none => rfl
  | some e => cases e <;> simp_all

theorem generator?_of_record? {p : ClassId × Table String Value} (h : w.record? v = some p) :
    w.generator? v = none :=
  generator?_of_other (.inr (.inr (Option.isSome_of_eq_some h)))

theorem generator?_of_dict? (h : w.dict? v = some entries) : w.generator? v = none :=
  generator?_of_other (.inr (.inl (Option.isSome_of_eq_some h)))

/-- An object that is no generator is replaced by another one. -/
theorem sparesIn_write (old : w.generator? v = none) (new : ∀ G, o ≠ .generator G) :
    SparesIn w (write v o) := by
  cases v with
  | object r => exact ⟨World.spares_put old new⟩
  | _ => exact ⟨.refl w⟩

theorem sparesIn_generator (gen : w.generator? v = some G) (becomes : G.Becomes G') :
    SparesIn w (write v (.generator G')) :=
  ⟨write_generator gen G' ▸ World.spares_withGenerator gen becomes⟩

theorem sparesIn_write_pure (old : w.generator? v = none) (new : ∀ G, o ≠ .generator G) (a : β) :
    SparesIn w (write v o >>= fun _ => pure a) :=
  have := sparesIn_write old new
  .bind fun _ _ _ => inferInstance

instance {step : Storage → Window → Window × Storage} : Sparing (changeItems v step) := by
  refine ⟨fun w => ?_⟩
  have same : changeItems v step w = (require (w.window? v) >>= fun (kind, place) => do
    write v (.sequence kind (← withStorage (step · place)))) w := rfl
  refine ⟨same ▸ (SparesIn.require fun ⟨kind, place⟩ found => ?_).spares⟩
  have old : w.generator? v = none := generator?_of_other (.inl (Option.isSome_of_eq_some found))
  refine .bind fun a w' stored => ?_
  cases stored
  exact sparesIn_write old (by simp)

/-- The fields of an instance change. -/
theorem sparing_record (v : Value) (k : Table String Value → Table String Value) (a : β) :
    Sparing (do
      let (c, fields) ← require ((← get).record? v)
      write v (.record c (k fields))
      return a) :=
  .reading fun _ => .require fun _ found => sparesIn_write_pure (generator?_of_record? found) (by simp) a

theorem sparing_dict (d : Value) (k : World → List (Value × Value) → List (Value × Value)) (a : β) :
    Sparing (do
      let entries ← require ((← get).dict? d)
      write d (.dict (k (← get) entries))
      return a) :=
  .reading fun _ => .require fun _ found => .read <|
    sparesIn_write_pure (generator?_of_dict? found) (by simp) a

instance : Sparing (sequence v) := by
  unfold sequence
  infer_instance

instance : Sparing (addDistinct s v) := by
  unfold addDistinct
  infer_instance

instance : Sparing (index kind items v) := .bind fun w => by
  dsimp only
  split <;> infer_instance

instance {length default : Nat} : Sparing (sliceBound length v default) := by
  have reads : Sparing (do
      match (← get).int? v with
      | some n => return clampBound length n.toInt
      | none => raise .typeError "slice indices must be integers or None") :=
    .bind fun w => by split <;> infer_instance
  unfold sliceBound
  infer_instance

instance {start stop step : Value} {length : Nat} : Sparing (sliceBounds start stop step length) := by
  unfold sliceBounds
  infer_instance

instance : Sparing (getItem s key) := .bind fun _ => .bind fun w => by split <;> infer_instance

instance : Sparing (deleteItem s key) := .bind fun _ => .bind fun w => by split <;> infer_instance

instance : Sparing (itemAt s n) := by
  unfold itemAt
  infer_instance

instance {front back : Int64} : Sparing (cut s front back) := by
  unfold cut window
  infer_instance

instance : Sparing (setInstanceField v name rest) := by
  refine .reading fun w => ?_
  split
  · rename_i found
    exact sparesIn_write_pure (generator?_of_record? found) (by simp) _
  · infer_instance
  · infer_instance

instance : Sparing (clearInstanceField v name) := by
  refine .reading fun w => ?_
  split
  · rename_i found
    split
    · infer_instance
    · exact sparesIn_write_pure (generator?_of_record? found) (by simp) _
  · infer_instance

/-! ## Calls -/

variable {call : Caller} [∀ c, Sparing (call c)]

instance : Sparing (callMethod call v name args) := by
  unfold callMethod
  infer_instance

instance {init : Option Value} {c : Value → Call} :
    Sparing (init.forM fun f => discard (call (c f))) := by
  cases init with
  | none => exact inferInstanceAs (Sparing (pure _))
  | some f => exact inferInstanceAs (Sparing (call (c f) >>= fun _ => pure _))

instance : Sparing (instantiate call c place keywords) := by
  unfold instantiate
  infer_instance

instance : Sparing (exceptionOf call v) := by
  have checks (v : Value) : Sparing (do
      match (← get).record? v with
      | some (c, _) =>
        if (← get).isSubclass c .baseException then return v
        else raise .typeError "exceptions must derive from BaseException"
      | none => raise .typeError "exceptions must derive from BaseException") :=
    .bind fun w => by split <;> infer_instance
  unfold exceptionOf
  split <;> infer_instance

instance {n : Nat} {taken : Array Value} : Sparing (drain call v n taken) := by
  induction n generalizing taken with
  | zero => exact inferInstanceAs (Sparing (throw _))
  | succ n ih =>
    refine ⟨fun w => ⟨?_⟩⟩
    have calls : SparesIn w (callMethod call v "__next__" []) := inferInstance
    have next := calls.spares
    unfold drain
    split
    · rename_i u w' eq
      rw [eq] at next
      exact next.trans (ih.anywhere w').spares
    · rename_i s w' eq
      rw [eq] at next
      split <;> exact next

instance : Sparing (iterate call v) := .bind fun w => by split <;> infer_instance

instance {v : Option Value} : Sparing (setItem call s key v) :=
  .bind fun _ => .bind fun w => by split <;> infer_instance

instance : Sparing (callWith call f place keywords) := by
  unfold callWith
  split <;> infer_instance

instance : Sparing (setCause call e cause) := by
  have sets (cause : Value) := sparing_record e (·.set "__cause__" cause) e
  refine .bind fun w => .bind fun ⟨_, _⟩ => ?_
  cases cause with
  | none => exact sets _
  | _ => exact Sparing.bind sets

instance {m : LibraryMethod} : Sparing (library call m args) := by
  unfold library
  -- What is left are the methods that look at an object; two of them write it again.
  split <;> try infer_instance
  · exact .bind fun w => by split <;> infer_instance
  · exact .bind fun w => by split <;> infer_instance
  · refine .reading fun w => ?_
    split
    · rename_i found
      exact sparesIn_write_pure (by rw [World.generator?, found]) (by simp) _
    · infer_instance
  · exact .bind fun w => by split <;> infer_instance
  · exact .bind fun found => by split <;> infer_instance
  · exact sparing_dict _ (·.putEntry _ _) _
  · refine .reading fun w => ?_
    split
    · rename_i found
      exact sparesIn_write_pure (by rw [World.generator?, found]) (by simp) _
    · infer_instance

/-! ## Methods -/

instance : Sparing (allocate t) := .bind fun w => by split <;> infer_instance

variable {field : FieldRef} {op : Opcode} {ref : MethodRef} {m : Method}

instance : Sparing (staticClass field) := .bind fun w => by split <;> infer_instance

instance : Sparing (readField field v) := .bind fun w => by split <;> infer_instance

instance : Sparing (writeField field s v) := by
  refine .reading fun w => ?_
  split
  · rename_i found
    exact sparesIn_write (by rw [World.generator?, found]) (by simp)
  · rename_i found
    exact sparesIn_generator (World.generator?_eq_some.mpr found) ⟨rfl, rfl, rfl, id, fun _ => rfl⟩
  · infer_instance

instance : Sparing (invocationClass op ref args) := by
  unfold invocationClass
  split
  · exact .bind fun w => by split <;> infer_instance
  · split
    · infer_instance
    · infer_instance
    · exact .bind fun w => by split <;> infer_instance

instance : Sparing (invoke call op ref args) := by
  unfold invoke
  split
  · infer_instance
  · refine .bind fun c => .bind fun w => ?_
    split
    · infer_instance
    · split <;> infer_instance

instance : Sparing (throwValue v) := .bind fun w => by split <;> infer_instance

instance : Sparing (modify fun w => w.setStatic c name v : Effect Unit) := by
  refine ⟨fun w => ⟨.of_eq (fun _ => rfl) fun d => ?_⟩⟩
  show (w.setStatic c name v).lineage d = w.lineage d
  simp only [World.lineage, World.info, World.setStatic, World.changeClass, Array.getElem?_modify]
  split
  · cases w.classes[d.index]? <;> rfl
  · rfl

instance {r : Request} : Sparing (serve call r) := by
  unfold serve
  split <;> infer_instance

/-- What one turn of a run does to generators. -/
theorem spares_turn {x : Frame} {r : (Except Stop Value × World) ⊕ (Frame × World)}
    (turned : turn call x w = r) : w.Spares (r.elim Prod.snd Prod.snd) := by
  subst turned
  unfold turn
  split
  · exact .refl w
  · exact .refl w
  · exact .refl w
  · rename_i request y _
    have served : SparesIn w (serve call request) := inferInstance
    have served := served.spares
    split
    · rename_i eq
      rw [eq] at served
      exact served
    · rename_i eq
      rw [eq] at served
      split <;> exact served
    · rename_i eq
      rw [eq] at served
      exact served
    · rename_i eq
      rw [eq] at served
      exact served

/-- Every turn spares generators, so the run does. -/
instance {n : Nat} {x : Frame} : Sparing (runFrom call n x) := by
  induction n generalizing x with
  | zero => exact inferInstanceAs (Sparing (throw _))
  | succ n ih =>
    refine ⟨fun w => ⟨?_⟩⟩
    unfold runFrom
    cases turned : turn call x w with
    | inl outcome => exact spares_turn turned
    | inr q => exact (spares_turn turned).trans (ih.anywhere q.2).spares

instance : Sparing (runMethod call m args) := by
  unfold runMethod
  split <;> infer_instance

/-! ## Resumptions -/

theorem sparesIn_finish (idle : ∀ G, w.generator? v = some G → G.running = false) :
    SparesIn w (finishGenerator v) := by
  refine .read (.require fun G gen => sparesIn_generator gen ⟨rfl, rfl, rfl, fun _ => rfl, fun runs => ?_⟩)
  rw [idle G gen] at runs
  cases runs

theorem sparesIn_afterRun (idle : ∀ G, w.generator? v = some G → G.running = false)
    (r : Except Stop Value) : SparesIn w (afterRun v r) := by
  have finishes := sparesIn_finish idle
  cases r with
  | error s => exact .bind fun _ _ _ => inferInstance
  | ok u =>
    refine .read (.require fun G gen => ?_)
    dsimp only
    split
    · exact .bind fun _ _ _ => inferInstance
    · infer_instance

variable (call sent thrown) in
/-- The body of a generator runs. Meanwhile the generator is marked as running, so that nothing else
resumes it. -/
theorem sparesIn_body (gen : w.generator? v = some G) (idle : G.running = false)
    (unfinished : G.finished = false) : SparesIn w (do
      changeGenerator v fun g => { g.receive sent thrown with running := true }
      let outcome ← attempt (runMethod call G.method (v :: G.args))
      changeGenerator v ({ · with running := false })
      afterRun v outcome) := by
  have ran : SparesIn (w.withGenerator v { G.receive sent thrown with running := true })
      (runMethod call G.method (v :: G.args)) := inferInstance
  obtain ⟨H, gen', becomes⟩ := ran.spares.kept v _ (World.generator?_withGenerator gen)
  constructor
  rw [bind_ok (changeGenerator_eq gen _)]
  generalize eq : runMethod call G.method (v :: G.args) _ = run at ran gen'
  have attempted : attempt (runMethod call G.method (v :: G.args))
      (w.withGenerator v { G.receive sent thrown with running := true }) = (.ok run.1, run.2) := by
    rw [← eq]
    rfl
  rw [bind_ok attempted, bind_ok (changeGenerator_eq gen' _)]
  have between : w.Spares (run.2.withGenerator v { H with running := false }) := by
    refine World.spares_between gen (eq ▸ ran.spares) gen' ⟨becomes.method, becomes.args, idle.symm, ?_, ?_⟩
    · intro done
      rw [unfinished] at done
      cases done
    · intro runs
      rw [idle] at runs
      cases runs
  refine between.trans (sparesIn_afterRun (fun G' found => ?_) run.1).spares
  cases (World.generator?_withGenerator gen').symm.trans found
  rfl

instance : Sparing (resume call v sent thrown) := by
  refine .reading fun w => .require fun G gen => ?_
  have idle (still : ¬G.running = true) (H : Generator) (gen' : w.generator? v = some H) :
      H.running = false := by
    cases gen.symm.trans gen'
    simpa using still
  split
  · split <;> infer_instance
  · rename_i unfinished
    split
    · infer_instance
    · rename_i still
      have finishes := sparesIn_finish (idle still)
      have runs : SparesIn w _ :=
        sparesIn_body sent thrown call gen (idle still G gen) (by simpa using unfinished)
      dsimp only
      split
      · split
        · refine .bind fun _ _ _ => .bind fun a w' thrown => ?_
          cases thrown
        · split
          · refine .bind fun a w' raised => ?_
            cases raised
          · exact runs
      · exact runs

/-! ## Functions -/

instance {step : Int64 → Int64 → Effect Value} [∀ x y, Sparing (step x y)] :
    Sparing (withInts s v step) :=
  .bind fun w => by split <;> infer_instance

instance {step : String → String → Effect Value} [∀ x y, Sparing (step x y)] :
    Sparing (withTexts s v step) :=
  .bind fun w => by split <;> infer_instance

instance {b : Builtin} : Sparing (builtin call b args) := by
  unfold builtin
  -- What is left are the builtins that look at an object; some of them write it again.
  split <;> try infer_instance
  · exact .bind fun w => by split <;> infer_instance
  · exact .bind fun _ => .bind fun w => by split <;> infer_instance
  · exact .bind fun w => .bind fun _ => .bind fun _ => by split <;> infer_instance
  · exact sparing_dict _ (·.putEntry _ _) _
  · refine .reading fun w => .require fun entries found => .read ?_
    split
    · exact sparesIn_write_pure (generator?_of_dict? found) (by simp) _
    · infer_instance
  · exact sparing_record _ (·.set "args" _) _
  · refine .reading fun w => ?_
    split
    · rename_i found
      exact sparesIn_write_pure (by rw [World.generator?, found]) (by simp) _
    · infer_instance
    · infer_instance

instance : Sparing (classNamed name) := by
  unfold classNamed
  infer_instance

mutual

theorem sparing_eval (call : Caller) [∀ c, Sparing (call c)] : ∀ e, Sparing (eval call e)
  | .null | .word _ | .text _ | .none | .notImplemented | .bool _ | .int _ | .str _ | .cls _ | .var _
  | .function _ => by
    unfold eval
    infer_instance
  | .list items | .tuple items | .iterator items | .exception _ items | .new _ items => by
    have := sparing_evalAll call items
    unfold eval
    infer_instance
  | .dict entries => by
    have := sparing_evalEntries call entries []
    unfold eval
    infer_instance
  | .slice a b c => by
    have := sparing_eval call a
    have := sparing_eval call b
    have := sparing_eval call c
    unfold eval
    infer_instance
  | .bound self f => by
    have := sparing_eval call self
    have := sparing_eval call f
    unfold eval
    infer_instance

theorem sparing_evalAll (call : Caller) [∀ c, Sparing (call c)] : ∀ es, Sparing (evalAll call es)
  | [] => by
    unfold evalAll
    infer_instance
  | e :: es => by
    have := sparing_eval call e
    have := sparing_evalAll call es
    unfold evalAll
    infer_instance

theorem sparing_evalEntries (call : Caller) [∀ c, Sparing (call c)] :
    ∀ es entries, Sparing (evalEntries call es entries)
  | [], _ => by
    unfold evalEntries
    infer_instance
  | (k, x) :: es, entries => by
    have := sparing_eval call k
    have := sparing_eval call x
    have := sparing_evalEntries call es
    unfold evalEntries
    infer_instance

end

attribute [instance] sparing_eval

theorem argument_eq_ok {i : Int} (h : argument args i w = (.ok v, w')) : w' = w := by
  unfold argument at h
  split at h
  · cases found : args[i.toNat]? with
    | none =>
      rw [found] at h
      cases h
    | some a =>
      rw [found] at h
      cases h
      rfl
  · cases h

instance {i : Int} : Sparing (argument args i) := by
  unfold argument
  infer_instance

instance : Sparing (raiseInstance v) := by
  unfold raiseInstance
  infer_instance

instance : Sparing (codeNamed name) := by
  unfold codeNamed
  infer_instance

instance : Sparing (logCall name args) := ⟨fun _ => ⟨.of_eq (fun _ => rfl) fun _ => rfl⟩⟩

instance {s : Script} : Sparing (script call s args) := by
  cases s with
  | setField i name j =>
    refine .bind fun v => .reading fun w => .require fun _ found => .bind fun a w' given => ?_
    rw [argument_eq_ok given]
    exact sparesIn_write_pure (generator?_of_record? found) (by simp) _
  | _ =>
    unfold script
    infer_instance

instance {f : Function} : Sparing (Effect.bind f args keywords) :=
  .bind fun w => by split <;> infer_instance

instance {f : Function} : Sparing (runBody call f args) := by
  unfold runBody
  split <;> infer_instance

omit [∀ c, Sparing (call c)] in
/-- Whatever a call does, it spares generators. -/
instance {n depth : Nat} {c : Call} : Sparing (performUpTo n depth c) := by
  induction n generalizing depth c with
  | zero => exact inferInstanceAs (Sparing (throw _))
  | succ n ih =>
    cases c with
    | value callee args keywords => exact .bind fun w => by split <;> infer_instance
    | function f args =>
      unfold performUpTo
      infer_instance

end Effect

end HostLowering.Object
