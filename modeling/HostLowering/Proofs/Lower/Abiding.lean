import HostLowering.Proofs.Lower.Discipline

set_option autoImplicit false

/-! # Operations keep every discipline

The idioms and steps that operations are made of, and the operations themselves. Whatever types,
keywords and depths an operation meets, it takes temporaries and frees them in the opposite order, also
when it records a failure, marks and branches to labels of its own, and invokes what may be invoked; so
it keeps every discipline (`abides_body`). Opening a region and suspending a generator are for other
modules.
-/

namespace HostLowering.Lower

set_option synthInstance.maxSize 1000000

open Machine Catalog Lowering

variable {D : Discipline} {own : List Label} {live : List Int} {i depth : Int} {cls : String}
  {ts : List Temp} {t : TypeRef} {c : Collection}

/-! ## Idioms -/

/-- The source locals and the two slots of exceptions come first. -/
theorem Function.inside {f : Function} (low : f.localBase ≤ i) (high : i < f.slotBase + 2) :
    0 ≤ i ∧ i < f.slotBase + 2 :=
  ⟨f.nonneg_localBase.trans low, high⟩

instance {n : Int} [Invoked (Library.collectionInit cls)] :
    D.Abides own (newCollection cls n) := by
  unfold newCollection
  infer_instance

instance [Invoked (Library.reverseAdd cls)] : D.Abides own (reverseAdd cls) := by
  unfold reverseAdd
  infer_instance

instance {n : Nat} : D.Abides own (packArguments n) := by
  unfold packArguments
  infer_instance

instance : D.Readable live (D.function.hostLocal 0) := by
  refine ⟨.inl (Function.inside ?_ ?_)⟩
  · unfold Function.hostLocal
    omega
  · unfold Function.hostLocal Function.slotBase
    omega

instance : D.Abides own callerInstance := by
  unfold callerInstance
  infer_instance

instance : D.Abides own callPacked := by
  unfold callPacked
  infer_instance

instance {method : String} : D.Abides own (callUnary method) := by
  unfold callUnary
  infer_instance

/-! ## Moving slots -/

/-- The locals of temporaries given in the order they were taken, the latest first. -/
def held (ts : List Temp) : List Int := ts.reverse.map Temp.index

/-- Temporaries that are taken. -/
class Taken (ts : List Temp) (live : List Int) : Prop where
  mem : ∀ t ∈ ts, t.index ∈ live

instance [h : Taken ts live] : Taken ts (i :: live) :=
  ⟨fun t mem => .tail i (h.mem t mem)⟩

instance {us : List Temp} [h : Taken ts live] : Taken ts (held us ++ live) :=
  ⟨fun t mem => List.mem_append_right _ (h.mem t mem)⟩

instance : Taken ts (held ts ++ live) := by
  refine ⟨fun t mem => List.mem_append_left _ (List.mem_map_of_mem ?_)⟩
  rwa [List.mem_reverse]

theorem mem_held {t : Temp} (mem : t ∈ ts) : t.index ∈ held ts ++ live := by
  have taken : Taken ts (held ts ++ live) := inferInstance
  exact taken.mem t mem

instance {t : Temp} [Among t.index live] : D.Conforms own live (loadTemp t) fun _ => live := by
  unfold loadTemp
  infer_instance

instance {t : Temp} [Among t.index live] :
    D.Conforms own live (reloadTemp t) fun _ => live := by
  unfold reloadTemp
  infer_instance

theorem does_spillMany (n : Nat) :
    D.Conforms own live (spillMany n) fun ts => held ts ++ live := by
  induction n generalizing live with
  | zero => exact ⟨D.ret [] rfl⟩
  | succ n ih =>
    refine .next fun slot => .next fun k => .next fun i => .next fun _ => ?_
    refine ⟨D.bind ih.does fun ts => D.ret (⟨i, slot⟩ :: ts) ?_⟩
    show held (⟨i, slot⟩ :: ts) ++ live = held ts ++ i :: live
    simp [held]

instance {n : Int} : D.Conforms own live (spill n) fun ts => held ts ++ live := by
  refine .next fun st => ?_
  split
  · exact does_spillMany _
  · exact .defect rfl

/-- A step for each of several temporaries. -/
theorem conforms_temps {g : Temp → Lowering Unit} [h : Taken ts live]
    (each : ∀ t, [Among t.index live] → D.Conforms own live (g t) fun _ => live) :
    D.Conforms own live (ts.reverse.forM g) fun _ => live :=
  .forM fun t mem =>
    have : Among t.index live := ⟨h.mem t (List.mem_reverse.mp mem)⟩
    each t

instance [Taken ts live] : D.Conforms own live (reload ts) fun _ => live :=
  conforms_temps fun _ => inferInstance

instance : D.Conforms own (held ts ++ live) (release ts) fun _ => live := by
  have frees (us : List Temp) : D.Conforms own (us.map Temp.index ++ live)
      (us.forM fun t => free t.index) fun _ => live := by
    induction us with
    | nil => exact ⟨D.ret () rfl⟩
    | cons t us ih =>
      exact inferInstanceAs (D.Conforms own (t.index :: _) (free t.index >>= fun _ => _) _)
  exact frees ts.reverse

instance {n : Int} : D.Conforms own live (copyOut n) fun ts => held ts ++ live :=
  .next fun ts => .next fun _ => ⟨D.ret ts rfl⟩

instance : D.Abides own swap :=
  fun _ => .next fun _ => .next fun st => by split <;> infer_instance

instance : D.Abides own rotate3 :=
  fun _ => .next fun _ => .next fun st => by split <;> infer_instance

instance : D.Abides own rotate4 := by
  refine fun live => .next fun ts => ?_
  split
  · rename_i d c
    have first : Among d.index (held [d, c] ++ live) := ⟨mem_held (by simp)⟩
    have second : Among c.index (held [d, c] ++ live) := ⟨mem_held (by simp)⟩
    infer_instance
  · exact .defect rfl

instance : D.Abides own (duplicate depth) := by
  unfold duplicate
  intro live
  split
  · infer_instance
  · split
    · infer_instance
    · refine .next fun ts => .next fun _ => .next fun x => .next fun _ => ?_
      have copies : D.Conforms own (held ts ++ live) (ts.reverse.forM fun t => do
          loadTemp t
          emit [.swap]
          setTop t.slot
          pushSlot x) fun _ => held ts ++ live := conforms_temps fun _ => inferInstance
      infer_instance

instance : D.Abides own (bury depth) := by
  unfold bury
  infer_instance

instance : D.Abides own (exchange depth) := by
  unfold exchange
  intro live
  split
  · infer_instance
  · split
    · infer_instance
    · refine .next fun ts => ?_
      split
      · rename_i top rest bottom last
        -- The slots that come back are those spilled, in another order.
        have spilled (t : Temp) (mem : t ∈ bottom :: rest.dropLast ++ [top]) : t ∈ top :: rest := by
          have bottom_mem := List.mem_of_getLast? last
          simp only [List.mem_append, List.mem_cons, List.not_mem_nil, or_false] at mem
          rcases mem with (rfl | between) | rfl
          · exact bottom_mem
          · exact List.mem_cons_of_mem _ (List.mem_of_mem_dropLast between)
          · exact List.mem_cons_self
        have taken : Taken (bottom :: rest.dropLast ++ [top]) (held (top :: rest) ++ live) :=
          ⟨fun t mem => mem_held (spilled t mem)⟩
        infer_instance
      · exact .defect rfl

instance {step : Int → Lowering Unit} [D.Abides own (step depth)] :
    D.Abides own (atDepth depth step) := by
  unfold atDepth
  infer_instance

instance : D.Abides own discardTop := by
  unfold discardTop
  infer_instance

/-! ## Locals and constants -/

/-- The host local of a source local that there is. -/
def Function.IsLocal (f : Function) (i : Int) : Prop := 0 ≤ i ∧ i < f.locals.size

theorem Function.IsLocal.inside {f : Function} (h : f.IsLocal i) :
    f.localBase ≤ f.hostLocal i ∧ f.hostLocal i < f.slotBase := by
  unfold Function.IsLocal at h
  unfold Function.hostLocal Function.slotBase
  omega

instance [there : Given (D.function.IsLocal i)] : D.Readable live (D.function.hostLocal i) := by
  have inside := there.holds.inside
  exact ⟨.inl (Function.inside inside.1 (by omega))⟩

/-- A step on a source local: if there is no such local, the rest goes on without one. -/
theorem abides_localType {k : Option TypeRef → Lowering Unit}
    (found : ∀ t, D.function.IsLocal i → D.Abides own (k (some t)))
    [missing : D.Abides own (k none)] : D.Abides own (localType i >>= k) := by
  intro live
  by_cases there : D.function.IsLocal i
  · have same : (localType i >>= k) D.function =
        k (some ((D.function.locals[i.toNat]?).join.getD objectType)) D.function := by
      unfold localType
      change ((if 0 ≤ i ∧ i < (D.function.locals.size : Int) then _ else _ : Lowering _) >>= k)
        D.function = _
      rw [if_pos (show 0 ≤ i ∧ i < (D.function.locals.size : Int) from there)]
      rfl
    exact .congr same (found _ there live)
  · have same : (localType i >>= k) D.function =
        (fail (.localOutOfRange i D.function.locals.size) >>= fun _ => k none)
          D.function := by
      unfold localType
      change ((if 0 ≤ i ∧ i < (D.function.locals.size : Int) then _ else _ : Lowering _) >>= k)
        D.function = _
      rw [if_neg (show ¬(0 ≤ i ∧ i < (D.function.locals.size : Int)) from there)]
      rfl
    exact .congr same (.next fun _ => missing live)

instance : D.Abides own (loadLocal i) := by
  refine abides_localType fun t there => ?_
  have : Given (D.function.IsLocal i) := ⟨there⟩
  infer_instance

theorem abides_storeLocal (may : D.function.IsLocal i → D.writes (D.function.hostLocal i)) :
    D.Abides own (storeLocal i) := by
  refine abides_localType fun t there => ?_
  have : Given (D.writes (D.function.hostLocal i)) := ⟨may there⟩
  infer_instance

theorem abides_clearLocal (may : D.function.IsLocal i → D.writes (D.function.hostLocal i)) :
    D.Abides own (clearLocal i) := by
  refine abides_localType fun t there => ?_
  have : Given (D.writes (D.function.hostLocal i)) := ⟨may there⟩
  infer_instance

instance {x : Literal} : D.Abides own (loadLiteral x) := by
  unfold loadLiteral
  cases x <;> infer_instance

/-! ## Protocol methods -/

theorem knows_of_directMethod? {f : Function} {name : String} {args : List TypeRef}
    {sig : Signature} {r : Registry} (h : directMethod? f r t name args = some sig) :
    r.Knows sig := by
  unfold directMethod? at h
  split at h
  · exact Registry.knows_of_lookup? (Option.filter_eq_some_iff.mp h).1
  · cases h

/-- A signature whose method may be invoked. -/
class Discipline.Admits (D : Discipline) (sig : Signature) : Prop where
  mem : sig.method ∈ D.refs

theorem abides_direct? {name : String} {args : List TypeRef} {α : Type}
    {k : Option Signature → Lowering α} {after : α → List Int}
    (found : ∀ sig, [D.Admits sig] → D.Conforms own live (k (some sig)) after)
    (missing : D.Conforms own live (k none) after) :
    D.Conforms own live (direct? t name args >>= k) after := by
  have same : (direct? t name args >>= k) D.function =
      ((get : Lowering State) >>= fun s =>
        k (directMethod? D.function s.registry t name args)) D.function := by
    funext s
    exact bind_of_eq_ok (direct?_eq D.function s t name args)
  refine .congr same (.get fun s known => ?_)
  cases eq : directMethod? D.function s.registry t name args with
  | none => exact missing
  | some sig =>
    have : D.Admits sig := ⟨known sig (knows_of_directMethod? eq)⟩
    exact found sig

instance {sig : Signature} : D.Abides own (ownerClass sig) := by
  unfold ownerClass
  split <;> infer_instance

instance {sig : Signature} : D.Abides own (firstParamClass sig) := by
  unfold firstParamClass
  split <;> infer_instance

instance {sig : Signature} [h : D.Admits sig] : D.Abides own (invokeSignature sig) :=
  fun _ => abides_invokeBy (Signature.isInvoke_opcode sig) h.mem

instance {method : String} : D.Abides own (unary method) := fun _ =>
  .next fun _ => abides_direct? (fun _ => inferInstance) inferInstance

instance {n : Nat} [Invoked (Library.collectionInit cls)] [Invoked (Library.reverseAdd cls)] :
    D.Abides own (collect cls t n) := by
  have adds : D.Abides own (do
      reverseAdd cls
      match ← stack with
      | c :: _ :: rest => setStack (c :: rest)
      | _ => defect .invalidAccess) :=
    fun _ => .next fun _ => .next fun st => by split <;> infer_instance
  unfold collect
  infer_instance

instance {argc : Nat} : D.Abides own (callFound argc) := by
  unfold callFound
  infer_instance

instance {method : String} {argc : Nat} : D.Abides own (callMethod method argc) := by
  unfold callMethod
  infer_instance

instance {method : String} {argc : Nat} : D.Abides own (callProtocol method argc) := by
  unfold callProtocol
  infer_instance

instance : D.Abides own Lowering.toBool := by
  unfold Lowering.toBool
  infer_instance

instance {different : Bool} : D.Abides own (compareIdentity different) := by
  unfold compareIdentity
  infer_instance

instance : D.Abides own negate := by
  unfold negate
  infer_instance

/-! ## Binary operators -/

section Binary

variable {op plain generic : Operator} {symbol method : String} {prepare : List Opcode} {sig : Signature}
  {next : Lowering Unit} {onRight leftDeclined : Bool}

instance : D.Abides own (exhausted op symbol) := by
  unfold exhausted
  infer_instance

instance {declined done : Label} [Among declined own] [Among done own] :
    D.Abides own (orElse declined done) := by
  unfold orElse
  infer_instance

theorem abides_genericCandidate [Plains prepare] (h : D.Abides own next) :
    D.Abides own (genericCandidate prepare method next) := by
  have (missing declined done : Label) : D.Abides (done :: declined :: missing :: own) next :=
    fun live => .owning (.owning (.owning (h live) missing) declined) done
  unfold genericCandidate
  infer_instance

instance : D.Abides own (genericRight op symbol) := by
  unfold genericRight
  split
  · infer_instance
  · exact abides_genericCandidate inferInstance

/-- What is tried when the left operand declines. -/
theorem abides_afterLeft : D.Abides own (discard (match op.fallback? with
    | some plain => genericCandidate [.dup2, .swap] plain.method
        (discard (genericRight plain symbol))
    | none => genericRight op symbol)) := by
  have plainly (plain : Operator) : D.Abides own (genericCandidate [.dup2, .swap] plain.method
      (discard (genericRight plain symbol))) := abides_genericCandidate inferInstance
  split <;> infer_instance

instance : D.Abides own (genericBinary op symbol) := abides_genericCandidate abides_afterLeft

/-- What follows a candidate that may decline. -/
theorem abides_ifDeclined (h : D.Abides own next) (t : Option TypeRef) : D.Abides own (do
      let declined ← newLabel
      let done ← newLabel
      orElse declined done
      mark declined
      emit [.pop]
      next
      mark done
      return t) := by
  have (declined done : Label) : D.Abides (done :: declined :: own) next :=
    fun live => .owning (.owning (h live) declined) done
  infer_instance

theorem abides_directCandidate [D.Admits sig] (h : D.Abides own next) :
    D.Abides own (directCandidate sig onRight next) := by
  have := abides_ifDeclined h (some objectType)
  unfold directCandidate
  infer_instance

instance : D.Abides own (rightSide op plain generic symbol leftDeclined) := by
  intro live
  refine .next fun left => .next fun right => ?_
  have finishes (found : Option Signature) (known : ∀ sig ∈ found, D.Admits sig) :
      D.Conforms own live (match found with
        | some sig => directCandidate sig true (discard (exhausted op symbol))
        | none => if leftDeclined then genericRight plain symbol
            else genericBinary generic symbol) fun _ => live := by
    cases found with
    | some sig =>
      have := known sig rfl
      exact abides_directCandidate inferInstance live
    | none => infer_instance
  cases plain.reflected? with
  | some method =>
    exact abides_direct? (fun sig _ => finishes (some sig) (by simpa)) (finishes none (by simp))
  | none => exact .congr rfl (finishes none (by simp))

instance : D.Abides own (fallbackSide op plain symbol) := fun live =>
  .next fun _ => .next fun _ =>
    abides_direct? (fun _ _ => abides_directCandidate inferInstance live) inferInstance

instance : D.Abides own (leftSide op symbol) := by
  refine fun live => .next fun left => .next fun right => abides_direct? (fun sig _ => ?_) ?_
  · cases op.fallback? with
    | some plain => exact abides_directCandidate inferInstance live
    | none => cases op.reflected? <;> exact abides_directCandidate inferInstance live
  · dsimp only
    split
    · infer_instance
    · split <;> infer_instance

instance : D.Abides own (orderOperands method) := by
  unfold orderOperands
  infer_instance

instance : D.Abides own (binary op) := by
  unfold binary
  infer_instance

instance {negated : Bool} : D.Abides own (contains negated) := fun _ =>
  .next fun _ => .next fun _ => .next fun _ => abides_direct? (fun _ => inferInstance) inferInstance

end Binary

/-! ## Attributes -/

section Attributes

variable {name : String}

instance : D.Abides own (field? name) := by
  unfold field?
  infer_instance

instance : D.Abides own (raiseMissing name) := by
  unfold raiseMissing
  infer_instance

instance : D.Abides own (loadAttribute name) := by
  refine fun live => .next fun field => ?_
  cases field with
  | some f => infer_instance
  | none =>
    refine .next fun receiver => .next fun _ => .next fun _ => .next fun _ => ?_
    refine abides_lookup? fun found known => ?_
    cases found with
    | none => infer_instance
    | some sig =>
      have adds : D.Conforms own live _ _ := ⟨D.addCallable (known sig rfl) true⟩
      infer_instance

instance : D.Abides own (storeAttribute name) :=
  fun _ => .next fun field => by cases field <;> infer_instance

instance : D.Abides own (deleteAttribute name) :=
  fun _ => .next fun field => by cases field <;> infer_instance

end Attributes

/-! ## Calls -/

section Calls

variable {argc : Nat} {n : Int} {keywords : List String} {sig : Signature} {receiver : Receiver}

instance : D.Abides own (genericCall argc keywords) := by
  unfold genericCall
  infer_instance

theorem conforms_loadArgument {arg : HostArg Temp} (taken : ∀ t ∈ arg.values, t.index ∈ live) :
    D.Conforms own live (loadArgument arg) fun _ => live := by
  cases arg with
  | surplus values =>
    have : Taken values live := ⟨taken⟩
    exact .next fun _ => conforms_temps fun _ => inferInstance
  | keywords entries =>
    refine .next fun _ => .forM fun (name, t) mem => ?_
    have : Among t.index live := ⟨taken t (List.mem_map_of_mem (f := Prod.snd) mem)⟩
    infer_instance
  | given param t =>
    have : Among t.index live := ⟨taken t List.mem_cons_self⟩
    unfold loadArgument
    infer_instance
  | default f => exact inferInstanceAs (D.Conforms own live (getStatic f) _)
  | null => exact inferInstanceAs (D.Conforms own live (emit [.aconstNull]) _)

instance : D.Abides own coerceToType := by
  unfold coerceToType
  infer_instance

variable (D own sig) in
theorem abides_convertReceiver : D.Abides own (match sig.kind with
    | .onReceiver => do cast (← ownerClass sig)
    | .onClass => coerceToType
    | .static => pure ()) := by
  split <;> infer_instance

theorem conforms_loadReceiver {first : Option Temp} (taken : ∀ t ∈ first, t.index ∈ live) :
    D.Conforms own live (loadReceiver sig receiver first) fun _ => live := by
  have finishes := abides_convertReceiver D own sig
  unfold loadReceiver
  cases receiver with
  | object => infer_instance
  | bound => infer_instance
  | firstArgument =>
    cases first with
    | some t =>
      have : Among t.index live := ⟨taken t rfl⟩
      infer_instance
    | none => infer_instance

section Binding

variable {α : Type} {sig : Signature} {d : Defect}

theorem ofPool_bindParam {bound : List (Nat × α)} {i : Nat} (h : bindParam sig bound i = .error d) :
    d.ofPool = false := by
  unfold bindParam at h
  dsimp only at h
  split at h
  · cases h
    rfl
  · cases found : sig.params[(sig.namedIndex i).toNat]? with
    | none =>
      rw [found] at h
      cases h
      rfl
    | some p =>
      rw [found] at h
      simp only [need, Bind.bind, Except.bind] at h
      split at h <;> cases h

/-- A parameter that is bound adds no defect. -/
theorem ofPool_consArgument {next : Except Defect (Except Library.BindError (List (HostArg α)))}
    (later : next = .error d → d.ofPool = false) (arg : Except Library.BindError (HostArg α))
    (h : (do
      match arg with
      | .error e => pure (.error e)
      | .ok a =>
          match ← next with
          | .error e => pure (.error e)
          | .ok args => pure (.ok (a :: args)) :
        Except Defect (Except Library.BindError (List (HostArg α)))) = .error d) :
    d.ofPool = false := by
  cases arg with
  | error e => cases h
  | ok a =>
    rcases except_bind_eq_error h with failed | ⟨args, -, h⟩
    · exact later failed
    · cases args <;> cases h

theorem ofPool_bindParams {bound : List (Nat × α)} {surplus : List α} {extra : List (String × α)}
    {indices : List Nat} (h : bindParams sig bound surplus extra indices = .error d) :
    d.ofPool = false := by
  induction indices with
  | nil => cases h
  | cons i rest ih =>
    unfold bindParams at h
    dsimp only at h
    split at h
    · exact ofPool_consArgument ih (.ok (.surplus surplus)) h
    · split at h
      · exact ofPool_consArgument ih (.ok (.keywords extra)) h
      · rcases except_bind_eq_error h with first | ⟨arg, -, h⟩
        · exact ofPool_bindParam first
        · exact ofPool_consArgument ih arg h

/-- Binding arguments meets no defect of the pool. -/
theorem ofPool_bind {positional : List α} {keywords : List (String × α)}
    (h : bind sig positional keywords = .error d) : d.ofPool = false := by
  unfold bind at h
  dsimp only at h
  split at h
  · cases h
  · split at h
    · cases h
    · exact ofPool_bindParams h

end Binding

instance [D.Admits sig] : D.Abides own (directCall sig receiver argc keywords) := by
  refine fun live => .next fun ts => ?_
  dsimp only
  split
  · infer_instance
  · split
    · rename_i d wrong
      exact .defect (ofPool_bind wrong)
    · infer_instance
    · rename_i args binds
      -- All that is loaded was spilled before.
      obtain ⟨-, values⟩ := bind_values binds
      have loads : D.Conforms own (held ts ++ live) (args.forM loadArgument)
          fun _ => held ts ++ live :=
        .forM fun arg mem => conforms_loadArgument fun t ht => mem_held (values arg mem t ht)
      have receives : D.Conforms own (held ts ++ live)
          (loadReceiver sig receiver ts.reverse.head?) fun _ => held ts ++ live :=
        conforms_loadReceiver fun t first => mem_held (List.mem_reverse.mp (List.mem_of_head? first))
      infer_instance

instance : D.Abides own (callValue n keywords) := by
  unfold callValue
  intro live
  split
  · infer_instance
  · refine .next fun callee => .get fun s known => ?_
    split
    · rename_i c found
      have : D.Admits c.signature := ⟨known _ (Registry.knows_of_callable? found)⟩
      infer_instance
    · infer_instance

instance {name : String} : D.Abides own (callNamed name n keywords) := by
  unfold callNamed
  intro live
  split
  · infer_instance
  · refine .next fun receiver => abides_lookup? fun found known => ?_
    cases found with
    | some sig =>
      have : D.Admits sig := ⟨known sig rfl⟩
      infer_instance
    | none => infer_instance

instance {hasKeywords : Bool} : D.Abides own (callSpread hasKeywords) := by
  unfold callSpread
  cases hasKeywords <;> infer_instance

end Calls

/-! ## Collections -/

section Collections

variable {n : Int}

instance : Invoked (Library.collectionInit c.hostClass) := ⟨by cases c <;> decide⟩

instance : Invoked (Library.reverseAdd c.hostClass) := ⟨by cases c <;> decide⟩

instance : D.Abides own (build c n) := by
  unfold build
  infer_instance

instance [taken : Taken ts live] : D.Conforms own live (putPairs ts) fun _ => live := by
  obtain ⟨taken⟩ := taken
  fun_induction putPairs ts with
  | case1 k v rest ih =>
    have key : Among k.index live := ⟨taken k (by simp)⟩
    have value : Among v.index live := ⟨taken v (by simp)⟩
    have later := ih fun t mem => taken t (List.mem_cons_of_mem _ (List.mem_cons_of_mem _ mem))
    infer_instance
  | case2 ts => infer_instance

instance [taken : Taken ts live] : Taken ts.reverse live :=
  ⟨fun t mem => taken.mem t (List.mem_reverse.mp mem)⟩

instance : D.Abides own (buildMap n) := by
  unfold buildMap
  infer_instance

/-- Several temporaries are taken, the latest standing first. -/
instance does_allocAll {α : Type} {xs : List α} :
    D.Conforms own live (xs.mapM fun _ => allocRef) fun items => items.reverse ++ live := by
  induction xs generalizing live with
  | nil => exact ⟨D.ret [] rfl⟩
  | cons y xs ih =>
    rw [List.mapM_cons]
    refine .next fun i => ⟨D.bind ih.does fun items => D.ret (i :: items) ?_⟩
    simp

/-- Temporaries can be freed, the latest first. -/
instance {slots : List Int} : D.Conforms own (slots ++ live) (slots.forM free) fun _ => live := by
  induction slots with
  | nil => exact ⟨D.ret () rfl⟩
  | cons i slots ih =>
    exact inferInstanceAs (D.Conforms own (i :: (slots ++ live)) (free i >>= fun _ => _) _)

instance [Among i live] : D.Conforms own live (nextOf i) fun _ => live := by
  unfold nextOf
  infer_instance

instance {items : List Int} [h : Among i live] : Among i (items ++ live) :=
  ⟨List.mem_append_right _ h.mem⟩

instance {items : List Int} [h : Taken ts live] : Taken ts (items ++ live) :=
  ⟨fun t mem => List.mem_append_right _ (h.mem t mem)⟩

instance [Given D.guards] : D.Abides own (unpack n) := by
  unfold unpack
  intro live
  split
  · infer_instance
  · refine .next fun st => .next fun ts => ?_
    have top : Taken (ts.take 1) (held ts ++ live) := ⟨fun t mem => mem_held (List.mem_of_mem_take mem)⟩
    have rest : Taken (ts.drop 1) (held ts ++ live) := ⟨fun t mem => mem_held (List.mem_of_mem_drop mem)⟩
    refine .next fun _ => .next fun _ => .next fun it => .next fun _ => .next fun _ => .next fun size =>
      .next fun _ => .next fun _ => ?_
    split
    · exact .defect rfl
    · refine .next fun items => ?_
      -- From here to the end the same temporaries are taken.
      have targets (i : Int) (mem : i ∈ items) :
          Among i (items.reverse ++ size :: it :: (held ts ++ live)) :=
        ⟨List.mem_append_left _ (List.mem_reverse.mpr mem)⟩
      have (start stop exhausted done : Label) :
          D.Conforms (done :: exhausted :: stop :: start :: own)
            (items.reverse ++ size :: it :: (held ts ++ live)) (items.forM fun i => do
              nextOf it
              storeRef i
              increment size) fun _ => items.reverse ++ size :: it :: (held ts ++ live) :=
        .forM fun i mem => by
          have := targets i mem
          infer_instance
      have (start stop exhausted done : Label) :
          D.Conforms (done :: exhausted :: stop :: start :: own)
            (items.reverse ++ size :: it :: (held ts ++ live)) (items.reverse.forM fun i => do
              loadRef i
              pushType objectType) fun _ => items.reverse ++ size :: it :: (held ts ++ live) :=
        .forM fun i mem => by
          have := targets i (List.mem_reverse.mp mem)
          infer_instance
      infer_instance

instance {list index : Int} [Among list live] :
    D.Conforms own live (pushItem list index) fun _ => live := by
  unfold pushItem
  infer_instance

instance {before after : Int} : D.Abides own (unpackWithTail before after) := by
  unfold unpackWithTail
  intro live
  split
  · infer_instance
  · exact .next fun _ => .next fun _ => .next fun _ => .next fun _ => .next fun list => .next fun _ =>
      .label

instance : D.Abides own newSlice := by
  refine fun live => .next fun ts => ?_
  have loads : D.Conforms own (held ts ++ live) (ts.reverse.forM loadTemp)
      fun _ => held ts ++ live := conforms_temps fun _ => inferInstance
  infer_instance

instance : D.Abides own storeItem := by
  unfold storeItem
  infer_instance

instance : D.Abides own deleteItem := by
  unfold deleteItem
  infer_instance

instance : D.Abides own getSlice := by
  unfold getSlice
  infer_instance

instance : D.Abides own storeSlice := by
  unfold storeSlice
  infer_instance

end Collections

/-! ## Jumps and iteration -/

section Jumps

variable {target : Int} {value : Bool}

instance [Given (D.jumps target)] : D.Abides own (jump target) := by
  unfold jump
  infer_instance

instance : Branches (compare value) := ⟨by cases value <;> rfl⟩

instance [Given (D.jumps target)] : D.Abides own (popJumpIf value target) := by
  unfold popJumpIf
  infer_instance

instance [Given (D.jumps target)] : D.Abides own (jumpIfOrPop value target) := by
  unfold jumpIfOrPop
  infer_instance

instance [Given (D.jumps target)] : D.Abides own (popJumpIfNone value target) := by
  unfold popJumpIfNone
  infer_instance

instance [Given (D.jumps target)] [Given D.guards] : D.Abides own (forIter target) := by
  unfold forIter
  refine fun live => .next fun st => .next fun ts => ?_
  have rest : Taken (ts.drop 1) (held ts ++ live) := ⟨fun t mem => mem_held (List.mem_of_mem_drop mem)⟩
  infer_instance

end Jumps

/-! ## Exceptions -/

section Exceptions

instance : D.Abides own pushNone := by
  unfold pushNone
  infer_instance

instance {n : Int} : D.Abides own (pushIntObject n) := by
  unfold pushIntObject
  infer_instance

instance : D.Readable live D.function.exceptionSlot := by
  refine ⟨.inl (Function.inside ?_ ?_)⟩ <;> unfold Function.exceptionSlot Function.slotBase <;> omega

instance : D.Readable live D.function.previousSlot := by
  refine ⟨.inl (Function.inside ?_ ?_)⟩ <;> unfold Function.previousSlot Function.slotBase <;> omega

instance : D.Abides own pushException := by
  unfold pushException
  infer_instance

instance {n : Nat} : Plains (List.replicate n .pop) := by
  induction n with
  | zero => exact inferInstanceAs (Plains [])
  | succ n ih => exact inferInstanceAs (Plains (.pop :: List.replicate n .pop))

instance [Given (D.writes D.function.exceptionSlot)] : D.Abides own startBlock := by
  unfold startBlock
  infer_instance

instance : D.Abides own pushPrevious := by
  unfold pushPrevious
  infer_instance

instance [Given (D.writes D.function.exceptionSlot)] : D.Abides own popException := by
  unfold popException
  infer_instance

instance : D.Abides own testMatch := by
  unfold testMatch
  infer_instance

instance : D.Abides own checkMatch := by
  unfold checkMatch
  infer_instance

instance {target : Int} [Given (D.jumps target)] : D.Abides own (jumpUnlessMatch target) := by
  unfold jumpUnlessMatch
  infer_instance

instance : D.Abides own exceptionInstance := by
  unfold exceptionInstance
  infer_instance

instance {n : Nat} : D.Abides own (throwTop n) := by
  unfold throwTop
  infer_instance

instance {argc : Int} : D.Abides own (raise argc) := by
  unfold raise
  split
  · infer_instance
  · split
    · infer_instance
    · infer_instance

end Exceptions

/-! ## Context managers -/

instance : D.Abides own enterContext := by
  unfold enterContext
  infer_instance

instance : D.Abides own exitNormally := by
  unfold exitNormally
  infer_instance

instance : D.Abides own boundExit? :=
  fun _ => .get fun _ _ => .next fun _ => by split <;> infer_instance

instance : D.Abides own exitWithException := by
  refine fun live => .next fun depth => ?_
  cases depth with
  | none => infer_instance
  | some depth =>
    refine .next fun ts => ?_
    have loads : D.Conforms own (held ts ++ live) (ts.head?.forM loadTemp)
        fun _ => held ts ++ live := by
      cases ts with
      | nil => exact inferInstanceAs (D.Conforms own _ (pure ()) _)
      | cons t ts =>
        have : Among t.index (held (t :: ts) ++ live) := ⟨mem_held List.mem_cons_self⟩
        exact inferInstanceAs (D.Conforms own _ (loadTemp t) _)
    infer_instance

/-! ## Generators -/

section Generators

/-- The object of a generator comes before all other locals. -/
instance : D.Readable live 0 := by
  have low := D.function.nonneg_slotBase
  exact ⟨.inl (by omega)⟩

variable {f : FieldRef} {n : Int}

instance : D.Abides own loadGenerator :=
  fun live => inferInstanceAs (D.Conforms own live (loadRef 0) _)

instance : D.Abides own (readGenerator f) := by
  unfold readGenerator
  infer_instance

instance : D.Abides own (writeGenerator f) := by
  unfold writeGenerator
  infer_instance

instance : D.Abides own (clearGenerator f) := by
  unfold clearGenerator
  infer_instance

instance : D.Abides own (setState n) := by
  unfold setState
  infer_instance

theorem abides_inGenerator {step : Lowering Unit} (h : D.Abides own step) :
    D.Abides own (inGenerator step) := by
  unfold inGenerator
  infer_instance

instance {i : Nat} : D.Abides own (frameItem i cls) := by
  unfold frameItem
  infer_instance

instance {st : Snapshot} : D.Abides own (restoreStack st) := by
  unfold restoreStack
  infer_instance

instance : D.Abides own callWithOne := by
  unfold callWithOne
  infer_instance

instance {target : Int} [Given (D.jumps target)] [Given D.guards] :
    D.Abides own (send target) := by
  refine fun live => .next fun st => .next fun ts => ?_
  split
  · rename_i value receiver rest
    have top : Among value.index (held (value :: receiver :: rest) ++ live) := ⟨mem_held (by simp)⟩
    have under : Among receiver.index (held (value :: receiver :: rest) ++ live) := ⟨mem_held (by simp)⟩
    have others : Taken rest (held (value :: receiver :: rest) ++ live) :=
      ⟨fun t mem => mem_held (List.mem_cons_of_mem _ (List.mem_cons_of_mem _ mem))⟩
    infer_instance
  · exact .defect rfl

instance : D.Abides own finishGenerator := by
  unfold finishGenerator
  infer_instance

instance : D.Abides own returnValue := by
  unfold returnValue
  infer_instance

instance : D.Abides own reraise := by
  unfold reraise
  infer_instance

instance : D.Abides own endGenerator := by
  unfold endGenerator
  exact abides_inGenerator inferInstance

instance : D.Abides own (frameClass i) := by
  unfold frameClass
  infer_instance

end Generators

/-! ## Operations -/

def Operation.target? : Operation → Option Int
  | .jump target | .popJumpIf _ target | .jumpIfOrPop _ target | .popJumpIfNone _ target
  | .forIter target | .jumpUnlessMatch target | .send target => some target
  | _ => none

/-- The locals behind no region that an operation stores to, beside its temporaries. -/
def Operation.Writes (f : Function) : Operation → Int → Prop
  | .storeLocal j, i | .clearLocal j, i => f.IsLocal j ∧ i = f.hostLocal j
  | .startBlock, i | .popException, i => i = f.exceptionSlot
  | _, _ => False

theorem Operation.Writes.inside {f : Function} {op : Operation} (h : op.Writes f i) :
    f.localBase ≤ i ∧ i < f.slotBase + 2 := by
  cases op with
  | storeLocal | clearLocal =>
    obtain ⟨there, rfl⟩ := h
    have inside := there.inside
    omega
  | startBlock | popException =>
    obtain rfl := h
    unfold Function.exceptionSlot Function.slotBase
    omega
  | _ => cases h

theorem Operation.Writes.persistent {f : Function} {op : Operation} (h : op.Writes f i) :
    0 ≤ i ∧ i < f.slotBase + 2 :=
  Function.inside h.inside.1 h.inside.2

/-- An operation that neither opens a region nor suspends a generator. -/
def Operation.Ordinary : Operation → Prop
  | .openRegion _ | .yield | .yieldFrom => False
  | _ => True

def Operation.Iterates : Operation → Prop
  | .forIter _ | .unpack _ | .send _ | .yieldFrom => True
  | _ => False

/-- An operation that neither opens a region nor suspends a generator keeps every discipline that
allows what it writes, where it jumps and, if it advances an iterator, the entry for the end. -/
theorem abides_body {op : Operation} (ordinary : op.Ordinary)
    (may : ∀ i, op.Writes D.function i → D.writes i) (jumps : ∀ t, op.target? = some t → D.jumps t)
    (guards : op.Iterates → D.guards) : D.Abides own op.body := by
  cases op with
  | openRegion r => exact ordinary.elim
  | yield => exact ordinary.elim
  | yieldFrom => exact ordinary.elim
  | storeLocal i => exact abides_storeLocal fun there => may _ ⟨there, rfl⟩
  | clearLocal i => exact abides_clearLocal fun there => may _ ⟨there, rfl⟩
  | unary n =>
    dsimp only [Operation.body]
    split <;> infer_instance
  | binary n =>
    dsimp only [Operation.body]
    split <;> infer_instance
  | jump t | popJumpIf _ t | jumpIfOrPop _ t | popJumpIfNone _ t | jumpUnlessMatch t =>
    have : Given (D.jumps t) := ⟨jumps t rfl⟩
    unfold Operation.body
    infer_instance
  | forIter t | send t =>
    have : Given (D.jumps t) := ⟨jumps t rfl⟩
    have : Given D.guards := ⟨guards trivial⟩
    unfold Operation.body
    infer_instance
  | unpack n =>
    have : Given D.guards := ⟨guards trivial⟩
    exact inferInstanceAs (D.Abides own (unpack n))
  | startBlock | popException =>
    have : Given (D.writes D.function.exceptionSlot) := ⟨may _ rfl⟩
    unfold Operation.body
    infer_instance
  | _ =>
    unfold Operation.body
    infer_instance

end HostLowering.Lower
