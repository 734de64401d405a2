import HostLowering.Proofs.Lower.Demand
import HostLowering.Proofs.Lower.Protocol

set_option autoImplicit false

/-! # Calls

A call takes the callee and its arguments and leaves the result. A direct call loads one value for
each host parameter, whatever the arguments are bound to (`bind_values`).
-/

namespace HostLowering.Lower

set_option synthInstance.maxSize 1000000

open Machine Catalog Lowering

variable {α : Type} {c : Setting} {Γ : List Fact} {p q : Point} {d m n : Nat} {b : Bool}
  {receiver : Receiver} {argc k : Nat} {keywords : List String}

/-! ## Binding arguments -/

def HostArg.values : HostArg α → List α
  | .given _ v => [v]
  | .default _ | .null => []
  | .surplus vs => vs
  | .keywords es => es.map Prod.snd

section Binding

variable {P : α → Prop} {s : Signature}

theorem bindKeywords_values {kws extra extra' : List (String × α)} {bound bound' : List (Nat × α)}
    (h : bindKeywords s kws bound extra = .ok (bound', extra')) (given : ∀ k ∈ kws, P k.2)
    (old : ∀ e ∈ bound, P e.2) (rest : ∀ e ∈ extra, P e.2) :
    (∀ e ∈ bound', P e.2) ∧ ∀ e ∈ extra', P e.2 := by
  induction kws generalizing bound extra with
  | nil =>
    cases h
    exact ⟨old, rest⟩
  | cons k kws ih =>
    obtain ⟨name, value⟩ := k
    have here : P value := given _ List.mem_cons_self
    have others : ∀ k ∈ kws, P k.2 := fun k hk => given k (List.mem_cons_of_mem _ hk)
    unfold bindKeywords at h
    split at h
    · split at h
      · cases h
      · refine ih h others (fun e he => ?_) rest
        rcases List.mem_append.mp he with first | last
        · exact old e first
        · rw [List.mem_singleton] at last
          exact last ▸ here
    · split at h
      · refine ih h others old fun e he => ?_
        rcases List.mem_append.mp he with first | last
        · exact rest e first
        · rw [List.mem_singleton] at last
          exact last ▸ here
      · cases h

theorem bindParam_values {bound : List (Nat × α)} {i : Nat} {a : HostArg α}
    (h : bindParam s bound i = .ok (.ok a)) (given : ∀ e ∈ bound, P e.2) : ∀ v ∈ a.values, P v := by
  unfold bindParam at h
  dsimp only at h
  split at h
  · cases h
  · obtain ⟨param, -, h⟩ := except_bind_eq_ok h
    split at h
    · rename_i v found
      cases h
      intro w hw
      rw [HostArg.values, List.mem_singleton] at hw
      subst hw
      obtain ⟨l₁, l₂, parts, -⟩ := List.lookup_eq_some_iff.mp found
      have mem : ((s.namedIndex i).toNat, w) ∈ bound := by
        rw [parts]
        simp
      exact given _ mem
    · cases h
      simp [HostArg.values]
    · split at h
      · cases h
        simp [HostArg.values]
      · cases h

theorem bindParams_cons (bound : List (Nat × α)) (surplus : List α) (extra : List (String × α))
    (i : Nat) (rest : List Nat) :
    bindParams s bound surplus extra (i :: rest) =
      ((if s.varArgs = some i then .ok (.ok (.surplus surplus))
        else if s.varKwargs = some i then .ok (.ok (.keywords extra))
        else bindParam s bound i) >>= fun arg =>
      match arg with
      | .error e => pure (.error e)
      | .ok a => bindParams s bound surplus extra rest >>= fun args =>
        match args with
        | .error e => pure (.error e)
        | .ok args => pure (.ok (a :: args))) := by
  rw [bindParams]
  dsimp only
  split
  · rfl
  · split <;> rfl

theorem bindParams_values {bound : List (Nat × α)} {surplus : List α} {extra : List (String × α)}
    {is : List Nat} {args : List (HostArg α)}
    (h : bindParams s bound surplus extra is = .ok (.ok args)) (given : ∀ e ∈ bound, P e.2)
    (more : ∀ v ∈ surplus, P v) (rest : ∀ e ∈ extra, P e.2) :
    args.length = is.length ∧ ∀ a ∈ args, ∀ v ∈ a.values, P v := by
  induction is generalizing args with
  | nil =>
    cases h
    simp
  | cons i is ih =>
    rw [bindParams_cons] at h
    obtain ⟨arg, first, h⟩ := except_bind_eq_ok h
    cases arg with
    | error e => cases h
    | ok a =>
      obtain ⟨others, second, h⟩ := except_bind_eq_ok h
      cases others with
      | error e => cases h
      | ok args' =>
        cases h
        obtain ⟨length, valid⟩ := ih second
        refine ⟨congrArg (· + 1) length, fun a' ha => ?_⟩
        rcases List.mem_cons.mp ha with rfl | old
        · split at first
          · cases first
            exact more
          · split at first
            · cases first
              intro v hv
              obtain ⟨e, he, rfl⟩ := List.mem_map.mp hv
              exact rest e he
            · exact bindParam_values first given
        · exact valid a' old

/-- Binding gives one host argument for each host parameter, made of the values given. -/
theorem bind_values {ts : List α} {keywords : List String} {args : List (HostArg α)} {takesFirst : Prop}
    [Decidable takesFirst]
    (h : bind s (if takesFirst then (ts.reverse.take n).drop 1 else ts.reverse.take n)
      (keywords.zip (ts.reverse.drop n)) = .ok (.ok args)) :
    args.length = s.arity ∧ ∀ a ∈ args, ∀ v ∈ a.values, v ∈ ts := by
  generalize given : (if takesFirst then (ts.reverse.take n).drop 1 else _) = positional at h
  have first : ∀ v ∈ positional, v ∈ ts := by
    intro v hv
    rw [← given] at hv
    split at hv
    · exact List.mem_reverse.mp (List.mem_of_mem_take (List.mem_of_mem_drop hv))
    · exact List.mem_reverse.mp (List.mem_of_mem_take hv)
  have named : ∀ k ∈ keywords.zip (ts.reverse.drop n), k.2 ∈ ts :=
    fun k hk => List.mem_reverse.mp (List.mem_of_mem_drop (List.of_mem_zip hk).2)
  unfold bind at h
  dsimp only at h
  split at h
  · cases h
  · split at h
    · cases h
    · rename_i bound extra found
      obtain ⟨valid, others⟩ := bindKeywords_values found named (fun e he => by
        obtain ⟨⟨v, i⟩, mem, rfl⟩ := List.mem_map.mp he
        exact first v (List.mem_of_mem_take (List.fst_mem_of_mem_zipIdx mem))) (by simp)
      have result := bindParams_values h valid (fun v hv => first v (List.mem_of_mem_drop hv)) others
      rwa [List.length_range] at result

end Binding

/-! ## Direct calls -/

theorem moves_loadArgument {a : HostArg Temp} (usable : ∀ t ∈ a.values, Usable c Γ t.index) :
    Moves c Γ (loadArgument a) ⟨some d, m, b⟩ ⟨some (d + 1), m, b⟩ fun _ => [] := by
  unfold loadArgument
  cases a with
  | given param t =>
    exact .seq (moves_loadTemp (usable t (by simp [HostArg.values]))) fun _ => .leads
  | default f => exact .leads
  | null => exact .leads
  | surplus values =>
    refine .on (moves_forMSame values.reverse fun t ht => .on ?_)
    exact .seq (moves_loadTemp (usable t (List.mem_reverse.mp ht))) fun _ => .leads
  | keywords entries =>
    refine .on (moves_forMSame entries fun e he => .on ?_)
    exact .seq (moves_loadTemp (usable _ (List.mem_map.mpr ⟨e, he, rfl⟩))) fun _ => .leads

instance : Shifts coerceToType 1 1 0 0 := ⟨@fun _ _ d _ _ => .label (d + 1) fun _ => .leads⟩

/-- The host method takes a receiver, a type or nothing. -/
theorem moves_convertReceiver (s : Signature) : Moves c Γ (match s.kind with
      | .onReceiver => do cast (← ownerClass s)
      | .onClass => coerceToType
      | .static => pure ()) ⟨some (d + if s.kind = .static then 0 else 1), m, b⟩
    ⟨some (d + if s.kind = .static then 0 else 1), m, b⟩ fun _ => [] := by
  cases s.kind <;> simp only [reduceCtorEq, if_true, if_false] <;> exact .leads

/-- The receiver, unless the method is static, in place of the callee. -/
theorem moves_loadReceiver {s : Signature} {first : Option Temp}
    (bound : receiver = .bound → s.kind ≠ .static)
    (usable : ∀ t, first = some t → Usable c Γ t.index) :
    Moves c Γ (loadReceiver s receiver first) ⟨some (d + 1), m, b⟩
      ⟨some (d + if s.kind = .static then 0 else 1), m, b⟩ fun _ => [] := by
  have convert := moves_convertReceiver (c := c) (Γ := Γ) (d := d) (m := m) (b := b) s
  unfold loadReceiver
  cases receiver with
  | object =>
    by_cases static : s.kind = .static
    · simp only [static, if_true] at convert ⊢
      exact .on convert
    · simp only [static, if_false] at convert ⊢
      exact convert
  | bound =>
    have other := bound rfl
    simp only [other, if_false] at convert ⊢
    exact .on convert
  | firstArgument =>
    refine .on ?_
    by_cases static : s.kind = .static
    · simp only [static, ne_eq, not_true_eq_false, if_true, if_false] at convert ⊢
      exact convert
    · simp only [static, ne_eq, not_false_eq_true, if_true, if_false] at convert ⊢
      cases first with
      | some t => exact .seq (moves_loadTemp (usable t rfl)) fun _ => convert
      | none => exact .seq (.defect _) fun _ => convert

theorem moves_directCall {P : Prop} {s : Signature} (mem : .prop P ∈ Γ) (calls : P → c.Calls s)
    (bound : receiver = .bound → s.kind ≠ .static) :
    Moves c Γ (directCall s receiver argc keywords)
      ⟨some (d + 1 + (argc + keywords.length)), m + 1 + (argc + keywords.length), b⟩
      ⟨some (d + 1), m + 1, b⟩ fun _ => [] := by
  unfold directCall
  rw [← Int.natCast_add]
  refine (moves_spill _).bind fun ts => ?_
  dsimp only
  have temps : Temps c (spilled (argc + keywords.length) ts ++ Γ) ts := .of_mem (by simp [spilled])
  have known : .prop P ∈ spilled (argc + keywords.length) ts ++ Γ := List.mem_append_right _ mem
  split
  · exact .failThen _ .leads
  · split
    · exact .defect _
    · exact .failThen _ .leads
    · rename_i args binds
      obtain ⟨length, values⟩ := bind_values binds
      refine .seq (moves_loadReceiver bound fun t first => temps t ?_) fun _ => ?_
      · exact List.mem_reverse.mp (List.mem_of_head? first)
      have arguments := moves_forM (c := c) (Γ := spilled (argc + keywords.length) ts ++ Γ)
        (x := loadArgument)
        (fun i => ⟨some (d + (if s.kind = .static then 0 else 1) + i), m + 1, b⟩) args 0
        fun a ha i => moves_loadArgument fun t ht => temps t (values a ha t ht)
      refine .seq arguments fun _ => ?_
      rw [Nat.zero_add, length, Nat.add_assoc]
      refine .seq (moves_invokeSignature known calls fun _ => ?_) fun _ => ?_
      · rw [Signature.taken, Nat.add_comm]
      exact .leads

instance (a : HostArg Temp) : Mute (loadArgument a) := by
  cases a with
  | given param t => exact .bind inferInstance inferInstance
  | default f => exact .assemble _
  | null => exact inferInstanceAs (Mute (emit _))
  | surplus values => exact .bind inferInstance inferInstance
  | keywords entries => exact .bind inferInstance inferInstance

instance : Mute coerceToType := by
  unfold coerceToType
  infer_instance

instance (s : Signature) : Mute (invokeSignature s) := .assemble _

instance (s : Signature) : Mute (ownerClass s) := by
  unfold ownerClass
  split <;> infer_instance

instance (s : Signature) (receiver : Receiver) (first : Option Temp) :
    Mute (loadReceiver s receiver first) := by
  unfold loadReceiver
  dsimp only
  cases receiver <;> cases first <;> cases s.kind <;> infer_instance

/-- A direct call that does not fail has found the callee and its arguments. -/
theorem finds_directCall {s : Signature} {st st' : State} {a : Unit}
    (run : directCall s receiver argc keywords c.function st = (.ok a, st'))
    (fine : st'.Fine) : argc + keywords.length + 1 ≤ st.stack.length := by
  unfold directCall at run
  rw [← Int.natCast_add] at run
  obtain ⟨ts, st₁, spills, run⟩ := bind_eq_ok run
  obtain ⟨rest, before, after⟩ := takes_spill _ _ _ _ _ spills
  dsimp only at run
  split at run
  · exact absurd fine (not_fine_of_fail (p := ⟨none, 0, true⟩) Moves.leads run)
  · generalize bind s _ _ = binding at run
    rcases binding with defect | failure | args
    · cases run
    · exact absurd fine (not_fine_of_fail (p := ⟨none, 0, true⟩) Moves.leads run)
    · have finds : Finds (do
          loadReceiver s receiver ts.reverse.head?
          args.forM loadArgument
          invokeSignature s
          release ts
          drop 1
          pushType? s.returns) 1 := by
        refine .after fun _ => .after fun _ => ?_
        exact .after fun _ => .after fun _ => (takes_drop 1).finds.first
      have one := finds _ _ _ _ run
      omega

/-! ## Calls through the uniform protocol -/

/-- The call when the keywords are in a dict, if there are any. -/
theorem moves_callCollected (argc : Nat) (dict : Option Int)
    (usable : ∀ i, dict = some i → Usable c Γ i) : Moves c Γ (do
      collect Library.listClass listType argc
      castUnder Library.functionClass
      match dict with
      | some i =>
        loadRef i
        free i
      | none => emit [.aconstNull]
      callerInstance
      invoke Library.call
      drop 2
      pushType objectType) ⟨some (d + 1 + argc), m + 1 + argc, b⟩ ⟨some (d + 1), m + 1, b⟩
    fun _ => [] := by
  refine .on ?_
  cases dict with
  | some i => exact .seq (moves_load .ref (usable i rfl)) fun _ => .leads
  | none => exact .leads

theorem moves_genericCall (argc : Nat) (keywords : List String) :
    Moves c Γ (genericCall argc keywords)
      ⟨some (d + 1 + argc + keywords.length), m + 1 + argc + keywords.length, b⟩
      ⟨some (d + 1), m + 1, b⟩ fun _ => [] := by
  unfold genericCall
  cases keywords with
  | nil => exact moves_callCollected argc none fun i hi => by cases hi
  | cons name names =>
    refine .seq .leads fun _ => .alloc fun i => .on ?_
    have loop := moves_forMDown (c := c) (Γ := .locals [i] :: Γ)
      (x := fun name : String => do
        loadRef i
        emit [.swap]
        pushStr name
        emit [.swap]
        invoke Library.dictPut
        drop 1)
      (fun n => ⟨some (d + 1 + argc + n), m + 1 + argc + n, b⟩) (name :: names).reverse
      fun name _ n => .leads
    rw [List.length_reverse] at loop
    refine .seq loop fun _ => ?_
    exact (moves_callCollected argc (some i) fun j hj => by cases hj; exact Has.usable).weaken (by simp)

theorem takes_collectOne (cls : String) : Takes (do
    reverseAdd cls
    match ← stack with
    | x :: _ :: rest => setStack (x :: rest)
    | _ => defect .invalidAccess) 2 1 := by
  refine .after fun _ f s a s' run => ?_
  replace run := rest_of_ok run rfl
  rcases slots : s.stack with _ | ⟨x, _ | ⟨y, rest⟩⟩
  · rw [slots] at run
    cases run
  · rw [slots] at run
    cases run
  · rw [slots] at run
    cases run
    exact ⟨rest.length, rfl, rfl⟩

theorem takes_collect (cls : String) (t : TypeRef) (n : Nat) : Takes (collect cls t n) n 1 := by
  refine .after fun _ => ?_
  cases n with
  | zero => exact (takes_pushType t).bind fun _ => (Mute.pure ()).takes
  | succ n =>
    have both := (takes_pushType t).bind fun _ => Takes.times n (takes_collectOne cls)
    rwa [show 0 + (n + 2 - 1) = n + 1 by omega, show 1 - (n + 2) + 1 = 1 by omega] at both

theorem takes_callCollected (argc : Nat) (dict : Option Int) : Takes (do
    collect Library.listClass listType argc
    castUnder Library.functionClass
    match dict with
    | some i =>
      loadRef i
      free i
    | none => emit [.aconstNull]
    callerInstance
    invoke Library.call
    drop 2
    pushType objectType) (argc + 1) 1 := by
  have call : Takes (do
      callerInstance
      invoke Library.call
      drop 2
      pushType objectType) 2 1 := by
    exact .after fun _ => .after fun _ => (takes_drop 2).bind fun _ => takes_pushType _
  refine (takes_collect _ _ argc).bind fun _ => .after (n := 2) (j := 1) fun _ => ?_
  cases dict with
  | some i => exact .after fun _ => .after fun _ => call
  | none => exact .after fun _ => call

theorem takes_genericCall (argc : Nat) (keywords : List String) :
    Takes (genericCall argc keywords) (argc + keywords.length + 1) 1 := by
  unfold genericCall
  cases keywords with
  | nil => exact takes_callCollected argc none
  | cons name names =>
    refine .after fun _ => .after fun i => .after fun _ => ?_
    have loop := Takes.forM (name :: names).reverse (g := fun name : String => do
        loadRef i
        emit [.swap]
        pushStr name
        emit [.swap]
        invoke Library.dictPut
        drop 1) fun name => by
      refine .after fun _ => .after fun _ => .after fun _ => .after fun _ => ?_
      exact .after fun _ => takes_drop 1
    have both := loop.bind fun _ => takes_callCollected argc (some i)
    rw [List.length_reverse, Nat.sub_zero, Nat.zero_sub, Nat.zero_add, Nat.add_comm,
      Nat.add_right_comm] at both
    exact both

/-- The slots that a call leaves. -/
def called (k argc : Nat) (keywords : List String) : Nat := k - (argc + keywords.length + 1) + 1

theorem moves_genericCallAt (argc : Nat) (keywords : List String) :
    Moves c Γ (genericCall argc keywords) ⟨some k, k, b⟩
      ⟨some (called k argc keywords), called k argc keywords, b⟩ fun _ => [] := by
  refine .finding (q := fun k => ⟨some (called k argc keywords), called k argc keywords, b⟩)
    (takes_genericCall argc keywords).finds fun Γ d => ?_
  unfold called
  rw [Nat.add_sub_cancel, show d + (argc + keywords.length + 1) = d + 1 + argc + keywords.length by omega]
  exact moves_genericCall argc keywords

theorem moves_directCallAt {P : Prop} {s : Signature} (mem : .prop P ∈ Γ) (calls : P → c.Calls s)
    (bound : receiver = .bound → s.kind ≠ .static) :
    Moves c Γ (directCall s receiver argc keywords) ⟨some k, k, b⟩
      ⟨some (called k argc keywords), called k argc keywords, b⟩ fun _ => [] := by
  refine .demand (argc + keywords.length + 1)
    (moves_directCall (d := 0) (m := 0) (b := b) List.mem_cons_self False.elim bound)
    (fun _ _ _ => finds_directCall) fun le => ?_
  obtain ⟨d, rfl⟩ := Nat.exists_eq_add_of_le' le
  unfold called
  rw [Nat.add_sub_cancel, show d + (argc + keywords.length + 1) = d + 1 + (argc + keywords.length) by omega]
  exact moves_directCall mem calls bound

/-! ## Calls of values and of methods -/

theorem moves_callValue (argc : Int) (keywords : List String) :
    Moves c Γ (callValue argc keywords) ⟨some k, k, b⟩
      ⟨some (called k argc.toNat keywords), called k argc.toNat keywords, b⟩ fun _ => [] := by
  unfold callValue
  split
  · exact .fail _
  · refine .seq (moves_peekType _) fun callee => ?_
    refine moves_get.bind fun st => ?_
    cases found : st.registry.callable? callee with
    | none => exact (moves_genericCallAt _ _).weaken (by simp)
    | some x =>
      refine (moves_directCallAt (P := ∀ sig, st.registry.Knows sig → sig.Sound ∧ sig.method ∈ c.refs)
        (by simp) (fun known => known _ (Registry.knows_of_callable? found)) ?_).weaken (by simp)
      intro bound
      split at bound
      · rename_i both
        exact both.2
      · cases bound

/-- A method looked up when the code runs takes the place of the receiver. -/
theorem moves_callLooked (name : String) (argc n : Nat) (keywords : List String) (le : n + 1 ≤ k) :
    Moves c Γ (do
        let args ← spill n
        pushText name
        invoke Library.getAttributeOrError
        setTop .dynamic
        reload args
        genericCall argc keywords
        release args) ⟨some k, k, b⟩
      ⟨some (called k argc keywords), called k argc keywords, b⟩ fun _ => [] := by
  obtain ⟨d, rfl⟩ := Nat.exists_eq_add_of_le' le
  rw [show d + (n + 1) = d + 1 + n by omega]
  refine (moves_spill n).bind fun args => ?_
  refine .on (.seq (moves_reloadOf (P := args.length = n) (.of_mem (by simp [spilled])) (by simp [spilled]) id)
    fun _ => ?_)
  exact .seq (moves_genericCallAt argc keywords) fun _ => .leads

/-- The call when enough slots are there. -/
theorem moves_callMethod (name : String) (argc n : Nat) (keywords : List String) (le : n + 1 ≤ k) :
    Moves c Γ (do
      match ← lookup? (← peekType n) name with
      | some s =>
        directCall s (if s.kind = .static then .firstArgument else .object) argc keywords
      | none =>
        let args ← spill n
        pushText name
        invoke Library.getAttributeOrError
        setTop .dynamic
        reload args
        genericCall argc keywords
        release args) ⟨some k, k, b⟩
      ⟨some (called k argc keywords), called k argc keywords, b⟩ fun _ => [] := by
  refine .seq (moves_peekType _) fun t => ?_
  refine (moves_lookup? t name).bind fun o => ?_
  cases o with
  | some s =>
    refine (moves_directCallAt List.mem_cons_self (fun calls => calls s rfl) ?_).weaken (by simp)
    split <;> simp
  | none => exact (moves_callLooked name _ n keywords le).weaken (by simp)

theorem moves_callNamed (name : String) (argc : Int) (keywords : List String) :
    Moves c Γ (callNamed name argc keywords) ⟨some k, k, b⟩
      ⟨some (called k argc.toNat keywords), called k argc.toNat keywords, b⟩ fun _ => [] := by
  unfold callNamed
  split
  · exact .fail _
  · generalize argumentSlots argc keywords = slots
    dsimp only
    by_cases negative : slots < 0
    · intro s a s' _ run
      obtain ⟨t, s₁, typed, -⟩ := bind_eq_ok run
      obtain ⟨slot, s₂, peeked, -⟩ := bind_eq_ok typed
      exact absurd (nonneg_of_peek peeked) (by omega)
    · obtain ⟨n, rfl⟩ := Int.eq_ofNat_of_zero_le (Int.not_lt.mp negative)
      exact .demand (n + 1) (moves_callMethod (b := b) name _ n keywords le_rfl)
        (fun s a s' run _ => (takes_peek n).finds.first.first _ s a s' run)
        (moves_callMethod name _ n keywords)

theorem moves_callSpread (hasKeywords : Bool) :
    Moves c Γ (callSpread hasKeywords)
      ⟨some (d + if hasKeywords then 3 else 2), m + if hasKeywords then 3 else 2, b⟩
      ⟨some (d + 1), m + 1, b⟩ fun _ => [] := by
  have list {Γ : List Fact} {rest : Lowering Unit}
      (h : Moves c Γ rest ⟨some (d + 2), m + 2, b⟩ ⟨some (d + 1), m + 1, b⟩ fun _ => []) : Moves c Γ (do
        newCollection Library.listClass 0
        emit [.dupX1, .swap]
        invoke Library.listExtend
        drop 1
        pushType listType
        castUnder Library.functionClass
        rest) ⟨some (d + 2), m + 2, b⟩ ⟨some (d + 1), m + 1, b⟩ fun _ => [] := by
    exact .on h
  cases hasKeywords with
  | true =>
    simp only [if_true]
    exact .alloc fun i => .on (.pureBind (list .leads))
  | false => exact list .leads

end HostLowering.Lower
