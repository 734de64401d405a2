import HostLowering.Proofs.Lower.Shuffle

set_option autoImplicit false

/-! # Protocol methods, attributes and operators

The operations that call a method behind the scenes, directly or after looking it up. Both ways take
the same operands off the stack and leave one value.
-/

namespace HostLowering.Lower

set_option synthInstance.maxSize 1000000

open Machine Catalog Lowering

variable {c : Setting} {Γ : List Fact} {p q : Point} {d m n : Nat} {b : Bool} {P : Prop}
  {next : Lowering Unit}

/-! ## Direct calls -/

def Setting.Calls (c : Setting) (s : Signature) : Prop := s.Sound ∧ s.method ∈ c.refs

theorem moves_invokeSignature {s : Signature} (mem : .prop P ∈ Γ) (calls : P → c.Calls s)
    (taken : P → s.taken = n) :
    Moves c Γ (invokeSignature s) ⟨some (d + n), m, b⟩ ⟨some (d + 1), m, b⟩ fun _ => [] := by
  refine moves_invokeBy s.isInvoke_opcode fun v st inv facts => ?_
  have holds : P := facts _ mem
  obtain ⟨sound, named⟩ := calls holds
  exact ⟨named, sound.operandCount.trans (taken holds), by rw [sound.answers]; rfl⟩

/-- The method that a direct call of a function's code uses. -/
def directMethod? (f : Function) (r : Registry) (t : TypeRef) (name : String)
    (args : List TypeRef) : Option Signature :=
  if f.direct then
    (r.lookup? t name).filter fun s =>
      s.kind == .onReceiver && s.arity == args.length && r.accepts s (args.map some)
  else none

theorem lookup?_eq (f : Function) (s : State) (t : TypeRef) (name : String) :
    lookup? t name f s =
      (.ok (if f.direct then s.registry.lookup? t name else none), s) := by
  change (if f.direct then _ else _ : Lowering (Option Signature)) f s = _
  split <;> rfl

/-- Looking for a method to call directly reads the registry. -/
theorem direct?_eq (f : Function) (s : State) (t : TypeRef) (name : String) (args : List TypeRef) :
    direct? t name args f s = (.ok (directMethod? f s.registry t name args), s) := by
  have looked := lookup?_eq f s t name
  simp only [direct?, Bind.bind, ReaderT.bind, ExceptT.bind, ExceptT.mk, StateT.bind, looked,
    directMethod?]
  split
  · cases s.registry.lookup? t name with
    | none => rfl
    | some sig =>
      simp only [Option.filter_some]
      rfl
  · rfl

instance (s : Signature) : Leads c Γ (ownerClass s) p p := by
  unfold ownerClass
  split
  · infer_instance
  · exact ⟨.defect _⟩

instance (s : Signature) : Leads c Γ (firstParamClass s) p p := by
  unfold firstParamClass
  split
  · infer_instance
  · exact ⟨.defect _⟩

theorem moves_lookup? (t : TypeRef) (name : String) :
    Moves c Γ (lookup? t name) ⟨some d, m, b⟩ ⟨some d, m, b⟩ fun o =>
      [.prop (∀ s, o = some s → c.Calls s)] := by
  unfold lookup?
  refine .read ?_
  split
  · refine moves_get.bind fun st => .ret fun v s facts φ mem => ?_
    rw [List.mem_singleton] at mem
    subst mem
    have known := facts (.prop (∀ sig, st.registry.Knows sig → sig.Sound ∧ sig.method ∈ c.refs)) (by simp)
    exact fun s found => known s (Registry.knows_of_lookup? found)
  · refine .ret fun v s facts φ mem => ?_
    rw [List.mem_singleton] at mem
    subst mem
    simp [Fact.Holds]

/-- A method found for given operands takes its receiver and these. -/
theorem moves_direct? (t : TypeRef) (name : String) (args : List TypeRef) :
    Moves c Γ (direct? t name args) ⟨some d, m, b⟩ ⟨some d, m, b⟩ fun o =>
      [.prop (∀ s, o = some s → c.Calls s ∧ s.taken = args.length + 1)] := by
  refine (moves_lookup? t name).bind fun o => ?_
  cases o with
  | none =>
    refine .ret fun v s facts φ mem => ?_
    rw [List.mem_singleton] at mem
    subst mem
    simp [Fact.Holds]
  | some s =>
    refine .seq (.reads fun _ => rfl) fun st => .ret fun v s' facts φ mem => ?_
    rw [List.mem_singleton] at mem
    subst mem
    have calls := facts (.prop (∀ s', some s = some s' → c.Calls s')) (by simp)
    intro s'' found
    split at found
    · rename_i fits
      cases found
      simp only [Bool.and_eq_true, beq_iff_eq] at fits
      refine ⟨calls s rfl, ?_⟩
      rw [Signature.taken, fits.1.1, fits.1.2]
      rfl
    · cases found

instance (method : String) : Shifts (unary method) 1 1 1 1 := by
  refine ⟨.seq .leads fun t => (moves_direct? t method []).bind fun o => ?_⟩
  cases o with
  | some s =>
    refine .seq .leads fun cls => .on ?_
    exact .seq (moves_invokeSignature (n := 1) List.mem_cons_self (fun h => (h s rfl).1)
      fun h => (h s rfl).2) fun _ => .leads
  | none => exact .leads

/-! ## Lookup when the code runs -/

instance {cls : String} (t : TypeRef) (n : Nat)
    [Shifts (invokeSpecial (Library.collectionInit cls)) 2 0 0 0]
    [Shifts (invoke (Library.reverseAdd cls)) 2 0 0 0] :
    Shifts (collect cls t n) n 1 n 1 := by
  unfold collect
  refine ⟨@fun c Γ d m b => .on ?_⟩
  refine moves_times (fun i => ⟨some (d + i + 1), m + i + 1, b⟩) n fun i => .on ?_
  refine moves_stack.bind fun st => ?_
  split
  · rename_i x y rest
    refine (moves_setStack _).post (P := (x :: y :: rest).length = m + (i + 1) + 1) (by simp)
      fun length => ?_
    rw [List.length_cons, List.length_cons] at length
    exact Point.ext_nat rfl (by rw [List.length_cons]; omega)
  · exact .defect _

theorem moves_callFound (n : Nat) :
    Moves c Γ (callFound n) ⟨some (d + n + 1), m + n + 1, b⟩ ⟨some (d + 1), m + 1, b⟩
      fun _ => [] := by
  unfold callFound
  refine .on (.seq (moves_bury n) fun _ => ?_)
  rw [Nat.add_right_comm d, Nat.add_right_comm m]
  exact .leads

instance (method : String) (n : Nat) : Leads c Γ (callMethod method (n + 1))
    ⟨some (d + n + 1), m + n + 1, b⟩ ⟨some (d + 1), m + 1, b⟩ := by
  unfold callMethod
  rw [show ((n + 1 : Nat) : Int) - 1 = n by push_cast; ring]
  exact ⟨.seq (moves_duplicate n) fun _ => .on (moves_callFound (n + 1))⟩

instance (method : String) (n : Nat) : Leads c Γ (callProtocol method (n + 1))
    ⟨some (d + n + 1), m + n + 1, b⟩ ⟨some (d + 1), m + 1, b⟩ := by
  unfold callProtocol
  rw [show ((n + 1 : Nat) : Int) - 1 = n by push_cast; ring]
  refine ⟨.seq (moves_duplicate n) fun _ => .label (d + n + 3) fun found => ?_⟩
  exact .on (moves_callFound (n + 1))

/-! ## Truth -/

instance : Shifts Lowering.toBool 1 1 1 1 := by
  unfold Lowering.toBool
  exact ⟨.leads⟩

instance (different : Bool) : Shifts (compareIdentity different) 2 1 0 0 :=
  ⟨@fun _ _ d _ _ => .label d fun _ => .label (d + 1) fun _ => .leads⟩

instance : Shifts negate 1 1 1 1 := by
  unfold negate
  exact ⟨.leads⟩

/-! ## Attributes -/

instance (name : String) : Leads c Γ (field? name) p p := by
  refine ⟨.seq .leads fun t => ?_⟩
  split
  · exact .leads
  · exact .seq (.reads fun _ => rfl) fun _ => .leads

instance (name : String) : Leads c Γ (raiseMissing name) ⟨some (d + 1), m, b⟩ ⟨none, m, b⟩ := by
  unfold raiseMissing
  infer_instance

theorem moves_pushCallable {x : Callable} (mem : .prop P ∈ Γ) (calls : P → c.Calls x.signature) :
    Moves c Γ (do
        let (t, registry) := (← get).registry.addCallable x
        modify fun st => { st with registry }
        pushType t) ⟨some d, m, b⟩ ⟨some d, m + 1, b⟩ fun _ => [] := by
  refine .step fun s _ s' run fine => ?_
  replace run := rest_of_ok run rfl
  have pushed := rest_of_ok run rfl
  cases pushed
  refine ⟨fine, fun v inv here facts => ⟨v, ?_, ?_, ⟨here.ends, ?_, here.live⟩, by simp⟩⟩
  · refine { inv with registry := fun sig known => ?_ }
    rcases known with ⟨name, t, found⟩ | ⟨y, old, rfl⟩
    · cases t with
      | named n => exact inv.registry sig (.inl ⟨name, .named n, found⟩)
      | callable i => simp [Registry.declared?_callable] at found
    · rcases Array.mem_push.mp old with older | rfl
      · exact inv.registry _ (.inr ⟨y, older, rfl⟩)
      · exact calls (facts _ mem)
  · exact .of_eq rfl rfl rfl rfl rfl rfl le_rfl
  · exact congrArg (· + 1) here.slots

instance (name : String) : Shifts (loadAttribute name) 1 1 1 1 := by
  refine ⟨@fun c Γ d m b => .seq .leads fun found => ?_⟩
  cases found with
  | some f => exact .label (d + 2) fun missing => .label (d + 1) fun done => .leads
  | none =>
    refine .seq .leads fun receiver => .on ?_
    refine (moves_lookup? receiver name).bind fun o => ?_
    cases o with
    | none => exact .leads
    | some s =>
      dsimp only
      split
      · exact .leads
      · exact moves_pushCallable List.mem_cons_self fun h => h s rfl

instance (name : String) : Shifts (storeAttribute name) 2 0 2 0 := by
  refine ⟨.seq .leads fun found => ?_⟩
  cases found with
  | some f => exact .leads
  | none => exact .leads

instance (name : String) : Shifts (deleteAttribute name) 1 0 1 0 := by
  refine ⟨@fun c Γ d m b => .seq .leads fun found => ?_⟩
  cases found with
  | some f => exact .label (d + 1) fun missing => .label d fun done => .leads
  | none => exact .leads

/-! ## Binary operators -/

/-- A way to end an operator: the operands are taken and the result is left, in any context. -/
def Settles {α : Type} (c : Setting) (x : Lowering α) : Prop :=
  ∀ (Γ : List Fact) (d m : Nat) (b : Bool),
    Moves c Γ x ⟨some (d + 2), m, b⟩ ⟨some (d + 1), m, b⟩ fun _ => []

theorem settles_exhausted (op : Operator) (symbol : String) :
    Settles c (exhausted op symbol) := by
  intro Γ d m b
  unfold exhausted
  split
  · exact .leads
  · exact .revive .leads

instance {declined done : Label} [Among (.deep declined (d + 3)) Γ] [Among (.deep done (d + 1)) Γ] :
    Leads c Γ (orElse declined done) ⟨some (d + 3), m, b⟩ ⟨none, m, b⟩ := by
  unfold orElse
  infer_instance

theorem settles_genericCandidate {prepare : List Opcode} (method : String)
    (copies : passes prepare 2 = some 4) (h : Settles c next) :
    Settles c (genericCandidate prepare method next) := by
  intro Γ d m b
  refine .label (d + 5) fun missing => .label (d + 3) fun declined => .label (d + 1) fun done => ?_
  refine .seq (moves_emit 2 4 copies) fun _ => .on ?_
  exact .seq (h _ d m b) fun _ => .leads

theorem settles_discard {α : Type} {x : Lowering α} (h : Settles c x) : Settles c (discard x) :=
  fun Γ d m b => (h Γ d m b).discard

theorem settles_genericRight (op : Operator) (symbol : String) :
    Settles c (genericRight op symbol) := by
  unfold genericRight
  split
  · exact settles_exhausted op symbol
  · exact settles_genericCandidate _ rfl (settles_discard (settles_exhausted op symbol))

theorem settles_genericBinary (op : Operator) (symbol : String) :
    Settles c (genericBinary op symbol) := by
  unfold genericBinary
  refine settles_genericCandidate _ rfl (settles_discard ?_)
  split
  · exact settles_genericCandidate _ rfl (settles_discard (settles_genericRight _ symbol))
  · exact settles_genericRight op symbol

/-- How an operator goes on after the answer of a candidate that may decline: the answer stands above
the operands. -/
theorem moves_ifDeclined (h : Settles c next) (t : Option TypeRef) :
    Moves c Γ (do
        let declined ← newLabel
        let done ← newLabel
        orElse declined done
        mark declined
        emit [.pop]
        next
        mark done
        return t) ⟨some (d + 3), m, b⟩ ⟨some (d + 1), m, b⟩ fun _ => [] := by
  refine .label (d + 3) fun declined => .label (d + 1) fun done => .on ?_
  exact .seq (h _ d m b) fun _ => .leads

theorem moves_directCandidate {s : Signature} (onRight : Bool) (mem : .prop P ∈ Γ)
    (calls : P → c.Calls s) (taken : P → s.taken = 2) (h : Settles c next) :
    Moves c Γ (directCandidate s onRight next) ⟨some (d + 2), m, b⟩ ⟨some (d + 1), m, b⟩
      fun _ => [] := by
  refine .seq .leads fun receiver => .seq .leads fun argument => .on ?_
  have invoke {d : Nat} := moves_invokeSignature (d := d) (m := m) (b := b) mem calls taken
  -- the operands are copied for a candidate that may decline, and exchanged for one on the right
  cases declines : s.mayNotImplement with
  | true =>
    simp only [if_true]
    refine .on ?_
    cases onRight with
    | true =>
      simp only [if_true]
      exact .on (.seq invoke fun _ => moves_ifDeclined h _)
    | false =>
      simp only [Bool.false_eq_true, if_false]
      exact .seq invoke fun _ => moves_ifDeclined h _
  | false =>
    simp only [Bool.false_eq_true, if_false]
    cases onRight with
    | true =>
      simp only [if_true]
      exact .on (.seq invoke fun _ => .pure _)
    | false =>
      simp only [Bool.false_eq_true, if_false]
      exact .seq invoke fun _ => .pure _

/-- A candidate found by its operands, or another way. -/
theorem moves_directOr {α : Type} {k : Option Signature → Lowering α} {t : TypeRef} {name : String}
    {args : List TypeRef} (one : args.length = 1)
    (found : ∀ s Γ P, .prop P ∈ Γ → (P → c.Calls s) → (P → s.taken = 2) →
      Moves c Γ (k (some s)) ⟨some (d + 2), m, b⟩ q fun _ => [])
    (none_ : ∀ Γ, Moves c Γ (k none) ⟨some (d + 2), m, b⟩ q fun _ => []) :
    Moves c Γ (direct? t name args >>= k) ⟨some (d + 2), m, b⟩ q fun _ => [] := by
  refine (moves_direct? t name args).bind fun o => ?_
  cases o with
  | none => exact none_ _
  | some s =>
    refine found s _ _ List.mem_cons_self (fun h => (h s rfl).1) fun h => ?_
    rw [(h s rfl).2, one]

theorem settles_rightSide (op plain generic : Operator) (symbol : String) (leftDeclined : Bool) :
    Settles c (rightSide op plain generic symbol leftDeclined) := by
  intro Γ d m b
  refine .seq .leads fun left => .seq .leads fun right => ?_
  have undecided (Γ : List Fact) : Moves c Γ
      (if leftDeclined = true then genericRight plain symbol
        else genericBinary generic symbol)
      ⟨some (d + 2), m, b⟩ ⟨some (d + 1), m, b⟩ fun _ => [] := by
    split
    · exact settles_genericRight plain symbol Γ d m b
    · exact settles_genericBinary generic symbol Γ d m b
  cases plain.reflected? with
  | none => exact .pureBind (undecided Γ)
  | some method =>
    refine moves_directOr rfl (fun s Γ P mem calls taken => ?_) undecided
    exact moves_directCandidate true mem calls taken (settles_discard (settles_exhausted op symbol))

theorem settles_fallbackSide (op plain : Operator) (symbol : String) :
    Settles c (fallbackSide op plain symbol) := by
  intro Γ d m b
  refine .seq .leads fun left => .seq .leads fun right => ?_
  refine moves_directOr rfl (fun s Γ P mem calls taken => ?_) fun Γ => ?_
  · exact moves_directCandidate false mem calls taken (settles_discard (settles_rightSide _ _ _ _ _))
  · dsimp only
    split
    · exact settles_rightSide _ _ _ symbol _ Γ d m b
    · exact settles_genericBinary plain symbol Γ d m b

theorem settles_leftSide (op : Operator) (symbol : String) :
    Settles c (leftSide op symbol) := by
  intro Γ d m b
  refine .seq .leads fun left => .seq .leads fun right => ?_
  refine moves_directOr rfl (fun s Γ P mem calls taken => ?_) fun Γ => ?_
  · cases op.fallback? with
    | some plain =>
      exact moves_directCandidate false mem calls taken (settles_discard (settles_fallbackSide _ _ _))
    | none =>
      cases op.reflected? with
      | some method =>
        exact moves_directCandidate false mem calls taken (settles_discard (settles_rightSide _ _ _ _ _))
      | none =>
        exact moves_directCandidate false mem calls taken (settles_discard (settles_exhausted _ _))
  · dsimp only
    split
    · exact settles_genericBinary op symbol Γ d m b
    · split
      · exact settles_fallbackSide _ _ symbol Γ d m b
      · exact settles_rightSide _ _ _ symbol _ Γ d m b
      · exact settles_genericBinary op symbol Γ d m b

instance (method : String) : Shifts (orderOperands method) 2 2 0 0 :=
  ⟨@fun _ _ d _ _ => .label (d + 2) fun _ => .leads⟩

instance (op : Operator) : Shifts (binary op) 2 1 2 1 := by
  refine ⟨@fun c Γ d m b => .seq .leads fun left => .seq (.reads fun _ => rfl) fun st => ?_⟩
  dsimp only
  split
  · exact .on (.seq (settles_genericBinary op _ Γ d _ b) fun _ => .leads)
  · exact .seq (settles_leftSide op _ Γ d _ b) fun _ => .leads

instance (negated : Bool) : Shifts (contains negated) 2 1 2 1 := by
  unfold contains
  refine ⟨@fun c Γ d m b => .on (.seq .leads fun left => .seq .leads fun right => ?_)⟩
  refine moves_directOr rfl (fun s Γ P mem calls taken => ?_) fun Γ => .leads
  refine .seq .leads fun receiver => .on (.seq .leads fun argument => .on ?_)
  exact .seq (moves_invokeSignature (n := 2) mem calls taken) fun _ => .leads

end HostLowering.Lower
