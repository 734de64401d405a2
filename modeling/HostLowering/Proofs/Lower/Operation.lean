import HostLowering.Proofs.Lower.Generator

set_option autoImplicit false

/-! # Operations

Between operations the host stack holds just the slots of the snapshot, unless the source does not
go on there; then control does not get to the end of the code. Every operation that is not refused
leads from such a `boundary` to another one (`crosses_body`).
-/

namespace HostLowering.Lower

set_option synthInstance.maxSize 1000000

open Machine Catalog Lowering

variable {c : Setting} {Γ : List Fact} {p q : Point} {v : View} {s s' : State} {k : Nat} {n e : Nat}
  {f : Function}

/-- A point between operations. -/
def boundary (e : Nat) (live : Bool) : Point := ⟨if live then some e else none, e, live⟩

/-- A step leads from a boundary to another one. -/
def Crosses (c : Setting) (Γ : List Fact) (k : Nat) (x : Lowering Unit) : Prop :=
  ∃ e live, Moves c Γ x (boundary k true) (boundary e live) fun _ => []

namespace Crosses

variable {x : Lowering Unit}

/-- A step that takes some slots and leaves others. -/
theorem through (enough : (n : Int) ≤ k)
    (h : ∀ d, Moves c Γ x ⟨some (d + n), d + n, true⟩ ⟨some (d + e), d + e, true⟩ fun _ => []) :
    Crosses c Γ k x := by
  obtain ⟨d, rfl⟩ := Nat.exists_eq_add_of_le' (Int.ofNat_le.mp enough)
  exact ⟨d + e, true, h d⟩

/-- A step that takes some slots and leaves others, and does the same with values. -/
theorem shifts (x : Lowering Unit) [h : Shifts x n e n e] (enough : (n : Int) ≤ k) :
    Crosses c Γ k x :=
  through enough fun _ => h.moves

/-- A step that takes some slots, and behind which the source does not go on. -/
theorem away (enough : (n : Int) ≤ k)
    (h : ∀ d, Moves c Γ x ⟨some (d + n), d + n, true⟩ ⟨none, d, false⟩ fun _ => []) :
    Crosses c Γ k x := by
  obtain ⟨d, rfl⟩ := Nat.exists_eq_add_of_le' (Int.ofNat_le.mp enough)
  exact ⟨d, false, h d⟩

/-- A step that finds out itself whether there are enough slots. -/
theorem at_ (h : Moves c Γ x ⟨some k, k, true⟩ ⟨some e, e, true⟩ fun _ => []) : Crosses c Γ k x :=
  ⟨e, true, h⟩

theorem fail (e : Cause) : Crosses c Γ k (fail e) := at_ (e := k) (.fail e)

end Crosses

theorem wrap64_of_small (small : n < 2 ^ 63) : wrap64 n = n := by
  unfold wrap64
  rw [Int.bmod_eq_of_le] <;> omega

/-- A shuffle at a depth. Small depths are covered by the operands needed. -/
theorem crosses_atDepth {step : Int → Lowering Unit} {depth : Int} (enough : wrap64 (depth + 1) ≤ k)
    (h : ∀ n : Nat, (n ≤ 2 → n + 1 ≤ k) → Crosses c Γ k (step n)) :
    Crosses c Γ k (atDepth depth step) := by
  unfold atDepth
  split
  · exact .fail _
  · rename_i nonneg
    obtain ⟨n, rfl⟩ := Int.eq_ofNat_of_zero_le (Int.not_lt.mp nonneg)
    refine h n fun few => ?_
    have exact_ := wrap64_of_small (n := n + 1) (by omega)
    push_cast at exact_
    omega

theorem crosses_body (op : Operation) (enough : op.needed c.function.dialect ≤ k)
    (opens : ∀ r, op = .openRegion r → r.stop ∈ c.early) : Crosses c Γ k op.body := by
  cases op with
  | swap => exact .shifts swap enough
  | rotate3 => exact .shifts rotate3 enough
  | rotate4 => exact .shifts rotate4 enough
  | duplicate depth => exact crosses_atDepth enough fun n _ => .at_ (moves_duplicateAt n)
  | bury depth => exact crosses_atDepth enough fun n small => .at_ (moves_buryAt n small)
  | exchange depth =>
    exact crosses_atDepth enough fun n small => .at_ (moves_exchangeAt n fun few => small (by omega))
  | pop => exact .shifts discardTop enough
  | loadLocal i => exact .through (n := 0) enough fun _ => moves_loadLocal i
  | storeLocal i => exact .through (n := 1) (e := 0) enough fun _ => moves_storeLocal i
  | clearLocal i => exact .through (n := 0) (e := 0) enough fun _ => moves_clearLocal i
  | loadConst x => exact .shifts (loadLiteral x) enough
  | unary code =>
    rw [Operation.body]
    split
    · exact .shifts (unary _) enough
    · exact .fail _
  | binary code =>
    rw [Operation.body]
    split
    · exact .shifts (binary _) enough
    · exact .fail _
  | ternary method =>
    exact .through (n := 3) enough fun _ => Moves.leads (x := callProtocol method 3)
  | identity negated =>
    exact .through (n := 2) (e := 1) enough fun _ => .seq .leads fun _ => .leads
  | contains negated => exact .shifts (contains negated) enough
  | not => exact .through (n := 1) (e := 1) enough fun _ => .seq .leads fun _ => .leads
  | call argc keywords => exact .at_ (moves_callValue argc keywords)
  | callMethod name argc keywords => exact .at_ (moves_callNamed name argc keywords)
  | callSpread hasKeywords =>
    refine .through (n := if hasKeywords then 3 else 2) ?_ fun _ => moves_callSpread hasKeywords
    simp only [Operation.needed] at enough
    split at enough <;> simp_all
  | build collection count =>
    exact .through (n := count.toNat) (by simp only [Operation.needed] at enough; omega)
      fun _ => moves_build collection
  | buildMap count =>
    exact .through (n := (wrap64 (2 * count)).toNat) (by simp only [Operation.needed] at enough; omega)
      fun _ => moves_buildMap count
  | unpack count => exact .through (n := 1) enough fun _ => moves_unpack count
  | unpackWithTail before after =>
    refine .through (n := 1) (e := after.toNat + 1 + before.toNat) enough fun d => ?_
    have unpacks := moves_unpackWithTail (c := c) (Γ := Γ) (d := d) (m := d) (b := true) before after
    rwa [Nat.add_assoc d, Nat.add_assoc d] at unpacks
  | getSlice => exact .shifts getSlice enough
  | storeSlice => exact .shifts storeSlice enough
  | storeItem => exact .shifts storeItem enough
  | deleteItem => exact .shifts deleteItem enough
  | loadAttribute name => exact .shifts (loadAttribute name) enough
  | storeAttribute name => exact .shifts (storeAttribute name) enough
  | deleteAttribute name => exact .shifts (deleteAttribute name) enough
  | jump target => exact .away (n := 0) enough fun _ => moves_jump target
  | popJumpIf value target =>
    exact .through (n := 1) (e := 0) enough fun _ => Moves.leads (x := popJumpIf value target)
  | jumpIfOrPop value target =>
    exact .through (n := 1) (e := 0) enough fun _ => moves_jumpIfOrPop value target
  | popJumpIfNone isNone target =>
    exact .through (n := 1) (e := 0) enough fun _ => moves_popJumpIfNone isNone target
  | getIter => exact .shifts (unary _) enough
  | forIter target => exact .through (n := 1) enough fun _ => moves_forIter target
  | returnValue => exact .away (n := 1) enough fun _ => moves_returnValue
  | openRegion region => exact .at_ (moves_openRegion (opens region rfl) enough)
  | startBlock => exact .through (e := 0) enough fun _ => moves_startBlock
  | pushPrevious => exact .shifts pushPrevious enough
  | popException => exact .shifts popException enough
  | checkMatch => exact .shifts checkMatch enough
  | jumpUnlessMatch target =>
    exact .through (n := 2) (e := 0) enough fun _ => moves_jumpUnlessMatch target
  | raise argc =>
    exact .away (n := argc.toNat) (by simp only [Operation.needed] at enough; omega) fun _ => moves_raise argc
  | reraise => exact .away (n := 1) enough fun _ => moves_reraise
  | enterContext => exact .shifts enterContext enough
  | exitNormally => exact .through (n := 1) (e := 0) enough fun _ => moves_exitNormally
  | exitWithException => exact .at_ moves_exitWithException
  | generatorStart => exact .shifts discardTop enough
  | yield => exact .through (n := 1) enough fun _ => moves_yield
  | yieldFrom => exact .through (n := 2) enough fun _ => moves_yieldFrom
  | send target => exact .through (n := 2) enough fun _ => moves_send target
  | getDelegate => exact .shifts (unary _) enough
  | endGenerator => exact .away (n := 1) enough fun _ => moves_endGenerator

/-! ## Between operations -/

/-- A state between operations. -/
def Rests (c : Setting) (Γ : List Fact) (s : State) : Prop :=
  Known c Γ (boundary s.stack.length s.reachable) s

theorem Known.rests {live : Bool} (h : Known c Γ (boundary e live) s) : Rests c Γ s := by
  obtain ⟨v, inv, here, facts⟩ := h
  refine ⟨v, inv, ?_, facts⟩
  rw [show s.stack.length = e from here.slots, show s.reachable = live from here.live]
  exact here

theorem Rests.known {live : Bool} (h : Rests c Γ s) (reachable : s.reachable = live) :
    Known c Γ (boundary s.stack.length live) s := by
  rw [← reachable]
  exact h

theorem Rests.quiet (h : Rests c Γ s) (quiet : Quiet s s') (stack : s'.stack = s.stack)
    (reachable : s'.reachable = s.reachable) : Rests c Γ s' := by
  obtain ⟨v, inv, here, facts⟩ := h
  unfold Rests
  rw [stack, reachable]
  refine ⟨v, inv.quiet quiet, ⟨here.ends, ?_, ?_⟩, fun φ mem => (facts φ mem).mono quiet.grows⟩
  · rw [stack]
    exact here.slots
  · rw [reachable]
    exact here.live

/-- An operation begins where the source goes on and its operands are there, or it is refused. -/
theorem begin_eq_ok {name : String} {needed : Int} {began : Bool}
    (h : begin name needed f s = (.ok began, s')) :
    began = true ∧ s' = { s with operation := name } ∧ s.reachable = true ∧ needed ≤ s.stack.length ∨
      began = false ∧ s'.failure ≠ none := by
  replace h := rest_of_ok h rfl
  split at h
  · rename_i failed
    cases h
    exact .inr ⟨rfl, by simpa [Option.isSome_iff_ne_none] using failed⟩
  · replace h := rest_of_ok h rfl
    replace h := rest_of_ok h rfl
    split at h
    · exact .inr ⟨by cases h; rfl, failed_of_failWith h⟩
    · rename_i reachable
      split at h
      · replace h := rest_of_ok h rfl
        exact .inr ⟨by cases h; rfl, failed_of_failWith h⟩
      · rename_i enough
        cases h
        exact .inl ⟨rfl, rfl, by simpa using reachable, Int.not_lt.mp enough⟩

theorem finishOperation_eq_ok (h : finishOperation f s = (.ok (), s')) : s' = s := by
  replace h := rest_of_ok h rfl
  split at h
  · cases h
  · cases h
    rfl

/-- After a defect an operation is closed and ends with a defect. -/
theorem body_of_tryCatch {body : Lowering Unit} {close : Lowering Unit}
    (h : (tryCatch body fun d => do
      close
      throw d) f s = (.ok (), s')) : body f s = (.ok (), s') := by
  change ExceptT.tryCatch (body f) (fun d => (do close; throw d : Lowering Unit) f) s = _ at h
  cases run : body f s with
  | mk r s₁ =>
    simp only [ExceptT.tryCatch, ExceptT.mk, Bind.bind, StateT.bind, run] at h
    cases r with
    | ok a =>
      cases h
      rfl
    | error d =>
      obtain ⟨_, s₂, -, thrown⟩ := bind_eq_ok h
      cases thrown

/-- The body of an operation that is done runs where the source goes on with enough operands. -/
theorem operation_eq_ok {name : String} {needed : Int} {body : Lowering Unit}
    (run : operation name needed body f s = (.ok (), s')) (fine : s'.failure = none) :
    s.reachable = true ∧ needed ≤ s.stack.length ∧
      body f { s with operation := name } = (.ok (), s') := by
  obtain ⟨began, s₁, begins, run⟩ := bind_eq_ok run
  rcases begin_eq_ok begins with ⟨rfl, rfl, reachable, enough⟩ | ⟨rfl, refused⟩
  · obtain ⟨_, s₂, tried, run⟩ := bind_eq_ok run
    obtain rfl := finishOperation_eq_ok run
    exact ⟨reachable, enough, body_of_tryCatch tried⟩
  · cases run
    exact absurd fine refused

/-- An operation that is performed without a failure leads from rest to rest. -/
theorem rests_operation {name : String} {needed : Int} {body : Lowering Unit}
    (crosses : ∀ k : Nat, needed ≤ k → Crosses c Γ k body)
    (rests : s.Fine → Rests c Γ s) (run : operation name needed body c.function s = (.ok (), s'))
    (fine : s'.Fine) : Rests c Γ s' := by
  obtain ⟨reachable, enough, ran⟩ := operation_eq_ok run fine.1
  obtain ⟨e, live, moves⟩ := crosses s.stack.length enough
  refine (moves _ _ s' (fun start => ?_) ran fine).rests
  exact ((rests start).quiet (.update s _ _ name _ _) rfl rfl).known reachable

end HostLowering.Lower
