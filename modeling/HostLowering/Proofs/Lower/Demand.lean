import HostLowering.Proofs.Lower.Shuffle

set_option autoImplicit false

/-! # The slots that a run has found

The operands of an operation are counted in 64 bits before it begins, which says nothing for counts
that do not fit. What an operation needs is then known from its run: a step that looks for a slot
that is not there ends with a defect. `Takes x n j` says that a run of `x` has found `n` slots and
left `j` in their place; it does not speak of the host stack, so it holds in every state. With
`Moves.demand` a step for which enough slots are assumed becomes one that assumes nothing.
-/

namespace HostLowering.Lower

open Machine Catalog Lowering

variable {α β : Type} {c : Setting} {Γ : List Fact} {x : Lowering α} {n j k : Nat} {b : Bool}
  {s s' s'' : State} {f : Function} {p q : Point}

/-! ## Steps that leave the snapshot as it is -/

/-- Nothing has changed that a jump looks at, except perhaps the snapshot. -/
structure Still (s s' : State) : Prop where
  registry : s'.registry = s.registry
  expected : s'.expected = s.expected
  handlers : s'.handlers = s.handlers
  offset : s'.offset = s.offset
  failure : s'.failure = none → s.failure = none

theorem Still.refl (s : State) : Still s s := ⟨rfl, rfl, rfl, rfl, id⟩

theorem Still.trans (h : Still s s') (h' : Still s' s'') : Still s s'' where
  registry := h'.registry.trans h.registry
  expected := h'.expected.trans h.expected
  handlers := h'.handlers.trans h.handlers
  offset := h'.offset.trans h.offset
  failure fine := h.failure (h'.failure fine)

/-- A step leaves the snapshot as it is as well. -/
class Mute (x : Lowering α) : Prop where
  run : ∀ f s a s', x f s = (.ok a, s') → Still s s' ∧ s'.stack = s.stack

namespace Mute

theorem bind {k : α → Lowering β} (h : Mute x) (h' : ∀ a, Mute (k a)) : Mute (x >>= k) := by
  constructor
  intro f s b s' run
  obtain ⟨a, s₁, first, second⟩ := bind_eq_ok run
  obtain ⟨still, same⟩ := h.run f s a s₁ first
  obtain ⟨still', same'⟩ := (h' a).run f s₁ b s' second
  exact ⟨still.trans still', same'.trans same⟩

instance {k : α → Lowering β} [h : Mute x] [h' : ∀ a, Mute (k a)] : Mute (x >>= k) := h.bind h'

theorem reads (h : ∀ f s, (x f s).2 = s) : Mute x := by
  constructor
  intro f s a s' run
  obtain rfl : s = s' := by rw [← h f s, run]
  exact ⟨.refl s, rfl⟩

instance pure (a : α) : Mute (Pure.pure a : Lowering α) := .reads fun _ _ => rfl

instance : Mute (get : Lowering State) := .reads fun _ _ => rfl

instance : Mute (read : Lowering Function) := .reads fun _ _ => rfl

instance (d : Defect) : Mute (Lowering.defect d : Lowering α) := .reads fun _ _ => rfl

instance {p : Prop} [Decidable p] {y : Lowering α} [Mute x] [Mute y] : Mute (if p then x else y) := by
  split <;> infer_instance

instance assemble (step : Asm α) : Mute (assemble step) := by
  constructor
  intro f s a s' run
  obtain ⟨asm, -, rfl⟩ := assemble_eq_ok run
  exact ⟨⟨rfl, rfl, rfl, rfl, id⟩, rfl⟩

instance {g : β → Lowering Unit} (xs : List β) [∀ y, Mute (g y)] : Mute (xs.forM g) := by
  induction xs with
  | nil => exact .pure ()
  | cons y xs ih => exact .bind inferInstance fun _ => ih

instance {x : Lowering Unit} (n : Nat) [Mute x] : Mute (times n x) := by
  induction n with
  | zero => exact .pure ()
  | succ n ih => exact .bind inferInstance fun _ => ih

end Mute

instance : Mute stack := .reads fun _ _ => rfl

instance (slot : Slot) : Mute (slotKind slot) := .reads fun _ _ => rfl

instance (t : Option TypeRef) : Mute (hostClassOf t) := .reads fun _ _ => rfl

instance (d : Int) : Mute (peek d) :=
  .bind inferInstance fun _ => by split <;> infer_instance

instance (d : Int) : Mute (peekType d) := .bind inferInstance inferInstance

instance (t : TypeRef) (name : String) : Mute (lookup? t name) := by
  unfold lookup?
  infer_instance

instance (k : Kind) : Mute (alloc k) := by
  constructor
  intro f s a s' run
  cases run
  exact ⟨⟨rfl, rfl, rfl, rfl, id⟩, rfl⟩

instance : Mute allocRef := inferInstanceAs (Mute (alloc .ref))

instance (i : Int) : Mute (free i) := by
  constructor
  intro f s a s' run
  replace run := rest_of_ok run rfl
  cases freed : s.pool.free i with
  | error e =>
    simp only [freed] at run
    cases run
  | ok pool =>
    simp only [freed] at run
    cases run
    exact ⟨⟨rfl, rfl, rfl, rfl, id⟩, rfl⟩

instance (m : MethodRef) : Mute (invoke m) := .assemble _

instance (op : Opcode) (name : String) : Mute (emitClass op name) := .assemble _

instance (text : String) : Mute (pushText text) := .assemble _

instance : Mute newLabel := .assemble _

instance (l : Label) : Mute (mark l) := .assemble _

instance (op : Opcode) (l : Label) : Mute (branch op l) := .assemble _

instance (ops : List Opcode) : Mute (emit ops) := by
  unfold emit
  infer_instance

instance (name : String) : Mute (Lowering.cast name) := by
  unfold Lowering.cast
  infer_instance

instance (name : String) : Mute (castUnder name) := by
  unfold castUnder
  infer_instance

instance (i : Int) (k : Kind) : Mute (load i k) := .assemble _

instance (i : Int) (k : Kind) : Mute (store i k) := .assemble _

instance (i : Int) : Mute (loadRef i) := inferInstanceAs (Mute (load i .ref))

instance (i : Int) : Mute (storeRef i) := inferInstanceAs (Mute (store i .ref))

instance (text : String) : Mute (pushStr text) := .bind (.assemble _) fun _ => .assemble _

instance (cls : String) (n : Int) : Mute (newCollection cls n) :=
  .bind (.assemble _) fun _ => .bind inferInstance fun _ => .bind (.assemble _) fun _ => .assemble _

instance (cls : String) : Mute (reverseAdd cls) := .bind inferInstance inferInstance

instance : Mute callerInstance := .bind inferInstance inferInstance

instance (t : Temp) : Mute (loadTemp t) := .bind inferInstance inferInstance

instance (ts : List Temp) : Mute (release ts) := by
  unfold release
  infer_instance

/-! ## Steps that take slots -/

/-- A run of a step has found some slots and left others in their place. -/
def Takes (x : Lowering α) (n j : Nat) : Prop :=
  ∀ f s a s', x f s = (.ok a, s') → ∃ m, s.stack.length = m + n ∧ s'.stack.length = m + j

theorem Mute.takes (h : Mute x) : Takes x 0 0 :=
  fun f s a s' run => ⟨s.stack.length, rfl, by rw [(h.run f s a s' run).2]; rfl⟩

namespace Takes

/-- What the second step finds beside what the first has left was there before. -/
theorem bind {g : α → Lowering β} {n' j' : Nat} (h : Takes x n j) (h' : ∀ a, Takes (g a) n' j') :
    Takes (x >>= g) (n + (n' - j)) (j - n' + j') := by
  intro f s b s' run
  obtain ⟨a, s₁, first, second⟩ := bind_eq_ok run
  obtain ⟨m, before, after⟩ := h f s a s₁ first
  obtain ⟨m', before', after'⟩ := h' a f s₁ b s' second
  exact ⟨m - (n' - j), by omega, by omega⟩

/-- A step before which nothing happens to the snapshot. -/
theorem after {g : α → Lowering β} [h : Mute x] (h' : ∀ a, Takes (g a) n j) : Takes (x >>= g) n j := by
  intro f s b s' run
  obtain ⟨a, s₁, first, second⟩ := bind_eq_ok run
  rw [← (h.run f s a s₁ first).2]
  exact h' a f s₁ b s' second

/-- A step after which nothing happens to the snapshot. -/
theorem before {g : α → Lowering β} (h : Takes x n j) [h' : ∀ a, Mute (g a)] : Takes (x >>= g) n j := by
  intro f s b s' run
  obtain ⟨a, s₁, first, second⟩ := bind_eq_ok run
  rw [((h' a).run f s₁ b s' second).2]
  exact h f s a s₁ first

theorem defect (d : Defect) : Takes (Lowering.defect d : Lowering α) n j := by
  intro f s a s' run
  cases run

theorem forM {g : β → Lowering Unit} (xs : List β) (h : ∀ y, Takes (g y) 1 0) :
    Takes (xs.forM g) xs.length 0 := by
  induction xs with
  | nil => exact (Mute.pure ()).takes
  | cons y xs ih =>
    have both := (h y).bind fun _ => ih
    rwa [Nat.sub_zero, Nat.zero_sub, Nat.add_zero, Nat.add_comm] at both

/-- Each time one more slot is taken, and the last one found stays. -/
theorem times {g : Lowering Unit} (n : Nat) (h : Takes g 2 1) :
    Takes (times (n + 1) g) (n + 2) 1 := by
  induction n with
  | zero => exact h.bind fun _ => (Mute.pure ()).takes
  | succ n ih =>
    have both := h.bind fun _ => ih
    rwa [show 2 + (n + 2 - 1) = n + 1 + 2 by omega, show 1 - (n + 2) + 1 = 1 by omega] at both

end Takes

theorem takes_pushType (t : TypeRef) : Takes (pushType t) 0 1 := by
  intro f s a s' run
  cases run
  exact ⟨s.stack.length, rfl, rfl⟩

theorem takes_popSlot : Takes popSlot 1 0 := by
  intro f s a s' run
  replace run := rest_of_ok run rfl
  cases slots : s.stack with
  | nil =>
    simp only [slots] at run
    cases run
  | cons slot rest =>
    simp only [slots] at run
    cases run
    exact ⟨rest.length, rfl, rfl⟩

theorem takes_drop (n : Nat) : Takes (drop n) n 0 := by
  intro f s a s' run
  replace run := rest_of_ok run rfl
  split at run
  · rename_i le
    cases run
    exact ⟨s.stack.length - n, by omega, List.length_drop⟩
  · cases run

theorem takes_peek (i : Nat) : Takes (peek i) (i + 1) (i + 1) := by
  intro f s a s' run
  replace run := rest_of_ok run rfl
  cases found : Snapshot.peek s.stack i with
  | error e =>
    simp only [found] at run
    cases run
  | ok slot =>
    simp only [found] at run
    cases run
    have lt : i < s.stack.length := by
      by_contra short
      unfold Snapshot.peek at found
      rw [if_pos (by omega), Int.toNat_natCast, List.getElem?_eq_none (by omega)] at found
      cases found
    exact ⟨s.stack.length - (i + 1), by omega, by omega⟩

theorem nonneg_of_peek {i : Int} {slot : Slot} (run : peek i f s = (.ok slot, s')) : 0 ≤ i := by
  replace run := rest_of_ok run rfl
  by_contra negative
  have missing : Snapshot.peek s.stack i = .error .invalidAccess := if_neg negative
  simp only [missing] at run
  cases run

theorem takes_spillMany (n : Nat) : Takes (spillMany n) n 0 := by
  induction n with
  | zero => exact (Mute.pure _).takes
  | succ n ih =>
    have rest (slot : Slot) : Takes (do
        let k ← slotKind slot
        let i ← alloc k
        store i k
        let rest ← spillMany n
        return (⟨i, slot⟩ :: rest : List Temp)) n 0 := by
      exact .after fun k => .after fun i => .after fun _ => ih.before
    have both := takes_popSlot.bind rest
    rwa [Nat.sub_zero, Nat.zero_sub, Nat.add_zero, Nat.add_comm] at both

theorem takes_spill (n : Nat) : Takes (spill n) n 0 := by
  unfold spill
  refine .after fun st => ?_
  split
  · exact takes_spillMany n
  · exact .defect _

/-- A run of a step has found some slots. -/
def Finds (x : Lowering α) (n : Nat) : Prop :=
  ∀ f s a s', x f s = (.ok a, s') → n ≤ s.stack.length

theorem Takes.finds (h : Takes x n j) : Finds x n := by
  intro f s a s' run
  obtain ⟨m, before, -⟩ := h f s a s' run
  omega

namespace Finds

theorem first {g : α → Lowering β} (h : Finds x n) : Finds (x >>= g) n := by
  intro f s b s' run
  obtain ⟨a, s₁, run, -⟩ := bind_eq_ok run
  exact h f s a s₁ run

theorem second {g : α → Lowering β} {n' : Nat} (h : Takes x n j) (h' : ∀ a, Finds (g a) n') :
    Finds (x >>= g) (n + (n' - j)) := by
  intro f s b s' run
  obtain ⟨a, s₁, first, second⟩ := bind_eq_ok run
  obtain ⟨m, before, after⟩ := h f s a s₁ first
  have le := h' a f s₁ b s' second
  omega

theorem after {g : α → Lowering β} [h : Mute x] (h' : ∀ a, Finds (g a) n) : Finds (x >>= g) n := by
  have both := second h.takes h'
  rwa [Nat.zero_add, Nat.sub_zero] at both

end Finds

/-! ## Steps without assumptions -/

/-- A step from which nothing false follows has not started in a bad state. -/
theorem Moves.fine {Δ : α → List Fact} (h : Moves c [.prop False] x p q Δ) {a : α}
    (run : x c.function s = (.ok a, s')) (fine : s'.Fine) : s.Fine := by
  by_contra bad
  obtain ⟨v, -, -, facts⟩ := h s a s' (fun fine => absurd fine bad) run fine
  exact facts (.prop False) (by simp)

/-- A failure stays recorded. -/
theorem not_fine_of_fail {Δ : α → List Fact} (h : Moves c [.prop False] x p q Δ) {e : Cause} {a : α}
    (run : (do Lowering.fail e; x) c.function s = (.ok a, s')) : ¬s'.Fine := by
  intro fine
  obtain ⟨_, s₁, failed, run⟩ := bind_eq_ok run
  exact failed_of_fail failed (h.fine run fine).1

theorem Moves.failThen {r : Point} {Δ Δ' : α → List Fact} (e : Cause)
    (h : Moves c [.prop False] x p q Δ) : Moves c Γ (do Lowering.fail e; x) r q Δ' :=
  fun _ _ _ _ run fine => absurd fine (not_fine_of_fail h run)

theorem Moves.defectThen {g : α → Lowering β} {Δ : β → List Fact} (e : Defect) :
    Moves c Γ (Lowering.defect e >>= g) p q Δ := by
  intro s a s' _ run
  cases run

/-- A step whose run finds the slots that it needs. -/
theorem Moves.demand {p₀ q₀ : Point} {Δ Δ₀ : α → List Fact} (n : Nat)
    (safe : Moves c [.prop False] x p₀ q₀ Δ₀)
    (enough : ∀ s a s', x c.function s = (.ok a, s') → s'.Fine → n ≤ s.stack.length)
    (h : n ≤ p.slots → Moves c Γ x p q Δ) : Moves c Γ x p q Δ := by
  intro s a s' known run fine
  obtain ⟨v, inv, here, facts⟩ := known (safe.fine run fine)
  have le := enough s a s' run fine
  rw [here.slots] at le
  exact h le s a s' (fun _ => ⟨v, inv, here, facts⟩) run fine

/-- A step from what it does to the host stack, when it finds the slots that it needs. -/
theorem Moves.finding {q : Nat → Point} (finds : Finds x n)
    (h : ∀ Γ d, Moves c Γ x ⟨some (d + n), d + n, b⟩ (q (d + n)) fun _ => []) :
    Moves c Γ x ⟨some k, k, b⟩ (q k) fun _ => [] := by
  refine .demand n (h _ 0) (fun s a s' run _ => finds _ s a s' run) fun le => ?_
  obtain ⟨d, rfl⟩ := Nat.exists_eq_add_of_le' le
  exact h Γ d

theorem finds_duplicate (n : Nat) : Finds (duplicate n) (n + 1) := by
  unfold duplicate
  split
  · rename_i zero
    obtain rfl : n = 0 := by exact_mod_cast zero
    exact .after fun _ => (takes_peek 0).finds.first
  · split
    · rename_i one
      obtain rfl : n = 1 := by exact_mod_cast one
      exact .after fun _ => (takes_peek 1).finds.first
    · exact .second (takes_spill n) fun _ => .after fun _ => (takes_peek 0).finds.first

theorem moves_duplicateAt (n : Nat) :
    Moves c Γ (duplicate n) ⟨some k, k, b⟩ ⟨some (k + 1), k + 1, b⟩ fun _ => [] :=
  .finding (q := fun k => ⟨some (k + 1), k + 1, b⟩) (finds_duplicate n) fun _ _ => moves_duplicate n

/-- The code for small depths is emitted before the snapshot is looked at. -/
theorem moves_buryAt (n : Nat) (small : n ≤ 2 → n + 1 ≤ k) :
    Moves c Γ (bury n) ⟨some k, k, b⟩ ⟨some k, k, b⟩ fun _ => [] := by
  by_cases few : n ≤ 2
  · obtain ⟨d, rfl⟩ := Nat.exists_eq_add_of_le' (small few)
    exact moves_bury n
  · have finds : Finds (bury n) (n + 1) := by
      unfold bury
      rw [if_neg (by omega), if_neg (by omega), if_neg (by omega), Nat.add_comm]
      exact .second (takes_spill 1) fun _ => (takes_spill n).finds.first
    exact .finding (q := fun k => ⟨some k, k, b⟩) finds fun _ _ => moves_bury n

theorem moves_exchangeAt (n : Nat) (small : n ≤ 1 → n + 1 ≤ k) :
    Moves c Γ (exchange n) ⟨some k, k, b⟩ ⟨some k, k, b⟩ fun _ => [] := by
  by_cases few : n ≤ 1
  · obtain ⟨d, rfl⟩ := Nat.exists_eq_add_of_le' (small few)
    exact moves_exchange n
  · have finds : Finds (exchange n) (n + 1) := by
      unfold exchange
      rw [if_neg (by omega), if_neg (by omega)]
      exact (takes_spill (n + 1)).finds.first
    exact .finding (q := fun k => ⟨some k, k, b⟩) finds fun _ _ => moves_exchange n

end HostLowering.Lower
