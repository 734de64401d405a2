import HostLowering.Proofs.Lower.Logic

set_option autoImplicit false

/-! # Instructions

What the instructions and short idioms of lowering do to the depth of the host stack. A line moves
`k` values to `j` values on top of whatever is below; branches and marks are checked against the
depths of their labels.

Where a step leads is found from what the step is made of: `Shifts` is a class for steps that do the
same wherever they stand, `Leads` for steps from a given point. A proof names the depths of the labels
that a step makes, and those parts that need an argument.
-/

namespace HostLowering.Lower

set_option synthInstance.maxSize 1000000

open Machine Catalog Lowering

/-- Membership that is read off. -/
class Among {α : Type} (a : α) (as : List α) : Prop where
  mem : a ∈ as

section Among

variable {α : Type} {a b : α} {as bs : List α}

instance [h : Among a as] : Among a (b :: as) := ⟨.tail b h.mem⟩

instance : Among a (a :: as) := ⟨.head as⟩

instance [h : Among a bs] : Among a (as ++ bs) := ⟨List.mem_append_right as h.mem⟩

instance [h : Among a as] : Among a (as ++ bs) := ⟨List.mem_append_left bs h.mem⟩

end Among

variable {α β : Type} {c : Setting} {Γ : List Fact} {v : View} {s s' : State} {p q r : Point}
  {x y : Lowering α} {d e k j m n i : Nat} {b : Bool} {op : Opcode} {start stop target : Label}
  {catches : String}

/-! ## Steps from what they are made of -/

/-- A number, and what is left when a part of it is taken. -/
class Splits (k n : Nat) (d : outParam Nat) : Prop where
  eq : n = d + k

instance : Splits 0 d d := ⟨rfl⟩

instance : Splits 1 (d + 1) d := ⟨rfl⟩

instance : Splits 2 (d + 2) d := ⟨rfl⟩

instance : Splits 3 (d + 3) d := ⟨rfl⟩

instance : Splits 4 (d + 4) d := ⟨rfl⟩

instance (priority := low) : Splits k (d + k) d := ⟨rfl⟩

/-- The sum of two numbers. -/
class Sums (d j : Nat) (e : outParam Nat) : Prop where
  eq : d + j = e

instance : Sums d 0 d := ⟨rfl⟩

instance : Sums d 1 (d + 1) := ⟨rfl⟩

instance : Sums d 2 (d + 2) := ⟨rfl⟩

instance : Sums d 3 (d + 3) := ⟨rfl⟩

instance : Sums d 4 (d + 4) := ⟨rfl⟩

/-- A step takes `k` values off the host stack and leaves `j`, and takes `n` slots off the snapshot and
leaves `i`, wherever it stands. -/
class Shifts {α : Type} (x : Lowering α) (k j n i : outParam Nat) : Prop where
  moves : ∀ {c Γ d m b}, Moves c Γ x ⟨some (d + k), m + n, b⟩ ⟨some (d + j), m + i, b⟩ fun _ => []

/-- A step leads from one point to another. As a class this is found for a step from what the step is
made of, and where it leads with it. -/
class Leads (c : Setting) (Γ : List Fact) {α : Type} (x : Lowering α) (p : Point) (q : outParam Point) :
    Prop where
  moves : Moves c Γ x p q fun _ => []

theorem Moves.leads [h : Leads c Γ x p q] : Moves c Γ x p q fun _ => [] := h.moves

namespace Leads

instance {k : α → Lowering β} [h : Leads c Γ x p q] [h' : ∀ a, Leads c Γ (k a) q r] :
    Leads c Γ (x >>= k) p r :=
  ⟨h.moves.seq fun a => (h' a).moves⟩

instance {e' m' n' : Nat} [h : Shifts x k j n i] [hd : Splits k e d] [hm : Splits n m' m]
    [hd' : Sums d j e'] [hm' : Sums m i n'] : Leads c Γ x ⟨some e, m', b⟩ ⟨some e', n', b⟩ := by
  rw [hd.eq, hm.eq, ← hd'.eq, ← hm'.eq]
  exact ⟨h.moves⟩

instance (a : α) : Leads c Γ (pure a) p p := ⟨.pure a⟩

instance {P : Prop} [Decidable P] [Leads c Γ x p q] [Leads c Γ y p q] :
    Leads c Γ (if P then x else y) p q := by
  split <;> infer_instance

instance {k : Function → Lowering β} [h : Leads c Γ (k c.function) p q] :
    Leads c Γ ((read : Lowering Function) >>= k) p q :=
  ⟨.read h.moves⟩

instance (n : Int) : Leads c Γ (peek n) p p := ⟨moves_peek n⟩

instance (n : Int) : Leads c Γ (peekType n) p p := ⟨moves_peekType n⟩

instance (i : Int) : Leads c Γ (free i) p p := ⟨moves_free i⟩

instance (s : Slot) : Leads c Γ (slotKind s) p p := ⟨.reads fun _ => rfl⟩

instance (t : TypeRef) : Leads c Γ (typeKind t) p p := ⟨.reads fun _ => rfl⟩

instance (t : Option TypeRef) : Leads c Γ (hostClassOf t) p p := ⟨.reads fun _ => rfl⟩

instance (t u : TypeRef) : Leads c Γ (isSubtype t u) p p := ⟨.reads fun _ => rfl⟩

variable {o : Option Nat}

instance (s : Slot) : Leads c Γ (pushSlot s) ⟨o, m, b⟩ ⟨o, m + 1, b⟩ := ⟨moves_pushSlot s⟩

instance (t : Option TypeRef) : Leads c Γ (pushType? t) ⟨o, m, b⟩ ⟨o, m + 1, b⟩ :=
  ⟨moves_pushType? t⟩

instance (t : TypeRef) : Leads c Γ (pushType t) ⟨o, m, b⟩ ⟨o, m + 1, b⟩ := ⟨moves_pushType t⟩

instance (s : Slot) : Leads c Γ (setTop s) ⟨o, m + 1, b⟩ ⟨o, m + 1, b⟩ := ⟨moves_setTop s⟩

instance : Leads c Γ popSlot ⟨o, m + 1, b⟩ ⟨o, m, b⟩ := ⟨moves_popSlot⟩

instance {m' : Nat} [h : Splits n m' m] : Leads c Γ (drop n) ⟨o, m', b⟩ ⟨o, m, b⟩ := by
  rw [h.eq]
  exact ⟨moves_drop⟩

end Leads

/-- A step begins with steps that lead from one point to another, and goes on with the rest. -/
class Goes (c : Setting) (Γ : List Fact) {α : Type} (x : Lowering α) (p : Point)
    (rest : outParam (Lowering α)) (q : outParam Point) : Prop where
  goes : ∀ {r : Point} {Δ : α → List Fact}, Moves c Γ rest q r Δ → Moves c Γ x p r Δ

instance (priority := low) {x : Lowering Unit} {k : Unit → Lowering α} [h : Leads c Γ x p q] :
    Goes c Γ (x >>= k) p (k ()) q :=
  ⟨fun h' => .seq h.moves fun _ => h'⟩

instance {x : Lowering Unit} {k : Unit → Lowering α} {rest : Lowering α} [h : Leads c Γ x p q]
    [h' : Goes c Γ (k ()) q rest r] : Goes c Γ (x >>= k) p rest r :=
  ⟨fun h'' => .seq h.moves fun _ => h'.goes h''⟩

/-- What is left of a step behind the parts that are found. -/
theorem Moves.on {rest : Lowering α} {Δ : α → List Fact} [h : Goes c Γ x p rest q]
    (h' : Moves c Γ rest q r Δ) : Moves c Γ x p r Δ :=
  h.goes h'

theorem assemble_eq_ok {step : Asm α} {x : α} {f : Function}
    (h : assemble step f s = (.ok x, s')) :
    ∃ a, step s.assembler = .ok (x, a) ∧ s' = { s with assembler := a } := by
  unfold assemble at h
  cases run : step s.assembler with
  | error e =>
    simp only [run] at h
    cases h
  | ok r =>
    obtain ⟨y, a⟩ := r
    simp only [run] at h
    cases h
    exact ⟨a, rfl, rfl⟩

/-! ## Lines -/

/-- The local that the operand of a line names exists. -/
def Part.InLocals (n : Int) : Part → Prop
  | .known o => ∀ i, o.local? = some i → (i : Int) < n
  | .branch _ => True

theorem Invariant.line {a : Assembler} {part : Part} {e : Int} (inv : Invariant c v s)
    (held : Held c.refs (.line op part n e :: v.items) a) (kept : s.assembler.Kept a)
    (inLocals : Part.InLocals s.pool.maxLocals part) :
    Invariant c { v with items := .line op part n e :: v.items } { s with assembler := a } where
  held := held
  within p' op' o' n' e' i stands named := by
    rcases stands_cons.mp stands with old | ⟨-, same⟩
    · exact inv.within p' op' o' n' e' i old named
    · cases same
      exact inLocals i named
  fresh l hl := inv.fresh l (kept.labels.trans hl)
  sources o l hl := by
    obtain ⟨lt, depth, open_⟩ := inv.sources o l hl
    exact ⟨lt.trans_le kept.labels, depth, fun unmarked => (kept.positions l).trans (open_ unmarked)⟩
  __ := inv
  guards h mem := by
    simp only [kept.positions]
    exact inv.guards h (kept.handlers ▸ mem)

theorem grows_assembler {a : Assembler} {items : List Item}
    (positions : ∀ l, a.position? l = s.assembler.position? l)
    (labels : s.assembler.labels.size ≤ a.labels.size) :
    Grows v s { v with items } { s with assembler := a } where
  depth _ _ h := h
  labels := labels
  positions l _ h := (positions l).trans h
  later l _ h := .inl ((positions l).symm.trans h)
  sources _ _ h := h
  newer _ _ h := .inl h
  expects _ _ h := h
  marked _ h := h
  handlers _ _ := rfl
  dispatch := rfl
  maxLocals := le_rfl

/-- A step of the assembler that appends a line. Behind a line that does not continue there is any
depth, or none. -/
theorem moves_line {step : Asm Unit} {o : Opcode} {after : Option Nat}
    (fine : ∀ a a', step a = .ok ((), a') → a'.error = none → a.error = none)
    (ends : o.isTerminal = false → after = some (d + j))
    (line : ∀ v s a, Invariant c v s → (∀ φ ∈ Γ, φ.Holds v s) → step s.assembler = .ok ((), a) →
      a.error = none → ∃ part n e, Held c.refs (.line o part n e :: v.items) a ∧
        s.assembler.Kept a ∧ n ≤ k ∧ (k : Int) + e = j ∧ part.Leads v.depth (d + j) ∧
        Part.InLocals s.pool.maxLocals part) :
    Moves c Γ (assemble step) ⟨some (d + k), m, b⟩ ⟨after, m, b⟩ fun _ => [] := by
  refine .step fun s x s' run fine' => ?_
  obtain ⟨a, done, rfl⟩ := assemble_eq_ok run
  refine ⟨⟨fine'.1, fine _ _ done fine'.2⟩, fun v inv here facts => ?_⟩
  obtain ⟨part, n, e, held, kept, enough, effect, leads, inLocals⟩ :=
    line v s a inv facts done fine'.2
  have leads' : part.Leads v.depth (↑(d + k) + e) := by
    rw [show ((d + k : Nat) : Int) + e = d + j by push_cast; omega]
    exact leads
  refine ⟨_, inv.line held kept inLocals, grows_assembler kept.positions kept.labels,
    ⟨?_, here.slots, here.live⟩, by simp⟩
  have flows (d' : Nat) (h : o.isTerminal = false → d' = d + j) :
      Flows v.depth (.line o part n e :: v.items) d' :=
    ⟨d + k, here.ends, by omega, leads', fun continues => by rw [h continues]; push_cast; omega⟩
  cases after with
  | some d' => exact flows d' fun continues => Option.some.inj (ends continues)
  | none => exact fun d' => flows d' fun continues => absurd (ends continues) (by simp)

/-! ## Plain opcodes -/

/-- An opcode without operand. -/
theorem moves_op {after : Option Nat} (known : op.isKnown = true) (shape : op.shape = .plain)
    (enough : op.operandsNeeded ≤ k) (effect : (k : Int) + op.stackEffect = j)
    (ends : op.isTerminal = false → after = some (d + j)) :
    Moves c Γ (assemble (Asm.emit op)) ⟨some (d + k), m, b⟩ ⟨after, m, b⟩ fun _ => [] := by
  refine moves_line (o := op) (fun a a' run fine => ?_) ends fun v s a inv _ run _ => ?_
  · cases run
    exact fine
  · cases run
    obtain ⟨held, kept⟩ := inv.held.emit known shape
    exact ⟨_, _, _, held, kept, enough, effect, by simp [Part.Leads, Operand.shape],
      by simp [Part.InLocals, Operand.local?]⟩

/-- The depth behind opcodes that continue, if they have no operands of their own and find enough
values. -/
def passes : List Opcode → Nat → Option Nat
  | [], d => some d
  | op :: ops, d =>
    if op.isKnown && op.shape == .plain && !op.isTerminal && op.operandsNeeded ≤ d then
      passes ops (d + op.stackEffect).toNat
    else none

/-- Opcodes that take `k` values and leave `j`. -/
theorem moves_emit (k j : Nat) {ops : List Opcode} (h : passes ops k = some j) :
    Moves c Γ (emit ops) ⟨some (d + k), m, b⟩ ⟨some (d + j), m, b⟩ fun _ => [] := by
  unfold emit
  induction ops generalizing k with
  | nil =>
    cases h
    exact .pure ()
  | cons op ops ih =>
    unfold passes at h
    split at h
    · rename_i fits
      simp only [Bool.and_eq_true, Bool.not_eq_true', decide_eq_true_eq, beq_iff_eq] at fits
      obtain ⟨⟨⟨known, shape⟩, continues⟩, enough⟩ := fits
      have plain : op.isInvoke = false := by
        by_contra invoke
        rw [Bool.not_eq_false] at invoke
        simp [Opcode.shape_of_isInvoke invoke] at shape
      have down := Opcode.neg_operandsNeeded_le plain
      refine .seq (moves_op known shape enough ?_ fun _ => rfl) fun _ => ih _ h
      rw [Int.toNat_of_nonneg (by omega)]
    · cases h

/-- An opcode that does not continue. -/
theorem moves_end (k : Nat) (known : op.isKnown = true) (shape : op.shape = .plain)
    (exact_ : (k : Int) + op.stackEffect = 0) (enough : op.operandsNeeded ≤ k)
    (terminal : op.isTerminal = true) :
    Moves c Γ (emit [op]) ⟨some (d + k), m, b⟩ ⟨none, m, b⟩ fun _ => [] := by
  refine .seq (moves_op known shape enough exact_ fun continues => ?_) fun _ => .pure ()
  simp [terminal] at continues

instance : Leads c Γ (emit [.athrow]) ⟨some (d + 1), m, b⟩ ⟨none, m, b⟩ :=
  ⟨moves_end 1 rfl rfl rfl le_rfl rfl⟩

instance : Leads c Γ (emit [.areturn]) ⟨some (d + 1), m, b⟩ ⟨none, m, b⟩ :=
  ⟨moves_end 1 rfl rfl rfl le_rfl rfl⟩

instance : Leads c Γ (emit [.returnVoid]) ⟨some d, m, b⟩ ⟨none, m, b⟩ :=
  ⟨moves_end 0 rfl rfl rfl le_rfl rfl⟩

/-- What an opcode takes and leaves. -/
class Trades (op : Opcode) (k j : outParam Nat) : Prop where
  passes : passes [op] k = some j

instance : Trades .dup 1 2 := ⟨rfl⟩

instance : Trades .swap 2 2 := ⟨rfl⟩

instance : Trades .pop 1 0 := ⟨rfl⟩

instance : Trades .pop2 2 0 := ⟨rfl⟩

instance : Trades .dupX1 2 3 := ⟨rfl⟩

instance : Trades .dupX2 3 4 := ⟨rfl⟩

instance : Trades .dup2 2 4 := ⟨rfl⟩

instance : Trades .aconstNull 0 1 := ⟨rfl⟩

instance : Leads c Γ (emit []) p p := ⟨.pure ()⟩

instance {ops : List Opcode} {e' : Nat} [h : Trades op k j] [hd : Splits k e d] [hd' : Sums d j e']
    [h' : Leads c Γ (emit ops) ⟨some e', m, b⟩ q] :
    Leads c Γ (emit (op :: ops)) ⟨some e, m, b⟩ q := by
  have first : Moves c Γ (emit [op]) ⟨some (d + k), m, b⟩ ⟨some (d + j), m, b⟩ fun _ => [] :=
    moves_emit k j h.passes
  rw [hd'.eq, ← hd.eq] at first
  exact ⟨.seq first fun _ => h'.moves⟩

/-! ## Locals -/

/-- The method has a local. -/
def Usable (c : Setting) (Γ : List Fact) (i : Int) : Prop :=
  ∀ v s, Invariant c v s → (∀ φ ∈ Γ, φ.Holds v s) → i < s.pool.maxLocals

theorem usable_of_mem {t : List Int} {i : Int} (mem : .locals t ∈ Γ) (hi : i ∈ t) :
    Usable c Γ i :=
  fun _ _ _ facts => facts _ mem i hi

/-- The source locals and the slots of exceptions. -/
theorem usable_of_lt {i : Int} (lt : i < c.function.slotBase + 2) : Usable c Γ i :=
  fun _ _ inv _ => lt.trans_le inv.slots

theorem moves_local {i : Int} (shape : op.shape = .slot) (enough : op.operandsNeeded ≤ k)
    (effect : (k : Int) + op.stackEffect = j) (usable : Usable c Γ i) :
    Moves c Γ (assemble (Asm.emitLocal op i)) ⟨some (d + k), m, b⟩ ⟨some (d + j), m, b⟩
      fun _ => [] := by
  refine moves_line (o := op) (fun a a' run fine => ?_) (fun _ => rfl)
    fun v s a inv facts run fine => ?_
  · cases run
    exact (a.error_emitLocal fine).1
  · cases run
    obtain ⟨nonneg, held, kept⟩ := inv.held.emitLocal shape fine
    refine ⟨_, _, _, held, kept, enough, effect, by simp [Part.Leads, Operand.shape],
      fun n named => ?_⟩
    cases named
    rw [Int.toNat_of_nonneg nonneg]
    exact usable v s inv facts

theorem moves_load {i : Int} (kind : Kind) (usable : Usable c Γ i) :
    Moves c Γ (load i kind) ⟨some d, m, b⟩ ⟨some (d + 1), m, b⟩ fun _ => [] := by
  have load : (Opcode.load kind).shape = .slot ∧ (Opcode.load kind).operandsNeeded = 0 ∧
      (Opcode.load kind).stackEffect = 1 := by
    cases kind <;> exact ⟨rfl, rfl, rfl⟩
  obtain ⟨shape, needed, effect⟩ := load
  exact moves_local (k := 0) shape (by omega) (by rw [effect]; rfl) usable

theorem moves_store {i : Int} (kind : Kind) (usable : Usable c Γ i) :
    Moves c Γ (store i kind) ⟨some (d + 1), m, b⟩ ⟨some d, m, b⟩ fun _ => [] := by
  have store : (Opcode.store kind).shape = .slot ∧ (Opcode.store kind).operandsNeeded = 1 ∧
      (Opcode.store kind).stackEffect = -1 := by
    cases kind <;> exact ⟨rfl, rfl, rfl⟩
  obtain ⟨shape, needed, effect⟩ := store
  exact moves_local (j := 0) shape (by omega) (by rw [effect]; rfl) usable

theorem moves_increment {i : Int} (usable : Usable c Γ i) :
    Moves c Γ (increment i) ⟨some d, m, b⟩ ⟨some d, m, b⟩ fun _ => [] := by
  refine moves_line (k := 0) (j := 0) (o := .iinc) (fun a a' run fine => ?_)
    (fun _ => rfl) fun v s a inv facts run fine => ?_
  · cases run
    exact (Assembler.error_emitLocal (show (a.emitLocal .iinc i).error = none from fine)).1
  · cases run
    obtain ⟨nonneg, held, kept⟩ := inv.held.emitIncrement fine
    refine ⟨_, _, _, held, kept, Nat.zero_le _, rfl, by simp [Part.Leads, Operand.shape],
      fun n named => ?_⟩
    cases named
    rw [Int.toNat_of_nonneg nonneg]
    exact usable v s inv facts

/-- The facts say that the method has a local. -/
class Has (c : Setting) (Γ : List Fact) (i : Int) : Prop where
  usable : Usable c Γ i

instance {i : Int} [h : Among (.locals [i]) Γ] : Has c Γ i := ⟨usable_of_mem h.mem List.mem_cons_self⟩

section Has

variable {i : Int} {kind : Kind} [h : Has c Γ i]

instance : Leads c Γ (load i kind) ⟨some d, m, b⟩ ⟨some (d + 1), m, b⟩ :=
  ⟨moves_load kind h.usable⟩

instance : Leads c Γ (loadRef i) ⟨some d, m, b⟩ ⟨some (d + 1), m, b⟩ :=
  ⟨moves_load .ref h.usable⟩

instance : Leads c Γ (store i kind) ⟨some (d + 1), m, b⟩ ⟨some d, m, b⟩ :=
  ⟨moves_store kind h.usable⟩

instance : Leads c Γ (storeRef i) ⟨some (d + 1), m, b⟩ ⟨some d, m, b⟩ :=
  ⟨moves_store .ref h.usable⟩

instance : Leads c Γ (increment i) ⟨some d, m, b⟩ ⟨some d, m, b⟩ :=
  ⟨moves_increment h.usable⟩

end Has

/-- A temporary is taken. -/
theorem Moves.alloc {kind : Kind} {g : Int → Lowering β} {Δ : β → List Fact}
    (h : ∀ i, Moves c (.locals [i] :: Γ) (g i) p q Δ) : Moves c Γ (alloc kind >>= g) p q Δ :=
  (moves_alloc kind).bind h

/-! ## Constants -/

theorem error_emitConstant {k : Constant} {a a' : Assembler}
    (h : Asm.emitConstant op k a = .ok ((), a')) : a'.error = a.error := by
  obtain ⟨_, _, -, rfl⟩ := Asm.emitConstant_eq_ok h
  rfl

/-- An instruction on a constant other than an invocation. -/
theorem shifts_constant {const : Constant} (shape : op.shape = .constant)
    (plain : op.isInvoke = false) (proper : ∀ refs, const.Proper refs)
    (enough : op.operandsNeeded ≤ k) (effect : (k : Int) + op.stackEffect = j) :
    Shifts (assemble (Asm.emitConstant op const)) k j 0 0 := by
  refine ⟨moves_line (o := op) (fun a a' run fine => error_emitConstant run ▸ fine) (fun _ => rfl)
    fun v s a inv facts run fine => ?_⟩
  obtain ⟨index, held, kept⟩ := inv.held.emitOther (proper _) shape plain run
  exact ⟨_, _, _, held, kept, enough, effect, by simp [Part.Leads, Operand.shape],
    by simp [Part.InLocals, Operand.local?]⟩

section Constants

variable (f : FieldRef) (name : String)

instance : Shifts (getStatic f) 0 1 0 0 :=
  shifts_constant rfl rfl (fun _ => .field f) le_rfl rfl

instance : Shifts (getField f) 1 1 0 0 :=
  shifts_constant rfl rfl (fun _ => .field f) le_rfl rfl

instance : Shifts (putField f) 2 0 0 0 :=
  shifts_constant rfl rfl (fun _ => .field f) le_rfl rfl

instance : Shifts (emitClass .new name) 0 1 0 0 :=
  shifts_constant rfl rfl (fun _ => .cls name) le_rfl rfl

instance : Shifts (emitClass .checkcast name) 1 1 0 0 :=
  shifts_constant rfl rfl (fun _ => .cls name) le_rfl rfl

instance : Shifts (emitClass .instanceof name) 1 1 0 0 :=
  shifts_constant rfl rfl (fun _ => .cls name) le_rfl rfl

instance : Shifts (pushText name) 0 1 0 0 :=
  shifts_constant rfl rfl (fun _ => .string name) le_rfl rfl

end Constants

instance (n : Int64) : Shifts (assemble (Asm.pushInt n)) 0 1 0 0 := by
  unfold Asm.pushInt
  split
  · refine ⟨moves_line (o := .sipush) (fun a a' run fine => ?_) (fun _ => rfl)
      fun v s a inv _ run _ => ?_⟩
    · cases run
      exact fine
    · cases run
      obtain ⟨held, kept⟩ := inv.held.emitShort (k := n.toInt)
      exact ⟨_, _, _, held, kept, le_rfl, rfl, by simp [Part.Leads, Operand.shape, Operand.ofWord],
        by simp [Part.InLocals, Operand.local?, Operand.ofWord]⟩
  · exact shifts_constant rfl rfl (fun _ => .int n) le_rfl rfl

instance (n : Int) : Shifts (pushInt n) 0 1 0 0 :=
  inferInstanceAs (Shifts (assemble (Asm.pushInt _)) 0 1 0 0)

/-! ## Invocations -/

/-- An invocation of a method that the code may name. -/
theorem moves_invokeBy {r : MethodRef} (invoke : op.isInvoke = true)
    (use : ∀ v s, Invariant c v s → (∀ φ ∈ Γ, φ.Holds v s) →
      r ∈ c.refs ∧ r.operandCount op = k ∧ (if r.pushesResult then 1 else 0) = j) :
    Moves c Γ (invokeBy op r) ⟨some (d + k), m, b⟩ ⟨some (d + j), m, b⟩ fun _ => [] := by
  refine moves_line (o := op) (fun a a' run fine => error_emitConstant run ▸ fine) (fun _ => rfl)
    fun v s a inv facts run fine => ?_
  obtain ⟨mem, count, answers⟩ := use v s inv facts
  obtain ⟨index, held, kept⟩ := inv.held.emitInvoke c.clear mem invoke run
  refine ⟨_, _, _, held, kept, count.le, ?_, by simp [Part.Leads, Operand.shape],
    by simp [Part.InLocals, Operand.local?]⟩
  rw [MethodRef.stackEffect, count, ← answers]
  split <;> simp

/-- A library method that takes `k` values and gives `j`. -/
def Serves (op : Opcode) (r : MethodRef) (k j : Nat) : Bool :=
  libraryReferences.contains r && op.isInvoke && r.operandCount op == k &&
    (if r.pushesResult then 1 else 0) == j

theorem Shifts.library {r : MethodRef} (h : Serves op r k j = true) :
    Shifts (invokeBy op r) k j 0 0 := by
  simp only [Serves, Bool.and_eq_true, beq_iff_eq, List.contains_iff_mem] at h
  obtain ⟨⟨⟨mem, invoke⟩, count⟩, answers⟩ := h
  refine ⟨@fun c _ _ _ _ => ?_⟩
  exact moves_invokeBy invoke fun _ _ _ _ => ⟨c.library r mem, count, answers⟩

section Library

open Library

variable {r : MethodRef}

def ServesReceiver (k j : Nat) (r : MethodRef) : Prop :=
  Serves (if r.isInterface then .invokeinterface else .invokevirtual) r k j = true

instance (k j : Nat) : DecidablePred (ServesReceiver k j) := fun _ => inferInstanceAs (Decidable (_ = true))

instance [h : Among r [getType, boundFunctionInstance, listSize, stopIterationValue]] :
    Shifts (invoke r) 1 1 0 0 :=
  .library ((by decide : ∀ r ∈ _, ServesReceiver 1 1 r) r h.mem)

instance [h : Among r [getAttributeOrError, getAttributeOrNull, getDefiningTypeOrNull, isInstance,
    getDunderOrError, listGet, setCause]] : Shifts (invoke r) 2 1 0 0 :=
  .library ((by decide : ∀ r ∈ _, ServesReceiver 2 1 r) r h.mem)

instance [h : Among r [listAdd, listExtend, reverseAdd listClass, reverseAdd tupleClass,
    reverseAdd setClass]] : Shifts (invoke r) 2 0 0 0 :=
  .library ((by decide : ∀ r ∈ _, ServesReceiver 2 0 r) r h.mem)

instance : Shifts (invoke listCut) 3 1 0 0 := .library rfl

instance : Shifts (invoke dictPut) 3 0 0 0 := .library rfl

instance : Shifts (invoke Library.call) 4 1 0 0 := .library rfl

instance : Shifts (invokeStatic currentTraceback) 0 1 0 0 := .library rfl

instance [h : Among r [boolValueOf, intValueOf, strValueOf, unpackTooManyError]] :
    Shifts (invokeStatic r) 1 1 0 0 :=
  .library ((by decide : ∀ r ∈ _, Serves .invokestatic r 1 1 = true) r h.mem)

instance [h : Among r [coerceToType, noAttributeError, unpackTooFewError, unpackTooFewStarredError,
    notSupportedError]] : Shifts (invokeStatic r) 2 1 0 0 :=
  .library ((by decide : ∀ r ∈ _, Serves .invokestatic r 2 1 = true) r h.mem)

instance : Shifts (invokeStatic unsupportedOperandsError) 3 1 0 0 := .library rfl

instance [h : Among r [collectionInit listClass, collectionInit dictClass, collectionInit tupleClass,
    collectionInit setClass]] : Shifts (invokeSpecial r) 2 0 0 0 :=
  .library ((by decide : ∀ r ∈ _, Serves .invokespecial r 2 0 = true) r h.mem)

instance : Shifts (invokeSpecial boundFunctionInit) 3 0 0 0 := .library rfl

instance : Shifts (invokeSpecial sliceInit) 4 0 0 0 := .library rfl

end Library

/-! ## Labels -/

theorem newLabel_eq_ok {l : Label} {f : Function} (h : newLabel f s = (.ok l, s')) :
    l = s.assembler.labels.size ∧
      s' = { s with assembler := { s.assembler with labels := s.assembler.labels.push {} } } := by
  obtain ⟨a, done, rfl⟩ := assemble_eq_ok h
  cases done
  exact ⟨rfl, rfl⟩

/-- The label of a source offset is the one it has, or a new one. -/
theorem offsetLabel_eq_ok {o : Int} {l : Label} {f : Function}
    (h : offsetLabel o f s = (.ok l, s')) :
    s.labels[o]? = some l ∧ s' = s ∨ s.labels[o]? = none ∧ l = s.assembler.labels.size ∧
      s' = { s with
        assembler := { s.assembler with labels := s.assembler.labels.push {} }
        labels := s.labels.insert o l } := by
  replace h := rest_of_ok h rfl
  cases found : s.labels[o]? with
  | some l' =>
    simp only [found] at h
    cases h
    exact .inl ⟨rfl, rfl⟩
  | none =>
    simp only [found] at h
    obtain ⟨l', s₂, new, h⟩ := bind_eq_ok h
    obtain ⟨rfl, rfl⟩ := newLabel_eq_ok new
    cases h
    exact .inr ⟨rfl, rfl, rfl⟩

/-- The invariant with one more label, of any depth or none. -/
theorem Invariant.newLabel (inv : Invariant c v s) (n : Option Nat) :
    ∃ depth : Depths, depth s.assembler.labels.size = n ∧
      Invariant c ⟨v.items, depth⟩
        { s with assembler := { s.assembler with labels := s.assembler.labels.push {} } } ∧
      Grows v s ⟨v.items, depth⟩
        { s with assembler := { s.assembler with labels := s.assembler.labels.push {} } } := by
  have fresh := inv.fresh _ le_rfl
  obtain ⟨held, kept⟩ := inv.held.newLabel
  let depth : Depths := fun l => if l = s.assembler.labels.size then n else v.depth l
  have le : v.depth.Le depth := fun l d' h => by
    have ne : l ≠ s.assembler.labels.size := by
      rintro rfl
      simp [fresh] at h
    simp only [depth, if_neg ne, h]
  have old {l : Label} (lt : l < s.assembler.labels.size) : depth l = v.depth l := if_neg lt.ne
  refine ⟨depth, if_pos rfl, ?_, ?_⟩
  · exact {
      held := held
      __ := inv
      fresh := fun l hl => by
        have lt : s.assembler.labels.size < l := by simpa using hl
        exact (if_neg lt.ne').trans (inv.fresh l lt.le)
      sources := fun o l hl => by
        obtain ⟨lt, known, open_⟩ := inv.sources o l hl
        exact ⟨lt.trans_le kept.labels, (old lt).trans known,
          fun unmarked => (kept.positions l).trans (open_ unmarked)⟩
      guards := fun h mem => by
        obtain ⟨known, place⟩ := inv.guards h mem
        simp only [kept.positions]
        exact ⟨le _ _ known, place⟩
      resumes := fun r hr => ⟨le _ _ (inv.resumes r hr).1, (inv.resumes r hr).2⟩ }
  · have same : Grows v s v { s with assembler := _ } :=
      grows_assembler kept.positions kept.labels
    exact { same with depth := le }

/-- A new label gets the depth that it will be marked with. -/
theorem moves_newLabel (n : Nat) : Moves c Γ newLabel p p fun l => [.deep l n, .inner l] := by
  refine .step fun s l s' run fine => ?_
  obtain ⟨rfl, rfl⟩ := newLabel_eq_ok run
  refine ⟨fine, fun v inv here _ => ?_⟩
  obtain ⟨depth, deep, inv', grows⟩ := inv.newLabel (some n)
  refine ⟨_, inv', grows, ⟨here.ends.mono grows.depth, here.slots, here.live⟩, fun φ mem => ?_⟩
  simp only [List.mem_cons, List.not_mem_nil, or_false] at mem
  rcases mem with rfl | rfl
  · exact deep
  · refine ⟨by simp, fun o ho => ?_⟩
    exact absurd (inv.sources o _ ho).1 (lt_irrefl _)

/-- The places that marks have are not behind the code. -/
theorem Invariant.position_le (inv : Invariant c v s) {l : Label} {p : Nat}
    (h : s.assembler.position? l = some p) : p ≤ span v.items := by
  have le := ((inv.held.coded.marks l p).mp h).le
  rw [Item.size] at le
  omega

/-- The invariant behind a mark. A label of a source offset may be marked once the offset counts as
marked. -/
theorem Invariant.mark {l : Label} {a : Assembler} (inv : Invariant c v s)
    (run : Asm.mark l s.assembler = .ok ((), a)) (fine : a.error = none)
    (owned : ∀ o : Int, s.labels[o]? = some l → s.marked.contains o = true) :
    Invariant c { v with items := .mark l :: v.items } { s with assembler := a } ∧
      Grows v s { v with items := .mark l :: v.items } { s with assembler := a } ∧
      a.position? l = some (span v.items) := by
  obtain ⟨t, known, unmarked, -⟩ := Asm.mark_eq_ok run
  have unplaced : s.assembler.position? l = none := by simp [Assembler.position?, known, unmarked]
  obtain ⟨held, positions, size, handlers⟩ := inv.held.mark run fine
  have old {l' : Label} {p : Nat} (h : s.assembler.position? l' = some p) :
      a.position? l' = some p := by
    rw [positions, if_neg, h]
    rintro rfl
    simp [unplaced] at h
  refine ⟨{ inv with held, within := ?_, fresh := ?_, sources := ?_, guards := ?_ },
    { Grows.refl v s with labels := size.ge, positions := fun _ _ => old, later := ?_ }, ?_⟩
  · intro p' op o n e i stands named
    rcases stands_cons.mp stands with older | ⟨-, same⟩
    · exact inv.within p' op o n e i older named
    · cases same
  · exact fun l' hl => inv.fresh l' (size ▸ hl)
  · intro o l' hl
    obtain ⟨lt, depth, open_⟩ := inv.sources o l' hl
    refine ⟨size ▸ lt, depth, fun notMarked => ?_⟩
    rw [positions, if_neg, open_ notMarked]
    rintro rfl
    simp [owned o hl] at notMarked
  · intro h mem
    obtain ⟨depth, p, hp, ordered⟩ := inv.guards h (handlers ▸ mem)
    refine ⟨depth, p, old hp, ordered.imp_left fun le q hq => ?_⟩
    rw [positions] at hq
    split at hq
    · cases hq
      exact inv.position_le hp
    · exact le q hq
  · intro l' q hq
    rw [positions] at hq
    split at hq
    · cases hq
      exact .inr fun _ _ h => inv.position_le h
    · exact .inl hq
  · rw [positions, if_pos rfl]

/-- Marking a label that belongs to no source offset, or to one that counts as marked. -/
theorem moves_markBy {l : Label} (deep : .deep l d ∈ Γ)
    (owned : ∀ v s, Invariant c v s → (∀ φ ∈ Γ, φ.Holds v s) →
      ∀ o : Int, s.labels[o]? = some l → s.marked.contains o = true) :
    Moves c Γ (mark l) ⟨some d, m, b⟩ ⟨some d, m, b⟩ fun _ => [.placed l] := by
  refine .step fun s x s' run fine => ?_
  obtain ⟨a, done, rfl⟩ := assemble_eq_ok run
  refine ⟨⟨fine.1, Asm.error_mark done fine.2⟩, fun v inv here facts => ?_⟩
  obtain ⟨inv', grows, place⟩ := inv.mark done fine.2 (owned v s inv facts)
  refine ⟨_, inv', grows, ⟨⟨facts _ deep, here.ends⟩, here.slots, here.live⟩, fun φ mem => ?_⟩
  rw [List.mem_singleton] at mem
  subst mem
  rw [Fact.Holds, place]
  rfl

theorem moves_mark {l : Label} (deep : .deep l d ∈ Γ) (inner : .inner l ∈ Γ) :
    Moves c Γ (mark l) ⟨some d, m, b⟩ ⟨some d, m, b⟩ fun _ => [.placed l] :=
  moves_markBy deep fun _ _ _ facts o ho => absurd ho ((facts _ inner).2 o)

theorem moves_markAfter {l e : Label} (deep : .deep l d ∈ Γ) (inner : .inner l ∈ Γ)
    (placed : .placed e ∈ Γ) :
    Moves c Γ (mark l) ⟨some d, m, b⟩ ⟨some d, m, b⟩ fun _ => [.before e l] := by
  refine .step fun s x s' run fine => ?_
  obtain ⟨a, done, rfl⟩ := assemble_eq_ok run
  refine ⟨⟨fine.1, Asm.error_mark done fine.2⟩, fun v inv here facts => ?_⟩
  obtain ⟨-, own⟩ := facts _ inner
  obtain ⟨inv', grows, place⟩ := inv.mark done fine.2 fun o ho => absurd ho (own o)
  refine ⟨_, inv', grows, ⟨⟨facts _ deep, here.ends⟩, here.slots, here.live⟩, fun φ mem => ?_⟩
  rw [List.mem_singleton] at mem
  subst mem
  obtain ⟨p, hp⟩ := Option.isSome_iff_exists.mp (facts _ placed)
  refine ⟨p, grows.positions e p hp, fun q hq => ?_⟩
  cases place.symm.trans hq
  exact inv.position_le hp

theorem moves_branch (k j : Nat) {l : Label} (deep : .deep l (d + j) ∈ Γ)
    (shape : op.shape = .branch) (enough : op.operandsNeeded ≤ k)
    (effect : (k : Int) + op.stackEffect = j) :
    Moves c Γ (branch op l) ⟨some (d + k), m, b⟩ ⟨some (d + j), m, b⟩ fun _ => [] := by
  refine moves_line (o := op) (fun _ _ => Asm.error_jump) (fun _ => rfl)
    fun v s a inv facts run fine => ?_
  obtain ⟨held, kept⟩ := inv.held.jump shape run fine
  exact ⟨_, _, _, held, kept, enough, effect, ⟨d + j, facts _ deep, by push_cast; rfl⟩, trivial⟩

theorem moves_goto {l : Label} (deep : .deep l d ∈ Γ) :
    Moves c Γ (branch .goto l) ⟨some d, m, b⟩ ⟨none, m, b⟩ fun _ => [] := by
  refine moves_line (o := .goto) (k := 0) (j := 0) (fun _ _ => Asm.error_jump)
    (fun continues => by cases continues) fun v s a inv facts run fine => ?_
  obtain ⟨held, kept⟩ := inv.held.jump rfl run fine
  exact ⟨_, _, _, held, kept, le_rfl, rfl, ⟨d, facts _ deep, by push_cast; ring⟩, trivial⟩

/-- Registering an exception table entry. -/
theorem moves_tryBy (deep : .deep target 1 ∈ Γ)
    (placed : ∀ v s, Invariant c v s → (∀ φ ∈ Γ, φ.Holds v s) →
      ∃ p, s.assembler.position? start = some p ∧
        ((∀ q, s.assembler.position? stop = some q → p ≤ q) ∨
          ∃ o ∈ c.early, s.labels[o]? = some stop ∧ s.marked.contains o = true)) :
    Moves c Γ (tryCatch start stop target catches) p p fun _ => [] := by
  refine .step fun s x s' run fine => ?_
  obtain ⟨a, done, rfl⟩ := assemble_eq_ok run
  obtain rfl : { s.assembler with
      handlers := s.assembler.handlers.push ⟨start, stop, target, catches⟩ } = a := by
    cases done
    rfl
  refine ⟨fine, fun v inv here facts => ⟨v, ?_, ?_, ⟨here.ends, here.slots, here.live⟩, by simp⟩⟩
  · refine { inv with held := ⟨?_, inv.held.keyed⟩, guards := ?_ }
    · exact inv.held.coded.of_bytes rfl rfl (.refl _)
    · intro h mem
      rcases Array.mem_push.mp mem with old | rfl
      · exact inv.guards h old
      · exact ⟨facts _ deep, placed v s inv facts⟩
  · exact grows_assembler (fun _ => rfl) le_rfl

theorem moves_tryCatch (deep : .deep target 1 ∈ Γ) (ordered : .before start stop ∈ Γ) :
    Moves c Γ (tryCatch start stop target catches) p p fun _ => [] := by
  refine moves_tryBy deep fun v s _ facts => ?_
  obtain ⟨p, hp, le⟩ := facts _ ordered
  exact ⟨p, hp, .inl le⟩

/-- The depth that the facts give for a label. -/
class Deep (Γ : List Fact) (l : Label) (n : outParam Nat) : Prop where
  mem : .deep l n ∈ Γ

/-- The operands of a conditional branch. -/
class Tests (op : Opcode) (k : outParam Nat) : Prop where
  tests : op.shape = .branch ∧ op.operandsNeeded ≤ k ∧ (k : Int) + op.stackEffect = 0

instance [h : Among op [.ifnull, .ifnonnull, .ifeq, .ifne]] : Tests op 1 :=
  ⟨(by decide : ∀ op ∈ _, op.shape = .branch ∧ op.operandsNeeded ≤ 1 ∧ (1 : Int) + op.stackEffect = 0)
    op h.mem⟩

instance [h : Among op [.ifAcmpeq, .ifAcmpne, .ifIcmpge, .ifIcmpne]] : Tests op 2 :=
  ⟨(by decide : ∀ op ∈ _, op.shape = .branch ∧ op.operandsNeeded ≤ 2 ∧ (2 : Int) + op.stackEffect = 0)
    op h.mem⟩

section Labels

variable {l : Label} {Φ : List Fact} {φ : Fact}

instance [h : Deep Γ l n] : Deep (φ :: Γ) l n := ⟨.tail φ h.mem⟩

instance : Deep (.deep l n :: Γ) l n := ⟨.head Γ⟩

instance [h : Deep Γ l n] : Deep (Φ ++ Γ) l n := ⟨List.mem_append_right Φ h.mem⟩

instance [h : Among (.deep l d) Γ] [h' : Among (.inner l) Γ] :
    Leads c Γ (mark l) ⟨some d, m, b⟩ ⟨some d, m, b⟩ :=
  ⟨(moves_mark h.mem h'.mem).weaken (by simp)⟩

-- where control does not get, the mark has the depth of its label
instance [h : Deep Γ l n] [h' : Among (.inner l) Γ] :
    Leads c Γ (mark l) ⟨none, m, b⟩ ⟨some n, m, b⟩ :=
  ⟨.dead ((moves_mark h.mem h'.mem).weaken (by simp))⟩

instance [h : Among (.deep l d) Γ] : Leads c Γ (branch .goto l) ⟨some d, m, b⟩ ⟨none, m, b⟩ :=
  ⟨moves_goto h.mem⟩

instance [t : Tests op k] [hd : Splits k e d] [h : Among (.deep l d) Γ] :
    Leads c Γ (branch op l) ⟨some e, m, b⟩ ⟨some d, m, b⟩ := by
  rw [hd.eq]
  exact ⟨moves_branch k 0 h.mem t.tests.1 t.tests.2.1 t.tests.2.2⟩

/-- A new label is given the depth that it will be marked with. -/
theorem Moves.label (n : Nat) {g : Label → Lowering β} {Δ : β → List Fact}
    (h : ∀ l, Moves c (.deep l n :: .inner l :: Γ) (g l) p q Δ) :
    Moves c Γ (newLabel >>= g) p q Δ :=
  (moves_newLabel n).bind h

/-- What is known of the label that ends a protected region. Its mark is not passed as others are: it
has to be known to stand behind the beginning of the region. -/
def ending (l : Label) (n : Nat) : List Fact := [.deep l n, .inner l]

theorem Moves.ending (n : Nat) {g : Label → Lowering β} {Δ : β → List Fact}
    (h : ∀ l, Moves c (ending l n ++ Γ) (g l) p q Δ) : Moves c Γ (newLabel >>= g) p q Δ :=
  (moves_newLabel n).bind h

instance [h : Among (.deep target 1) Γ] [h' : Among (.before start stop) Γ] :
    Leads c Γ (tryCatch start stop target catches) p p :=
  ⟨moves_tryCatch h.mem h'.mem⟩

end Labels

/-! ## Loops -/

theorem moves_times {x : Lowering Unit} (at_ : Nat → Point) (n : Nat)
    (h : ∀ i, Moves c Γ x (at_ (i + 1)) (at_ i) fun _ => []) :
    Moves c Γ (times n x) (at_ n) (at_ 0) fun _ => [] := by
  induction n with
  | zero => exact .pure ()
  | succ n ih => exact .seq (h n) fun _ => ih

/-- A loop that goes up with every element. -/
theorem moves_forM {x : α → Lowering Unit} (at_ : Nat → Point) (xs : List α) (n : Nat)
    (h : ∀ y ∈ xs, ∀ i, Moves c Γ (x y) (at_ i) (at_ (i + 1)) fun _ => []) :
    Moves c Γ (xs.forM x) (at_ n) (at_ (n + xs.length)) fun _ => [] := by
  induction xs generalizing n with
  | nil => exact .pure ()
  | cons y xs ih =>
    have rest := ih (n + 1) fun z hz => h z (List.mem_cons_of_mem y hz)
    rw [List.length_cons, show n + (xs.length + 1) = n + 1 + xs.length by omega]
    exact .seq (h y List.mem_cons_self n) fun _ => rest

/-- A loop that goes down with every element. -/
theorem moves_forMDown {x : α → Lowering Unit} (at_ : Nat → Point) (xs : List α)
    (h : ∀ y ∈ xs, ∀ i, Moves c Γ (x y) (at_ (i + 1)) (at_ i) fun _ => []) :
    Moves c Γ (xs.forM x) (at_ xs.length) (at_ 0) fun _ => [] := by
  induction xs with
  | nil => exact .pure ()
  | cons y xs ih =>
    exact .seq (h y List.mem_cons_self xs.length) fun _ =>
      ih fun z hz => h z (List.mem_cons_of_mem y hz)

/-- A loop that stays where it is. -/
theorem moves_forMSame {x : α → Lowering Unit} (xs : List α)
    (h : ∀ y ∈ xs, Moves c Γ (x y) p p fun _ => []) : Moves c Γ (xs.forM x) p p fun _ => [] :=
  moves_forMDown (fun _ => p) xs fun y hy _ => h y hy

/-- A loop that takes locals. -/
theorem moves_mapM {x : α → Lowering β} (index : β → Int) (xs : List α)
    (h : ∀ y Γ, Moves c Γ (x y) p p fun z => [.locals [index z]]) :
    Moves c Γ (xs.mapM x) p p fun zs => [.locals (zs.map index), .prop (zs.length = xs.length)] := by
  induction xs generalizing Γ with
  | nil =>
    refine .ret fun v s _ φ mem => ?_
    simp only [List.mem_cons, List.not_mem_nil, or_false] at mem
    rcases mem with rfl | rfl
    · simp [Fact.Holds]
    · rfl
  | cons y xs ih =>
    rw [List.mapM_cons]
    refine (h y Γ).bind fun z => ih.bind fun zs => .ret fun v s facts φ mem => ?_
    have here := facts (.locals [index z]) (by simp)
    have others := facts (.locals (zs.map index)) (by simp)
    have length := facts (.prop (zs.length = xs.length)) (by simp)
    simp only [List.mem_cons, List.not_mem_nil, or_false] at mem
    rcases mem with rfl | rfl
    · intro i hi
      rcases List.mem_cons.mp hi with rfl | old
      · exact here _ List.mem_cons_self
      · exact others i old
    · exact congrArg (· + 1) length

/-! ## Idioms -/

instance (name : String) : Shifts (Lowering.cast name) 1 1 0 0 := by
  unfold Lowering.cast
  exact ⟨.leads⟩

instance (name : String) : Shifts (castUnder name) 2 2 0 0 := by
  unfold castUnder
  exact ⟨.leads⟩

instance (text : String) : Shifts (pushStr text) 0 1 0 0 := by
  unfold pushStr
  exact ⟨.leads⟩

instance {cls : String} (n : Int) [Shifts (invokeSpecial (Library.collectionInit cls)) 2 0 0 0] :
    Shifts (newCollection cls n) 0 1 0 0 := by
  unfold newCollection
  exact ⟨.leads⟩

instance {cls : String} [Shifts (invoke (Library.reverseAdd cls)) 2 0 0 0] :
    Shifts (reverseAdd cls) 2 1 0 0 := by
  unfold reverseAdd
  exact ⟨.leads⟩

instance (n : Nat) : Shifts (packArguments n) n 1 0 0 := by
  unfold packArguments
  refine ⟨@fun c Γ d m b => .on ?_⟩
  exact moves_times (fun i => ⟨some (d + i + 1), m, b⟩) n fun i => .leads

instance : Shifts callPacked 2 1 0 0 := by
  unfold callPacked
  exact ⟨.leads⟩

instance (method : String) : Shifts (callUnary method) 1 1 0 0 := by
  unfold callUnary
  exact ⟨.leads⟩

instance : Shifts callerInstance 0 1 0 0 := by
  refine ⟨@fun c Γ d m b => .read ?_⟩
  split
  · rename_i some_
    refine moves_load .ref fun v s inv _ => ?_
    have arguments := inv.arguments
    have slots := inv.slots
    simp only [Function.slotBase, Function.hostLocal] at slots ⊢
    omega
  · exact .leads

end HostLowering.Lower
