import HostLowering.Proofs.Machine.Scan

set_option autoImplicit false

/-! # Paths through a method

The verifier against the paths of a method. A *state* is an offset with a depth of the stack. A path
starts at offset zero with nothing on the stack, or at the target of an exception table entry with
the thrown value, and continues by branching or by falling through; `Reaches` is the set of states
on such paths. A state is `Admissible` when the instruction at its offset may execute at its depth.
A method is `Safe` when the code splits, every exception table entry has a proper range, every
reached state is admissible and no offset is reached at two depths.
-/

namespace HostLowering.Machine

variable {m : Method} {i : Instruction} {needed : Nat} {effect : Int}

/-! ## States and edges -/

def Operand.local? : Operand → Option Nat
  | slot i | increment i _ => some i
  | _ => none

/-- The operands an instruction needs on the stack and its net effect on the depth: those of the
opcode, or for an invocation those of the method it names, which has to be in the pool. -/
inductive Uses (m : Method) : Instruction → Nat → Int → Prop where
  | invocation {op : Opcode} {k : Nat} {r : MethodRef} (invoke : op.isInvoke = true)
      (entry : m.methodAt k = .ok r) :
      Uses m ⟨op, .constant k⟩ (r.operandCount op) (r.stackEffect op)
  | other {op : Opcode} {o : Operand} (plain : op.isInvoke = false) :
      Uses m ⟨op, o⟩ op.operandsNeeded op.stackEffect

/-- The states that follow a state: the target of a branch and the next instruction, both at the
depth after the instruction. -/
inductive Edge (m : Method) (pc d : Nat) : Int → Nat → Prop where
  | branch {i : Instruction} {needed d' : Nat} {effect distance : Int}
      (decoded : instructionAt m.code pc = .ok i) (use : Uses m i needed effect)
      (operand : i.operand = .branch distance) (after : (d' : Int) = d + effect) :
      Edge m pc d (↑(pc + i.opcode.size) + distance) d'
  | next {i : Instruction} {needed d' : Nat} {effect : Int}
      (decoded : instructionAt m.code pc = .ok i) (use : Uses m i needed effect)
      (continues : i.opcode.isTerminal = false) (after : (d' : Int) = d + effect) :
      Edge m pc d ↑(pc + i.opcode.size) d'

/-- The states on the paths through a method. -/
inductive Reaches (m : Method) : Int → Nat → Prop where
  | entry : Reaches m 0 0
  | handler {h : Handler} (mem : h ∈ m.handlers) : Reaches m h.target 1
  | step {pc d d' : Nat} {pc' : Int} (before : Reaches m pc d) (edge : Edge m pc d pc' d') :
      Reaches m pc' d'

/-- An instruction at an offset may execute at a depth: the stack holds its operands (the method it
invokes is in the pool), the local it names exists, and if control continues behind it there is
code. -/
structure Executable (m : Method) (pc : Nat) (i : Instruction) (d : Nat) : Prop where
  operands : ∃ needed effect, Uses m i needed effect ∧ needed ≤ d
  inLocals : ∀ k, i.operand.local? = some k → (k : Int) < m.maxLocals
  stays : i.opcode.isTerminal = false → pc + i.opcode.size < m.code.size

/-- The offset of the state starts an instruction, which may execute at the depth of the state. -/
def Admissible (m : Method) (pc : Int) (d : Nat) : Prop :=
  ∃ n : Nat, pc = n ∧ InstructionStart m.code n ∧
    ∃ i, instructionAt m.code n = .ok i ∧ Executable m n i d

/-- The range of an exception table entry lies in the code and is not empty. -/
def Handler.Proper (m : Method) (h : Handler) : Prop :=
  0 ≤ h.start ∧ h.start < h.stop ∧ h.stop ≤ m.code.size

/-- A method all of whose paths are fine. -/
structure Safe (m : Method) : Prop where
  splits : Splits m.code 0
  proper : ∀ h ∈ m.handlers, h.Proper m
  admissible : ∀ pc d, Reaches m pc d → Admissible m pc d
  agrees : ∀ pc d d', Reaches m pc d → Reaches m pc d' → d = d'

/-! ## One instruction -/

theorem Opcode.neg_operandsNeeded_le {op : Opcode} (h : op.isInvoke = false) :
    -(op.operandsNeeded : Int) ≤ op.stackEffect := by
  cases op <;> simp_all [isInvoke, operandsNeeded, stackEffect]

theorem Opcode.shape_of_isInvoke {op : Opcode} (h : op.isInvoke = true) : op.shape = .constant := by
  cases op <;> simp_all [isInvoke, shape]

theorem Uses.unique {n n' : Nat} {e e' : Int} (h : Uses m i n e) (h' : Uses m i n' e') :
    n = n' ∧ e = e' := by
  cases h with
  | invocation invoke entry =>
    cases h' with
    | invocation _ entry' =>
      cases entry.symm.trans entry'
      exact ⟨rfl, rfl⟩
    | other plain => simp [invoke] at plain
  | other plain =>
    cases h' with
    | invocation invoke _ => simp [invoke] at plain
    | other _ => exact ⟨rfl, rfl⟩

/-- The verifier's table on an instruction whose operand has the shape of its opcode. -/
theorem stackUse_eq_ok_iff (shape : i.operand.shape = i.opcode.shape) :
    stackUse m i = .ok (needed, effect) ↔ Uses m i needed effect := by
  constructor
  · intro use
    obtain ⟨op, o⟩ := i
    unfold stackUse at use
    split at use
    · rename_i k invoke ho
      obtain rfl : o = .constant k := ho
      cases hr : m.methodAt k with
      | error e => simp [hr, bind, Except.bind] at use
      | ok r =>
        simp only [hr, bind, Except.bind, pure, Except.pure, Except.ok.injEq,
          Prod.mk.injEq] at use
        obtain ⟨rfl, rfl⟩ := use
        exact .invocation invoke hr
    · rename_i other
      simp only [Except.ok.injEq, Prod.mk.injEq] at use
      obtain ⟨rfl, rfl⟩ := use
      -- an invocation carries a constant, so the marker for its effect is never read here
      refine .other (Bool.eq_false_iff.mpr fun invoke => ?_)
      rw [Opcode.shape_of_isInvoke invoke] at shape
      cases o with
      | constant k => exact other k invoke rfl
      | plain | short | slot | increment | branch => simp [Operand.shape] at shape
  · intro use
    cases use with
    | invocation invoke entry => simp [stackUse, invoke, entry, bind, Except.bind, pure, Except.pure]
    | other plain => simp [stackUse, plain]

/-- An instruction takes no more from the stack than it needs. -/
theorem Uses.neg_needed_le (use : Uses m i needed effect) : -(needed : Int) ≤ effect := by
  cases use with
  | invocation _ _ =>
    unfold MethodRef.stackEffect
    split <;> omega
  | other plain => exact Opcode.neg_operandsNeeded_le plain

/-- The depth after an instruction exists exactly where its operands and its local do. -/
theorem depthAfter_eq_ok_iff {pc d d' : Nat} (shape : i.operand.shape = i.opcode.shape) :
    depthAfter m pc i d = .ok d' ↔
      ∃ needed effect, Uses m i needed effect ∧ needed ≤ d ∧
        (∀ k, i.operand.local? = some k → (k : Int) < m.maxLocals) ∧ (d' : Int) = d + effect := by
  simp only [← stackUse_eq_ok_iff shape]
  unfold depthAfter
  cases use : stackUse m i with
  | error e => simp [bind, Except.bind]
  | ok p =>
    obtain ⟨needed, effect⟩ := p
    have down := ((stackUse_eq_ok_iff shape).mp use).neg_needed_le
    by_cases short : d < needed
    · simp [bind, Except.bind, short, throw, throwThe, MonadExceptOf.throw]
    · have depth : ((d : Int) + effect).toNat = d' ↔ (d' : Int) = d + effect := by omega
      cases i.operand with
      | slot k | increment k _ =>
        by_cases outside : m.maxLocals ≤ k
        · simp [bind, Except.bind, short, throw, throwThe, MonadExceptOf.throw, Operand.local?,
            outside]
        · simp [bind, Except.bind, short, pure, Except.pure, Operand.local?, outside, depth,
            Nat.not_lt.mp short, Int.not_le.mp outside]
      | plain | short | constant | branch =>
        simp [bind, Except.bind, short, pure, Except.pure, Operand.local?, depth,
          Nat.not_lt.mp short]

/-- The edges out of a state whose instruction and depth afterwards are known. -/
theorem Edge.resolve {pc d e d' : Nat} {pc' : Int} (edge : Edge m pc d pc' d')
    (decoded : instructionAt m.code pc = .ok i) (use : Uses m i needed effect)
    (after : (e : Int) = d + effect) :
    (d' = e ∧ ∃ t, i.operand = .branch t ∧ pc' = ↑(pc + i.opcode.size) + t) ∨
      (d' = e ∧ i.opcode.isTerminal = false ∧ pc' = ↑(pc + i.opcode.size)) := by
  cases edge with
  | branch decoded' use' operand after' =>
    obtain rfl : _ = i := Except.ok.inj (decoded'.symm.trans decoded)
    obtain ⟨rfl, rfl⟩ := use'.unique use
    exact .inl ⟨by omega, _, operand, rfl⟩
  | next decoded' use' continues after' =>
    obtain rfl : _ = i := Except.ok.inj (decoded'.symm.trans decoded)
    obtain ⟨rfl, rfl⟩ := use'.unique use
    exact .inr ⟨by omega, continues, rfl⟩

end HostLowering.Machine
