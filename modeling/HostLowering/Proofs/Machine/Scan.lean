import HostLowering.Machine.Verifier
import Mathlib.Tactic

set_option autoImplicit false

/-! # Splitting code into instructions

What the first pass of the verifier finds out. `Splits code pos` says that the code from `pos` on is
a sequence of known opcodes with all their operand bytes. The pass succeeds exactly when the whole
code splits (`instructionStarts_eq_ok`, `instructionStarts_of_splits`), and then it flags exactly
the offsets of `InstructionStart`. At each of them an instruction can be decoded whole
(`InstructionStart.decodes`).
-/

namespace HostLowering.Machine

/-- The code from an offset on splits into known opcodes with all their operand bytes. -/
inductive Splits (code : Array UInt8) : Nat → Prop where
  | done : Splits code code.size
  | instruction {pos : Nat} (h : pos < code.size)
      (known : (Opcode.ofByte code[pos]).isKnown = true)
      (rest : Splits code (pos + (Opcode.ofByte code[pos]).size)) : Splits code pos

variable {code : Array UInt8} {pos p q : Nat} {starts : Array Bool}

theorem Splits.le (h : Splits code pos) : pos ≤ code.size := by
  cases h with
  | done => exact le_rfl
  | instruction h _ _ => exact h.le

theorem Splits.uncons (h : Splits code pos) (lt : pos < code.size) :
    (Opcode.ofByte code[pos]).isKnown = true ∧
      Splits code (pos + (Opcode.ofByte code[pos]).size) := by
  cases h with
  | done => omega
  | instruction _ known rest => exact ⟨known, rest⟩

/-! ## Instruction starts -/

theorem InstructionStart.lt (h : InstructionStart code p) : p < code.size := by
  cases h with
  | zero h => exact h
  | next _ _ more => exact more

theorem InstructionStart.splits (whole : Splits code 0) (h : InstructionStart code p) :
    Splits code p := by
  induction h with
  | zero _ => exact whole
  | next lt _ _ ih => exact (ih.uncons lt).2

theorem InstructionStart.next_le (hp : InstructionStart code p) (lt : p < code.size)
    (hq : InstructionStart code q) (hpq : p < q) : p + (Opcode.ofByte code[p]).size ≤ q := by
  induction q using Nat.strong_induction_on generalizing p with
  | _ q ih =>
    cases hq with
    | zero _ => omega
    | @next r ltr hr more =>
      rcases Nat.lt_trichotomy p r with hpr | rfl | hrp
      · have hrq := Opcode.size_pos (Opcode.ofByte code[r])
        have := ih r (by omega) hp lt hr hpr
        omega
      · exact le_rfl
      · -- `p` would stand inside the instruction at `r`
        have := ih p hpq hr ltr hp hrp
        omega

/-! ## The first pass -/

/-- The flags stand for the instruction starts below an offset. -/
def Flags (code : Array UInt8) (starts : Array Bool) (pos : Nat) : Prop :=
  starts.size = code.size ∧ ∀ i, starts[i]? = some true ↔ InstructionStart code i ∧ i < pos

theorem flags_replicate (code : Array UInt8) : Flags code (Array.replicate code.size false) 0 := by
  refine ⟨by simp, fun i => ?_⟩
  simp [Array.getElem?_replicate]

/-- One step of the pass: the next instruction is flagged. -/
theorem Flags.step (flags : Flags code starts pos) (lt : pos < code.size)
    (start : InstructionStart code pos) :
    Flags code (starts.setIfInBounds pos true) (pos + (Opcode.ofByte code[pos]).size) := by
  obtain ⟨size, marked⟩ := flags
  have pos_lt := Opcode.size_pos (Opcode.ofByte code[pos])
  refine ⟨by simp [size], fun i => ?_⟩
  rw [Array.getElem?_setIfInBounds]
  by_cases hi : pos = i
  · subst hi
    simp [size, lt, start]
    omega
  · rw [if_neg hi, marked i]
    refine and_congr_right fun si => ⟨by omega, fun h => ?_⟩
    by_contra hge
    have := start.next_le lt si (by omega)
    omega

/-- The pass succeeds only on code that splits, and flags the instruction starts. -/
theorem startsFrom_eq_ok {starts' : Array Bool} (flags : Flags code starts pos)
    (here : pos < code.size → InstructionStart code pos)
    (h : startsFrom code pos starts = .ok starts') :
    Splits code pos ∧ Flags code starts' code.size := by
  fun_induction startsFrom code pos starts with
  | case1 pos starts lt op known ih =>
    have start := here lt
    obtain ⟨rest, flags'⟩ := ih (flags.step lt start) (fun more => .next lt start more) h
    exact ⟨.instruction lt known rest, flags'⟩
  | case2 => simp at h
  | case3 starts =>
    cases h
    exact ⟨.done, flags⟩
  | case4 => simp at h

theorem startsFrom_of_splits (h : Splits code pos) (starts : Array Bool) :
    ∃ starts', startsFrom code pos starts = .ok starts' := by
  induction h generalizing starts with
  | done => exact ⟨starts, by rw [startsFrom]; simp⟩
  | @instruction pos lt known _ ih =>
    obtain ⟨starts', h⟩ := ih (starts.setIfInBounds pos true)
    exact ⟨starts', by rw [startsFrom]; simp [lt, known, h]⟩

theorem instructionStarts_eq_ok (h : instructionStarts code = .ok starts) :
    Splits code 0 ∧ ∀ i, starts[i]? = some true ↔ InstructionStart code i := by
  obtain ⟨whole, _, marked⟩ := startsFrom_eq_ok (flags_replicate code) .zero h
  refine ⟨whole, fun i => ?_⟩
  rw [marked i]
  exact ⟨And.left, fun si => ⟨si, si.lt⟩⟩

theorem instructionStarts_of_splits (h : Splits code 0) :
    ∃ starts, instructionStarts code = .ok starts :=
  startsFrom_of_splits h _

/-! ## Decoding -/

def Operand.shape : Operand → Opcode.Shape
  | plain => .plain
  | short _ => .short
  | slot _ => .slot
  | increment .. => .increment
  | constant _ => .constant
  | branch _ => .branch

theorem byteAt_of_lt (lt : p < code.size) : byteAt code p = .ok code[p] := by
  simp [byteAt, lt]

theorem wordAt_of_lt (lt : p + 1 < code.size) : ∃ n, wordAt code p = .ok n := by
  unfold wordAt
  rw [byteAt_of_lt (by omega), byteAt_of_lt lt]
  exact ⟨_, rfl⟩

/-- An operand whose bytes are all there can be read, and has the shape it is read by. -/
theorem operandAt_of_le {shape : Opcode.Shape} (le : p + shape.width ≤ code.size) :
    ∃ o, operandAt code p shape = .ok o ∧ o.shape = shape := by
  have word (h : 2 ≤ shape.width) : ∃ n, wordAt code p = .ok n := wordAt_of_lt (by omega)
  cases shape with
  | plain => exact ⟨.plain, rfl, rfl⟩
  | increment =>
    obtain ⟨n, hn⟩ := word (by decide)
    have hb : byteAt code (p + 2) = .ok _ :=
      byteAt_of_lt (by simp only [Opcode.Shape.width] at le; omega)
    exact ⟨_, by simp only [operandAt, hn, hb]; rfl, rfl⟩
  | short | slot | constant | branch =>
    obtain ⟨n, hn⟩ := word (by decide)
    exact ⟨_, by simp only [operandAt, hn]; rfl, rfl⟩

theorem instructionAt_of_le (lt : p < code.size)
    (le : p + (Opcode.ofByte code[p]).size ≤ code.size) :
    ∃ o, instructionAt code p = .ok ⟨Opcode.ofByte code[p], o⟩ ∧
      o.shape = (Opcode.ofByte code[p]).shape := by
  have width : p + 1 + (Opcode.ofByte code[p]).shape.width ≤ code.size := by
    simp only [Opcode.size, Opcode.operandBytes] at le
    omega
  obtain ⟨o, ho, shape⟩ := operandAt_of_le width
  refine ⟨o, ?_, shape⟩
  simp only [instructionAt, byteAt_of_lt lt, bind, Except.bind, ho]
  rfl

/-- In code that splits, every instruction start decodes to a known opcode with an operand of its
shape, and the instruction ends within the code. -/
theorem InstructionStart.decodes (whole : Splits code 0) (h : InstructionStart code p) :
    ∃ i, instructionAt code p = .ok i ∧ i.opcode.isKnown = true ∧
      i.operand.shape = i.opcode.shape ∧ p + i.opcode.size ≤ code.size := by
  obtain ⟨known, rest⟩ := (h.splits whole).uncons h.lt
  obtain ⟨o, ho, shape⟩ := instructionAt_of_le h.lt rest.le
  exact ⟨_, ho, known, shape, rest.le⟩

/-- The opcode of a decoded instruction is that of the byte at its offset. -/
theorem opcode_of_instructionAt {i : Instruction} (lt : p < code.size)
    (h : instructionAt code p = .ok i) : i.opcode = Opcode.ofByte code[p] := by
  simp only [instructionAt, byteAt_of_lt lt, bind, Except.bind] at h
  split at h
  · cases h
  · cases h
    rfl

/-- The instruction behind another one starts where that one ends. -/
theorem InstructionStart.next_of_instructionAt {i : Instruction} (h : InstructionStart code p)
    (hi : instructionAt code p = .ok i) (more : p + i.opcode.size < code.size) :
    InstructionStart code (p + i.opcode.size) := by
  rw [opcode_of_instructionAt h.lt hi] at more ⊢
  exact .next h.lt h more

end HostLowering.Machine
