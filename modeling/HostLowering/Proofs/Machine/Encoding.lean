import HostLowering.Machine.Assembler
import HostLowering.Proofs.Machine.Scan

set_option autoImplicit false

/-! # Bytes of instructions

What the reader finds in the bytes that the assembler writes. An instruction is read from its own
bytes alone (`instructionAt_congr`), so it survives whatever is appended or patched elsewhere. An
operand of two bytes is read back as the number that was written, unsigned or signed by its shape.
-/

namespace HostLowering.Machine

open Assembler

variable {code code' : Array UInt8} {p : Nat} {op : Opcode} {n : Int}

theorem Opcode.ofByte_toByte (known : op.isKnown = true) : Opcode.ofByte op.toByte = op := by
  cases op <;> first | rfl | cases known

/-! ## Numbers of two bytes -/

theorem toNat_lowByte (n : Int) : ((lowByte n).toNat : Int) = n % 256 := by
  simp only [lowByte, UInt8.ofInt, UInt8.toNat_ofNat']
  omega

theorem toNat_highByte (n : Int) : ((highByte n).toNat : Int) = n / 256 % 256 := by
  simp only [highByte, UInt8.ofInt, UInt8.toNat_ofNat']
  omega

theorem toNat_bytes (n : Int) :
    (((lowByte n).toNat + 256 * (highByte n).toNat : Nat) : Int) = n % 65536 := by
  have low := toNat_lowByte n
  have high := toNat_highByte n
  push_cast
  omega

/-- A number is written at an offset, low byte first. -/
def Word (code : Array UInt8) (p : Nat) (n : Int) : Prop :=
  code[p]? = some (lowByte n) ∧ code[p + 1]? = some (highByte n)

theorem byteAt_of_getElem? {b : UInt8} (h : code[p]? = some b) : byteAt code p = .ok b := by
  simp [byteAt, h]

theorem Word.wordAt (h : Word code p n) : wordAt code p = .ok (n % 65536).toNat := by
  have value := toNat_bytes n
  unfold Machine.wordAt
  rw [byteAt_of_getElem? h.1, byteAt_of_getElem? h.2]
  exact congrArg Except.ok (by omega)

theorem signed16_toNat {d : Int} (low : -32768 ≤ d) (high : d ≤ 32767) :
    signed16 (d % 65536).toNat = d := by
  unfold signed16
  rw [Int.toNat_of_nonneg (by omega), Int.bmod_def]
  omega

/-! ## Instructions -/

def Agree (code code' : Array UInt8) (p n : Nat) : Prop :=
  ∀ i, p ≤ i → i < p + n → code'[i]? = code[i]?

theorem byteAt_congr {n : Nat} (h : Agree code code' p n) {i : Nat} (low : p ≤ i)
    (high : i < p + n) : byteAt code' i = byteAt code i := by
  unfold byteAt
  rw [h i low high]

theorem operandAt_congr {shape : Opcode.Shape} (h : Agree code code' p shape.width) :
    operandAt code' p shape = operandAt code p shape := by
  have byte (i : Nat) (hi : i < shape.width) : byteAt code' (p + i) = byteAt code (p + i) :=
    byteAt_congr h (by omega) (by omega)
  have word (two : 2 ≤ shape.width) : wordAt code' p = wordAt code p := by
    unfold wordAt
    rw [show p = p + 0 from rfl, byte 0 (by omega), Nat.add_assoc, byte 1 (by omega)]
  cases shape with
  | plain => rfl
  | increment => simp only [operandAt, word (by decide), byte 2 (by decide)]
  | short | slot | constant | branch => simp only [operandAt, word (by decide)]

theorem instructionAt_eq_ok {i : Instruction} :
    instructionAt code p = .ok i ↔ ∃ b, byteAt code p = .ok b ∧ Opcode.ofByte b = i.opcode ∧
      operandAt code (p + 1) i.opcode.shape = .ok i.operand := by
  obtain ⟨op, o⟩ := i
  unfold instructionAt
  cases byteAt code p with
  | error e => simp [bind, Except.bind]
  | ok b =>
    simp only [bind, Except.bind, Except.ok.injEq, exists_eq_left']
    constructor
    · intro h
      cases read : operandAt code (p + 1) (Opcode.ofByte b).shape with
      | error e => simp [read] at h
      | ok o' =>
        simp only [read, pure, Except.pure, Except.ok.injEq, Instruction.mk.injEq] at h
        obtain ⟨rfl, rfl⟩ := h
        exact ⟨rfl, read⟩
    · rintro ⟨rfl, read⟩
      rw [read]
      rfl

/-- An instruction is read from its own bytes. -/
theorem instructionAt_congr {i : Instruction} (h : instructionAt code p = .ok i)
    (agree : Agree code code' p i.opcode.size) : instructionAt code' p = .ok i := by
  have pos := i.opcode.size_pos
  obtain ⟨b, byte, op, operand⟩ := instructionAt_eq_ok.mp h
  have rest : Agree code code' (p + 1) i.opcode.shape.width := fun j low high =>
    agree j (by omega) (by simp only [Opcode.size, Opcode.operandBytes]; omega)
  exact instructionAt_eq_ok.mpr ⟨b, by rwa [byteAt_congr agree le_rfl (by omega)], op,
    by rwa [operandAt_congr rest]⟩

theorem instructionAt_of_operandAt {o : Operand} (known : op.isKnown = true)
    (byte : code[p]? = some op.toByte) (operand : operandAt code (p + 1) op.shape = .ok o) :
    instructionAt code p = .ok ⟨op, o⟩ :=
  instructionAt_eq_ok.mpr ⟨_, byteAt_of_getElem? byte, Opcode.ofByte_toByte known, operand⟩

/-- The operand that a number of two bytes stands for. -/
def Operand.ofWord (n : Int) : Opcode.Shape → Operand
  | .short => .short (signed16 (n % 65536).toNat)
  | .slot => .slot (n % 65536).toNat
  | .constant => .constant (n % 65536).toNat
  | .branch => .branch (signed16 (n % 65536).toNat)
  | .plain | .increment => .plain

/-- An opcode with a number of two bytes behind it. -/
theorem instructionAt_word (known : op.isKnown = true) (two : op.shape.width = 2)
    (byte : code[p]? = some op.toByte) (word : Word code (p + 1) n) :
    instructionAt code p = .ok ⟨op, .ofWord n op.shape⟩ := by
  refine instructionAt_of_operandAt known byte ?_
  cases shape : op.shape with
  | plain | increment => simp [shape, Opcode.Shape.width] at two
  | short | slot | constant | branch =>
    simp only [operandAt, word.wordAt]
    rfl

theorem byteAt_eq_ok {b : UInt8} : byteAt code p = .ok b ↔ code[p]? = some b := by
  unfold byteAt
  cases code[p]? <;> simp

/-- An opcode is read from one byte alone. -/
theorem byte_of_instructionAt {o : Operand} (h : instructionAt code p = .ok ⟨op, o⟩) :
    code[p]? = some op.toByte := by
  obtain ⟨b, byte, rfl, -⟩ := instructionAt_eq_ok.mp h
  have same : (Opcode.ofByte b).toByte = b := by
    unfold Opcode.ofByte
    split <;> rfl
  rw [same, ← byteAt_eq_ok, byte]

theorem wordAt_eq_ok {k : Nat} (h : wordAt code p = .ok k) : Word code p k ∧ k < 65536 := by
  unfold wordAt at h
  cases first : byteAt code p with
  | error e => simp [first, bind, Except.bind] at h
  | ok x =>
    cases second : byteAt code (p + 1) with
    | error e => simp [first, second, bind, Except.bind] at h
    | ok y =>
      simp only [first, second, bind, Except.bind, pure, Except.pure, Except.ok.injEq] at h
      have below := x.toNat_lt
      have above := y.toNat_lt
      have low := toNat_lowByte k
      have high := toNat_highByte k
      rw [Word, byteAt_eq_ok.mp first, byteAt_eq_ok.mp second]
      exact ⟨⟨congrArg some (UInt8.toNat_inj.mp (by omega)),
        congrArg some (UInt8.toNat_inj.mp (by omega))⟩, by omega⟩

theorem signed16_cases {k : Nat} (lt : k < 65536) :
    k < 32768 ∧ signed16 k = k ∨ 32768 ≤ k ∧ signed16 k = k - 65536 := by
  unfold signed16
  rw [Int.bmod_def]
  omega

/-- The distance of a branch that is read was written, and is one that an operand can hold. -/
theorem word_of_operandAt {d : Int} (h : operandAt code p .branch = .ok (.branch d)) :
    Word code p d ∧ -32768 ≤ d ∧ d ≤ 32767 := by
  cases word : wordAt code p with
  | error e => simp [operandAt, word, bind, Except.bind] at h
  | ok k =>
    simp only [operandAt, word, bind, Except.bind, pure, Except.pure, Except.ok.injEq,
      Operand.branch.injEq] at h
    obtain ⟨⟨first, second⟩, lt⟩ := wordAt_eq_ok word
    have value := signed16_cases lt
    rw [h] at value
    have low := toNat_lowByte d
    have low' := toNat_lowByte k
    have high := toNat_highByte d
    have high' := toNat_highByte k
    refine ⟨⟨first.trans (congrArg some (UInt8.toNat_inj.mp ?_)),
      second.trans (congrArg some (UInt8.toNat_inj.mp ?_))⟩, ?_⟩ <;> omega

/-- The distance of a branch is read back as it was written. -/
theorem operandAt_branch {d : Int} (low : -32768 ≤ d) (high : d ≤ 32767) (word : Word code p d) :
    operandAt code p .branch = .ok (.branch d) := by
  simp only [operandAt, word.wordAt, bind, Except.bind, pure, Except.pure, signed16_toNat low high]

theorem Operand.shape_ofWord {shape : Opcode.Shape} (two : shape.width = 2) :
    (Operand.ofWord n shape).shape = shape := by
  cases shape with
  | plain | increment => simp [Opcode.Shape.width] at two
  | short | slot | constant | branch => rfl

end HostLowering.Machine
