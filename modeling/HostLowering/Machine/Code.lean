import HostLowering.Machine.Method

set_option autoImplicit false

/-! # Reading code

Decoding one instruction at an offset: the opcode byte and its operand, little-endian. Reading
past the end of the code is the defect `codeUnderflow`. `InstructionStart` is the set of offsets
at which a scan from offset zero finds an instruction.
-/

namespace HostLowering.Machine

inductive Operand where
  | plain
  | short (n : Int)
  | slot (index : Nat)
  | increment (index : Nat) (step : Int)
  | constant (index : Nat)
  | branch (distance : Int)
deriving DecidableEq, Repr, Inhabited

structure Instruction where
  opcode : Opcode
  operand : Operand
deriving DecidableEq, Repr, Inhabited

def byteAt (code : Array UInt8) (pos : Nat) : Except Defect UInt8 :=
  match code[pos]? with
  | some b => .ok b
  | none => .error .codeUnderflow

/-- The unsigned 16-bit number at an offset, low byte first. -/
def wordAt (code : Array UInt8) (pos : Nat) : Except Defect Nat := do
  let lo ← byteAt code pos
  let hi ← byteAt code (pos + 1)
  return lo.toNat + 256 * hi.toNat

/-- A 16-bit number read as signed. -/
def signed16 (n : Nat) : Int := (n : Int).bmod 65536

/-- An 8-bit number read as signed. -/
def signed8 (n : Nat) : Int := (n : Int).bmod 256

def operandAt (code : Array UInt8) (pos : Nat) : Opcode.Shape → Except Defect Operand
  | .plain => .ok .plain
  | .short => return .short (signed16 (← wordAt code pos))
  | .slot => return .slot (← wordAt code pos)
  | .increment => do
    let i ← wordAt code pos
    let d ← byteAt code (pos + 2)
    return .increment i (signed8 d.toNat)
  | .constant => return .constant (← wordAt code pos)
  | .branch => return .branch (signed16 (← wordAt code pos))

def instructionAt (code : Array UInt8) (pos : Nat) : Except Defect Instruction := do
  let op := Opcode.ofByte (← byteAt code pos)
  return ⟨op, ← operandAt code (pos + 1) op.shape⟩

/-- The number of bytes of an instruction with the given opcode. -/
def Opcode.size (op : Opcode) : Nat := 1 + op.operandBytes

theorem Opcode.size_pos (op : Opcode) : 0 < op.size := by
  unfold Opcode.size; omega

/-- The opcodes met by scanning the code from an offset, skipping operands, behind those already
found. An operand cut short by the end of the code ends the scan. -/
def opcodesFrom (code : Array UInt8) (pos : Nat) (found : Array Opcode) : Array Opcode :=
  if h : pos < code.size then
    opcodesFrom code (pos + (Opcode.ofByte code[pos]).size) (found.push (Opcode.ofByte code[pos]))
  else found
termination_by code.size - pos
decreasing_by
  have := Opcode.size_pos (Opcode.ofByte code[pos])
  omega

def opcodes (code : Array UInt8) : Array Opcode := opcodesFrom code 0 #[]

/-- The offsets at which a scan from offset zero finds an instruction. -/
inductive InstructionStart (code : Array UInt8) : Nat → Prop where
  | zero (h : 0 < code.size) : InstructionStart code 0
  | next {pos : Nat} (h : pos < code.size) (start : InstructionStart code pos)
      (more : pos + (Opcode.ofByte code[pos]).size < code.size) :
      InstructionStart code (pos + (Opcode.ofByte code[pos]).size)

end HostLowering.Machine
