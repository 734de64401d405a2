import HostLowering.Machine.Code

set_option autoImplicit false

/-! # Stack-depth verification

The verifier computes the depth of the operand stack before every reachable instruction. It
accepts a method when the code splits into known instructions, every exception table entry has a
proper range, and along every path the stack holds the operands each instruction needs, locals
are below the declared number, control does not run off the end, and all ways to reach an
instruction agree on the depth. A path starts at offset zero with an empty stack, or at the
target of a handler with the thrown value alone.
-/

namespace HostLowering.Machine

/-- What is wrong with a method. -/
inductive VerifyCause where
  | unknownOpcode (byte : UInt8)
  | truncated
  | malformedRange
  | middleOfInstruction (target : Int)
  | depthMismatch (known found : Nat)
  | pool (e : PoolError)
  | missingOperands (op : Opcode) (needed found : Nat)
  | localOutOfRange (index : Nat) (maxLocals : Int)
  | fallsOffEnd
deriving DecidableEq, Repr

/-- A defect found by the verifier, at a code offset. -/
structure VerifyError where
  offset : Int
  cause : VerifyCause
deriving DecidableEq, Repr

def VerifyCause.message : VerifyCause → String
  | unknownOpcode b => "unknown opcode 0x" ++ Text.hexUpper 2 b.toNat
  | truncated => "truncated instruction"
  | malformedRange => "malformed exception range"
  | middleOfInstruction t => "branch into middle of instruction at " ++ Text.offset t
  | depthMismatch known found => s!"stack depth mismatch at join: {known} vs {found}"
  | pool e => e.message
  | missingOperands op needed found =>
    op.name ++ s!" needs {needed} operands, stack has {found}"
  | localOutOfRange i n => s!"local {i} exceeds max locals {n}"
  | fallsOffEnd => "control falls off the end of the method"

def VerifyError.message (e : VerifyError) : String :=
  "host: verify " ++ Text.offset e.offset ++ ": " ++ e.cause.message

/-! ## Splitting the code -/

/-- Mark the instruction starts from an offset on, in an array with one flag per code byte. -/
def startsFrom (code : Array UInt8) (pos : Nat) (starts : Array Bool) :
    Except VerifyError (Array Bool) :=
  if h : pos < code.size then
    let op := Opcode.ofByte code[pos]
    if op.isKnown then startsFrom code (pos + op.size) (starts.setIfInBounds pos true)
    else .error ⟨pos, .unknownOpcode code[pos]⟩
  else if pos = code.size then .ok starts
  else .error ⟨code.size, .truncated⟩
termination_by code.size - pos
decreasing_by
  have := Opcode.size_pos (Opcode.ofByte code[pos])
  omega

/-- The instruction starts of the code, one flag per byte. -/
def instructionStarts (code : Array UInt8) : Except VerifyError (Array Bool) :=
  startsFrom code 0 (Array.replicate code.size false)

/-! ## The effect of an instruction -/

/-- The operands an instruction needs and its net effect on the depth. -/
def stackUse (m : Method) (instr : Instruction) : Except PoolError (Nat × Int) :=
  match instr.opcode.isInvoke, instr.operand with
  | true, .constant i => do
    let r ← m.methodAt i
    return (r.operandCount instr.opcode, r.stackEffect instr.opcode)
  | _, _ => .ok (instr.opcode.operandsNeeded, instr.opcode.stackEffect)

/-- The depth after an instruction at offset `pc` executed at a depth, if it may execute there. -/
def depthAfter (m : Method) (pc : Nat) (instr : Instruction) (depth : Nat) :
    Except VerifyError Nat := do
  let (needed, effect) ← match stackUse m instr with
    | .ok use => Except.ok use
    | .error e => .error ⟨pc, .pool e⟩
  if depth < needed then throw ⟨pc, .missingOperands instr.opcode needed depth⟩
  match instr.operand with
  | .slot i | .increment i _ =>
    if m.maxLocals ≤ i then throw ⟨pc, .localOutOfRange i m.maxLocals⟩
  | _ => pure ()
  return (depth + effect).toNat

/-! ## The analysis -/

/-- The state of the analysis: the known depth before each offset, the offsets whose successors
are still to be visited, and the greatest depth so far. -/
structure Analysis where
  depth : Array (Option Nat)
  pending : List Nat := []
  maxStack : Nat := 0
deriving DecidableEq, Repr, Inhabited

namespace Analysis

/-- Enter an offset at a depth from the instruction at `source`. -/
def enter (starts : Array Bool) (source at_ : Int) (depth : Nat) (a : Analysis) :
    Except VerifyError Analysis :=
  if 0 ≤ at_ ∧ starts[at_.toNat]? = some true then
    match (a.depth[at_.toNat]?).join with
    | some known => if known = depth then .ok a else .error ⟨at_, .depthMismatch known depth⟩
    | none => .ok {
        depth := a.depth.setIfInBounds at_.toNat (some depth)
        pending := at_.toNat :: a.pending
        maxStack := max a.maxStack depth }
  else .error ⟨source, .middleOfInstruction at_⟩

/-- Enter the offset an operand branches to, if it does. -/
def enterTarget (starts : Array Bool) (pc next : Nat) (operand : Operand) (depth : Nat)
    (a : Analysis) : Except VerifyError Analysis :=
  match operand with
  | .branch d => enter starts pc (next + d) depth a
  | _ => .ok a

/-- Enter the offset behind an instruction, if control continues there. -/
def enterNext (m : Method) (starts : Array Bool) (pc : Nat) (op : Opcode) (depth : Nat)
    (a : Analysis) : Except VerifyError Analysis :=
  if op.isTerminal then .ok a
  else if m.code.size ≤ pc + op.size then .error ⟨pc, .fallsOffEnd⟩
  else enter starts pc ↑(pc + op.size) depth a

/-- Check a decoded instruction at the depth of its offset and enter the offsets it may continue
at, the branch target before the next instruction. -/
def follow (m : Method) (starts : Array Bool) (pc : Nat) (instr : Instruction) (a : Analysis) :
    Except VerifyError Analysis := do
  let after ← depthAfter m pc instr ((a.depth[pc]?).join.getD 0)
  let a ← enterTarget starts pc (pc + instr.opcode.size) instr.operand after a
  enterNext m starts pc instr.opcode after a

/-- Visit the instruction at a pending offset. Reading it past the end of the code is a defect. -/
def visit (m : Method) (starts : Array Bool) (pc : Nat) (a : Analysis) :
    Except Defect (Except VerifyError Analysis) :=
  (instructionAt m.code pc).map fun instr => a.follow m starts pc instr

/-- Visit pending offsets, the latest entered first, until none is left. An offset is entered at
most once, so the number of code bytes bounds the visits. -/
def explore (m : Method) (starts : Array Bool) :
    Nat → Analysis → Except Defect (Except VerifyError Analysis)
  | 0, a => .ok (.ok a)
  | bound + 1, a =>
    match a.pending with
    | [] => .ok (.ok a)
    | pc :: rest =>
      match visit m starts pc { a with pending := rest } with
      | .ok (.ok a) => explore m starts bound a
      | .ok (.error e) => .ok (.error e)
      | .error d => .error d

/-- Enter the target of an exception table entry, whose range must be proper. -/
def enterHandler (m : Method) (starts : Array Bool) (a : Analysis) (h : Handler) :
    Except VerifyError Analysis :=
  if h.start < 0 ∨ h.stop > m.code.size ∨ h.start ≥ h.stop then .error ⟨h.start, .malformedRange⟩
  else enter starts h.start h.target 1 a

/-- The known depths as pairs of offset and depth, ascending. -/
def depths (a : Analysis) : List (Nat × Nat) :=
  a.depth.toList.zipIdx.filterMap fun (d, i) => d.map fun n => (i, n)

end Analysis

/-- Enter offset zero and the targets of the exception table. -/
def Analysis.enterAll (m : Method) (starts : Array Bool) : Except VerifyError Analysis := do
  let a ← Analysis.enter starts 0 0 0 { depth := Array.replicate m.code.size none }
  m.handlers.foldlM (Analysis.enterHandler m starts) a

/-- Compute the depth before every reachable instruction. Code without bytes has none. -/
def examine (m : Method) : Except Defect (Except VerifyError Analysis) :=
  match instructionStarts m.code with
  | .error e => .ok (.error e)
  | .ok starts =>
    if m.code.isEmpty then .ok (.ok { depth := #[] })
    else match Analysis.enterAll m starts with
      | .error e => .ok (.error e)
      | .ok a => a.explore m starts m.code.size

/-- The depth before every reachable instruction. The instructions are read only where the code has
been split, so no defect arises; one would count as code that is cut short. -/
def analyze (m : Method) : Except VerifyError Analysis :=
  match examine m with
  | .ok verdict => verdict
  | .error _ => .error ⟨m.code.size, .truncated⟩

/-- The method with its greatest depth filled in, if the verifier accepts it. -/
def verify (m : Method) : Except VerifyError Method := do
  let a ← analyze m
  return { m with maxStack := a.maxStack }

end HostLowering.Machine
