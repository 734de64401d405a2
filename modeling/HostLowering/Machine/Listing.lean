import HostLowering.Machine.Code

set_option autoImplicit false

/-! # Listings

The readable form of code: one line per instruction with its offset, name and operand. Pool
operands are shown by the constant they name when the pool has the index, and as `#index`
otherwise. The listing of a method ends with one line per entry of its exception table.
-/

namespace HostLowering.Machine

/-- The operand part of a listing line, with its leading blank. `after` is the offset behind the
instruction, from which branches count. -/
def Operand.render (pool : Array Constant) (after : Nat) : Operand → String
  | .plain => ""
  | .short n => s!" {n}"
  | .slot i => s!" {i}"
  | .increment i d => s!" {i} {d}"
  | .branch d =>
    let target := Text.offset (after + d)
    s!" {d} (-> {target})"
  | .constant i =>
    match pool[i]? with
    | some c => " " ++ c.renderAs "s"
    | none => s!" #{i}"

/-- The listing line of the instruction at an offset. -/
def lineAt (code : Array UInt8) (pool : Array Constant) (pos : Nat) : Except Defect String := do
  let instr ← instructionAt code pos
  let operand := instr.operand.render pool (pos + instr.opcode.size)
  return Text.offset pos ++ "  " ++ instr.opcode.name ++ operand

/-- The listing lines of the code from an offset on, behind those already written. -/
def linesFrom (code : Array UInt8) (pool : Array Constant) (pos : Nat) (lines : Array String) :
    Except Defect (Array String) :=
  if h : pos < code.size then
    match lineAt code pool pos with
    | .ok line =>
      linesFrom code pool (pos + (Opcode.ofByte code[pos]).size) (lines.push line)
    | .error d => .error d
  else .ok lines
termination_by code.size - pos
decreasing_by
  have := Opcode.size_pos (Opcode.ofByte code[pos])
  omega

def listing (code : Array UInt8) (pool : Array Constant) : Except Defect String := do
  let lines ← linesFrom code pool 0 #[]
  return String.intercalate "\n" lines.toList

/-- The listing line of an exception table entry. -/
def Handler.render (h : Handler) : String :=
  let caught := if h.catches = "" then "any" else h.catches
  "try " ++ Text.offset h.start ++ ".." ++ Text.offset h.stop ++ " -> " ++ Text.offset h.target
    ++ " catch " ++ caught

/-- The listing of a method: its code, then a line for each exception table entry. -/
def Method.listing (m : Method) : Except Defect String := do
  let code ← Machine.listing m.code m.pool
  return m.handlers.foldl (fun out h => out ++ "\n" ++ h.render) code

end HostLowering.Machine
