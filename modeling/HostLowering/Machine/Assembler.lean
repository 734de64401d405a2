import HostLowering.Machine.Code

set_option autoImplicit false

/-! # The assembler

Code is built by appending instructions. Branches name *labels*; a branch to a label that is not
yet marked leaves two zero bytes, and marking the label fills in the distances of all branches
waiting for it. Local indices outside `0 .. 65535` and distances outside the signed 16-bit range
cannot be encoded: the first such failure is remembered and reported by `build`.

Exception table entries name three labels. `build` drops entries with an empty range and orders
the others by the number of bytes they cover, entries of equal span in order of registration, so
that an entry precedes every entry strictly enclosing it.
-/

namespace HostLowering.Machine

/-- A label, by order of creation. -/
abbrev Label := Nat

/-- What is known of a label: its position once marked, and the operand positions of the branches
waiting for it, in order of emission. -/
structure LabelState where
  position : Option Nat := none
  waiting : Array Nat := #[]
deriving Repr, Inhabited

/-- An exception table entry whose ends may not be marked yet. -/
structure PendingHandler where
  start : Label
  stop : Label
  target : Label
  catches : String
deriving Repr, Inhabited

/-- Why code cannot be built. -/
inductive BuildError where
  | localOutOfRange (index : Int)
  | branchOutOfRange (distance : Int) (position : Int)
  | unresolvedLabel
  | unresolvedHandlerLabel
deriving DecidableEq, Repr

def BuildError.message : BuildError → String
  | localOutOfRange i => s!"host: local index {i} out of range"
  | branchOutOfRange d at_ => s!"host: branch offset {d} at " ++ Text.offset at_ ++ " out of range"
  | unresolvedLabel => "host: unresolved label"
  | unresolvedHandlerLabel => "host: unresolved label in exception table"

/-- Code under construction. -/
structure Assembler where
  bytes : Array UInt8 := #[]
  pool : Pool := {}
  labels : Array LabelState := #[]
  handlers : Array PendingHandler := #[]
  error : Option BuildError := none
deriving Inhabited

/-- A step of building code. -/
abbrev Asm := StateT Assembler (Except Defect)

namespace Assembler

/-- The number of bytes emitted so far. -/
def size (a : Assembler) : Nat := a.bytes.size

def position? (a : Assembler) (l : Label) : Option Nat := (a.labels[l]?).bind LabelState.position

/-- Remember the first failure. -/
def fail (a : Assembler) (e : BuildError) : Assembler :=
  { a with error := a.error.or (some e) }

def lowByte (n : Int) : UInt8 := UInt8.ofInt n

/-- The second byte of a number. -/
def highByte (n : Int) : UInt8 := UInt8.ofInt (n / 256)

def append (a : Assembler) (bs : List UInt8) : Assembler :=
  { a with bytes := bs.foldl Array.push a.bytes }

/-- Append an opcode without operand. -/
def emit (a : Assembler) (op : Opcode) : Assembler := { a with bytes := a.bytes.push op.toByte }

/-- Append an opcode with a 16-bit operand. -/
def emitWord (a : Assembler) (op : Opcode) (n : Int) : Assembler :=
  a.append [op.toByte, lowByte n, highByte n]

/-- Append an access to a local. -/
def emitLocal (a : Assembler) (op : Opcode) (index : Int) : Assembler :=
  if 0 ≤ index ∧ index ≤ 65535 then a.emitWord op index else a.fail (.localOutOfRange index)

/-- Append an increment of a local. The step is appended even where the index has no encoding. -/
def emitIncrement (a : Assembler) (index : Int) (step : Int) : Assembler :=
  (a.emitLocal .iinc index).append [lowByte step]

/-- Fill in the distance of a branch whose operand is at `pos`. -/
def patch (a : Assembler) (pos : Nat) (distance : Int) : Assembler :=
  if -32768 ≤ distance ∧ distance ≤ 32767 then
    let bytes := a.bytes.setIfInBounds pos (lowByte distance)
    { a with bytes := bytes.setIfInBounds (pos + 1) (highByte distance) }
  else a.fail (.branchOutOfRange distance (pos - 1))

def setLabel (a : Assembler) (l : Label) (s : LabelState) : Assembler :=
  { a with labels := a.labels.setIfInBounds l s }

end Assembler

namespace Asm

/-- Append an opcode without operand. -/
def emit (op : Opcode) : Asm Unit := modify (·.emit op)

/-- Append an opcode with a 16-bit operand. -/
def emitWord (op : Opcode) (n : Int) : Asm Unit := modify (·.emitWord op n)

/-- Append an access to a local. -/
def emitLocal (op : Opcode) (index : Int) : Asm Unit := modify (·.emitLocal op index)

/-- Append an increment of a local. -/
def emitIncrement (index : Int) (step : Int) : Asm Unit := modify (·.emitIncrement index step)

/-- Append an opcode whose operand is a pool constant. -/
def emitConstant (op : Opcode) (c : Constant) : Asm Unit := fun a => do
  let pool := a.pool
  let a := { a with pool := {} }
  let (i, pool) ← pool.intern c
  return ((), { a with pool }.emitWord op i)

/-- Push an integer: by `SIPUSH` when it fits in 16 bits, from the pool otherwise. -/
def pushInt (n : Int64) : Asm Unit :=
  if -32768 ≤ n.toInt ∧ n.toInt ≤ 32767 then emitWord .sipush n.toInt
  else emitConstant .ldc (.ofInt n)

def pushString (s : String) : Asm Unit := emitConstant .ldc (.ofString s)

/-- Append `NEW`, `CHECKCAST` or `INSTANCEOF`. -/
def emitClass (op : Opcode) (name : String) : Asm Unit := emitConstant op (.ofClass name)

/-- Append a field access. -/
def emitField (op : Opcode) (f : FieldRef) : Asm Unit := emitConstant op (.ofField f)

def emitInvoke (op : Opcode) (m : MethodRef) : Asm Unit := emitConstant op (.ofMethod m)

def newLabel : Asm Label := fun a => .ok (a.labels.size, { a with labels := a.labels.push {} })

/-- Mark a label at the current position and fill in the branches waiting for it. -/
def mark (l : Label) : Asm Unit := fun a => do
  let s ← need a.labels[l]?
  match s.position with
  | some _ => .error .labelMarkedTwice
  | none =>
    let here := a.size
    let a := a.setLabel l { position := some here, waiting := #[] }
    return ((), s.waiting.foldl (fun a pos => a.patch pos (here - (pos + 2))) a)

/-- Append a branch to a label. -/
def jump (op : Opcode) (l : Label) : Asm Unit := fun a => do
  let s ← need a.labels[l]?
  let pos := a.size + 1
  let a := a.append [op.toByte, 0, 0]
  match s.position with
  | some p => return ((), a.patch pos (p - (pos + 2)))
  | none => return ((), a.setLabel l { s with waiting := s.waiting.push pos })

/-- Register an exception table entry. -/
def tryCatch (start stop target : Label) (catches : String) : Asm Unit :=
  modify fun a => { a with handlers := a.handlers.push ⟨start, stop, target, catches⟩ }

end Asm

/-! ## Building -/

namespace Assembler

/-- The entry with its labels replaced by their positions. -/
def resolve (a : Assembler) (h : PendingHandler) : Except BuildError Handler :=
  match a.position? h.start, a.position? h.stop, a.position? h.target with
  | some s, some e, some t => .ok ⟨s, e, t, h.catches⟩
  | _, _, _ => .error .unresolvedHandlerLabel

/-- Entries with a non-empty range, by span, equal spans in the given order. -/
def orderHandlers (hs : List Handler) : List Handler :=
  (hs.filter fun h => h.start != h.stop).mergeSort fun a b => a.span ≤ b.span

/-- The finished method. The greatest depth is left at zero for the verifier to fill in. -/
def build (a : Assembler) (owner name : String) (params : List String) (maxLocals : Int) :
    Except BuildError Method := do
  if let some e := a.error then throw e
  if a.labels.any fun l => l.position.isNone && !l.waiting.isEmpty then throw .unresolvedLabel
  let handlers ← a.handlers.toList.mapM a.resolve
  return {
    owner, name, params
    body := if a.bytes.isEmpty then none else some a.bytes
    pool := a.pool.entries
    handlers := orderHandlers handlers
    maxLocals }

end Assembler

end HostLowering.Machine
