import HostLowering.Machine.Code
import HostLowering.Object.World

set_option autoImplicit false

/-! # Activations of methods

The part of running a method that concerns only its own operand stack, locals and code. One step of
an activation goes on, returns, or asks the world of objects for something (`Request`) and goes on
with the answer. Using an operand or a local that is not there is a defect; so is reading past the
end of the code.
-/

namespace HostLowering.Object

open Machine

/-- An activation: the locals, the operand stack with its top first, the offset of the next
instruction and that of the current one. -/
structure Frame where
  method : Method
  locals : Array Value
  stack : List Value := []
  position : Int := 0
  current : Nat := 0
deriving Inhabited

/-- What an instruction asks of the world. -/
inductive Request where
  | allocate (cls : String)
  | cast (cls : String) (v : Value)
  | instanceOf (cls : String) (v : Value)
  | getField (field : FieldRef) (object : Value)
  | putField (field : FieldRef) (object v : Value)
  | getStatic (field : FieldRef)
  /-- The operand is missing when the stack is empty. -/
  | putStatic (field : FieldRef) (v : Option Value)
  | invoke (op : Opcode) (method : MethodRef) (args : List Value)
  | throw (v : Value)
deriving DecidableEq, Repr, Inhabited

def Request.pushesAnswer : Request → Bool
  | allocate _ | cast .. | instanceOf .. | getField .. | getStatic _ => true
  | putField .. | putStatic .. | throw _ => false
  | invoke _ m _ => m.pushesResult

/-- The outcome of a step. -/
inductive Transition where
  | next (f : Frame)
  | ask (r : Request) (f : Frame)
  | return (v : Value)
deriving Inhabited

/-- The most locals that room can be made for. -/
def mostLocals : Int := 0x100000000000

namespace Frame

/-- The activation of a method with arguments in its first locals. -/
def start (m : Method) (args : List Value) : Except Defect Frame :=
  if mostLocals < m.maxLocals then .error .invalidAccess
  else .ok {
    method := m
    locals := (args ++ List.replicate (m.maxLocals.toNat - args.length) Value.null).toArray }

/-- Where the current instruction stands. -/
def place (f : Frame) : String × Nat := (f.method.owner ++ "." ++ f.method.name, f.current)

/-- A fault of the current instruction. -/
def fault {α : Type} (f : Frame) (text : String) : Except Stop α :=
  .error (.fault { place := some f.place, text })

def defect {α : Type} (d : Defect) : Except Stop α := .error (.defect d)

/-- The activation with another stack. -/
def withStack (f : Frame) (s : List Value) : Frame := { f with stack := s }

/-- Go on with another stack. -/
def go (f : Frame) (s : List Value) : Except Stop Transition := .ok (.next (f.withStack s))

/-- Ask for something and go on with another stack. -/
def ask (f : Frame) (r : Request) (s : List Value) : Except Stop Transition :=
  .ok (.ask r (f.withStack s))

def answer (f : Frame) (r : Request) (v : Value) : Frame :=
  if r.pushesAnswer then f.withStack (v :: f.stack) else f

def handle (f : Frame) (target : Int) (exception : Value) : Frame :=
  { f with stack := [exception], position := target }

/-- The operand found in the constant pool, or a fault. -/
def fromPool {α : Type} (f : Frame) : Except PoolError α → Except Stop α
  | .ok a => .ok a
  | .error e => f.fault e.message

/-! ## Instructions by the shape of their operands -/

/-- An instruction without operand bytes. -/
def plain (f : Frame) (op : Opcode) : Except Stop Transition :=
  match op, f.stack with
  | .nop, s => f.go s
  | .aconstNull, s => f.go (.null :: s)
  | .pop, _ :: s => f.go s
  | .pop2, _ :: _ :: s => f.go s
  | .dup, a :: s => f.go (a :: a :: s)
  | .dupX1, a :: b :: s => f.go (a :: b :: a :: s)
  | .dupX2, a :: b :: c :: s => f.go (a :: b :: c :: a :: s)
  | .dup2, a :: b :: s => f.go (a :: b :: a :: b :: s)
  | .swap, a :: b :: s => f.go (b :: a :: s)
  | .returnVoid, _ => .ok (.return .null)
  | .areturn, a :: _ => .ok (.return a)
  | .athrow, a :: s => f.ask (.throw a) s
  | .unknown b, _ => f.fault ("unknown opcode " ++ (Opcode.unknown b).name)
  | _, _ => defect .invalidAccess

def onLocal (f : Frame) (op : Opcode) (i : Nat) : Except Stop Transition :=
  match op, f.locals[i]?, f.stack with
  | .aload, some v, s | .iload, some v, s | .lload, some v, s | .dload, some v, s =>
    f.go (v :: s)
  | .astore, some _, a :: s | .istore, some _, a :: s | .lstore, some _, a :: s
  | .dstore, some _, a :: s =>
    .ok (.next { f with locals := f.locals.setIfInBounds i a, stack := s })
  | _, _, _ => defect .invalidAccess

/-- Add to a local. -/
def increment (f : Frame) (i : Nat) (n : Int) : Except Stop Transition :=
  match f.locals[i]? with
  | some (.word m) =>
    .ok (.next { f with locals := f.locals.setIfInBounds i (.word (m + Int64.ofInt n)) })
  | some _ => f.fault s!"IINC of non-int local {i}"
  | none => defect .invalidAccess

def loadConstant (f : Frame) (c : Constant) : Except Stop Transition :=
  match c.kind with
  | 1 => f.go (.text c.text :: f.stack)
  | 2 => f.go (.word c.value :: f.stack)
  | _ => f.fault ("LDC of " ++ c.renderAs "v")

def invoke (f : Frame) (op : Opcode) (m : MethodRef) : Except Stop Transition :=
  let n := m.operandCount op
  if f.stack.length < n then
    f.fault (m.text ++ s!" needs {n} operands, stack has {f.stack.length}")
  else f.ask (.invoke op m (f.stack.take n).reverse) (f.stack.drop n)

/-- An instruction on a constant of the pool. -/
def onConstant (f : Frame) (op : Opcode) (i : Nat) : Except Stop Transition := do
  match op with
  | .ldc => f.loadConstant (← f.fromPool (f.method.constantAt i))
  | .new => f.ask (.allocate (← f.fromPool (f.method.classAt i))) f.stack
  | .checkcast =>
    let cls ← f.fromPool (f.method.classAt i)
    match f.stack with
    | v :: s => f.ask (.cast cls v) s
    | [] => defect .invalidAccess
  | .instanceof =>
    let cls ← f.fromPool (f.method.classAt i)
    match f.stack with
    | v :: s => f.ask (.instanceOf cls v) s
    | [] => defect .invalidAccess
  | .getfield =>
    let field ← f.fromPool (f.method.fieldAt i)
    match f.stack with
    | o :: s => f.ask (.getField field o) s
    | [] => defect .invalidAccess
  | .putfield =>
    let field ← f.fromPool (f.method.fieldAt i)
    match f.stack with
    | v :: o :: s => f.ask (.putField field o v) s
    | _ => defect .invalidAccess
  | .getstatic => f.ask (.getStatic (← f.fromPool (f.method.fieldAt i))) f.stack
  | .putstatic => f.ask (.putStatic (← f.fromPool (f.method.fieldAt i)) f.stack.head?) f.stack.tail
  | op => f.invoke op (← f.fromPool (f.method.methodAt i))

def popWord (f : Frame) : List Value → Except Stop (Int64 × List Value)
  | .word n :: s => .ok (n, s)
  | _ :: _ => f.fault "expected an int on the stack"
  | [] => defect .invalidAccess

def compareWords (op : Opcode) (a b : Int64) : Bool :=
  match op with
  | .ifIcmpeq => a == b
  | .ifIcmpne => a != b
  | .ifIcmplt => a < b
  | .ifIcmpgt => b < a
  | _ => b ≤ a

/-- Whether a branch is taken, and the stack after it. -/
def decideBranch (f : Frame) (op : Opcode) : Except Stop (Bool × List Value) := do
  match op, f.stack with
  | .goto, s => return (true, s)
  | .ifeq, s =>
    let (n, s) ← f.popWord s
    return (n == 0, s)
  | .ifne, s =>
    let (n, s) ← f.popWord s
    return (n != 0, s)
  | .ifnull, v :: s => return (v == .null, s)
  | .ifnonnull, v :: s => return (v != .null, s)
  | .ifAcmpeq, a :: b :: s => return (a == b, s)
  | .ifAcmpne, a :: b :: s => return (a != b, s)
  | .ifnull, _ | .ifnonnull, _ | .ifAcmpeq, _ | .ifAcmpne, _ => defect .invalidAccess
  | op, s =>
    let (b, s) ← f.popWord s
    let (a, s) ← f.popWord s
    return (compareWords op a b, s)

/-- A branch by a distance from the next instruction. -/
def jump (f : Frame) (op : Opcode) (distance : Int) : Except Stop Transition := do
  let (taken, s) ← f.decideBranch op
  let position := if taken then f.position + distance else f.position
  return .next { f with stack := s, position }

/-- Execute a decoded instruction, whose successor is the next instruction. -/
def execute (f : Frame) (i : Instruction) : Except Stop Transition :=
  match i.operand with
  | .plain => f.plain i.opcode
  | .short n => f.go (.word (Int64.ofInt n) :: f.stack)
  | .slot n => f.onLocal i.opcode n
  | .increment n step => f.increment n step
  | .constant n => f.onConstant i.opcode n
  | .branch distance => f.jump i.opcode distance

def step (f : Frame) : Except Stop Transition :=
  if f.position < 0 then defect .invalidAccess
  else if f.method.code.size ≤ f.position.toNat then f.fault "fell off the end of the code"
  else
    let pc := f.position.toNat
    match instructionAt f.method.code pc with
    | .error d => defect d
    | .ok i => { f with current := pc, position := (pc + i.opcode.size : Nat) }.execute i

end Frame

end HostLowering.Object
