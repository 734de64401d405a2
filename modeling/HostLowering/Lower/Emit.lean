import HostLowering.Lower.State

set_option autoImplicit false

/-! # Emission

The instructions and short idioms that operations are made of. None of them touches the snapshot;
comments show what they do to the operand stack of the host, bottom first.
-/

namespace HostLowering.Lower.Lowering

open Machine Catalog

def emit (ops : List Opcode) : Lowering Unit := ops.forM fun op => assemble (Asm.emit op)

def load (i : Int) (k : Kind) : Lowering Unit := assemble (Asm.emitLocal (.load k) i)

def store (i : Int) (k : Kind) : Lowering Unit := assemble (Asm.emitLocal (.store k) i)

def loadRef (i : Int) : Lowering Unit := load i .ref

def storeRef (i : Int) : Lowering Unit := store i .ref

/-- Add one to a local. -/
def increment (i : Int) : Lowering Unit := assemble (Asm.emitIncrement i 1)

def invokeBy (op : Opcode) (m : MethodRef) : Lowering Unit := assemble (Asm.emitInvoke op m)

def invoke (m : MethodRef) : Lowering Unit :=
  invokeBy (if m.isInterface then .invokeinterface else .invokevirtual) m

def invokeStatic (m : MethodRef) : Lowering Unit := invokeBy .invokestatic m

def invokeSpecial (m : MethodRef) : Lowering Unit := invokeBy .invokespecial m

def getStatic (f : FieldRef) : Lowering Unit := assemble (Asm.emitField .getstatic f)

def getField (f : FieldRef) : Lowering Unit := assemble (Asm.emitField .getfield f)

def putField (f : FieldRef) : Lowering Unit := assemble (Asm.emitField .putfield f)

/-- An instruction with a class operand. -/
def emitClass (op : Opcode) (name : String) : Lowering Unit := assemble (Asm.emitClass op name)

/-- Narrow the top of the stack. Narrowing to the class of all values, or to a primitive type, does
nothing. -/
def cast (name : String) : Lowering Unit :=
  if name = Library.objectClass ∨ Kind.ofTypeName name ≠ .ref then pure ()
  else emitClass .checkcast name

/-- Narrow the value below the top of the stack. -/
def castUnder (name : String) : Lowering Unit := do
  if name ≠ Library.objectClass then
    emit [.swap]
    cast name
    emit [.swap]

/-- Push a host integer. -/
def pushInt (n : Int) : Lowering Unit := assemble (Asm.pushInt (Int64.ofInt n))

def pushText (s : String) : Lowering Unit := assemble (Asm.pushString s)

def pushStr (s : String) : Lowering Unit := do
  pushText s
  invokeStatic Library.strValueOf

def newLabel : Lowering Label := assemble Asm.newLabel

def mark (l : Label) : Lowering Unit := assemble (Asm.mark l)

def branch (op : Opcode) (l : Label) : Lowering Unit := assemble (Asm.jump op l)

/-- Register an exception table entry. -/
def tryCatch (start stop target : Label) (catches : String) : Lowering Unit :=
  assemble (Asm.tryCatch start stop target catches)

def offsetLabel (offset : Int) : Lowering Label := do
  match (← get).labels[offset]? with
  | some l => return l
  | none =>
    let l ← newLabel
    modify fun s => { s with labels := s.labels.insert offset l }
    return l

/-- Push a new collection with room for a number of values: `[] -> [c]`. -/
def newCollection (cls : String) (n : Int) : Lowering Unit := do
  emitClass .new cls
  emit [.dup]
  pushInt n
  invokeSpecial (Library.collectionInit cls)

/-- Move the value under a collection in front of the values already in it: `[v c] -> [c]`. -/
def reverseAdd (cls : String) : Lowering Unit := do
  emit [.dupX1, .swap]
  invoke (Library.reverseAdd cls)

/-- Collect values into a new list, keeping their order: `[v1 .. vn] -> [list]`. -/
def packArguments (n : Nat) : Lowering Unit := do
  newCollection Library.listClass n
  times n (reverseAdd Library.listClass)

/-- Push the instance of the caller: the first argument, or null without arguments. -/
def callerInstance : Lowering Unit := do
  let f ← read
  if f.argCount > 0 then loadRef (f.hostLocal 0) else emit [.aconstNull]

/-- Call a function without keywords: `[fn args] -> [result]`. -/
def callPacked : Lowering Unit := do
  emit [.swap]
  cast Library.functionClass
  emit [.swap, .aconstNull, .aconstNull]
  invoke Library.call

/-- Call a protocol method without arguments: `[x] -> [result]`. -/
def callUnary (method : String) : Lowering Unit := do
  emit [.dup]
  invoke Library.getType
  pushText method
  invoke Library.getDunderOrError
  emit [.swap]
  packArguments 1
  callPacked

end HostLowering.Lower.Lowering
