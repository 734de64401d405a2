import HostLowering.Object.Frame
import HostLowering.Object.LibraryMethod

set_option autoImplicit false

/-! # Running methods

The world's answers to the requests of an activation, and the loop that runs a method: step, answer,
go on; on a raised exception go on at the first handler of the method that covers the current
instruction and catches the exception.
-/

namespace HostLowering.Object

open Machine

/-- The target of the first handler that covers an instruction and catches an exception. -/
def World.handler? (w : World) (m : Method) (pc : Nat) (exception : Value) : Option Int :=
  (m.handlers.find? fun h =>
    h.covers pc && (h.catches == "" || w.isHostInstance exception h.catches)).map Handler.target

namespace Effect

/-! ## Requests -/

/-- A new object of a host class that is not initialised yet. -/
def allocate (host : String) : Effect Value := do
  match (← get).byHost.get? host with
  | none => fault ("NEW of unknown class " ++ host)
  | some c =>
    if c = .tuple then newCopy .tuple []
    else if c = .list then newCopy .list []
    else if c = .set then newCopy .set []
    else if c = .dict then alloc (.dict [])
    else if c = .slice then alloc (.slice .null .null .null)
    else if c = .method then alloc (.bound .null .null)
    else if ClassId.special.contains c then fault ("NEW of builtin class " ++ host)
    else alloc (.record c [])

def staticClass (field : FieldRef) : Effect ClassId := do
  match (← get).byHost.get? field.owner with
  | some c => return c
  | none => fault ("static of unknown class " ++ field.owner)

/-- The fields of an instance or a generator. -/
def readField (field : FieldRef) (object : Value) : Effect Value := do
  match (← get).object? object with
  | some (.record _ fields) => return (fields.get? field.name).getD .null
  | some (.generator g) => return (g.fields.get? field.name).getD .null
  | _ => fault (field.text ++ " on a value without fields")

/-- Set a field of an instance or a generator. -/
def writeField (field : FieldRef) (object v : Value) : Effect Unit := do
  match (← get).object? object with
  | some (.record c fields) => write object (.record c (fields.set field.name v))
  | some (.generator g) =>
    write object (.generator { g with fields := g.fields.set field.name v })
  | _ => fault (field.text ++ " on a value without fields")

/-- The class on which an invocation looks its method up: the owner, or the class of the
receiver. -/
def invocationClass (op : Opcode) (m : MethodRef) (args : List Value) : Effect ClassId := do
  if op = .invokestatic ∨ op = .invokespecial then
    match (← get).byHost.get? m.owner with
    | some c => return c
    | none => fault ("invoke on unknown class " ++ m.owner)
  else
    match args with
    | [] => defect .invalidAccess
    | .null :: _ => fault ("invoke " ++ m.text ++ " on null")
    | v :: _ =>
      match (← get).classOf? v with
      | some c => return c
      | none => fault ("invoke " ++ m.text ++ " on host value " ++ (← get).typeName v)

/-- Invoke a method: one of the library, or a function found under its name. -/
def invoke (call : Caller) (op : Opcode) (m : MethodRef) (args : List Value) : Effect Value := do
  match LibraryMethod.ofReference? m with
  | some l => library call l args
  | none =>
    let c ← invocationClass op m args
    let w ← get
    match w.attribute? c m.name with
    | none => fault (w.className c ++ " has no method " ++ m.name)
    | some v =>
      match w.function? v with
      | some f => call (.function f args)
      | none => fault (w.className c ++ "." ++ m.name ++ " is not a function")

def throwValue (v : Value) : Effect Value := do
  let w ← get
  match v, w.record? v with
  | .null, _ => raise .runtimeError "No active exception to reraise"
  | v, some (c, _) =>
    if w.isSubclass c .baseException then throw (.raised v)
    else fault ("ATHROW of " ++ w.typeName v)
  | v, none => fault ("ATHROW of " ++ w.typeName v)

def serve (call : Caller) : Request → Effect Value
  | .allocate cls => allocate cls
  | .cast cls v => do
    let w ← get
    if v == .null || w.isHostInstance v cls then return v
    else fault ("cannot cast " ++ w.typeName v ++ " to " ++ cls)
  | .instanceOf cls v => return .flag ((← get).isHostInstance v cls)
  | .getField field object => readField field object
  | .putField field object v => do
    writeField field object v
    return .null
  | .getStatic field => do
    let c ← staticClass field
    if field.name = (Library.typeObject field.owner).name then return .cls c
    else return (((← get).info c).statics.get? field.name).getD .null
  | .putStatic field v => do
    let c ← staticClass field
    let v ← require v
    modify fun w => w.setStatic c field.name v
    return .null
  | .invoke op m args => invoke call op m args
  | .throw v => throwValue v

/-! ## The loop -/

/-- One turn of the loop: the run ends, or it goes on with an activation in a world. -/
def turn (call : Caller) (f : Frame) (w : World) :
    (Except Stop Value × World) ⊕ (Frame × World) :=
  match f.step with
  | .error s => .inl (.error s, w)
  | .ok (.return v) => .inl (.ok v, w)
  | .ok (.next f) => .inr (f, w)
  | .ok (.ask r f) =>
    match serve call r w with
    | (.ok v, w) => .inr (f.answer r v, w)
    | (.error (.raised e), w) =>
      match w.handler? f.method f.current e with
      | some target => .inr (f.handle target e, w)
      | none => .inl (.error (.raised e), w)
    | (.error (.fault x), w) => .inl (.error (.fault (x.atPlace f.place.1 f.place.2)), w)
    | (.error s, w) => .inl (.error s, w)

/-- Run an activation, turn by turn. -/
def runFrom (call : Caller) : Nat → Frame → Effect Value
  | 0, _ => throw .outOfFuel
  | n + 1, f => fun w =>
    match turn call f w with
    | .inl outcome => outcome
    | .inr (f, w) => runFrom call n f w

def runMethod (call : Caller) (m : Method) (args : List Value) : Effect Value :=
  match Frame.start m args with
  | .ok f => runFrom call stepLimit f
  | .error d => defect d

end Effect

end HostLowering.Object
