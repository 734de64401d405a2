import HostLowering.Lower.Shuffle

set_option autoImplicit false

/-! # Protocol methods

Calls of the methods that stand behind operators and statements. Where the registry knows a method
of the receiver's type that takes exactly the given operands, it is invoked directly; otherwise it
is looked up on the type of the receiver when the code runs. `callProtocol` reports a missing method
as one that the receiver does not support, `callMethod` as a missing attribute.
-/

namespace HostLowering.Lower.Lowering

open Machine Catalog

/-- The method of a type, called on its receiver, that takes exactly the given operands. -/
def direct? (t : TypeRef) (name : String) (args : List TypeRef) : Lowering (Option Signature) := do
  match ← lookup? t name with
  | none => return none
  | some s =>
    let fits := s.kind == .onReceiver && s.arity == args.length
      && (← get).registry.accepts s (args.map some)
    return if fits then some s else none

def ownerClass (s : Signature) : Lowering String := do
  match s.owner with
  | some t => hostClassOf t
  | none => defect .invalidAccess

/-- The host class of the first parameter of a signature. -/
def firstParamClass (s : Signature) : Lowering String := do
  match s.params with
  | p :: _ => hostClassOf p.type
  | [] => defect .invalidAccess

def invokeSignature (s : Signature) : Lowering Unit := invokeBy s.opcode s.method

/-- Replace the top slot by the result of a method without arguments. -/
def unary (method : String) : Lowering Unit := do
  match ← direct? (← peekType 0) method [] with
  | some s =>
    cast (← ownerClass s)
    invokeSignature s
    drop 1
    pushType? s.returns
  | none =>
    callUnary method
    drop 1
    pushType objectType

/-- Replace the top slots by a new collection of them, keeping their order. -/
def collect (cls : String) (t : TypeRef) (n : Nat) : Lowering Unit := do
  newCollection cls n
  pushType t
  times n do
    reverseAdd cls
    match ← stack with
    | c :: _ :: rest => setStack (c :: rest)
    | _ => defect .invalidAccess

/-- Finish a call once the function found replaces the copied receiver on top. The receiver and its
arguments are the `argc` slots below. -/
def callFound (argc : Nat) : Lowering Unit := do
  setTop .dynamic
  bury argc
  collect Library.listClass listType argc
  callPacked
  drop 2
  pushType objectType

/-- Call a method of the slot at depth `argc - 1` with the slots above it. -/
def callMethod (method : String) (argc : Nat) : Lowering Unit := do
  duplicate (argc - 1)
  invoke Library.getType
  pushText method
  invoke Library.getDunderOrError
  callFound argc

/-- Call a container method of the slot at depth `argc - 1` with the slots above it. -/
def callProtocol (method : String) (argc : Nat) : Lowering Unit := do
  duplicate (argc - 1)
  let found ← newLabel
  emit [.dup]
  invoke Library.getType
  pushText method
  invoke Library.getAttributeOrNull
  emit [.dup]
  branch .ifnonnull found
  emit [.pop]
  pushText method
  invokeStatic Library.notSupportedError
  emit [.athrow]
  mark found
  emit [.swap, .pop]
  callFound argc

/-! ## Truth -/

/-- Replace the top slot by its truth value. -/
def toBool : Lowering Unit := do
  unless ← isSubtype (← peekType 0) boolType do
    unary "__bool__"
    setTop { (← peek 0) with type := some boolType }

/-- Push one of two truth values: `different` if the top two references differ, else its
negation. The references are taken off the host stack. -/
def compareIdentity (different : Bool) : Lowering Unit := do
  let same ← newLabel
  let done ← newLabel
  branch .ifAcmpeq same
  getStatic (Library.boolField different)
  branch .goto done
  mark same
  getStatic (Library.boolField !different)
  mark done

/-- Invert the truth value on top. -/
def negate : Lowering Unit := do
  getStatic Library.trueField
  compareIdentity true
  drop 1
  pushType boolType

end HostLowering.Lower.Lowering
