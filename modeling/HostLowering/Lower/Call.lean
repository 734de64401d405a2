import HostLowering.Lower.Binding
import HostLowering.Lower.Protocol

set_option autoImplicit false

/-! # Calls

A call of a value whose static type is one function or bound method, or of a method that the
registry knows, binds its arguments in advance and invokes the host method directly. Every other
call goes through the uniform protocol: a list of positional arguments, a dict of keywords or null,
and the instance of the caller.
-/

namespace HostLowering.Lower

open Machine Catalog

/-- Where a direct call finds its receiver: in the slot under the arguments, in the bound method
there, or in the first argument, the callee being dropped. -/
inductive Receiver where
  | object | bound | firstArgument
deriving DecidableEq, Repr

namespace Lowering

/-- Call `[fn args kwvalues]` through the uniform protocol. -/
def genericCall (argc : Nat) (keywords : List String) : Lowering Unit := do
  let dict ← if keywords.isEmpty then pure none else do
    newCollection Library.dictClass keywords.length
    let dict ← allocRef
    storeRef dict
    keywords.reverse.forM fun name => do
      loadRef dict
      emit [.swap]
      pushStr name
      emit [.swap]
      invoke Library.dictPut
      drop 1
    pure (some dict)
  collect Library.listClass listType argc
  castUnder Library.functionClass
  match dict with
  | some i =>
    loadRef i
    free i
  | none => emit [.aconstNull]
  callerInstance
  invoke Library.call
  drop 2
  pushType objectType

/-- Push one host argument of a direct call. -/
def loadArgument : HostArg Temp → Lowering Unit
  | .surplus values => do
    newCollection Library.tupleClass values.length
    values.reverse.forM fun t => do
      emit [.dup]
      loadTemp t
      invoke (Library.reverseAdd Library.tupleClass)
  | .keywords entries => do
    newCollection Library.dictClass entries.length
    entries.forM fun (name, t) => do
      emit [.dup]
      pushStr name
      loadTemp t
      invoke Library.dictPut
  | .given param t => do
    loadTemp t
    cast (← hostClassOf param.type)
  | .default f => getStatic f
  | .null => emit [.aconstNull]

/-- Replace an instance on top by its type; a type stays. -/
def coerceToType : Lowering Unit := do
  let isType ← newLabel
  emit [.dup]
  emitClass .instanceof Library.typeClass
  branch .ifne isType
  invoke Library.getType
  mark isType
  emitClass .checkcast Library.typeClass

/-- Put the receiver of a direct call on top of the host stack, in place of the callee. -/
def loadReceiver (s : Signature) (receiver : Receiver) (first : Option Temp) : Lowering Unit := do
  match receiver with
  | .object => if s.kind = .static then emit [.pop]
  | .bound =>
    cast Library.boundFunctionClass
    invoke Library.boundFunctionInstance
  | .firstArgument =>
    emit [.pop]
    if s.kind ≠ .static then
      match first with
      | some t => loadTemp t
      | none => defect .invalidAccess
  match s.kind with
  | .onReceiver => cast (← ownerClass s)
  | .onClass => coerceToType
  | .static => pure ()

/-- Call a signature on `[callee args kwvalues]`. -/
def directCall (s : Signature) (receiver : Receiver) (argc : Nat) (keywords : List String) :
    Lowering Unit := do
  let ts ← spill (argc + keywords.length)
  let inOrder := ts.reverse
  let positional := inOrder.take argc
  let takesFirst := receiver = .firstArgument ∧ s.kind ≠ .static
  if takesFirst ∧ argc = 0 then
    fail (.needsReceiver s.name)
    release ts
  else
    let arguments := if takesFirst then positional.drop 1 else positional
    match bind s arguments (keywords.zip (inOrder.drop argc)) with
    | .error d => defect d
    | .ok (.error e) =>
      fail (.binding e)
      release ts
    | .ok (.ok args) =>
      loadReceiver s receiver inOrder.head?
      args.forM loadArgument
      invokeSignature s
      release ts
      drop 1
      pushType? s.returns

def argumentSlots (argc : Int) (keywords : List String) : Int := wrap64 (argc + keywords.length)

/-- Call the slot under the arguments. -/
def callValue (argc : Int) (keywords : List String) : Lowering Unit := do
  if argc < 0 then fail (.negativeArguments argc)
  else
    let callee ← peekType (argumentSlots argc keywords)
    match (← get).registry.callable? callee with
    | some c =>
      let receiver := if c.bound ∧ c.signature.kind ≠ .static then .bound else .firstArgument
      directCall c.signature receiver argc.toNat keywords
    | none => genericCall argc.toNat keywords

/-- Call a named method of the slot under the arguments. -/
def callNamed (name : String) (argc : Int) (keywords : List String) : Lowering Unit := do
  if argc < 0 then fail (.negativeArguments argc)
  else
    let n := argumentSlots argc keywords
    match ← lookup? (← peekType n) name with
    | some s =>
      directCall s (if s.kind = .static then .firstArgument else .object) argc.toNat keywords
    | none =>
      let args ← spill n
      pushText name
      invoke Library.getAttributeOrError
      setTop .dynamic
      reload args
      genericCall argc.toNat keywords
      release args

/-- Call the slot under an iterable of positional arguments and perhaps a dict of keywords. -/
def callSpread (hasKeywords : Bool) : Lowering Unit := do
  let dict ← if hasKeywords then do
      let i ← allocRef
      storeRef i
      drop 1
      pure (some i)
    else pure none
  newCollection Library.listClass 0
  emit [.dupX1, .swap]
  invoke Library.listExtend
  drop 1
  pushType listType
  castUnder Library.functionClass
  match dict with
  | some i =>
    loadRef i
    cast Library.dictClass
    free i
  | none => emit [.aconstNull]
  callerInstance
  invoke Library.call
  drop 2
  pushType objectType

end Lowering

end HostLowering.Lower
