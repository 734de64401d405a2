import HostLowering.Lower.Protocol

set_option autoImplicit false

/-! # Binary operators

An operator is tried on its left operand first. An in-place operator is retried as the plain
operator on the left operand; then the reflected method of the right operand is tried. A candidate
declines by being absent or by answering the not-implemented value. When all decline, comparisons
for equality compare identity and every other operator raises an error that names the operator as
written in the source.

The helpers emit code that takes both operands off the host stack and leaves the result, `[l r] ->
[result]`, without touching the snapshot, and give the static type of the result. Where the
registry knows the candidate it is invoked directly; a candidate that is known not to exist is
skipped. Everything that cannot be decided in advance goes through the generic candidates.
-/

namespace HostLowering.Lower.Lowering

open Machine Catalog

/-- The end of the candidates: `[l r] -> [result]`, or an error. -/
def exhausted (op : Operator) (symbol : String) : Lowering (Option TypeRef) := do
  if op = .eq ∨ op = .ne then
    compareIdentity (op = .ne)
    return some boolType
  else
    pushText symbol
    emit [.dupX2, .pop]
    invokeStatic Library.unsupportedOperandsError
    emit [.athrow]
    return some objectType

/-- Continue with `next` if the result of a candidate on top is the not-implemented value, and
otherwise drop the operands below it: `[l r result] -> [result]`. -/
def orElse (declined done : Label) : Lowering Unit := do
  emit [.dup]
  getStatic Library.notImplementedField
  branch .ifAcmpeq declined
  emit [.dupX2, .pop, .pop2]
  branch .goto done

/-- A candidate found when the code runs. `prepare` copies the operands and leaves the receiver's
own copy on top, `[l r] -> [l r arg recv]`; the method is looked up on the type of the receiver and
called with receiver and argument. Without an answer control goes on with `next`. -/
def genericCandidate (prepare : List Opcode) (method : String) (next : Lowering Unit) :
    Lowering (Option TypeRef) := do
  let missing ← newLabel
  let declined ← newLabel
  let done ← newLabel
  emit prepare
  emit [.dup]
  invoke Library.getType
  pushText method
  invoke Library.getAttributeOrNull
  emit [.dup]
  branch .ifnull missing
  emit [.dupX2, .pop, .swap]
  packArguments 2
  callPacked
  orElse declined done
  mark missing
  emit [.pop2]
  mark declined
  emit [.pop]
  next
  mark done
  return some objectType

/-- The reflected method of the right operand, looked up when the code runs. -/
def genericRight (op : Operator) (symbol : String) : Lowering (Option TypeRef) := do
  match op.reflected? with
  | none => exhausted op symbol
  | some method => genericCandidate [.dup2] method (discard (exhausted op symbol))

/-- All candidates, looked up when the code runs. -/
def genericBinary (op : Operator) (symbol : String) : Lowering (Option TypeRef) :=
  genericCandidate [.dup2, .swap] op.method <| discard <|
    match op.fallback? with
    | some plain =>
      genericCandidate [.dup2, .swap] plain.method (discard (genericRight plain symbol))
    | none => genericRight op symbol

/-- A candidate known to the registry, on either side. If it may decline, its answer is checked and
`next` says how to go on. -/
def directCandidate (s : Signature) (onRight : Bool) (next : Lowering Unit) :
    Lowering (Option TypeRef) := do
  let receiver ← ownerClass s
  let argument ← firstParamClass s
  castUnder (if onRight then argument else receiver)
  cast (if onRight then receiver else argument)
  if s.mayNotImplement then emit [.dup2]
  if onRight then emit [.swap]
  invokeSignature s
  if s.mayNotImplement then
    let declined ← newLabel
    let done ← newLabel
    orElse declined done
    mark declined
    emit [.pop]
    next
    mark done
    return some objectType
  else return s.returns

/-- The reflected method of the right operand. `plain` is the operator whose reflected method is
meant; `leftDeclined` says that the left operand has been tried, and `generic` is the operator to
look up when it has not and nothing is known of the right operand. -/
def rightSide (op plain generic : Operator) (symbol : String) (leftDeclined : Bool) :
    Lowering (Option TypeRef) := do
  let left ← peekType 1
  let right ← peekType 0
  let found ← match plain.reflected? with
    | some method => direct? right method [left]
    | none => pure none
  match found with
  | some s => directCandidate s true (discard (exhausted op symbol))
  | none => if leftDeclined then genericRight plain symbol else genericBinary generic symbol

/-- An in-place operator, retried as the plain one on the left operand. -/
def fallbackSide (op plain : Operator) (symbol : String) : Lowering (Option TypeRef) := do
  let left ← peekType 1
  let right ← peekType 0
  match ← direct? left plain.method [right] with
  | some s => directCandidate s false (discard (rightSide op plain plain symbol true))
  | none =>
    if left ≠ objectType then rightSide op plain plain symbol false
    else genericBinary plain symbol

def leftSide (op : Operator) (symbol : String) : Lowering (Option TypeRef) := do
  let left ← peekType 1
  let right ← peekType 0
  let found ← direct? left op.method [right]
  match found, op.fallback?, op.reflected? with
  | some s, some plain, _ => directCandidate s false (discard (fallbackSide op plain symbol))
  | some s, none, some _ => directCandidate s false (discard (rightSide op op op symbol true))
  | some s, none, none => directCandidate s false (discard (exhausted op symbol))
  | none, fallback, reflected =>
    if left = objectType then genericBinary op symbol
    else match fallback, reflected with
      | some plain, _ => fallbackSide op plain symbol
      | none, some _ => rightSide op op op symbol false
      | none, none => genericBinary op symbol

/-- Exchange the operands when the code runs if the type of the left operand inherits the universal
comparison, so that an override on the right operand comes first. -/
def orderOperands (method : String) : Lowering Unit := do
  let keep ← newLabel
  emit [.swap, .dupX1]
  invoke Library.getType
  pushText method
  invoke Library.getDefiningTypeOrNull
  getStatic (Library.typeObject Library.objectClass)
  branch .ifAcmpne keep
  emit [.swap]
  mark keep

/-- Replace the top two slots by the result of an operator. -/
def binary (op : Operator) : Lowering Unit := do
  let left ← peekType 1
  let defining := (← get).registry.definingType? left op.method
  let inherited := defining = none ∨ defining = some objectType
  let result ← if (op = .eq ∨ op = .ne) ∧ inherited then do
      orderOperands op.method
      genericBinary op op.symbol
    else leftSide op op.symbol
  drop 2
  pushType? result

/-- Test membership of the lower slot in the top one. -/
def contains (negated : Bool) : Lowering Unit := do
  swap
  match ← direct? (← peekType 1) "__contains__" [← peekType 0] with
  | some s =>
    castUnder (← ownerClass s)
    cast (← firstParamClass s)
    invokeSignature s
    drop 2
    pushType? s.returns
  | none => callMethod "__contains__" 2
  toBool
  if negated then negate

end HostLowering.Lower.Lowering
