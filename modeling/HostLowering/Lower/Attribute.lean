import HostLowering.Lower.Protocol

set_option autoImplicit false

/-! # Attributes

An attribute backed by a host field is read and written directly; a null field counts as a missing
attribute. Every other attribute goes through the attribute protocol of the receiver.
-/

namespace HostLowering.Lower.Lowering

open Machine Catalog

/-- The field behind an attribute of the top slot. -/
def field? (name : String) : Lowering (Option Field) := do
  let t ← peekType 0
  if t = objectType then return none else return (← get).registry.field? t name

/-- Raise the error of a missing attribute: `[x] -> []`. -/
def raiseMissing (name : String) : Lowering Unit := do
  pushText name
  invokeStatic Library.noAttributeError
  emit [.athrow]

/-- Replace the top slot by its attribute. -/
def loadAttribute (name : String) : Lowering Unit := do
  match ← field? name with
  | some f =>
    let missing ← newLabel
    let done ← newLabel
    emit [.dup]
    cast f.host.owner
    getField f.host
    emit [.dup]
    branch .ifnull missing
    emit [.swap, .pop]
    branch .goto done
    mark missing
    emit [.pop]
    raiseMissing name
    mark done
    drop 1
    pushType f.type
  | none =>
    let receiver ← peekType 0
    pushText name
    invoke Library.getAttributeOrError
    drop 1
    match ← lookup? receiver name with
    | some s =>
      if s.kind = .static then pushType objectType
      else
        let (t, registry) := (← get).registry.addCallable ⟨s, true⟩
        modify fun st => { st with registry }
        pushType t
    | none => pushType objectType

/-- Set an attribute of the top slot to the slot under it. A field takes the value coerced to its
type. -/
def storeAttribute (name : String) : Lowering Unit := do
  match ← field? name with
  | some f =>
    let cls ← hostClassOf f.type
    cast f.host.owner
    emit [.swap]
    getStatic (Library.typeObject cls)
    invokeStatic Library.coerceToType
    cast cls
    putField f.host
    drop 2
  | none =>
    swap
    pushStr name
    pushType strType
    swap
    callMethod "__setattr__" 3
    discardTop

/-- Delete an attribute of the top slot. A field is cleared; it must not be clear already. -/
def deleteAttribute (name : String) : Lowering Unit := do
  match ← field? name with
  | some f =>
    let missing ← newLabel
    let done ← newLabel
    cast f.host.owner
    emit [.dup]
    getField f.host
    branch .ifnull missing
    emit [.aconstNull]
    putField f.host
    branch .goto done
    mark missing
    raiseMissing name
    mark done
    drop 1
  | none =>
    pushStr name
    pushType strType
    callMethod "__delattr__" 2
    discardTop

end HostLowering.Lower.Lowering
