import HostLowering.Lower.Shuffle

set_option autoImplicit false

/-! # Locals and constants -/

namespace HostLowering.Lower

open Machine Catalog

/-- A constant of the source. -/
inductive Literal where
  | none
  | bool (b : Bool)
  | int (n : Int64)
  | string (s : String)
  /-- A constant that cannot be lowered, by the name of its type. -/
  | other (type : String)
deriving DecidableEq, Repr, Inhabited

namespace Lowering

/-- The declared type of a source local, any object if it has none. -/
def localType (i : Int) : Lowering (Option TypeRef) := do
  let locals := (← read).locals
  if 0 ≤ i ∧ i < locals.size then return some ((locals[i.toNat]?).join.getD objectType)
  else
    fail (.localOutOfRange i locals.size)
    return none

/-- Push a source local. -/
def loadLocal (i : Int) : Lowering Unit := do
  if let some t ← localType i then
    load ((← read).hostLocal i) (← typeKind t)
    pushType t

/-- Pop the top slot into a source local. -/
def storeLocal (i : Int) : Lowering Unit := do
  if let some t ← localType i then
    let v ← peek 0
    let k ← typeKind t
    let r := (← get).registry
    if v.kind r ≠ k then fail (.localKind (r.typeName v.known) (r.typeName t) i)
    else
      unless ← isSubtype v.known t do cast (← hostClassOf t)
      store ((← read).hostLocal i) k
      drop 1

def clearLocal (i : Int) : Lowering Unit := do
  if let some t ← localType i then
    let k ← typeKind t
    if k ≠ .ref then fail (.cannotDelete k i)
    else
      emit [.aconstNull]
      storeRef ((← read).hostLocal i)

/-- Push a constant. -/
def loadLiteral : Literal → Lowering Unit
  | .none => do
    getStatic Library.noneField
    pushType noneType
  | .bool b => do
    getStatic (Library.boolField b)
    pushType boolType
  | .int n => do
    assemble (Asm.pushInt n)
    invokeStatic Library.intValueOf
    pushType intType
  | .string s => do
    pushStr s
    pushType strType
  | .other t => fail (.constantType t)

end Lowering

end HostLowering.Lower
