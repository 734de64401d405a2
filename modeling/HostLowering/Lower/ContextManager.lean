import HostLowering.Lower.Call
import HostLowering.Lower.Exception

set_option autoImplicit false

/-! # Context managers -/

namespace HostLowering.Lower.Lowering

open Machine Catalog

/-- Enter the context manager on top: leave its exit method, bound to it, under the result of its
enter method. -/
def enterContext : Lowering Unit := do
  emit [.dup, .dup]
  invoke Library.getType
  pushText "__exit__"
  invoke Library.getAttributeOrError
  cast Library.functionClass
  emitClass .new Library.boundFunctionClass
  emit [.dupX2, .dupX2, .pop]
  invokeSpecial Library.boundFunctionInit
  emit [.swap]
  let manager ← popSlot
  pushType methodType
  pushSlot manager
  unary "__enter__"

/-- Call the bound exit method on top with three nones and discard the result. -/
def exitNormally : Lowering Unit := do
  times 3 pushNone
  genericCall 3 []
  discardTop

/-- The depth of the nearest bound method below the top. -/
def boundExit? : Lowering (Option Nat) := do
  let r := (← get).registry
  match (← stack) with
  | [] => return none
  | _ :: below =>
    return (below.findIdx? fun slot => r.isSubtype slot.known methodType).map (· + 1)

/-- Call the nearest bound exit method below the top with the type, the value and the traceback of
the exception on top, and push the result. The slots between stay. -/
def exitWithException : Lowering Unit := do
  match ← boundExit? with
  | none => fail (.noBoundExit (← showStack (← stack)))
  | some depth =>
    let ts ← spill depth
    let loadException := ts.head?.forM loadTemp
    emit [.dup]
    cast Library.functionClass
    newCollection Library.listClass 3
    emit [.dup]
    loadException
    invoke Library.getType
    invoke Library.listAdd
    emit [.dup]
    loadException
    invoke Library.listAdd
    emit [.dup]
    invokeStatic Library.currentTraceback
    invoke Library.listAdd
    emit [.aconstNull]
    callerInstance
    invoke Library.call
    let result ← allocRef
    storeRef result
    reload ts
    loadRef result
    pushType objectType
    free result
    release ts

end HostLowering.Lower.Lowering
