import HostLowering.Library.Message
import HostLowering.Object.World

set_option autoImplicit false

/-! # Exceptions -/

namespace HostLowering.Object

/-- The text of an exception: the name of its class and its first argument. There is none when that
argument is an object without a text of its own. -/
def World.exceptionText? (w : World) (exception : Value) : Option String := do
  let (c, fields) ← w.record? exception
  let text ← match (fields.get? "args").bind w.sequence? with
    | some (_, first :: _) => match first with
      | .null => some "<nil>"
      | .word n => some (toString n.toInt)
      | .text s => some s
      | .cls c => some (w.className c)
      | v => w.str? v
    | _ => some ""
  return w.className c ++ ": " ++ text

namespace Effect

/-- A new exception with the arguments in a window. One that ends an iteration carries its first
argument as its value. -/
def newExceptionOver (c : ClassId) (args : Window) : Effect Value := do
  let w ← get
  let value := if w.isSubclass c .stopIteration then [("value", (w.items args).headD .none)] else []
  let tuple ← alloc (.sequence .tuple args)
  alloc (.record c (("args", tuple) :: value))

def newException (c : ClassId) (args : List Value) : Effect Value := do
  newExceptionOver c (← store args)

def newError (c : ClassId) (text : String) : Effect Value := do
  newException c [← newStr text]

def raise {α : Type} (c : ClassId) (text : String) : Effect α := do
  throw (.raised (← newError c text))

/-- Raise the end of an iteration. -/
def stopIteration {α : Type} (value : Value) : Effect α := do
  throw (.raised (← newException .stopIteration [value]))

def missingAttribute (v : Value) (name : String) : Effect Value := do
  newError .attributeError (Library.noAttribute ((← get).typeName v) name)

end Effect

end HostLowering.Object
