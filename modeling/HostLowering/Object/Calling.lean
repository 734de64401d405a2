import HostLowering.Object.Attribute

set_option autoImplicit false

/-! # Calls

What is made of calls without knowing how a call is performed: everything here takes the way to
perform one, a `Caller`, as an argument.
-/

namespace HostLowering.Object

/-- A call: of any value with arguments to bind, or of a function with arguments in the order of its
body. -/
inductive Call where
  | value (callee : Value) (args : List Value) (keywords : List (Value × Value))
  | function (f : Function) (args : List Value)
deriving Inhabited

/-- A way to perform calls. -/
abbrev Caller := Call → Effect Value

namespace World

/-- Whether a class derives from the class of all objects without passing through one whose objects
have a form of their own. -/
def isPlainClass (w : World) (c : ClassId) : Bool :=
  (w.lineage c).find? (fun k => k == .object || ClassId.special.contains k) == some .object

end World

namespace Effect

def callMethod (call : Caller) (v : Value) (name : String) (args : List Value) : Effect Value := do
  call (.value (← getAttribute v name) args [])

/-- A new instance of a class, initialised with the arguments in a window. An exception keeps its
arguments there. -/
def instantiate (call : Caller) (c : ClassId) (place : Window)
    (keywords : List (Value × Value)) : Effect Value := do
  let w ← get
  let args := w.items place
  let init := w.attribute? c "__init__"
  if w.isSubclass c .baseException then
    let overridden := w.definingClass? c "__init__" != some .baseException
    let exception ← newExceptionOver c place
    if overridden then
      init.forM fun f => discard (call (.value f (exception :: args) keywords))
    return exception
  else if w.isPlainClass c then
    let object ← alloc (.record c [])
    init.forM fun f => discard (call (.value f (object :: args) keywords))
    return object
  else raise .typeError ("cannot create '" ++ w.className c ++ "' instances")

/-- The exception to raise for a value: an exception itself, or a new instance of a class of
exceptions. -/
def exceptionOf (call : Caller) (v : Value) : Effect Value := do
  let v ← match v with
    | .cls _ => call (.value v [] [])
    | v => pure v
  match (← get).record? v with
  | some (c, _) =>
    if (← get).isSubclass c .baseException then return v
    else raise .typeError "exceptions must derive from BaseException"
  | none => raise .typeError "exceptions must derive from BaseException"

/-- The truth value of a value, by its truth method or else its length. -/
def truth (call : Caller) (v : Value) : Effect Bool := do
  let w ← get
  match w.int? v, v, w.classOf? v with
  | some n, _, _ => return n != 0
  | none, .none, _ => return false
  | none, _, none => fault ("truth of host value " ++ w.typeName v)
  | none, _, some c =>
    if w.definingClass? c "__bool__" != some .object then
      match ← callMethod call v "__bool__" [] with
      | .bool b => return b
      | r => raise .typeError ("__bool__ should return bool, returned " ++ (← get).typeName r)
    else if (w.attribute? c "__len__").isSome then
      let r ← callMethod call v "__len__" []
      return ((← get).int? r).any (· != 0)
    else return true

/-! ## Iteration -/

/-- The number of steps that no run is expected to reach. -/
def stepLimit : Nat := 0x10000000000

/-- Whether code stopped because an iteration ended. -/
def endsIteration (w : World) : Stop → Bool
  | .raised e => (w.record? e).any fun (c, _) => w.isSubclass c .stopIteration
  | _ => false

/-- Take the items of an iterator, behind those already taken. -/
def drain (call : Caller) (iterator : Value) : Nat → Array Value → Effect (List Value)
  | 0, _ => throw .outOfFuel
  | n + 1, taken => fun w =>
    match callMethod call iterator "__next__" [] w with
    | (.ok v, w) => drain call iterator n (taken.push v) w
    | (.error s, w) => if endsIteration w s then (.ok taken.toList, w) else (.error s, w)

def iterate (call : Caller) (v : Value) : Effect (List Value) := do
  match (← get).object? v with
  | some (.sequence _ place) => return (← get).items place
  | some (.dict entries) => return entries.map Prod.fst
  | _ => drain call (← callMethod call v "__iter__" []) stepLimit #[]

end Effect

end HostLowering.Object
