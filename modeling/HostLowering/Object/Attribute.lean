import HostLowering.Object.Exception

set_option autoImplicit false

/-! # Attributes of values

An instance has its own fields first, then what its class has or inherits. A class has what it has
or inherits itself, then what its own class has. Functions found on the class of a value are bound
to the value, or to the class for class methods.
-/

namespace HostLowering.Object

/-- What is found under a name: a value, or a function to bind. -/
inductive Found where
  | plain (v : Value)
  | bind (self function : Value)
deriving DecidableEq, Repr, Inhabited

namespace World

def ownAttribute? (w : World) (v : Value) (name : String) : Option Found :=
  match v with
  | .cls c => (w.attribute? c name).map fun x =>
    if (w.function? x).any Function.classMethod then .bind (.cls c) x else .plain x
  | v => do
    let (_, fields) ← w.record? v
    match ← fields.get? name with
    | .null => none
    | x => some (.plain x)

def classAttribute? (w : World) (v : Value) (name : String) : Option Found := do
  let c ← w.classOf? v
  let x ← w.attribute? c name
  match w.function? x with
  | none => return .plain x
  | some f =>
    if f.static then return .plain x
    else if f.classMethod then return .bind (.cls c) x
    else return .bind v x

def find? (w : World) (v : Value) (name : String) : Option Found :=
  (w.ownAttribute? v name).or (w.classAttribute? v name)

end World

namespace Effect

/-- The attribute of a value, bound where it has to be. -/
def getAttribute? (v : Value) (name : String) : Effect (Option Value) := do
  match (← get).find? v name with
  | some (.plain x) => return some x
  | some (.bind self f) => return some (← alloc (.bound self f))
  | none => return none

def getAttribute (v : Value) (name : String) : Effect Value := do
  match ← getAttribute? v name with
  | some x => return x
  | none => throw (.raised (← missingAttribute v name))

end Effect

end HostLowering.Object
