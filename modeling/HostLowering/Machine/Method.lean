import HostLowering.Machine.Constant

set_option autoImplicit false

/-! # Methods

A method body of the host: code bytes, constant pool, exception table and the sizes its
activation needs. A body may be absent altogether; the archive format tells an absent body from
an empty one, while reading and running treat both as no code.
-/

namespace HostLowering.Machine

/-- An entry of the exception table: code from `start` up to `stop` that throws an instance of
`catches` continues at `target` with only the thrown value on the stack. An empty `catches`
matches everything. -/
structure Handler where
  start : Int := 0
  stop : Int := 0
  target : Int := 0
  catches : String := ""
deriving DecidableEq, Repr, Inhabited

/-- The number of code bytes an entry covers. -/
def Handler.span (h : Handler) : Int := h.stop - h.start

/-- Whether an entry covers an offset. -/
def Handler.covers (h : Handler) (pc : Nat) : Bool := h.start ≤ pc && pc < h.stop

/-- A method body. `params` are the host types of the first locals. -/
structure Method where
  owner : String := ""
  name : String := ""
  params : List String := []
  body : Option (Array UInt8) := none
  pool : Array Constant := #[]
  handlers : List Handler := []
  maxStack : Int := 0
  maxLocals : Int := 0
deriving DecidableEq, Repr, Inhabited

/-- Why a pool entry cannot be used as an operand. -/
inductive PoolError where
  | outOfRange (index : Nat) (size : Nat)
  | notMethod (index : Nat)
  | notField (index : Nat)
  | notClass (index : Nat)
deriving DecidableEq, Repr

def PoolError.message : PoolError → String
  | outOfRange i n => s!"host: pool index {i} out of range (len={n})"
  | notMethod i => s!"host: pool entry {i} is not a method"
  | notField i => s!"host: pool entry {i} is not a field"
  | notClass i => s!"host: pool entry {i} is not a class"

namespace Method

/-- The code bytes; an absent body has none. -/
def code (m : Method) : Array UInt8 := m.body.getD #[]

/-- The pool entry at an index. -/
def constantAt (m : Method) (i : Nat) : Except PoolError Constant :=
  match m.pool[i]? with
  | some c => .ok c
  | none => .error (.outOfRange i m.pool.size)

/-- The method reference at an index. -/
def methodAt (m : Method) (i : Nat) : Except PoolError MethodRef := do
  let c ← m.constantAt i
  match c.kind, c.method with
  | 5, some r => .ok r
  | _, _ => .error (.notMethod i)

/-- The field reference at an index. -/
def fieldAt (m : Method) (i : Nat) : Except PoolError FieldRef := do
  let c ← m.constantAt i
  match c.kind, c.field with
  | 4, some r => .ok r
  | _, _ => .error (.notField i)

/-- The class name at an index. -/
def classAt (m : Method) (i : Nat) : Except PoolError String := do
  let c ← m.constantAt i
  if c.kind = 3 then .ok c.text else .error (.notClass i)

end Method

end HostLowering.Machine
