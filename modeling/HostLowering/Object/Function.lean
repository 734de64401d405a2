import HostLowering.Machine.Method
import HostLowering.Object.Value
import HostLowering.Object.View
import HostLowering.Table

set_option autoImplicit false

/-! # Functions

A function has a name, parameters and a body. The body receives its arguments in host order: the
named parameters, then the tuple of surplus positional arguments and the dict of unmatched keywords
where the function takes them. A body is one of the builtins, a lowered method, or a short script.
-/

namespace HostLowering.Object

/-- The arithmetic of integers that wraps around. -/
inductive Arithmetic where
  | add | sub | mul
deriving DecidableEq, Repr, Inhabited

namespace Arithmetic

/-- The result in 64 bits. -/
def apply : Arithmetic → Int64 → Int64 → Int64
  | add, a, b => a + b
  | sub, a, b => a - b
  | mul, a, b => a * b

/-- The stem of the method names. -/
def stem : Arithmetic → String
  | add => "add"
  | sub => "sub"
  | mul => "mul"

end Arithmetic

inductive Comparison where
  | lt | le | gt | ge | eq | ne
deriving DecidableEq, Repr, Inhabited

namespace Comparison

def holds : Comparison → Int64 → Int64 → Bool
  | lt, a, b => a < b
  | le, a, b => a ≤ b
  | gt, a, b => b < a
  | ge, a, b => b ≤ a
  | eq, a, b => a == b
  | ne, a, b => a != b

def method : Comparison → String
  | lt => "__lt__"
  | le => "__le__"
  | gt => "__gt__"
  | ge => "__ge__"
  | eq => "__eq__"
  | ne => "__ne__"

end Comparison

/-- The bodies of the builtin functions. -/
inductive Builtin where
  /-- Nothing happens. -/
  | skip
  /-- Identity, or the not-implemented value; `different` for the negated comparison. -/
  | identity (different : Bool)
  | constant (b : Bool)
  | setAttribute | deleteAttribute
  | arithmetic (op : Arithmetic) (reflected : Bool)
  | floorDivide
  | compare (c : Comparison)
  | negate | positive | intTruth
  | concatText | textLength | textEqual | textContains
  | sequenceLength | sequenceIterator | sequenceContains | sequenceEqual
  | sequenceItem | sequenceConcat
  | setListItem | deleteListItem | appendItem | addItem
  | dictItem | setDictItem | deleteDictItem | dictContains | dictLength | dictIterator
  | setArguments
  /-- The receiver itself. -/
  | self
  | nextItem
  | resumeNext | resumeSend | resumeThrow
deriving DecidableEq, Repr, Inhabited

/-- What a scripted function does with its arguments. -/
inductive Script where
  /-- Give a value, built anew at each call. -/
  | give (e : Expr)
  | giveArgument (i : Int)
  | giveArguments
  | raise (e : Expr)
  | raiseArgument (i : Int)
  | setField (i : Int) (name : String) (j : Int)
  | getField (i : Int) (name : String)
  | run (code : String)
  | generate (code : String)
  | call (i : Int) (args : List Int)
deriving Inhabited

/-- The body of a function. Calls of a scripted function are logged under its label. -/
inductive Body where
  | builtin (b : Builtin)
  | lowered (m : Machine.Method)
  | generator (m : Machine.Method)
  | script (label : String) (s : Script)
deriving Inhabited

structure Function where
  name : String
  params : List String := []
  defaults : Table String Value := []
  varArgs : Bool := false
  varKwargs : Bool := false
  /-- Looked up on an instance, the function is bound to its class. -/
  classMethod : Bool := false
  static : Bool := false
  body : Body
deriving Inhabited

end HostLowering.Object
