set_option autoImplicit false

/-! # Values

What a local, a slot of the operand stack or a field can hold while code runs: a host value (null, a
number or a text), one of the singletons, a class, or a reference to an object on the heap. Two
values are identical exactly when they are equal.
-/

namespace HostLowering.Object

structure ClassId where
  index : Nat
deriving DecidableEq, Repr, Inhabited

/-- An object, by its place on the heap. -/
structure Ref where
  index : Nat
deriving DecidableEq, Repr, Inhabited

inductive Value where
  | null
  | word (n : Int64)
  | text (s : String)
  | none
  | notImplemented
  | bool (b : Bool)
  | cls (c : ClassId)
  | object (r : Ref)
deriving DecidableEq, Repr, Inhabited

/-- The word that stands for a truth value. -/
def Value.flag (b : Bool) : Value := .word (if b then 1 else 0)

/-! ## Builtin classes

The builtin classes stand first in the table, in this order. -/

namespace ClassId

def object : ClassId := ⟨0⟩
def type : ClassId := ⟨1⟩
def function : ClassId := ⟨2⟩
def method : ClassId := ⟨3⟩
def noneType : ClassId := ⟨4⟩
def notImplementedType : ClassId := ⟨5⟩
def int : ClassId := ⟨6⟩
def bool : ClassId := ⟨7⟩
def str : ClassId := ⟨8⟩
def tuple : ClassId := ⟨9⟩
def list : ClassId := ⟨10⟩
def dict : ClassId := ⟨11⟩
def set : ClassId := ⟨12⟩
def slice : ClassId := ⟨13⟩
def baseException : ClassId := ⟨14⟩
def stopIteration : ClassId := ⟨15⟩
def generator : ClassId := ⟨16⟩
def exception : ClassId := ⟨17⟩
def typeError : ClassId := ⟨18⟩
def attributeError : ClassId := ⟨19⟩
def valueError : ClassId := ⟨20⟩
def runtimeError : ClassId := ⟨21⟩
def indexError : ClassId := ⟨22⟩
def keyError : ClassId := ⟨23⟩
def iterator : ClassId := ⟨24⟩

/-- The classes whose objects have a form of their own instead of fields. -/
def special : List ClassId :=
  [int, bool, str, tuple, list, dict, set, slice, noneType, notImplementedType, function, method,
    type, generator, iterator]

end ClassId

end HostLowering.Object
