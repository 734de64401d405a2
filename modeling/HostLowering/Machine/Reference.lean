import HostLowering.Machine.Opcode

set_option autoImplicit false

/-! # Symbolic references

Code names the fields and methods of host classes symbolically. A reference is written
`Owner.name:type` for a field and `Owner.name(params)return` for a method; these texts are also
the keys under which the constant pool recognises a reference it already holds.
-/

namespace HostLowering.Machine

/-- A field of a host class. -/
structure FieldRef where
  owner : String := ""
  name : String := ""
  type : String := ""
deriving DecidableEq, Repr, Inhabited

/-- The text `Owner.name:type`. -/
def FieldRef.text (f : FieldRef) : String := f.owner ++ "." ++ f.name ++ ":" ++ f.type

/-- A method of a host class. `isInterface` tells interface methods from class methods. -/
structure MethodRef where
  owner : String := ""
  name : String := ""
  params : List String := []
  returns : String := ""
  isInterface : Bool := false
deriving DecidableEq, Repr, Inhabited

namespace MethodRef

/-- The parameter types and the return type, as in `(int)pkg/Object`. -/
def descriptor (m : MethodRef) : String :=
  "(" ++ String.intercalate "," m.params ++ ")" ++ m.returns

/-- The text `Owner.name(params)return`. -/
def text (m : MethodRef) : String := m.owner ++ "." ++ m.name ++ m.descriptor

/-- Whether an invocation leaves a result on the stack. -/
def pushesResult (m : MethodRef) : Bool := m.returns != "" && m.returns != "void"

/-- The number of operands an invocation by `op` pops: the parameters and, unless the invocation
is static, the receiver. -/
def operandCount (m : MethodRef) (op : Opcode) : Nat :=
  m.params.length + if op = .invokestatic then 0 else 1

/-- The net stack effect of an invocation by `op`. -/
def stackEffect (m : MethodRef) (op : Opcode) : Int :=
  (if m.pushesResult then 1 else 0) - (m.operandCount op : Int)

end MethodRef

end HostLowering.Machine
