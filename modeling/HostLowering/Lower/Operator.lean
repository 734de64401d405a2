import HostLowering.Text.Quoted

set_option autoImplicit false

/-! # Operators and dialects

A binary operator names the method tried on its left operand, the *reflected* method tried on its
right operand, and its spelling in the source. An in-place operator has no reflected method; where
its own method does not apply it is retried as the plain operator.
-/

namespace HostLowering.Lower

inductive Arith where
  | add | sub | mul | trueDiv | floorDiv | mod | pow | matMul | lshift | rshift | and | or | xor
deriving DecidableEq, Repr, Inhabited

namespace Arith

/-- All arithmetic operators in order. -/
def all : List Arith :=
  [add, sub, mul, trueDiv, floorDiv, mod, pow, matMul, lshift, rshift, and, or, xor]

def name : Arith → String
  | add => "Add"
  | sub => "Sub"
  | mul => "Mul"
  | trueDiv => "TrueDiv"
  | floorDiv => "FloorDiv"
  | mod => "Mod"
  | pow => "Pow"
  | matMul => "MatMul"
  | lshift => "LShift"
  | rshift => "RShift"
  | and => "And"
  | or => "Or"
  | xor => "Xor"

/-- The stem of the method names. -/
def stem (a : Arith) : String := a.name.toLower

/-- The spelling in the source. -/
def symbol : Arith → String
  | add => "+"
  | sub => "-"
  | mul => "*"
  | trueDiv => "/"
  | floorDiv => "//"
  | mod => "%"
  | pow => "**"
  | matMul => "@"
  | lshift => "<<"
  | rshift => ">>"
  | and => "&"
  | or => "|"
  | xor => "^"

end Arith

/-- A binary operator or comparison. -/
inductive Operator where
  | arith (a : Arith)
  | inplace (a : Arith)
  | lt | le | eq | ne | gt | ge
  | getItem
deriving DecidableEq, Repr, Inhabited

namespace Operator

/-- All operators in order of their numbers. -/
def all : List Operator :=
  Arith.all.map arith ++ Arith.all.map inplace ++ [lt, le, eq, ne, gt, ge, getItem]

def ofCode? (n : UInt8) : Option Operator := all[n.toNat]?

def name : Operator → String
  | arith a => a.name
  | inplace a => "Inplace" ++ a.name
  | lt => "LT"
  | le => "LE"
  | eq => "EQ"
  | ne => "NE"
  | gt => "GT"
  | ge => "GE"
  | getItem => "GetItem"

/-- The name of an operator number; numbers without an operator are shown as such. -/
def describeCode (n : UInt8) : String :=
  match ofCode? n with
  | some op => op.name
  | none => "Operator(" ++ toString n.toNat ++ ")"

def method : Operator → String
  | arith a => "__" ++ a.stem ++ "__"
  | inplace a => "__i" ++ a.stem ++ "__"
  | lt => "__lt__"
  | le => "__le__"
  | eq => "__eq__"
  | ne => "__ne__"
  | gt => "__gt__"
  | ge => "__ge__"
  | getItem => "__getitem__"

/-- The method tried on the right operand, if any. -/
def reflected? : Operator → Option String
  | arith a => some ("__r" ++ a.stem ++ "__")
  | lt => some "__gt__"
  | le => some "__ge__"
  | eq => some "__eq__"
  | ne => some "__ne__"
  | gt => some "__lt__"
  | ge => some "__le__"
  | inplace _ => none
  | getItem => none

/-- The spelling in the source. -/
def symbol : Operator → String
  | arith a => a.symbol
  | inplace a => a.symbol ++ "="
  | lt => "<"
  | le => "<="
  | eq => "=="
  | ne => "!="
  | gt => ">"
  | ge => ">="
  | getItem => "[]"

/-- The plain operator an in-place operator is retried as. -/
def fallback? : Operator → Option Operator
  | inplace a => some (arith a)
  | _ => none

end Operator

inductive UnaryOperator where
  | negative | positive | invert
deriving DecidableEq, Repr, Inhabited

namespace UnaryOperator

def ofCode? : UInt8 → Option UnaryOperator
  | 0 => some negative
  | 1 => some positive
  | 2 => some invert
  | _ => none

def method : UnaryOperator → String
  | negative => "__neg__"
  | positive => "__pos__"
  | invert => "__invert__"

end UnaryOperator

/-- The values an exception handler finds on the stack at its entry: `tuple` pushes none, depth,
none, traceback, value and exception; `bare` pushes the exception alone, after the last instruction
index where the handler asks for it. -/
inductive Dialect where
  | tuple | bare
deriving DecidableEq, Repr, Inhabited

namespace Dialect

def name : Dialect → String
  | tuple => "tuple"
  | bare => "bare"

def ofName? : String → Option Dialect
  | "tuple" => some tuple
  | "bare" => some bare
  | _ => none

/-- The text of an unknown spelling. -/
def unknownMessage (s : String) : String :=
  "unknown dialect " ++ Text.quote s ++ " (want tuple or bare)"

/-- The spelling of a dialect that may not be set. -/
def describe : Option Dialect → String
  | some d => d.name
  | none => "unset"

/-- The spelling of a dialect number; every number but 1 and 2 means unset. -/
def describeCode : UInt8 → String
  | 1 => tuple.name
  | 2 => bare.name
  | _ => "unset"

end Dialect

end HostLowering.Lower
