set_option autoImplicit false

/-! # Expressions and views

The two finite forms of a value outside the heap. An `Expr` describes a value to build; each
evaluation builds it anew. A `View` shows a value with everything it contains; an object inside
itself is cut off.
-/

namespace HostLowering.Object

/-- A description of a value. -/
inductive Expr where
  | null
  | word (n : Int64)
  | text (s : String)
  | none
  | notImplemented
  | bool (b : Bool)
  | int (n : Int64)
  | str (s : String)
  | list (items : List Expr)
  | tuple (items : List Expr)
  | dict (entries : List (Expr × Expr))
  | slice (start stop step : Expr)
  | iterator (items : List Expr)
  | bound (self function : Expr)
  | cls (name : String)
  | exception (cls : String) (args : List Expr)
  /-- The result of calling a class. -/
  | new (cls : String) (args : List Expr)
  /-- The value of a variable. -/
  | var (name : String)
  | function (name : String)
deriving Inhabited

/-- A value as it is shown. -/
inductive View where
  | null
  | word (n : Int64)
  | text (s : String)
  | none
  | notImplemented
  | bool (b : Bool)
  | int (n : Int64)
  | str (s : String)
  | list (items : List View)
  | tuple (items : List View)
  | set (items : List View)
  | dict (entries : List (View × View))
  | slice (start stop step : View)
  | iterator
  | generator
  | bound (self function : View)
  | cls (name : String)
  | function (name : String)
  | record (cls : String) (fields : List (String × View))
  /-- An object inside itself. -/
  | cycle
deriving Inhabited

end HostLowering.Object
