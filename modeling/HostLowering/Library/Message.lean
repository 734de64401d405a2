set_option autoImplicit false

/-! # Messages of the runtime library

The wording of every error that lowered code, or the calling convention it uses, can raise. A
call bound when code is lowered and the same call bound when it runs report a mistake in the
same words.
-/

namespace HostLowering.Library

/-- Neither operand handles a binary operator. -/
def unsupportedOperands (symbol left right : String) : String :=
  "unsupported operand type(s) for " ++ symbol ++ ": '" ++ left ++ "' and '" ++ right ++ "'"

/-- Attribute lookup failed. -/
def noAttribute (typeName attr : String) : String :=
  "'" ++ typeName ++ "' object has no attribute '" ++ attr ++ "'"

/-- A container protocol method is missing. -/
def notSupported (typeName method : String) : String :=
  let subject := "'" ++ typeName ++ "' object "
  match method with
  | "__setitem__" => subject ++ "does not support item assignment"
  | "__delitem__" => subject ++ "doesn't support item deletion"
  | "__getitem__" => subject ++ "is not subscriptable"
  | _ => subject ++ "does not support " ++ method

/-- Unpacking ran out of values. -/
def unpackTooFew (expected got : Int) : String :=
  s!"not enough values to unpack (expected {expected}, got {got})"

/-- A starred unpacking could not fill its fixed targets. -/
def unpackTooFewStarred (expected got : Int) : String :=
  s!"not enough values to unpack (expected at least {expected}, got {got})"

/-- Unpacking found extra values. -/
def unpackTooMany (expected : Int) : String :=
  s!"too many values to unpack (expected {expected})"

/-- A value without a call protocol was called. -/
def notCallable (typeName : String) : String := "'" ++ typeName ++ "' object is not callable"

/-- Surplus positional arguments. -/
def tooManyPositional (function : String) (most given : Int) : String :=
  s!"{function}() takes {most} positional arguments but {given} were given"

/-- A required parameter without a value. -/
def missingArgument (function param : String) : String :=
  function ++ "() missing required argument: '" ++ param ++ "'"

/-- A keyword that matches no parameter. -/
def unexpectedKeyword (function keyword : String) : String :=
  function ++ "() got an unexpected keyword argument '" ++ keyword ++ "'"

/-- A parameter bound both by position and by keyword. -/
def multipleValues (function param : String) : String :=
  function ++ "() got multiple values for argument '" ++ param ++ "'"

end HostLowering.Library
