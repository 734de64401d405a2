import HostLowering.Library.Message

set_option autoImplicit false

/-! # Errors of binding arguments -/

namespace HostLowering.Library

/-- Why the arguments of a call do not fit a function. -/
inductive BindError where
  | tooManyPositional (function : String) (most given : Nat)
  | missingArgument (function param : String)
  | multipleValues (function param : String)
  | unexpectedKeyword (function keyword : String)
deriving DecidableEq, Repr, Inhabited

def BindError.message : BindError → String
  | tooManyPositional f most given => Library.tooManyPositional f most given
  | missingArgument f p => Library.missingArgument f p
  | multipleValues f p => Library.multipleValues f p
  | unexpectedKeyword f k => Library.unexpectedKeyword f k

end HostLowering.Library
