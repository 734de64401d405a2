set_option autoImplicit false

/-! # Text without regard to case

Names are compared letter by letter. Two characters outside the basic alphabet count as letters of
it: the long s and the kelvin sign.
-/

namespace HostLowering.Text

/-- The representative of a character in comparisons that ignore case. -/
def foldChar (c : Char) : Char :=
  if c = 'ſ' then 's'
  else if c = 'K' then 'k'
  else c.toLower

/-- Whether two texts differ at most in the case of letters. -/
def equalFold (s t : String) : Bool := s.toList.map foldChar == t.toList.map foldChar

end HostLowering.Text
