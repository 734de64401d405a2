set_option autoImplicit false

/-! # Texts inside texts -/

namespace HostLowering.Text

/-- Whether a list stands somewhere inside another one. -/
def standsIn (needle : List Char) : List Char → Bool
  | [] => needle.isEmpty
  | c :: rest => needle.isPrefixOf (c :: rest) || standsIn needle rest

/-- Whether a text contains another one. -/
def contains (s t : String) : Bool := standsIn t.toList s.toList

end HostLowering.Text
