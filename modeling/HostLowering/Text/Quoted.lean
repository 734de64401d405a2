import HostLowering.Text.Digits
import HostLowering.Text.Printable

set_option autoImplicit false

/-! # Quoted text

The double-quoted form in which messages and listings show arbitrary text. The quote and the
backslash are escaped, printable characters stand for themselves, the usual controls have
one-letter escapes, and every other character is written by its code point in the shortest of
the forms `\x`, `\u` and `\U` that the class of the character allows.
-/

namespace HostLowering.Text

def quoteChar (c : Char) : String :=
  if c = '"' then "\\\""
  else if c = '\\' then "\\\\"
  else if isPrintable c then c.toString
  else match c.toNat with
    | 0x07 => "\\a"
    | 0x08 => "\\b"
    | 0x09 => "\\t"
    | 0x0a => "\\n"
    | 0x0b => "\\v"
    | 0x0c => "\\f"
    | 0x0d => "\\r"
    | n =>
      if n < 0x20 || n = 0x7f then "\\x" ++ hex 2 n
      else if n < 0x10000 then "\\u" ++ hex 4 n
      else "\\U" ++ hex 8 n

/-- The text between double quotes, with escapes. -/
def quote (s : String) : String := "\"" ++ String.join (s.toList.map quoteChar) ++ "\""

end HostLowering.Text
