set_option autoImplicit false

/-! # Digits

Fixed-width numerals and columns: zero-padded decimals, hexadecimal with a least width, and
text padded on the right.
-/

namespace HostLowering.Text

/-- `s` with `fill` repeated in front of it up to `width` characters. -/
def padLeft (width : Nat) (fill : Char) (s : String) : String :=
  String.ofList (List.replicate (width - s.length) fill) ++ s

/-- `s` with spaces after it up to `width` characters. -/
def padRight (width : Nat) (s : String) : String :=
  s ++ String.ofList (List.replicate (width - s.length) ' ')

/-- A decimal numeral of at least `width` characters: zeros fill up after the sign, which counts
as a character. -/
def zeroPadded (width : Nat) (n : Int) : String :=
  if n < 0 then "-" ++ padLeft (width - 1) '0' (toString n.natAbs)
  else padLeft width '0' (toString n.natAbs)

/-- A code offset as listings and messages write it: four digits at least. -/
def offset (n : Int) : String := zeroPadded 4 n

/-- Lower-case hexadecimal of at least `width` digits. -/
def hex (width : Nat) (n : Nat) : String := padLeft width '0' (String.ofList (Nat.toDigits 16 n))

/-- Upper-case hexadecimal of at least `width` digits. -/
def hexUpper (width : Nat) (n : Nat) : String := (hex width n).toUpper

/-- Bytes as lower-case hexadecimal, two digits each. -/
def hexBytes (bs : List UInt8) : String := String.join (bs.map fun b => hex 2 b.toNat)

/-- The value of a hexadecimal digit of either case. -/
def hexDigit? (c : Char) : Option Nat :=
  if '0' ≤ c && c ≤ '9' then some (c.toNat - '0'.toNat)
  else if 'a' ≤ c && c ≤ 'f' then some (c.toNat - 'a'.toNat + 10)
  else if 'A' ≤ c && c ≤ 'F' then some (c.toNat - 'A'.toNat + 10)
  else none

end HostLowering.Text
