import HostLowering.Text.Digits

set_option autoImplicit false

/-! # Integer literals

A literal is an optional sign, an optional base mark (`0b`, `0o`, `0x`, or `0` alone for octal) and
digits. Underscores may stand between digits, and between the base mark and a digit. The value has
to fit in 64 signed bits; digits are read from the left, so a literal that grows too large is
reported as such even if bad characters follow.
-/

namespace HostLowering.Text

/-- Why a text is not an integer literal. -/
inductive IntegerError where
  | malformed
  | outOfRange
deriving DecidableEq, Repr

/-- The base of an unsigned literal and the characters behind the base mark. -/
def splitBase : List Char → Nat × List Char
  | ['0'] => (8, [])
  | '0' :: 'b' :: d :: rest => (2, d :: rest)
  | '0' :: 'B' :: d :: rest => (2, d :: rest)
  | '0' :: 'o' :: d :: rest => (8, d :: rest)
  | '0' :: 'O' :: d :: rest => (8, d :: rest)
  | '0' :: 'x' :: d :: rest => (16, d :: rest)
  | '0' :: 'X' :: d :: rest => (16, d :: rest)
  | '0' :: rest => (8, rest)
  | cs => (10, cs)

/-- The value of digits, underscores left out, continuing from a value. -/
def readDigits (base : Nat) : Nat → List Char → Except IntegerError Nat
  | n, [] => .ok n
  | n, '_' :: rest => readDigits base n rest
  | n, c :: rest =>
    match hexDigit? c with
    | some d =>
      if d ≥ base then .error .malformed
      else if n * base + d ≥ 0x10000000000000000 then .error .outOfRange
      else readDigits base (n * base + d) rest
    | none => .error .malformed

/-- What the character before an underscore has to be: a digit, or the base mark. -/
inductive Before where
  | start | digit | underscore | other
deriving DecidableEq, Repr

/-- Whether every underscore stands behind a digit and before one. -/
def underscoresOk (isHex : Bool) : Before → List Char → Bool
  | before, [] => before != .underscore
  | before, c :: rest =>
    if c.isDigit || (isHex && (hexDigit? c).isSome) then underscoresOk isHex .digit rest
    else if c = '_' then before == .digit && underscoresOk isHex .underscore rest
    else before != .underscore && underscoresOk isHex .other rest

/-- The underscore rule for an unsigned literal with its base mark. -/
def literalUnderscoresOk : List Char → Bool
  | '0' :: c :: rest =>
    if c.toLower = 'x' then underscoresOk true .digit rest
    else if c.toLower = 'b' || c.toLower = 'o' then underscoresOk false .digit rest
    else underscoresOk false .start ('0' :: c :: rest)
  | cs => underscoresOk false .start cs

/-- The value of an unsigned literal. -/
def readUnsigned (cs : List Char) : Except IntegerError Nat :=
  if cs.isEmpty then .error .malformed
  else
    let (base, digits) := splitBase cs
    match readDigits base 0 digits with
    | .ok n => if literalUnderscoresOk cs then .ok n else .error .malformed
    | .error e => .error e

/-- The value of a literal. -/
def readInteger (s : String) : Except IntegerError Int :=
  let signed (negative : Bool) (cs : List Char) : Except IntegerError Int :=
    match readUnsigned cs with
    | .ok n =>
      let v : Int := if negative then -(n : Int) else n
      if -0x8000000000000000 ≤ v ∧ v < 0x8000000000000000 then .ok v else .error .outOfRange
    | .error e => .error e
  match s.toList with
  | '-' :: cs => signed true cs
  | '+' :: cs => signed false cs
  | cs => signed false cs

end HostLowering.Text
