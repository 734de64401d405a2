import HostLowering.Text.Integer

set_option autoImplicit false

/-! # Expressions of configuration files

Configuration and catalog files are written in TOML. This module holds the written form: a document
is a list of statements, each a table header or an assignment, and reading refuses every document
that is not well formed. What the statements mean together is the matter of `Toml.Document`.

The readers take a prefix of the characters and give the rest. A bound on the recursion, derived
from the number of characters, is passed along; it is never reached, since every step takes at
least one character.
-/

namespace HostLowering.Toml

/-- The parts of a dotted key. -/
abbrev Path := List String

/-- A written value. -/
inductive Expr where
  | string (s : String)
  | integer (n : Int)
  | float
  | bool (b : Bool)
  | moment
  | array (items : List Expr)
  | inline (entries : List (Path × Expr))
deriving Repr, Inhabited

/-- A line of a document. -/
inductive Statement where
  | table (path : Path)
  | tableArray (path : Path)
  | assign (path : Path) (value : Expr)
deriving Repr, Inhabited

/-! ## Characters -/

def isBlank (c : Char) : Bool := c = ' ' || c = '\t'

def isNewline (c : Char) : Bool := c = '\n' || c = '\r'

def isBareKeyChar (c : Char) : Bool := c.isAlphanum || c = '_' || c = '-'

/-- Whether every character may stand in a document: no control characters but tab and newline, and
a carriage return only in front of a newline. -/
def charsOk : List Char → Bool
  | [] => true
  | '\r' :: '\n' :: rest => charsOk rest
  | c :: rest => (c = '\t' || c = '\n' || (c.toNat ≥ 0x20 && c.toNat ≠ 0x7f)) && charsOk rest

def skipBlanks (cs : List Char) : List Char := cs.dropWhile isBlank

/-- Skip blanks, newlines and comments. -/
def skipTrivia : Nat → List Char → List Char
  | 0, cs => cs
  | bound + 1, cs =>
    match cs.dropWhile (fun c => isBlank c || isNewline c) with
    | '#' :: rest => skipTrivia bound (rest.dropWhile fun c => !isNewline c)
    | cs => cs

/-! ## Strings -/

/-- The character with a code point written in hexadecimal. -/
def codePoint? (digits : List Char) : Option Char := do
  let n ← digits.foldlM (fun n c => (Text.hexDigit? c).map (n * 16 + ·)) 0
  if n.isValidChar then some (Char.ofNat n) else none

/-- The character a backslash and the following characters stand for. -/
def readEscape : List Char → Option (Char × List Char)
  | 'b' :: rest => some ('\x08', rest)
  | 't' :: rest => some ('\t', rest)
  | 'n' :: rest => some ('\n', rest)
  | 'f' :: rest => some ('\x0c', rest)
  | 'r' :: rest => some ('\r', rest)
  | 'e' :: rest => some ('\x1b', rest)
  | '"' :: rest => some ('"', rest)
  | '\\' :: rest => some ('\\', rest)
  | 'x' :: a :: b :: rest => (codePoint? [a, b]).map (·, rest)
  | 'u' :: a :: b :: c :: d :: rest => (codePoint? [a, b, c, d]).map (·, rest)
  | 'U' :: a :: b :: c :: d :: e :: f :: g :: h :: rest =>
    (codePoint? [a, b, c, d, e, f, g, h]).map (·, rest)
  | _ => none

/-- The rest of a string on one line, behind its opening quote. -/
def readBasic : Nat → List Char → List Char → Option (String × List Char)
  | 0, _, _ => none
  | _, _, [] => none
  | _, acc, '"' :: rest => some (String.ofList acc.reverse, rest)
  | bound + 1, acc, '\\' :: rest =>
    match readEscape rest with
    | some (c, rest) => readBasic bound (c :: acc) rest
    | none => none
  | bound + 1, acc, c :: rest => if isNewline c then none else readBasic bound (c :: acc) rest

/-- The rest of a literal string on one line, behind its opening quote. -/
def readLiteral : List Char → List Char → Option (String × List Char)
  | _, [] => none
  | acc, '\'' :: rest => some (String.ofList acc.reverse, rest)
  | acc, c :: rest => if isNewline c then none else readLiteral (c :: acc) rest

/-- The number of equal quotes in front of the characters. -/
def quoteRun (quote : Char) (cs : List Char) : Nat := (cs.takeWhile (· = quote)).length

/-- The most quotes in a row that may end a string over several lines. -/
def endingQuotes : Nat := 5

/-- The rest of a string over several lines, behind its opening quotes. Up to `most` quotes may end
it here, of which the last three are the delimiter; right behind an escaped backslash that is one
more than elsewhere. A backslash before the end of a line removes the line break and the blanks
that follow. -/
def readMultiline (quote : Char) (escapes : Bool) :
    Nat → Nat → List Char → List Char → Option (String × List Char)
  | 0, _, _, _ => none
  | _, _, _, [] => none
  | bound + 1, most, acc, c :: rest =>
    if c = quote then
      let n := quoteRun quote (c :: rest)
      if n < 3 then
        readMultiline quote escapes bound endingQuotes (List.replicate n quote ++ acc)
          ((c :: rest).drop n)
      else if n ≤ most then
        some (String.ofList (List.replicate (n - 3) quote ++ acc).reverse, (c :: rest).drop n)
      else none
    else if c = '\\' && escapes then
      let gap := rest.takeWhile fun c => isBlank c || isNewline c
      if gap.isEmpty then
        let most := if rest.head? == some '\\' then endingQuotes + 1 else endingQuotes
        match readEscape rest with
        | some (c, rest) => readMultiline quote escapes bound most (c :: acc) rest
        | none => none
      else if gap.contains '\n' then
        readMultiline quote escapes bound endingQuotes acc (rest.drop gap.length)
      else none
    else readMultiline quote escapes bound endingQuotes (c :: acc) rest

/-- Skip a newline directly behind the opening quotes. -/
def skipFirstNewline : List Char → List Char
  | '\n' :: rest => rest
  | '\r' :: '\n' :: rest => rest
  | cs => cs

/-! ## Numbers and moments -/

/-- Whether every underscore stands behind a digit and the text ends in one. -/
def digitsOk (cs : List Char) : Bool :=
  let step : Option Bool → Char → Option Bool := fun s c =>
    s.bind fun accept => if c = '_' && !accept then none else some (Text.hexDigit? c).isSome
  cs.foldl step (some false) = some true

/-- Whether a number has a zero in front of its digits. -/
def hasLeadingZero : List Char → Bool
  | '0' :: c :: _ => !(c = 'b' || c = 'o' || c = 'x')
  | s :: '0' :: _ :: _ => s = '-' || s = '+'
  | _ => false

def integer? (cs : List Char) : Option Expr :=
  if digitsOk cs && !hasLeadingZero cs then
    match Text.readInteger (String.ofList cs) with
    | .ok n => some (.integer n)
    | .error _ => none
  else none

/-- Whether a decimal number `digits * 10 ^ exponent` is below the greatest floating-point numbers,
taking `digits` without leading zeros. -/
def floatInRange (digits : List Char) (exponent : Int) : Bool :=
  let digits := digits.dropWhile (· = '0')
  let size : Int := digits.length + exponent
  if digits.isEmpty || size ≤ 308 then true
  else if size > 309 then false
  else
    let m := digits.foldl (fun n c => n * 10 + ((Text.hexDigit? c).getD 0)) 0
    let limit := Nat.pow 2 1024 - Nat.pow 2 970
    if 0 ≤ exponent then m * Nat.pow 10 exponent.toNat < limit
    else m < limit * Nat.pow 10 (-exponent).toNat

/-- The number written by decimal digits, other characters left out. -/
def decimalValue (cs : List Char) : Nat :=
  cs.foldl (fun n c => if c.isDigit then n * 10 + (c.toNat - 48) else n) 0

def splitSign : List Char → List Char × List Char
  | '+' :: rest => (['+'], rest)
  | '-' :: rest => (['-'], rest)
  | cs => ([], cs)

/-- Split off the longest front whose characters satisfy a condition. -/
def splitWhile (p : Char → Bool) (cs : List Char) : List Char × List Char :=
  (cs.takeWhile p, cs.dropWhile p)

/-- Whether a text is a decimal number in range: sign, digits, and at least one of a fraction and
an exponent. -/
def floatOk (cs : List Char) : Bool :=
  let isPart (c : Char) : Bool := c.isDigit || c = '_'
  let (sign, cs) := splitSign cs
  let (whole, cs) := splitWhile isPart cs
  let (fraction, cs) := match cs with
    | '.' :: cs => let (f, cs) := splitWhile isPart cs; (some f, cs)
    | cs => (none, cs)
  let exponent : Option (List Char × List Char) := match cs with
    | [] => some ([], ['0'])
    | c :: cs => if c = 'e' || c = 'E' then some (splitSign cs) else none
  match exponent with
  | none => false
  | some (expSign, exp) =>
    let power : Int := if expSign = ['-'] then -(decimalValue exp : Int) else decimalValue exp
    let places := ((fraction.getD []).filter Char.isDigit).length
    digitsOk (sign ++ whole) && !hasLeadingZero (sign ++ whole) && fraction.all digitsOk
      && exp.all isPart && digitsOk (expSign ++ exp)
      && floatInRange ((whole ++ fraction.getD []).filter Char.isDigit) (power - places)

/-- The value of two decimal digits. -/
def twoDigits? (a b : Char) : Option Nat :=
  if a.isDigit && b.isDigit then some ((a.toNat - 48) * 10 + (b.toNat - 48)) else none

def daysIn (year month : Nat) : Nat :=
  if month = 2 then
    if year % 4 = 0 && (year % 100 ≠ 0 || year % 400 = 0) then 29 else 28
  else if month = 4 || month = 6 || month = 9 || month = 11 then 30
  else 31

def date? : List Char → Option (List Char)
  | y1 :: y2 :: y3 :: y4 :: '-' :: m1 :: m2 :: '-' :: d1 :: d2 :: rest => do
    let century ← twoDigits? y1 y2
    let year ← twoDigits? y3 y4
    let month ← twoDigits? m1 m2
    let day ← twoDigits? d1 d2
    if 1 ≤ month && month ≤ 12 && 1 ≤ day && day ≤ daysIn (century * 100 + year) month then
      some rest
    else none
  | _ => none

/-- The rest behind a time of day, whose seconds may be left out. -/
def time? : List Char → Option (List Char)
  | h1 :: h2 :: ':' :: m1 :: m2 :: rest => do
    let hour ← twoDigits? h1 h2
    let minute ← twoDigits? m1 m2
    if hour ≥ 24 || minute ≥ 60 then none
    else match rest with
      | ':' :: s1 :: s2 :: rest => do
        let second ← twoDigits? s1 s2
        if second ≥ 60 then none
        else match rest with
          | '.' :: d :: rest => if d.isDigit then some (rest.dropWhile Char.isDigit) else none
          | rest => some rest
      | rest => some rest
  | _ => none

/-- Whether the characters are a distance from universal time. -/
def zoneOk : List Char → Bool
  | ['Z'] => true
  | [s, h1, h2, ':', m1, m2] =>
    (s = '+' || s = '-') && (twoDigits? h1 h2).any (· ≤ 24) && (twoDigits? m1 m2).any (· ≤ 60)
  | _ => false

/-- Whether the characters are a date, a time of day, or both with or without a zone. -/
def momentOk (cs : List Char) : Bool :=
  let cs := cs.map fun c => if c = 't' || c = ' ' then 'T' else if c = 'z' then 'Z' else c
  match date? cs with
  | some [] => true
  | some ('T' :: rest) => match time? rest with
    | some [] => true
    | some zone => zoneOk zone
    | none => false
  | some _ => false
  | none => time? cs == some []

/-- The value written by a number with a fraction or exponent. -/
def float? (cs : List Char) : Option Expr := if floatOk cs then some .float else none

/-- Read on from digits and underscores: an integer or a number with a fraction or exponent. -/
def readDecimal (front cs : List Char) : Option (Expr × List Char) :=
  let (digits, rest) := splitWhile (fun c => c.isDigit || c = '_') cs
  match rest with
  | c :: _ =>
    if c = '.' || c = 'e' || c = 'E' then
      let (tail, rest) := splitWhile (fun c => c.isDigit || "_.-+eE".contains c) rest
      (float? (front ++ digits ++ tail)).map (·, rest)
    else (integer? (front ++ digits)).map (·, rest)
  | [] => (integer? (front ++ digits)).map (·, [])

/-- A number or moment that begins with a digit. -/
def readNumber (cs : List Char) : Option (Expr × List Char) :=
  let (digits, rest) := splitWhile Char.isDigit cs
  match digits, rest with
  | ['0'], m :: d :: more =>
    let based (isBaseDigit : Char → Bool) : Option (Expr × List Char) :=
      if isBaseDigit d then
        let (body, rest) := splitWhile (fun c => isBaseDigit c || c = '_') (d :: more)
        (integer? ('0' :: m :: body)).map (·, rest)
      else none
    if m = 'b' then based fun c => c = '0' || c = '1'
    else if m = 'o' then based fun c => '0' ≤ c && c ≤ '7'
    else if m = 'x' then based fun c => (Text.hexDigit? c).isSome
    else readDecimal [] cs
  | ['0'], _ => readDecimal [] cs
  | _, c :: _ =>
    if c = '-' || c = ':' then
      let (body, rest) := splitWhile (fun c => c.isDigit || "-:Tt .Zz+".contains c) cs
      let trimmed := (body.reverse.dropWhile (· = ' ')).reverse
      if momentOk trimmed then some (.moment, rest) else none
    else readDecimal [] cs
  | _, [] => readDecimal [] cs

/-- A number that begins with a sign, behind the sign. -/
def readSigned (sign : Char) : List Char → Option (Expr × List Char)
  | 'i' :: 'n' :: 'f' :: rest => some (.float, rest)
  | 'n' :: 'a' :: 'n' :: rest => some (.float, rest)
  | '0' :: 'b' :: _ => none
  | '0' :: 'o' :: _ => none
  | '0' :: 'x' :: _ => none
  | c :: rest => if c.isDigit then readDecimal [sign] (c :: rest) else none
  | [] => none

/-! ## Keys -/

def readKeyPart (cs : List Char) : Option (String × List Char) :=
  match cs with
  | '"' :: rest => readBasic (rest.length + 1) [] rest
  | '\'' :: rest => readLiteral [] rest
  | cs =>
    let (name, rest) := splitWhile isBareKeyChar cs
    if name.isEmpty then none else some (String.ofList name, rest)

/-- A dotted key up to and including the character that ends it. -/
def readKey (stop : Char) : Nat → Path → List Char → Option (Path × List Char)
  | 0, _, _ => none
  | bound + 1, path, cs =>
    match readKeyPart (skipBlanks cs) with
    | none => none
    | some (part, rest) =>
      match skipBlanks rest with
      | '.' :: rest => readKey stop bound (path ++ [part]) rest
      | c :: rest => if c = stop then some (path ++ [part], rest) else none
      | [] => none

/-! ## Values -/

mutual

/-- A value, behind blanks. -/
def readValue : Nat → List Char → Option (Expr × List Char)
  | 0, _ => none
  | bound + 1, cs =>
    match skipBlanks cs with
    | '[' :: rest => readArray bound [] rest
    | '\x7b' :: rest => readInline bound [] rest
    | '"' :: '"' :: '"' :: rest =>
      (readMultiline '"' true (rest.length + 1) endingQuotes [] (skipFirstNewline rest)).map
        fun (s, r) => (.string s, r)
    | '"' :: rest => (readBasic (rest.length + 1) [] rest).map fun (s, r) => (.string s, r)
    | '\'' :: '\'' :: '\'' :: rest =>
      (readMultiline '\'' false (rest.length + 1) endingQuotes [] (skipFirstNewline rest)).map
        fun (s, r) => (.string s, r)
    | '\'' :: rest => (readLiteral [] rest).map fun (s, r) => (.string s, r)
    | 't' :: 'r' :: 'u' :: 'e' :: rest => some (.bool true, rest)
    | 'f' :: 'a' :: 'l' :: 's' :: 'e' :: rest => some (.bool false, rest)
    | 'i' :: 'n' :: 'f' :: rest => some (.float, rest)
    | 'n' :: 'a' :: 'n' :: rest => some (.float, rest)
    | '+' :: rest => readSigned '+' rest
    | '-' :: rest => readSigned '-' rest
    | c :: rest => if c.isDigit then readNumber (c :: rest) else none
    | [] => none

/-- The rest of an array behind the items already read, latest first. -/
def readArray : Nat → List Expr → List Char → Option (Expr × List Char)
  | 0, _, _ => none
  | bound + 1, items, cs =>
    match skipTrivia (cs.length + 1) cs with
    | ']' :: rest => some (.array items.reverse, rest)
    | cs =>
      match readValue bound cs with
      | none => none
      | some (v, rest) =>
        match skipTrivia (rest.length + 1) rest with
        | ',' :: rest => readArray bound (v :: items) rest
        | ']' :: rest => some (.array (v :: items).reverse, rest)
        | _ => none

/-- The rest of an inline table behind the entries already read, latest first. -/
def readInline : Nat → List (Path × Expr) → List Char → Option (Expr × List Char)
  | 0, _, _ => none
  | bound + 1, entries, cs =>
    match skipTrivia (cs.length + 1) cs with
    | '\x7d' :: rest => some (.inline entries.reverse, rest)
    | cs =>
      match readKey '=' (cs.length + 1) [] cs with
      | none => none
      | some (path, rest) =>
        match readValue bound rest with
        | none => none
        | some (v, rest) =>
          match skipTrivia (rest.length + 1) rest with
          | ',' :: rest => readInline bound ((path, v) :: entries) rest
          | '\x7d' :: rest => some (.inline ((path, v) :: entries).reverse, rest)
          | _ => none

end

/-! ## Documents -/

def readStatement (cs : List Char) : Option (Statement × List Char) :=
  match cs with
  | '[' :: '[' :: rest =>
    match readKey ']' (rest.length + 1) [] rest with
    | some (path, ']' :: rest) => some (.tableArray path, rest)
    | _ => none
  | '[' :: rest => (readKey ']' (rest.length + 1) [] rest).map fun (path, r) => (.table path, r)
  | cs =>
    match readKey '=' (cs.length + 1) [] cs with
    | none => none
    | some (path, rest) =>
      (readValue (2 * rest.length + 2) rest).map fun (v, r) => (.assign path v, r)

/-- Whether a statement may end in front of the characters. -/
def lineEnds : List Char → Bool
  | [] => true
  | c :: _ => c = '#' || isNewline c

/-- The statements behind those already read, latest first. -/
def readStatements : Nat → List Statement → List Char → Option (List Statement)
  | 0, _, _ => none
  | bound + 1, statements, cs =>
    match skipTrivia (cs.length + 1) cs with
    | [] => some statements.reverse
    | cs =>
      match readStatement cs with
      | none => none
      | some (s, rest) =>
        let rest := skipBlanks rest
        if lineEnds rest then readStatements bound (s :: statements) rest else none

/-- The bytes of a document without a byte order mark. -/
def withoutMark : List UInt8 → List UInt8
  | 0xff :: 0xfe :: rest => rest
  | 0xfe :: 0xff :: rest => rest
  | 0xef :: 0xbb :: 0xbf :: rest => rest
  | bs => bs

def readDocument (bs : List UInt8) : Option (List Statement) := do
  let s ← String.fromUTF8? ⟨(withoutMark bs).toArray⟩
  let cs := s.toList
  if charsOk cs then readStatements (cs.length + 1) [] cs else none

end HostLowering.Toml
