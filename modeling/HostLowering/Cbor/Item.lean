set_option autoImplicit false

/-! # Data items of the binary format

Archives are written in the concise binary object representation. An item begins with a head:
three bits of major type and an argument, which is the value of an integer, the length of a
string, the number of elements, a tag or a simple value. Writing is canonical: the argument takes
the fewest bytes, lengths are definite, and the keys of a map ascend.

A string read from input may come in chunks, which are kept apart because each chunk must be well
formed by itself. A map is the list of its keys and values, alternating.
-/

namespace HostLowering.Cbor

inductive Item where
  /-- The integer `n`. -/
  | unsigned (n : Nat)
  /-- The integer `-1 - n`. -/
  | negative (n : Nat)
  | bytes (data : List UInt8)
  | text (chunks : List (List UInt8))
  | array (items : List Item)
  | map (items : List Item)
  | tag (number : Nat) (content : Item)
  /-- A simple value: 20 false, 21 true, 22 null, 23 undefined. -/
  | simple (n : Nat)
  | float
deriving Repr, Inhabited

namespace Item

/-- The absent value. -/
def null : Item := simple 22

/-- A truth value. -/
def bool (b : Bool) : Item := simple (if b then 21 else 20)

/-- An integer. -/
def int (n : Int) : Item := if 0 ≤ n then unsigned n.toNat else negative (-1 - n).toNat

/-- A text in one chunk. -/
def string (s : String) : Item := text [s.toUTF8.toList]

def isNull : Item → Bool
  | simple 22 => true
  | simple 23 => true
  | _ => false

def isBytes : Item → Bool
  | bytes _ => true
  | _ => false

def isText : Item → Bool
  | text _ => true
  | _ => false

/-- Whether the item is an integer or a floating-point number. -/
def isNumber : Item → Bool
  | unsigned _ | negative _ | float => true
  | _ => false

end Item

/-! ## Writing -/

/-- The `count` low bytes of a number, high byte first. -/
def bigEndian : Nat → Nat → List UInt8
  | 0, _ => []
  | count + 1, n => UInt8.ofNat (n / Nat.pow 256 count) :: bigEndian count n

/-- A head in the fewest bytes. -/
def head (major : UInt8) (n : Nat) : List UInt8 :=
  if n < 24 then [major <<< 5 ||| UInt8.ofNat n]
  else if n < 0x100 then (major <<< 5 ||| 24) :: bigEndian 1 n
  else if n < 0x10000 then (major <<< 5 ||| 25) :: bigEndian 2 n
  else if n < 0x100000000 then (major <<< 5 ||| 26) :: bigEndian 4 n
  else (major <<< 5 ||| 27) :: bigEndian 8 n

mutual

/-- The canonical bytes of an item. A text is written as one chunk; a map is written in the order
of its entries. Floating-point items are never written and have no bytes here. -/
def Item.encode : Item → List UInt8
  | .unsigned n => head 0 n
  | .negative n => head 1 n
  | .bytes data => head 2 data.length ++ data
  | .text chunks => head 3 chunks.flatten.length ++ chunks.flatten
  | .array items => head 4 items.length ++ encodeAll items
  | .map items => head 5 (items.length / 2) ++ encodeAll items
  | .tag n content => head 6 n ++ content.encode
  | .simple n => head 7 n
  | .float => []

/-- The canonical bytes of a list of items, one after the other. -/
def encodeAll : List Item → List UInt8
  | [] => []
  | i :: rest => i.encode ++ encodeAll rest

end

end HostLowering.Cbor
