import HostLowering.Cbor.Reader
import HostLowering.Machine.Method

set_option autoImplicit false

/-! # Methods as records

A record is a map whose keys are the numbers of its fields. Writing leaves out the fields marked
optional below when they are empty; reading takes a missing field and null for the empty value,
ignores unknown keys, and refuses values of another type and integers outside the range of the
field. A key may also be spelled as the decimal text of its number; of several entries for one
field the first counts.

A tag in front of a value is dropped, after a check that the content of the tags 0 to 3 has the
type their meaning asks for; big numbers (tags 2 and 3) are integers. Simple values other than
truth values and null read as integers.

| record | fields, those in parentheses optional |
|---|---|
| field reference | 1 owner, 2 name, 3 type |
| method reference | 1 owner, 2 name, (3 params), 4 return, (5 interface) |
| constant | 1 kind, (2 text), (3 integer), (4 field), (5 method) |
| handler | 1 start, 2 stop, 3 target, (4 catches) |
| method | 1 owner, 2 name, (3 params), 4 body, (5 pool), (6 handlers), 7 max stack, 8 max locals |
-/

namespace HostLowering.Archive

open Cbor Machine

/-! ## Writing -/

def entry (key : Nat) (value : Item) : List Item := [.unsigned key, value]

/-- An entry left out unless the condition holds. -/
def entryIf (present : Bool) (key : Nat) (value : Item) : List Item :=
  if present then entry key value else []

def stringList (xs : List String) : Item := .array (xs.map Item.string)

/-- The record of a field reference. -/
def fieldItem (f : FieldRef) : Item :=
  .map (entry 1 (.string f.owner) ++ entry 2 (.string f.name) ++ entry 3 (.string f.type))

/-- The record of a method reference. -/
def methodRefItem (m : MethodRef) : Item :=
  .map (entry 1 (.string m.owner) ++ entry 2 (.string m.name)
    ++ entryIf (!m.params.isEmpty) 3 (stringList m.params)
    ++ entry 4 (.string m.returns) ++ entryIf m.isInterface 5 (.bool true))

def constantItem (c : Constant) : Item :=
  .map (entry 1 (.unsigned c.kind.toNat)
    ++ entryIf (c.text != "") 2 (.string c.text)
    ++ entryIf (c.value != 0) 3 (.int c.value.toInt)
    ++ (match c.field with | some f => entry 4 (fieldItem f) | none => [])
    ++ (match c.method with | some m => entry 5 (methodRefItem m) | none => []))

/-- The record of an exception table entry. -/
def handlerItem (h : Handler) : Item :=
  .map (entry 1 (.int h.start) ++ entry 2 (.int h.stop) ++ entry 3 (.int h.target)
    ++ entryIf (h.catches != "") 4 (.string h.catches))

def methodItem (m : Method) : Item :=
  .map (entry 1 (.string m.owner) ++ entry 2 (.string m.name)
    ++ entryIf (!m.params.isEmpty) 3 (stringList m.params)
    ++ entry 4 (match m.body with | some b => .bytes b.toList | none => .null)
    ++ entryIf (!m.pool.isEmpty) 5 (.array (m.pool.toList.map constantItem))
    ++ entryIf (!m.handlers.isEmpty) 6 (.array (m.handlers.map handlerItem))
    ++ entry 7 (.int m.maxStack) ++ entry 8 (.int m.maxLocals))

/-! ## Reading -/

def tagAdmits (number : Nat) (content : Item) : Bool :=
  match number with
  | 0 => content.isText
  | 1 => content.isNumber
  | 2 => content.isBytes
  | 3 => content.isBytes
  | _ => true

/-- The number written by bytes, high byte first. -/
def bigNumber (data : List UInt8) : Nat := data.foldl (fun n b => n * 256 + b.toNat) 0

/-- The value of a text, every chunk of which must be valid by itself. -/
def textValue (chunks : List (List UInt8)) : Option String := do
  let parts ← chunks.mapM fun c => String.fromUTF8? ⟨c.toArray⟩
  return String.join parts

def readString : Item → Option String
  | .text chunks => textValue chunks
  | .tag n content => if tagAdmits n content && n != 2 && n != 3 then readString content else none
  | .simple n => if n = 22 || n = 23 then some "" else none
  | _ => none

def readInt (least greatest : Int) : Item → Option Int
  | .unsigned n => inRange n
  | .negative n => if least < 0 then inRange (-1 - n) else none
  | .simple n =>
    if n = 22 || n = 23 then some 0
    else if n = 20 || n = 21 then none
    else inRange n
  | .tag 2 (.bytes data) => inRange (bigNumber data)
  | .tag 3 (.bytes data) => if least < 0 then inRange (-1 - bigNumber data) else none
  | .tag n content => if tagAdmits n content then readInt least greatest content else none
  | _ => none
where
  inRange (n : Int) : Option Int := if least ≤ n && n ≤ greatest then some n else none

/-- A signed 64-bit integer. -/
def readInt64 : Item → Option Int := readInt (-0x8000000000000000) 0x7fffffffffffffff

def readByte (i : Item) : Option UInt8 := (readInt 0 255 i).map UInt8.ofInt

/-- A truth value. -/
def readBool : Item → Option Bool
  | .simple n =>
    if n = 21 then some true
    else if n = 20 || n = 22 || n = 23 then some false
    else none
  | .tag n content => if tagAdmits n content && n != 2 && n != 3 then readBool content else none
  | _ => none

/-- A list, null being the empty one. -/
def readList {α : Type} (read : Item → Option α) : Item → Option (List α)
  | .array items => items.mapM read
  | .simple n => if n = 22 || n = 23 then some [] else none
  | .tag n content =>
    if tagAdmits n content && n != 2 && n != 3 then readList read content else none
  | _ => none

/-- A body: a string of bytes, an array of bytes, or null. -/
def readBody : Item → Option (Option (Array UInt8))
  | .bytes data => some (some data.toArray)
  | .array items => (items.mapM readByte).map fun bs => some bs.toArray
  | .simple n => if n = 22 || n = 23 then some none else none
  | .tag n content => if tagAdmits n content then readBody content else none
  | _ => none

/-- The field number a key stands for, if it is a number or a text. Numbers wrap at 64 bits, but a
negative key below the range of 64 bits is refused. -/
def keyNumber : Item → Option (Option Int)
  | .unsigned n => some (some ((n : Int).bmod 0x10000000000000000))
  | .negative n => if n < 0x8000000000000000 then some (some (-1 - (n : Int))) else none
  | .text chunks => (textValue chunks).map fun s =>
    ([1, 2, 3, 4, 5, 6, 7, 8] : List Int).find? fun k => toString k == s
  | _ => none

/-- The entries of a record by field number, the first of several entries first. -/
def entriesOf : List Item → Option (List (Int × Item))
  | key :: value :: rest => do
    let k ← keyNumber key
    let others ← entriesOf rest
    return match k with
      | some k => (k, value) :: others
      | none => others
  | _ => some []

/-- The entries of an item read as a record; null has none. -/
def readRecord : Item → Option (List (Int × Item))
  | .map items => entriesOf items
  | .simple n => if n = 22 || n = 23 then some [] else none
  | .tag n content => if tagAdmits n content && n != 2 && n != 3 then readRecord content else none
  | _ => none

/-- The value of a field, or the empty value when it is missing. -/
def field {α : Type} (record : List (Int × Item)) (key : Int) (empty : α)
    (read : Item → Option α) : Option α :=
  match record.lookup key with
  | some i => read i
  | none => some empty

/-- An optional part: null stands for its absence. -/
def readOptional {α : Type} (read : Item → Option α) (i : Item) : Option (Option α) :=
  if i.isNull then some none else (read i).map some

def readFieldRef (i : Item) : Option FieldRef := do
  let r ← readRecord i
  return ⟨← field r 1 "" readString, ← field r 2 "" readString, ← field r 3 "" readString⟩

def readMethodRef (i : Item) : Option MethodRef := do
  let r ← readRecord i
  return {
    owner := ← field r 1 "" readString
    name := ← field r 2 "" readString
    params := ← field r 3 [] (readList readString)
    returns := ← field r 4 "" readString
    isInterface := ← field r 5 false readBool }

def readConstant (i : Item) : Option Constant := do
  let r ← readRecord i
  return {
    kind := ← field r 1 0 readByte
    text := ← field r 2 "" readString
    value := Int64.ofInt (← field r 3 0 readInt64)
    field := ← field r 4 none (readOptional readFieldRef)
    method := ← field r 5 none (readOptional readMethodRef) }

/-- An exception table entry. -/
def readHandler (i : Item) : Option Handler := do
  let r ← readRecord i
  return {
    start := ← field r 1 0 readInt64
    stop := ← field r 2 0 readInt64
    target := ← field r 3 0 readInt64
    catches := ← field r 4 "" readString }

def readMethod (i : Item) : Option Method := do
  let r ← readRecord i
  return {
    owner := ← field r 1 "" readString
    name := ← field r 2 "" readString
    params := ← field r 3 [] (readList readString)
    body := ← field r 4 none readBody
    pool := (← field r 5 [] (readList readConstant)).toArray
    handlers := ← field r 6 [] (readList readHandler)
    maxStack := ← field r 7 0 readInt64
    maxLocals := ← field r 8 0 readInt64 }

end HostLowering.Archive
