import HostLowering.Object.Generator
import HostLowering.Object.Slice
import HostLowering.Text.Search

set_option autoImplicit false

/-! # The bodies of the builtin functions

An argument that is missing where it is used, or a receiver of the wrong sort, is a defect; an
operand of the wrong sort makes an operator decline with the not-implemented value.
-/

namespace HostLowering.Object.Effect

/-- Apply a step to two integers, or decline. -/
def withInts (a b : Value) (step : Int64 → Int64 → Effect Value) : Effect Value := do
  let w ← get
  match w.int? a, w.int? b with
  | some x, some y => step x y
  | _, _ => return .notImplemented

/-- Apply a step to a string and another one, or decline. -/
def withTexts (a b : Value) (step : String → String → Effect Value) : Effect Value := do
  let w ← get
  match w.str? b with
  | some t => step (← require (w.str? a)) t
  | none => return .notImplemented

/-- Division that rounds down, in 64 bits. -/
def floorDivide (a b : Int64) : Int64 :=
  let q := a / b
  if a % b != 0 && (a < 0) != (b < 0) then q - 1 else q

def missingKey {α : Type} (key : Value) : Effect α := do
  throw (.raised (← newException .keyError [key]))

def setInstanceField (v : Value) (name : String) (rest : List Value) : Effect Value := do
  let w ← get
  match w.record? v, rest with
  | some (c, fields), x :: _ =>
    write v (.record c (fields.set name x))
    return .none
  | some _, [] => defect .invalidAccess
  | none, _ =>
    raise .attributeError
      ("'" ++ w.typeName v ++ "' object attribute '" ++ name ++ "' is read-only")

/-- Clear an attribute of an instance, which must be set. -/
def clearInstanceField (v : Value) (name : String) : Effect Value := do
  match (← get).record? v with
  | some (c, fields) =>
    if (fields.get? name).getD .null = .null then throw (.raised (← missingAttribute v name))
    else
      write v (.record c (fields.set name .null))
      return .none
  | none => throw (.raised (← missingAttribute v name))

def builtin (call : Caller) (b : Builtin) (args : List Value) : Effect Value := do
  match b, args with
  | .skip, _ => return .none
  | .identity different, x :: y :: _ =>
    return if x = y then .bool !different else .notImplemented
  | .constant b, _ => return .bool b
  | .setAttribute, v :: name :: rest => setInstanceField v ((← get).textOf name) rest
  | .deleteAttribute, v :: name :: _ => clearInstanceField v ((← get).textOf name)
  | .arithmetic op false, x :: y :: _ => withInts x y fun a b => newInt (op.apply a b)
  | .arithmetic op true, x :: y :: _ => withInts y x fun a b => newInt (op.apply a b)
  | .floorDivide, x :: y :: _ =>
    withInts x y fun a b =>
      if b = 0 then raise .valueError "integer division or modulo by zero"
      else newInt (floorDivide a b)
  | .compare c, x :: y :: _ => withInts x y fun a b => return .bool (c.holds a b)
  | .negate, x :: _ => newInt (-(← require ((← get).int? x)))
  | .positive, x :: _ => newInt (← require ((← get).int? x))
  | .intTruth, x :: _ => return .bool ((← require ((← get).int? x)) != 0)
  | .concatText, x :: y :: _ => withTexts x y fun a b => newStr (a ++ b)
  | .textLength, x :: _ => do
    newInt (Int64.ofNat (← require ((← get).str? x)).utf8ByteSize)
  | .textEqual, x :: y :: _ => withTexts x y fun a b => return .bool (a == b)
  | .textContains, x :: y :: _ => do
    let w ← get
    match w.str? y with
    | some t => return .bool (Text.contains (← require (w.str? x)) t)
    | none =>
      raise .typeError ("'in <string>' requires string as left operand, not " ++ w.typeName y)
  | .sequenceLength, s :: _ => newInt (Int64.ofNat (← sequence s).2.length)
  | .sequenceIterator, s :: _ => alloc (.iterator (← sequence s).2)
  | .sequenceContains, s :: rest => do
    let (_, items) ← sequence s
    if items.isEmpty then return .bool false
    return .bool ((← get).hasItem items (← require rest.head?))
  | .sequenceEqual, s :: t :: _ => do
    let w ← get
    return if (w.sequence? t).isSome then .bool (w.equal s t) else .notImplemented
  | .sequenceItem, s :: key :: _ => getItem s key
  | .sequenceConcat, s :: t :: _ => do
    let (kind, items) ← sequence s
    match (← get).sequence? t with
    | some (other, more) =>
      if other = kind then
        let joined ← newCopy kind items
        changeItems joined (·.append · more)
        return joined
      else return .notImplemented
    | none => return .notImplemented
  | .setListItem, s :: key :: rest => do
    setItem call s key rest.head?
    return .none
  | .deleteListItem, s :: key :: _ => do
    deleteItem s key
    return .none
  | .appendItem, s :: v :: _ => do
    changeItems s (·.append · [v])
    return .none
  | .addItem, s :: v :: _ => do
    addDistinct s v
    return .none
  | .dictItem, d :: key :: _ => do
    let entries ← require ((← get).dict? d)
    match (← get).valueAt? entries key with
    | some v => return v
    | none => missingKey key
  | .setDictItem, d :: key :: v :: _ => do
    let entries ← require ((← get).dict? d)
    write d (.dict ((← get).putEntry key v entries))
    return .none
  | .deleteDictItem, d :: key :: _ => do
    let entries ← require ((← get).dict? d)
    match (← get).withoutKey? key entries with
    | some rest =>
      write d (.dict rest)
      return .none
    | none => missingKey key
  | .dictContains, d :: key :: _ => do
    let entries ← require ((← get).dict? d)
    return .bool ((← get).valueAt? entries key).isSome
  | .dictLength, d :: _ => newInt (Int64.ofNat (← require ((← get).dict? d)).length)
  | .dictIterator, d :: _ => do
    alloc (.iterator ((← require ((← get).dict? d)).map Prod.fst))
  | .setArguments, e :: tuple :: _ => do
    let (c, fields) ← require ((← get).record? e)
    write e (.record c (fields.set "args" tuple))
    return .none
  | .self, v :: _ => return v
  | .nextItem, it :: _ => do
    match (← get).object? it with
    | some (.iterator (v :: rest)) =>
      write it (.iterator rest)
      return v
    | some (.iterator []) => stopIteration .none
    | _ => defect .invalidAccess
  | .resumeNext, g :: _ => resume call g .none none
  | .resumeSend, g :: v :: _ => resume call g v none
  | .resumeThrow, g :: v :: _ => do
    let e ← exceptionOf call v
    resume call g .none (some e)
  | _, _ => defect .invalidAccess

end HostLowering.Object.Effect
