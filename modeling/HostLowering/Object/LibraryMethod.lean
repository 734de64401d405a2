import HostLowering.Object.Sequence

set_option autoImplicit false

/-! # The methods of the runtime library

The library methods that lowered code invokes. They are recognised by owner and name. An argument
of the wrong sort, or one that is missing, is a defect.
-/

namespace HostLowering.Object

open Machine

inductive LibraryMethod where
  | getType | getAttributeOrError | getAttributeOrNull | call
  | bindFunction | boundInstance
  | getDefiningTypeOrNull | isInstance | getMethodOrError | typeName
  | boolValueOf | intValueOf | strValueOf
  | initCollection | addFirst | addToSet | addLast | extend | itemAt | size | cut | putEntry
  | initSlice
  | stopIterationValue | setCause | coerceToType | currentTraceback
  | unsupportedOperands | noAttribute | notSupported
  | unpackTooFew | unpackTooMany | unpackTooFewStarred
deriving DecidableEq, Repr, Inhabited

namespace LibraryMethod

def references : List (MethodRef × LibraryMethod) :=
  [(Library.getType, getType), (Library.getAttributeOrError, getAttributeOrError),
    (Library.getAttributeOrNull, getAttributeOrNull), (Library.call, call),
    (Library.boundFunctionInit, bindFunction), (Library.boundFunctionInstance, boundInstance),
    (Library.getDefiningTypeOrNull, getDefiningTypeOrNull), (Library.isInstance, isInstance),
    (Library.getDunderOrError, getMethodOrError), (Library.typeName, typeName),
    (Library.boolValueOf, boolValueOf), (Library.intValueOf, intValueOf),
    (Library.strValueOf, strValueOf),
    (Library.collectionInit Library.listClass, initCollection),
    (Library.collectionInit Library.tupleClass, initCollection),
    (Library.collectionInit Library.dictClass, initCollection),
    (Library.collectionInit Library.setClass, initCollection),
    (Library.reverseAdd Library.listClass, addFirst),
    (Library.reverseAdd Library.tupleClass, addFirst),
    (Library.reverseAdd Library.setClass, addToSet), (Library.listAdd, addLast),
    (Library.listExtend, extend), (Library.listGet, itemAt), (Library.listSize, size),
    (Library.listCut, cut), (Library.dictPut, putEntry), (Library.sliceInit, initSlice),
    (Library.stopIterationValue, stopIterationValue), (Library.setCause, setCause),
    (Library.coerceToType, coerceToType), (Library.currentTraceback, currentTraceback),
    (Library.unsupportedOperandsError, unsupportedOperands),
    (Library.noAttributeError, noAttribute), (Library.notSupportedError, notSupported),
    (Library.unpackTooFewError, unpackTooFew), (Library.unpackTooManyError, unpackTooMany),
    (Library.unpackTooFewStarredError, unpackTooFewStarred)]

def ofReference? (m : MethodRef) : Option LibraryMethod :=
  (references.find? fun (r, _) => r.name == m.name && r.owner == m.owner).map Prod.snd

end LibraryMethod

def World.formName (w : World) (v : Value) : String :=
  match v, w.object? v with
  | .null, _ => "<nil>"
  | .word _, _ => "int64"
  | .text _, _ => "string"
  | .none, _ | .notImplemented, _ => "*sim.Singleton"
  | .bool _, _ | _, some (.int _) => "*sim.Int"
  | .cls _, _ => "*sim.Class"
  | _, some (.record ..) => "*sim.Instance"
  | _, some (.str _) => "*sim.Str"
  | _, some (.sequence ..) => "*sim.Seq"
  | _, some (.dict _) => "*sim.Dict"
  | _, some (.slice ..) => "*sim.Slice"
  | _, some (.function _) => "*sim.Function"
  | _, some (.bound ..) => "*sim.BoundFunction"
  | _, some (.iterator _) => "*sim.SeqIterator"
  | _, some (.generator _) => "*sim.Generator"
  | .object _, none => ""

namespace Effect

/-- The item of a list at an index, counted from the end if negative. -/
def itemAt (v : Value) (index : Int64) : Effect Value := do
  let (_, items) ← sequence v
  let i := if index < 0 then index.toInt + items.length else index.toInt
  if 0 ≤ i ∧ i < items.length then require items[i.toNat]?
  else fault s!"list get {index.toInt} out of range (len={items.length})"

/-- A new list of the items between a number at the front and a number at the end. A negative
number at the end takes as many of the free cells behind the items along. -/
def cut (v : Value) (front back : Int64) : Effect Value := do
  let (_, place) ← window v
  let cells := (← get).storage.cells place
  let stop := place.length - back.toInt
  if place.length < wrap64 (front.toInt + back.toInt) then
    fault s!"list cut {front.toInt}+{back.toInt} exceeds len={place.length}"
  else if 0 ≤ front.toInt ∧ front.toInt ≤ stop ∧ stop ≤ cells.length then
    newCopy .list ((cells.take stop.toNat).drop front.toInt.toNat)
  else defect .invalidAccess

/-- Call a value with the items of a sequence. A class takes them where they are. -/
def callWith (caller : Caller) (f : Value) (place : Window) (keywords : List (Value × Value)) :
    Effect Value := do
  match f with
  | .cls c => instantiate caller c place keywords
  | f => caller (.value f ((← get).items place) keywords)

def setCause (caller : Caller) (exception cause : Value) : Effect Value := do
  let (_, _) ← require ((← get).record? exception)
  let cause ← match cause with
    | .none => pure .none
    | v => exceptionOf caller v
  let (c, fields) ← require ((← get).record? exception)
  write exception (.record c (fields.set "__cause__" cause))
  return exception

def library (caller : Caller) (m : LibraryMethod) (args : List Value) : Effect Value := do
  match m, args with
  | .getType, v :: _ =>
    match (← get).classOf? v with
    | some c => return .cls c
    | none => fault ("$getType on host value " ++ (← get).typeName v)
  | .getAttributeOrError, v :: .text name :: _ => getAttribute v name
  | .getAttributeOrNull, v :: .text name :: _ => return (← getAttribute? v name).getD .null
  | .call, f :: list :: rest =>
    match (← get).window? list, rest with
    | none, _ => fault ("$call positional arguments are " ++ (← get).formName list)
    | some (_, place), .null :: _ => callWith caller f place []
    | some (_, place), dict :: _ => callWith caller f place (← require ((← get).dict? dict))
    | some _, [] => defect .invalidAccess
  | .bindFunction, b :: self :: f :: _ =>
    match (← get).object? b with
    | some (.bound ..) =>
      write b (.bound self f)
      return .null
    | _ => defect .invalidAccess
  | .boundInstance, b :: _ =>
    match (← get).object? b with
    | some (.bound self _) => return self
    | _ => defect .invalidAccess
  | .getDefiningTypeOrNull, .cls c :: .text name :: _ =>
    return (((← get).definingClass? c name).map Value.cls).getD .null
  | .isInstance, .cls c :: v :: _ => return .flag ((← get).isInstance v c)
  | .getMethodOrError, .cls c :: .text name :: _ =>
    match ← getAttribute? (.cls c) name with
    | some v => return v
    | none => raise .attributeError (Library.noAttribute ((← get).className c) name)
  | .typeName, .cls c :: _ => return .text ((← get).className c)
  | .boolValueOf, .word n :: _ => return .bool (n != 0)
  | .intValueOf, .word n :: _ => newInt n
  | .strValueOf, .text s :: _ => newStr s
  | .initCollection, _ => return .null
  | .addFirst, s :: v :: _ =>
    changeItems s (·.prepend · v)
    return .null
  | .addToSet, s :: v :: _ =>
    addDistinct s v
    return .null
  | .addLast, s :: v :: _ =>
    changeItems s (·.append · [v])
    return .null
  | .extend, s :: v :: _ =>
    let items ← iterate caller v
    changeItems s (·.append · items)
    return .null
  | .itemAt, s :: .word i :: _ => itemAt s i
  | .size, s :: _ =>
    let (_, items) ← sequence s
    return .word (Int64.ofNat items.length)
  | .cut, s :: .word front :: .word back :: _ => cut s front back
  | .putEntry, d :: key :: v :: _ =>
    let entries ← require ((← get).dict? d)
    write d (.dict ((← get).putEntry key v entries))
    return .null
  | .initSlice, s :: start :: stop :: step :: _ =>
    match (← get).object? s with
    | some (.slice ..) =>
      write s (.slice start stop step)
      return .null
    | _ => defect .invalidAccess
  | .stopIterationValue, e :: _ =>
    let (_, fields) ← require ((← get).record? e)
    return (fields.get? "value").getD .null
  | .setCause, e :: cause :: _ => setCause caller e cause
  | .coerceToType, v :: .cls c :: _ =>
    let w ← get
    if v == .null || w.isInstance v c then return v
    else raise .typeError ("expected " ++ w.className c ++ ", got " ++ w.typeName v)
  | .currentTraceback, _ => return .none
  | .unsupportedOperands, .text symbol :: a :: b :: _ =>
    let w ← get
    newError .typeError (Library.unsupportedOperands symbol (w.typeName a) (w.typeName b))
  | .noAttribute, v :: .text name :: _ => missingAttribute v name
  | .notSupported, v :: .text name :: _ =>
    newError .typeError (Library.notSupported ((← get).typeName v) name)
  | .unpackTooFew, .word n :: .word k :: _ =>
    newError .valueError (Library.unpackTooFew n.toInt k.toInt)
  | .unpackTooMany, .word n :: _ => newError .valueError (Library.unpackTooMany n.toInt)
  | .unpackTooFewStarred, .word n :: .word k :: _ =>
    newError .valueError (Library.unpackTooFewStarred n.toInt k.toInt)
  | _, _ => defect .invalidAccess

end Effect

end HostLowering.Object
