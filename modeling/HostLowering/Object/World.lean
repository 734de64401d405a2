import HostLowering.Library.Names
import HostLowering.Object.Function
import HostLowering.Object.Storage

set_option autoImplicit false

/-! # The world of objects

The state in which code runs: the heap, the storage of sequences, the table of classes, and the
names under which classes, functions, code and variables are known. Running code changes the world
and ends with a value or stops: with a raised exception, which handlers can catch, or with a fault
of the code or a defect, which nothing catches.
-/

namespace HostLowering.Object

open Machine

/-! ## Objects -/

inductive SequenceKind where
  | tuple | list | set
deriving DecidableEq, Repr, Inhabited

def SequenceKind.cls : SequenceKind → ClassId
  | tuple => .tuple
  | list => .list
  | set => .set

/-- A suspended or running generator: the method that is its body, the arguments of the call that
made it, and the fields of its frame. -/
structure Generator where
  method : Method
  args : List Value
  fields : Table String Value
  running : Bool := false
  finished : Bool := false
deriving Inhabited

/-- An object on the heap. -/
inductive Entity where
  /-- An instance of a class with fields. A null field is an unset attribute. -/
  | record (cls : ClassId) (fields : Table String Value)
  | int (n : Int64)
  | str (s : String)
  | sequence (kind : SequenceKind) (place : Window)
  /-- A mapping in order of insertion. -/
  | dict (entries : List (Value × Value))
  | slice (start stop step : Value)
  | function (f : Function)
  | bound (self function : Value)
  /-- The items still to come. -/
  | iterator (rest : List Value)
  | generator (g : Generator)
deriving Inhabited

def Entity.cls : Entity → ClassId
  | record c _ => c
  | int _ => .int
  | str _ => .str
  | sequence k _ => k.cls
  | dict _ => .dict
  | slice .. => .slice
  | function _ => .function
  | bound .. => .method
  | iterator _ => .iterator
  | generator _ => .generator

/-! ## Classes -/

/-- A class: its name, its host class, its lineage from itself to the end of the chain of bases, its
attributes and its static fields. -/
structure ClassInfo where
  name : String
  host : String
  lineage : List ClassId
  attributes : Table String Value := []
  statics : Table String Value := []
deriving Inhabited

/-! ## The world -/

/-- The state in which code runs. -/
structure World where
  heap : Array Entity := #[]
  storage : Storage := {}
  classes : Array ClassInfo := #[]
  /-- The classes by host class; a later definition replaces an earlier one. -/
  byHost : Table String ClassId := []
  byName : Table String ClassId := []
  functions : Table String Value := []
  code : Table String Method := []
  vars : Table String Value := []
  /-- The calls of scripted functions, with their arguments as they were. -/
  log : Array (String × List View) := #[]
deriving Inhabited

/-- A fault of running code: the method and the instruction, once they are known, and the text. -/
structure Fault where
  place : Option (String × Nat) := none
  text : String
deriving DecidableEq, Repr, Inhabited

def Fault.message (f : Fault) : String :=
  match f.place with
  | none => "sim: " ++ f.text
  | some (method, pc) =>
    "sim: " ++ method ++ " at " ++ Text.padLeft 4 '0' (toString pc) ++ ": " ++ f.text

def Fault.atPlace (f : Fault) (method : String) (pc : Nat) : Fault :=
  { f with place := f.place.or (some (method, pc)) }

/-- Why running code stopped. -/
inductive Stop where
  | raised (exception : Value)
  | fault (f : Fault)
  | defect (d : Defect)
  | outOfFuel
deriving DecidableEq, Repr, Inhabited

/-- A step in the world of objects. -/
abbrev Effect := ExceptT Stop (StateM World)

namespace World

/-! ## Reading -/

def object? (w : World) : Value → Option Entity
  | .object r => w.heap[r.index]?
  | _ => none

def classOf? (w : World) : Value → Option ClassId
  | .null | .word _ | .text _ => none
  | .none => some .noneType
  | .notImplemented => some .notImplementedType
  | .bool _ => some .bool
  | .cls _ => some .type
  | .object r => (w.heap[r.index]?).map Entity.cls

def info (w : World) (c : ClassId) : ClassInfo := (w.classes[c.index]?).getD default

def className (w : World) (c : ClassId) : String := (w.info c).name

def typeName (w : World) (v : Value) : String :=
  match v with
  | .null => "<nil>"
  | .word _ => "int64"
  | .text _ => "string"
  | v => ((w.classOf? v).map w.className).getD ""

def lineage (w : World) (c : ClassId) : List ClassId := (w.info c).lineage

/-- Whether a class is another or derives from it. -/
def isSubclass (w : World) (c d : ClassId) : Bool := (w.lineage c).contains d

def isInstance (w : World) (v : Value) (c : ClassId) : Bool :=
  (w.classOf? v).any fun d => w.isSubclass d c

def attribute? (w : World) (c : ClassId) (name : String) : Option Value :=
  (w.lineage c).findSome? fun d => (w.info d).attributes.get? name

/-- The nearest class of the lineage that declares an attribute itself. -/
def definingClass? (w : World) (c : ClassId) (name : String) : Option ClassId :=
  (w.lineage c).find? fun d => (w.info d).attributes.has name

/-- Whether a value can be used as an instance of a host class. Every object is an `Object`, and
functions, bound functions and classes are functions. -/
def isHostInstance (w : World) (v : Value) (host : String) : Bool :=
  if host = Library.objectClass then (w.classOf? v).isSome
  else if host = Library.functionClass then
    match v, w.object? v with
    | .cls _, _ | _, some (.function _) | _, some (.bound ..) => true
    | _, _ => false
  else (w.classOf? v).any fun c => (w.lineage c).any fun d => (w.info d).host == host

/-- The number of an integer or a truth value. -/
def int? (w : World) (v : Value) : Option Int64 :=
  match v, w.object? v with
  | .bool b, _ => some (if b then 1 else 0)
  | _, some (.int n) => some n
  | _, _ => none

/-- The text of a string object. -/
def str? (w : World) (v : Value) : Option String :=
  match w.object? v with
  | some (.str s) => some s
  | _ => none

def items (w : World) (place : Window) : List Value := w.storage.items place

/-- The sort of a sequence and the place of its items. -/
def window? (w : World) (v : Value) : Option (SequenceKind × Window) :=
  match w.object? v with
  | some (.sequence k place) => some (k, place)
  | _ => none

def sequence? (w : World) (v : Value) : Option (SequenceKind × List Value) :=
  (w.window? v).map fun (k, place) => (k, w.items place)

def dict? (w : World) (v : Value) : Option (List (Value × Value)) :=
  match w.object? v with
  | some (.dict es) => some es
  | _ => none

/-- The class and the fields of an instance. -/
def record? (w : World) (v : Value) : Option (ClassId × Table String Value) :=
  match w.object? v with
  | some (.record c fields) => some (c, fields)
  | _ => none

def function? (w : World) (v : Value) : Option Function :=
  match w.object? v with
  | some (.function f) => some f
  | _ => none

def generator? (w : World) (v : Value) : Option Generator :=
  match w.object? v with
  | some (.generator g) => some g
  | _ => none

/-- The text of a string object or a host text, empty for anything else. -/
def textOf (w : World) (v : Value) : String :=
  match v with
  | .text s => s
  | v => (w.str? v).getD ""

/-! ## Writing -/

/-- The world with a new object. -/
def push (w : World) (o : Entity) : World := { w with heap := w.heap.push o }

/-- The world with an object changed. -/
def put (w : World) (r : Ref) (o : Entity) : World :=
  { w with heap := w.heap.setIfInBounds r.index o }

def changeClass (w : World) (c : ClassId) (f : ClassInfo → ClassInfo) : World :=
  { w with classes := w.classes.modify c.index f }

def setAttribute (w : World) (c : ClassId) (name : String) (v : Value) : World :=
  w.changeClass c fun i => { i with attributes := i.attributes.set name v }

def setStatic (w : World) (c : ClassId) (name : String) (v : Value) : World :=
  w.changeClass c fun i => { i with statics := i.statics.set name v }

def defineClass (w : World) (name host : String) (base : Option ClassId) : ClassId × World :=
  let c : ClassId := ⟨w.classes.size⟩
  let inherited := (base.map w.lineage).getD []
  (c, { w with
    classes := w.classes.push { name, host, lineage := c :: inherited }
    byHost := w.byHost.set host c
    byName := w.byName.set name c })

end World

namespace Effect

def defect {α : Type} (d : Defect) : Effect α := throw (.defect d)

/-- The value of an option, or the defect of using an absent one. -/
def require {α : Type} : Option α → Effect α
  | some a => return a
  | none => defect .invalidAccess

def fault {α : Type} (text : String) : Effect α := throw (.fault { text })

def attempt {α : Type} (step : Effect α) : Effect (Except Stop α) := fun w =>
  let (r, w) := step.run w
  (.ok r, w)

/-- Put an object on the heap. -/
def alloc (o : Entity) : Effect Value :=
  modifyGet fun w => (.object ⟨w.heap.size⟩, w.push o)

/-- Change the object behind a value. -/
def write (v : Value) (o : Entity) : Effect Unit :=
  match v with
  | .object r => modify fun w => w.put r o
  | _ => defect .invalidAccess

def newInt (n : Int64) : Effect Value := alloc (.int n)

def newStr (s : String) : Effect Value := alloc (.str s)

def withStorage (step : Storage → Window × Storage) : Effect Window :=
  modifyGet fun w => let (place, storage) := step w.storage; (place, { w with storage })

/-- Put items into a block of their number. -/
def store (items : List Value) : Effect Window := withStorage (·.add items items.length)

def newTuple (items : List Value) : Effect Value := do alloc (.sequence .tuple (← store items))

def newList (items : List Value) : Effect Value := do alloc (.sequence .list (← store items))

def newCopy (kind : SequenceKind) (items : List Value) : Effect Value := do
  alloc (.sequence kind (← withStorage (·.copy items)))

/-- A new sequence that starts with some items and got the others one after the other. -/
def newGrown (kind : SequenceKind) (first others : List Value) : Effect Value := do
  let place ← others.foldlM (fun place v => withStorage (·.append place [v])) (← store first)
  alloc (.sequence kind place)

end Effect

end HostLowering.Object
