import HostLowering.Table
import HostLowering.Toml.Expression

set_option autoImplicit false

/-! # Documents

The tables that the statements of a document build together. A key may be set once; a table that
came about only as part of a longer key may still be given its own header, and an array assigned to
such a key takes the place of the table. The document also keeps the paths of its keys in the order
they were written.
-/

namespace HostLowering.Toml

/-- A value of a document. `tables` is an array of tables grown by headers, the latest first. -/
inductive Value where
  | string (s : String)
  | integer (n : Int)
  | float
  | bool (b : Bool)
  | moment
  | array (items : List Value)
  | table (entries : List (String × Value))
  | tables (elements : List (List (String × Value)))
deriving Repr, Inhabited

/-- The entries of a table in order of insertion. -/
abbrev Entries := Table String Value

/-- A document under construction: its root table, the table that assignments go to, the tables
that have no header of their own yet, the keys that hold arrays, and the paths written so far,
latest first. -/
structure Builder where
  root : Entries := []
  context : Path := []
  implicits : List Path := []
  arrays : List Path := []
  written : List Path := []
deriving Inhabited

/-- A step of building a document; it fails when the statements contradict each other. -/
abbrev Building := StateT Builder Option

namespace Builder

/-- The value at a path; an array of tables stands for its latest element. -/
def lookup : Entries → Path → Option Value
  | t, [] => some (.table t)
  | t, k :: rest =>
    match t.get? k with
    | some (.table sub) => lookup sub rest
    | some (.tables (last :: others)) =>
      match rest with
      | [] => some (.tables (last :: others))
      | _ => lookup last rest
    | some v => if rest.isEmpty then some v else none
    | none => none

/-- Change the table at a path. -/
def modifyAt (f : Entries → Option Entries) : Path → Entries → Option Entries
  | [], t => f t
  | k :: rest, t =>
    match t.get? k with
    | some (.table sub) => (modifyAt f rest sub).map fun sub => t.set k (.table sub)
    | some (.tables (last :: others)) =>
      (modifyAt f rest last).map fun last => t.set k (.tables (last :: others))
    | _ => none

end Builder

namespace Building

/-- Change the root table. -/
def modifyRoot (f : Entries → Option Entries) : Building Unit := fun b => do
  let root ← f b.root
  return ((), { b with root })

/-- Take a table for one without a header of its own. -/
def addImplicit (path : Path) : Building Unit :=
  modify fun b => { b with implicits := path :: b.implicits.erase path }

/-- Take a table for one with its own header. -/
def removeImplicit (path : Path) : Building Unit :=
  modify fun b => { b with implicits := b.implicits.erase path }

/-- Note whether a key of the current table holds an array. The empty key stands for the table
itself. -/
def noteArray (key : String) (isArray : Bool) : Building Unit :=
  modify fun b =>
    let path := if key = "" then b.context else b.context ++ [key]
    let path := if path.isEmpty then [""] else path
    let arrays := b.arrays.erase path
    { b with arrays := if isArray then path :: arrays else arrays }

/-- Set a key of the current table. A key that is already there must be one without a header of its
own: an array replaces what it holds, and otherwise its table stays. -/
def setValue (key : String) (value : Value) : Building Unit := do
  let b ← get
  let path := b.context ++ [key]
  match Builder.lookup b.root b.context with
  | some (.table t) => go b path t
  | some (.tables (t :: _)) => go b path t
  | _ => failure
where
  go (b : Builder) (path : Path) (t : Entries) : Building Unit := do
    let store := modifyRoot (Builder.modifyAt (fun t => some (t.set key value)) b.context)
    if !t.has key then store
    else if b.implicits.contains path then
      removeImplicit path
      if b.arrays.contains path then store
    else failure

/-- Create the tables on the way to a path that do not exist yet. -/
def openParents (above : Path) : Path → Building Unit
  | [] => pure ()
  | k :: rest => do
    let here := above ++ [k]
    match Builder.lookup (← get).root here with
    | none =>
      addImplicit here
      modifyRoot (Builder.modifyAt (fun t => some (t.set k (.table []))) above)
    | some (.table _) => pure ()
    | some (.tables _) => pure ()
    | some _ => failure
    openParents here rest

/-- Append an element to the array of tables under a key. -/
def appendTable (key : String) (t : Entries) : Option Entries :=
  match t.get? key with
  | none => some (t.set key (.tables [[]]))
  | some (.tables ts) => some (t.set key (.tables ([] :: ts)))
  | some _ => none

/-- Make the table at a path the current one: a new element of an array of tables, or a table that
has no header yet. -/
def enter (path : Path) (asElement : Bool) : Building Unit := do
  let parents := path.dropLast
  let key := path.getLastD ""
  openParents [] parents
  modify fun b => { b with context := parents }
  if asElement then modifyRoot (Builder.modifyAt (appendTable key) parents)
  else setValue key (.table [])
  modify fun b => { b with context := path }

/-- Enter the tables named by the front parts of a dotted key. -/
def enterParts : Path → Building Unit
  | [] => pure ()
  | part :: rest => do
    let path := (← get).context ++ [part]
    addImplicit path
    enter path false
    enterParts rest

def noteWritten (key : String) : Building Unit :=
  modify fun b => { b with written := (b.context ++ [key]) :: b.written }

/-- Run a step and make the former table the current one again. -/
def within {α : Type} (step : Building α) : Building α := do
  let context := (← get).context
  let a ← step
  modify fun b => { b with context }
  return a

def insertAt (value : Value) : Path → Entries → Option Entries
  | [], _ => none
  | [k], t => some (t.set k value)
  | k :: rest, t =>
    match t.get? k with
    | none => (insertAt value rest []).map fun sub => t.set k (.table sub)
    | some (.table sub) => (insertAt value rest sub).map fun sub => t.set k (.table sub)
    | some _ => none

mutual

/-- The value of an expression assigned to a key of the current table. -/
def evaluate (key : String) (inArray : Bool) : Expr → Building Value
  | .string s => pure (.string s)
  | .integer n => pure (.integer n)
  | .float => pure .float
  | .bool b => pure (.bool b)
  | .moment => pure .moment
  | .array items => do
    noteArray key true
    return .array (← evaluateAll key items)
  | .inline entries => within do
      let path := (← get).context ++ [key]
      addImplicit path
      enter path inArray
      return .table (← evaluateEntries [] entries)

/-- The values of the items of an array. -/
def evaluateAll (key : String) : List Expr → Building (List Value)
  | [] => pure []
  | e :: rest => do
    let v ← evaluate key true e
    let vs ← evaluateAll key rest
    return v :: vs

/-- The entries of an inline table, added to those already known. -/
def evaluateEntries (known : Entries) : List (Path × Expr) → Building Entries
  | [] => pure known
  | (path, e) :: rest => do
    let key := path.getLastD ""
    let v ← within do
      enterParts path.dropLast
      noteWritten key
      let v ← evaluate key false e
      setValue key v
      noteArray key (match e with | .array _ => true | _ => false)
      return v
    let known ← StateT.lift (insertAt v path known)
    evaluateEntries known rest

end

def perform : Statement → Building Unit
  | .table path => do
    enter path false
    noteArray "" false
    modify fun b => { b with written := path :: b.written }
  | .tableArray path => do
    enter path true
    noteArray "" false
    modify fun b => { b with written := path :: b.written }
  | .assign path e => within do
      let key := path.getLastD ""
      enterParts path.dropLast
      noteWritten key
      let v ← evaluate key false e
      setValue key v
      noteArray key (match e with | .array _ => true | _ => false)

end Building

/-- A document: its root table and the paths of its keys in written order. -/
structure Document where
  root : Entries
  written : List Path
deriving Inhabited

def Document.ofBytes? (bs : List UInt8) : Option Document := do
  let statements ← readDocument bs
  let (_, b) ← (statements.forM Building.perform).run {}
  return ⟨b.root, b.written.reverse⟩

/-! ## Keys in texts -/

def quoteKeyChar (c : Char) : String :=
  match c.toNat with
  | 0x22 => "\\\""
  | 0x5c => "\\\\"
  | 0x08 => "\\b"
  | 0x09 => "\\t"
  | 0x0a => "\\n"
  | 0x0c => "\\f"
  | 0x0d => "\\r"
  | n => if n < 0x20 || n = 0x7f then "\\u" ++ Text.hex 4 n else c.toString

/-- A part of a key, quoted unless it can stand bare. -/
def showPart (s : String) : String :=
  if s ≠ "" && s.toList.all isBareKeyChar then s
  else "\"" ++ String.join (s.toList.map quoteKeyChar) ++ "\""

/-- A dotted key. -/
def showPath (p : Path) : String := String.intercalate "." (p.map showPart)

end HostLowering.Toml
