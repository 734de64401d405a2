import HostLowering.Text.Fold
import HostLowering.Toml.Document

set_option autoImplicit false

/-! # Records from documents

A table is read as a record by matching its keys with the names of the fields, exactly or else
without regard to case. Keys that match no field are skipped. A value of another type than its
field makes the record unreadable.
-/

namespace HostLowering.Toml

def matchField (fields : List String) (key : String) : Option String :=
  (fields.find? (· == key)).or (fields.find? (Text.equalFold · key))

def Value.string? : Value → Option String
  | .string s => some s
  | _ => none

def Value.bool? : Value → Option Bool
  | .bool b => some b
  | _ => none

def Value.integer? : Value → Option Int
  | .integer n => some n
  | _ => none

def Value.table? : Value → Option Entries
  | .table t => some t
  | _ => none

/-- A list, written as an array or grown by headers. -/
def Value.list? {α : Type} (read : Value → Option α) : Value → Option (List α)
  | .array items => items.mapM read
  | .tables ts => ts.reverse.mapM fun t => read (.table t)
  | _ => none

/-- A record: every matched entry changes the record read so far. -/
def readRecord {α : Type} (fields : List String) (assign : α → String → Value → Option α)
    (empty : α) (t : Entries) : Option α :=
  t.foldlM (fun record (key, value) =>
    match matchField fields key with
    | some f => assign record f value
    | none => some record) empty

end HostLowering.Toml
