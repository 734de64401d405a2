import HostLowering.Archive.Digest
import HostLowering.Archive.Record

set_option autoImplicit false

/-! # Archives

An archive holds the methods emitted for one unit of source. Its record has the fields 1 version,
2 unit and 3 methods; the list of methods may be absent, and so may single methods. The content
hash of a method is the digest of its canonical bytes with the greatest depth set to zero, since
that number follows from the code.
-/

namespace HostLowering.Archive

open Cbor Machine

/-- The version every archive is written with. -/
def formatVersion : Int := 1

/-- The methods of one unit. -/
structure Bundle where
  version : Int := 0
  unit : String := ""
  methods : Option (List (Option Method)) := none
deriving DecidableEq, Repr, Inhabited

inductive ReadError where
  | notMethod
  | notArchive
  | unsupportedVersion (version : Int)
deriving DecidableEq, Repr

def ReadError.message : ReadError → String
  | notMethod => "wire: unmarshal method"
  | notArchive => "wire: unmarshal archive"
  | unsupportedVersion v => s!"wire: unsupported archive version {v}"

def encodeMethod (m : Method) : List UInt8 := (methodItem m).encode

/-- The method with the given bytes. -/
def decodeMethod (bs : List UInt8) : Except ReadError Method :=
  match (readDocument bs).bind readMethod with
  | some m => .ok m
  | none => .error .notMethod

def archiveItem (a : Bundle) : Item :=
  .map (entry 1 (.int a.version) ++ entry 2 (.string a.unit)
    ++ entry 3 (match a.methods with
      | some ms => .array (ms.map fun m => (m.map methodItem).getD .null)
      | none => .null))

/-- The bytes of an archive. Version zero stands for the current version. -/
def encodeArchive (a : Bundle) : List UInt8 :=
  (archiveItem { a with version := if a.version = 0 then formatVersion else a.version }).encode

/-- The methods of an archive, of which null means none. -/
def readMethods (i : Item) : Option (Option (List (Option Method))) :=
  if i.isNull then some none else (readList (readOptional readMethod) i).map some

def readArchive (i : Item) : Option Bundle := do
  let r ← readRecord i
  return {
    version := ← field r 1 0 readInt64
    unit := ← field r 2 "" readString
    methods := ← field r 3 none readMethods }

/-- The archive with the given bytes, if it has the current version. -/
def decodeArchive (bs : List UInt8) : Except ReadError Bundle :=
  match (readDocument bs).bind readArchive with
  | some a => if a.version = formatVersion then .ok a else .error (.unsupportedVersion a.version)
  | none => .error .notArchive

def contentHash (m : Method) : List UInt8 := Digest.sha256 (encodeMethod { m with maxStack := 0 })

end HostLowering.Archive
