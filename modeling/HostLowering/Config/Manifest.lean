import HostLowering.Catalog.Builtin
import HostLowering.Catalog.File
import HostLowering.Files.Tree
import HostLowering.Lower.Operator

set_option autoImplicit false

/-! # The manifest

The configuration of a project: the dialect of exception handlers, whether methods are verified,
the catalog files, and how much is logged. It is read from a file in the project's directory, or
from the nearest directory above that has one. Every key of the file must be known.
-/

namespace HostLowering.Config

open Catalog Files Lower Toml

def fileName : String := "pylower.toml"

/-- A configuration. `dir` is the directory of its file, empty if it did not come from one. -/
structure Manifest where
  dialect : Dialect
  verify : Bool := true
  files : List String := []
  verbosity : Int := 0
  dir : String := ""
deriving Repr, Inhabited

/-- The configuration as written. -/
structure Settings where
  dialect : String := ""
  verify : Option Bool := none
  files : List String := []
  verbosity : Int := 0
deriving Repr, Inhabited

def sections : Table String (List String) :=
  [("lower", ["dialect", "verify"]), ("catalog", ["files"]), ("log", ["verbosity"])]

/-- Set a field of the configuration. -/
def Settings.assign (s : Settings) (field : String) (v : Value) : Option Settings := do
  match field with
  | "dialect" => return { s with dialect := ← v.string? }
  | "verify" => return { s with verify := some (← v.bool?) }
  | "files" => return { s with files := ← v.list? Value.string? }
  | _ => return { s with verbosity := ← v.integer? }

def Settings.ofDocument? (d : Document) : Option Settings :=
  readRecord sections.keys (fun s name v => do
    let t ← v.table?
    readRecord ((sections.get? name).getD []) Settings.assign s t) {} d.root

/-- Whether a key of the file is one of the configuration. A key inside a section counts only if the
section still holds it: an array that was replaced by a table is gone with its contents. -/
def isKnown (root : Entries) : Path → Bool
  | [name] => (matchField sections.keys name).isSome
  | [name, field] =>
    match (matchField sections.keys name).bind sections.get?, root.get? name with
    | some fields, some (.table t) => (matchField fields field).isSome && Table.has t field
    | _, _ => false
  | _ => false

/-- Why a text is not a configuration. -/
inductive ManifestError where
  | unreadable
  | unknownKey (path : Path)
  | dialectMissing
  | unknownDialect (name : String)
deriving DecidableEq, Repr

/-- The text of a configuration error. -/
def ManifestError.message : ManifestError → String
  | unreadable => "parse error"
  | unknownKey p => "unknown key " ++ showPath p
  | dialectMissing => "[lower] dialect is required"
  | unknownDialect s => "[lower] " ++ Dialect.unknownMessage s

/-- The configuration with the given bytes. -/
def Manifest.parse (bs : List UInt8) : Except ManifestError Manifest :=
  match Document.ofBytes? bs with
  | none => .error .unreadable
  | some d =>
    match Settings.ofDocument? d with
    | none => .error .unreadable
    | some s =>
      match d.written.find? (!isKnown d.root ·) with
      | some p => .error (.unknownKey p)
      | none =>
        if s.dialect = "" then .error .dialectMissing
        else match Dialect.ofName? s.dialect with
          | none => .error (.unknownDialect s.dialect)
          | some dialect => .ok {
              dialect, verify := s.verify.getD true, files := s.files
              verbosity := s.verbosity }

/-! ## Files -/

/-- Why a configuration or its catalog cannot be loaded. -/
inductive ConfigError where
  | manifestNotReadable (path : String) (e : FileError)
  | manifest (path : String) (e : ManifestError)
  | catalogNotReadable (path : String) (e : FileError)
  | catalog (path : String) (e : LoadError)
deriving Repr

def ConfigError.message : ConfigError → String
  | manifestNotReadable p e => "manifest: cannot read " ++ p ++ ": " ++ e.message p
  | manifest p e => "manifest: " ++ p ++ ": " ++ e.message
  | catalogNotReadable p e => "catalog: cannot read " ++ p ++ ": " ++ e.message p
  | catalog p e => "catalog: " ++ p ++ ": " ++ e.message

variable {m : Type → Type} [Monad m]

def Manifest.load (fs : FileSystem m) (dir : String) : m (Except ConfigError Manifest) := do
  let path := join dir fileName
  match ← fs.read path with
  | .error e => return .error (.manifestNotReadable path e)
  | .ok bs =>
    match Manifest.parse bs with
    | .error e => return .error (.manifest path e)
    | .ok c => return .ok { c with dir := absolute (← fs.currentDir) dir }

/-- The configuration in the first of some directories that has one. -/
def Manifest.loadFirst (fs : FileSystem m) : List String → m (Except ConfigError (Option Manifest))
  | [] => return .ok none
  | dir :: rest => do
    if ← fs.isPresent (join dir fileName) then
      return (← Manifest.load fs dir).map some
    else loadFirst fs rest

/-- The configuration in a directory or the nearest one above. -/
def Manifest.find (fs : FileSystem m) (dir : String) :
    m (Except ConfigError (Option Manifest)) := do
  Manifest.loadFirst fs (selfAndAbove (absolute (← fs.currentDir) dir))

namespace Manifest

def catalogPaths (c : Manifest) : List String :=
  c.files.map fun f => if isAbsolute f then f else join c.dir f

def loadCatalogs (fs : FileSystem m) : Registry → List String → m (Except ConfigError Registry)
  | r, [] => return .ok r
  | r, path :: rest => do
    match ← fs.read path with
    | .error e => return .error (.catalogNotReadable path e)
    | .ok bs =>
      match r.load bs with
      | (.error e, _) => return .error (.catalog path e)
      | (.ok (), r) => loadCatalogs fs r rest

/-- The builtin types and those of the catalog files. -/
def registry (fs : FileSystem m) (c : Manifest) : m (Except ConfigError Registry) :=
  loadCatalogs fs Registry.builtin c.catalogPaths

end Manifest

end HostLowering.Config
