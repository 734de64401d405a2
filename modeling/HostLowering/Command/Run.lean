import HostLowering.Archive.Basic
import HostLowering.Command.Flags
import HostLowering.Config.Manifest
import HostLowering.Machine.Listing
import HostLowering.Machine.Verifier

set_option autoImplicit false

/-! # The command line

Commands over archives (listing, verification, hashes) and a listing of the configured catalog.
A run takes its arguments and a file system to an exit code and the two output texts.
-/

namespace HostLowering.Command

open Archive Catalog Config Files Machine

/-- What a run leaves behind. -/
structure Outcome where
  code : Nat := 0
  stdout : String := ""
  stderr : String := ""
deriving DecidableEq, Repr, Inhabited

/-- The option of the program. -/
def verbosityFlag : Flag :=
  ⟨"v", .int, "Log verbosity (overrides [log] verbosity)", "-1"⟩

/-- The option of the catalog command. -/
def manifestFlag : Flag :=
  ⟨"manifest", .text, "Directory to search for " ++ fileName, "."⟩

def usage : String :=
  "Usage: pylower [options] <command> [args]\n\n"
    ++ "Commands:\n"
    ++ "  disasm FILE             Disassemble every method in an archive\n"
    ++ "  verify FILE             Run the stack verifier over an archive\n"
    ++ "  hash FILE               Print the content hash of each method\n"
    ++ "  catalog [-manifest DIR] List the configured catalog types\n"
    ++ "\nOptions:\n" ++ verbosityFlag.describe

def catalogUsage : String := "Usage of catalog:\n" ++ manifestFlag.describe

def Outcome.failed (message : String) : Outcome :=
  { code := 1, stderr := "Error: " ++ message ++ "\n" }

def fullName (m : Method) : String := m.owner ++ "." ++ m.name

/-- The listing of one method with its heading. -/
def showMethod (m : Method) : Except Defect String := do
  let listing ← m.listing
  let sizes := s!" max_stack={m.maxStack} max_locals={m.maxLocals}\n"
  return fullName m ++ sizes ++ listing ++ "\n"

/-- The listing of methods, divided by blank lines. -/
def disassemble (ms : List (Option Method)) : Except Defect Outcome := do
  let shown ← ms.mapM fun m => do showMethod (← need m)
  return { stdout := String.intercalate "\n" shown }

/-- The verdict on a method: whether it passes, and the line that says so. A declared depth of zero
is not compared. -/
def verdict (m : Method) : Bool × String :=
  match verify m with
  | .error e => (false, "FAIL " ++ fullName m ++ ": " ++ e.message ++ "\n")
  | .ok v =>
    if m.maxStack ≠ 0 ∧ m.maxStack ≠ v.maxStack then
      (false, "FAIL " ++ fullName m
        ++ s!": max_stack {m.maxStack}, verifier computed {v.maxStack}\n")
    else (true, "ok   " ++ fullName m ++ s!" max_stack={v.maxStack}\n")

def verifyAll (ms : List Method) : Outcome :=
  let verdicts := ms.map verdict
  let stdout := String.join (verdicts.map Prod.snd)
  let failed := verdicts.countP fun v => !v.1
  if failed = 0 then { stdout }
  else
    let total := ms.length
    { Outcome.failed s!"{failed} of {total} methods failed verification" with stdout }

def hashAll (ms : List Method) : Outcome :=
  { stdout := String.join (ms.map fun m =>
      Text.hexBytes (contentHash m) ++ "  " ++ fullName m ++ "\n") }

def listTypes (r : Registry) : String :=
  String.join (r.sortedTypes.map fun t =>
    Text.padRight 24 t.name ++ " " ++ Text.padRight 32 t.host ++ " "
      ++ ((t.base.map r.typeName).getD "") ++ "\n")

variable {m : Type → Type} [Monad m]

def withArchive (fs : FileSystem m) (args : List String)
    (command : List (Option Method) → Except Defect Outcome) : m (Except Defect Outcome) := do
  match args with
  | [path] =>
    match ← fs.read path with
    | .error e =>
      return .ok (.failed ("wire: cannot read " ++ path ++ ": " ++ e.message path))
    | .ok bs =>
      match decodeArchive bs with
      | .error e => return .ok (.failed e.message)
      | .ok a => return command (a.methods.getD [])
  | _ => return .ok (.failed "expected exactly one archive file")

def listCatalog (fs : FileSystem m) (args : List String) : m Outcome := do
  match readFlags [manifestFlag] args with
  | .error e =>
    let failed := Outcome.failed e.message
    return { failed with stderr := e.report ++ catalogUsage ++ failed.stderr }
  | .ok (values, _) =>
    let dir := match values.get? manifestFlag.name with
      | some (.text s) => s
      | _ => manifestFlag.default
    match ← Manifest.find fs dir with
    | .error e => return .failed e.message
    | .ok none => return { stdout := listTypes Registry.builtin }
    | .ok (some c) =>
      match ← c.registry fs with
      | .error e => return .failed e.message
      | .ok r => return { stdout := listTypes r }

def run (fs : FileSystem m) (args : List String) : m (Except Defect Outcome) := do
  match readFlags [verbosityFlag] args with
  | .error e => return .ok { code := 2, stderr := e.report ++ usage }
  | .ok (_, []) => return .ok { code := 2, stderr := usage }
  | .ok (_, command :: rest) =>
    match ← Manifest.find fs "." with
    | .error e => return .ok (.failed e.message)
    | .ok _ =>
      match command with
      | "disasm" => withArchive fs rest disassemble
      | "verify" => withArchive fs rest fun ms => return verifyAll (← ms.mapM need)
      | "hash" => withArchive fs rest fun ms => return hashAll (← ms.mapM need)
      | "catalog" => return .ok (← listCatalog fs rest)
      | _ =>
        return .ok {
          code := 2
          stderr := "unknown command " ++ Text.quote command ++ "\n" ++ usage }

end HostLowering.Command
