import HostLowering.Files.Path

set_option autoImplicit false

/-! # Files

What the program needs of a file system, and a file system that is a plain value. Looking up a path
goes part by part: every part but the last must be a directory, and `..` leads to the parent of the
directory reached so far. Names and whole paths have a greatest size in bytes.
-/

namespace HostLowering.Files

/-- Why a file cannot be read. -/
inductive FileError where
  | notFound
  | notDirectory
  | isDirectory
  | invalidName
  | nameTooLong
  | other (text : String)
deriving DecidableEq, Repr

/-- The text of a failure to read a file. -/
def FileError.message (path : String) : FileError → String
  | notFound => "open " ++ path ++ ": no such file or directory"
  | notDirectory => "open " ++ path ++ ": not a directory"
  | isDirectory => "read " ++ path ++ ": is a directory"
  | invalidName => "open " ++ path ++ ": invalid argument"
  | nameTooLong => "open " ++ path ++ ": file name too long"
  | other text => "open " ++ path ++ ": " ++ text

structure FileSystem (m : Type → Type) where
  read : String → m (Except FileError (List UInt8))
  /-- Whether there is a file or directory at the path. -/
  isPresent : String → m Bool
  currentDir : m String

inductive Node where
  | file (bytes : List UInt8)
  | directory
deriving Repr, Inhabited

/-- A file system as a value: the nodes by the parts of their absolute paths. The directories above
a node are there without being listed. -/
structure Tree where
  nodes : List (List String × Node)
  current : List String
deriving Inhabited

namespace Tree

/-- The node at the parts of an absolute path without `.` and `..`. -/
def nodeAt (t : Tree) (path : List String) : Option Node :=
  match t.nodes.lookup path with
  | some n => some n
  | none =>
    if path.isPrefixOf t.current || t.nodes.any (fun n => path.isPrefixOf n.1) then some .directory
    else none

/-- The greatest size of the name of a file or directory, in bytes. -/
def greatestName : Nat := 255

def greatestPath : Nat := 4095

/-- Follow the parts of a path from a directory. A name that is too long is refused when the walk
comes to it. -/
def walk (t : Tree) : List String → List String → Except FileError Node
  | here, [] =>
    match t.nodeAt here with
    | some n => .ok n
    | none => .error .notFound
  | here, part :: rest =>
    match t.nodeAt here with
    | none => .error .notFound
    | some (.file _) => .error .notDirectory
    | some .directory =>
      match part with
      | "" => walk t here rest
      | "." => walk t here rest
      | ".." => walk t here.dropLast rest
      | name =>
        if name.utf8ByteSize > greatestName then .error .nameTooLong
        else walk t (here ++ [name]) rest

def find (t : Tree) (path : String) : Except FileError Node :=
  if path = "" then .error .notFound
  else if path.toList.contains '\x00' then .error .invalidName
  else if path.utf8ByteSize > greatestPath then .error .nameTooLong
  else t.walk (if isAbsolute path then [] else t.current) (parts path)

def fileSystem (t : Tree) : FileSystem Id where
  read path := match t.find path with
    | .ok (.file bs) => .ok bs
    | .ok .directory => .error .isDirectory
    | .error e => .error e
  isPresent path := match t.find path with
    | .ok _ => true
    | .error _ => false
  currentDir := "/" ++ String.intercalate "/" t.current

end Tree

end HostLowering.Files
