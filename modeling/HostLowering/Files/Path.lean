set_option autoImplicit false

/-! # Paths

The lexical rules of slash-separated paths: normal form, joining, parents. None of them looks at
the files.
-/

namespace HostLowering.Files

/-- Whether a path starts at the root. -/
def isAbsolute (p : String) : Bool := p.toList.head? == some '/'

/-- The parts of a path between slashes. -/
def parts (p : String) : List String := p.splitOn "/"

/-- Take one part into account; `done` holds the parts kept so far, latest first. -/
def normalizePart (rooted : Bool) (done : List String) (part : String) : List String :=
  match part with
  | "" => done
  | "." => done
  | ".." =>
    match done with
    | [] => if rooted then [] else [".."]
    | ".." :: _ => ".." :: done
    | _ :: above => above
  | name => name :: done

/-- The normal form of a path: no empty parts, no `.`, and `..` only at the front of a relative
path. -/
def normalize (p : String) : String :=
  let rooted := isAbsolute p
  let kept := ((parts p).foldl (normalizePart rooted) []).reverse
  let body := String.intercalate "/" kept
  if rooted then "/" ++ body
  else if body = "" then "."
  else body

/-- Two paths joined and normalized; an empty one is left out. -/
def join (a b : String) : String :=
  if a = "" then if b = "" then "" else normalize b
  else normalize (a ++ "/" ++ b)

/-- A path as seen from the root, given the current directory. -/
def absolute (current p : String) : String := if isAbsolute p then normalize p else join current p

/-- A normalized absolute path, its parent, and so on up to the root. -/
def selfAndAbove (p : String) : List String :=
  let names := (parts p).filter (· ≠ "")
  (List.range (names.length + 1)).reverse.map fun n => "/" ++ String.intercalate "/" (names.take n)

end HostLowering.Files
