import HostLowering.Command.Run

set_option autoImplicit false

/-! # The program

Runs the command line on the files of the machine.
-/

namespace HostLowering

open Files

/-- A failure to read a file, by its cause. -/
def fileError : IO.Error → FileError
  | .noFileOrDirectory .. => .notFound
  | .inappropriateType .. => .isDirectory
  | e => .other (toString e)

def readBytes (path : String) : IO (Except FileError (List UInt8)) := do
  try
    let bytes ← IO.FS.readBinFile path
    return .ok bytes.toList
  catch e => return .error (fileError e)

def machineFiles : FileSystem IO where
  read := readBytes
  isPresent path := do
    match ← readBytes path with
    | .error .notFound => return false
    | _ => return true
  currentDir := return (← IO.currentDir).toString

end HostLowering

open HostLowering in
/-- Run the program on its arguments. -/
def main (args : List String) : IO UInt32 := do
  match ← Command.run machineFiles args with
  | .ok o =>
    (← IO.getStdout).putStr o.stdout
    (← IO.getStderr).putStr o.stderr
    return o.code.toUInt32
  | .error d =>
    (← IO.getStderr).putStrLn (d.message?.getD "invalid access")
    return 2
