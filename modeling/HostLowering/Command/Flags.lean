import HostLowering.Table
import HostLowering.Text.Integer
import HostLowering.Text.Quoted

set_option autoImplicit false

/-! # Flags

Options in front of the arguments of a command. An option is `-name value` or `-name=value`, with
one or two dashes; `--` ends the options, and so does the first argument that is none.
-/

namespace HostLowering.Command

/-- What an option takes. -/
inductive FlagKind where
  | int | text
deriving DecidableEq, Repr, Inhabited

/-- An option. `default` is shown in the usage. -/
structure Flag where
  name : String
  kind : FlagKind
  usage : String
  default : String
deriving Repr, Inhabited

inductive FlagValue where
  | int (n : Int)
  | text (s : String)
deriving DecidableEq, Repr

/-- Why options cannot be read. -/
inductive FlagError where
  | badForm (arg : String)
  | undefined (name : String)
  | needsArgument (name : String)
  | invalidValue (value name : String) (cause : Text.IntegerError)
  | helpRequested
deriving DecidableEq, Repr

def FlagError.message : FlagError → String
  | badForm arg => "bad flag syntax: " ++ arg
  | undefined name => "flag provided but not defined: -" ++ name
  | needsArgument name => "flag needs an argument: -" ++ name
  | invalidValue value name cause =>
    let reason := match cause with
      | .malformed => "parse error"
      | .outOfRange => "value out of range"
    "invalid value " ++ Text.quote value ++ " for flag -" ++ name ++ ": " ++ reason
  | helpRequested => "flag: help requested"

/-- What is printed about an error, above the usage. -/
def FlagError.report : FlagError → String
  | helpRequested => ""
  | e => e.message ++ "\n"

/-- The usage of an option. -/
def Flag.describe (f : Flag) : String :=
  match f.kind with
  | .int => "  -" ++ f.name ++ " int\n    \t" ++ f.usage ++ " (default " ++ f.default ++ ")\n"
  | .text =>
    "  -" ++ f.name ++ " string\n    \t" ++ f.usage ++ " (default " ++ Text.quote f.default ++ ")\n"

/-- The value an option gets from a text. -/
def Flag.read (f : Flag) (s : String) : Except FlagError FlagValue :=
  match f.kind with
  | .text => .ok (.text s)
  | .int =>
    match Text.readInteger s with
    | .ok n => .ok (.int n)
    | .error e => .error (.invalidValue s f.name e)

/-- What an argument is to the reader of options. -/
inductive Argument where
  | plain
  | endOfFlags
  | bad
  | option (name : String) (value : Option String)
deriving DecidableEq, Repr

def Argument.ofString (s : String) : Argument :=
  let named (cs : List Char) : Argument :=
    match cs with
    | [] => .bad
    | c :: rest =>
      if c = '-' || c = '=' then .bad
      else
        let name := c :: rest.takeWhile (· ≠ '=')
        match rest.dropWhile (· ≠ '=') with
        | _ :: value => .option (String.ofList name) (some (String.ofList value))
        | [] => .option (String.ofList name) none
  match s.toList with
  | ['-', '-'] => .endOfFlags
  | '-' :: '-' :: cs => named cs
  | '-' :: c :: cs => named (c :: cs)
  | _ => .plain

/-- The value of an option: the one given with it, or the next argument. The result includes the
arguments that remain. -/
def takeValue (f : Flag) (given : Option String) (rest : List String) :
    Except FlagError (FlagValue × List String) :=
  match given, rest with
  | some s, rest => (f.read s).map (·, rest)
  | none, s :: rest => (f.read s).map (·, rest)
  | none, [] => .error (.needsArgument f.name)

/-- Read options up to the first argument that is none. The bound is the number of arguments. -/
def readFlagsUpTo (flags : List Flag) : Nat → Table String FlagValue → List String →
    Except FlagError (Table String FlagValue × List String)
  | _, values, [] => .ok (values, [])
  | 0, values, args => .ok (values, args)
  | bound + 1, values, arg :: rest =>
    match Argument.ofString arg with
    | .plain => .ok (values, arg :: rest)
    | .endOfFlags => .ok (values, rest)
    | .bad => .error (.badForm arg)
    | .option name given =>
      match flags.find? (·.name == name) with
      | none =>
        if name = "help" || name = "h" then .error .helpRequested
        else .error (.undefined name)
      | some f =>
        match takeValue f given rest with
        | .ok (v, rest) => readFlagsUpTo flags bound (values.set name v) rest
        | .error e => .error e

/-- The values of the options in front of the arguments, and the arguments that remain. -/
def readFlags (flags : List Flag) (args : List String) :
    Except FlagError (Table String FlagValue × List String) :=
  readFlagsUpTo flags args.length [] args

end HostLowering.Command
