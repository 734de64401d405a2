import HostLowering.Library.BindError
import HostLowering.Machine.Opcode

set_option autoImplicit false

/-! # Failures of lowering

What can be wrong with the operations of a unit. The first failure ends the unit: it is kept with
the operation and the source offset at which it arose, and nothing is emitted any more. Snapshots
appear in causes as their texts.
-/

namespace HostLowering.Lower

open Machine Library

inductive FailureKind where
  | argumentCount | keyword | unpackCount | stackJoin | stackDepth | controlFlow | dialect
  | unsupported
deriving DecidableEq, Repr, Inhabited

def FailureKind.name : FailureKind → String
  | argumentCount => "argument count"
  | keyword => "keyword argument"
  | unpackCount => "unpack count"
  | stackJoin => "stack join"
  | stackDepth => "stack depth"
  | controlFlow => "control flow"
  | dialect => "dialect"
  | unsupported => "unsupported"

def FailureKind.ofBindError : BindError → FailureKind
  | .tooManyPositional .. | .missingArgument .. => argumentCount
  | .multipleValues .. | .unexpectedKeyword .. => keyword

inductive Cause where
  | tooFewLocals (declared : Nat) (arguments : Int)
  | negativeArguments (count : Int)
  | needsReceiver (function : String)
  | binding (e : BindError)
  | negativeTargets (count : Int)
  | negativeTargetPair (before after : Int)
  | handlerStack (found given : String)
  | fallthroughStack (found given : String)
  | jumpStack (found given : String)
  | generatorStack (found given : String)
  | jumpJoin (target : Int) (found expected : String)
  | localKind (value declared : String) (index : Int)
  | regionStack (found : String) (target : Int) (kept : String)
  | needsOperands (count : Int) (found : String)
  | negativeDepth (depth : Int)
  | negativeRegionDepth (depth : Int)
  | visitedTwice
  | fallsIntoHandler
  | unreachable
  | jumpIntoHandler (target : Int)
  | handlerPrecedes (target : Int)
  | fallsOffEnd
  | emptyGenerator
  | targetNotReached (target : Int)
  | handlerNotReached (target : Int)
  | outsideGenerator (operation : String)
  | regionNeedsDialect
  | handlerNeedsDialect
  | blockNeedsDialect
  | localOutOfRange (index : Int) (count : Nat)
  | cannotDelete (kind : Kind) (index : Int)
  | constantType (type : String)
  | unaryOperator (code : UInt8)
  | binaryOperator (code : UInt8)
  | negativeElements (count : Int)
  | negativePairs (count : Int)
  | raiseOperands (count : Int)
  | noBoundExit (found : String)
  | suspendSlot (kind : Kind)
  | suspendLocal (kind : Kind)
deriving DecidableEq, Repr, Inhabited

namespace Cause

def kind : Cause → FailureKind
  | tooFewLocals .. | negativeArguments _ | needsReceiver _ => .argumentCount
  | binding e => .ofBindError e
  | negativeTargets _ | negativeTargetPair .. => .unpackCount
  | handlerStack .. | fallthroughStack .. | jumpStack .. | generatorStack .. | jumpJoin ..
  | localKind .. | regionStack .. => .stackJoin
  | needsOperands .. | negativeDepth _ | negativeRegionDepth _ => .stackDepth
  | visitedTwice | fallsIntoHandler | unreachable | jumpIntoHandler _ | handlerPrecedes _
  | fallsOffEnd | emptyGenerator | targetNotReached _ | handlerNotReached _
  | outsideGenerator _ => .controlFlow
  | regionNeedsDialect | handlerNeedsDialect | blockNeedsDialect => .dialect
  | localOutOfRange .. | cannotDelete .. | constantType _ | unaryOperator _ | binaryOperator _
  | negativeElements _ | negativePairs _ | raiseOperands _ | noBoundExit _ | suspendSlot _
  | suspendLocal _ => .unsupported

def message : Cause → String
  | tooFewLocals declared arguments => s!"{declared} locals declared for {arguments} arguments"
  | negativeArguments n => s!"negative argument count {n}"
  | needsReceiver f => f ++ "() needs a receiver argument"
  | binding e => e.message
  | negativeTargets n => s!"negative target count {n}"
  | negativeTargetPair b a => s!"negative target count {b}/{a}"
  | handlerStack found given => s!"handler entry stack {found}, given {given}"
  | fallthroughStack found given => s!"fallthrough stack {found}, given {given}"
  | jumpStack found given => s!"jump stack {found}, given {given}"
  | generatorStack found given => s!"generator entry stack {found}, given {given}"
  | jumpJoin target found expected => s!"jump to {target} with {found}, target has {expected}"
  | localKind value declared i => s!"storing {value} into {declared} local {i}"
  | regionStack found target kept => s!"region stack {found}, handler at {target} keeps {kept}"
  | needsOperands n found => s!"needs {n} operands, stack {found}"
  | negativeDepth d => s!"negative depth {d}"
  | negativeRegionDepth d => s!"negative region depth {d}"
  | visitedTwice => "offset visited twice"
  | fallsIntoHandler => "control falls through into exception handler"
  | unreachable => "unreachable instruction (missing At)"
  | jumpIntoHandler t => s!"jump into exception handler at {t}"
  | handlerPrecedes t => s!"handler at {t} precedes its region"
  | fallsOffEnd => "control falls off the end of the function"
  | emptyGenerator => "generator has no instructions"
  | targetNotReached t => s!"jump target {t} never reached"
  | handlerNotReached t => s!"exception handler at {t} never reached"
  | outsideGenerator op => op ++ " outside a generator"
  | regionNeedsDialect => "exception regions need a dialect"
  | handlerNeedsDialect => "handler entry needs a dialect"
  | blockNeedsDialect => "handler blocks need a dialect"
  | localOutOfRange i n => s!"local {i} out of range ({n} locals)"
  | cannotDelete k i => "cannot delete " ++ k.name ++ s!" local {i}"
  | constantType t => "constant of type " ++ t
  | unaryOperator n => "unary operator " ++ toString n.toNat
  | binaryOperator n => "binary operator " ++ toString n.toNat
  | negativeElements n => s!"negative element count {n}"
  | negativePairs n => s!"negative pair count {n}"
  | raiseOperands n => s!"raise with {n} operands"
  | noBoundExit found => "no bound __exit__ below the exception in " ++ found
  | suspendSlot k => "cannot suspend with a " ++ k.name ++ " slot on the stack"
  | suspendLocal k => "cannot suspend with a " ++ k.name ++ " local"

end Cause

/-- A failure: where it arose and why. -/
structure Failure where
  operation : String
  offset : Int
  cause : Cause
deriving DecidableEq, Repr, Inhabited

def Failure.message (f : Failure) : String :=
  "lower: " ++ f.operation ++ s!" at {f.offset}: " ++ f.cause.kind.name ++ ": " ++ f.cause.message

end HostLowering.Lower
