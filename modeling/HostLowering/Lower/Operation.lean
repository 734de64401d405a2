import HostLowering.Lower.Attribute
import HostLowering.Lower.Collection
import HostLowering.Lower.ContextManager
import HostLowering.Lower.Generator
import HostLowering.Lower.Local

set_option autoImplicit false

/-! # Operations

The instructions of the source. An operation has a name for messages, needs a number of operands,
and has a body that emits code and changes the snapshot.
-/

namespace HostLowering.Lower

open Machine Catalog

/-- The operations. Operators are given by their codes, jump targets by their source offsets. -/
inductive Operation where
  | swap | rotate3 | rotate4
  | duplicate (depth : Int) | bury (depth : Int) | exchange (depth : Int)
  | pop
  | loadLocal (index : Int) | storeLocal (index : Int) | clearLocal (index : Int)
  | loadConst (value : Literal)
  | unary (operator : UInt8) | binary (operator : UInt8) | ternary (method : String)
  | identity (negated : Bool) | contains (negated : Bool) | not
  | call (argc : Int) (keywords : List String)
  | callMethod (name : String) (argc : Int) (keywords : List String)
  | callSpread (hasKeywords : Bool)
  | build (collection : Collection) (count : Int) | buildMap (count : Int)
  | unpack (count : Int) | unpackWithTail (before after : Int)
  | getSlice | storeSlice | storeItem | deleteItem
  | loadAttribute (name : String) | storeAttribute (name : String)
  | deleteAttribute (name : String)
  | jump (target : Int)
  | popJumpIf (value : Bool) (target : Int) | jumpIfOrPop (value : Bool) (target : Int)
  | popJumpIfNone (isNone : Bool) (target : Int)
  | getIter | forIter (target : Int)
  | returnValue
  | openRegion (region : Region)
  | startBlock | pushPrevious | popException | checkMatch | jumpUnlessMatch (target : Int)
  | raise (argc : Int) | reraise
  | enterContext | exitNormally | exitWithException
  | generatorStart | yield | yieldFrom | send (target : Int) | getDelegate | endGenerator
deriving DecidableEq, Repr, Inhabited

namespace Operation

def name : Operation → String
  | swap => "Swap"
  | rotate3 => "Rotate3"
  | rotate4 => "Rotate4"
  | duplicate _ => "DuplicateToTop"
  | bury _ => "ShiftTopDownTo"
  | exchange _ => "SwapTopWith"
  | pop => "Pop"
  | loadLocal _ => "LoadFast"
  | storeLocal _ => "StoreFast"
  | clearLocal _ => "DeleteFast"
  | loadConst _ => "LoadConst"
  | unary _ => "UnaryOp"
  | binary _ => "BinaryOp"
  | ternary _ => "Ternary"
  | identity _ => "Is"
  | contains _ => "Contains"
  | not => "Not"
  | call .. => "Call"
  | callMethod .. => "CallMethod"
  | callSpread _ => "CallFunctionEx"
  | build .tuple _ => "BuildTuple"
  | build .list _ => "BuildList"
  | build .set _ => "BuildSet"
  | buildMap _ => "BuildMap"
  | unpack _ => "UnpackSequence"
  | unpackWithTail .. => "UnpackSequenceWithTail"
  | getSlice => "GetSlice"
  | storeSlice => "StoreSlice"
  | storeItem => "StoreSubscr"
  | deleteItem => "DeleteSubscr"
  | loadAttribute _ => "LoadAttr"
  | storeAttribute _ => "StoreAttr"
  | deleteAttribute _ => "DeleteAttr"
  | jump _ => "Jump"
  | popJumpIf true _ => "PopJumpIfTrue"
  | popJumpIf false _ => "PopJumpIfFalse"
  | jumpIfOrPop true _ => "JumpIfTrueOrPop"
  | jumpIfOrPop false _ => "JumpIfFalseOrPop"
  | popJumpIfNone true _ => "PopJumpIfNone"
  | popJumpIfNone false _ => "PopJumpIfNotNone"
  | getIter => "GetIter"
  | forIter _ => "ForIter"
  | returnValue => "ReturnValue"
  | openRegion _ => "TryRegion"
  | startBlock => "StartExceptOrFinally"
  | pushPrevious => "PushExcInfo"
  | popException => "PopExcept"
  | checkMatch => "CheckExcMatch"
  | jumpUnlessMatch _ => "JumpIfNotExcMatch"
  | raise _ => "Raise"
  | reraise => "Reraise"
  | enterContext => "BeforeWith"
  | exitNormally => "WithNormalExit"
  | exitWithException => "WithExceptStart"
  | generatorStart => "GeneratorStart"
  | yield => "Yield"
  | yieldFrom => "YieldFrom"
  | send _ => "Send"
  | getDelegate => "GetYieldFromIter"
  | endGenerator => "EndGenerator"

/-- The number of operands an operation needs, in 64-bit arithmetic. -/
def needed (dialect : Option Dialect) : Operation → Int
  | loadLocal _ | clearLocal _ | loadConst _ | jump _ => 0
  | pop | storeLocal _ | unary _ | not | unpack _ | unpackWithTail .. | loadAttribute _
  | deleteAttribute _ | popJumpIf .. | jumpIfOrPop .. | popJumpIfNone .. | getIter | forIter _
  | returnValue | pushPrevious | popException | reraise | enterContext | exitNormally
  | generatorStart | yield | getDelegate | endGenerator => 1
  | swap | binary _ | identity _ | contains _ | deleteItem | storeAttribute _ | checkMatch
  | jumpUnlessMatch _ | exitWithException | yieldFrom | send _ => 2
  | rotate3 | ternary _ | getSlice | storeItem => 3
  | rotate4 | storeSlice => 4
  | duplicate depth | bury depth | exchange depth => wrap64 (depth + 1)
  | call argc keywords | callMethod _ argc keywords =>
    wrap64 (Lowering.argumentSlots argc keywords + 1)
  | callSpread hasKeywords => if hasKeywords then 3 else 2
  | build _ count => count
  | buildMap count => wrap64 (2 * count)
  | openRegion region => region.depth
  | startBlock => Lowering.blockValues dialect
  | raise argc => argc

def body : Operation → Lowering Unit
  | swap => Lowering.swap
  | rotate3 => Lowering.rotate3
  | rotate4 => Lowering.rotate4
  | duplicate depth => Lowering.atDepth depth Lowering.duplicate
  | bury depth => Lowering.atDepth depth Lowering.bury
  | exchange depth => Lowering.atDepth depth Lowering.exchange
  | pop => Lowering.discardTop
  | loadLocal i => Lowering.loadLocal i
  | storeLocal i => Lowering.storeLocal i
  | clearLocal i => Lowering.clearLocal i
  | loadConst c => Lowering.loadLiteral c
  | unary n =>
    match UnaryOperator.ofCode? n with
    | some op => Lowering.unary op.method
    | none => Lowering.fail (.unaryOperator n)
  | binary n =>
    match Operator.ofCode? n with
    | some op => Lowering.binary op
    | none => Lowering.fail (.binaryOperator n)
  | ternary method => Lowering.callProtocol method 3
  | identity negated => do
    Lowering.compareIdentity negated
    Lowering.drop 2
    Lowering.pushType boolType
  | contains negated => Lowering.contains negated
  | not => do
    Lowering.toBool
    Lowering.negate
  | call argc keywords => Lowering.callValue argc keywords
  | callMethod name argc keywords => Lowering.callNamed name argc keywords
  | callSpread hasKeywords => Lowering.callSpread hasKeywords
  | build c n => Lowering.build c n
  | buildMap n => Lowering.buildMap n
  | unpack n => Lowering.unpack n
  | unpackWithTail before after => Lowering.unpackWithTail before after
  | getSlice => Lowering.getSlice
  | storeSlice => Lowering.storeSlice
  | storeItem => Lowering.storeItem
  | deleteItem => Lowering.deleteItem
  | loadAttribute name => Lowering.loadAttribute name
  | storeAttribute name => Lowering.storeAttribute name
  | deleteAttribute name => Lowering.deleteAttribute name
  | jump target => Lowering.jump target
  | popJumpIf value target => Lowering.popJumpIf value target
  | jumpIfOrPop value target => Lowering.jumpIfOrPop value target
  | popJumpIfNone isNone target => Lowering.popJumpIfNone isNone target
  | getIter | getDelegate => Lowering.unary "__iter__"
  | forIter target => Lowering.forIter target
  | returnValue => Lowering.returnValue
  | openRegion region => Lowering.openRegion region
  | startBlock => Lowering.startBlock
  | pushPrevious => Lowering.pushPrevious
  | popException => Lowering.popException
  | checkMatch => Lowering.checkMatch
  | jumpUnlessMatch target => Lowering.jumpUnlessMatch target
  | raise argc => Lowering.raise argc
  | reraise => Lowering.reraise
  | enterContext => Lowering.enterContext
  | exitNormally => Lowering.exitNormally
  | exitWithException => Lowering.exitWithException
  | generatorStart => Lowering.discardTop
  | yield => Lowering.yield
  | yieldFrom => Lowering.yieldFrom
  | send target => Lowering.send target
  | endGenerator => Lowering.endGenerator

def perform (op : Operation) : Lowering Unit := do
  Lowering.operation op.name (op.needed (← read).dialect) op.body

end Operation

end HostLowering.Lower
