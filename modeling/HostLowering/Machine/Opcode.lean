import HostLowering.Text.Digits

set_option autoImplicit false

/-! # Opcodes of the host machine

The host is a stack machine: every value takes one stack slot, locals are typed by a *kind*, and
an instruction is one opcode byte followed by zero to three operand bytes. This module holds the
opcodes with their byte, name, operand width and net effect on the stack. The effect of an
invocation depends on the method it names, so its entry here is the marker `variableEffect`.
-/

namespace HostLowering.Machine

/-! ## Kinds -/

/-- How a value is held in a local. -/
inductive Kind where
  | ref | int | long | double
deriving DecidableEq, Repr, Inhabited

namespace Kind

/-- The name used in messages. -/
def name : Kind → String
  | ref => "ref"
  | int => "int"
  | long => "long"
  | double => "double"

/-- The kind with a given number, counting from zero. -/
def ofCode? : UInt8 → Option Kind
  | 0 => some ref
  | 1 => some int
  | 2 => some long
  | 3 => some double
  | _ => none

/-- The name of a kind number; numbers without a kind are shown as such. -/
def describeCode (n : UInt8) : String :=
  match ofCode? n with
  | some k => k.name
  | none => "kind(" ++ toString n.toNat ++ ")"

/-- The kind of the values of a type name. Every name that is not primitive is a class, whose
values are references. -/
def ofTypeName : String → Kind
  | "int" => int
  | "boolean" => int
  | "long" => long
  | "double" => double
  | _ => ref

end Kind

/-! ## Opcodes -/

/-- The opcodes; `unknown` stands for a byte that is none of them. -/
inductive Opcode where
  | nop | aconstNull | sipush | ldc
  | pop | pop2 | dup | dupX1 | dupX2 | dup2 | swap
  | aload | astore | iload | istore | lload | lstore | dload | dstore | iinc
  | new | checkcast | instanceof
  | getfield | putfield | getstatic | putstatic
  | invokevirtual | invokeinterface | invokestatic | invokespecial
  | goto | ifeq | ifne | ifnull | ifnonnull
  | ifAcmpeq | ifAcmpne | ifIcmpeq | ifIcmpne | ifIcmplt | ifIcmpgt | ifIcmpge
  | returnVoid | areturn | athrow
  | unknown (byte : UInt8)
deriving DecidableEq, Repr, Inhabited

namespace Opcode

def ofByte : UInt8 → Opcode
  | 0x00 => nop
  | 0x01 => aconstNull
  | 0x02 => sipush
  | 0x03 => ldc
  | 0x10 => pop
  | 0x11 => pop2
  | 0x12 => dup
  | 0x13 => dupX1
  | 0x14 => dupX2
  | 0x15 => dup2
  | 0x16 => swap
  | 0x20 => aload
  | 0x21 => astore
  | 0x22 => iload
  | 0x23 => istore
  | 0x24 => lload
  | 0x25 => lstore
  | 0x26 => dload
  | 0x27 => dstore
  | 0x28 => iinc
  | 0x30 => new
  | 0x31 => checkcast
  | 0x32 => instanceof
  | 0x40 => getfield
  | 0x41 => putfield
  | 0x42 => getstatic
  | 0x43 => putstatic
  | 0x50 => invokevirtual
  | 0x51 => invokeinterface
  | 0x52 => invokestatic
  | 0x53 => invokespecial
  | 0x60 => goto
  | 0x61 => ifeq
  | 0x62 => ifne
  | 0x63 => ifnull
  | 0x64 => ifnonnull
  | 0x65 => ifAcmpeq
  | 0x66 => ifAcmpne
  | 0x67 => ifIcmpeq
  | 0x68 => ifIcmpne
  | 0x69 => ifIcmplt
  | 0x6A => ifIcmpgt
  | 0x6B => ifIcmpge
  | 0x70 => returnVoid
  | 0x71 => areturn
  | 0x72 => athrow
  | b => unknown b

def toByte : Opcode → UInt8
  | nop => 0x00
  | aconstNull => 0x01
  | sipush => 0x02
  | ldc => 0x03
  | pop => 0x10
  | pop2 => 0x11
  | dup => 0x12
  | dupX1 => 0x13
  | dupX2 => 0x14
  | dup2 => 0x15
  | swap => 0x16
  | aload => 0x20
  | astore => 0x21
  | iload => 0x22
  | istore => 0x23
  | lload => 0x24
  | lstore => 0x25
  | dload => 0x26
  | dstore => 0x27
  | iinc => 0x28
  | new => 0x30
  | checkcast => 0x31
  | instanceof => 0x32
  | getfield => 0x40
  | putfield => 0x41
  | getstatic => 0x42
  | putstatic => 0x43
  | invokevirtual => 0x50
  | invokeinterface => 0x51
  | invokestatic => 0x52
  | invokespecial => 0x53
  | goto => 0x60
  | ifeq => 0x61
  | ifne => 0x62
  | ifnull => 0x63
  | ifnonnull => 0x64
  | ifAcmpeq => 0x65
  | ifAcmpne => 0x66
  | ifIcmpeq => 0x67
  | ifIcmpne => 0x68
  | ifIcmplt => 0x69
  | ifIcmpgt => 0x6A
  | ifIcmpge => 0x6B
  | returnVoid => 0x70
  | areturn => 0x71
  | athrow => 0x72
  | unknown b => b

/-- The name shown in listings. -/
def name : Opcode → String
  | nop => "NOP"
  | aconstNull => "ACONST_NULL"
  | sipush => "SIPUSH"
  | ldc => "LDC"
  | pop => "POP"
  | pop2 => "POP2"
  | dup => "DUP"
  | dupX1 => "DUP_X1"
  | dupX2 => "DUP_X2"
  | dup2 => "DUP2"
  | swap => "SWAP"
  | aload => "ALOAD"
  | astore => "ASTORE"
  | iload => "ILOAD"
  | istore => "ISTORE"
  | lload => "LLOAD"
  | lstore => "LSTORE"
  | dload => "DLOAD"
  | dstore => "DSTORE"
  | iinc => "IINC"
  | new => "NEW"
  | checkcast => "CHECKCAST"
  | instanceof => "INSTANCEOF"
  | getfield => "GETFIELD"
  | putfield => "PUTFIELD"
  | getstatic => "GETSTATIC"
  | putstatic => "PUTSTATIC"
  | invokevirtual => "INVOKEVIRTUAL"
  | invokeinterface => "INVOKEINTERFACE"
  | invokestatic => "INVOKESTATIC"
  | invokespecial => "INVOKESPECIAL"
  | goto => "GOTO"
  | ifeq => "IFEQ"
  | ifne => "IFNE"
  | ifnull => "IFNULL"
  | ifnonnull => "IFNONNULL"
  | ifAcmpeq => "IF_ACMPEQ"
  | ifAcmpne => "IF_ACMPNE"
  | ifIcmpeq => "IF_ICMPEQ"
  | ifIcmpne => "IF_ICMPNE"
  | ifIcmplt => "IF_ICMPLT"
  | ifIcmpgt => "IF_ICMPGT"
  | ifIcmpge => "IF_ICMPGE"
  | returnVoid => "RETURN"
  | areturn => "ARETURN"
  | athrow => "ATHROW"
  | unknown b => "UNKNOWN_" ++ Text.hexUpper 2 b.toNat

/-- The opcodes that are not `unknown`. -/
def all : List Opcode :=
  [nop, aconstNull, sipush, ldc, pop, pop2, dup, dupX1, dupX2, dup2, swap, aload, astore, iload,
    istore, lload, lstore, dload, dstore, iinc, new, checkcast, instanceof, getfield, putfield,
    getstatic, putstatic, invokevirtual, invokeinterface, invokestatic, invokespecial, goto, ifeq,
    ifne, ifnull, ifnonnull, ifAcmpeq, ifAcmpne, ifIcmpeq, ifIcmpne, ifIcmplt, ifIcmpgt, ifIcmpge,
    returnVoid, areturn, athrow]

def ofName? (s : String) : Option Opcode := all.find? fun op => op.name == s

/-- Whether the byte of the opcode is assigned. -/
def isKnown : Opcode → Bool
  | unknown _ => false
  | _ => true

inductive Shape where
  /-- No operand. -/
  | plain
  /-- A signed 16-bit integer. -/
  | short
  | slot
  | increment
  | constant
  /-- A signed 16-bit distance from the end of the operand. -/
  | branch
deriving DecidableEq, Repr

/-- The operand shape of an opcode. An unknown opcode is taken to have no operand. -/
def shape : Opcode → Shape
  | sipush => .short
  | aload | astore | iload | istore | lload | lstore | dload | dstore => .slot
  | iinc => .increment
  | ldc | new | checkcast | instanceof | getfield | putfield | getstatic | putstatic
  | invokevirtual | invokeinterface | invokestatic | invokespecial => .constant
  | goto | ifeq | ifne | ifnull | ifnonnull | ifAcmpeq | ifAcmpne | ifIcmpeq | ifIcmpne
  | ifIcmplt | ifIcmpgt | ifIcmpge => .branch
  | _ => .plain

/-- The number of bytes an operand of this shape takes. -/
def Shape.width : Shape → Nat
  | plain => 0
  | increment => 3
  | _ => 2

def operandBytes (op : Opcode) : Nat := op.shape.width

def isBranch (op : Opcode) : Bool := op.shape == .branch

/-- Whether the opcode is a branch that may fall through. -/
def isConditional (op : Opcode) : Bool := op.isBranch && op != goto

/-- Whether control never continues after the opcode. -/
def isTerminal : Opcode → Bool
  | goto | returnVoid | areturn | athrow => true
  | _ => false

def isInvoke : Opcode → Bool
  | invokevirtual | invokeinterface | invokestatic | invokespecial => true
  | _ => false

/-- The marker for a stack effect that depends on the invoked method. -/
def variableEffect : Int := -128

/-- The net effect of an opcode on the depth of the stack. -/
def stackEffect : Opcode → Int
  | aconstNull | sipush | ldc | dup | dupX1 | dupX2 | aload | iload | lload | dload | new
  | getstatic => 1
  | dup2 => 2
  | pop | astore | istore | lstore | dstore | putstatic | ifeq | ifne | ifnull | ifnonnull
  | areturn | athrow => -1
  | pop2 | putfield | ifAcmpeq | ifAcmpne | ifIcmpeq | ifIcmpne | ifIcmplt | ifIcmpgt
  | ifIcmpge => -2
  | invokevirtual | invokeinterface | invokestatic | invokespecial => variableEffect
  | _ => 0

/-- The number of values an opcode other than an invocation needs on the stack. -/
def operandsNeeded : Opcode → Nat
  | pop | dup | checkcast | instanceof | getfield | putstatic | ifeq | ifne | ifnull | ifnonnull
  | areturn | athrow | astore | istore | lstore | dstore => 1
  | pop2 | dupX1 | dup2 | swap | putfield | ifAcmpeq | ifAcmpne | ifIcmpeq | ifIcmpne | ifIcmplt
  | ifIcmpgt | ifIcmpge => 2
  | dupX2 => 3
  | _ => 0

def load : Kind → Opcode
  | .ref => aload
  | .int => iload
  | .long => lload
  | .double => dload

def store : Kind → Opcode
  | .ref => astore
  | .int => istore
  | .long => lstore
  | .double => dstore

end Opcode

end HostLowering.Machine
