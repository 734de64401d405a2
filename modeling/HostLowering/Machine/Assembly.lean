import HostLowering.Table
import HostLowering.Machine.Assembler

set_option autoImplicit false

/-! # Assembly with named labels

A body written out as a list of steps. Labels have names; a label is created when a step first
mentions it.
-/

namespace HostLowering.Machine

inductive Step where
  | emit (op : Opcode)
  | repeated (op : Opcode) (count : Nat)
  | word (op : Opcode) (n : Int)
  | slot (op : Opcode) (index : Int)
  | increment (index : Int) (step : Int)
  | int (n : Int64)
  | constant (op : Opcode) (c : Constant)
  | label (name : String)
  | mark (name : String)
  | jump (op : Opcode) (name : String)
  | tryCatch (start stop target : String) (catches : String)
deriving Repr, Inhabited

/-- A body under construction with the names of its labels. -/
structure Draft where
  assembler : Assembler := {}
  names : Table String Label := []
deriving Inhabited

/-- A step of building a draft. -/
abbrev Drafting := StateT Draft (Except Defect)

namespace Drafting

def assemble {α : Type} (step : Asm α) : Drafting α := fun d => do
  let (a, assembler) ← step d.assembler
  return (a, { d with assembler })

def label (name : String) : Drafting Label := do
  match (← get).names.get? name with
  | some l => return l
  | none =>
    let l ← assemble Asm.newLabel
    modify fun d => { d with names := d.names.set name l }
    return l

end Drafting

open Drafting in
def Step.perform : Step → Drafting Unit
  | emit op => assemble (Asm.emit op)
  | repeated op count => assemble (modify (Nat.repeat (·.emit op) count))
  | word op n => assemble (Asm.emitWord op n)
  | slot op i => assemble (Asm.emitLocal op i)
  | increment i d => assemble (Asm.emitIncrement i d)
  | int n => assemble (Asm.pushInt n)
  | constant op c => assemble (Asm.emitConstant op c)
  | label name => do let _ ← Drafting.label name
  | mark name => do assemble (Asm.mark (← Drafting.label name))
  | jump op name => do assemble (Asm.jump op (← Drafting.label name))
  | tryCatch start stop target catches => do
    let s ← Drafting.label start
    let e ← Drafting.label stop
    let t ← Drafting.label target
    assemble (Asm.tryCatch s e t catches)

namespace Draft

def step (d : Draft) (s : Step) : Except Defect Draft := (s.perform.run d).map Prod.snd

def steps (d : Draft) (ss : List Step) : Except Defect Draft := ss.foldlM step d

def position? (d : Draft) (name : String) : Option Nat :=
  (d.names.get? name).bind d.assembler.position?

end Draft

end HostLowering.Machine
