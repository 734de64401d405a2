import HostLowering.Defect
import HostLowering.Machine.Reference
import HostLowering.Text.Quoted
import Std.Data.TreeMap

set_option autoImplicit false

/-! # Constants and the constant pool

A constant is a record tagged by its kind: 1 string, 2 integer, 3 class, 4 field, 5 method. The
record keeps every component whatever the tag says, because archives may carry any combination.
The pool interns constants: a constant whose key is already present gets the index of the
earlier entry. The key of a constant is the tag letter and the text of the constant, so two
method references that differ only in `isInterface`, or whose texts coincide, share an entry.
-/

namespace HostLowering.Machine

/-- An entry of the constant pool. -/
structure Constant where
  /-- The tag; 1 string, 2 integer, 3 class, 4 field, 5 method. -/
  kind : UInt8 := 0
  /-- The string value or the class name. -/
  text : String := ""
  value : Int64 := 0
  field : Option FieldRef := none
  method : Option MethodRef := none
deriving DecidableEq, Repr, Inhabited

namespace Constant

def ofString (s : String) : Constant := { kind := 1, text := s }

def ofInt (n : Int64) : Constant := { kind := 2, value := n }

def ofClass (name : String) : Constant := { kind := 3, text := name }

def ofField (f : FieldRef) : Constant := { kind := 4, field := some f }

def ofMethod (m : MethodRef) : Constant := { kind := 5, method := some m }

/-- The text of a constant in listings. A field or method constant without its reference has no
text. -/
def render (c : Constant) : Except Defect String :=
  match c.kind with
  | 1 => .ok (Text.quote c.text)
  | 2 => .ok (toString c.value.toInt)
  | 3 => .ok c.text
  | 4 => (need c.field).map FieldRef.text
  | 5 => (need c.method).map MethodRef.text
  | _ => .ok "?"

/-- The text of a constant in a line written with a format verb. Where a constant has no text, the
line shows the failed attempt to write it. -/
def renderAs (verb : String) (c : Constant) : String :=
  match c.render with
  | .ok s => s
  | .error _ => "%!" ++ verb ++ "(PANIC=String method: runtime error: "
      ++ "invalid memory address or nil pointer dereference)"

/-- The key under which the pool recognises a constant. -/
def key (c : Constant) : String :=
  match c.kind with
  | 1 => "s:" ++ c.text
  | 2 => "i:" ++ toString c.value.toInt
  | 3 => "c:" ++ c.text
  | 4 => "f:" ++ (c.field.map FieldRef.text).getD ""
  | 5 => "m:" ++ (c.method.map MethodRef.text).getD ""
  | _ => "?"

end Constant

/-- A pool under construction: its entries in index order, and the index of every key. -/
structure Pool where
  entries : Array Constant := #[]
  index : Std.TreeMap String Nat := {}
deriving Inhabited

namespace Pool

/-- The greatest number of entries. -/
def capacity : Nat := 65536

/-- The number of entries. -/
def size (p : Pool) : Nat := p.entries.size

/-- The index of a constant, added at the end unless its key is present. -/
def intern (p : Pool) (c : Constant) : Except Defect (Nat × Pool) :=
  match p.index[c.key]? with
  | some i => .ok (i, p)
  | none =>
    if p.entries.size < capacity then
      .ok (p.entries.size, ⟨p.entries.push c, p.index.insert c.key p.entries.size⟩)
    else .error .poolOverflow

end Pool

end HostLowering.Machine
