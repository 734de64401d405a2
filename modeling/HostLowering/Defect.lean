set_option autoImplicit false

/-! # Defects

A *defect* is the outcome of a call whose precondition does not hold: an index outside its
array, a label marked twice, a slot freed out of order. It is not an error of the input text
that a caller is expected to handle, so it ends the operation that meets it. Some defects carry
a message; the others are reported without one.
-/

namespace HostLowering

/-- The broken preconditions, by cause. -/
inductive Defect where
  /-- A new constant met a pool that already holds 65536 entries. -/
  | poolOverflow
  | labelMarkedTwice
  /-- An instruction was read past the end of the code. -/
  | codeUnderflow
  /-- A slot other than the most recent live temporary was freed. -/
  | freeOutOfOrder (slot : Int) (live : List Int)
  /-- A persistent slot was reserved while temporaries were live. -/
  | reserveWhileLive (count : Nat)
  /-- An operation ended with temporaries still live. -/
  | temporariesLeft (operation : String) (count : Nat)
  /-- An index outside its list, an absent reference, or a value of the wrong sort. -/
  | invalidAccess
deriving DecidableEq, Repr, Inhabited

namespace Defect

/-- The text of a defect, if it has one. Live slots are listed oldest first. -/
def message? : Defect → Option String
  | poolOverflow => some "host: constant pool overflow"
  | labelMarkedTwice => some "label already resolved"
  | codeUnderflow => some "code underflow"
  | freeOutOfOrder slot live =>
    let listed := String.intercalate " " (live.map fun i => toString i)
    some s!"lower: free of slot {slot} out of order (live [{listed}])"
  | reserveWhileLive count => some s!"lower: reserve with {count} temporaries live"
  | temporariesLeft operation count => some s!"lower: {operation} left {count} temporaries live"
  | invalidAccess => none

end Defect

/-- The value of an option, or the defect of using an absent one. -/
def need {α : Type} : Option α → Except Defect α
  | some a => .ok a
  | none => .error .invalidAccess

/-- The value congruent to `n` modulo `2^64` in the signed 64-bit range. -/
def wrap64 (n : Int) : Int := n.bmod 0x10000000000000000

end HostLowering
