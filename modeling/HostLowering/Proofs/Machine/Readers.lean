import HostLowering.Machine.Listing
import HostLowering.Proofs.Machine.Scan

set_option autoImplicit false

/-!
# The readers of code agree

`Scans code p is` says that reading one instruction after the other from an offset on gives the
instructions `is` and ends exactly at the end of the code. Then the opcode scan, the listing and
the first pass of the verifier all find these instructions at these offsets.
-/

namespace HostLowering.Machine

/-- Reading on from an offset gives the instructions and ends with the code. -/
inductive Scans (code : Array UInt8) : Nat → List Instruction → Prop where
  | done : Scans code code.size []
  | next {p : Nat} {i : Instruction} {is : List Instruction}
      (read : instructionAt code p = .ok i) (rest : Scans code (p + i.opcode.size) is) :
      Scans code p (i :: is)

/-- The offsets of instructions that stand one after the other. -/
def offsets : Nat → List Instruction → List Nat
  | _, [] => []
  | p, i :: is => p :: offsets (p + i.opcode.size) is

def Instruction.line (pool : Array Constant) (p : Nat) (i : Instruction) : String :=
  Text.offset p ++ "  " ++ i.opcode.name ++ i.operand.render pool (p + i.opcode.size)

/-- The listing lines of instructions that stand one after the other. -/
def linesOf (pool : Array Constant) : Nat → List Instruction → List String
  | _, [] => []
  | p, i :: is => i.line pool p :: linesOf pool (p + i.opcode.size) is

variable {code : Array UInt8} {p q : Nat} {i : Instruction} {is : List Instruction}

theorem lt_of_instructionAt (read : instructionAt code p = .ok i) : p < code.size := by
  by_contra outside
  rw [instructionAt, byteAt, Array.getElem?_eq_none (by omega)] at read
  cases read

theorem Scans.opcodesFrom_eq (scans : Scans code p is) (found : Array Opcode) :
    opcodesFrom code p found = found ++ (is.map (·.opcode)).toArray := by
  induction scans generalizing found with
  | done =>
    rw [opcodesFrom]
    simp
  | @next p i is read rest ih =>
    have lt := lt_of_instructionAt read
    rw [opcodesFrom, dif_pos lt, ← opcode_of_instructionAt lt read, ih]
    simp

theorem Scans.linesFrom_eq (scans : Scans code p is) (pool : Array Constant)
    (written : Array String) :
    linesFrom code pool p written = .ok (written ++ (linesOf pool p is).toArray) := by
  induction scans generalizing written with
  | done =>
    rw [linesFrom]
    simp [linesOf]
  | @next p i is read rest ih =>
    have lt := lt_of_instructionAt read
    have line : lineAt code pool p = .ok (i.line pool p) := by
      rw [lineAt, read]
      rfl
    rw [linesFrom, dif_pos lt, line, ← opcode_of_instructionAt lt read]
    simp [ih, linesOf]

theorem Scans.splits (scans : Scans code p is) (known : ∀ i ∈ is, i.opcode.isKnown = true) :
    Splits code p := by
  induction scans with
  | done => exact .done
  | @next p i is read rest ih =>
    rw [List.forall_mem_cons] at known
    have lt := lt_of_instructionAt read
    have opcode := opcode_of_instructionAt lt read
    exact .instruction lt (opcode ▸ known.1) (opcode ▸ ih known.2)

/-- From an instruction start on, the scan goes through exactly the later ones. -/
theorem Scans.starts (scans : Scans code p is) (here : p < code.size → InstructionStart code p) :
    (InstructionStart code q ∧ p ≤ q) ↔ q ∈ offsets p is := by
  induction scans with
  | done =>
    constructor
    · rintro ⟨start, le⟩
      have := start.lt
      omega
    · intro h
      cases h
  | @next p i is read rest ih =>
    have lt := lt_of_instructionAt read
    have opcode := opcode_of_instructionAt lt read
    have start := here lt
    have pos := i.opcode.size_pos
    have later := ih fun more => start.next_of_instructionAt read more
    rw [offsets, List.mem_cons, ← later]
    constructor
    · rintro ⟨startq, le⟩
      by_cases same : q = p
      · exact .inl same
      · have beyond := start.next_le lt startq (by omega)
        rw [← opcode] at beyond
        exact .inr ⟨startq, beyond⟩
    · rintro (rfl | ⟨startq, le⟩)
      · exact ⟨start, le_rfl⟩
      · exact ⟨startq, by omega⟩

end HostLowering.Machine
