import HostLowering.Proofs.Machine.Paths

set_option autoImplicit false

/-! # The entries of a constant pool

A constant is found again by its key, a tag and a text. The tags keep the sorts of constants apart,
but the texts of two method references can be the same although they take different numbers of
operands: a class name may hold the comma that separates parameters. `Clear` says that this does not
happen among a set of references. The entry found for a constant has the key of the constant
(`Pool.Keyed.intern`).
-/

namespace HostLowering

/-! ## First characters -/

/-- The first character of a text. -/
def Begins (c : Char) (s : String) : Prop := s.toList.head? = some c

theorem Begins.append {c : Char} {s : String} (h : Begins c s) (t : String) :
    Begins c (s ++ t) := by
  unfold Begins at h ⊢
  rw [String.toList_append, List.head?_append, h, Option.some_or]

theorem Begins.ne {c d : Char} {s t : String} (h : Begins c s) (h' : Begins d t) (cd : c ≠ d) :
    s ≠ t := by
  rintro rfl
  exact cd (Option.some.inj (h.symm.trans h'))

namespace Machine

/-! ## Keys -/

/-- Two references take the same operands off the stack and leave the same number of results. -/
def SameUse (r s : MethodRef) : Prop :=
  r.params.length = s.params.length ∧ r.pushesResult = s.pushesResult

/-- References of a set with the same text have the same use of the stack. -/
def Clear (refs : Set MethodRef) : Prop :=
  ∀ r ∈ refs, ∀ s ∈ refs, r.text = s.text → SameUse r s

theorem SameUse.operandCount {r s : MethodRef} (h : SameUse r s) (op : Opcode) :
    r.operandCount op = s.operandCount op := by
  unfold MethodRef.operandCount
  rw [h.1]

theorem SameUse.stackEffect {r s : MethodRef} (h : SameUse r s) (op : Opcode) :
    r.stackEffect op = s.stackEffect op := by
  unfold MethodRef.stackEffect
  rw [h.operandCount, h.2]

/-- The constants that the assembler makes, with method references from a set. -/
inductive Constant.Proper (refs : Set MethodRef) : Constant → Prop where
  | string (s : String) : Proper refs (.ofString s)
  | int (n : Int64) : Proper refs (.ofInt n)
  | cls (name : String) : Proper refs (.ofClass name)
  | field (f : FieldRef) : Proper refs (.ofField f)
  | method {r : MethodRef} (mem : r ∈ refs) : Proper refs (.ofMethod r)

variable {refs : Set MethodRef}

theorem Constant.key_ofMethod (r : MethodRef) : (Constant.ofMethod r).key = "m:" ++ r.text := rfl

/-- The key of a method reference is only found on method references with its text. -/
theorem Constant.Proper.of_key {c : Constant} {r : MethodRef} (proper : c.Proper refs)
    (key : c.key = (Constant.ofMethod r).key) : ∃ s ∈ refs, c = .ofMethod s ∧ s.text = r.text := by
  have other {d : Char} {t u : String} (ht : Begins d t) (dm : d ≠ 'm') :
      t ++ u ≠ (Constant.ofMethod r).key := by
    have m : Begins 'm' "m:" := by simp [Begins]
    exact (ht.append u).ne (m.append r.text) dm
  have begins (d : Char) : Begins d (String.ofList [d, ':']) := by simp [Begins]
  cases proper with
  | string s => exact absurd key (other (begins 's') (by decide))
  | int n => exact absurd key (other (begins 'i') (by decide))
  | cls name => exact absurd key (other (begins 'c') (by decide))
  | field f => exact absurd key (other (begins 'f') (by decide))
  | @method s mem =>
    refine ⟨s, mem, rfl, ?_⟩
    have texts : ("m:" ++ s.text).toList = ("m:" ++ r.text).toList := congrArg String.toList key
    rw [String.toList_append, String.toList_append, List.append_cancel_left_eq] at texts
    exact String.toList_injective texts

/-! ## Pools -/

/-- The entries of a pool are still there in another one. -/
def Extends (pool pool' : Array Constant) : Prop :=
  ∀ (k : Nat) (c : Constant), pool[k]? = some c → pool'[k]? = some c

theorem Extends.refl (pool : Array Constant) : Extends pool pool := fun _ _ h => h

/-- A pool whose index is right and whose entries are proper. -/
structure Pool.Keyed (refs : Set MethodRef) (p : Pool) : Prop where
  bound : p.entries.size ≤ Pool.capacity
  proper : ∀ (k : Nat) (c : Constant), p.entries[k]? = some c → c.Proper refs
  found : ∀ (key : String) (k : Nat), p.index[key]? = some k →
    ∃ c, p.entries[k]? = some c ∧ c.key = key

theorem Pool.keyed_empty : Pool.Keyed refs {} where
  bound := by decide
  proper k c h := by simp at h
  found key k h := by simp at h

variable {p p' : Pool} {c : Constant} {k : Nat}

/-- Interning a constant gives the index of an entry with its key. -/
theorem Pool.Keyed.intern (keyed : p.Keyed refs) (proper : c.Proper refs)
    (h : p.intern c = .ok (k, p')) :
    p'.Keyed refs ∧ Extends p.entries p'.entries ∧
      ∃ d, p'.entries[k]? = some d ∧ d.key = c.key := by
  unfold Pool.intern at h
  cases known : p.index[c.key]? with
  | some i =>
    simp only [known, Except.ok.injEq, Prod.mk.injEq] at h
    obtain ⟨rfl, rfl⟩ := h
    exact ⟨keyed, .refl _, keyed.found c.key i known⟩
  | none =>
    simp only [known] at h
    split at h
    · rename_i room
      simp only [Except.ok.injEq, Prod.mk.injEq] at h
      obtain ⟨rfl, rfl⟩ := h
      have old : Extends p.entries (p.entries.push c) := fun i d hd => by
        have lt : i < p.entries.size := (Array.getElem?_eq_some_iff.mp hd).1
        rw [Array.getElem?_push_lt lt, ← Array.getElem?_eq_getElem lt, hd]
      refine ⟨⟨?_, fun i d hd => ?_, fun key i hi => ?_⟩, old, c, by simp, rfl⟩
      · simpa using room
      · rw [Array.getElem?_push] at hd
        split at hd
        · cases hd
          exact proper
        · exact keyed.proper i d hd
      · rw [Std.TreeMap.getElem?_insert] at hi
        split at hi
        · rename_i same
          cases hi
          exact ⟨c, by simp, Std.LawfulEqOrd.eq_of_compare same⟩
        · obtain ⟨d, hd, key'⟩ := keyed.found key i hi
          exact ⟨d, old i d hd, key'⟩
    · cases h

theorem Pool.Keyed.lt_of_getElem? (keyed : p.Keyed refs) (h : p.entries[k]? = some c) :
    k < 65536 :=
  (Array.getElem?_eq_some_iff.mp h).1.trans_le keyed.bound

theorem methodAt_of_getElem? {pool : Array Constant} {r : MethodRef}
    (h : pool[k]? = some (.ofMethod r)) : Method.methodAt { pool } k = .ok r := by
  simp [Method.methodAt, Method.constantAt, h, bind, Except.bind, Constant.ofMethod]

end Machine

end HostLowering
