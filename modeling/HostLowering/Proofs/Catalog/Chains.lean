import HostLowering.Proofs.Catalog.Group

set_option autoImplicit false

/-! # Chains of bases

The chain of a type goes from base to base until a type that has none. It need not exist: bases may
lead back. Where it exists no type occurs in it twice, so it is no longer than the registry allows a
lineage to be, and the lineage is the whole chain (`Chain.lineage_eq`). Loading asks whether the lineage
ends at a type that has no base; `isCyclic_eq_false_iff` says that this is the question whether there
is a chain.
-/

namespace HostLowering

variable {n : String}

theorem Table.entry_of_get? {κ α : Type} [BEq κ] [LawfulBEq κ] {t : Table κ α} {key : κ} {v : α}
    (h : t.get? key = some v) : (key, v) ∈ t := by
  induction t with
  | nil => cases h
  | cons e t ih =>
    obtain ⟨k, u⟩ := e
    simp only [Table.get?] at h
    by_cases here : k = key
    · simp only [beq_iff_eq, here, if_true] at h
      cases h
      simp [here]
    · simp only [beq_iff_eq, here, if_false] at h
      exact List.mem_cons_of_mem _ (ih h)

namespace Catalog.Registry

variable {r r' : Registry} {t b : TypeRef} {chain chain' : List TypeRef}

def base? (r : Registry) (t : TypeRef) : Option TypeRef := (r.info? t).bind TypeInfo.base

/-- The list is the chain of bases of a type, from the type itself to one that has no base. -/
inductive Chain (r : Registry) : TypeRef → List TypeRef → Prop where
  | root {t : TypeRef} (none : r.base? t = none) : Chain r t [t]
  | derived {t b : TypeRef} {chain : List TypeRef} (base : r.base? t = some b) (rest : Chain r b chain) :
      Chain r t (t :: chain)

namespace Chain

theorem unique (h : Chain r t chain) (h' : Chain r t chain') : chain = chain' := by
  induction h generalizing chain' with
  | root none =>
    cases h' with
    | root => rfl
    | derived base => simp [none] at base
  | derived base _ ih =>
    cases h' with
    | root none => simp [none] at base
    | derived base' rest' =>
      obtain rfl : _ = _ := Option.some.inj (base.symm.trans base')
      rw [ih rest']

/-- A type in the chain of another has its own chain there. -/
theorem of_mem (h : Chain r t chain) (mem : b ∈ chain) :
    ∃ chain', Chain r b chain' ∧ chain'.length ≤ chain.length := by
  induction h with
  | @root t none =>
    rw [List.mem_singleton] at mem
    subst mem
    exact ⟨[b], .root none, le_rfl⟩
  | @derived t c chain base rest ih =>
    rcases List.mem_cons.mp mem with rfl | mem
    · exact ⟨b :: chain, .derived base rest, le_rfl⟩
    · obtain ⟨chain', own, le⟩ := ih mem
      exact ⟨chain', own, le.trans (Nat.le_succ _)⟩

/-- No type occurs twice: the chain of its second occurrence would be shorter than itself. -/
theorem nodup (h : Chain r t chain) : chain.Nodup := by
  induction h with
  | root => simp
  | @derived t c chain base rest ih =>
    rw [List.nodup_cons]
    refine ⟨?_, ih⟩
    intro again
    obtain ⟨chain', own, le⟩ := rest.of_mem again
    have same : t :: chain = chain' := unique (.derived base rest) own
    rw [← same, List.length_cons] at le
    omega

theorem base?_of_mem_dropLast (h : Chain r t chain) (mem : b ∈ chain.dropLast) : (r.base? b).isSome := by
  induction h with
  | root => simp at mem
  | @derived t c chain base rest ih =>
    have nonempty : chain ≠ [] := by cases rest <;> simp
    rw [List.dropLast_cons_of_ne_nil nonempty] at mem
    rcases List.mem_cons.mp mem with rfl | mem
    · simp [base]
    · exact ih mem

theorem getLast?_base (h : Chain r t chain) {last : TypeRef} (ends : chain.getLast? = some last) :
    r.base? last = none := by
  induction h with
  | @root t none =>
    cases ends
    exact none
  | @derived t c chain base rest ih =>
    have nonempty : chain ≠ [] := by cases rest <;> simp
    rw [List.getLast?_cons_of_ne_nil nonempty] at ends
    exact ih ends

theorem lineageUpTo_eq (h : Chain r t chain) (n : Nat) : r.lineageUpTo n t = chain.take n := by
  induction h generalizing n with
  | @root t none =>
    cases n with
    | zero => rfl
    | succ n =>
      rw [base?] at none
      simp [lineageUpTo, none]
  | @derived t c chain base rest ih =>
    cases n with
    | zero => rfl
    | succ n =>
      rw [base?] at base
      simp [lineageUpTo, base, ih]

end Chain

def NamedBases (r : Registry) : Prop :=
  ∀ n i b, r.types.get? n = some i → i.base = some b → ∃ m, b = .named m

theorem NamedBases.names (h : r.NamedBases) (of : Chain r (.named n) chain) :
    ∃ names : List String, chain = names.map TypeRef.named := by
  generalize start : TypeRef.named n = t at of
  induction of generalizing n with
  | root => exact ⟨[n], by simp [start]⟩
  | @derived t c chain base rest ih =>
    subst start
    obtain ⟨i, found, based⟩ := Option.bind_eq_some_iff.mp base
    obtain ⟨m, rfl⟩ := h n i c found based
    obtain ⟨names, rfl⟩ := ih rfl
    exact ⟨n :: names, by simp⟩

/-- A chain has room in a lineage: each of its types but the last is registered under a name of its
own. -/
theorem NamedBases.length_le (h : r.NamedBases) (of : Chain r (.named n) chain) :
    chain.length ≤ r.types.length + 1 := by
  obtain ⟨names, rfl⟩ := h.names of
  have distinct : names.dropLast.Nodup := of.nodup.of_map.sublist (List.dropLast_sublist names)
  have registered : names.dropLast ⊆ r.types.keys := by
    intro m mem
    have inChain : TypeRef.named m ∈ (names.map TypeRef.named).dropLast := by
      rw [← List.map_dropLast]
      exact List.mem_map_of_mem mem
    obtain ⟨b, base⟩ := Option.isSome_iff_exists.mp (of.base?_of_mem_dropLast inChain)
    obtain ⟨i, found, -⟩ := Option.bind_eq_some_iff.mp base
    exact List.mem_map_of_mem (Table.entry_of_get? found)
  have le := (distinct.subperm registered).length_le
  simp only [List.length_dropLast, Table.keys, List.length_map] at le ⊢
  omega

theorem NamedBases.lineage_eq (h : r.NamedBases) (of : Chain r (.named n) chain) :
    r.lineage (.named n) = chain := by
  rw [lineage, of.lineageUpTo_eq, List.take_of_length_le (h.length_le of)]

/-- A stretch of a chain that ends at a type without a base is the whole chain. -/
theorem chain_lineageUpTo (n : Nat) (t : TypeRef) {last : TypeRef}
    (ends : (r.lineageUpTo n t).getLast? = some last) (none : r.base? last = none) :
    Chain r t (r.lineageUpTo n t) := by
  induction n generalizing t with
  | zero => cases ends
  | succ n ih =>
    rw [lineageUpTo] at ends ⊢
    cases base : (r.info? t).bind TypeInfo.base with
    | none => exact .root base
    | some b =>
      simp only [base] at ends ⊢
      cases n with
      | zero =>
        cases ends
        exact absurd (base.symm.trans none) (by simp)
      | succ n =>
        have nonempty : r.lineageUpTo (n + 1) b ≠ [] := by
          rw [lineageUpTo]
          split <;> simp
        rw [List.getLast?_cons_of_ne_nil nonempty] at ends
        exact .derived base (ih b ends)

/-- The bases of a type lead back exactly when it has no chain. -/
theorem NamedBases.isCyclic_eq_false_iff (h : r.NamedBases) (n : String) :
    r.isCyclic (.named n) = false ↔ ∃ chain, Chain r (.named n) chain := by
  have nonempty : r.lineage (.named n) ≠ [] := by
    rw [lineage, lineageUpTo]
    split <;> simp
  obtain ⟨last, ends⟩ : ∃ last, (r.lineage (.named n)).getLast? = some last :=
    ⟨_, List.getLast?_eq_some_getLast nonempty⟩
  have asks : r.isCyclic (.named n) = (r.base? last).isSome := by
    simp only [isCyclic, ends]
    rfl
  rw [asks]
  constructor
  · intro root
    exact ⟨_, chain_lineageUpTo _ _ ends (by simpa using root)⟩
  · rintro ⟨chain, of⟩
    rw [h.lineage_eq of] at ends
    simp [of.getLast?_base ends]

end Catalog.Registry

end HostLowering
