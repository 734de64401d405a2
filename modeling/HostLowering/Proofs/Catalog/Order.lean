import HostLowering.Proofs.Catalog.Group

set_option autoImplicit false

/-! # The order of declarations

A declaration may refer to types that are declared before it, behind it or in it, and its host methods
are derived while some of those types are not filled in yet. Still, all that a declaration takes from
the others is their names and host classes, which are there from the start. Loading the same
declarations in another order therefore succeeds or fails alike, and gives a registry with the same
description under every name (`load_perm`).
-/

namespace HostLowering

theorem mapM_perm {α β ε : Type} {f : α → Except ε β} {xs xs' : List α} {ys : List β}
    (perm : xs.Perm xs') (h : xs.mapM f = .ok ys) : ∃ ys', xs'.mapM f = .ok ys' ∧ ys'.Perm ys := by
  obtain ⟨ys', each, perm'⟩ := List.perm_comp_forall₂ perm.symm (forall₂_of_mapM_ok h)
  exact ⟨ys', mapM_ok_of_forall₂ each, perm'⟩

/-- In lists with distinct names the order does not decide what is found. -/
theorem find?_perm {α : Type} {name : α → String} {xs ys : List α} (perm : xs.Perm ys)
    (distinct : (xs.map name).Nodup) (n : String) :
    xs.find? (fun x => name x == n) = ys.find? (fun x => name x == n) := by
  have found : ∀ {zs : List α}, (zs.map name).Nodup → ∀ x,
      zs.find? (fun z => name z == n) = some x ↔ x ∈ zs ∧ name x = n := by
    intro zs nodup x
    constructor
    · intro h
      exact ⟨List.mem_of_find?_eq_some h, by simpa using List.find?_some h⟩
    · rintro ⟨mem, rfl⟩
      have present : (zs.find? fun z => name z == name x).isSome := by
        rw [List.find?_isSome]
        exact ⟨x, mem, by simp⟩
      obtain ⟨z, h⟩ := Option.isSome_iff_exists.mp present
      have same : name z = name x := by simpa using List.find?_some h
      rw [h, List.inj_on_of_nodup_map nodup (List.mem_of_find?_eq_some h) mem same]
  apply Option.ext
  intro x
  rw [found distinct, found ((perm.map name).nodup_iff.mp distinct), perm.mem_iff]

namespace Catalog

namespace Registry

variable {r r' : Registry} {ts us : List FileType}

/-- Two registries describe the same types. The number of types is the length that is allowed to a
lineage. -/
structure Agree (r r' : Registry) : Prop where
  types (n : String) : r.types.get? n = r'.types.get? n
  count : r.types.length = r'.types.length
  callables : r.callables = r'.callables

namespace Agree

theorem refl (r : Registry) : Agree r r := ⟨fun _ => rfl, rfl, rfl⟩

theorem info? (h : Agree r r') : r.info? = r'.info? := by
  funext t
  cases t with
  | named n => exact h.types n
  | callable i => simp only [Registry.info?, h.callables]

theorem lineageUpTo (h : Agree r r') (n : Nat) (t : TypeRef) :
    r.lineageUpTo n t = r'.lineageUpTo n t := by
  induction n generalizing t with
  | zero => rfl
  | succ n ih => simp only [Registry.lineageUpTo, h.info?, ih]

theorem lineage (h : Agree r r') (t : TypeRef) : r.lineage t = r'.lineage t := by
  rw [Registry.lineage, Registry.lineage, h.count, h.lineageUpTo]

theorem lineageOf (h : Agree r r') (t : Option TypeRef) : r.lineageOf t = r'.lineageOf t := by
  cases t with
  | none => rfl
  | some t => exact h.lineage t

theorem isCyclic (h : Agree r r') (t : TypeRef) : r.isCyclic t = r'.isCyclic t := by
  simp only [Registry.isCyclic, h.lineage, h.info?]

theorem declared? (h : Agree r r') (name : String) : r.declared? name = r'.declared? name := by
  funext t
  simp only [Registry.declared?, h.info?]

theorem field? (h : Agree r r') (t : Option TypeRef) (name : String) :
    r.field? t name = r'.field? t name := by
  simp only [Registry.field?, h.lineageOf, h.info?]

theorem lookup? (h : Agree r r') (t : Option TypeRef) (name : String) :
    r.lookup? t name = r'.lookup? t name := by
  have method : r.method? t name = r'.method? t name := by
    simp only [Registry.method?, h.lineageOf, h.declared?]
  simp only [Registry.lookup?, method]

theorem definingType? (h : Agree r r') (t : Option TypeRef) (name : String) :
    r.definingType? t name = r'.definingType? t name := by
  simp only [Registry.definingType?, h.lineageOf, h.declared?]

/-- Types with distinct names can be added in any order. -/
theorem adding {is js : List TypeInfo} (perm : is.Perm js) (distinct : (is.map TypeInfo.name).Nodup) :
    Agree (r.adding is) (r.adding js) := by
  refine ⟨?_, ?_, rfl⟩
  · intro n
    rw [get?_adding, get?_adding, find?_perm perm distinct]
  · simp [Registry.adding, perm.length_eq]

end Agree

theorem Nameable.perm (perm : ts.Perm us) (h : r.Nameable ts) : r.Nameable us where
  complete t mem := h.complete t (perm.mem_iff.mpr mem)
  fresh n mem := h.fresh n ((perm.map FileType.name).mem_iff.mpr mem)
  distinct := (perm.map FileType.name).nodup_iff.mp h.distinct

/-- The names of a group are known alike whatever their order. -/
theorem withNames_perm (perm : ts.Perm us) (distinct : (ts.map FileType.name).Nodup) :
    SameHosts (r.withNames ts) (r.withNames us) := by
  constructor
  · intro n
    rw [get?_withNames, get?_withNames, find?_perm perm distinct]
  · rfl

/-- Declarations that can be described can be described in any other order. -/
theorem withDescribed_perm (perm : ts.Perm us) (h : r.withDescribed ts = .ok r') :
    ∃ r'', r.withDescribed us = .ok r'' ∧ Agree r' r'' := by
  obtain ⟨nameable, is, all, rfl, acyclic⟩ := withDescribed_eq_ok_iff.mp h
  rw [(withNames_perm perm nameable.distinct).describe] at all
  obtain ⟨js, all', perm'⟩ := mapM_perm perm all
  have distinct : (is.map TypeInfo.name).Nodup := names_of_describe all ▸ nameable.distinct
  have agree : Agree (r.adding is) (r.adding js) := .adding perm'.symm distinct
  refine ⟨r.adding js, withDescribed_eq_ok_iff.mpr ⟨nameable.perm perm, js, all', rfl, ?_⟩, agree⟩
  intro t mem
  rw [← agree.isCyclic]
  exact acyclic t (perm.mem_iff.mpr mem)

end Registry

/-- Loading declarations in another order succeeds exactly when loading them in the given one does, and
every name then has the same description (host class, base, fields and signatures with their host
methods), the same lineage, and the same answers to all lookups. -/
theorem load_perm (r : Registry) {ts us : List FileType} (perm : ts.Perm us) :
    let a := (Loading.types ts).run.run r
    let b := (Loading.types us).run.run r
    (a.1 = .ok () ↔ b.1 = .ok ()) ∧
      (∀ n, a.2.types.get? n = b.2.types.get? n) ∧
      (∀ t, a.2.hostClass t = b.2.hostClass t ∧ a.2.lineage t = b.2.lineage t) ∧
      ∀ t name, a.2.field? t name = b.2.field? t name ∧ a.2.lookup? t name = b.2.lookup? t name ∧
        a.2.definingType? t name = b.2.definingType? t name := by
  intro a b
  have alike : (a.1 = .ok () ↔ b.1 = .ok ()) ∧ Registry.Agree a.2 b.2 := by
    simp only [a, b, Loading.types_eq]
    cases first : r.withDescribed ts with
    | ok r' =>
        obtain ⟨r'', second, agree⟩ := Registry.withDescribed_perm perm first
        rw [second]
        exact ⟨Iff.rfl, agree⟩
    | error e =>
        cases second : r.withDescribed us with
        | ok r'' =>
            obtain ⟨r', again, -⟩ := Registry.withDescribed_perm perm.symm second
            rw [again] at first
            cases first
        | error e' => exact ⟨by simp, .refl r⟩
  obtain ⟨success, agree⟩ := alike
  refine ⟨success, agree.types, ?_, ?_⟩
  · intro t
    refine ⟨?_, agree.lineage t⟩
    simp only [Registry.hostClass, agree.info?]
  · intro t name
    exact ⟨agree.field? t name, agree.lookup? t name, agree.definingType? t name⟩

/-- A type that is declared before its base, with a field of its own type and a method. -/
def nodeType : FileType :=
  { name := "Node", host := "u/Node", base := "Item", fields := [{ name := "next", type := "Node" }],
    methods := [{ name := "weigh", returns := "int", params := [{ name := "by", type := "Item" }] }] }

def itemType : FileType := { name := "Item", host := "u/Item" }

/-- The order of two types that refer to each other does not matter. -/
theorem load_perm_node_item :
    let a := (Loading.types [nodeType, itemType]).run.run .builtin
    let b := (Loading.types [itemType, nodeType]).run.run .builtin
    a.1 = .ok () ∧ b.1 = .ok () ∧ (a.2.lookup? (some (.named "Node")) "weigh").isSome ∧
      ∀ t name, a.2.lookup? t name = b.2.lookup? t name := by
  obtain ⟨success, -, -, lookups⟩ := load_perm .builtin (.swap itemType nodeType [])
  have first : ((Loading.types [nodeType, itemType]).run.run .builtin).1 = .ok () := by decide +kernel
  exact ⟨first, success.mp first, by decide +kernel, fun t name => (lookups t name).2.1⟩

end Catalog

end HostLowering
