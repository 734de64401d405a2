import HostLowering.Proofs.Catalog.Chains

set_option autoImplicit false

/-! # Loading keeps a registry in order

A registry that comes from the builtin types by loading files is `WellFormed`: each type stands under
its own name, every chain of bases ends at the universal base, and all types that a type mentions are
registered. Of such a registry `load_all_or_nothing` says when a file can be loaded, that loading then
adds just the declared types, and that otherwise nothing changes.
-/

namespace HostLowering

theorem Table.mem_values_set {κ α : Type} [BEq κ] {t : Table κ α} {key : κ} {v v' : α}
    (mem : v' ∈ (t.set key v).values) : v' = v ∨ v' ∈ t.values := by
  induction t with
  | nil => simpa [Table.set, Table.values] using mem
  | cons e t ih =>
    obtain ⟨k, u⟩ := e
    rw [Table.set] at mem
    split at mem
    · rcases List.mem_cons.mp mem with rfl | mem
      · exact .inl rfl
      · exact .inr (List.mem_cons_of_mem _ mem)
    · rcases List.mem_cons.mp mem with rfl | mem
      · exact .inr List.mem_cons_self
      · exact (ih mem).imp_right (List.mem_cons_of_mem _)

namespace Catalog

/-! ## What a description mentions -/

/-- The types of the parameters and of the result of a method. -/
def Signature.mentions (s : Signature) : List TypeRef :=
  s.returns.toList ++ s.params.filterMap Param.type

/-- The types that a description mentions: the base, and the types of fields, parameters and results. -/
def TypeInfo.mentions (i : TypeInfo) : List TypeRef :=
  i.base.toList ++ (i.fields.values.map Field.type ++ i.methods.values.flatMap Signature.mentions)

def Registry.Offers (r : Registry) (t : TypeRef) : Prop :=
  t = objectType ∨ ∃ n, t = .named n ∧ r.types.has n = true

section Describing

variable {names : Registry} {t : FileType} {i : TypeInfo}

theorem resolveOr_offers {n : String} {e : LoadError} {ref : TypeRef}
    (h : resolveOr names n e = .ok ref) : names.Offers ref := by
  unfold resolveOr resolveName at h
  by_cases empty : n = ""
  · simp only [empty, if_true] at h
    cases h
    exact .inl rfl
  · by_cases known : names.types.has n = true
    · simp only [empty, if_false, known, if_true] at h
      cases h
      exact .inr ⟨n, rfl, known⟩
    · simp only [empty, if_false, known, Bool.false_eq_true] at h
      cases h

theorem FileParam.resolve_offers {type method : String} {p : FileParam} {q : Param}
    (h : p.resolve names type method = .ok q) : ∃ ref, q.type = some ref ∧ names.Offers ref := by
  obtain ⟨ref, found, h⟩ := except_bind_eq_ok h
  refine ⟨ref, ?_, resolveOr_offers found⟩
  split at h
  · cases h
    rfl
  · split at h
    · cases h
      rfl
    · cases h

theorem FileMethod.signature_mentions (m : FileMethod) (kind : CallKind) (returns : TypeRef)
    (params : List Param) :
    (m.signature kind returns params).mentions = returns :: params.filterMap Param.type := by
  unfold FileMethod.signature
  dsimp only
  split <;> split <;> rfl

theorem FileMethod.describe_offers {m : FileMethod} {s : Signature}
    (h : m.describe names t = .ok s) : ∀ ref ∈ s.mentions, names.Offers ref := by
  obtain ⟨s₀, resolved, h⟩ := except_bind_eq_ok h
  have same : s.mentions = s₀.mentions := by
    split at h
    · cases h
      rfl
    · cases h
  rw [FileMethod.resolve_eq] at resolved
  cases kind : CallKind.ofName? m.kind with
  | none =>
    rw [kind] at resolved
    cases resolved
  | some kind =>
    simp only [kind] at resolved
    obtain ⟨returns, found, resolved⟩ := except_bind_eq_ok resolved
    obtain ⟨params, all, resolved⟩ := except_bind_eq_ok resolved
    cases resolved
    intro ref mem
    rw [same, FileMethod.signature_mentions] at mem
    rcases List.mem_cons.mp mem with rfl | mem
    · exact resolveOr_offers found
    · obtain ⟨q, inside, typed⟩ := List.mem_filterMap.mp mem
      obtain ⟨p, -, done⟩ := mem_of_mapM_ok all q inside
      obtain ⟨ref', typed', offers⟩ := FileParam.resolve_offers done
      obtain rfl := Option.some.inj (typed.symm.trans typed')
      exact offers

/-- What stands in a table that members are added to is one of them or stood there before. -/
theorem TypeInfo.mem_foldl {α : Type} {xs : List α} {x : α} {add : TypeInfo → α → TypeInfo}
    (table : TypeInfo → Table String α) (key : α → String)
    (adds : ∀ i x, table (add i x) = (table i).set (key x) x)
    (mem : x ∈ (table (xs.foldl add i)).values) : x ∈ xs ∨ x ∈ (table i).values := by
  induction xs generalizing i with
  | nil => exact .inr mem
  | cons y xs ih =>
    rcases ih mem with later | here
    · exact .inl (List.mem_cons_of_mem _ later)
    · rw [adds] at here
      rcases Table.mem_values_set here with rfl | old
      · exact .inl List.mem_cons_self
      · exact .inr old

/-- A described type has a base, and all that it mentions is to be had. -/
theorem FileType.describe_offers (h : t.describe names = .ok i) :
    i.base ≠ none ∧ ∀ ref ∈ i.mentions, names.Offers ref := by
  obtain ⟨base, found, h⟩ := except_bind_eq_ok h
  obtain ⟨fields, allFields, h⟩ := except_bind_eq_ok h
  obtain ⟨methods, allMethods, h⟩ := except_bind_eq_ok h
  cases h
  obtain ⟨-, -, fieldBase, noMethods⟩ := TypeInfo.foldl_withField fields
    { name := t.name, host := t.host, base := some base }
  obtain ⟨-, -, methodBase, sameFields⟩ := TypeInfo.foldl_withMethod methods
    (fields.foldl TypeInfo.withField { name := t.name, host := t.host, base := some base })
  rw [fieldBase] at methodBase
  refine ⟨by simp [methodBase], ?_⟩
  intro ref mem
  rw [TypeInfo.mentions, methodBase, sameFields] at mem
  rcases List.mem_append.mp mem with ofBase | mem
  · rw [List.mem_singleton.mp ofBase]
    exact resolveOr_offers found
  rcases List.mem_append.mp mem with ofField | ofMethod
  · obtain ⟨f, inside, rfl⟩ := List.mem_map.mp ofField
    rcases TypeInfo.mem_foldl (·.fields) (·.name) (fun _ _ => rfl) inside with declared | none
    · obtain ⟨g, -, done⟩ := mem_of_mapM_ok allFields f declared
      obtain ⟨type, resolved, done⟩ := except_bind_eq_ok done
      cases done
      exact resolveOr_offers resolved
    · cases none
  · obtain ⟨s, inside, mem⟩ := List.mem_flatMap.mp ofMethod
    rcases TypeInfo.mem_foldl (·.methods) (·.name) (fun _ _ => rfl) inside with declared | none
    · obtain ⟨m, -, done⟩ := mem_of_mapM_ok allMethods s declared
      exact FileMethod.describe_offers done ref mem
    · rw [noMethods] at none
      cases none

end Describing

/-! ## Well-formed registries -/

namespace Registry

variable {r : Registry} {is : List TypeInfo} {n : String} {i : TypeInfo} {t : TypeRef}
  {chain : List TypeRef}

/-- All types that a type mentions are registered. -/
def Closed (r : Registry) : Prop :=
  ∀ n i, r.types.get? n = some i → ∀ t ∈ i.mentions, ∃ m, t = .named m ∧ r.types.has m = true

/-- A registry in order. -/
structure WellFormed (r : Registry) : Prop where
  /-- A type stands under its own name. -/
  named : ∀ n i, r.types.get? n = some i → i.name = n
  root : r.types.has "object" = true
  closed : r.Closed
  /-- The chain of bases of a type ends at the universal base, and its lineage is all of it. -/
  chains : ∀ n, r.types.has n = true → ∃ chain, Chain r (.named n) chain ∧
    chain.getLast? = some objectType ∧ r.lineage (.named n) = chain

theorem base_mem_mentions {b : TypeRef} (base : i.base = some b) : b ∈ i.mentions := by
  simp [TypeInfo.mentions, base]

theorem Closed.namedBases (closed : r.Closed) : r.NamedBases := by
  intro n i b found base
  obtain ⟨m, rfl, -⟩ := closed n i found b (base_mem_mentions base)
  exact ⟨m, rfl⟩

/-- A chain goes through registered types. -/
theorem Closed.mem_chain (closed : r.Closed) (known : r.types.has n = true)
    (of : Chain r (.named n) chain) (mem : t ∈ chain) : ∃ m, t = .named m ∧ r.types.has m = true := by
  generalize start : TypeRef.named n = t₀ at of
  induction of generalizing n with
  | root =>
    rw [List.mem_singleton] at mem
    exact ⟨n, mem.trans start.symm, known⟩
  | @derived t₀ b chain base rest ih =>
    subst start
    rcases List.mem_cons.mp mem with rfl | mem
    · exact ⟨n, rfl, known⟩
    · obtain ⟨i, found, based⟩ := Option.bind_eq_some_iff.mp base
      obtain ⟨m, rfl, has⟩ := closed n i found b (base_mem_mentions based)
      exact ih has mem rfl

theorem WellFormed.root_of_base?_eq_none (h : r.WellFormed) (known : r.types.has n = true)
    (none : r.base? (.named n) = none) : TypeRef.named n = objectType := by
  obtain ⟨chain, of, ends, -⟩ := h.chains n known
  rw [of.unique (.root none)] at ends
  exact Option.some.inj ends

theorem has_adding (known : r.types.has n = true) : (r.adding is).types.has n = true := by
  rw [Table.has, Option.isSome_iff_exists] at known ⊢
  obtain ⟨i, found⟩ := known
  exact ⟨i, by rw [get?_adding, found]; rfl⟩

/-- A type that was there has the base it had. -/
theorem base?_adding (known : r.types.has n = true) :
    (r.adding is).base? (.named n) = r.base? (.named n) := by
  obtain ⟨i, found⟩ := Option.isSome_iff_exists.mp known
  show ((r.adding is).types.get? n).bind _ = (r.types.get? n).bind _
  rw [get?_adding, found]
  rfl

theorem Chain.adding (closed : r.Closed) (known : r.types.has n = true)
    (of : Chain r (.named n) chain) : Chain (r.adding is) (.named n) chain := by
  generalize start : TypeRef.named n = t at of ⊢
  induction of generalizing n with
  | root none =>
    subst start
    exact .root ((base?_adding known).trans none)
  | @derived t b chain base rest ih =>
    subst start
    obtain ⟨i, found, based⟩ := Option.bind_eq_some_iff.mp base
    obtain ⟨m, rfl, has⟩ := closed n i found b (base_mem_mentions based)
    exact .derived ((base?_adding known).trans base) (ih has rfl)

variable {ts : List FileType}

/-- The names of a group are those of its descriptions. -/
theorem has_withNames (all : ts.mapM (FileType.describe (r.withNames ts)) = .ok is) (n : String) :
    (r.withNames ts).types.has n = (r.adding is).types.has n := by
  have listed (xs : List TypeInfo) : (xs.find? fun i => i.name == n).isSome =
      (xs.map TypeInfo.name).contains n := by
    induction xs with
    | nil => rfl
    | cons x xs ih =>
      rw [List.find?_cons, List.map_cons, List.contains_cons, ← ih, BEq.comm]
      cases n == x.name <;> rfl
  have names : (ts.map FileType.blank).map TypeInfo.name = is.map TypeInfo.name := by
    rw [names_of_describe all, List.map_map]
    rfl
  simp only [Table.has, withNames, get?_adding, Option.isSome_or, listed, names]

/-- A description is one that was there, or one of those that were added. -/
theorem mem_adding (found : (r.adding is).types.get? n = some i) :
    r.types.get? n = some i ∨ i ∈ is ∧ i.name = n := by
  rw [get?_adding, Option.or_eq_some_iff] at found
  rcases found with old | ⟨-, new⟩
  · exact .inl old
  · exact .inr ⟨List.mem_of_find?_eq_some new, by simpa using List.find?_some new⟩

/-- What types mention that were described together is registered with them. -/
theorem WellFormed.closed_adding (h : r.WellFormed)
    (all : ts.mapM (FileType.describe (r.withNames ts)) = .ok is) : (r.adding is).Closed := by
  intro n i found u mem
  rcases mem_adding found with old | ⟨new, -⟩
  · obtain ⟨m, rfl, has⟩ := h.closed n i old u mem
    exact ⟨m, rfl, has_adding has⟩
  · obtain ⟨t, -, described⟩ := mem_of_mapM_ok all i new
    rcases (FileType.describe_offers described).2 u mem with rfl | ⟨m, rfl, has⟩
    · exact ⟨"object", rfl, has_adding h.root⟩
    · exact ⟨m, rfl, (has_withNames all m) ▸ has⟩

/-- Adding types that were described together, all of which have a chain, keeps a registry in order. -/
theorem WellFormed.adding (h : r.WellFormed)
    (all : ts.mapM (FileType.describe (r.withNames ts)) = .ok is)
    (chains : ∀ t ∈ ts, ∃ chain, Chain (r.adding is) (.named t.name) chain) :
    (r.adding is).WellFormed := by
  have closed := h.closed_adding all
  refine ⟨fun n i found => ?_, has_adding h.root, closed, fun n known => ?_⟩
  · exact (mem_adding found).elim (h.named n i) And.right
  obtain ⟨i, found⟩ := Option.isSome_iff_exists.mp known
  rcases mem_adding found with old | ⟨new, name⟩
  · have has : r.types.has n = true := by simp [Table.has, old]
    obtain ⟨chain, of, ends, -⟩ := h.chains n has
    have of' : Chain (r.adding is) (.named n) chain := of.adding h.closed has
    exact ⟨chain, of', ends, closed.namedBases.lineage_eq of'⟩
  · obtain ⟨t, mem, described⟩ := mem_of_mapM_ok all i new
    obtain ⟨chain, of⟩ := chains t mem
    rw [← (FileType.describe_name described).1, name] at of
    refine ⟨chain, of, ?_, closed.namedBases.lineage_eq of⟩
    have nonempty : chain ≠ [] := by cases of <;> simp
    obtain ⟨last, ends⟩ : ∃ last, chain.getLast? = some last :=
      ⟨_, List.getLast?_eq_some_getLast nonempty⟩
    have none := of.getLast?_base ends
    obtain ⟨m, rfl, has⟩ := closed.mem_chain known of (List.mem_of_getLast? ends)
    -- The last type has no base, so it is not one of those that were added.
    obtain ⟨j, found'⟩ := Option.isSome_iff_exists.mp has
    rcases mem_adding found' with old' | ⟨new', -⟩
    · have has' : r.types.has m = true := by simp [Table.has, old']
      rw [ends, h.root_of_base?_eq_none has' ((base?_adding has').symm.trans none)]
    · have base : (r.adding is).base? (.named m) = j.base := by
        show ((r.adding is).types.get? m).bind TypeInfo.base = _
        rw [found']
        rfl
      obtain ⟨_, -, described'⟩ := mem_of_mapM_ok all j new'
      exact absurd (base.symm.trans none) (FileType.describe_offers described').1

theorem wellFormed_builtin : WellFormed .builtin := by
  have entry {n : String} {i : TypeInfo} (found : Registry.builtin.types.get? n = some i) :
      (n, i) ∈ builtinTypes := Table.entry_of_get? found
  have names : ∀ e ∈ builtinTypes, e.2.name = e.1 := by decide +kernel
  have mentioned : ∀ e ∈ builtinTypes, ∀ t ∈ e.2.mentions, TypeRef.casesOn (motive := fun _ => Bool) t
      (fun m => builtinTypes.has m) (fun _ => false) = true := by decide +kernel
  have ends : ∀ e ∈ builtinTypes, Registry.builtin.isCyclic (.named e.1) = false ∧
      (Registry.builtin.lineage (.named e.1)).getLast? = some objectType := by decide +kernel
  have closed : Registry.builtin.Closed := by
    intro n i found t mem
    have known := mentioned (n, i) (entry found) t mem
    cases t with
    | named m => exact ⟨m, rfl, known⟩
    | callable k => cases known
  refine ⟨fun n i found => names (n, i) (entry found), by decide +kernel, closed, fun n known => ?_⟩
  obtain ⟨i, found⟩ := Option.isSome_iff_exists.mp known
  obtain ⟨free, last⟩ := ends (n, i) (entry found)
  obtain ⟨chain, of⟩ := (closed.namedBases.isCyclic_eq_false_iff n).mp free
  have whole := closed.namedBases.lineage_eq of
  exact ⟨chain, of, whole ▸ last, whole⟩

/-- A registry that comes from the builtin types by loading files. -/
inductive Reached : Registry → Prop where
  | builtin : Reached .builtin
  | load {r : Registry} (h : Reached r) (bs : List UInt8) : Reached (r.load bs).2

theorem load_eq (r : Registry) (bs : List UInt8) : r.load bs = (match fileTypes? bs with
    | none => (.error .unreadable, r)
    | some ts => match r.withDescribed ts with
      | .ok r' => (.ok (), r')
      | .error e => (.error e, r)) := by
  unfold load Loading.file
  cases fileTypes? bs with
  | none => rfl
  | some ts => exact Loading.types_eq r ts

/-- What the types of a file come to, if they can be registered together. -/
structure Describes (r : Registry) (ts : List FileType) (is : List TypeInfo) : Prop where
  nameable : r.Nameable ts
  each : List.Forall₂ (fun t i => t.describe (r.withNames ts) = .ok i) ts is
  chains : ∀ t ∈ ts, ∃ chain, Chain (r.adding is) (.named t.name) chain

/-- In a registry in order, types can be described in a copy exactly when they can be registered
together. -/
theorem WellFormed.withDescribed_eq_ok_iff (h : r.WellFormed) {r' : Registry} :
    r.withDescribed ts = .ok r' ↔ ∃ is, r.Describes ts is ∧ r' = r.adding is := by
  rw [Registry.withDescribed_eq_ok_iff]
  constructor
  · rintro ⟨nameable, is, all, rfl, acyclic⟩
    have bases := (h.closed_adding all).namedBases
    refine ⟨is, ⟨nameable, forall₂_of_mapM_ok all, fun t mem => ?_⟩, rfl⟩
    exact (bases.isCyclic_eq_false_iff t.name).mp (acyclic t mem)
  · rintro ⟨is, ⟨nameable, each, chains⟩, rfl⟩
    have all := mapM_ok_of_forall₂ each
    have bases := (h.closed_adding all).namedBases
    refine ⟨nameable, is, all, rfl, fun t mem => ?_⟩
    exact (bases.isCyclic_eq_false_iff t.name).mpr (chains t mem)

/-- One file keeps a registry in order. -/
theorem WellFormed.load (h : r.WellFormed) (bs : List UInt8) : (r.load bs).2.WellFormed := by
  rw [load_eq]
  cases fileTypes? bs with
  | none => exact h
  | some ts =>
    dsimp only
    cases described : r.withDescribed ts with
    | error e => exact h
    | ok r' =>
      obtain ⟨is, describes, rfl⟩ := h.withDescribed_eq_ok_iff.mp described
      exact h.adding (mapM_ok_of_forall₂ describes.each) describes.chains

theorem Reached.wellFormed (reached : Reached r) : r.WellFormed := by
  induction reached with
  | builtin => exact wellFormed_builtin
  | load _ bs ih => exact ih.load bs

end Registry

open Registry

/-- A registry that comes from the builtin types by loading files is in order. Loading a file into it
either fails and leaves it as it was, or adds just the types that the file declares; it succeeds when
these have names of their own, mention registered types or each other, and their bases do not lead
back. -/
theorem load_all_or_nothing {r : Registry} (reached : Reached r) : r.WellFormed ∧ ∀ bs,
    (∀ e, (r.load bs).1 = .error e → (r.load bs).2 = r) ∧
    ((r.load bs).1 = .ok () → ∃ ts is, fileTypes? bs = some ts ∧ r.Describes ts is ∧
      (r.load bs).2 = r.adding is) ∧
    ∀ ts is, fileTypes? bs = some ts → r.Describes ts is → (r.load bs).1 = .ok () := by
  have wellFormed := reached.wellFormed
  refine ⟨wellFormed, fun bs => ?_⟩
  rw [load_eq]
  cases declared : fileTypes? bs with
  | none => exact ⟨fun _ _ => rfl, by simp, by simp⟩
  | some ts =>
      dsimp only
      cases described : r.withDescribed ts with
      | error e =>
          refine ⟨fun _ _ => rfl, by simp, fun ts' is same describes => ?_⟩
          cases same
          rw [wellFormed.withDescribed_eq_ok_iff.mpr ⟨is, describes, rfl⟩] at described
          cases described
      | ok r' =>
          obtain ⟨is, describes, rfl⟩ := wellFormed.withDescribed_eq_ok_iff.mp described
          exact ⟨by simp, fun _ => ⟨ts, is, rfl, describes, rfl⟩, fun _ _ _ _ => rfl⟩

/-- A file with a type that is declared before its base. -/
def forwardFile : List UInt8 :=
  "[[type]]\nname='B'\nhost='u/B'\nbase='A'\n[[type]]\nname='A'\nhost='u/A'".toUTF8.toList

/-- A file can be loaded once; the second time nothing changes. -/
theorem load_forwardFile_twice :
    let r := (Registry.builtin.load forwardFile).2
    (Registry.builtin.load forwardFile).1 = .ok () ∧ r.types.has "B" = true ∧ r.WellFormed ∧
      (r.load forwardFile).1 = .error (.alreadyRegistered "B") ∧ (r.load forwardFile).2 = r := by
  have again : ((Registry.builtin.load forwardFile).2.load forwardFile).1 =
      .error (.alreadyRegistered "B") := by decide +kernel
  obtain ⟨wellFormed, each⟩ := load_all_or_nothing (.load .builtin forwardFile)
  exact ⟨by decide +kernel, by decide +kernel, wellFormed, again, (each forwardFile).1 _ again⟩

end Catalog

end HostLowering
