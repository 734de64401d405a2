import HostLowering.Catalog.Builtin
import HostLowering.Catalog.Declaration
import Mathlib.Tactic

set_option autoImplicit false

/-! # Sound signatures

A direct call puts the receiver or class and one value for each host parameter of a signature on the
stack and expects one answer. A signature is `Sound` when its host method takes and gives just that.
The signatures of a registry are sound when it was built from the builtin types by declaring methods
whose host methods were derived, with return classes that stand for a value (`Cataloged.sound`).
-/

namespace HostLowering

variable {α ε β : Type}

theorem Table.get?_set {κ : Type} [BEq κ] [LawfulBEq κ] (t : Table κ α) (k : κ) (v : α) (key : κ) :
    (t.set k v).get? key = if k == key then some v else t.get? key := by
  induction t with
  | nil => rfl
  | cons e t ih =>
    obtain ⟨k', v'⟩ := e
    unfold Table.set
    by_cases same : k' = k
    · subst same
      simp only [beq_self_eq_true, if_true, Table.get?]
      by_cases here : k' = key <;> simp [here]
    · simp only [beq_iff_eq, same, if_false, Table.get?, ih]
      by_cases first : k' = key
      · subst first
        simp [Ne.symm same]
      · simp [first]

theorem Table.mem_of_get? {κ : Type} [BEq κ] {t : Table κ α} {key : κ} {v : α}
    (h : t.get? key = some v) : ∃ k, (k, v) ∈ t := by
  induction t with
  | nil => cases h
  | cons e t ih =>
    obtain ⟨k', v'⟩ := e
    simp only [Table.get?] at h
    split at h
    · cases h
      exact ⟨k', List.mem_cons_self⟩
    · obtain ⟨k, mem⟩ := ih h
      exact ⟨k, List.mem_cons_of_mem _ mem⟩

theorem except_bind_eq_ok {γ : Type} {x : Except ε β} {k : β → Except ε γ} {r : γ}
    (h : (x >>= k) = .ok r) : ∃ a, x = .ok a ∧ k a = .ok r := by
  cases x with
  | error e => cases h
  | ok a => exact ⟨a, rfl, h⟩

theorem except_bind_eq_error {γ : Type} {x : Except ε β} {k : β → Except ε γ} {e : ε}
    (h : x >>= k = .error e) : x = .error e ∨ ∃ a, x = .ok a ∧ k a = .error e := by
  cases x with
  | error e' => exact .inl (congrArg Except.error (Except.error.inj h))
  | ok a => exact .inr ⟨a, rfl, h⟩

/-- What comes of the elements of a list that is mapped without an error. -/
theorem forall₂_of_mapM_ok {α β ε : Type} {f : α → Except ε β} {xs : List α} {ys : List β}
    (h : xs.mapM f = .ok ys) : List.Forall₂ (fun x y => f x = .ok y) xs ys := by
  induction xs generalizing ys with
  | nil =>
    cases h
    exact .nil
  | cons x xs ih =>
    rw [List.mapM_cons] at h
    obtain ⟨y, first, h⟩ := except_bind_eq_ok h
    obtain ⟨rest, others, h⟩ := except_bind_eq_ok h
    cases h
    exact .cons first (ih others)

theorem mem_mapM_ok {f : α → Except ε β} {xs : List α} {ys : List β} (h : xs.mapM f = .ok ys) :
    ∀ x ∈ xs, ∃ y ∈ ys, f x = .ok y := by
  intro x mem
  obtain ⟨n, lt, rfl⟩ := List.getElem_of_mem mem
  have all := forall₂_of_mapM_ok h
  have lt' : n < ys.length := all.length_eq ▸ lt
  exact ⟨ys[n], List.getElem_mem lt', all.get lt lt'⟩

/-- The elements of a list that was mapped without an error come from the list. -/
theorem mem_of_mapM_ok {f : α → Except ε β} {xs : List α} {ys : List β} (h : xs.mapM f = .ok ys) :
    ∀ y ∈ ys, ∃ x ∈ xs, f x = .ok y := by
  intro y mem
  obtain ⟨n, lt, rfl⟩ := List.getElem_of_mem mem
  have all := forall₂_of_mapM_ok h
  have lt' : n < xs.length := all.length_eq ▸ lt
  exact ⟨xs[n], List.getElem_mem lt', all.get lt' lt⟩

namespace Catalog

variable {t : Option TypeRef} {c : Callable} {owner : String}

/-- The host method takes what a direct call passes, and gives a value. -/
structure Signature.Sound (s : Signature) : Prop where
  params : s.method.params.length = s.arity + (if s.kind = .onClass then 1 else 0)
  answers : s.method.pushesResult = true

/-- The values that a direct call of a signature takes. -/
def Signature.taken (s : Signature) : Nat := s.arity + (if s.kind = .static then 0 else 1)

theorem Signature.Sound.operandCount {s : Signature} (h : s.Sound) :
    s.method.operandCount s.opcode = s.taken := by
  rw [Machine.MethodRef.operandCount, h.params]
  unfold taken opcode
  cases s.kind with
  | onReceiver => by_cases interface : s.method.isInterface <;> simp [interface]
  | static => simp
  | onClass => simp

theorem Signature.isInvoke_opcode (s : Signature) : s.opcode.isInvoke = true := by
  unfold Signature.opcode
  split
  · split <;> rfl
  · rfl

namespace Registry

/-- A signature that a type declares or a callable stands for. -/
def Knows (r : Registry) (s : Signature) : Prop :=
  (∃ name t, r.declared? name t = some s) ∨ ∃ c ∈ r.callables, c.signature = s

variable {r r' : Registry} {s : Signature} {name : String}

theorem declared?_callable (r : Registry) (name : String) (i : Nat) :
    r.declared? name (.callable i) = none := by
  unfold declared? info?
  cases found : r.callables[i]? with
  | none => simp only [found, Option.map_none, Option.bind_none]
  | some c =>
    simp only [found, Option.map_some, Option.bind_some]
    split <;> rfl

theorem declared?_named (r : Registry) (name n : String) :
    r.declared? name (.named n) = (r.types.get? n).bind fun i => i.methods.get? name := rfl

/-- What a method found on a type is: one that some type declares. -/
theorem knows_of_method? (h : r.method? t name = some s) : r.Knows s := by
  obtain ⟨c, -, found⟩ := List.exists_of_findSome?_eq_some h
  exact .inl ⟨name, c, found⟩

theorem knows_of_lookup? (h : r.lookup? t name = some s) : r.Knows s := by
  unfold lookup? at h
  split at h
  · cases h
  · cases found : r.method? t name with
    | none => simp [found] at h
    | some s' =>
      simp only [found] at h
      split at h
      · cases h
      · cases h
        exact knows_of_method? found

theorem knows_of_callable? (h : r.callable? t = some c) : r.Knows c.signature := by
  unfold callable? at h
  split at h
  · exact .inr ⟨c, Array.mem_of_getElem? h, rfl⟩
  · cases h

/-- Describing a callable makes its signature known and no other one. -/
theorem knows_addCallable_or (h : (r.addCallable c).2.Knows s) : r.Knows s ∨ s = c.signature := by
  rcases h with ⟨name, t, found⟩ | ⟨c', mem, rfl⟩
  · cases t with
    | named n => exact .inl (.inl ⟨name, .named n, found⟩)
    | callable i => simp [declared?_callable] at found
  · rcases Array.mem_push.mp mem with old | rfl
    · exact .inl (.inr ⟨c', old, rfl⟩)
    · exact .inr rfl

theorem knows_addCallable (known : r.Knows c.signature) (h : (r.addCallable c).2.Knows s) :
    r.Knows s :=
  (knows_addCallable_or h).elim id fun same => same ▸ known

theorem need_eq_ok {x : Option α} {a : α} (h : need x = .ok a) : x = some a := by
  cases x with
  | none => cases h
  | some b =>
    cases h
    rfl

/-- A step that keeps the registered types and describes callables of known signatures only. It is
stopped by nothing but a method that is missing. -/
structure Familiar (x : Describing α) : Prop where
  known : ∀ {r a r'}, x r = .ok (a, r') → r'.types = r.types ∧ ∀ s, r'.Knows s → r.Knows s
  stops : ∀ {r d}, x r = .error d → d = .invalidAccess

/-- A step that leaves the registry as it is. -/
theorem Familiar.still {x : Describing α} (h : ∀ r, ∃ a, x r = .ok (a, r)) : Familiar x where
  known {r a r'} run := by
    obtain ⟨a', same⟩ := h r
    cases same.symm.trans run
    exact ⟨rfl, fun _ => id⟩
  stops {r d} run := by
    obtain ⟨a', same⟩ := h r
    cases same.symm.trans run

theorem Familiar.pure (a : α) : Familiar (Pure.pure a) := .still fun _ => ⟨a, rfl⟩

theorem Familiar.bind {x : Describing α} {k : α → Describing β} (h : Familiar x)
    (h' : ∀ a, Familiar (k a)) : Familiar (x >>= k) where
  known run := by
    obtain ⟨⟨a, r₁⟩, first, run⟩ := except_bind_eq_ok run
    obtain ⟨types, known⟩ := h.known first
    obtain ⟨types', known'⟩ := (h' a).known run
    exact ⟨types'.trans types, fun s mem => known s (known' s mem)⟩
  stops run := by
    rcases except_bind_eq_error run with first | ⟨⟨a, r₁⟩, -, run⟩
    · exact h.stops first
    · exact (h' a).stops run

theorem familiar_callable (t : Option TypeRef) (method : String) (bound : Bool) :
    Familiar (TypeSpec.callable t method bound) where
  known run := by
    obtain ⟨sig, found, run⟩ := except_bind_eq_ok run
    cases run
    exact ⟨rfl, fun s => knows_addCallable (knows_of_method? (need_eq_ok found))⟩
  stops {r d} run := by
    rcases except_bind_eq_error run with missing | ⟨sig, -, run⟩
    · cases found : r.method? t method <;> rw [found] at missing <;> cases missing
      rfl
    · cases run

/-- Resolving a type describes callables of known signatures only. -/
theorem familiar_resolve (spec : TypeSpec) : Familiar spec.resolve := by
  induction spec with
  | absent => exact .pure none
  | named n => exact .still fun r => ⟨_, rfl⟩
  | function spec method ih | bound spec method ih =>
    exact ih.bind fun t => (familiar_callable t method _).bind fun c => .pure (some c)

theorem familiar_resolveAll (specs : List TypeSpec) : Familiar (specs.mapM TypeSpec.resolve) := by
  induction specs with
  | nil => exact .pure []
  | cons spec specs ih =>
    rw [List.mapM_cons]
    exact (familiar_resolve spec).bind fun t => ih.bind fun ts => .pure (t :: ts)

/-- A change of a named type adds no signatures but those it adds to the type. -/
theorem knows_update {f : TypeInfo → TypeInfo} {P : Signature → Prop}
    (methods : ∀ t name s, (f t).methods.get? name = some s → t.methods.get? name = some s ∨ P s)
    (h : (r.update owner f).Knows s) : r.Knows s ∨ P s := by
  unfold update at h
  cases found : r.types.get? owner with
  | none => exact .inl (by simpa [found] using h)
  | some info =>
    simp only [found] at h
    rcases h with ⟨name, t, declared⟩ | ⟨c, mem, rfl⟩
    · cases t with
      | callable i => simp [declared?_callable] at declared
      | named n =>
        rw [declared?_named, Table.get?_set] at declared
        split at declared
        · rename_i same
          obtain rfl : owner = n := beq_iff_eq.mp same
          rcases methods info name s declared with old | new
          · refine .inl (.inl ⟨name, .named owner, ?_⟩)
            rw [declared?_named, found]
            exact old
          · exact .inr new
        · exact .inl (.inl ⟨name, .named n, declared⟩)
    · exact .inl (.inr ⟨c, mem, rfl⟩)

/-- A change of a named type that leaves its methods alone. -/
theorem knows_update_same {f : TypeInfo → TypeInfo} (h : (r.update owner f).Knows s)
    (methods : ∀ t, (f t).methods = t.methods) : r.Knows s := by
  have cases := knows_update (P := fun _ => False) (fun t name s hs => .inl (methods t ▸ hs)) h
  simpa using cases

end Registry

/-! ## Registries that are built up -/

/-- The registries made from the builtin types. The host method of a declared signature is derived,
and its return class is the class of a value. -/
inductive Cataloged : Registry → Prop where
  | builtin : Cataloged .builtin
  | register {r r' : Registry} {name host : String} (before : Cataloged r)
      (h : r.register? { name, host } = some r') : Cataloged r'
  | setBase {r : Registry} (name : String) (base : Option TypeRef) (before : Cataloged r) :
      Cataloged (r.setBase name base)
  | addField {r : Registry} (owner name : String) (type : TypeRef) (before : Cataloged r) :
      Cataloged (r.addField owner name type)
  | addMethod {r r' : Registry} {owner : String} {s : Signature} (before : Cataloged r)
      (derived : s.method.name = "") (value : r.hostClassOf s.returns ∉ ["", "void"])
      (h : r.addMethod owner s = .ok r') : Cataloged r'
  | addCallable {r : Registry} {c : Callable} (before : Cataloged r)
      (known : r.Knows c.signature) : Cataloged (r.addCallable c).2

theorem sound_of_deriveMethod {r : Registry} {s : Signature} {m : Machine.MethodRef}
    (value : r.hostClassOf s.returns ∉ ["", "void"]) (h : r.deriveMethod owner s = .ok m) :
    Signature.Sound { s with method := m } := by
  unfold Registry.deriveMethod at h
  cases hp : (List.range s.arity).mapM (r.hostParam s) with
  | error d => simp [hp, bind, Except.bind] at h
  | ok params =>
    simp only [hp, bind, Except.bind, pure, Except.pure, Except.ok.injEq] at h
    subst h
    have length := (forall₂_of_mapM_ok hp).length_eq.symm
    rw [List.length_range] at length
    constructor
    · by_cases cls : s.kind = .onClass <;> simp [cls, length, Signature.arity]
    · simp only [List.mem_cons, List.not_mem_nil, or_false, not_or] at value
      simp [Machine.MethodRef.pushesResult, value]

/-- A signature that the builtin registry knows is one of a builtin type's. -/
theorem exists_of_builtin {s : Signature} (h : Registry.Knows .builtin s) :
    ∃ t ∈ builtinTypes, ∃ m ∈ t.2.methods, m.2 = s := by
  rcases h with ⟨name, t, found⟩ | ⟨c, mem, -⟩
  · cases t with
    | callable i => simp [Registry.declared?_callable] at found
    | named n =>
      obtain ⟨info, hi, hm⟩ := Option.bind_eq_some_iff.mp found
      obtain ⟨_, memType⟩ := Table.mem_of_get? hi
      obtain ⟨_, memMethod⟩ := Table.mem_of_get? hm
      exact ⟨_, memType, _, memMethod, rfl⟩
  · simp [Registry.builtin] at mem

theorem sound_builtin {s : Signature} (h : Registry.Knows .builtin s) : s.Sound := by
  have all : ∀ t ∈ builtinTypes, ∀ m ∈ t.2.methods,
      m.2.method.params.length = m.2.arity + (if m.2.kind = .onClass then 1 else 0) ∧
        m.2.method.pushesResult = true := by
    decide +kernel
  obtain ⟨t, memType, m, memMethod, rfl⟩ := exists_of_builtin h
  obtain ⟨params, answers⟩ := all t memType m memMethod
  exact ⟨params, answers⟩

/-- All signatures of a registry that was built up are sound. -/
theorem Cataloged.sound {r : Registry} (h : Cataloged r) {s : Signature} (known : r.Knows s) :
    s.Sound := by
  induction h generalizing s with
  | builtin => exact sound_builtin known
  | @register r r' name host before h ih =>
    unfold Registry.register? at h
    split at h
    · cases h
    · cases h
      rcases known with ⟨m, t, found⟩ | ⟨c, mem, rfl⟩
      · cases t with
        | callable i => simp [Registry.declared?_callable] at found
        | named n =>
          rw [Registry.declared?_named, Table.get?_set] at found
          split at found
          · -- a type that was just registered has no methods
            simp [Table.get?] at found
          · exact ih (.inl ⟨m, .named n, found⟩)
      · exact ih (.inr ⟨c, mem, rfl⟩)
  | setBase name base _ ih => exact ih (Registry.knows_update_same known fun _ => rfl)
  | addField owner name type _ ih => exact ih (Registry.knows_update_same known fun _ => rfl)
  | @addMethod r r' owner s' before derived value h ih =>
    unfold Registry.addMethod at h
    simp only [derived, if_true] at h
    cases hm : r.deriveMethod (r.hostClass (.named owner)) { s' with owner := some (.named owner) } with
    | error d => simp [hm, bind, Except.bind] at h
    | ok m =>
      simp only [hm, bind, Except.bind, pure, Except.pure, Except.ok.injEq] at h
      subst h
      have sound := sound_of_deriveMethod (s := { s' with owner := some (.named owner) }) value hm
      refine (Registry.knows_update (P := Signature.Sound) ?_ known).elim ih id
      intro t name s hs
      rw [Table.get?_set] at hs
      split at hs
      · cases hs
        exact .inr sound
      · exact .inl hs
  | addCallable _ known' ih => exact ih (Registry.knows_addCallable known' known)

end Catalog

end HostLowering
