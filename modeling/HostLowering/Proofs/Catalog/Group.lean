import HostLowering.Catalog.File
import HostLowering.Proofs.Catalog.Sound

set_option autoImplicit false

/-! # Types declared together

The types of a file are described in a copy of the registry that already holds all their names, one
declaration after the other. What a declaration comes to depends on the names and host classes of that
copy and on nothing else (`FileType.describe`), so filling in the copy is the same as describing each
type by itself and adding the descriptions (`withDescribed_eq`). Registering them one by one then
cannot be refused: `load_types_eq` says that loading gives the described copy, or an error and the
registry as it was.
-/

namespace HostLowering

namespace Table

variable {κ α : Type} [BEq κ] [LawfulBEq κ]

theorem get?_append (t t' : Table κ α) (key : κ) :
    Table.get? (t ++ t') key = (t.get? key).or (t'.get? key) := by
  induction t with
  | nil => rfl
  | cons e t ih =>
    obtain ⟨k, v⟩ := e
    show (if k == key then some v else Table.get? (t ++ t') key) = _
    rw [ih]
    by_cases here : k = key <;> simp [Table.get?, here]

theorem set_append (t t' : Table κ α) {key : κ} (v : α) (fresh : t.get? key = none) :
    Table.set (t ++ t') key v = t ++ Table.set t' key v := by
  induction t with
  | nil => rfl
  | cons e t ih =>
    obtain ⟨k, u⟩ := e
    by_cases here : k = key
    · simp [Table.get?, here] at fresh
    · simp only [Table.get?, beq_iff_eq, here, if_false] at fresh
      simp [Table.set, here, ih fresh]

/-- The entry of a key that does not occur further in front is replaced in place. -/
theorem set_append_cons (t t' : Table κ α) {key : κ} (v v' : α) (fresh : t.get? key = none) :
    Table.set (t ++ (key, v) :: t') key v' = t ++ (key, v') :: t' := by
  simp [set_append t _ v' fresh, Table.set]

/-- A new key goes to the end. -/
theorem set_of_fresh (t : Table κ α) {key : κ} (v : α) (fresh : t.get? key = none) :
    t.set key v = t ++ [(key, v)] := by
  simpa [Table.set] using set_append t [] v fresh

end Table

theorem mapM_ok_of_forall₂ {α β ε : Type} {f : α → Except ε β} {xs : List α} {ys : List β}
    (h : List.Forall₂ (fun x y => f x = .ok y) xs ys) : xs.mapM f = .ok ys := by
  induction h with
  | nil => rfl
  | cons first _ ih =>
    rw [List.mapM_cons, first, ih]
    rfl

namespace Catalog

open Machine

variable {ts : List FileType}

namespace Registry

variable {r r' : Registry}

/-- The registry with described types behind the ones it has. -/
def adding (r : Registry) (is : List TypeInfo) : Registry :=
  { r with types := r.types ++ is.map fun i => (i.name, i) }

theorem adding_nil (r : Registry) : r.adding [] = r := by simp [adding]

theorem adding_cons (r : Registry) (i : TypeInfo) (is : List TypeInfo) :
    r.adding (i :: is) = (r.adding [i]).adding is := by simp [adding]

theorem get?_entries (is : List TypeInfo) (n : String) :
    Table.get? (is.map fun i => (i.name, i)) n = is.find? fun i => i.name == n := by
  induction is with
  | nil => rfl
  | cons i is ih =>
    simp only [List.map_cons, Table.get?, ih, List.find?_cons]
    cases i.name == n <;> rfl

theorem get?_adding (r : Registry) (is : List TypeInfo) (n : String) :
    (r.adding is).types.get? n = (r.types.get? n).or (is.find? fun i => i.name == n) := by
  rw [adding, Table.get?_append, get?_entries]

def Lacks (r : Registry) (names : List String) : Prop := ∀ n ∈ names, r.types.get? n = none

theorem Lacks.adding {i : TypeInfo} {names : List String} (fresh : r.Lacks names)
    (other : i.name ∉ names) : (r.adding [i]).Lacks names := by
  intro n mem
  rw [get?_adding, fresh n mem]
  have differs : i.name ≠ n := fun same => other (same ▸ mem)
  simp [differs]

/-! ## What a declaration depends on -/

/-- The same names stand for the same host classes in two registries. -/
structure SameHosts (r r' : Registry) : Prop where
  hosts (n : String) : (r.types.get? n).map TypeInfo.host = (r'.types.get? n).map TypeInfo.host
  callables : r.callables = r'.callables

namespace SameHosts

theorem trans {r'' : Registry} (h : SameHosts r r') (h' : SameHosts r' r'') : SameHosts r r'' :=
  ⟨fun n => (h.hosts n).trans (h'.hosts n), h.callables.trans h'.callables⟩

theorem has (h : SameHosts r r') (n : String) : r.types.has n = r'.types.has n := by
  have isSome : ∀ t : Table String TypeInfo, t.has n = ((t.get? n).map TypeInfo.host).isSome := by
    intro t
    simp [Table.has]
  rw [isSome, isSome, h.hosts]

theorem hostClass (h : SameHosts r r') : r.hostClass = r'.hostClass := by
  funext t
  cases t with
  | named n =>
    show ((r.types.get? n).map TypeInfo.host).getD "" = ((r'.types.get? n).map TypeInfo.host).getD ""
    rw [h.hosts]
  | callable i => simp only [Registry.hostClass, info?, h.callables]

theorem hostClassOf (h : SameHosts r r') : r.hostClassOf = r'.hostClassOf := by
  funext t
  cases t with
  | none => rfl
  | some t => exact congrFun h.hostClass t

theorem resolveOr (h : SameHosts r r') : Catalog.resolveOr r = Catalog.resolveOr r' := by
  funext name e
  simp only [Catalog.resolveOr, resolveName, h.has]

theorem param (h : SameHosts r r') : FileParam.resolve r = FileParam.resolve r' := by
  funext type method p
  simp only [FileParam.resolve, h.resolveOr, h.hostClass]

theorem method (h : SameHosts r r') : FileMethod.resolve r = FileMethod.resolve r' := by
  funext type m
  simp only [FileMethod.resolve, h.resolveOr, h.param]

theorem deriveMethod (h : SameHosts r r') : r.deriveMethod = r'.deriveMethod := by
  funext owner s
  have params : r.hostParam s = r'.hostParam s := by
    funext i
    simp only [hostParam, h.hostClassOf]
  simp only [Registry.deriveMethod, params, h.hostClassOf]

/-- A description with the same name and host class makes no difference. -/
theorem adding_cons {i j : TypeInfo} (is : List TypeInfo) (name : i.name = j.name)
    (host : i.host = j.host) : SameHosts (r.adding (i :: is)) (r.adding (j :: is)) := by
  constructor
  · intro n
    simp only [get?_adding, List.find?_cons, name]
    cases r.types.get? n with
    | some t => rfl
    | none => cases j.name == n <;> simp [host]
  · rfl

end SameHosts

end Registry

/-! ## What a declaration comes to -/

/-- The signature of a method whose parts have been resolved. -/
def FileMethod.signature (m : FileMethod) (kind : CallKind) (returns : TypeRef)
    (params : List Param) : Signature :=
  let s : Signature :=
    { name := m.name, kind, params, returns := some returns, mayNotImplement := m.mayNotImplement }
  let s := if m.varArgs then s.withVarArgs else s
  if m.varKwargs then s.withVarKwargs else s

theorem FileMethod.resolve_eq (m : FileMethod) (names : Registry) (type : String) :
    m.resolve names type = (match CallKind.ofName? m.kind with
      | none => .error (.unknownCallKind type m.name m.kind)
      | some kind => do
        let returns ← resolveOr names m.returns (.unknownReturnType type m.name m.returns)
        let params ← m.params.mapM (FileParam.resolve names type m.name)
        return m.signature kind returns params) := by
  unfold FileMethod.resolve
  cases CallKind.ofName? m.kind <;> rfl

theorem FileMethod.resolve_method {m : FileMethod} {names : Registry} {type : String} {s : Signature}
    (h : m.resolve names type = .ok s) : s.method.name = "" := by
  rw [resolve_eq] at h
  cases kind : CallKind.ofName? m.kind with
  | none =>
    rw [kind] at h
    cases h
  | some kind =>
    simp only [kind] at h
    obtain ⟨returns, -, h⟩ := except_bind_eq_ok h
    obtain ⟨params, -, h⟩ := except_bind_eq_ok h
    cases h
    unfold FileMethod.signature
    dsimp only
    split <;> split <;> rfl

def TypeInfo.withField (i : TypeInfo) (f : Field) : TypeInfo :=
  { i with fields := i.fields.set f.name f }

def TypeInfo.withMethod (i : TypeInfo) (s : Signature) : TypeInfo :=
  { i with methods := i.methods.set s.name s }

/-- What a declared field comes to where the names of a registry are known. -/
def FileField.describe (names : Registry) (t : FileType) (f : FileField) : Except LoadError Field := do
  let type ← resolveOr names f.type (.unknownFieldType t.name f.name f.type)
  return ⟨f.name, type, ⟨t.host, f.name, names.hostClass type⟩⟩

/-- What a declared method comes to, with its host method. -/
def FileMethod.describe (names : Registry) (t : FileType) (m : FileMethod) :
    Except LoadError Signature := do
  let s ← m.resolve names t.name
  match names.deriveMethod t.host { s with owner := some (.named t.name) } with
  | .ok method => return { s with owner := some (.named t.name), method }
  | .error _ => throw .unreadable

/-- What a declared type comes to. -/
def FileType.describe (names : Registry) (t : FileType) : Except LoadError TypeInfo := do
  let base ← resolveOr names t.base (.unknownBase t.name t.base)
  let fields ← t.fields.mapM (FileField.describe names t)
  let methods ← t.methods.mapM (FileMethod.describe names t)
  let i : TypeInfo := { name := t.name, host := t.host, base := some base }
  return methods.foldl TypeInfo.withMethod (fields.foldl TypeInfo.withField i)

/-- Adding fields and methods changes nothing else of a type. -/
theorem TypeInfo.foldl_withField (fs : List Field) (i : TypeInfo) :
    (fs.foldl withField i).name = i.name ∧ (fs.foldl withField i).host = i.host ∧
      (fs.foldl withField i).base = i.base ∧ (fs.foldl withField i).methods = i.methods := by
  induction fs generalizing i with
  | nil => exact ⟨rfl, rfl, rfl, rfl⟩
  | cons f fs ih => exact ih (i.withField f)

theorem TypeInfo.foldl_withMethod (ss : List Signature) (i : TypeInfo) :
    (ss.foldl withMethod i).name = i.name ∧ (ss.foldl withMethod i).host = i.host ∧
      (ss.foldl withMethod i).base = i.base ∧ (ss.foldl withMethod i).fields = i.fields := by
  induction ss generalizing i with
  | nil => exact ⟨rfl, rfl, rfl, rfl⟩
  | cons s ss ih => exact ih (i.withMethod s)

/-- A type before its declaration is filled in. -/
def FileType.blank (t : FileType) : TypeInfo := { name := t.name, host := t.host }

namespace Registry

theorem SameHosts.describe {r r' : Registry} (h : SameHosts r r') :
    FileType.describe r = FileType.describe r' := by
  funext t
  have fields : FileField.describe r t = FileField.describe r' t := by
    funext f
    simp only [FileField.describe, h.resolveOr, h.hostClass]
  have methods : FileMethod.describe r t = FileMethod.describe r' t := by
    funext m
    simp only [FileMethod.describe, h.method, h.deriveMethod]
  simp only [FileType.describe, h.resolveOr, fields, methods]

end Registry

theorem FileType.describe_name {names : Registry} {t : FileType} {i : TypeInfo}
    (h : t.describe names = .ok i) : i.name = t.name ∧ i.host = t.host := by
  obtain ⟨base, -, h⟩ := except_bind_eq_ok h
  obtain ⟨fields, -, h⟩ := except_bind_eq_ok h
  obtain ⟨methods, -, h⟩ := except_bind_eq_ok h
  cases h
  obtain ⟨name, host, -, -⟩ := TypeInfo.foldl_withField fields
    { name := t.name, host := t.host, base := some base }
  obtain ⟨name', host', -, -⟩ := TypeInfo.foldl_withMethod methods
    (fields.foldl TypeInfo.withField { name := t.name, host := t.host, base := some base })
  exact ⟨name'.trans name, host'.trans host⟩

/-! ## Filling in one declaration -/

namespace Registry

variable {r names : Registry} {t : FileType} {i : TypeInfo} {is : List TypeInfo}

/-- A change of a type that is registered once. -/
theorem update_adding {f : TypeInfo → TypeInfo} (fresh : r.types.get? i.name = none)
    (same : (f i).name = i.name) : (r.adding (i :: is)).update i.name f = r.adding (f i :: is) := by
  have found : (r.adding (i :: is)).types.get? i.name = some i := by
    simp [get?_adding, fresh]
  rw [update, found]
  simp only [adding, List.map_cons, same]
  rw [Table.set_append_cons r.types _ i (f i) fresh]

/-- The fields of a declaration, added to a type that is being filled in. -/
theorem foldlM_fields (known : ∀ i' : TypeInfo, i'.name = t.name → i'.host = t.host →
      SameHosts (r.adding (i' :: is)) names)
    (fresh : r.types.get? t.name = none) (fields : List FileField) (name : i.name = t.name)
    (host : i.host = t.host) :
    fields.foldlM (fun r f => do
        let type ← resolveOr r f.type (.unknownFieldType t.name f.name f.type)
        return r.addField t.name f.name type) (r.adding (i :: is)) =
      (fields.mapM (FileField.describe names t)).map fun fs =>
        r.adding (fs.foldl TypeInfo.withField i :: is) := by
  induction fields generalizing i with
  | nil => rfl
  | cons f fields ih =>
    have hosts := known i name host
    rw [List.foldlM_cons, List.mapM_cons, FileField.describe, hosts.resolveOr]
    cases resolved : resolveOr names f.type (.unknownFieldType t.name f.name f.type) with
    | error e => rfl
    | ok type =>
      have added : (r.adding (i :: is)).addField t.name f.name type =
          r.adding (i.withField ⟨f.name, type, ⟨t.host, f.name, names.hostClass type⟩⟩ :: is) := by
        rw [addField, ← name, update_adding (name ▸ fresh) rfl, ← host, hosts.hostClass]
        rfl
      show List.foldlM _ ((r.adding (i :: is)).addField t.name f.name type) fields = _
      rw [added, ih (i := i.withField _) name host]
      cases fields.mapM (FileField.describe names t) with
      | error e => rfl
      | ok fs => rfl

/-- A declared method, added to a type that is being filled in. -/
theorem addMethod_adding (hosts : SameHosts (r.adding (i :: is)) names)
    (fresh : r.types.get? t.name = none) (name : i.name = t.name) (host : i.host = t.host)
    {s : Signature} (derived : s.method.name = "") :
    (r.adding (i :: is)).addMethod t.name s =
      (names.deriveMethod t.host { s with owner := some (.named t.name) }).map fun method =>
        r.adding (i.withMethod { s with owner := some (.named t.name), method } :: is) := by
  have owner : (r.adding (i :: is)).hostClass (.named t.name) = t.host := by
    show (((r.adding (i :: is)).types.get? t.name).map TypeInfo.host).getD "" = t.host
    simp [get?_adding, fresh, name, host]
  simp only [addMethod, derived, if_true, owner, hosts.deriveMethod]
  cases names.deriveMethod t.host { s with owner := some (.named t.name) } with
  | error d => rfl
  | ok method =>
    show Except.ok ((r.adding (i :: is)).update t.name _) = .ok _
    rw [← name, update_adding (name ▸ fresh) rfl]
    rfl

/-- One method of a declaration, added to a type that is being filled in. -/
theorem resolve_addMethod (hosts : SameHosts (r.adding (i :: is)) names)
    (fresh : r.types.get? t.name = none) (name : i.name = t.name) (host : i.host = t.host)
    (m : FileMethod) :
    (do
      let s ← m.resolve (r.adding (i :: is)) t.name
      match (r.adding (i :: is)).addMethod t.name s with
      | .ok r => .ok r
      | .error _ => .error .unreadable) =
      (m.describe names t).map fun s => r.adding (i.withMethod s :: is) := by
  rw [FileMethod.describe, hosts.method]
  cases resolved : m.resolve names t.name with
  | error e => rfl
  | ok s =>
    simp only [bind, Except.bind, addMethod_adding hosts fresh name host (m.resolve_method resolved)]
    cases names.deriveMethod t.host { s with owner := some (.named t.name) } with
    | error d => rfl
    | ok method => rfl

/-- The methods of a declaration, added to a type that is being filled in. -/
theorem foldlM_methods (known : ∀ i' : TypeInfo, i'.name = t.name → i'.host = t.host →
      SameHosts (r.adding (i' :: is)) names)
    (fresh : r.types.get? t.name = none) (methods : List FileMethod) (name : i.name = t.name)
    (host : i.host = t.host) :
    methods.foldlM (fun r m => do
        let s ← m.resolve r t.name
        match r.addMethod t.name s with
        | .ok r => .ok r
        | .error _ => .error .unreadable) (r.adding (i :: is)) =
      (methods.mapM (FileMethod.describe names t)).map fun ss =>
        r.adding (ss.foldl TypeInfo.withMethod i :: is) := by
  induction methods generalizing i with
  | nil => rfl
  | cons m methods ih =>
    rw [List.foldlM_cons, List.mapM_cons, resolve_addMethod (known i name host) fresh name host]
    cases m.describe names t with
    | error e => rfl
    | ok s =>
      refine (ih (i := i.withMethod s) name host).trans ?_
      cases methods.mapM (FileMethod.describe names t) with
      | error e => rfl
      | ok ss => rfl

/-- A declaration is filled in with what it comes to by itself. -/
theorem define_adding (known : SameHosts (r.adding (t.blank :: is)) names)
    (fresh : r.types.get? t.name = none) :
    FileType.define (r.adding (t.blank :: is)) t =
      (t.describe names).map fun i => r.adding (i :: is) := by
  have hosts : ∀ i : TypeInfo, i.name = t.name → i.host = t.host →
      SameHosts (r.adding (i :: is)) names := by
    intro i name host
    exact .trans (.adding_cons is name host) known
  rw [FileType.define, FileType.describe, known.resolveOr]
  cases resolved : resolveOr names t.base (.unknownBase t.name t.base) with
  | error e => rfl
  | ok base =>
    let i : TypeInfo := { name := t.name, host := t.host, base := some base }
    have based : (r.adding (t.blank :: is)).setBase t.name (some base) = r.adding (i :: is) :=
      update_adding (i := t.blank) fresh rfl
    show (List.foldlM (m := Except LoadError) _
      ((r.adding (t.blank :: is)).setBase t.name (some base)) t.fields >>= _) = _
    rw [based, foldlM_fields hosts fresh t.fields (i := i) rfl rfl]
    show _ = Except.map _ (t.fields.mapM (FileField.describe names t) >>= _)
    cases t.fields.mapM (FileField.describe names t) with
    | error e => rfl
    | ok fields =>
      obtain ⟨name, host, -, -⟩ := TypeInfo.foldl_withField fields i
      refine (foldlM_methods hosts fresh t.methods name host).trans ?_
      show _ = Except.map _ (t.methods.mapM (FileMethod.describe names t) >>= _)
      cases t.methods.mapM (FileMethod.describe names t) with
      | error e => rfl
      | ok methods => rfl

/-! ## Filling in a group -/

/-- The registry with the names of a group, nothing else being known of its types yet. -/
def withNames (r : Registry) (ts : List FileType) : Registry := r.adding (ts.map FileType.blank)

/-- A group can be named: each type has a name and a host class, and no name is taken. -/
structure Nameable (r : Registry) (ts : List FileType) : Prop where
  complete : ∀ t ∈ ts, t.name ≠ "" ∧ t.host ≠ ""
  fresh : r.Lacks (ts.map FileType.name)
  distinct : (ts.map FileType.name).Nodup

theorem foldlM_define (fresh : r.Lacks (ts.map FileType.name))
    (distinct : (ts.map FileType.name).Nodup) (known : SameHosts (r.withNames ts) names) :
    ts.foldlM FileType.define (r.withNames ts) =
      (ts.mapM (FileType.describe names)).map r.adding := by
  -- the types filled in so far join the registry, and the blank ones behind them get fewer
  induction ts generalizing r with
  | nil => simp [withNames, adding_nil, Except.map, pure, Except.pure]
  | cons t ts ih =>
    rw [List.map_cons, List.nodup_cons] at distinct
    have here : r.types.get? t.name = none := fresh t.name (by simp)
    rw [List.foldlM_cons, List.mapM_cons, withNames, List.map_cons, define_adding known here]
    cases described : t.describe names with
    | error e => rfl
    | ok i =>
      obtain ⟨name, host⟩ := FileType.describe_name described
      have later : (r.adding [i]).Lacks (ts.map FileType.name) :=
        Lacks.adding (fun n mem => fresh n (List.mem_cons_of_mem _ mem)) (name ▸ distinct.1)
      have rest : SameHosts ((r.adding [i]).withNames ts) names := by
        rw [withNames, ← adding_cons]
        exact .trans (.adding_cons _ name host) known
      show ts.foldlM FileType.define (r.adding (i :: ts.map FileType.blank)) = _
      rw [adding_cons]
      refine (ih later distinct.2 rest).trans ?_
      cases ts.mapM (FileType.describe names) with
      | error e => rfl
      | ok is => exact congrArg Except.ok (adding_cons r i is).symm

theorem get?_withNames (r : Registry) (ts : List FileType) (n : String) :
    (r.withNames ts).types.get? n =
      (r.types.get? n).or ((ts.find? fun t => t.name == n).map FileType.blank) := by
  rw [withNames, get?_adding, List.find?_map]
  rfl

/-- One name added behind others. -/
theorem register?_blank {done : List FileType} (fresh : r.types.get? t.name = none) :
    (r.withNames done).register? t.blank =
      if t.name ∈ done.map FileType.name then none else some (r.withNames (done ++ [t])) := by
  have lookup : (r.withNames done).types.get? t.name =
      (done.find? fun u => u.name == t.name).map FileType.blank := by
    simp [get?_withNames, fresh]
  by_cases taken : t.name ∈ done.map FileType.name
  · obtain ⟨u, mem, same⟩ := List.mem_map.mp taken
    have found : (done.find? fun u => u.name == t.name).isSome := by
      rw [List.find?_isSome]
      exact ⟨u, mem, by simp [same]⟩
    have has : (r.withNames done).types.has t.blank.name = true := by
      show ((r.withNames done).types.get? t.name).isSome = true
      rw [lookup, Option.isSome_map]
      exact found
    simp [register?, has, taken]
  · have missing : (r.withNames done).types.get? t.blank.name = none := by
      refine lookup.trans ?_
      rw [Option.map_eq_none_iff, List.find?_eq_none]
      intro u mem same
      exact taken (List.mem_map.mpr ⟨u, mem, by simpa using same⟩)
    simp only [register?, Table.has, missing, taken, if_false, Option.isSome_none, Bool.false_eq_true]
    rw [Table.set_of_fresh _ _ missing]
    simp [withNames, adding, List.append_assoc]

/-- The names of a group are added when the group can be named, and all of them. -/
theorem addNames_eq_ok_iff {done : List FileType} :
    addNames r (r.withNames done) ts = .ok names ↔
      r.Nameable ts ∧ (∀ t ∈ ts, t.name ∉ done.map FileType.name) ∧ names = r.withNames (done ++ ts) := by
  induction ts generalizing done with
  | nil =>
    constructor
    · intro h
      cases h
      exact ⟨⟨by simp, by simp [Lacks], by simp⟩, by simp, by simp⟩
    · rintro ⟨-, -, rfl⟩
      simp [addNames]
  | cons t ts ih =>
    rw [addNames]
    by_cases incomplete : t.name = "" ∨ t.host = ""
    · rw [if_pos incomplete]
      constructor
      · intro h
        cases h
      · rintro ⟨nameable, -, -⟩
        have complete := nameable.complete t (by simp)
        exact absurd incomplete (by simp [complete])
    rw [if_neg incomplete]
    by_cases registered : r.types.has t.name = true
    · rw [if_pos registered]
      constructor
      · intro h
        cases h
      · rintro ⟨nameable, -, -⟩
        have fresh := nameable.fresh t.name (by simp)
        simp [Table.has, fresh] at registered
    have fresh : r.types.get? t.name = none := by simpa [Table.has] using registered
    rw [if_neg registered]
    rw [show (r.withNames done).register? { name := t.name, host := t.host } = _ from
      register?_blank fresh]
    by_cases taken : t.name ∈ done.map FileType.name
    · rw [if_pos taken]
      constructor
      · intro h
        cases h
      · rintro ⟨-, others, -⟩
        exact absurd taken (others t (by simp))
    rw [if_neg taken]
    dsimp only
    rw [ih]
    constructor
    · rintro ⟨nameable, others, rfl⟩
      have apart : ∀ u ∈ ts, u.name ≠ t.name ∧ u.name ∉ done.map FileType.name := by
        intro u mem
        have out := others u mem
        rw [List.map_append, List.mem_append] at out
        exact ⟨fun same => out (.inr (by simp [same])), fun old => out (.inl old)⟩
      refine ⟨⟨?_, ?_, ?_⟩, ?_, by simp⟩
      · intro u mem
        rcases List.mem_cons.mp mem with rfl | mem
        · exact not_or.mp incomplete
        · exact nameable.complete u mem
      · intro n mem
        rcases List.mem_cons.mp mem with rfl | mem
        · exact fresh
        · exact nameable.fresh n mem
      · rw [List.map_cons, List.nodup_cons]
        refine ⟨?_, nameable.distinct⟩
        intro mem
        obtain ⟨u, mem, same⟩ := List.mem_map.mp mem
        exact (apart u mem).1 same
      · intro u mem
        rcases List.mem_cons.mp mem with rfl | mem
        · exact taken
        · exact (apart u mem).2
    · rintro ⟨nameable, others, rfl⟩
      have distinct := nameable.distinct
      rw [List.map_cons, List.nodup_cons] at distinct
      refine ⟨⟨?_, ?_, distinct.2⟩, ?_, by simp⟩
      · exact fun u mem => nameable.complete u (List.mem_cons_of_mem _ mem)
      · exact fun n mem => nameable.fresh n (List.mem_cons_of_mem _ mem)
      · intro u mem
        rw [List.map_append, List.mem_append, not_or]
        refine ⟨others u (List.mem_cons_of_mem _ mem), ?_⟩
        simp only [List.map_cons, List.map_nil, List.mem_singleton]
        intro same
        exact distinct.1 (same ▸ List.mem_map_of_mem mem)

theorem names_of_describe (all : ts.mapM (FileType.describe names) = .ok is) :
    is.map TypeInfo.name = ts.map FileType.name := by
  have each := forall₂_of_mapM_ok all
  clear all
  induction each with
  | nil => rfl
  | cons described _ ih => rw [List.map_cons, List.map_cons, ih, (FileType.describe_name described).1]

/-- A type that was added is found under its name. -/
theorem get?_adding_of_mem (fresh : r.Lacks (is.map TypeInfo.name))
    (distinct : (is.map TypeInfo.name).Nodup) (mem : i ∈ is) :
    (r.adding is).types.get? i.name = some i := by
  have first : is.find? (fun j => j.name == i.name) = some i := by
    have present : (is.find? fun j => j.name == i.name).isSome := by
      rw [List.find?_isSome]
      exact ⟨i, mem, by simp⟩
    obtain ⟨j, found⟩ := Option.isSome_iff_exists.mp present
    have same : j.name = i.name := by simpa using List.find?_some found
    rw [found, List.inj_on_of_nodup_map distinct (List.mem_of_find?_eq_some found) mem same]
  rw [get?_adding, fresh _ (List.mem_map_of_mem mem), first]
  rfl

/-- What it takes to describe the types of a file, and what comes of it. -/
theorem withDescribed_eq_ok_iff {r' : Registry} :
    r.withDescribed ts = .ok r' ↔ r.Nameable ts ∧
      ∃ is, ts.mapM (FileType.describe (r.withNames ts)) = .ok is ∧ r' = r.adding is ∧
        ∀ t ∈ ts, r'.isCyclic (.named t.name) = false := by
  have named : ∀ {names}, addNames r r ts = .ok names ↔ r.Nameable ts ∧ names = r.withNames ts := by
    intro names
    have all : addNames r (r.withNames []) ts = .ok names ↔ _ := addNames_eq_ok_iff
    rw [show r.withNames [] = r from adding_nil r] at all
    simpa using all
  have filled (nameable : r.Nameable ts) : ts.foldlM FileType.define (r.withNames ts) =
      (ts.mapM (FileType.describe (r.withNames ts))).map r.adding :=
    foldlM_define nameable.fresh nameable.distinct ⟨fun _ => rfl, rfl⟩
  unfold withDescribed
  constructor
  · intro h
    obtain ⟨names, first, h⟩ := except_bind_eq_ok h
    obtain ⟨nameable, rfl⟩ := named.mp first
    obtain ⟨described, second, h⟩ := except_bind_eq_ok h
    rw [filled nameable] at second
    cases all : ts.mapM (FileType.describe (r.withNames ts)) with
    | error e =>
      rw [all] at second
      cases second
    | ok is =>
      rw [all] at second
      cases second
      cases cyclic : ts.find? fun t => (r.adding is).isCyclic (.named t.name) with
      | some t =>
        rw [cyclic] at h
        cases h
      | none =>
        rw [cyclic] at h
        cases h
        rw [List.find?_eq_none] at cyclic
        exact ⟨nameable, is, rfl, rfl, fun t mem => by simpa using cyclic t mem⟩
  · rintro ⟨nameable, is, all, rfl, acyclic⟩
    have free : (ts.find? fun t => (r.adding is).isCyclic (.named t.name)) = none := by
      rw [List.find?_eq_none]
      intro t mem
      simp [acyclic t mem]
    rw [named.mpr ⟨nameable, rfl⟩]
    show (ts.foldlM FileType.define (r.withNames ts) >>= _) = _
    rw [filled nameable, all]
    simp only [Except.map, bind, Except.bind, free]

end Registry

/-! ## Registering a group -/

theorem Loading.registerEach_cons (r : Registry) (i : TypeInfo) (is : List TypeInfo) :
    (registerEach (i :: is)).run.run r = (match r.register? i with
      | some r' => set r' >>= fun _ => registerEach is
      | none => throw (.refused i.name) : Loading Unit).run.run r := rfl

theorem Loading.registerEach_eq {r : Registry} {is : List TypeInfo}
    (fresh : r.Lacks (is.map TypeInfo.name)) (distinct : (is.map TypeInfo.name).Nodup) :
    (Loading.registerEach is).run.run r = (.ok (), r.adding is) := by
  induction is generalizing r with
  | nil =>
    rw [r.adding_nil]
    rfl
  | cons i is ih =>
    rw [List.map_cons, List.nodup_cons] at distinct
    have here : r.types.get? i.name = none := fresh i.name (by simp)
    have registered : r.register? i = some (r.adding [i]) := by
      simp [Registry.register?, Table.has, here, Registry.adding, Table.set_of_fresh _ _ here]
    have later : (r.adding [i]).Lacks (is.map TypeInfo.name) :=
      .adding (fun n mem => fresh n (List.mem_cons_of_mem _ mem)) distinct.1
    rw [r.adding_cons, ← ih later distinct.2]
    rw [registerEach_cons, registered]
    rfl

/-- Loading types gives the registry with the types described in it, or an error and the registry as it
was: no type that was described is refused. -/
theorem Loading.types_eq (r : Registry) (ts : List FileType) :
    (Loading.types ts).run.run r = (match r.withDescribed ts with
      | .ok r' => (.ok (), r')
      | .error e => (.error e, r)) := by
  unfold Loading.types
  cases described : r.withDescribed ts with
  | error e =>
    show (MonadExcept.ofExcept (r.withDescribed ts) >>= _ : Loading Unit).run.run r = _
    rw [described]
    rfl
  | ok r' =>
    obtain ⟨nameable, is, all, rfl, -⟩ := Registry.withDescribed_eq_ok_iff.mp described
    have names := Registry.names_of_describe all
    have found : (ts.filterMap fun t => (r.adding is).types.get? t.name) = is := by
      have each : ts.map (fun t => (r.adding is).types.get? t.name) = is.map some := by
        show ts.map ((fun n => (r.adding is).types.get? n) ∘ FileType.name) = is.map some
        rw [← List.map_map, ← names, List.map_map]
        refine List.map_congr_left fun i mem => ?_
        exact Registry.get?_adding_of_mem (names ▸ nameable.fresh) (names ▸ nameable.distinct) mem
      have joined := congrArg (List.filterMap id) each
      simpa [List.filterMap_map, Function.comp_def] using joined
    show (MonadExcept.ofExcept (r.withDescribed ts) >>= _ : Loading Unit).run.run r = _
    rw [described]
    show (Loading.registerEach (ts.filterMap fun t => (r.adding is).types.get? t.name)).run.run r = _
    rw [found]
    exact registerEach_eq (names ▸ nameable.fresh) (names ▸ nameable.distinct)

end Catalog

end HostLowering
