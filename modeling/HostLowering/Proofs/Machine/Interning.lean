import HostLowering.Proofs.Machine.Texts

set_option autoImplicit false

/-! # What a constant pool gives back

Constants are passed to a pool one after the other, and each of them gets an index. The index leads to
an entry with the key of the constant, two constants get the same index exactly if they have the same
key, and an entry is never changed. So the pool gives back what was passed to it exactly if the keys
tell the constants apart (`intern_faithful`). They do where no name holds a separator of the texts of
references and no two methods differ in nothing but in being of an interface (`Constant.Simple.eq_of_key`).
Two methods with other parameters can have one key otherwise (`joinedNames_shared`).
-/

namespace HostLowering.Machine

/-! ## Sequences of constants -/

/-- The indices that constants get one after the other. -/
def Pool.internAll (p : Pool) : List Constant → Except Defect (List Nat × Pool)
  | [] => .ok ([], p)
  | c :: cs => do
    let (i, p) ← p.intern c
    let (is, p) ← p.internAll cs
    return (i :: is, p)

variable {p p' : Pool} {c d : Constant} {cs before : List Constant} {is is₀ : List Nat} {i k : Nat}
  {e : Defect}

theorem Pool.internAll_cons_of_ok (h : p.intern c = .ok (i, p')) (cs : List Constant) :
    p.internAll (c :: cs) = (p'.internAll cs).map fun (is, p) => (i :: is, p) := by
  rw [Pool.internAll, h]
  cases rest : p'.internAll cs with
  | error e => simp [rest, bind, Except.bind, Except.map]
  | ok out => simp [rest, bind, Except.bind, Except.map, pure, Except.pure]

theorem Pool.internAll_cons_of_error (h : p.intern c = .error e) (cs : List Constant) :
    p.internAll (c :: cs) = .error e := by
  rw [Pool.internAll, h]
  rfl

/-- An index is looked up, or it is that of a new last entry. -/
theorem Pool.intern_cases (h : p.intern c = .ok (i, p')) :
    p.index[c.key]? = some i ∧ p' = p ∨ p.index[c.key]? = none ∧ i = p.entries.size ∧
      p' = ⟨p.entries.push c, p.index.insert c.key i⟩ := by
  unfold Pool.intern at h
  cases known : p.index[c.key]? with
  | some j =>
    simp only [known, Except.ok.injEq, Prod.mk.injEq] at h
    exact .inl ⟨congrArg some h.1, h.2.symm⟩
  | none =>
    simp only [known] at h
    split at h
    · simp only [Except.ok.injEq, Prod.mk.injEq] at h
      obtain ⟨rfl, rfl⟩ := h
      exact .inr ⟨rfl, rfl, rfl⟩
    · cases h

/-- There is no index for a new key if the pool is full, and this is the only failure. -/
theorem Pool.intern_eq_error_iff : p.intern c = .error e ↔
    e = .poolOverflow ∧ p.index[c.key]? = none ∧ Pool.capacity ≤ p.entries.size := by
  unfold Pool.intern
  cases known : p.index[c.key]? with
  | some j => simp
  | none =>
    by_cases room : p.entries.size < Pool.capacity
    · simp [room]
    · simp only [if_neg room, Except.error.injEq, true_and]
      constructor
      · rintro rfl
        exact ⟨rfl, Nat.not_lt.mp room⟩
      · rintro ⟨rfl, -⟩
        rfl

/-- Only the key of the constant gets an index. -/
theorem Pool.index_intern (h : p.intern c = .ok (i, p')) (key : String) :
    p'.index[key]? = if key = c.key then some i else p.index[key]? := by
  rcases Pool.intern_cases h with ⟨known, rfl⟩ | ⟨-, -, rfl⟩
  · by_cases same : key = c.key
    · rw [if_pos same, same, known]
    · rw [if_neg same]
  · show (p.index.insert c.key i)[key]? = _
    rw [Std.TreeMap.getElem?_insert]
    by_cases same : key = c.key
    · rw [if_pos same, if_pos (Std.compare_eq_iff_eq.mpr same.symm)]
    · rw [if_neg same, if_neg fun eq => same (Std.LawfulEqOrd.eq_of_compare eq).symm]

/-! ## What a pool holds -/

/-- A pool holds the constants that were passed to it, and has given them indices. -/
structure Pool.Interned (cs : List Constant) (is : List Nat) (p : Pool) : Prop where
  keyed : p.Keyed Set.univ
  exact_ : p.Exact
  indices : List.Forall₂ (fun c i => p.index[c.key]? = some i) cs is
  passed : ∀ key i, p.index[key]? = some i → ∃ c ∈ cs, c.key = key
  entries : ∀ (k : Nat) d, p.entries[k]? = some d → d ∈ cs

theorem Pool.interned_empty : Pool.Interned [] [] {} where
  keyed := Pool.keyed_empty
  exact_ := Pool.exact_empty
  indices := .nil
  passed key i h := by simp at h
  entries k d h := by simp at h

namespace Pool.Interned

theorem intern (interned : p.Interned cs is) (proper : c.Proper Set.univ)
    (h : p.intern c = .ok (i, p')) : p'.Interned (cs ++ [c]) (is ++ [i]) := by
  have index := Pool.index_intern h
  obtain ⟨keyed, -, -⟩ := interned.keyed.intern proper h
  refine ⟨keyed, interned.exact_.intern h, ?_, fun key j found => ?_, fun k d entry => ?_⟩
  · refine List.rel_append (interned.indices.imp fun d j old => ?_) (.cons ?_ .nil)
    · rw [index]
      by_cases same : d.key = c.key
      · -- the key was there, so its index is the one that is found again
        rcases Pool.intern_cases h with ⟨known, -⟩ | ⟨new, -⟩
        · rw [if_pos same, ← known, ← same, old]
        · rw [← same, old] at new
          cases new
      · rw [if_neg same, old]
    · rw [index, if_pos rfl]
  · rw [index] at found
    by_cases same : key = c.key
    · exact ⟨c, by simp, same.symm⟩
    · rw [if_neg same] at found
      obtain ⟨d, mem, eq⟩ := interned.passed key j found
      exact ⟨d, List.mem_append_left _ mem, eq⟩
  · rcases Pool.intern_cases h with ⟨-, rfl⟩ | ⟨-, -, rfl⟩
    · exact List.mem_append_left _ (interned.entries k d entry)
    · rw [Array.getElem?_push] at entry
      split at entry
      · cases entry
        simp
      · exact List.mem_append_left _ (interned.entries k d entry)

/-- All constants of a sequence are held afterwards. -/
theorem internAll (interned : p.Interned before is₀) (proper : ∀ c ∈ cs, c.Proper Set.univ)
    (h : p.internAll cs = .ok (is, p')) :
    p'.Interned (before ++ cs) (is₀ ++ is) ∧ Extends p.entries p'.entries := by
  induction cs generalizing p before is₀ is with
  | nil =>
    cases h
    rw [List.append_nil, List.append_nil]
    exact ⟨interned, .refl _⟩
  | cons c cs ih =>
    cases first : p.intern c with
    | error e =>
      rw [Pool.internAll_cons_of_error first] at h
      cases h
    | ok out =>
      obtain ⟨i, p₁⟩ := out
      rw [Pool.internAll_cons_of_ok first] at h
      cases rest : p₁.internAll cs with
      | error e =>
        rw [rest] at h
        cases h
      | ok out =>
        rw [rest] at h
        cases h
        have one := interned.intern (proper c List.mem_cons_self) first
        obtain ⟨all, kept⟩ := ih one (fun d mem => proper d (List.mem_cons_of_mem c mem)) rest
        obtain ⟨-, old, -⟩ := interned.keyed.intern (proper c List.mem_cons_self) first
        rw [List.append_assoc, List.append_assoc] at all
        exact ⟨all, fun k d entry => kept k d (old k d entry)⟩

/-- A key has an index exactly if it was passed. -/
theorem index_eq_none_iff (interned : p.Interned cs is) (key : String) :
    p.index[key]? = none ↔ ∀ c ∈ cs, c.key ≠ key := by
  constructor
  · rintro none c mem rfl
    obtain ⟨n, lt, rfl⟩ := List.getElem_of_mem mem
    have length := interned.indices.length_eq
    have found := interned.indices.get lt (length ▸ lt)
    rw [List.get_eq_getElem, none] at found
    cases found
  · intro absent
    cases found : p.index[key]? with
    | none => rfl
    | some i =>
      obtain ⟨c, mem, same⟩ := interned.passed key i found
      exact absurd same (absent c mem)

/-- An index leads to an entry with the key of the constant that got it. -/
theorem entry (interned : p.Interned cs is) (found : p.index[c.key]? = some i) :
    i < p.size ∧ ∃ d ∈ cs, p.entries[i]? = some d ∧ d.key = c.key := by
  obtain ⟨d, entry, same⟩ := interned.keyed.found c.key i found
  exact ⟨(Array.getElem?_eq_some_iff.mp entry).1, d, interned.entries i d entry, entry, same⟩

/-- Constants get the same index exactly if they have the same key. -/
theorem index_eq_iff (interned : p.Interned cs is) (found : p.index[c.key]? = some i)
    (found' : p.index[d.key]? = some k) : i = k ↔ c.key = d.key := by
  constructor
  · rintro rfl
    obtain ⟨-, x, -, entry, same⟩ := interned.entry found
    obtain ⟨-, y, -, entry', same'⟩ := interned.entry found'
    cases entry.symm.trans entry'
    exact same.symm.trans same'
  · intro same
    rw [same, found'] at found
    exact (Option.some.inj found).symm

/-- The pool gives back what was passed exactly if the keys tell the constants apart. -/
theorem faithful_iff (interned : p.Interned cs is) :
    List.Forall₂ (fun c i => p.entries[i]? = some c) cs is ↔
      ∀ c ∈ cs, ∀ d ∈ cs, c.key = d.key → c = d := by
  have indexed : ∀ c ∈ cs, ∃ i, (c, i) ∈ cs.zip is ∧ p.index[c.key]? = some i := by
    intro c mem
    obtain ⟨n, lt, rfl⟩ := List.getElem_of_mem mem
    have lt' : n < is.length := interned.indices.length_eq ▸ lt
    refine ⟨is[n], ?_, interned.indices.get lt lt'⟩
    rw [← List.getElem_zip (h := by rw [List.length_zip]; omega)]
    exact List.getElem_mem _
  constructor
  · intro faithful c mem d mem' same
    obtain ⟨i, pair, found⟩ := indexed c mem
    obtain ⟨k, pair', found'⟩ := indexed d mem'
    obtain rfl := (interned.index_eq_iff found found').mpr same
    have entry := (List.forall₂_iff_zip.mp faithful).2 pair
    have entry' := (List.forall₂_iff_zip.mp faithful).2 pair'
    exact Option.some.inj (entry.symm.trans entry')
  · intro apart
    refine List.forall₂_iff_zip.mpr ⟨interned.indices.length_eq, fun {c i} pair => ?_⟩
    have found := (List.forall₂_iff_zip.mp interned.indices).2 pair
    obtain ⟨-, d, mem, entry, same⟩ := interned.entry found
    rw [entry, apart d mem c (List.of_mem_zip pair).1 same]

end Pool.Interned

/-- A sequence fails exactly where a constant with a new key meets a full pool. -/
theorem Pool.internAll_eq_error_iff (interned : p.Interned before is₀)
    (proper : ∀ c ∈ cs, c.Proper Set.univ) : p.internAll cs = .error e ↔
      e = .poolOverflow ∧ ∃ first c later is p', cs = first ++ c :: later ∧
        p.internAll first = .ok (is, p') ∧ p'.size = Pool.capacity ∧
          ∀ d ∈ before ++ first, d.key ≠ c.key := by
  induction cs generalizing p before is₀ with
  | nil =>
    constructor
    · intro h
      cases h
    · rintro ⟨-, first, c, later, -, -, split, -⟩
      simp at split
  | cons c cs ih =>
    cases one : p.intern c with
    | error e' =>
      obtain ⟨rfl, new, full⟩ := Pool.intern_eq_error_iff.mp one
      rw [Pool.internAll_cons_of_error one]
      constructor
      · intro h
        cases h
        refine ⟨rfl, [], c, cs, [], p, rfl, rfl, le_antisymm interned.keyed.bound full, ?_⟩
        rw [List.append_nil]
        exact (interned.index_eq_none_iff c.key).mp new
      · rintro ⟨rfl, -⟩
        rfl
    | ok out =>
      obtain ⟨i, p₁⟩ := out
      have next := interned.intern (proper c List.mem_cons_self) one
      have rest := ih next fun d mem => proper d (List.mem_cons_of_mem c mem)
      have fails : p.internAll (c :: cs) = .error e ↔ p₁.internAll cs = .error e := by
        rw [Pool.internAll_cons_of_ok one]
        cases p₁.internAll cs with
        | error e' => simp [Except.map]
        | ok out => simp [Except.map]
      rw [fails, rest]
      refine and_congr_right fun _ => ?_
      constructor
      · rintro ⟨first, x, later, is, p', rfl, held, full, new⟩
        refine ⟨c :: first, x, later, i :: is, p', rfl, ?_, full, ?_⟩
        · rw [Pool.internAll_cons_of_ok one, held]
          rfl
        · intro d mem
          exact new d (by simpa using mem)
      · rintro ⟨first, x, later, is, p', split, held, full, new⟩
        cases first with
        | nil =>
          -- the first constant was interned, so it does not meet a full pool with a new key
          obtain ⟨rfl, rfl⟩ := List.cons.inj split
          cases held
          rw [List.append_nil] at new
          have failed := Pool.intern_eq_error_iff.mpr
            ⟨rfl, (interned.index_eq_none_iff c.key).mpr new, full.ge⟩
          rw [one] at failed
          cases failed
        | cons y first =>
          obtain ⟨rfl, rfl⟩ := List.cons.inj split
          rw [Pool.internAll_cons_of_ok one] at held
          cases later_ : p₁.internAll first with
          | error e' =>
            rw [later_] at held
            cases held
          | ok out =>
            obtain ⟨is', p''⟩ := out
            rw [later_] at held
            cases held
            refine ⟨first, x, later, is', p', rfl, later_, full, fun d mem => ?_⟩
            exact new d (by simpa using mem)

/-! ## Keys that tell constants apart -/

theorem intercalate_ne {t : String} (name : t ≠ "") (ts : List String) :
    String.intercalate "," (t :: ts) ≠ "" := by
  cases ts with
  | nil => simpa using name
  | cons u ts =>
    rw [String.intercalate_cons_cons]
    intro empty
    simp at empty

/-- Names without commas are told by the text that joins them. -/
theorem intercalate_inj {ps qs : List String} (names : ∀ t ∈ ps, t ≠ "" ∧ ',' ∉ t.toList)
    (names' : ∀ t ∈ qs, t ≠ "" ∧ ',' ∉ t.toList)
    (same : String.intercalate "," ps = String.intercalate "," qs) : ps = qs := by
  have parts {ts : List String} (some : ts ≠ []) (names : ∀ t ∈ ts, t ≠ "" ∧ ',' ∉ t.toList) :
      List.splitOn ',' (String.intercalate "," ts).toList = ts.map String.toList := by
    rw [String.toList_intercalate]
    refine List.splitOn_intercalate ',' (fun l mem => ?_) (by simpa using some)
    obtain ⟨t, member, rfl⟩ := List.mem_map.mp mem
    exact (names t member).2
  cases ps with
  | nil =>
    cases qs with
    | nil => rfl
    | cons u qs => exact absurd same.symm (intercalate_ne (names' u List.mem_cons_self).1 qs)
  | cons t ps =>
    cases qs with
    | nil => exact absurd same (intercalate_ne (names t List.mem_cons_self).1 ps)
    | cons u qs =>
      have lists : (t :: ps).map String.toList = (u :: qs).map String.toList :=
        calc (t :: ps).map String.toList
          _ = List.splitOn ',' (String.intercalate "," (t :: ps)).toList :=
            (parts (by simp) names).symm
          _ = List.splitOn ',' (String.intercalate "," (u :: qs)).toList := by rw [same]
          _ = (u :: qs).map String.toList := parts (by simp) names'
      exact List.map_injective_iff.mpr (fun _ _ => String.toList_injective) lists

/-- The names in a method reference hold no separators of its text. -/
def MethodRef.Simple (m : MethodRef) : Prop :=
  m.text.toList.count '.' = 1 ∧ m.text.toList.count '(' = 1 ∧ m.text.toList.count ')' = 1 ∧
    ∀ t ∈ m.params, t ≠ "" ∧ ',' ∉ t.toList

instance (m : MethodRef) : Decidable m.Simple := inferInstanceAs (Decidable (_ ∧ _))

/-- The text of a simple reference tells everything but whether the method is that of an interface. -/
theorem MethodRef.Simple.eq_of_text {m n : MethodRef} (simple : m.Simple) (simple' : n.Simple)
    (kind : m.isInterface = n.isInterface) (same : m.text = n.text) : m = n := by
  obtain ⟨-, -, -, names⟩ := simple
  obtain ⟨dots, opens, closes, names'⟩ := simple'
  obtain ⟨owner, name, joined, returns⟩ := MethodRef.parts_of_text dots opens closes same
  have params : m.params = n.params := intercalate_inj names names' joined
  cases m
  cases n
  simp only at owner name params returns kind
  rw [owner, name, params, returns, kind]

/-- The names in a constant hold no separators. -/
def Constant.Simple (c : Constant) : Prop :=
  (∀ f ∈ c.field, f.Plain) ∧ ∀ m ∈ c.method, m.Simple

instance (c : Constant) : Decidable c.Simple := inferInstanceAs (Decidable (_ ∧ _))

theorem Constant.Simple.eq_of_key (proper : c.Proper Set.univ) (proper' : d.Proper Set.univ)
    (simple : c.Simple) (simple' : d.Simple)
    (kinds : ∀ m ∈ c.method, ∀ n ∈ d.method, m.text = n.text → m.isInterface = n.isInterface)
    (same : c.key = d.key) : c = d := by
  cases proper' with
  | string s => exact proper.eq_ofString same
  | int n => exact proper.eq_ofInt same
  | cls name => exact proper.eq_ofClass same
  | field f =>
    obtain ⟨g, rfl, text⟩ := proper.eq_ofField same
    rw [FieldRef.eq_of_text (simple'.1 f rfl) text]
  | @method n mem =>
    obtain ⟨m, -, rfl, text⟩ := proper.of_key same
    rw [(simple.2 m rfl).eq_of_text (simple'.2 n rfl) (kinds m rfl n rfl text) text]

/-! ## Faithful pools -/

/-- A new pool gives every constant an index below its size, which leads to an entry with the key of the
constant. Constants get the same index exactly if they have the same key, and no entry is changed later.
So the entries are the constants themselves exactly if their keys tell them apart, as those of simple
constants do. The only failure is that of a constant with a new key in a full pool. -/
theorem intern_faithful (cs : List Constant) (made : ∀ c ∈ cs, c.Proper Set.univ) :
    (∀ is p, Pool.internAll {} cs = .ok (is, p) →
      List.Forall₂ (fun c i => i < p.size ∧ ∃ d ∈ cs, p.entries[i]? = some d ∧ d.key = c.key) cs is ∧
      (∀ x ∈ cs.zip is, ∀ y ∈ cs.zip is, x.2 = y.2 ↔ x.1.key = y.1.key) ∧
      (∀ more is' p', (∀ c ∈ more, c.Proper Set.univ) → p.internAll more = .ok (is', p') →
        Extends p.entries p'.entries) ∧
      (List.Forall₂ (fun c i => p.entries[i]? = some c) cs is ↔
        ∀ c ∈ cs, ∀ d ∈ cs, c.key = d.key → c = d)) ∧
    ((∀ c ∈ cs, c.Simple) → (∀ m n, .ofMethod m ∈ cs → .ofMethod n ∈ cs → m.text = n.text →
        m.isInterface = n.isInterface) → ∀ c ∈ cs, ∀ d ∈ cs, c.key = d.key → c = d) ∧
    ∀ e, Pool.internAll {} cs = .error e ↔ e = .poolOverflow ∧ ∃ first c later is p,
      cs = first ++ c :: later ∧ Pool.internAll {} first = .ok (is, p) ∧ p.size = Pool.capacity ∧
        ∀ d ∈ first, d.key ≠ c.key := by
  refine ⟨fun is p run => ?_, fun simple kinds c mem d mem' same => ?_, fun e => ?_⟩
  · obtain ⟨interned, -⟩ := Pool.interned_empty.internAll made run
    rw [List.nil_append, List.nil_append] at interned
    refine ⟨interned.indices.imp fun c i => interned.entry, ?_, ?_, interned.faithful_iff⟩
    · rintro ⟨c, i⟩ pair ⟨d, k⟩ pair'
      have found := (List.forall₂_iff_zip.mp interned.indices).2 pair
      have found' := (List.forall₂_iff_zip.mp interned.indices).2 pair'
      exact interned.index_eq_iff found found'
    · intro more is' p' proper later
      exact (interned.internAll proper later).2
  · refine Constant.Simple.eq_of_key (made c mem) (made d mem') (simple c mem) (simple d mem') ?_ same
    intro m hm n hn text
    have own {c : Constant} {m : MethodRef} (proper : c.Proper Set.univ) (hm : m ∈ c.method) :
        c = .ofMethod m := by
      cases proper <;> cases hm
      rfl
    exact kinds m n (own (made c mem) hm ▸ mem) (own (made d mem') hn ▸ mem') text
  · exact Pool.internAll_eq_error_iff Pool.interned_empty made

def twoNames : MethodRef := { owner := "u/H", name := "m", params := ["p", "q"], returns := "void" }

def joinedNames : MethodRef := { owner := "u/H", name := "m", params := ["p,q"], returns := "void" }

/-- A pool takes the two methods for one. -/
theorem joinedNames_shared : twoNames ≠ joinedNames ∧
    ∃ p, Pool.internAll {} [.ofMethod twoNames, .ofMethod joinedNames] = .ok ([0, 0], p) ∧
      p.entries = #[.ofMethod twoNames] := by
  refine ⟨by decide, _, rfl, rfl⟩

/-- Constants of every kind, one of them passed twice. -/
def assorted : List Constant :=
  [.ofString "p", .ofClass "p", .ofMethod twoNames, .ofInt (-1), .ofString "p",
    .ofField { owner := "u/H", name := "f", type := "p" }]

theorem intern_faithful_assorted : ∃ p, Pool.internAll {} assorted = .ok ([0, 1, 2, 3, 0, 4], p) ∧
    p.size = 5 ∧ List.Forall₂ (fun c i => p.entries[i]? = some c) assorted [0, 1, 2, 3, 0, 4] := by
  have made : ∀ c ∈ assorted, c.Proper Set.univ := by
    intro c mem
    simp only [assorted, List.mem_cons, List.not_mem_nil, or_false] at mem
    rcases mem with rfl | rfl | rfl | rfl | rfl | rfl
    · exact .string "p"
    · exact .cls "p"
    · exact .method (Set.mem_univ _)
    · exact .int (-1)
    · exact .string "p"
    · exact .field _
  have only : ∀ m, .ofMethod m ∈ assorted → m = twoNames := by
    intro m mem
    simpa [assorted, Constant.ofMethod, Constant.ofString, Constant.ofClass, Constant.ofInt,
      Constant.ofField] using mem
  have apart := (intern_faithful assorted made).2.1 (by decide) fun m n hm hn _ => by
    rw [only m hm, only n hn]
  exact ⟨_, rfl, rfl, ((intern_faithful assorted made).1 _ _ rfl).2.2.2.mpr apart⟩

end HostLowering.Machine
