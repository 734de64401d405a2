import HostLowering.Proofs.Machine.Spelling

set_option autoImplicit false

/-! # References with plain texts

The text of a reference need not tell its parts, since a class name may hold the separators. Where
every separator stands only once, the text does tell them. So the fields of the runtime library, and
its methods with one parameter, are found in every pool as what they are (`Pool.field_eq`,
`Pool.method_like`), whatever other references the pool holds.
-/

namespace HostLowering.Machine

variable {refs : Set MethodRef} {p : Pool} {m : MethodRef}

/-! ## Cutting texts -/

/-- A list is cut in one way only at a separator that stands once in it. -/
theorem append_cons_inj {α : Type} {x : α} {a b a' b' : List α} (h : a ++ x :: b = a' ++ x :: b')
    (ha : x ∉ a) (ha' : x ∉ a') : a = a' ∧ b = b' := by
  induction a generalizing a' with
  | nil =>
    cases a' with
    | nil => exact ⟨rfl, (List.cons.inj h).2⟩
    | cons y a' => exact absurd (List.cons.inj h).1 fun same => ha' (same ▸ List.mem_cons_self)
  | cons y a ih =>
    cases a' with
    | nil => exact absurd (List.cons.inj h).1 fun same => ha (same ▸ List.mem_cons_self)
    | cons z a' =>
      obtain ⟨rfl, rest⟩ := List.cons.inj h
      obtain ⟨rfl, rfl⟩ := ih rest (fun m => ha (List.mem_cons_of_mem _ m))
        fun m => ha' (List.mem_cons_of_mem _ m)
      exact ⟨rfl, rfl⟩

/-- Two cuts of a text at a separator that stands once in it are the same. -/
theorem cut_inj {x : Char} {a b a' b' : List Char} (h : a ++ x :: b = a' ++ x :: b')
    (once : (a' ++ x :: b').count x = 1) : a = a' ∧ b = b' := by
  have absent {a b : List Char} (once : (a ++ x :: b).count x = 1) : x ∉ a := by
    rw [List.count_append, List.count_cons_self] at once
    exact List.count_eq_zero.mp (by omega)
  exact append_cons_inj h (absent (h ▸ once)) (absent once)

/-! ## Fields -/

/-- The parts of the text of a field are told by their separators. -/
def FieldRef.Plain (f : FieldRef) : Prop :=
  f.text.toList.count '.' = 1 ∧ (f.name ++ ":" ++ f.type).toList.count ':' = 1

instance (f : FieldRef) : Decidable f.Plain := inferInstanceAs (Decidable (_ ∧ _))

theorem FieldRef.toList_text (f : FieldRef) :
    f.text.toList = f.owner.toList ++ '.' :: (f.name.toList ++ ':' :: f.type.toList) := by
  simp [FieldRef.text, String.toList_append]

theorem FieldRef.eq_of_text {f g : FieldRef} (plain : g.Plain) (same : f.text = g.text) : f = g := by
  obtain ⟨dots, colons⟩ := plain
  have lists := congrArg String.toList same
  rw [FieldRef.toList_text] at dots
  rw [FieldRef.toList_text, FieldRef.toList_text] at lists
  obtain ⟨owner, rest⟩ := cut_inj lists dots
  have colons' : (g.name.toList ++ ':' :: g.type.toList).count ':' = 1 := by
    simpa [String.toList_append] using colons
  obtain ⟨name, type⟩ := cut_inj rest colons'
  cases f
  cases g
  simp only [String.toList_inj] at owner name type
  subst owner name type
  rfl

theorem Pool.field_eq (keyed : p.Keyed refs) {f : FieldRef} (plain : f.Plain) : p.field f = f := by
  unfold Pool.field Pool.entry?
  cases found : p.index[(Constant.ofField f).key]? with
  | none => rfl
  | some k =>
    obtain ⟨c, entry, key⟩ := keyed.found _ k found
    obtain ⟨g, rfl, same⟩ := (keyed.proper k c entry).eq_ofField key
    rw [Option.bind_some, entry]
    exact FieldRef.eq_of_text plain same

/-! ## Methods -/

/-- Two references mean the same to the interpreter. -/
structure MethodRef.Like (r s : MethodRef) : Prop where
  owner : r.owner = s.owner
  name : r.name = s.name
  params : r.params.length = s.params.length
  returns : r.returns = s.returns

theorem MethodRef.Like.refl (r : MethodRef) : r.Like r := ⟨rfl, rfl, rfl, rfl⟩

def MethodRef.paramText (m : MethodRef) : String := String.intercalate "," m.params

/-- The text of a method has one parameter, and its parts are told by their separators. -/
def MethodRef.Plain (m : MethodRef) : Prop :=
  m.text.toList.count '.' = 1 ∧ m.text.toList.count '(' = 1 ∧ m.text.toList.count ')' = 1 ∧
    m.params.length = 1 ∧ m.paramText ≠ "" ∧ ',' ∉ m.paramText.toList

instance (m : MethodRef) : Decidable m.Plain := inferInstanceAs (Decidable (_ ∧ _))

theorem MethodRef.toList_text (m : MethodRef) : m.text.toList = m.owner.toList ++ '.' ::
    (m.name.toList ++ '(' :: (m.paramText.toList ++ ')' :: m.returns.toList)) := by
  simp [MethodRef.text, MethodRef.descriptor, MethodRef.paramText, String.toList_append]

/-- A text of parameters without a comma is that of one parameter. -/
theorem length_of_intercalate {ps : List String} (some : String.intercalate "," ps ≠ "")
    (single : ',' ∉ (String.intercalate "," ps).toList) : ps.length = 1 := by
  match ps with
  | [] => exact absurd rfl some
  | [_] => rfl
  | t :: u :: rest =>
    rw [String.intercalate_cons_cons, String.toList_append, String.toList_append] at single
    exact absurd (List.mem_append_left _ (List.mem_append_right _ (by decide))) single

/-- A separator that stands once in a list stands at most once in its tail. -/
theorem count_tail {x y : Char} {a b : List Char} (once : (a ++ y :: b).count x = 1)
    (mem : x ∈ b) : b.count x = 1 := by
  rw [List.count_append] at once
  have tail : b.count x ≤ (y :: b).count x := (List.sublist_cons_self y b).count_le x
  have positive : 0 < b.count x := List.count_pos_iff.mpr mem
  omega

/-- Where every separator stands once, a text tells the parts of a reference. -/
theorem MethodRef.parts_of_text {r : MethodRef} (dots : m.text.toList.count '.' = 1)
    (opens : m.text.toList.count '(' = 1) (closes : m.text.toList.count ')' = 1)
    (same : r.text = m.text) : r.owner = m.owner ∧ r.name = m.name ∧ r.paramText = m.paramText ∧
      r.returns = m.returns := by
  have lists := congrArg String.toList same
  rw [MethodRef.toList_text] at dots opens closes
  rw [MethodRef.toList_text, MethodRef.toList_text] at lists
  obtain ⟨owner, lists⟩ := cut_inj lists dots
  have opens := count_tail opens (by simp)
  have closes := count_tail closes (by simp)
  obtain ⟨name, lists⟩ := cut_inj lists opens
  obtain ⟨params, returns⟩ := cut_inj lists (count_tail closes (by simp))
  rw [String.toList_inj] at owner name params returns
  exact ⟨owner, name, params, returns⟩

theorem MethodRef.like_of_text {r : MethodRef} (plain : m.Plain) (same : r.text = m.text) :
    r.Like m := by
  obtain ⟨dots, opens, closes, one, some, single⟩ := plain
  obtain ⟨owner, name, params, returns⟩ := parts_of_text dots opens closes same
  refine ⟨owner, name, ?_, returns⟩
  rw [one]
  rw [← params] at some single
  exact length_of_intercalate some single

/-- The method found in a pool under the text of a reference is one of those with this text. -/
theorem Pool.method_text (keyed : p.Keyed refs) (m : MethodRef) :
    (p.method m = m ∨ p.method m ∈ refs) ∧ (p.method m).text = m.text := by
  unfold Pool.method Pool.entry?
  cases found : p.index[(Constant.ofMethod m).key]? with
  | none => exact ⟨.inl rfl, rfl⟩
  | some k =>
    obtain ⟨c, entry, key⟩ := keyed.found _ k found
    obtain ⟨r, mem, rfl, same⟩ := (keyed.proper k c entry).of_key key
    rw [Option.bind_some, entry]
    exact ⟨.inr mem, same⟩

theorem Pool.method_like (keyed : p.Keyed refs) (plain : m.Plain) : (p.method m).Like m :=
  MethodRef.like_of_text plain (Pool.method_text keyed m).2

/-- Plain references are found as what they are. -/
structure Pool.Honest (p : Pool) : Prop where
  field : ∀ {f : FieldRef}, f.Plain → p.field f = f
  method : ∀ {m : MethodRef}, m.Plain → (p.method m).Like m

theorem Pool.Keyed.honest (keyed : p.Keyed refs) : p.Honest :=
  ⟨Pool.field_eq keyed, Pool.method_like keyed⟩

theorem Spelled.honest {code : List Line} {a : Assembler} (spelled : Spelled refs code a) :
    a.pool.Honest := by
  obtain ⟨items, held, -⟩ := spelled.held
  exact held.keyed.honest

/-- References with the same text mean the same. -/
def Distinct (refs : Set MethodRef) : Prop :=
  ∀ r ∈ refs, ∀ s ∈ refs, r.text = s.text → r.Like s

theorem Distinct.clear (distinct : Distinct refs) : Clear refs := by
  intro r hr s hs same
  have like := distinct r hr s hs same
  exact ⟨like.params, by rw [MethodRef.pushesResult, like.returns, MethodRef.pushesResult]⟩

/-- In a pool of distinct methods every one is found as what it is. -/
theorem Distinct.method_like (distinct : Distinct refs) (keyed : p.Keyed refs) (mem : m ∈ refs) :
    (p.method m).Like m := by
  obtain ⟨same | found, text⟩ := Pool.method_text keyed m
  · rw [same]
    exact .refl m
  · exact distinct _ found m mem text

end HostLowering.Machine
