import HostLowering.Proofs.Lower.Emit

set_option autoImplicit false

/-! # Moving slots

The shuffles move slots of the snapshot and values of the host stack alike. Spilled slots come back
from locals that the method has.
-/

namespace HostLowering.Lower

set_option synthInstance.maxSize 1000000

open Machine Catalog Lowering

variable {c : Setting} {Γ : List Fact} {p q : Point} {d m : Nat} {b : Bool} {ts : List Temp}

/-! ## Temporaries -/

/-- Temporaries are locals of the method. -/
def Temps (c : Setting) (Γ : List Fact) (ts : List Temp) : Prop := ∀ t ∈ ts, Usable c Γ t.index

theorem Temps.of_mem (mem : .locals (ts.map Temp.index) ∈ Γ) : Temps c Γ ts :=
  fun t ht => usable_of_mem mem (List.mem_map.mpr ⟨t, ht, rfl⟩)

theorem moves_loadTemp {t : Temp} (usable : Usable c Γ t.index) :
    Moves c Γ (loadTemp t) ⟨some d, m, b⟩ ⟨some (d + 1), m, b⟩ fun _ => [] :=
  .seq (.reads fun _ => rfl) fun k => moves_load k usable

theorem moves_reloadTemp {t : Temp} (usable : Usable c Γ t.index) :
    Moves c Γ (reloadTemp t) ⟨some d, m, b⟩ ⟨some (d + 1), m + 1, b⟩ fun _ => [] :=
  .seq (moves_loadTemp usable) fun _ => moves_pushSlot t.slot

/-- What is known of spilled slots: their locals and their number. -/
def spilled (n : Nat) (ts : List Temp) : List Fact :=
  [.locals (ts.map Temp.index), .prop (ts.length = n)]

theorem moves_spillMany (n : Nat) :
    Moves c Γ (spillMany n) ⟨some (d + n), m + n, b⟩ ⟨some d, m, b⟩ (spilled n) := by
  induction n generalizing Γ with
  | zero =>
    refine .ret fun v s _ φ mem => ?_
    simp only [spilled, List.mem_cons, List.not_mem_nil, or_false] at mem
    rcases mem with rfl | rfl
    · simp [Fact.Holds]
    · rfl
  | succ n ih =>
    refine .seq moves_popSlot fun slot => .seq .leads fun k => .alloc fun i => .on ?_
    refine ih.bind fun rest => .ret fun v s facts φ mem => ?_
    have here := facts (.locals [i]) (by simp)
    have others := facts (.locals (rest.map Temp.index)) (by simp [spilled])
    have length := facts (.prop (rest.length = n)) (by simp [spilled])
    simp only [spilled, List.mem_cons, List.not_mem_nil, or_false] at mem
    rcases mem with rfl | rfl
    · intro j hj
      rcases List.mem_cons.mp hj with rfl | old
      · exact here _ List.mem_cons_self
      · exact others j old
    · exact congrArg (· + 1) length

theorem moves_spill (n : Nat) :
    Moves c Γ (spill n) ⟨some (d + n), m + n, b⟩ ⟨some d, m, b⟩ (spilled n) := by
  unfold spill
  refine .seq (.reads fun _ => rfl) fun st => ?_
  split
  · exact moves_spillMany n
  · exact .defect _

theorem moves_reload (temps : Temps c Γ ts) :
    Moves c Γ (reload ts) ⟨some d, m, b⟩ ⟨some (d + ts.length), m + ts.length, b⟩
      fun _ => [] := by
  have loop := moves_forM (fun i => ⟨some (d + i), m + i, b⟩) ts.reverse 0
    fun t ht i => moves_reloadTemp (d := d + i) (m := m + i) (b := b) (temps t (List.mem_reverse.mp ht))
  rwa [Nat.zero_add, List.length_reverse] at loop

instance (ts : List Temp) : Leads c Γ (release ts) p p :=
  ⟨moves_forMSame ts.reverse fun t _ => moves_free t.index⟩

/-- Loading temporaries whose number is known. -/
theorem moves_reloadOf {P : Prop} {n : Nat} (temps : Temps c Γ ts) (mem : .prop P ∈ Γ)
    (length : P → ts.length = n) :
    Moves c Γ (reload ts) ⟨some d, m, b⟩ ⟨some (d + n), m + n, b⟩ fun _ => [] :=
  (moves_reload temps).post (fun _ => mem) fun h => by rw [length h]

theorem moves_spillAll {st : Snapshot} {k : Nat} (mem : .prop (st.length = k) ∈ Γ) :
    Moves c Γ (spill st.length) ⟨some k, k, b⟩ ⟨some 0, 0, b⟩ (spilled k) := by
  refine .conv mem (r := ⟨some (0 + st.length), 0 + st.length, b⟩) (fun length => ?_)
    ((moves_spill st.length).weaken fun ts v s _ facts φ hφ => ?_)
  · rw [Nat.zero_add, length]
  · have length : st.length = k := facts _ (List.mem_append_right _ mem)
    rw [← length] at hφ
    exact facts φ (List.mem_append_left _ hφ)

theorem moves_copyAll {st : Snapshot} {k : Nat} (mem : .prop (st.length = k) ∈ Γ) :
    Moves c Γ (copyOut st.length) ⟨some k, k, b⟩ ⟨some k, k, b⟩ (spilled k) := by
  refine (moves_spillAll mem).bind fun ts => ?_
  refine .seq (q := ⟨some k, k, b⟩) ?_ fun _ => .ret fun v s facts φ hφ => facts φ (List.mem_append_left _ hφ)
  have loaded := moves_reloadOf (c := c) (Γ := spilled k ts ++ Γ) (d := 0) (m := 0) (b := b)
    (P := ts.length = k) (.of_mem (by simp [spilled])) (by simp [spilled]) id
  rwa [Nat.zero_add] at loaded

/-! ## Shuffles -/

instance : Shifts swap 2 2 2 2 := by
  unfold swap
  refine ⟨@fun c Γ d m b => .on ?_⟩
  refine moves_stack.bind fun st => ?_
  split
  · rename_i y x rest
    exact (moves_setStack _).post (P := (y :: x :: rest).length = m + 2) (by simp) fun length => by
      rw [← length]
      rfl
  · exact .defect _

instance : Shifts rotate3 3 3 3 3 := by
  unfold rotate3
  refine ⟨@fun c Γ d m b => .on ?_⟩
  refine moves_stack.bind fun st => ?_
  split
  · rename_i z y x rest
    exact (moves_setStack _).post (P := (z :: y :: x :: rest).length = m + 3) (by simp) fun length => by
      rw [← length]
      rfl
  · exact .defect _

instance : Shifts rotate4 4 4 4 4 := by
  refine ⟨@fun c Γ d m b => (moves_spill 2).bind fun ts => ?_⟩
  have temps : Temps c (spilled 2 ts ++ Γ) ts := .of_mem (by simp [spilled])
  split
  · rename_i t u
    refine .seq (moves_reloadTemp (temps t (by simp))) fun _ => .on ?_
    exact .seq (moves_reloadTemp (temps u (by simp))) fun _ => .leads
  · exact .defect _

/-- A copy of a slot below the top. -/
theorem moves_duplicate (n : Nat) :
    Moves c Γ (duplicate n) ⟨some (d + n + 1), m + n + 1, b⟩ ⟨some (d + n + 2), m + n + 2, b⟩
      fun _ => [] := by
  unfold duplicate
  split
  · exact .leads
  · split
    · rename_i one
      obtain rfl : n = 1 := by exact_mod_cast one
      exact .leads
    · rw [Nat.add_right_comm d, Nat.add_right_comm m]
      refine (moves_spill n).bind fun ts => ?_
      have temps : Temps c (spilled n ts ++ Γ) ts := .of_mem (by simp [spilled])
      refine .on (.seq .leads fun x => .on ?_)
      have loop := moves_forM (c := c) (Γ := spilled n ts ++ Γ)
        (x := fun t : Temp => do
          loadTemp t
          emit [.swap]
          setTop t.slot
          pushSlot x)
        (fun i => ⟨some (d + 2 + i), m + 2 + i, b⟩) ts.reverse 0 fun t ht i => by
          refine .seq (moves_loadTemp (temps t (List.mem_reverse.mp ht))) fun _ => ?_
          rw [show d + 2 + i + 1 = d + i + 1 + 2 by omega, show m + 2 + i = m + i + 1 + 1 by omega]
          rw [show d + 2 + (i + 1) = d + i + 1 + 2 by omega, show m + 2 + (i + 1) = m + i + 1 + 1 + 1 by omega]
          exact .leads
      refine .seq (loop.post (P := ts.length = n) (by simp [spilled]) fun length => ?_) fun _ =>
        .leads
      rw [Nat.zero_add, List.length_reverse, length]
      exact Point.ext_nat (by omega) (by omega)

theorem moves_bury (n : Nat) :
    Moves c Γ (bury n) ⟨some (d + n + 1), m + n + 1, b⟩ ⟨some (d + n + 1), m + n + 1, b⟩
      fun _ => [] := by
  unfold bury
  split
  · exact .pure ()
  split
  · rename_i one
    obtain rfl : n = 1 := by exact_mod_cast one
    exact .leads
  split
  · rename_i two
    obtain rfl : n = 2 := by exact_mod_cast two
    exact .leads
  · refine (moves_spill 1).bind fun top => ?_
    refine (moves_spill n).bind fun under => ?_
    rw [Nat.add_right_comm d, Nat.add_right_comm m]
    refine .seq (moves_reloadOf (n := 1) (P := top.length = 1) (.of_mem (by simp [spilled]))
      (by simp [spilled]) id) fun _ => ?_
    refine .seq (moves_reloadOf (P := under.length = n) (.of_mem (by simp [spilled]))
      (by simp [spilled]) id) fun _ => ?_
    exact .leads

theorem moves_exchange (n : Nat) :
    Moves c Γ (exchange n) ⟨some (d + n + 1), m + n + 1, b⟩ ⟨some (d + n + 1), m + n + 1, b⟩
      fun _ => [] := by
  unfold exchange
  split
  · exact .pure ()
  split
  · rename_i one
    obtain rfl : n = 1 := by exact_mod_cast one
    exact .leads
  · rename_i zero one
    refine (moves_spill (n + 1)).bind fun ts => ?_
    split
    · rename_i top rest bottom last
      have temps : Temps c (spilled (n + 1) (top :: rest) ++ Γ) (top :: rest) :=
        .of_mem (by simp [spilled])
      have order : Temps c (spilled (n + 1) (top :: rest) ++ Γ) (bottom :: rest.dropLast ++ [top]) := by
        intro t ht
        refine temps t ?_
        rcases List.mem_append.mp ht with low | high
        · rcases List.mem_cons.mp low with rfl | inner
          · exact List.mem_of_getLast? last
          · exact List.mem_cons_of_mem _ (List.dropLast_subset rest inner)
        · rw [List.mem_singleton] at high
          exact high ▸ List.mem_cons_self
      refine .seq (moves_reloadOf (n := n + 1) (P := (top :: rest).length = n + 1) order
        (by simp [spilled]) fun length => ?_) fun _ => .leads
      simp only [List.length_append, List.length_cons, List.length_dropLast,
        List.length_nil] at length ⊢
      omega
    · exact .defect _

instance : Shifts discardTop 1 0 1 0 := by
  unfold discardTop
  exact ⟨.leads⟩

/-! ## Locals and constants -/

theorem moves_localType (i : Int) :
    Moves c Γ (localType i) p p fun t =>
      [.prop (t.isSome = true ∧ i < c.function.locals.size)] := by
  unfold localType
  refine .read ?_
  dsimp only
  split
  · rename_i range
    refine .ret fun v s _ φ mem => ?_
    rw [List.mem_singleton] at mem
    subst mem
    exact ⟨rfl, range.2⟩
  · exact .failWith _ _

theorem usable_hostLocal {P : Prop} {i : Int} (mem : .prop P ∈ Γ)
    (range : P → i < c.function.locals.size) : Usable c Γ (c.function.hostLocal i) := by
  intro v s inv facts
  have lt := range (facts _ mem)
  have slots := inv.slots
  simp only [Function.slotBase, Function.hostLocal] at slots ⊢
  omega

/-- A step on a source local that exists. -/
theorem moves_withLocal {i : Int} {k : TypeRef → Lowering Unit}
    (h : ∀ t Γ, Usable c Γ (c.function.hostLocal i) → Moves c Γ (k t) p q fun _ => []) :
    Moves c Γ (do if let some t ← localType i then k t) p q fun _ => [] := by
  refine (moves_localType i).bind fun t => ?_
  cases t with
  | some t => exact (h t _ (usable_hostLocal List.mem_cons_self And.right)).weaken (by simp)
  | none => exact .never (P := (none : Option TypeRef).isSome = true ∧ _) List.mem_cons_self (by simp)

theorem moves_loadLocal (i : Int) :
    Moves c Γ (loadLocal i) ⟨some d, m, b⟩ ⟨some (d + 1), m + 1, b⟩ fun _ => [] := by
  refine moves_withLocal fun t Γ usable => ?_
  have : Has c Γ _ := ⟨usable⟩
  exact .leads

theorem moves_storeLocal (i : Int) :
    Moves c Γ (storeLocal i) ⟨some (d + 1), m + 1, b⟩ ⟨some d, m, b⟩ fun _ => [] := by
  refine moves_withLocal fun t Γ usable => ?_
  have : Has c Γ _ := ⟨usable⟩
  refine .seq (moves_peek 0) fun value => ?_
  refine .seq (.reads fun _ => rfl) fun k => ?_
  refine .seq (.reads fun _ => rfl) fun s => ?_
  dsimp only
  split
  · exact .fail _
  · refine .seq .leads fun sub => ?_
    split
    · exact .leads
    · exact .leads

theorem moves_clearLocal (i : Int) :
    Moves c Γ (clearLocal i) ⟨some d, m, b⟩ ⟨some d, m, b⟩ fun _ => [] := by
  refine moves_withLocal fun t Γ usable => ?_
  have : Has c Γ _ := ⟨usable⟩
  refine .seq (.reads fun _ => rfl) fun k => ?_
  split
  · exact .fail _
  · exact .leads

instance (l : Literal) : Shifts (loadLiteral l) 0 1 0 1 := by
  cases l with
  | other t => exact ⟨.fail _⟩
  | _ =>
    unfold loadLiteral
    exact ⟨.leads⟩

end HostLowering.Lower
