import HostLowering.Proofs.Lower.Call

set_option autoImplicit false

/-! # Collections

Building, unpacking and slicing. An unpacked iterable leaves as many slots as there are targets: the
code that would leave more or fewer raises.
-/

namespace HostLowering.Lower

set_option synthInstance.maxSize 1000000

open Machine Catalog Lowering

variable {c : Setting} {Γ : List Fact} {p q : Point} {d m n : Nat} {b : Bool}

/-! ## Building -/

theorem moves_build (x : Collection) {n : Int} :
    Moves c Γ (build x n) ⟨some (d + n.toNat), m + n.toNat, b⟩ ⟨some (d + 1), m + 1, b⟩
      fun _ => [] := by
  unfold build
  split
  · exact .fail _
  · cases x <;> simp only [Collection.hostClass] <;> exact .leads

theorem moves_putPairs {ts : List Temp} (temps : Temps c Γ ts) :
    Moves c Γ (putPairs ts) ⟨some (d + 1), m, b⟩ ⟨some (d + 1), m, b⟩ fun _ => [] := by
  match ts, temps with
  | key :: value :: rest, temps =>
    unfold putPairs
    refine .on (.seq (moves_loadTemp (temps key (by simp))) fun _ => ?_)
    refine .seq (moves_loadTemp (temps value (by simp))) fun _ => .on ?_
    exact moves_putPairs fun t ht => temps t (by simp [ht])
  | [], _ | [_], _ => exact .pure ()

/-- Pairs become a dict. Their slots are counted in 64 bits, here and where the operation begins. -/
theorem moves_buildMap (n : Int) :
    Moves c Γ (buildMap n) ⟨some (d + (wrap64 (2 * n)).toNat), m + (wrap64 (2 * n)).toNat, b⟩
      ⟨some (d + 1), m + 1, b⟩ fun _ => [] := by
  unfold buildMap
  split
  · exact .fail _
  · have spill : Moves c Γ (spill (wrap64 (2 * n)))
        ⟨some (d + (wrap64 (2 * n)).toNat), m + (wrap64 (2 * n)).toNat, b⟩ ⟨some d, m, b⟩
        (spilled (wrap64 (2 * n)).toNat) := by
      by_cases negative : wrap64 (2 * n) < 0
      · unfold spill
        refine .seq (.reads fun _ => rfl) fun st => ?_
        rw [if_neg (by omega)]
        exact .defect _
      · have spill := moves_spill (c := c) (Γ := Γ) (d := d) (m := m) (b := b) (wrap64 (2 * n)).toNat
        rwa [Int.toNat_of_nonneg (by omega)] at spill
    refine spill.bind fun ts => .on (.seq (moves_putPairs fun t ht => ?_) fun _ => .leads)
    exact Temps.of_mem (by simp [spilled]) t (List.mem_reverse.mp ht)

/-! ## Unpacking -/

instance {i : Int} [Has c Γ i] : Leads c Γ (nextOf i) ⟨some d, m, b⟩ ⟨some (d + 1), m, b⟩ := by
  unfold nextOf
  infer_instance

/-- Everything is spilled, so the handler for the end of the iteration has nothing to restore. -/
theorem moves_unpack (n : Int) :
    Moves c Γ (unpack n) ⟨some (d + 1), d + 1, b⟩ ⟨some (d + n.toNat), d + n.toNat, b⟩
      fun _ => [] := by
  unfold unpack
  split
  · exact .fail _
  refine moves_stack.bind fun st => (moves_spillAll List.mem_cons_self).bind fun ts => ?_
  refine .seq (moves_reloadOf (n := 1) (P := ts.length = d + 1)
    (fun t ht => Temps.of_mem (by simp [spilled]) t (List.mem_of_mem_take ht)) (by simp [spilled]) ?_) fun _ => ?_
  · intro length
    rw [List.length_take, length]
    omega
  refine .on (.alloc fun it => .on (.alloc fun size => .on ?_))
  dsimp only
  split
  · exact .defectThen _
  refine (moves_mapM id _ fun _ _ => moves_alloc .ref).bind fun items => ?_
  refine .label 0 fun start => .ending 1 fun stop => .label 1 fun exhausted => .label 0 fun done => ?_
  refine .bind (moves_mark (by simp [ending]) (by simp [ending])) fun _ => ?_
  refine .seq (moves_forMSame items fun i hi => .on ?_) fun _ => .on ?_
  · exact .seq (moves_store .ref (usable_of_mem (t := items) (by simp) hi)) fun _ => .leads
  refine .bind (moves_markAfter (e := start) (by simp [ending]) (by simp [ending]) (by simp)) fun _ => .on ?_
  refine .seq (moves_reloadOf (n := d) (P := ts.length = d + 1)
    (fun t ht => Temps.of_mem (by simp [spilled]) t (List.mem_of_mem_drop ht)) (by simp [spilled]) ?_) fun _ => ?_
  · intro length
    rw [List.length_drop, length]
    omega
  refine .seq ((moves_forM (fun i => ⟨some (0 + d + i), 0 + d + i, b⟩) items.reverse 0 fun i hi j => ?_).post
    (P := items.length = (List.range n.toNat).length) (q := ⟨some (d + n.toNat), d + n.toNat, b⟩) (by simp)
    fun length => ?_) fun _ => ?_
  · exact .seq (moves_load .ref (usable_of_mem (t := items) (by simp) (List.mem_reverse.mp hi))) fun _ => .leads
  · rw [List.length_reverse, length, List.length_range]
    exact Point.ext_nat (by omega) (by omega)
  exact .seq (moves_forMSame _ fun i _ => moves_free i) fun _ => .leads

instance {list : Int} (index : Int) [Has c Γ list] :
    Leads c Γ (pushItem list index) ⟨some d, m, b⟩ ⟨some (d + 1), m + 1, b⟩ := by
  unfold pushItem
  infer_instance

theorem moves_unpackWithTail (before after : Int) :
    Moves c Γ (unpackWithTail before after) ⟨some (d + 1), m + 1, b⟩
      ⟨some (d + after.toNat + 1 + before.toNat), m + after.toNat + 1 + before.toNat, b⟩ fun _ => [] := by
  unfold unpackWithTail
  split
  · exact .fail _
  refine .on (.alloc fun list => .on (.label d fun enough => .on ?_))
  have trailing {Γ : List Fact} [Has c Γ list] := moves_forM (c := c) (Γ := Γ)
    (x := fun i : Nat => pushItem list (-(i + 1)))
    (fun n => ⟨some (d + n), m + n, b⟩) (List.range after.toNat) 0 fun i _ n => .leads
  rw [Nat.zero_add, List.length_range] at trailing
  refine .seq trailing fun _ => .on ?_
  have leading {Γ : List Fact} [Has c Γ list] := moves_forM (c := c) (Γ := Γ)
    (x := fun i : Nat => pushItem list i)
    (fun n => ⟨some (d + after.toNat + 1 + n), m + after.toNat + 1 + n, b⟩) (List.range before.toNat).reverse 0
    fun i _ n => .leads
  rw [Nat.zero_add, List.length_reverse, List.length_range] at leading
  exact .seq leading fun _ => .leads

/-! ## Access by key or slice -/

instance : Shifts newSlice 2 1 2 1 := by
  refine ⟨@fun c Γ d m b => (moves_spill 2).bind fun ts => .on ?_⟩
  refine .seq ((moves_forM (fun n => ⟨some (d + 2 + n), m, b⟩) ts.reverse 0 fun t ht n => ?_).post
    (P := ts.length = 2) (q := ⟨some (d + 4), m, b⟩) (by simp [spilled]) fun length => ?_) fun _ => .leads
  · exact moves_loadTemp (Temps.of_mem (by simp [spilled]) t (List.mem_reverse.mp ht))
  · rw [List.length_reverse, length]

instance : Shifts storeItem 3 0 3 0 := by
  unfold storeItem
  exact ⟨.leads⟩

instance : Shifts deleteItem 2 0 2 0 := by
  unfold deleteItem
  exact ⟨.leads⟩

instance : Shifts getSlice 3 1 3 1 := by
  unfold getSlice
  exact ⟨.leads⟩

instance : Shifts storeSlice 4 0 4 0 := by
  unfold storeSlice
  exact ⟨.leads⟩

end HostLowering.Lower
