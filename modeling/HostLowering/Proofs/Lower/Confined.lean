import HostLowering.Proofs.Lower.Abiding
import HostLowering.Proofs.Lower.Footprint

set_option autoImplicit false

/-! # Operations stay in their scope

To stay in a scope is a discipline, so every operation but those that open a region or suspend a
generator stays in its scope, whatever types, keywords and depths it meets (`keeps_body`).
-/

namespace HostLowering.Lower

open Machine Catalog

variable {K : Scope} {α : Type}

theorem keeps_jumpTo {op : Opcode} (shape : op.shape = .branch) (target : Int) :
    Keeps K (Lowering.jumpTo op target) fun _ => True := by
  refine keeps_get.bind fun s _ => ?_
  split
  · exact .fail _
  · have branches (agrees : Bool) : Keeps K (do
        if agrees then Lowering.branch op (← Lowering.offsetLabel target)) fun _ => True := by
      cases agrees with
      | true => exact keeps_branchOffset shape target
      | false => exact .pure ()
    cases s.expected[target]? with
    | some e =>
      refine (keeps_compatible e s.stack).seq fun agrees => ?_
      cases agrees with
      | true => exact branches true
      | false =>
        exact (keeps_showStack _).seq fun _ => (keeps_showStack _).seq fun _ =>
          (Keeps.fail _).seq fun _ => branches false
    | none =>
      refine Keeps.seq (.update fun s _ => ?_) fun _ => branches true
      exact kept_update s _ _ _ _ _ _ rfl rfl le_rfl

/-- A callable that is made of a known signature adds no other to the registry. -/
theorem keeps_addCallable {sig : Signature} (mem : sig.method ∈ K.refs) (bound : Bool) :
    Keeps K (do
      let (t, registry) := (← get).registry.addCallable ⟨sig, bound⟩
      modify fun st => { st with registry }
      Lowering.pushType t) fun _ => True := by
  intro s u s' opened run
  replace run := rest_of_ok run rfl
  obtain ⟨_, s₁, added, run⟩ := bind_eq_ok run
  have adds : Kept K s s₁ := by
    obtain ⟨-, rfl⟩ := Prod.mk.inj added
    refine { Kept.refl s with
      labelled := labelled_of_eq rfl
      registry := fun sig' known => ?_ }
    rcases Registry.knows_addCallable_or known with known | rfl
    · exact .inl known
    · exact .inr mem
  obtain ⟨pushes, -⟩ := keeps_pushType _ s₁ u s' (adds.opened opened) run
  exact ⟨adds.trans pushes, trivial⟩

/-- Where the step leaves the temporaries taken as they are. -/
theorem Keeps.holding {own : List Label} {live : List Int} {x : Lowering α}
    (h : Keeps { K with own } x fun _ => True) (taken : ∀ i ∈ live, K.base ≤ i) :
    Keeps { K with own } x fun _ => ∀ i ∈ live, K.base ≤ i :=
  h.weaken fun _ _ => taken

/-- To stay in a scope, where the temporaries taken stand from its base on. -/
def Scope.discipline (K : Scope) : Discipline where
  toSource := K.toSource
  Does own live x after :=
    (∀ i ∈ live, K.base ≤ i) → Keeps { K with own } x fun a => ∀ i ∈ after a, K.base ≤ i
  writes i := K.function.localBase ≤ i ∧ i < K.function.slotBase + 2
  jumps _ := True
  guards := K.guarding
  bind h h' taken := (h taken).bind h'
  ret a same taken := .ret (same ▸ taken)
  defect _ _ := .defect _
  fail e := .holding (.fail e)
  congr same h taken s a s' opened run := h taken s a s' opened (by rwa [← same])
  get h taken := keeps_get.bind fun s opened => h s opened.registry taken
  owning h l taken := (h taken).owning l
  label h taken := .label fun l => h l taken
  line line _ wrote idle := .holding (.idle line wrote idle)
  load k _ := .holding (keeps_load _ k)
  store k writable taken := .holding (keeps_store k (writable.symm.imp_left (taken _))) taken
  increment mem taken := .holding (keeps_increment (.inl (taken _ mem))) taken
  mark mem := .holding (keeps_mark mem)
  branch shape mem := .holding (keeps_branch shape mem)
  tryCatch cls may hs he ht := .holding (keeps_tryCatch cls may hs he ht)
  jumpTo shape _ := .holding (keeps_jumpTo shape _)
  adjust _ _ := .holding (.update fun s _ => kept_update s _ _ _ _ _ _ rfl rfl le_rfl)
  addCallable mem bound := .holding (keeps_addCallable (by exact mem) bound)
  alloc k taken := (keeps_alloc k).weaken fun i behind j mem => by
    rcases List.mem_cons.mp mem with rfl | mem
    · exact behind
    · exact taken j mem
  free i taken := (keeps_free i).weaken fun _ _ j mem => taken j (List.mem_cons_of_mem i mem)

theorem Scope.keeps {x : Lowering α} (h : K.discipline.Abides K.own x) : Keeps K x fun _ => True :=
  ((h []).does (by simp)).forget

theorem Keeps.abides {x : Lowering α} (h : Keeps K x fun _ => True) : K.discipline.Abides K.own x :=
  fun _ => ⟨.holding h⟩

theorem keeps_body {op : Operation} (ordinary : op.Ordinary) (may : op.Iterates → K.guarding) :
    Keeps K op.body fun _ => True :=
  K.keeps (abides_body ordinary (fun _ writes => writes.inside) (fun _ _ => trivial) may)

end HostLowering.Lower
