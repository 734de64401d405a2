import HostLowering.Proofs.Lower.Balance.Operation
import HostLowering.Proofs.Lower.Parts

set_option autoImplicit false

/-! # What actions leave behind

Between two actions of a session no temporary is taken, and whatever outlasts an operation stands in
front of the base of the pool: the source locals, the slots of exceptions, the slots of each handler
and the frames of suspended generators (`Orderly`). Every action keeps this, also one that records a
failure, and its code writes temporaries and the few other locals that the action may write
(`Action.Leaves`). No action meets a defect of the pool, unless its operation has ended with another
defect before (`concludes_run`).
-/

namespace HostLowering.Lower

set_option synthInstance.maxSize 1000000

open Machine Catalog Lowering

variable {α β : Type} {f : Function} {s s' : State} {D : Defect → Prop} {W : Workspace} {a : Action}
  {o : Int} {h : HandlerEntry} {r : Registry} {types : List TypeSpec}

/-! ## Runs from a known state -/

/-- A step of which it is known where it leads. -/
theorem Concludes.run {x : Lowering α} {k : α → Lowering β} {V : β → State → Prop} {a : α} {t : State}
    (h : x f s = (.ok a, t)) (h' : Concludes V D (k a f t)) : Concludes V D ((x >>= k) f s) := by
  rwa [bind_of_eq_ok h]

theorem Concludes.imp {V V' : α → State → Prop} {D' : Defect → Prop} {r : Except Defect α × State}
    (h : Concludes V D r) (value : ∀ a s₁, V a s₁ → V' a s₁) (defect : ∀ d, D d → D' d) :
    Concludes V' D' r := by
  obtain ⟨r, s₁⟩ := r
  cases r with
  | error d => exact defect d h
  | ok a => exact value a s₁ h

/-- A step that leaves the temporaries as they are, and what is done after it. -/
theorem Balanced.then {live : List Int} {x : Lowering α} {k : α → Lowering β} {V : β → State → Prop}
    (h : Balanced W x) (holds : W.Holds live s) (h' : ∀ a s₁, W.Holds live s₁ → W.Passed s s₁ →
      Concludes V (fun d => d.ofPool = false) (k a W.function s₁)) :
    Concludes V (fun d => d.ofPool = false) ((x >>= k) W.function s) :=
  .bind (h.during live s holds) fun a s₁ here => h' a s₁ here.1 here.2

/-! ## Between actions -/

/-- A state between actions: no temporary is taken, and what outlasts an operation stands in front of
the base of the pool. -/
structure Orderly (f : Function) (s : State) : Prop where
  settled : s.pool.live = []
  behind : f.slotBase + 2 ≤ s.pool.base
  room : s.pool.base ≤ s.pool.maxLocals
  reserved : ∀ i ∈ s.pool.reserved, 0 ≤ i ∧ i < s.pool.base
  kept : ∀ (o : Int) h, s.handlers[o]? = some h →
    ∀ i ∈ h.slots, f.slotBase + 2 ≤ i ∧ i < s.pool.base
  apart : ∀ (o o' : Int) h h', s.handlers[o]? = some h → s.handlers[o']? = some h' → o ≠ o' →
    ∀ i ∈ h.slots, i ∉ h'.slots
  frames : ∀ p ∈ s.resumes, ∀ i ∈ p.frame, 0 ≤ i ∧ i < s.pool.base
  entered : ∀ (o : Int) h, s.handlers[o]? = some h → h.emitted = true → s.marked.contains o = true
  guarded : ∀ o : Int, s.handlers.contains o = true → s.expected[o]? = none

/-- The locals that an action may write beside temporaries, in the state that it leads to: a local of
the source, the current exception, the slots of the handler of a region, or at the entry of a handler
the two slots of exceptions. -/
def Action.Writes (f : Function) (s : State) : Action → Int → Prop
  | .perform (.openRegion region), i => ∃ h, s.handlers[region.target]? = some h ∧ i ∈ h.slots
  | .perform op, i => op.Writes f i
  | .visit o _, i => s.handlers.contains o ∧ (i = f.exceptionSlot ∨ i = f.previousSlot)
  | .spell _, _ => False

/-- The offset at which an action may state the snapshot expected. -/
def Action.offset? : Action → Option Int
  | .visit o _ => some o
  | .perform op => op.target?
  | .spell _ => none

/-- What an action leaves behind. -/
structure Action.Leaves (f : Function) (a : Action) (s s' : State) : Prop where
  code : ∃ lines fresh guards, Wrote Set.univ lines fresh guards s.assembler s'.assembler ∧
    ∀ line ∈ lines, (∀ i : Nat, line.local? = some i → (i : Int) < s'.pool.maxLocals) ∧
      ∀ i : Nat, line.written? = some i → s'.pool.base ≤ i ∨ a.Writes f s' i
  base : s.pool.base ≤ s'.pool.base
  room : s.pool.maxLocals ≤ s'.pool.maxLocals
  failure : ∀ e, s.failure = some e → s'.failure = some e
  marked : ∀ o : Int, s.marked.contains o = true → s'.marked.contains o = true
  visited : ∀ o : Int, s'.marked.contains o = true →
    s.marked.contains o = true ∨ ∃ given, a = .visit o given
  handlers : ∀ (o : Int) h, s.handlers[o]? = some h →
    ∃ h', s'.handlers[o]? = some h' ∧ h'.kept = h.kept
  expected : ∀ (o : Int) e, s.expected[o]? = some e →
    s'.expected[o]? = some e ∨ ∃ given, a = .visit o given ∧ s'.expected[o]? = some given
  elsewhere : ∀ o : Int, a.offset? ≠ some o → s'.expected[o]? = s.expected[o]?
  types : s'.registry.types = s.registry.types

def Action.Settles (f : Function) (a : Action) (s s' : State) : Prop := Orderly f s' ∧ a.Leaves f s s'

theorem Orderly.holds (h : Orderly W.function s) (base : W.base = s.pool.base) :
    W.Holds [] s where
  base := base.symm
  taken := h.settled
  stacked := trivial
  room := by
    rw [base]
    simpa using h.room
  reserved := by
    rw [base]
    exact h.reserved

/-- A state to which steps in a workspace lead. -/
theorem Orderly.passed (h : Orderly W.function s) (base : W.base = s.pool.base)
    (holds : W.Holds [] s') (passed : W.Passed s s') : Orderly W.function s' := by
  have same : s'.pool.base = s.pool.base := holds.base.trans base
  refine ⟨holds.taken, ?_, ?_, ?_, ?_, ?_, ?_, ?_, ?_⟩
  · rw [same]
    exact h.behind
  · have room := holds.room
    rw [base] at room
    simpa [same] using room
  · rw [holds.base]
    exact holds.reserved
  · rw [passed.handlers, same]
    exact h.kept
  · rw [passed.handlers]
    exact h.apart
  · intro p mem i inside
    rw [same]
    rcases passed.resumes p mem with old | ⟨-, new⟩
    · exact h.frames p old i inside
    · rw [← base]
      exact new i inside
  · rw [passed.handlers, passed.marked]
    exact h.entered
  · intro o handler
    rw [passed.handlers] at handler
    exact (passed.guarded o handler).trans (h.guarded o handler)

/-- What steps in the workspace of an action leave behind. -/
theorem Workspace.Passed.leaves (passed : W.Passed s s') (base : W.base = s.pool.base)
    (holds : W.Holds [] s') (writes : ∀ i, W.writes i → a.Writes W.function s' i)
    (target : ∀ o, W.target = some o → a.offset? = some o) :
    a.Leaves W.function s s' where
  code := by
    obtain ⟨lines, fresh, guards, wrote, allows⟩ := passed.code
    refine ⟨lines, fresh, guards, wrote, fun line mem => ⟨(allows line mem).1, fun i written => ?_⟩⟩
    rw [holds.base]
    exact ((allows line mem).2 i written).imp_right (writes i)
  base := by rw [holds.base, base]
  __ := passed
  marked o h := by rwa [passed.marked]
  visited o h := by
    rw [passed.marked] at h
    exact .inl h
  handlers o h found := ⟨h, by rwa [passed.handlers], rfl⟩
  expected o e found := .inl (passed.expected o e found)
  elsewhere o other := passed.elsewhere o fun same => other (target o same)

/-- An action in two parts, the second of which takes no persistent slots. -/
theorem Action.Leaves.trans {s₁ : State} (h : a.Leaves f s s₁) (h' : a.Leaves f s₁ s')
    (base : s'.pool.base = s₁.pool.base) (writes : ∀ i, a.Writes f s₁ i → a.Writes f s' i) :
    a.Leaves f s s' where
  code := by
    obtain ⟨lines, fresh, guards, wrote, uses⟩ := h.code
    obtain ⟨lines', fresh', guards', wrote', uses'⟩ := h'.code
    refine ⟨_, _, _, wrote.trans wrote', fun line mem => ?_⟩
    rcases List.mem_append.mp mem with old | new
    · refine ⟨fun i here => ((uses line old).1 i here).trans_le h'.room, fun i written => ?_⟩
      rw [base]
      exact ((uses line old).2 i written).imp_right (writes i)
    · exact uses' line new
  base := h.base.trans h'.base
  room := h.room.trans h'.room
  failure e failed := h'.failure e (h.failure e failed)
  marked o visited := h'.marked o (h.marked o visited)
  visited o visited := (h'.visited o visited).elim (h.visited o) .inr
  handlers o e found := by
    obtain ⟨e₁, found₁, kept₁⟩ := h.handlers o e found
    obtain ⟨e₂, found₂, kept₂⟩ := h'.handlers o e₁ found₁
    exact ⟨e₂, found₂, kept₂.trans kept₁⟩
  expected o e found := by
    rcases h.expected o e found with same | ⟨given, rfl, new⟩
    · exact h'.expected o e same
    · rcases h'.expected o given new with same | ⟨given', same, new'⟩
      · exact .inr ⟨given, rfl, same⟩
      · cases same
        exact .inr ⟨given, rfl, new'⟩
  elsewhere o other := (h'.elsewhere o other).trans (h.elsewhere o other)
  types := h'.types.trans h.types

/-! ## Operations -/

/-- An operation is opened, or it is refused and nothing but its name and the failure changes. -/
theorem concludes_begin (name : String) (needed : Int) :
    Concludes (fun began s₁ =>
        began = true ∧ s.failure = none ∧ s.reachable = true ∧ needed ≤ s.stack.length ∧
          s₁ = { s with operation := name } ∨
        began = false ∧ ∃ name' failure, failure ≠ none ∧ (∀ e, s.failure = some e → failure = some e) ∧
          s₁ = { s with operation := name', failure })
      (fun _ => False) (begin name needed f s) := by
  refine .run (x := hasFailed) rfl ?_
  cases failed : s.failure with
  | some e => exact .inr ⟨rfl, s.operation, some e, by simp, fun _ => id, by rw [← failed]⟩
  | none =>
    have fails (c : Cause) : Concludes (fun began s₁ =>
        began = false ∧ ∃ name' failure, failure ≠ none ∧
          (∀ e, (none : Option Failure) = some e → failure = some e) ∧
            s₁ = { s with operation := name', failure }) (fun _ => False)
        ((do fail c; return false : Lowering Bool) f { s with operation := name }) := by
      refine ⟨rfl, name, _, ?_, ?_, rfl⟩
      · rw [failed]
        simp
      · intro e none
        cases none
    refine .run (t := { s with operation := name }) rfl <| .run (x := get) rfl ?_
    dsimp only
    split
    · exact (fails _).imp (fun _ _ => .inr) fun _ => id
    · rename_i reachable
      split
      · exact (fails _).imp (fun _ _ => .inr) fun _ => id
      · rename_i enough
        exact .inl ⟨rfl, rfl, by simpa using reachable, Int.not_lt.mp enough, by rw [← failed]⟩

/-- A defect of the pool that comes of an operation: temporaries are left because the body has ended
with another defect. -/
def Masks (f : Function) (name : String) (body : Lowering Unit) (s : State) (d : Defect) : Prop :=
  ∃ op count cause s₁, d = .temporariesLeft op count ∧ cause.ofPool = false ∧
    body f { s with operation := name } = (.error cause, s₁)

/-- An operation is refused, or its body is run and leaves no temporaries. -/
theorem concludes_operation {name : String} {needed : Int} {body : Lowering Unit} {V : State → Prop}
    (refused : ∀ name' failure, (∀ e, s.failure = some e → failure = some e) →
      V { s with operation := name', failure })
    (performs : Concludes (fun _ s' => V s' ∧ s'.pool.live = []) (fun d => d.ofPool = false)
      (body f { s with operation := name })) :
    Concludes (fun _ s' => V s') (fun d => d.ofPool = false ∨ Masks f name body s d)
      (operation name needed body f s) := by
  refine .bind ((concludes_begin name needed).imp (fun _ _ => id) fun _ => False.elim) ?_
  rintro began s₁ (⟨rfl, -, -, -, rfl⟩ | ⟨rfl, name', failure, -, kept, rfl⟩)
  · cases ran : body f { s with operation := name } with
    | mk r s₂ =>
      rw [ran] at performs
      cases r with
      | ok u =>
        -- The body is closed, and there is nothing to complain of.
        refine .run (t := s₂) (a := u) ?_ <| .run (x := get) rfl ?_
        · change ExceptT.tryCatch (body f) _ _ = _
          simp only [ExceptT.tryCatch, ExceptT.mk, Bind.bind, StateT.bind, ran]
          rfl
        · have none : s₂.pool.liveCount = 0 := congrArg List.length performs.2
          rw [if_neg fun left => left.2 none]
          exact performs.1
      | error cause =>
        -- What the body leaves behind may be complained of first.
        have closes : Concludes (fun _ _ => False)
            (fun d => d.ofPool = false ∨ Masks f name body s d)
            ((do finishOperation; throw cause : Lowering Unit) f s₂) := by
          refine .bind (Q := fun _ _ => True) (.run (x := get) rfl ?_) fun _ _ _ => .inl performs
          split
          · exact .inr ⟨_, _, cause, s₂, rfl, performs, ran⟩
          · trivial
        refine .bind (Q := fun _ _ => False) ?_ fun _ _ => False.elim
        change Concludes _ _ (ExceptT.tryCatch (body f) _ _)
        simp only [ExceptT.tryCatch, ExceptT.mk, Bind.bind, StateT.bind, ran]
        exact closes
  · exact refused name' failure kept

/-- A failure, and the name of the operation, are all that changes. -/
theorem Orderly.fail (h : Orderly f s) (name : String) (offset : Int) (failure : Option Failure) :
    Orderly f { s with operation := name, offset, failure } :=
  { h with }

theorem Action.leaves_fail (name : String) (offset : Int) {failure : Option Failure}
    (kept : ∀ e, s.failure = some e → failure = some e) :
    a.Leaves f s { s with operation := name, offset, failure } :=
  ⟨⟨[], 0, [], .refl _, by simp⟩, le_rfl, le_rfl, kept, fun _ => id, fun _ => .inl,
    fun _ h found => ⟨h, found, rfl⟩, fun _ _ => .inl, fun _ _ => rfl, rfl⟩

theorem Action.Leaves.refl (f : Function) (a : Action) (s : State) : a.Leaves f s s :=
  Action.leaves_fail s.operation s.offset fun _ => id

/-- What an action leaves behind does not depend on the name of the operation and the offset. -/
theorem Action.Leaves.renamed {name : String} {offset : Int}
    (h : a.Leaves f { s with operation := name, offset } s') : a.Leaves f s s' :=
  { h with }

theorem concludes_perform {op : Operation} (orderly : Orderly f s)
    (settles : ∀ s₁, Orderly f s₁ → Concludes (fun _ s' => (Action.perform op).Settles f s₁ s')
      (fun d => d.ofPool = false) (op.body f s₁)) :
    Concludes (fun _ s' => (Action.perform op).Settles f s s')
      (fun d => d.ofPool = false ∨ Masks f op.name op.body s d) (op.perform f s) := by
  refine .run (x := read) rfl <| concludes_operation (fun name failure kept => ?_) ?_
  · exact ⟨orderly.fail name s.offset failure, Action.leaves_fail name s.offset kept⟩
  · refine (settles _ (orderly.fail op.name s.offset s.failure)).imp (fun _ s' h => ?_) fun _ => id
    exact ⟨⟨h.1, h.2.renamed⟩, h.1.settled⟩

theorem settles_body {op : Operation} (region : ∀ r, op ≠ .openRegion r) (orderly : Orderly f s) :
    Concludes (fun _ s' => (Action.perform op).Settles f s s') (fun d => d.ofPool = false)
      (op.body f s) := by
  let W : Workspace := ⟨f, s.pool.base, op.Writes f, op.target?, op.Suspends, orderly.behind,
    fun i writes => ⟨(writes.persistent).1, (writes.persistent).2.trans_le orderly.behind⟩⟩
  have balanced : Balanced W op.body :=
    balanced_body region (fun _ => id) (fun _ => id) id
  have writes (s' : State) (i : Int) (h : op.Writes f i) : (Action.perform op).Writes f s' i := by
    cases op with
    | openRegion r => exact absurd rfl (region r)
    | _ => exact h
  refine (balanced.during [] s (orderly.holds (W := W) rfl)).imp (fun _ s' h => ?_) fun _ => id
  exact ⟨orderly.passed (W := W) rfl h.1 h.2, h.2.leaves rfl h.1 (writes s') fun _ => id⟩

/-! ## Regions -/

/-- A persistent slot can be taken while no temporary is. -/
theorem reserve_settled {k : Kind} (settled : s.pool.live = []) :
    ∃ p, reserve k f s = (.ok s.pool.base, { s with pool := p }) ∧ p.live = [] := by
  refine ⟨{ s.pool with
    base := s.pool.base + 1, kinds := s.pool.kinds.insert s.pool.base k,
    reserved := s.pool.base :: s.pool.reserved,
    maxLocals := max s.pool.maxLocals (s.pool.base + 1) }, ?_, settled⟩
  have empty : s.pool.live.isEmpty = true := by
    rw [settled]
    rfl
  refine (bind_of_eq_ok (x := get) (a := s) rfl).trans ?_
  rw [SlotPool.reserveBy, if_pos empty]
  rfl

theorem reserveAll_settled (slots : List Slot) (settled : s.pool.live = []) :
    ∃ kept p, (slots.mapM fun slot => do
        return (← reserve (← slotKind slot), slot) :
          Lowering (List (Int × Slot))) f s = (.ok kept, { s with pool := p }) ∧ p.live = [] := by
  induction slots generalizing s with
  | nil => exact ⟨[], s.pool, rfl, settled⟩
  | cons slot slots ih =>
    obtain ⟨kind, same⟩ : ∃ k, slotKind slot f s = (.ok k, s) := ⟨_, rfl⟩
    obtain ⟨p, took, free⟩ := reserve_settled (f := f) (k := kind) settled
    obtain ⟨kept, p', others, free'⟩ := ih (s := { s with pool := p }) free
    refine ⟨(s.pool.base, slot) :: kept, p', ?_, free'⟩
    rw [List.mapM_cons]
    have first : (do return (← reserve (← slotKind slot), slot) :
        Lowering (Int × Slot)) f s = (.ok (s.pool.base, slot), { s with pool := p }) := by
      rw [bind_of_eq_ok same, bind_of_eq_ok took]
      rfl
    rw [bind_of_eq_ok first, bind_of_eq_ok others]
    rfl

theorem Orderly.addHandler {p : SlotPool} (orderly : Orderly f s)
    (reserved : Reserved h.slots s.pool p) (settled : p.live = []) (new : h.emitted = false)
    (free : s.expected[o]? = none) :
    Orderly f { s with pool := p, handlers := s.handlers.insert o h } := by
  have base : p.base = s.pool.base + h.slots.length := reserved.base
  have more : s.pool.base ≤ p.base := by omega
  have slots (i : Int) (mem : i ∈ h.slots) : s.pool.base ≤ i ∧ i < p.base := by
    rw [reserved.consecutive, mem_slotsFrom] at mem
    omega
  have found {o' : Int} {h' : HandlerEntry} (found : (s.handlers.insert o h)[o']? = some h') :
      o' = o ∧ h' = h ∨ o' ≠ o ∧ s.handlers[o']? = some h' := by
    rw [Std.TreeMap.getElem?_insert] at found
    split at found
    · rename_i same
      exact .inl ⟨(Std.LawfulEqOrd.eq_of_compare same).symm, (Option.some.inj found).symm⟩
    · rename_i other
      exact .inr ⟨fun same => other (by rw [same]; exact Std.ReflOrd.compare_self), found⟩
  have behind := orderly.behind
  refine ⟨settled, by show _ ≤ p.base; omega, reserved.inside orderly.room, ?_, ?_, ?_, ?_, ?_, ?_⟩
  · intro i mem
    have mem : i ∈ p.persistent := List.mem_reverse.mpr mem
    rw [reserved.persistent] at mem
    show 0 ≤ i ∧ i < p.base
    rcases List.mem_append.mp mem with old | own
    · have inside := orderly.reserved i (List.mem_reverse.mp old)
      omega
    · have inside := slots i own
      have low := f.nonneg_slotBase
      omega
  · intro o' h' known i mem
    show _ ≤ i ∧ i < p.base
    rcases found known with ⟨-, rfl⟩ | ⟨-, old⟩
    · have inside := slots i mem
      omega
    · have inside := orderly.kept o' h' old i mem
      omega
  · intro o₁ o₂ h₁ h₂ known₁ known₂ other i mem mem'
    rcases found known₁ with ⟨rfl, rfl⟩ | ⟨-, old₁⟩ <;> rcases found known₂ with ⟨rfl, rfl⟩ | ⟨-, old₂⟩
    · exact other rfl
    · have inside := orderly.kept o₂ h₂ old₂ i mem'
      have own := slots i mem
      omega
    · have inside := orderly.kept o₁ h₁ old₁ i mem
      have own := slots i mem'
      omega
    · exact orderly.apart o₁ o₂ h₁ h₂ old₁ old₂ other i mem mem'
  · intro q mem i inside
    have old := orderly.frames q mem i inside
    show 0 ≤ i ∧ i < p.base
    omega
  · intro o' h' known emitted
    rcases found known with ⟨-, rfl⟩ | ⟨-, old⟩
    · rw [new] at emitted
      cases emitted
    · exact orderly.entered o' h' old emitted
  · intro o' handler
    have known : (s.handlers.insert o h).contains o' = true := handler
    rw [Std.TreeMap.contains_insert, Bool.or_eq_true] at known
    rcases known with same | old
    · obtain rfl : o = o' := by simpa using same
      exact free
    · exact orderly.guarded o' old

/-- The handler of a region is known, is added with slots of its own, or is refused. -/
theorem concludes_regionHandler {region : Region} {saved : Snapshot} (orderly : Orderly f s) :
    Concludes (fun found s₁ => found = none ∧ (∃ failure, failure ≠ none ∧
          (∀ e, s.failure = some e → failure = some e) ∧ s₁ = { s with failure }) ∨
        ∃ h, found = some h ∧ s₁.handlers[region.target]? = some h ∧ (s₁ = s ∨
          s.handlers[region.target]? = none ∧ h.emitted = false ∧ s.expected[region.target]? = none ∧
          ∃ p, Reserved h.slots s.pool p ∧
            p.live = [] ∧ s₁ = { s with pool := p, handlers := s.handlers.insert region.target h }))
      (fun d => d.ofPool = false) (regionHandler region saved f s) := by
  have fails (c : Cause) : Concludes (fun found s₁ => found = none ∧ ∃ failure, failure ≠ none ∧
        (∀ e, s.failure = some e → failure = some e) ∧ s₁ = { s with failure })
      (fun d => d.ofPool = false)
      ((do fail c; return none : Lowering (Option HandlerEntry)) f s) := by
    refine ⟨rfl, s.failure.or (some ⟨s.operation, s.offset, c⟩), ?_, fun e failed => ?_, rfl⟩
    · cases s.failure <;> simp
    · rw [failed]
      rfl
  refine .run (x := get) rfl ?_
  cases found : s.handlers[region.target]? with
  | some h =>
    dsimp only
    split
    · refine .run (x := compatible _ _) rfl ?_
      split
      · exact .inr ⟨h, rfl, found, .inl rfl⟩
      · exact (fails _).imp (fun _ _ => .inl) fun _ => id
    · exact (fails _).imp (fun _ _ => .inl) fun _ => id
  | none =>
    dsimp only
    split
    · exact (fails _).imp (fun _ _ => .inl) fun _ => id
    · rename_i free
      obtain ⟨kept, p, took, settled⟩ :=
        reserveAll_settled (f := f) saved.reverse orderly.settled
      obtain ⟨-, p', same, reserved⟩ := reserveAll_eq_ok took
      obtain rfl : p = p' := congrArg State.pool same
      refine .run took ?_
      refine .inr ⟨⟨kept, region.lasti, false⟩, rfl, ?_, .inr ⟨rfl, rfl, ?_, p, reserved, settled, rfl⟩⟩
      · exact Std.TreeMap.getElem?_insert_self
      · exact Std.TreeMap.getElem?_eq_none (by simpa using free)

theorem balanced_storeKept (may : ∀ i ∈ h.slots, W.writes i) :
    Balanced W (storeKept h) := by
  refine .forM fun p mem => .seq (W.balanced inferInstance) fun k => ⟨fun live => ?_⟩
  exact balances_store (.inl (may p.1 (List.mem_map.mpr ⟨_, List.mem_reverse.mp mem, rfl⟩))) k

theorem balanced_loadKept (inside : ∀ i ∈ h.slots, 0 ≤ i ∧ i < W.base) :
    Balanced W (loadKept h) := by
  refine .forM fun p mem => .seq (W.balanced inferInstance) fun k => ?_
  exact balanced_load (inside p.1 (List.mem_map.mpr ⟨_, mem, rfl⟩)) k

/-- A handler keeps its slots behind the source locals. -/
theorem Orderly.inside (orderly : Orderly f s) (found : s.handlers[o]? = some h) :
    ∀ i ∈ h.slots, 0 ≤ i ∧ i < s.pool.base := by
  intro i mem
  have bounds := orderly.kept o h found i mem
  have low := f.nonneg_slotBase
  omega

/-- Opening a region settles: its handler has slots of its own, in which the bottom of the stack is
kept. -/
theorem settles_openRegion {region : Region} (orderly : Orderly f s) :
    Concludes (fun _ s' => (Action.perform (.openRegion region)).Settles f s s')
      (fun d => d.ofPool = false) (openRegion region f s) := by
  have refused (failure : Option Failure) (kept : ∀ e, s.failure = some e → failure = some e) :
      (Action.perform (.openRegion region)).Settles f s { s with failure } :=
    ⟨orderly.fail s.operation s.offset failure, Action.leaves_fail s.operation s.offset kept⟩
  have fails (c : Cause) : Concludes (fun _ s' => (Action.perform (.openRegion region)).Settles f s s')
      (fun d => d.ofPool = false) (fail c f s) := by
    refine refused (s.failure.or (some ⟨s.operation, s.offset, c⟩)) fun e failed => ?_
    rw [failed]
    rfl
  refine .run (x := get) rfl ?_
  split
  · exact fails _
  refine .run (x := read) rfl ?_
  split
  · exact fails _
  split
  · exact fails _
  refine .bind (concludes_regionHandler orderly) ?_
  rintro found s₁ (⟨rfl, failure, -, kept, rfl⟩ | ⟨h, rfl, known, state⟩)
  · exact refused failure kept
  -- The state with the handler is orderly, and the rest is done in front of its slots.
  have orderly₁ : Orderly f s₁ := by
    rcases state with rfl | ⟨-, new, free, p, reserved, settled, rfl⟩
    · exact orderly
    · exact orderly.addHandler reserved settled new free
  have leaves₁ : (Action.perform (.openRegion region)).Leaves f s s₁ := by
    rcases state with rfl | ⟨none, -, -, p, reserved, -, rfl⟩
    · exact Action.leaves_fail s₁.operation s₁.offset fun _ => id
    · refine ⟨⟨[], 0, [], .refl _, by simp⟩, ?_, reserved.maxLocals, fun _ => id, fun _ => id,
        fun _ => .inl, fun o h' found => ⟨h', ?_, rfl⟩, fun _ _ => .inl, fun _ _ => rfl, rfl⟩
      · show s.pool.base ≤ p.base
        rw [reserved.base]
        omega
      · show (s.handlers.insert region.target h)[o]? = some h'
        rw [Std.TreeMap.getElem?_insert, if_neg fun same => ?_]
        · exact found
        · rw [← Std.LawfulEqOrd.eq_of_compare same, none] at found
          cases found
  let W : Workspace := ⟨f, s₁.pool.base, (· ∈ h.slots), none, False, orderly₁.behind,
    orderly₁.inside known⟩
  refine Concludes.imp (V := fun _ s' => W.Holds [] s' ∧ W.Passed s₁ s')
    (D := fun d => d.ofPool = false) ?_ (fun _ s' here => ?_) fun _ => id
  · refine Balances.bind (W := W) (W.balances inferInstance) (fun upper => ?_) s₁
      (orderly₁.holds (W := W) rfl)
    refine (balanced_storeKept fun _ => id).first fun _ => ?_
    refine (balanced_loadKept (orderly₁.inside known)).first fun _ => ?_
    refine .bind (W.balances inferInstance) fun _ => .bind (W.balances inferInstance) fun _ => ?_
    refine balanced_newLabel.first fun start => (balanced_mark start).first fun _ => ?_
    refine (balanced_offsetLabel region.stop).first fun stop => ?_
    refine (balanced_offsetLabel region.target).first fun target => ?_
    exact (balanced_tryCatch start stop target Library.baseExceptionClass).during []
  · obtain ⟨holds, passed⟩ := here
    refine ⟨orderly₁.passed (W := W) rfl holds passed, ?_⟩
    have own (i : Int) (mem : i ∈ h.slots) : (Action.perform (.openRegion region)).Writes f s' i :=
      ⟨h, by rwa [passed.handlers], mem⟩
    refine leaves₁.trans (passed.leaves rfl holds own fun _ none => by cases none) holds.base ?_
    rintro i ⟨h', found, mem⟩
    exact ⟨h', by rwa [passed.handlers], mem⟩

/-! ## Visits -/

theorem balanced_agree (found given : Snapshot) (cause : String → String → Cause) :
    Balanced W (agree found given cause) := by
  refine (balanced_compatible found given).seq fun agrees => ?_
  split
  · exact .pure true
  · exact (balanced_showStack found).seq fun _ => (balanced_showStack given).seq fun _ =>
      (Balanced.fail _).seq fun _ => .pure false

theorem balanced_agreeWith (found : Option Snapshot) (given : Snapshot)
    (cause : String → String → Cause) : Balanced W (agreeWith found given cause) := by
  cases found with
  | none => exact .pure true
  | some found => exact balanced_agree found given cause

theorem balanced_acceptAt (o : Int) (given : Snapshot) :
    Balanced W (acceptAt o given) := by
  have begins : Balanced W (beginAt o given) := by
    refine .read <| .get fun s => ?_
    split
    · refine .seq (.update (fun _ => rfl) fun s => { Workspace.Passed.refl s with }) fun _ => ?_
      exact balanced_agree _ given _
    · exact .pure true
  refine .get fun s => (balanced_agreeWith _ given _).seq fun falls => ?_
  split
  · refine (balanced_agreeWith _ given _).seq fun jumps => ?_
    split
    · exact begins
    · exact .pure false
  · exact .pure false

theorem mem_marked_insert {o' : Int} :
    (s.marked.insert o ()).contains o' = true ↔ o' = o ∨ s.marked.contains o' = true := by
  rw [Std.TreeMap.contains_insert, Bool.or_eq_true]
  refine or_congr_left ⟨fun same => ?_, ?_⟩
  · exact (Std.LawfulEqOrd.eq_of_compare (by simpa using same)).symm
  · rintro rfl
    simp

theorem settles_marked (o : Int) (given : Snapshot) (orderly : Orderly f s) :
    (Action.visit o given).Settles f s { s with marked := s.marked.insert o () } := by
  refine ⟨{ orderly with entered := fun o' h found emitted => ?_ },
    { Action.Leaves.refl f (.visit o given) s with
      marked := fun o' old => mem_marked_insert.mpr (.inr old)
      visited := fun o' new => ?_ }⟩
  · exact mem_marked_insert.mpr (.inr (orderly.entered o' h found emitted))
  · rcases mem_marked_insert.mp new with rfl | old
    · exact .inr ⟨given, rfl⟩
    · exact .inl old

theorem settles_expected (o : Int) (given : Snapshot) (orderly : Orderly f s)
    (plain : s.handlers[o]? = none) :
    (Action.visit o given).Settles f s { s with expected := s.expected.insert o given } := by
  refine ⟨{ orderly with guarded := fun o' handler => ?_ },
    { Action.Leaves.refl f (.visit o given) s with
      expected := fun o' e found => ?_
      elsewhere := fun o' other => ?_ }⟩
  · show (s.expected.insert o given)[o']? = none
    rw [Std.TreeMap.getElem?_insert, if_neg fun same => ?_]
    · exact orderly.guarded o' handler
    · rw [Std.LawfulEqOrd.eq_of_compare same] at plain
      rw [Std.TreeMap.contains_eq_isSome_getElem?, plain] at handler
      cases handler
  · show (s.expected.insert o given)[o']? = some e ∨ _
    by_cases same : o = o'
    · subst same
      exact .inr ⟨given, rfl, Std.TreeMap.getElem?_insert_self⟩
    · left
      rw [Std.TreeMap.getElem?_insert, if_neg fun eq => same (Std.LawfulEqOrd.eq_of_compare eq)]
      exact found
  · show (s.expected.insert o given)[o']? = s.expected[o']?
    rw [Std.TreeMap.getElem?_insert, if_neg fun eq => other ?_]
    exact congrArg some (Std.LawfulEqOrd.eq_of_compare eq)

/-- The workspace of a visit: at a handler the slots of exceptions may be written. -/
def Orderly.visiting (orderly : Orderly f s) (handler : Prop) : Workspace where
  function := f
  base := s.pool.base
  writes i := handler ∧ (i = f.exceptionSlot ∨ i = f.previousSlot)
  target := none
  suspends := False
  behind := orderly.behind
  persistent := by
    have behind := orderly.behind
    have low := f.nonneg_slotBase
    rintro i ⟨-, rfl | rfl⟩
    · unfold Function.exceptionSlot
      omega
    · unfold Function.previousSlot
      omega

/-- Steps in the workspace of a visit. -/
theorem Balanced.settles {x : Lowering α} (o : Int) (given : Snapshot) (handler : Prop)
    (orderly : Orderly f s) (balanced : Balanced (orderly.visiting handler) x)
    (known : handler → s.handlers.contains o = true) :
    Concludes (fun _ s' => (Action.visit o given).Settles f s s' ∧ s'.handlers = s.handlers ∧
        s'.marked = s.marked ∧ s'.pool.base = s.pool.base)
      (fun d => d.ofPool = false) (x f s) := by
  refine (balanced.during [] s (orderly.holds (W := orderly.visiting handler) rfl)).imp
    (fun _ s' here => ?_) fun _ => id
  obtain ⟨holds, passed⟩ := here
  refine ⟨⟨orderly.passed (W := orderly.visiting handler) rfl holds passed, ?_⟩, passed.handlers,
    passed.marked, holds.base⟩
  refine passed.leaves rfl holds (fun i writes => ?_) fun _ none => by cases none
  refine ⟨?_, writes.2⟩
  rw [passed.handlers]
  exact known writes.1

theorem Action.Settles.trans {s₁ : State} (h : a.Settles f s s₁) (h' : a.Settles f s₁ s')
    (base : s'.pool.base = s₁.pool.base) (writes : ∀ i, a.Writes f s₁ i → a.Writes f s' i) :
    a.Settles f s s' :=
  ⟨h'.1, h.2.trans h'.2 base writes⟩

/-- A handler at an offset that has been visited is entered. -/
theorem Orderly.enter (orderly : Orderly f s) (found : s.handlers[o]? = some h)
    (marked : s.marked.contains o = true) (name : String) :
    Orderly f { s with operation := name, handlers := s.handlers.insert o { h with emitted := true } } := by
  have older {o' : Int} {h' : HandlerEntry}
      (known : (s.handlers.insert o { h with emitted := true })[o']? = some h') :
      ∃ h₀, s.handlers[o']? = some h₀ ∧ h'.slots = h₀.slots ∧ (h' = h₀ ∨ o' = o) := by
    rw [Std.TreeMap.getElem?_insert] at known
    split at known
    · rename_i same
      cases known
      rw [← Std.LawfulEqOrd.eq_of_compare same]
      exact ⟨h, found, rfl, .inr rfl⟩
    · exact ⟨h', known, rfl, .inl rfl⟩
  refine ⟨orderly.settled, orderly.behind, orderly.room, orderly.reserved, ?_, ?_, orderly.frames, ?_, ?_⟩
  · intro o' h' known i mem
    obtain ⟨h₀, old, slots, -⟩ := older known
    exact orderly.kept o' h₀ old i (slots ▸ mem)
  · intro o₁ o₂ h₁ h₂ known₁ known₂ other i mem mem'
    obtain ⟨h₃, old₁, slots₁, -⟩ := older known₁
    obtain ⟨h₄, old₂, slots₂, -⟩ := older known₂
    exact orderly.apart o₁ o₂ h₃ h₄ old₁ old₂ other i (slots₁ ▸ mem) (slots₂ ▸ mem')
  · intro o' h' known emitted
    obtain ⟨h₀, old, -, rfl | rfl⟩ := older known
    · exact orderly.entered o' h' old emitted
    · exact marked
  · intro o' handler
    have known : (s.handlers.insert o { h with emitted := true }).contains o' = true := handler
    rw [Std.TreeMap.contains_eq_isSome_getElem?] at known
    obtain ⟨h', known⟩ := Option.isSome_iff_exists.mp known
    obtain ⟨h₀, old, -⟩ := older known
    refine orderly.guarded o' ?_
    rw [Std.TreeMap.contains_eq_isSome_getElem?, old]
    rfl

theorem settles_enterHandler (given : Snapshot) (orderly : Orderly f s)
    (found : s.handlers[o]? = some h) (marked : s.marked.contains o = true) :
    Concludes (fun _ s' => (Action.visit o given).Settles f s s' ∧ s'.handlers.contains o = true ∧
        s'.pool.base = s.pool.base)
      (fun d => d.ofPool = false) (enterHandler o h f s) := by
  have orderly₁ := orderly.enter found marked "Handler"
  have here : (s.handlers.insert o { h with emitted := true }).contains o = true := by simp
  have enters : (Action.visit o given).Leaves f s { s with
      operation := "Handler", handlers := s.handlers.insert o { h with emitted := true } } := by
    refine ⟨⟨[], 0, [], .refl _, by simp⟩, le_rfl, le_rfl, fun _ => id, fun _ => id, fun _ => .inl,
      fun o' h' known => ?_, fun _ _ => .inl, fun _ _ => rfl, rfl⟩
    show ∃ h'', (s.handlers.insert o { h with emitted := true })[o']? = some h'' ∧ h''.kept = h'.kept
    by_cases same : o = o'
    · subst same
      rw [found] at known
      cases known
      exact ⟨_, Std.TreeMap.getElem?_insert_self, rfl⟩
    · rw [Std.TreeMap.getElem?_insert, if_neg fun eq => same (Std.LawfulEqOrd.eq_of_compare eq)]
      exact ⟨h', known, rfl⟩
  refine .run (t := { s with
    operation := "Handler", handlers := s.handlers.insert o { h with emitted := true } }) rfl ?_
  refine (Balanced.settles o given True orderly₁ ?_ fun _ => here).imp
    (fun _ s' ends => ?_) fun _ => id
  · let D := (orderly₁.visiting True).discipline
    have previous : Given (D.writes D.function.previousSlot) := ⟨trivial, .inr rfl⟩
    have current : Given (D.writes D.function.exceptionSlot) := ⟨trivial, .inl rfl⟩
    have loads : D.Abides [] (loadKept h) := (balanced_loadKept (orderly.inside found)).abides
    refine Workspace.balanced fun live => .reading (D := D) (h := ?_)
    refine .next fun _ => .next fun _ => .next fun _ => .next fun _ => .next fun _ => ?_
    split
    · infer_instance
    · dsimp only
      infer_instance
    · infer_instance
  · obtain ⟨⟨orderly', leaves⟩, handlers, -, base⟩ := ends
    refine ⟨⟨orderly', enters.trans leaves base fun i writes => ⟨?_, writes.2⟩⟩, ?_, base⟩
    · rw [handlers]
      exact here
    · rw [handlers]
      exact here

theorem settles_markOffset (o : Int) (given : Snapshot) (orderly : Orderly f s) :
    Concludes (fun _ s' => (Action.visit o given).Settles f s s' ∧ s'.handlers = s.handlers ∧
        s'.marked.contains o = true ∧ s'.pool.base = s.pool.base)
      (fun d => d.ofPool = false) (markOffset o f s) := by
  have marks := settles_marked o given orderly
  refine .run (t := { s with marked := s.marked.insert o () }) rfl ?_
  refine (Balanced.settles o given False marks.1 ?_ False.elim).imp
    (fun _ s' ends => ?_) fun _ => id
  · exact (balanced_offsetLabel o).seq fun label => balanced_mark label
  · obtain ⟨settles, handlers, marked, base⟩ := ends
    refine ⟨marks.trans settles base fun i writes => ⟨?_, writes.2⟩, handlers, ?_, base⟩
    · rw [handlers]
      exact writes.1
    · rw [marked]
      exact mem_marked_insert.mpr (.inl rfl)

theorem settles_atOffset {given : Snapshot} (orderly : Orderly f s) :
    Concludes (fun _ s' => (Action.visit o given).Settles f s s') (fun d => d.ofPool = false)
      (atOffset o given f s) := by
  have keeps (name : String) (offset : Int) (failure : Option Failure)
      (kept : ∀ e, s.failure = some e → failure = some e) :
      (Action.visit o given).Settles f s { s with operation := name, offset, failure } :=
    ⟨orderly.fail name offset failure, Action.leaves_fail name offset kept⟩
  have fails (c : Cause) : Concludes (fun _ s' => (Action.visit o given).Settles f s s')
      (fun d => d.ofPool = false) (fail c f { s with operation := "At", offset := o }) := by
    refine keeps "At" o (s.failure.or (some ⟨"At", o, c⟩)) fun e failed => ?_
    rw [failed]
    rfl
  refine .run (x := hasFailed) rfl ?_
  split
  · exact keeps s.operation s.offset s.failure fun _ => id
  refine .run (t := { s with operation := "At", offset := o }) rfl <| .run (x := get) rfl ?_
  dsimp only
  split
  · exact fails _
  have begins := keeps "At" o s.failure fun _ => id
  have orderly₁ := begins.1
  cases found : s.handlers[o]? with
  | some h =>
    -- The offset is that of a handler.
    refine .run (x := get) rfl ?_
    dsimp only
    split
    · exact fails _
    refine .bind (settles_markOffset o given orderly₁) ?_
    rintro _ s₂ ⟨settles₂, handlers₂, marked₂, base₂⟩
    have found₂ : s₂.handlers[o]? = some h := by
      rw [handlers₂]
      exact found
    refine .bind (settles_enterHandler given settles₂.1 found₂ marked₂) ?_
    rintro _ s₃ ⟨settles₃, known₃, base₃⟩
    refine (Balanced.settles o given False settles₃.1 ?_ False.elim).imp
      (fun _ s' ends => ?_) fun _ => id
    · refine .seq (Workspace.balanced inferInstance) fun entry => ?_
      refine (balanced_compatible entry given).seq fun agrees => ?_
      have goes : Balanced (settles₃.1.visiting False) (resumeWith given) :=
        .update (fun _ => rfl) fun _ => Workspace.passed_update _ _ _ _ rfl le_rfl
      split
      · exact goes
      · exact (balanced_showStack entry).seq fun _ => (balanced_showStack given).seq fun _ =>
          (Balanced.fail _).seq fun _ => goes
    · obtain ⟨settles₄, handlers₄, -, base₄⟩ := ends
      have known : s'.handlers.contains o = true := by
        rw [handlers₄]
        exact known₃
      refine begins.trans (settles₂.trans (settles₃.trans settles₄ base₄ ?_) (base₄.trans base₃) ?_)
        (base₄.trans (base₃.trans base₂)) ?_ <;> exact fun i writes => ⟨known, writes.2⟩
  | none =>
    -- The snapshot must agree with those that control comes with.
    refine .bind (Balanced.settles o given False orderly₁
      (balanced_acceptAt o given) False.elim) ?_
    rintro accepted s₂ ⟨settles₂, handlers₂, -, base₂⟩
    have accepts := begins.trans settles₂ base₂ fun i writes => ⟨by rw [handlers₂]; exact writes.1, writes.2⟩
    split
    · have notes := settles_expected o given settles₂.1 (by rw [handlers₂]; exact found)
      refine .run (t := { s₂ with expected := s₂.expected.insert o given }) rfl ?_
      refine .bind (settles_markOffset o given notes.1) ?_
      rintro _ s₃ ⟨settles₃, handlers₃, -, base₃⟩
      refine (Balanced.settles (x := resumeWith given) o given False settles₃.1 ?_ False.elim).imp
        (fun _ s' ends => ?_) fun _ => id
      · exact .update (fun _ => rfl) fun _ => Workspace.passed_update _ _ _ _ rfl le_rfl
      · obtain ⟨settles₄, handlers₄, -, base₄⟩ := ends
        have same : s'.handlers = s₂.handlers := handlers₄.trans handlers₃
        refine accepts.trans (notes.trans (settles₃.trans settles₄ base₄ ?_) (base₄.trans base₃) ?_)
          (base₄.trans base₃) ?_
        · exact fun i writes => ⟨by rw [handlers₄]; exact writes.1, writes.2⟩
        · exact fun i writes => ⟨by rw [same]; exact writes.1, writes.2⟩
        · exact fun i writes => ⟨by rw [same]; exact writes.1, writes.2⟩
    · exact accepts

/-! ## Actions -/

/-- Spelling out types changes the registry alone. -/
theorem settles_spell (orderly : Orderly f s) :
    Concludes (fun _ s' => (Action.spell types).Settles f s s') (fun d => d.ofPool = false)
      ((Action.spell types).run f s) := by
  change Concludes _ _ ((resolveSnapshot types >>= fun _ => pure ()) f s)
  refine .bind (Q := fun _ s' => (Action.spell types).Settles f s s') ?_ fun _ _ settles => settles
  unfold resolveSnapshot
  split
  · rename_i resolved
    exact ⟨{ orderly with }, { Action.Leaves.refl f (.spell types) s with
      types := ((Registry.familiar_resolveAll types).known resolved).1 }⟩
  · rename_i error
    rw [(Registry.familiar_resolveAll types).stops error]
    rfl

/-- A defect of the pool that comes of an action: temporaries are left because the body of its
operation has ended with another defect. -/
def Action.Masks (f : Function) (a : Action) (s : State) (d : Defect) : Prop :=
  ∃ op, a = .perform op ∧ HostLowering.Lower.Masks f op.name op.body s d

theorem concludes_run (a : Action) (orderly : Orderly f s) :
    Concludes (fun _ s' => a.Settles f s s') (fun d => d.ofPool = false ∨ a.Masks f s d) (a.run f s) := by
  cases a with
  | visit o given => exact (settles_atOffset orderly).imp (fun _ _ => id) fun _ => .inl
  | spell types => exact (settles_spell orderly).imp (fun _ _ => id) fun _ => .inl
  | perform op =>
    refine (concludes_perform orderly fun s₁ orderly₁ => ?_).imp (fun _ _ => id)
      fun d => Or.imp_right fun masks => ⟨op, rfl, masks⟩
    by_cases region : ∃ r, op = .openRegion r
    · obtain ⟨r, rfl⟩ := region
      exact settles_openRegion orderly₁
    · exact settles_body (fun r same => region ⟨r, same⟩) orderly₁


end HostLowering.Lower
