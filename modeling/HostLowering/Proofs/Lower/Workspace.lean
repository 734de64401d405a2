import HostLowering.Proofs.Lower.Discipline

set_option autoImplicit false

/-! # The workspace of an operation

An operation takes temporaries from the pool and frees them in the opposite order. It works in a
*workspace*: temporaries stand from the base of the pool on, behind the persistent locals, of which it
may write some, and it may jump to one source offset. `Balances W live x after` says what the step `x`
does when it is begun with the temporaries `live` taken. If it ends with a value, the temporaries
`after` are taken, and its code has used no local but temporaries and persistent ones. If it ends with a
defect, that is not a defect of the pool. A step that leaves the temporaries as they are is `Balanced`.
-/

namespace HostLowering

def Machine.Line.local? : Machine.Line → Option Nat
  | load _ i | store _ i | increment i _ => some i
  | _ => none

namespace Lower

open Machine Catalog Lowering

variable {i : Int} {d : Defect}

theorem local?_of_written? {line : Line} {i : Nat} (h : line.written? = some i) :
    line.local? = some i := by
  cases line with
  | store | increment => exact h
  | _ => cases h

/-! ## Workspaces -/

/-- Temporaries fill the pool from a base on without gaps, the latest standing first. -/
def Stacked (base : Int) : List Int → Prop
  | [] => True
  | i :: rest => i = base + rest.length ∧ Stacked base rest

theorem Stacked.bounds {base : Int} {live : List Int} (h : Stacked base live) (mem : i ∈ live) :
    base ≤ i ∧ i < base + live.length := by
  induction live with
  | nil => cases mem
  | cons j rest ih =>
    obtain ⟨rfl, below⟩ := h
    rw [List.length_cons]
    rcases List.mem_cons.mp mem with rfl | mem
    · omega
    · have := ih below mem
      omega

/-- What an operation may use: temporaries from `base` on, the persistent locals that it may write,
the source offset that it may jump to, and whether it may suspend a generator. -/
structure Workspace where
  function : Function
  base : Int
  writes : Int → Prop
  target : Option Int
  suspends : Prop
  behind : function.slotBase + 2 ≤ base
  persistent : ∀ i, writes i → 0 ≤ i ∧ i < base

namespace Workspace

variable {W : Workspace} {live : List Int} {s s' s'' : State}

/-- A local that the code may read. -/
def Usable (W : Workspace) (live : List Int) (i : Int) : Prop := 0 ≤ i ∧ i < W.base ∨ i ∈ live

/-- A local that the code may write. -/
def Writable (W : Workspace) (live : List Int) (i : Int) : Prop := W.writes i ∨ i ∈ live

theorem Writable.usable (h : W.Writable live i) : W.Usable live i :=
  h.imp_left (W.persistent i)

/-- The pool while an operation works: just the temporaries `live` are taken. -/
structure Holds (W : Workspace) (live : List Int) (s : State) : Prop where
  base : s.pool.base = W.base
  taken : s.pool.live = live
  stacked : Stacked W.base live
  room : W.base + live.length ≤ s.pool.maxLocals
  reserved : ∀ i ∈ s.pool.reserved, 0 ≤ i ∧ i < W.base

/-- A line uses no local behind `room`, and writes only temporaries and what may be written. -/
def Allows (W : Workspace) (room : Int) (line : Line) : Prop :=
  (∀ i : Nat, line.local? = some i → (i : Int) < room) ∧
    ∀ i : Nat, line.written? = some i → W.base ≤ i ∨ W.writes i

theorem Allows.mono {room room' : Int} {line : Line} (h : W.Allows room line) (le : room ≤ room') :
    W.Allows room' line :=
  ⟨fun i uses => (h.1 i uses).trans_le le, h.2⟩

theorem allows_of_none {room : Int} {line : Line} (h : line.local? = none) : W.Allows room line := by
  constructor
  · intro i uses
    rw [h] at uses
    cases uses
  · intro i written
    rw [local?_of_written? written] at h
    cases h

theorem Holds.bounds (h : W.Holds live s) (usable : W.Usable live i) :
    0 ≤ i ∧ i < s.pool.maxLocals := by
  have room := h.room
  have base := W.behind
  have low := W.function.nonneg_slotBase
  rcases usable with persistent | taken
  · omega
  · have bounds := h.stacked.bounds taken
    omega

/-- What a step of an operation leaves behind. -/
structure Passed (W : Workspace) (s s' : State) : Prop where
  code : ∃ lines fresh guards, Wrote Set.univ lines fresh guards s.assembler s'.assembler ∧
    ∀ line ∈ lines, W.Allows s'.pool.maxLocals line
  room : s.pool.maxLocals ≤ s'.pool.maxLocals
  failure : ∀ e, s.failure = some e → s'.failure = some e
  offset : s'.offset = s.offset
  marked : s'.marked = s.marked
  handlers : s'.handlers = s.handlers
  expected : ∀ (o : Int) e, s.expected[o]? = some e → s'.expected[o]? = some e
  elsewhere : ∀ o : Int, W.target ≠ some o → s'.expected[o]? = s.expected[o]?
  guarded : ∀ o : Int, s.handlers.contains o = true → s'.expected[o]? = s.expected[o]?
  resumes : ∀ p ∈ s'.resumes, p ∈ s.resumes ∨ W.suspends ∧ ∀ i ∈ p.frame, 0 ≤ i ∧ i < W.base
  types : s'.registry.types = s.registry.types

theorem Passed.trans (h : W.Passed s s') (h' : W.Passed s' s'') : W.Passed s s'' where
  code := by
    obtain ⟨lines, fresh, guards, wrote, allows⟩ := h.code
    obtain ⟨lines', fresh', guards', wrote', allows'⟩ := h'.code
    refine ⟨_, _, _, wrote.trans wrote', fun line mem => ?_⟩
    rcases List.mem_append.mp mem with old | new
    · exact (allows line old).mono h'.room
    · exact allows' line new
  room := h.room.trans h'.room
  failure e failed := h'.failure e (h.failure e failed)
  offset := h'.offset.trans h.offset
  marked := h'.marked.trans h.marked
  handlers := h'.handlers.trans h.handlers
  expected o e found := h'.expected o e (h.expected o e found)
  elsewhere o other := (h'.elsewhere o other).trans (h.elsewhere o other)
  guarded o handler := (h'.guarded o (by rwa [h.handlers])).trans (h.guarded o handler)
  resumes p mem := (h'.resumes p mem).elim (h.resumes p) .inr
  types := h'.types.trans h.types

/-- Nothing but the snapshot, the registry, the pool and the code changes. -/
theorem passed_emit {lines : List Line} {fresh : Nat} {guards : List PendingHandler}
    (code : Assembler) (wrote : Wrote Set.univ lines fresh guards s.assembler code)
    (stack : Snapshot) (registry : Registry) (reachable : Bool) (pool : SlotPool)
    (types : registry.types = s.registry.types) (room : s.pool.maxLocals ≤ pool.maxLocals)
    (allows : ∀ line ∈ lines, W.Allows pool.maxLocals line) :
    W.Passed s { s with assembler := code, stack, registry, reachable, pool } :=
  ⟨⟨lines, fresh, guards, wrote, allows⟩, room, fun _ failed => failed, rfl, rfl, rfl,
    fun _ _ found => found, fun _ _ => rfl, fun _ _ => rfl, fun _ mem => .inl mem, types⟩

theorem passed_update (stack : Snapshot) (registry : Registry) (reachable : Bool) (pool : SlotPool)
    (types : registry.types = s.registry.types) (room : s.pool.maxLocals ≤ pool.maxLocals) :
    W.Passed s { s with stack, registry, reachable, pool } :=
  passed_emit s.assembler (.refl _) stack registry reachable pool types room (by simp)

theorem Passed.refl (s : State) : W.Passed s s :=
  passed_update s.stack s.registry s.reachable s.pool rfl le_rfl

end Workspace

/-! ## Steps -/

/-- What holds of the result of a run: one property if there is a value, another if there is a
defect. -/
def Concludes {α : Type} (value : α → State → Prop) (defect : Defect → Prop) :
    Except Defect α × State → Prop
  | (.ok a, s) => value a s
  | (.error d, _) => defect d

/-- A step leads from some temporaries to others, and ends with no defect of the pool. -/
def Balances {α : Type} (W : Workspace) (live : List Int) (x : Lowering α) (after : α → List Int) :
    Prop :=
  ∀ s, W.Holds live s →
    Concludes (fun a s' => W.Holds (after a) s' ∧ W.Passed s s') (fun d => d.ofPool = false)
      (x W.function s)

theorem Concludes.bind {α β : Type} {f : Function} {s : State} {x : Lowering α} {k : α → Lowering β}
    {Q : α → State → Prop} {V : β → State → Prop} {D : Defect → Prop} (h : Concludes Q D (x f s))
    (h' : ∀ a s₁, Q a s₁ → Concludes V D (k a f s₁)) : Concludes V D ((x >>= k) f s) := by
  cases run : x f s with
  | mk r s₁ =>
    rw [run] at h
    cases r with
    | error d =>
      rw [bind_of_eq_error run]
      exact h
    | ok a =>
      rw [bind_of_eq_ok run]
      exact h' a s₁ h

/-- What a run leaves behind, when something was done before it. -/
theorem Concludes.after {α : Type} {W : Workspace} {s s₁ : State} {live : α → List Int}
    {r : Except Defect α × State} (passed : W.Passed s s₁)
    (h : Concludes (fun a s' => W.Holds (live a) s' ∧ W.Passed s₁ s') (fun d => d.ofPool = false) r) :
    Concludes (fun a s' => W.Holds (live a) s' ∧ W.Passed s s') (fun d => d.ofPool = false) r := by
  obtain ⟨r, s'⟩ := r
  cases r with
  | error d => exact h
  | ok a => exact ⟨h.1, passed.trans h.2⟩

/-- A step leaves the temporaries as they are. -/
structure Balanced {α : Type} (W : Workspace) (x : Lowering α) : Prop where
  during : ∀ live, Balances W live x fun _ => live

variable {α β : Type} {W : Workspace} {live : List Int} {x : Lowering α} {mid : α → List Int}
  {after : β → List Int} {s : State}

namespace Balances

theorem bind {k : α → Lowering β} (h : Balances W live x mid)
    (h' : ∀ a, Balances W (mid a) (k a) after) : Balances W live (x >>= k) after := by
  intro s holds
  exact .bind (h s holds) fun a s₁ here => (h' a s₁ here.1).after here.2

theorem ret (a : α) (same : mid a = live) : Balances W live (Pure.pure a) mid := by
  intro s holds
  subst same
  exact ⟨holds, .refl s⟩

theorem defect (h : d.ofPool = false) : Balances W live (defect d : Lowering β) after := by
  intro s _
  exact h

/-- A step that reads the state. -/
theorem get {k : State → Lowering β} (h : ∀ s, W.Holds live s → Balances W live (k s) after) :
    Balances W live (MonadStateOf.get >>= k) after := by
  intro s holds
  exact h s holds s holds

/-- What a run that ends with a value leaves behind. -/
theorem eq_ok {a : α} {s' : State} (h : Balances W live x mid) (holds : W.Holds live s)
    (run : x W.function s = (.ok a, s')) : W.Holds (mid a) s' ∧ W.Passed s s' := by
  have outcome := h s holds
  rwa [run] at outcome

/-- A run does not end with a defect of the pool. -/
theorem eq_error {s' : State} (h : Balances W live x mid) (holds : W.Holds live s)
    (run : x W.function s = (.error d, s')) : d.ofPool = false := by
  have outcome := h s holds
  rwa [run] at outcome

end Balances

namespace Balanced

theorem eq_ok {a : α} {s' : State} (h : Balanced W x) (holds : W.Holds live s)
    (run : x W.function s = (.ok a, s')) : W.Holds live s' ∧ W.Passed s s' :=
  (h.during live).eq_ok holds run

theorem eq_error {s' : State} (h : Balanced W x) (holds : W.Holds live s)
    (run : x W.function s = (.error d, s')) : d.ofPool = false :=
  (h.during live).eq_error holds run

/-- A step that leaves the temporaries as they are comes first. -/
theorem first {k : α → Lowering β} (h : Balanced W x) (h' : ∀ a, Balances W live (k a) after) :
    Balances W live (x >>= k) after :=
  (h.during live).bind h'

theorem seq {k : α → Lowering β} (h : Balanced W x) (h' : ∀ a, Balanced W (k a)) : Balanced W (x >>= k) :=
  ⟨fun live => h.first fun a => (h' a).during live⟩

theorem pure (a : α) : Balanced W (Pure.pure a) := ⟨fun _ => .ret a rfl⟩

theorem read {k : Function → Lowering β} (h : Balanced W (k W.function)) :
    Balanced W (MonadReaderOf.read >>= k) :=
  ⟨h.during⟩

theorem get {k : State → Lowering β} (h : ∀ s, Balanced W (k s)) :
    Balanced W (MonadStateOf.get >>= k) :=
  ⟨fun live => .get fun s _ => (h s).during live⟩

/-- A step that reads the state. -/
theorem reads (h : ∀ s, ∃ a, x W.function s = (.ok a, s)) : Balanced W x := by
  refine ⟨fun live s holds => ?_⟩
  obtain ⟨a, run⟩ := h s
  rw [run]
  exact ⟨holds, .refl s⟩

/-- A change of the state that leaves the pool alone. -/
theorem update {g : State → State} (pool : ∀ s, (g s).pool = s.pool)
    (passed : ∀ s, W.Passed s (g s)) : Balanced W (modify g : Lowering Unit) := by
  refine ⟨fun live s holds => ?_⟩
  refine ⟨⟨?_, ?_, holds.stacked, ?_, ?_⟩, passed s⟩
  · rw [pool s]
    exact holds.base
  · rw [pool s]
    exact holds.taken
  · rw [pool s]
    exact holds.room
  · rw [pool s]
    exact holds.reserved

/-- The first failure is kept. -/
theorem fail (e : Cause) : Balanced W (fail e) := by
  refine .update (fun _ => rfl) fun s => { Workspace.Passed.refl s with failure := fun e failed => ?_ }
  show s.failure.or _ = some e
  rw [failed]
  rfl

theorem forM {xs : List α} {g : α → Lowering Unit} (h : ∀ y ∈ xs, Balanced W (g y)) :
    Balanced W (xs.forM g) := by
  induction xs with
  | nil => exact .pure ()
  | cons y xs ih =>
    refine (h y List.mem_cons_self).seq fun _ => ?_
    exact ih fun z hz => h z (List.mem_cons_of_mem y hz)

end Balanced

/-! ## Instructions -/

/-- A step of the assembler that writes lines, all of which are allowed. -/
theorem Balances.assemble {step : Asm α} (lines : List Line) (fresh : Nat)
    (guards : List PendingHandler) (clean : Clean step)
    (wrote : ∀ a y a', step a = .ok (y, a') → Wrote Set.univ lines fresh guards a a')
    (allows : ∀ s, W.Holds live s → ∀ line ∈ lines, W.Allows s.pool.maxLocals line) :
    Balances W live (Lowering.assemble step) fun _ => live := by
  intro s holds
  unfold Lowering.assemble
  dsimp only
  cases run : step s.assembler with
  | error d => exact clean _ d run
  | ok r =>
    obtain ⟨y, a⟩ := r
    refine ⟨{ holds with }, ?_⟩
    exact Workspace.passed_emit a (wrote _ y a run) _ _ _ _ rfl le_rfl (allows s holds)

theorem Balances.line {step : Asm Unit} (line : Line) (clean : Clean step)
    (wrote : ∀ a a', step a = .ok ((), a') → Wrote Set.univ [line] 0 [] a a')
    (allows : ∀ s, W.Holds live s → W.Allows s.pool.maxLocals line) :
    Balances W live (Lowering.assemble step) fun _ => live := by
  refine .assemble [line] 0 [] clean (fun a _ a' done => wrote a a' done) fun s holds l mem => ?_
  rw [List.mem_singleton] at mem
  subst mem
  exact allows s holds

/-- A step of the assembler that writes one line, which uses no local. -/
theorem Balanced.line {step : Asm Unit} (line : Line) (clean : Clean step)
    (wrote : ∀ a a', step a = .ok ((), a') → Wrote Set.univ [line] 0 [] a a')
    (quiet : line.local? = none) : Balanced W (Lowering.assemble step) :=
  ⟨fun _ => .line line clean wrote fun _ _ => Workspace.allows_of_none quiet⟩

/-- A line that reads a local which may be used, or writes one which may be written. -/
theorem Workspace.Holds.allows {line : Line} (holds : W.Holds live s) (usable : W.Usable live i)
    (uses : line.local? = some i.toNat) (writable : line.written?.isSome → W.Writable live i) :
    W.Allows s.pool.maxLocals line := by
  have bounds := holds.bounds usable
  constructor
  · intro j hj
    rw [uses] at hj
    cases hj
    omega
  · intro j hj
    have same := local?_of_written? hj
    rw [uses] at same
    cases same
    rw [Int.toNat_of_nonneg bounds.1]
    rcases writable (by rw [hj]; rfl) with persistent | taken
    · exact .inr persistent
    · exact .inl (holds.stacked.bounds taken).1

theorem balances_load (usable : W.Usable live i) (k : Kind) :
    Balances W live (load i k) fun _ => live := by
  refine .line (.load k i.toNat) (clean_modify _) (fun a a' done => ?_) fun s holds => ?_
  · cases done
    exact wrote_load
  · exact holds.allows usable rfl (by simp [Line.written?])

/-- A persistent local is there whatever temporaries are taken. -/
theorem balanced_load (persistent : 0 ≤ i ∧ i < W.base) (k : Kind) :
    Balanced W (load i k) :=
  ⟨fun _ => balances_load (.inl persistent) k⟩

theorem balanced_loadRef (persistent : 0 ≤ i ∧ i < W.base) : Balanced W (loadRef i) :=
  balanced_load persistent .ref

theorem balances_store (writable : W.Writable live i) (k : Kind) :
    Balances W live (store i k) fun _ => live := by
  refine .line (.store k i.toNat) (clean_modify _) (fun a a' done => ?_) fun s holds => ?_
  · cases done
    exact wrote_store
  · exact holds.allows writable.usable rfl fun _ => writable

theorem balances_storeRef (writable : W.Writable live i) :
    Balances W live (storeRef i) fun _ => live :=
  balances_store writable .ref

theorem balances_increment (writable : W.Writable live i) :
    Balances W live (increment i) fun _ => live := by
  refine .line (.increment i.toNat (signed8 (Assembler.lowByte 1).toNat)) (clean_modify _)
    (fun a a' done => ?_) fun s holds => ?_
  · cases done
    exact wrote_emitIncrement a i 1
  · exact holds.allows writable.usable rfl fun _ => writable

theorem balanced_newLabel : Balanced W newLabel := by
  constructor
  intro live
  refine .assemble [] 1 [] clean_newLabel (fun a y a' done => ?_) (by simp)
  cases done
  exact wrote_newLabel a

theorem balanced_mark (l : Label) : Balanced W (mark l) :=
  .line (.mark l) (clean_mark l) (fun _ _ done => wrote_mark done) rfl

theorem balanced_branch {op : Opcode} (shape : op.shape = .branch) (l : Label) :
    Balanced W (branch op l) :=
  .line (.branch op l) (clean_jump op l) (fun _ _ done => wrote_jump done shape) rfl

theorem balanced_tryCatch (start stop target : Label) (cls : String) :
    Balanced W (tryCatch start stop target cls) := by
  constructor
  intro live
  refine .assemble [] 0 [⟨start, stop, target, cls⟩] (clean_modify _) (fun a y a' done => ?_) (by simp)
  cases done
  exact wrote_tryCatch a _

theorem balanced_offsetLabel (o : Int) : Balanced W (offsetLabel o) := by
  refine .get fun s => ?_
  split
  · exact .pure _
  · refine balanced_newLabel.seq fun l => .seq (.update (fun _ => rfl) fun s => ?_) fun _ => .pure l
    exact { Workspace.Passed.refl s with }

theorem balanced_showStack (st : Snapshot) : Balanced W (showStack st) := .reads fun _ => ⟨_, rfl⟩

theorem balanced_compatible (a b : Snapshot) : Balanced W (compatible a b) :=
  .reads fun _ => ⟨_, rfl⟩

/-! ## Temporaries -/

theorem balances_alloc (k : Kind) : Balances W live (alloc k) fun i => i :: live := by
  intro s holds
  have index : s.pool.base + s.pool.live.length = W.base + live.length := by
    rw [holds.base, holds.taken]
  refine ⟨⟨holds.base, ?_, ⟨index, holds.stacked⟩, ?_, holds.reserved⟩, ?_⟩
  · show _ :: s.pool.live = _
    rw [holds.taken]
  · show W.base + _ ≤ max s.pool.maxLocals (s.pool.base + s.pool.live.length + 1)
    rw [index, List.length_cons]
    omega
  · exact Workspace.passed_update _ _ _ _ rfl (le_max_left _ _)

/-- The latest temporary can be freed. -/
theorem balances_free (i : Int) : Balances W (i :: live) (free i) fun _ => live := by
  intro s holds
  have frees : free i W.function s =
      (.ok (), { s with pool := { s.pool with live := live } }) := by
    refine (bind_of_eq_ok (x := get) (a := s) rfl).trans ?_
    have freed : s.pool.free i = .ok { s.pool with live := live } := by
      unfold SlotPool.free
      rw [holds.taken]
      exact if_pos rfl
    rw [freed]
    rfl
  rw [frees]
  have room := holds.room
  rw [List.length_cons] at room
  refine ⟨⟨holds.base, rfl, holds.stacked.2, ?_, holds.reserved⟩,
    Workspace.passed_update _ _ _ _ rfl le_rfl⟩
  show W.base + live.length ≤ s.pool.maxLocals
  omega

end Lower

end HostLowering
