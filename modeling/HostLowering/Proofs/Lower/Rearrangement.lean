import HostLowering.Proofs.Lower.Balance.Session

set_option autoImplicit false

/-! # Rearranging the stack

Six operations move slots and do nothing else. Small depths are served by the shuffles of the host;
for larger ones slots go to temporaries and come back in another order. The snapshot is rearranged
beside the code, by a computation of its own. Here both are compared with one function on lists
(`Shuffle.apply`): what it makes of the slots of the snapshot the code makes of the values on the host
stack (`shuffle_rearranges`). `Turns zs held x zs' held'` follows both at once: the step `x` makes the
entries `zs'` of the entries `zs` on top, each a slot with its value, and of what the temporaries `held`
hold it leaves `held'`.
-/

namespace HostLowering.Lower

open Machine Object Catalog Lowering

variable {c : Source} {r : Registry} {s s₁ s' : State} {lines : List Line}

/-! ## Shuffles -/

/-- The operations that only move slots. Depths count from the top. -/
inductive Shuffle where
  | swap | rotate3 | rotate4
  | duplicate (depth : Nat) | bury (depth : Nat) | exchange (depth : Nat)
deriving DecidableEq, Repr

namespace Shuffle

def operation : Shuffle → Operation
  | swap => .swap
  | rotate3 => .rotate3
  | rotate4 => .rotate4
  | duplicate depth => .duplicate depth
  | bury depth => .bury depth
  | exchange depth => .exchange depth

/-- The number of slots from the top that a shuffle looks at. -/
def reach : Shuffle → Nat
  | swap => 2
  | rotate3 => 3
  | rotate4 => 4
  | duplicate depth | bury depth | exchange depth => depth + 1

/-- What a shuffle makes of a stack, given from the top down. -/
def apply {α : Type} : Shuffle → List α → List α
  | swap, b :: a :: rest => a :: b :: rest
  | rotate3, c :: b :: a :: rest => b :: a :: c :: rest
  | rotate4, d :: c :: b :: a :: rest => c :: b :: a :: d :: rest
  | duplicate depth, xs => xs[depth]?.toList ++ xs
  | bury depth, x :: rest => rest.take depth ++ x :: rest.drop depth
  | exchange depth, x :: rest =>
    match (x :: rest)[depth]? with
    | some y => ((x :: rest).set depth x).set 0 y
    | none => x :: rest
  | _, xs => xs

section Apply

variable {α β : Type} {x y : α} {depth : Nat}

theorem apply_duplicate {xs : List α} (length : xs.length = depth) :
    (duplicate depth).apply (xs ++ [x]) = x :: (xs ++ [x]) := by
  simp [apply, ← length]

theorem apply_bury {under : List α} (length : under.length = depth) :
    (bury depth).apply (x :: under) = under ++ [x] := by
  simp [apply, ← length]

theorem apply_exchange {between : List α} (length : between.length = depth) :
    (exchange (depth + 1)).apply (x :: (between ++ [y])) = y :: (between ++ [x]) := by
  simp [apply, ← length]

/-- A shuffle does not look at what it moves. -/
theorem map_apply (g : α → β) (k : Shuffle) (xs : List α) :
    (k.apply xs).map g = k.apply (xs.map g) := by
  cases k with
  | swap => rcases xs with _ | ⟨_, _ | ⟨_, _⟩⟩ <;> rfl
  | rotate3 => rcases xs with _ | ⟨_, _ | ⟨_, _ | ⟨_, _⟩⟩⟩ <;> rfl
  | rotate4 => rcases xs with _ | ⟨_, _ | ⟨_, _ | ⟨_, _ | ⟨_, _⟩⟩⟩⟩ <;> rfl
  | duplicate depth => cases found : xs[depth]? <;> simp [apply, found]
  | bury depth => cases xs <;> simp [apply]
  | exchange depth =>
    obtain _ | ⟨x, rest⟩ := xs
    · rfl
    · have moved : (g x :: rest.map g)[depth]? = (x :: rest)[depth]?.map g := by
        rw [← List.map_cons, List.getElem?_map]
      simp only [apply, List.map_cons, moved]
      cases (x :: rest)[depth]? with
      | none => rfl
      | some y => simp [List.map_set]

end Apply

end Shuffle

/-! ## Slots and values together -/

/-- A slot of the snapshot, and the value that the host stack has in its place. -/
abbrev Entry := Slot × Value

/-- A temporary, and the value that it holds. -/
abbrev Holding := Temp × Value

/-- What is spilled to a temporary. -/
def Holding.entry (h : Holding) : Entry := (h.1.slot, h.2)

variable {z : Entry} {zs zs₁ zs' : List Entry} {held held₁ held' : List Holding} {under : Snapshot}

/-- Where a step begins: the slots of entries are on top, and the temporaries taken, the latest first,
are those that hold something. -/
structure Poised (zs : List Entry) (under : Snapshot) (held : List Holding) (s : State) : Prop where
  stack : s.stack = zs.map Prod.fst ++ under
  live : s.pool.live = held.map fun h => h.1.index
  stacked : Stacked s.pool.base s.pool.live
  nonneg : 0 ≤ s.pool.base

def Stowed (held : List Holding) (locals : Array Value) : Prop :=
  ∀ h ∈ held, locals[h.1.index.toNat]? = some h.2

/-- Two arrays of locals of one size that agree below a local. -/
structure SameBelow (below : Int) (locals locals' : Array Value) : Prop where
  size : locals'.size = locals.size
  same : ∀ n : Nat, (n : Int) < below → locals'[n]? = locals[n]?

/-- The code between two states does to the values on the host stack what has been done to the slots,
and writes temporaries only. -/
def Carries (c : Source) (zs : List Entry) (held : List Holding) (s : State) (zs' : List Entry)
    (held' : List Holding) (s' : State) : Prop :=
  ∃ lines, Worked c lines s s' ∧
    ∀ locals : Array Value, s'.pool.maxLocals ≤ locals.size → Stowed held locals →
      ∃ locals', SameBelow s.pool.base locals locals' ∧ Stowed held' locals' ∧
        ∀ call pool code stack w,
          exec call pool (lines ++ code) none (zs.map Prod.snd ++ stack) locals w =
            exec call pool code none (zs'.map Prod.snd ++ stack) locals' w

theorem Worked.base (h : Worked c lines s s') : s'.pool.base = s.pool.base := by
  obtain ⟨a, st, p, rfl, -, base, -⟩ := h
  exact base

theorem Carries.trans (h : Carries c zs held s zs₁ held₁ s₁)
    (h' : Carries c zs₁ held₁ s₁ zs' held' s') : Carries c zs held s zs' held' s' := by
  obtain ⟨lines, worked, carries⟩ := h
  obtain ⟨lines', worked', carries'⟩ := h'
  refine ⟨lines ++ lines', worked.trans worked', fun locals room holds => ?_⟩
  obtain ⟨locals₁, agree, holds₁, runs⟩ := carries locals (worked'.maxLocals.trans room) holds
  obtain ⟨locals', agree', holds', runs'⟩ := carries' locals₁ (agree.size ▸ room) holds₁
  refine ⟨locals', ⟨agree'.size.trans agree.size, fun n lt => ?_⟩, holds',
    fun call pool code stack w => ?_⟩
  · rw [agree'.same n (worked.base ▸ lt), agree.same n lt]
  · rw [List.append_assoc, runs, runs']

theorem Carries.of_exec (worked : Worked c lines s s') (sub : ∀ h ∈ held', h ∈ held)
    (runs : ∀ locals, Stowed held locals → ∀ call pool code stack w,
      exec call pool (lines ++ code) none (zs.map Prod.snd ++ stack) locals w =
        exec call pool code none (zs'.map Prod.snd ++ stack) locals w) :
    Carries c zs held s zs' held' s' :=
  ⟨lines, worked, fun locals _ holds =>
    ⟨locals, ⟨rfl, fun _ _ => rfl⟩, fun h mem => holds h (sub h mem), runs locals holds⟩⟩

def State.nextTemp (s : State) (slot : Slot) : Temp := ⟨s.pool.base + s.pool.live.length, slot⟩

def State.spilled (s : State) (slot : Slot) : State :=
  let kind := slot.kind s.registry
  { s with
    stack := s.stack.tail
    pool := (s.pool.allocBy id kind).2
    assembler := s.assembler.emitLocal (.store kind) (s.nextTemp slot).index }

theorem Poised.eq_stack (poised : Poised zs under held s) :
    s = { s with stack := zs.map Prod.fst ++ under } := by
  rw [← poised.stack]

theorem Poised.spilled (poised : Poised (z :: zs) under held s) :
    Poised zs under ((s.nextTemp z.1, z.2) :: held) (s.spilled z.1) :=
  ⟨congrArg List.tail poised.stack, congrArg (_ :: ·) poised.live, ⟨rfl, poised.stacked⟩, poised.nonneg⟩

theorem Poised.carries_spilled (poised : Poised (z :: zs) under held s) :
    Carries c (z :: zs) held s zs ((s.nextTemp z.1, z.2) :: held) (s.spilled z.1) := by
  let i := s.pool.base + s.pool.live.length
  have nonneg := poised.nonneg
  refine ⟨[.store (z.1.kind s.registry) i.toNat], ?_, fun locals room holds => ?_⟩
  · have wrote := (Emitted.of (c := c) (s := s) (x := store i (z.1.kind s.registry)) rfl).wrote
    exact ⟨_, _, _, rfl, wrote, rfl, rfl, le_max_left _ _⟩
  have inside : i.toNat < locals.size := by
    have lt : i + 1 ≤ (s.spilled z.1).pool.maxLocals := le_max_right _ _
    omega
  refine ⟨locals.setIfInBounds i.toNat z.2, ⟨Array.size_setIfInBounds, fun n lt => ?_⟩,
    fun h mem => ?_, fun call pool code stack w => exec_store inside⟩
  · exact Array.getElem?_setIfInBounds_ne (by omega)
  obtain _ | ⟨_, mem⟩ := mem
  · exact Array.getElem?_setIfInBounds_self_of_lt inside
  · -- the other temporaries stand below the new one
    have bounds := poised.stacked.bounds (poised.live ▸ List.mem_map_of_mem mem)
    rw [Array.getElem?_setIfInBounds_ne (by omega)]
    exact holds h mem

/-- A step succeeds, and it moves slots and values alike. -/
def Turns (c : Source) (zs : List Entry) (held : List Holding) (x : Lowering Unit) (zs' : List Entry)
    (held' : List Holding) : Prop :=
  ∀ s under, Poised zs under held s → ∃ s', x c.function s = (.ok (), s') ∧ Poised zs' under held' s' ∧
    Carries c zs held s zs' held' s'

namespace Turns

variable {x y : Lowering Unit}

theorem done : Turns c zs held (pure ()) zs held :=
  fun s _ poised => ⟨s, rfl, poised, .of_exec (.refl s) (fun _ mem => mem) fun _ _ _ _ _ _ _ => rfl⟩

theorem seq {k : Unit → Lowering Unit} (h : Turns c zs held x zs₁ held₁)
    (h' : Turns c zs₁ held₁ (k ()) zs' held') : Turns c zs held (x >>= k) zs' held' := by
  intro s under poised
  obtain ⟨s₁, run, poised₁, carries⟩ := h s under poised
  obtain ⟨s', run', poised', carries'⟩ := h' s₁ under poised₁
  exact ⟨s', (bind_of_eq_ok run).trans run', poised', carries.trans carries'⟩

/-- Lines come first that write no local. -/
theorem first (lines : Registry → List Line) (h : Turns c zs₁ held y zs' held')
    (run : ∀ (s : State) under, ∃ a, x c.function { s with stack := zs.map Prod.fst ++ under } =
      y c.function { s with assembler := a, stack := zs₁.map Prod.fst ++ under } ∧
        Wrote c.refs (lines s.registry) 0 [] s.assembler a)
    (runs : ∀ r locals, Stowed held locals → ∀ call pool code stack w,
      exec call pool (lines r ++ code) none (zs.map Prod.snd ++ stack) locals w =
        exec call pool code none (zs₁.map Prod.snd ++ stack) locals w) :
    Turns c zs held x zs' held' := by
  intro s under poised
  obtain ⟨a, same, wrote⟩ := run s under
  rw [← poised.stack] at same
  let s₁ : State := { s with assembler := a, stack := zs₁.map Prod.fst ++ under }
  have carries : Carries c zs held s zs₁ held s₁ :=
    .of_exec ⟨a, _, s.pool, rfl, wrote, rfl, rfl, le_rfl⟩ (fun _ mem => mem) (runs _)
  obtain ⟨s', run, poised', carries'⟩ := h s₁ under ⟨rfl, poised.live, poised.stacked, poised.nonneg⟩
  exact ⟨s', same.trans run, poised', carries.trans carries'⟩

/-- Opcodes come first, and then the snapshot follows. -/
theorem plain (ops : List Opcode) [Plains ops] {k : Unit → Lowering Unit}
    (h : Turns c zs₁ held y zs' held')
    (move : ∀ (s : State) under, k () c.function { s with stack := zs.map Prod.fst ++ under } =
      y c.function { s with stack := zs₁.map Prod.fst ++ under })
    (runs : ∀ call pool code stack locals w,
      exec call pool (ops.map .plain ++ code) none (zs.map Prod.snd ++ stack) locals w =
        exec call pool code none (zs₁.map Prod.snd ++ stack) locals w) :
    Turns c zs held (emit ops >>= k) zs' held' := by
  have emits (s : State) : ∃ a, emit ops c.function s =
      (.ok (), { s with assembler := a }) := by
    clear * -
    induction ops generalizing s with
    | nil => exact ⟨s.assembler, rfl⟩
    | cons op ops ih =>
      obtain ⟨a, run⟩ := ih { s with assembler := s.assembler.emit op }
      exact ⟨a, (bind_of_eq_ok (x := assemble (Asm.emit op)) rfl).trans run⟩
  refine first (fun _ => ops.map .plain) h (fun s under => ?_)
    fun _ locals _ call pool code stack w => runs call pool code stack locals w
  obtain ⟨a, run⟩ := emits { s with stack := zs.map Prod.fst ++ under }
  exact ⟨a, (bind_of_eq_ok run).trans (move { s with assembler := a } under), (Emitted.of run).wrote⟩

theorem spillMany {top : List Entry} {k : List Temp → Lowering Unit}
    (h : ∀ hs : List Holding, hs.map Holding.entry = top →
      Turns c zs (hs.reverse ++ held) (k (hs.map Prod.fst)) zs' held') :
    Turns c (top ++ zs) held (Lowering.spillMany top.length >>= k) zs' held' := by
  induction top generalizing held k with
  | nil => exact h [] rfl
  | cons z top ih =>
    intro s under poised
    have first : (Lowering.spillMany (z :: top).length >>= k) c.function s =
        (Lowering.spillMany top.length >>= fun ts => k (s.nextTemp z.1 :: ts)) c.function
          (s.spilled z.1) := by
      rw [poised.eq_stack, List.length_cons, Lowering.spillMany]
      simp only [bind_assoc, pure_bind]
      rfl
    have later : Turns c (top ++ zs) ((s.nextTemp z.1, z.2) :: held)
        (Lowering.spillMany top.length >>= fun ts => k (s.nextTemp z.1 :: ts)) zs' held' := by
      refine ih fun hs same => ?_
      have all := h ((s.nextTemp z.1, z.2) :: hs) (by rw [List.map_cons, same]; rfl)
      rwa [List.reverse_cons, List.append_assoc] at all
    obtain ⟨s', run, poised', carries⟩ := later _ under poised.spilled
    exact ⟨s', first.trans run, poised', poised.carries_spilled.trans carries⟩

theorem spill {n : Int} (top : List Entry) {k : List Temp → Lowering Unit} (count : n = top.length)
    (h : ∀ hs : List Holding, hs.map Holding.entry = top →
      Turns c zs (hs.reverse ++ held) (k (hs.map Prod.fst)) zs' held') :
    Turns c (top ++ zs) held (Lowering.spill n >>= k) zs' held' := by
  intro s under poised
  have enough : 0 ≤ n ∧ n ≤ s.stack.length := by
    rw [poised.stack, List.length_append, List.length_map, List.length_append]
    omega
  obtain ⟨s', run, rest⟩ := spillMany h s under poised
  refine ⟨s', ?_, rest⟩
  rw [Lowering.spill, bind_assoc]
  refine (bind_of_eq_ok (x := stack) (a := s.stack) rfl).trans ?_
  rw [if_pos enough, count]
  exact run

theorem spillAll {n : Int} {k : List Temp → Lowering Unit} (count : n = zs.length)
    (h : ∀ hs : List Holding, hs.map Holding.entry = zs →
      Turns c [] (hs.reverse ++ held) (k (hs.map Prod.fst)) zs' held') :
    Turns c zs held (Lowering.spill n >>= k) zs' held' := by
  have spilled := spill zs count h
  rwa [List.append_nil] at spilled

/-- Each time what a temporary holds is put under some entries, the last temporary first. -/
theorem each (hs : List Holding) {g : Temp → Lowering Unit} (sub : ∀ h ∈ hs, h ∈ held)
    (top : List Entry)
    (step : ∀ h ∈ held, ∀ zs, Turns c (top ++ zs) held (g h.1) (top ++ h.entry :: zs) held) :
    Turns c (top ++ zs) held ((hs.map Prod.fst).reverse.forM g)
      (top ++ (hs.map Holding.entry ++ zs)) held := by
  have all (us : List Holding) (zs : List Entry) (sub : ∀ h ∈ us, h ∈ held) : Turns c (top ++ zs) held
      ((us.map Prod.fst).forM g) (top ++ ((us.map Holding.entry).reverse ++ zs)) held := by
    induction us generalizing zs with
    | nil => exact done
    | cons u us ih =>
      rw [List.map_cons, List.map_cons, List.reverse_cons, List.append_assoc]
      obtain ⟨first, later⟩ := List.forall_mem_cons.mp sub
      exact (step u first zs).seq (ih _ later)
  have loop := all hs.reverse zs fun h mem => sub h (List.mem_reverse.mp mem)
  rwa [List.map_reverse, List.map_reverse, List.reverse_reverse] at loop

end Turns

theorem turns_reloadTemp {h : Holding} (mem : h ∈ held) :
    Turns c zs held (reloadTemp h.1) (h.entry :: zs) held := by
  refine .first (fun r => [.load (h.1.slot.kind r) h.1.index.toNat]) .done
    (fun s _ => ⟨_, rfl, ?_⟩) fun _ _ holds _ _ _ _ _ => exec_load (holds h mem)
  exact (Emitted.of (s := s) (x := load h.1.index (h.1.slot.kind s.registry)) rfl).wrote

theorem turns_reload (hs : List Holding) (sub : ∀ h ∈ hs, h ∈ held) :
    Turns c zs held (Lowering.reload (hs.map Prod.fst)) (hs.map Holding.entry ++ zs) held :=
  .each hs sub [] fun _ mem _ => turns_reloadTemp mem

/-- Temporaries are freed if they are the latest ones. -/
theorem turns_release (hs : List Holding) :
    Turns c zs (hs.reverse ++ held) (Lowering.release (hs.map Prod.fst)) zs held := by
  unfold Lowering.release
  rw [← List.map_reverse, List.forM_eq_forM, List.forM_map]
  generalize hs.reverse = us
  induction us with
  | nil => exact .done
  | cons u us ih =>
    refine .seq (x := free u.1.index) (fun s under poised => ?_) ih
    let s₁ : State := { s with pool := { s.pool with live := (us ++ held).map fun h => h.1.index } }
    have latest : s.pool.free u.1.index = .ok s₁.pool := by simp [SlotPool.free, poised.live, s₁]
    have stacked := poised.stacked
    rw [poised.live] at stacked
    refine ⟨s₁, ?_, ⟨poised.stack, rfl, stacked.2, poised.nonneg⟩, ?_⟩
    · refine (bind_of_eq_ok (x := get) (a := s) rfl).trans ?_
      simp only [latest]
      rfl
    · exact .of_exec ⟨_, _, _, rfl, .refl _, rfl, rfl, le_rfl⟩
        (fun _ mem => List.mem_cons_of_mem u mem) fun _ _ _ _ _ _ _ => rfl

/-! ## What shuffles do -/

theorem turns_rotate3 (x y z : Entry) :
    Turns c (z :: y :: x :: zs) held rotate3 (y :: x :: z :: zs) held :=
  .plain [.dupX2, .pop] .done (fun _ _ => rfl) fun _ _ _ _ _ _ => rfl

theorem turns_swap (a b : Entry) : Turns c (b :: a :: zs) held swap (a :: b :: zs) held :=
  .plain [.swap] .done (fun _ _ => rfl) fun _ _ _ _ _ _ => rfl

theorem turns_rotate4 (x' x y z : Entry) :
    Turns c [z, y, x, x'] [] rotate4 [y, x, x', z] [] := by
  refine .spill [z, y] rfl fun hs same => ?_
  obtain ⟨t, u, rfl⟩ := List.length_eq_two.mp (by simpa using congrArg List.length same)
  obtain ⟨rfl, rfl⟩ : t.entry = z ∧ u.entry = y := by simpa using same
  refine (turns_reloadTemp (by simp)).seq ((turns_rotate3 _ _ _).seq ?_)
  exact (turns_reloadTemp (by simp)).seq (turns_release [t, u])

theorem Turns.copyTop {x : Entry} {k : Slot → Lowering Unit}
    (h : Turns c (x :: x :: zs) held (k x.1) zs' held') : Turns c (x :: zs) held (do
      emit [.dup]
      let top ← peek 0
      pushSlot top
      k top) zs' held' :=
  .plain [.dup] h (fun _ _ => rfl) fun _ _ _ _ _ _ => rfl

/-- Copies of temporaries are put under the entry on top. -/
theorem turns_inserts (x : Entry) (hs : List Holding) (sub : ∀ h ∈ hs, h ∈ held) :
    Turns c (x :: zs) held ((hs.map Prod.fst).reverse.forM fun t => do
        loadTemp t
        emit [.swap]
        setTop t.slot
        pushSlot x.1) (x :: (hs.map Holding.entry ++ zs)) held := by
  refine .each hs sub [x] fun h mem zs => ?_
  refine .first (fun r => [.load (h.1.slot.kind r) h.1.index.toNat, .plain .swap]) .done
    (fun s under => ?_) fun _ _ holds _ _ _ _ _ => exec_load (holds h mem)
  let k := h.1.slot.kind s.registry
  let loads : Lowering Unit := do
    load h.1.index k
    emit [.swap]
  let a := (s.assembler.emitLocal (.load k) h.1.index).emit .swap
  have run : loads c.function s = (.ok (), { s with assembler := a }) := rfl
  exact ⟨a, rfl, (Emitted.of run).wrote⟩

theorem turns_duplicate {depth : Nat} (x : Entry) (length : zs.length = depth) :
    Turns c (zs ++ [x]) [] (duplicate depth) (x :: (zs ++ [x])) [] := by
  match depth with
  | 0 =>
    obtain rfl := List.length_eq_zero_iff.mp length
    unfold duplicate
    rw [if_pos (by decide)]
    exact .plain [.dup] .done (fun _ _ => rfl) fun _ _ _ _ _ _ => rfl
  | 1 =>
    obtain ⟨y, rfl⟩ := List.length_eq_one_iff.mp length
    unfold duplicate
    rw [if_neg (by decide), if_pos (by decide)]
    exact .plain [.dup2, .pop] .done (fun _ _ => rfl) fun _ _ _ _ _ _ => rfl
  | depth + 2 =>
    unfold duplicate
    rw [if_neg (by omega), if_neg (by omega)]
    refine .spill zs (by omega) fun hs same => ?_
    rw [← same]
    exact .copyTop ((turns_inserts x hs fun h mem => by simp [mem]).seq (turns_release hs))

theorem turns_bury {depth : Nat} (x : Entry) (length : zs.length = depth) :
    Turns c (x :: zs) [] (bury depth) (zs ++ [x]) [] := by
  match depth with
  | 0 =>
    obtain rfl := List.length_eq_zero_iff.mp length
    exact .done
  | 1 =>
    obtain ⟨y, rfl⟩ := List.length_eq_one_iff.mp length
    exact turns_swap y x
  | 2 =>
    obtain ⟨y, z, rfl⟩ := List.length_eq_two.mp length
    exact turns_rotate3 z y x
  | depth + 3 =>
    unfold bury
    rw [if_neg (by omega), if_neg (by omega), if_neg (by omega)]
    refine .spill [x] rfl fun top first => .spillAll (by omega) fun hs rest => ?_
    rw [← first, ← rest, ← List.append_nil (top.map Holding.entry)]
    refine (turns_reload top fun h mem => by simp [mem]).seq ?_
    refine (turns_reload hs fun h mem => by simp [mem]).seq ?_
    exact (turns_release hs).seq (turns_release top)

theorem exists_ends {α : Type} {xs : List α} {n : Nat} (length : xs.length = n + 2) :
    ∃ x between y, xs = x :: (between ++ [y]) ∧ between.length = n := by
  obtain ⟨x, rest, rfl⟩ := List.exists_cons_of_length_eq_add_one length
  obtain rfl | ⟨between, y, rfl⟩ := rest.eq_nil_or_concat'
  · cases length
  · exact ⟨x, between, y, rfl, by simpa using length⟩

theorem turns_exchange {n : Nat} (x y : Entry) (length : zs.length = n) :
    Turns c (x :: (zs ++ [y])) [] (exchange (n + 1 : Nat)) (y :: (zs ++ [x])) [] := by
  match n with
  | 0 =>
    obtain rfl := List.length_eq_zero_iff.mp length
    exact turns_swap y x
  | n + 1 =>
    unfold exchange
    rw [if_neg (by omega), if_neg (by omega)]
    refine .spillAll (by simp; omega) fun hs same => ?_
    obtain ⟨t, us, u, rfl, -⟩ := exists_ends (n := zs.length)
      (by simpa using congrArg List.length same)
    obtain ⟨rfl, rest⟩ := List.cons.inj same
    rw [List.map_append] at rest
    obtain ⟨rfl, last⟩ := List.append_inj' rest rfl
    obtain ⟨rfl, -⟩ := List.cons.inj last
    have bottom : (t.1 :: (us.map Prod.fst ++ [u.1])).getLast? = some u.1 := by
      rw [← List.cons_append, List.getLast?_concat]
    have sub : ∀ h ∈ u :: us ++ [t], h ∈ (t :: (us ++ [u])).reverse ++ [] := by
      intro h mem
      simp at mem ⊢
      tauto
    simp only [List.map_cons, List.map_append, List.map_nil, bottom, List.dropLast_concat]
    have back : Turns c [] _ _ _ _ := turns_reload (u :: us ++ [t]) sub
    have freed := back.seq (k := fun _ => _) (turns_release (t :: (us ++ [u])))
    simpa using freed

theorem turns_body (k : Shuffle) (length : zs.length = k.reach) :
    Turns c zs [] k.operation.body (k.apply zs) [] := by
  cases k with
  | swap =>
    obtain ⟨b, a, rfl⟩ := List.length_eq_two.mp length
    exact turns_swap a b
  | rotate3 =>
    obtain ⟨z, y, x, rfl⟩ := List.length_eq_three.mp length
    exact turns_rotate3 x y z
  | rotate4 =>
    match zs, length with
    | [z, y, x, x'], _ => exact turns_rotate4 x' x y z
  | duplicate depth =>
    obtain rfl | ⟨zs, x, rfl⟩ := zs.eq_nil_or_concat'
    · cases length
    · have count : zs.length = depth := by simpa [Shuffle.reach] using length
      rw [Shuffle.apply_duplicate count]
      exact turns_duplicate x count
  | bury depth =>
    obtain ⟨x, zs, rfl⟩ := List.exists_cons_of_length_eq_add_one length
    rw [Shuffle.apply_bury (Nat.succ.inj length)]
    exact turns_bury x (Nat.succ.inj length)
  | exchange depth =>
    cases depth with
    | zero =>
      obtain ⟨x, rfl⟩ := List.length_eq_one_iff.mp length
      exact .done
    | succ n =>
      obtain ⟨x, between, y, rfl, count⟩ := exists_ends length
      rw [Shuffle.apply_exchange count]
      exact turns_exchange x y count

/-! ## Shuffles as operations -/

theorem Shuffle.needed_le (k : Shuffle) (dialect : Option Dialect) :
    k.operation.needed dialect ≤ k.reach := by
  have wrapped (n : Nat) : wrap64 (n + 1) ≤ (n + 1 : Nat) := by
    unfold wrap64 Int.bmod
    dsimp only
    split <;> omega
  cases k with
  | swap | rotate3 | rotate4 => exact le_rfl
  | duplicate depth | bury depth | exchange depth => exact wrapped depth

/-- An operation is performed where the source goes on with enough operands, if its body succeeds and
frees what it takes. -/
theorem perform_of_body {op : Operation} {f : Function} (fine : s.failure = none)
    (reachable : s.reachable = true) (enough : op.needed f.dialect ≤ s.stack.length)
    (body : op.body f { s with operation := op.name } = (.ok (), s')) (settled : s'.pool.live = []) :
    op.perform f s = (.ok (), s') := by
  have begins : begin op.name (op.needed f.dialect) f s =
      (.ok true, { s with operation := op.name }) := by
    have sound : hasFailed f s = (.ok false, s) := by
      show (Except.ok s.failure.isSome, s) = _
      rw [fine]
      rfl
    let s₁ : State := { s with operation := op.name }
    refine (bind_of_eq_ok sound).trans ?_
    refine (bind_of_eq_ok (x := modify fun s => { s with operation := op.name }) rfl).trans ?_
    refine (bind_of_eq_ok (x := get) (a := s₁) rfl).trans ?_
    rw [if_neg (by simp [s₁, reachable]), if_neg (Int.not_lt.mpr enough)]
    rfl
  have finishes : finishOperation f s' = (.ok (), s') := by
    refine (bind_of_eq_ok (x := get) (a := s') rfl).trans ?_
    rw [if_neg (by simp [SlotPool.liveCount, settled])]
    rfl
  refine (bind_of_eq_ok (x := read) (a := f) rfl).trans ?_
  refine (bind_of_eq_ok begins).trans ?_
  refine (bind_of_eq_ok (a := ()) ?_).trans finishes
  show ExceptT.tryCatch (op.body f) _ _ = _
  simp only [ExceptT.tryCatch, ExceptT.mk, Bind.bind, StateT.bind, body]
  rfl

/-- An activation that is where an operation begins executes the lines of the operation. -/
theorem Cut.executes {m : Method} {a : Action} {after : List Action} {s₁ s₂ s₃ : State}
    {front back ending : List Line} {newer guards : List PendingHandler} {fresh : Nat} {call : Caller}
    {stack : List Value} {locals : Array Value} {w : World}
    (cut : Cut c m a after s₁ s₂ s₃ s front back ending newer)
    (wrote : Wrote c.refs lines fresh guards s₁.assembler s₂.assembler) {x : Frame}
    (here : At m s₁.assembler.size stack locals x) {e : Exit} {w' : World}
    (run : exec call s.assembler.pool lines none stack locals w = (e, w')) :
    e.Reached call m s.assembler.position? s₁.assembler.size s₂.assembler.size (x, w) w' := by
  have start : s₁.assembler.bytes.size = codeSize front := cut.held.size
  have stop : s₂.assembler.bytes.size = codeSize (front ++ lines) :=
    (wrote.spelled cut.fine.2 front cut.held).size
  have reads := cut.reads wrote
  rw [readsFrom_append, readsFrom_append, Nat.zero_add, ← start] at reads
  have ready : Ready m s.assembler.position? s₁.assembler.bytes.size stack locals x none := here
  have reached := exec_reached reads.2.1 ready run
  rwa [start, ← codeSize_append, ← stop, ← start] at reached

theorem stateBy_concat {f : Function} {before : List Action} {a : Action}
    (reached : stateBy f r before = .ok s) (run : a.run f s = (.ok (), s')) :
    stateBy f r (before ++ [a]) = .ok s' := by
  obtain ⟨s₀, started, acted⟩ := except_bind_eq_ok reached
  refine stateBy_of_eq_ok started ?_
  rw [List.forM_eq_forM, List.forM_append]
  exact (bind_of_eq_ok (after_eq_ok acted)).trans (bind_of_eq_ok run)

/-- The operations that move slots succeed wherever the slots are there. The snapshot that they leave
shows what their code does to the host stack, whatever the values are: the slots and the values on top
are rearranged alike, what is below stays in place, and the world, the source locals and the reserved
slots stay as they are. Moving the top under nothing and exchanging it with itself adds no code. -/
theorem shuffle_rearranges {f : Function} {before : List Action} (k : Shuffle)
    (reached : stateBy f r before = .ok s) (fine : s.failure = none) (reachable : s.reachable = true)
    {slots under : Snapshot} (shape : s.stack = slots ++ under) (length : slots.length = k.reach) :
    ∃ s', stateBy f r (before ++ [.perform k.operation]) = .ok s' ∧ s'.failure = none ∧
      s'.stack = k.apply slots ++ under ∧
      (k = .bury 0 ∨ k = .exchange 0 → s'.assembler = s.assembler) ∧
      ∀ after m, methodBy f r (before ++ .perform k.operation :: after) = .ok (.ok m) →
        ∀ (vals below : List Value) (x : Frame), vals.length = k.reach → m.maxLocals ≤ x.locals.size →
          At m s.assembler.size (vals ++ below) x.locals x → ∀ call w, ∃ y locals,
            Effect.RunsIn call (Between s.assembler.size s'.assembler.size) (x, w) (y, w) ∧
              At m s'.assembler.size (k.apply vals ++ below) locals y ∧
                ∀ i : Nat, i < f.slotBase ∨ (i : Int) ∈ s.pool.persistent →
                  locals[i]? = x.locals[i]? := by
  let c : Source := ⟨f, Set.univ, fun _ _ => trivial⟩
  have orderly := (orderly_stateBy reached).1
  have nonneg : 0 ≤ s.pool.base := by
    have behind := orderly.behind
    have first := f.localBase_le
    have start := f.nonneg_localBase
    omega
  let s₀ : State := { s with operation := k.operation.name }
  have turns (zs : List Entry) (entries : zs.map Prod.fst = slots) : ∃ s',
      k.operation.body f s₀ = (.ok (), s') ∧ Poised (k.apply zs) under [] s' ∧
        Carries c zs [] s₀ (k.apply zs) [] s' := by
    have count : zs.length = k.reach := by rw [← length, ← entries, List.length_map]
    refine turns_body (c := c) k count s₀ under ⟨?_, orderly.settled, ?_, nonneg⟩
    · rw [entries]
      exact shape
    · show Stacked s.pool.base s.pool.live
      rw [orderly.settled]
      trivial
  -- what happens to the snapshot does not depend on the values
  have blank : (slots.map fun slot => (slot, Value.word 0)).map Prod.fst = slots := by
    rw [List.map_map]
    exact List.map_id slots
  obtain ⟨s', body, poised, lines, worked, -⟩ := turns _ blank
  have enough : k.operation.needed f.dialect ≤ s.stack.length := by
    have needed := k.needed_le f.dialect
    rw [shape, List.length_append]
    omega
  have run := perform_of_body fine reachable enough body poised.live
  have next := stateBy_concat reached (a := .perform k.operation) run
  refine ⟨s', next, ?_, ?_, fun still => ?_,
    fun after m lowered vals below x many room here call w => ?_⟩
  · obtain ⟨a, st, p, rfl, -⟩ := worked
    exact fine
  · rw [poised.stack, Shuffle.map_apply, blank]
  · rcases still with rfl | rfl
    · obtain ⟨-, rfl⟩ := Prod.mk.inj body
      rfl
    · obtain ⟨-, rfl⟩ := Prod.mk.inj body
      rfl
  · obtain ⟨s₁, s₂, s₃, t, front, back, ending, newer, e₁, e₂, -, cut⟩ :=
      exists_cut (c := c) (fun _ _ => trivial) lowered
    obtain rfl := Except.ok.inj (reached.symm.trans e₁)
    obtain rfl := Except.ok.inj (next.symm.trans e₂)
    have inside : s'.pool.maxLocals ≤ x.locals.size := by
      rw [cut.built.locals, cut.pool] at room
      exact cut.later.maxLocals.trans room
    have same : slots.length = vals.length := length.trans many.symm
    obtain ⟨s'', body', -, lines, worked, carries⟩ := turns (slots.zip vals) (List.map_fst_zip same.le)
    obtain rfl : s' = s'' := congrArg Prod.snd (body.symm.trans body')
    obtain ⟨locals, agree, -, runs⟩ := carries x.locals inside (by simp [Stowed])
    have falls := runs call t.assembler.pool [] below w
    rw [List.append_nil, Shuffle.map_apply, List.map_snd_zip same.ge] at falls
    obtain ⟨y, reaches, there⟩ := cut.executes worked.wrote here falls
    refine ⟨y, locals, reaches, there, fun i old => agree.same i ?_⟩
    show (i : Int) < s.pool.base
    have behind := orderly.behind
    rcases old with source | reserved
    · omega
    · have lt := (orderly.reserved i (List.mem_reverse.mp reserved)).2
      omega

/-- Four slots of different types. -/
def fourLoads : List Action :=
  [.visit 0 [], .perform (.loadLocal 0), .perform (.loadConst .none), .perform (.loadConst (.int 7)),
    .perform (.loadConst (.string "d"))]

theorem shuffle_rearranges_fourLoads : ∃ s s' m, stateBy taking .builtin fourLoads = .ok s ∧
    s.stack.length = 4 ∧ stateBy taking .builtin (fourLoads ++ [.perform (.exchange 3)]) = .ok s' ∧
      s'.stack = (Shuffle.exchange 3).apply s.stack ∧
      methodBy taking .builtin (fourLoads ++ [.perform (.exchange 3), .perform .returnValue]) =
        .ok (.ok m) ∧
      ∀ (call : Caller) (w : World) (x : Frame) (a b c d : Value), m.maxLocals ≤ x.locals.size →
        At m s.assembler.size [d, c, b, a] x.locals x → ∃ y locals,
          Effect.RunsIn call (Between s.assembler.size s'.assembler.size) (x, w) (y, w) ∧
            At m s'.assembler.size [a, c, b, d] locals y := by
  obtain ⟨s, reached, here⟩ := exists_of_any (x := stateBy taking .builtin fourLoads)
    (p := fun s => s.failure.isNone && s.reachable && decide (s.stack.length = 4)) (by decide +kernel)
  simp only [Bool.and_eq_true, decide_eq_true_eq, Option.isNone_iff_eq_none] at here
  obtain ⟨⟨fine, reachable⟩, four⟩ := here
  obtain ⟨m, found⟩ := Option.isSome_iff_exists.mp (by decide +kernel : (method? taking .builtin
    (fourLoads ++ [.perform (.exchange 3), .perform .returnValue])).isSome = true)
  have lowered := methodBy_of_method? found
  obtain ⟨s', next, -, snapshot, -, runs⟩ := shuffle_rearranges (.exchange 3) reached fine reachable
    (List.append_nil s.stack).symm four
  rw [List.append_nil] at snapshot
  refine ⟨s, s', m, reached, four, next, snapshot, lowered, fun call w x a b c d room here => ?_⟩
  obtain ⟨y, locals, run, there, -⟩ := runs _ m lowered [d, c, b, a] [] x rfl room here call w
  exact ⟨y, locals, run, there⟩

end HostLowering.Lower
