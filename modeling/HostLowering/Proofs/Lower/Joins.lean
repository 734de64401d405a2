import HostLowering.Proofs.Lower.Balance.Session

set_option autoImplicit false

/-! # Joins

Control comes to a source offset by falling through and by jumps, each time with a snapshot. The
first jump notes its snapshot for the offset, later jumps are checked against it, and so is the
snapshot given when the offset is visited; jumps after the visit are checked against the one given.
So the snapshot given agrees with the one that falls through, with the first jump and with all jumps
after the visit, and all of them have the same depth and kinds (`joins_agree`). It need not agree with
the other jumps before the visit: they agree with the first one, but to agree is not transitive
(`jumpingTwice_disagrees`).
-/

namespace HostLowering.Lower

open Machine Catalog Lowering

variable {α β : Type} {f : Function} {r r' : Registry} {s s' s'' : State} {x : Lowering α} {o : Int}
  {st st' : Snapshot} {a : Action} {b given : Snapshot} {op : Operation}

/-! ## Agreement -/

theorem Registry.related_comm (a b : Option TypeRef) : r.related a b = r.related b a := Bool.or_comm _ _

/-- It does not matter which of two snapshots is compared with the other. -/
theorem Snapshot.compatible_comm (a b : Snapshot) : a.compatible r b = b.compatible r a := by
  induction a generalizing b with
  | nil => cases b <;> rfl
  | cons x a ih =>
    cases b with
    | nil => rfl
    | cons y b =>
      show (x.kind r == y.kind r && r.related x.known y.known && compatible r a b) =
        (y.kind r == x.kind r && r.related y.known x.known && compatible r b a)
      rw [ih b, Registry.related_comm, BEq.comm]

/-- A callable is held as a reference, whether it is known or not. -/
theorem Registry.kind_callable (i : Nat) : r.kind (.callable i) = .ref := by
  have host : r.hostClass (.callable i) = "" ∨ r.hostClass (.callable i) = Library.boundFunctionClass ∨
      r.hostClass (.callable i) = Library.functionClass := by
    cases found : r.callables[i]? with
    | none => simp [Registry.hostClass, Registry.info?, found]
    | some c => by_cases bound : c.bound = true <;> simp [Registry.hostClass, Registry.info?, found, bound]
  unfold Registry.kind
  rcases host with host | host | host
  all_goals
    rw [host]
    decide

/-- How values are held depends on the registered types alone. -/
theorem Snapshot.kinds_of_types (same : r'.types = r.types) (s : Snapshot) : s.kinds r' = s.kinds r := by
  apply List.map_congr_left
  intro slot _
  show r'.kind slot.known = r.kind slot.known
  cases slot.known with
  | callable i => rw [Registry.kind_callable, Registry.kind_callable]
  | named n =>
    unfold Registry.kind Registry.hostClass Registry.info?
    rw [same]

/-! ## Between jumps -/

/-- From a snapshot a step leads to others, and changes nothing else that a jump looks at. -/
structure Restacks (f : Function) (o : Int) (st : Snapshot) (x : Lowering α)
    (Q : α → Snapshot → Prop) : Prop where
  run : ∀ s a s', s.offset = o → s.stack = st → x f s = (.ok a, s') → Still s s' ∧ Q a s'.stack

/-- The snapshot that a step leaves as it is. -/
theorem Mute.restacks (h : Mute x) : Restacks f o st x fun _ st' => st' = st := by
  constructor
  intro s a s' _ stack run
  obtain ⟨still, same⟩ := h.run f s a s' run
  exact ⟨still, same.trans stack⟩

namespace Restacks

variable {Q : α → Snapshot → Prop} {Q' : β → Snapshot → Prop} {k : α → Lowering β}

theorem bind (h : Restacks f o st x Q) (h' : ∀ a st', Q a st' → Restacks f o st' (k a) Q') :
    Restacks f o st (x >>= k) Q' := by
  constructor
  intro s b s' offset stack run
  obtain ⟨a, s₁, first, second⟩ := bind_eq_ok run
  obtain ⟨still, here⟩ := h.run s a s₁ offset stack first
  obtain ⟨still', there⟩ := (h' a s₁.stack here).run s₁ b s' (still.offset.trans offset) rfl second
  exact ⟨still.trans still', there⟩

/-- A step that leaves the snapshot as it is comes first. -/
theorem after [h : Mute x] (h' : ∀ a, Restacks f o st (k a) Q') : Restacks f o st (x >>= k) Q' := by
  refine h.restacks.bind fun a st' same => ?_
  rw [same]
  exact h' a

theorem pure {a : α} (h : Q a st) : Restacks f o st (Pure.pure a : Lowering α) Q := by
  constructor
  intro s b s' _ stack run
  cases run
  exact ⟨.refl s, stack ▸ h⟩

theorem imp {Q' : α → Snapshot → Prop} (h : Restacks f o st x Q) (h' : ∀ a st', Q a st' → Q' a st') :
    Restacks f o st x Q' := by
  constructor
  intro s a s' offset stack run
  obtain ⟨still, here⟩ := h.run s a s' offset stack run
  exact ⟨still, h' a _ here⟩

theorem any (h : Restacks f o st x Q) : Restacks f o st x fun _ _ => True := h.imp fun _ _ _ => trivial

end Restacks

theorem restacks_setStack (new : Snapshot) :
    Restacks f o st (setStack new) fun _ st' => st' = new := by
  constructor
  intro s a s' _ _ run
  cases run
  exact ⟨⟨rfl, rfl, rfl, rfl, id⟩, rfl⟩

theorem restacks_pushSlot (slot : Slot) :
    Restacks f o st (pushSlot slot) fun _ st' => st' = slot :: st := by
  constructor
  intro s a s' _ stack run
  cases run
  exact ⟨⟨rfl, rfl, rfl, rfl, id⟩, congrArg _ stack⟩

theorem restacks_pushType? (t : Option TypeRef) :
    Restacks f o st (pushType? t) fun _ st' => st' = ⟨t, o⟩ :: st := by
  constructor
  intro s a s' offset stack run
  cases run
  refine ⟨⟨rfl, rfl, rfl, rfl, id⟩, ?_⟩
  show (⟨t, s.offset⟩ : Slot) :: s.stack = _
  rw [offset, stack]

theorem restacks_drop (n : Nat) : Restacks f o st (drop n) fun _ st' => st' = st.drop n := by
  constructor
  intro s a s' offset stack run
  replace run := rest_of_ok run rfl
  split at run
  · rw [← stack]
    exact (restacks_setStack _).run s a s' offset rfl run
  · cases run

theorem restacks_popSlot : Restacks f o st popSlot fun slot st' => st = slot :: st' := by
  constructor
  intro s a s' _ stack run
  obtain ⟨rest, shape, rfl⟩ := popSlot_eq_ok run
  exact ⟨⟨rfl, rfl, rfl, rfl, id⟩, stack.symm.trans shape⟩

theorem restacks_setTop (slot : Slot) :
    Restacks f o st (setTop slot) fun _ st' => st' = slot :: st.drop 1 := by
  refine restacks_popSlot.bind fun top rest shape => ?_
  rw [shape]
  exact restacks_pushSlot slot

/-! ## The code before a jump -/

instance (t u : TypeRef) : Mute (isSubtype t u) := .reads fun _ _ => rfl

instance (field : FieldRef) : Mute (getStatic field) := .assemble _

instance (start stop target : Label) (cls : String) : Mute (tryCatch start stop target cls) :=
  .assemble _

instance : Mute testMatch := .bind inferInstance inferInstance

instance (n : Nat) : Mute (packArguments n) := .bind inferInstance inferInstance

instance : Mute callPacked := .bind inferInstance inferInstance

instance (method : String) : Mute (callUnary method) := .bind inferInstance inferInstance

instance : Mute callWithOne := .bind inferInstance inferInstance

instance (t : TypeRef) (name : String) (args : List TypeRef) : Mute (direct? t name args) :=
  .bind inferInstance fun _ => by split <;> infer_instance

/-- A unary method replaces the top slot. -/
theorem restacks_unary (method : String) :
    Restacks f o st (unary method) fun _ st' => st'.drop 1 = st.drop 1 := by
  have replaces (t : Option TypeRef) : Restacks f o st (do
      drop 1
      pushType? t) fun _ st' => st'.drop 1 = st.drop 1 := by
    refine (restacks_drop 1).bind fun _ st' dropped => (restacks_pushType? t).imp fun _ st'' pushed => ?_
    rw [pushed, dropped]
    rfl
  refine .after fun t => .after fun found => ?_
  cases found with
  | some sig => exact .after fun cls => .after fun _ => .after fun _ => replaces sig.returns
  | none => exact .after fun _ => replaces (some objectType)

/-- The top slot becomes its truth value. -/
theorem restacks_toBool :
    Restacks f o st Lowering.toBool fun _ st' => st'.drop 1 = st.drop 1 := by
  refine .after fun t => .after fun known => ?_
  cases known with
  | true => exact (Mute.pure ()).restacks.imp fun _ st' same => by rw [same]
  | false =>
    refine (restacks_unary "__bool__").bind fun _ st' same => .after fun top => ?_
    refine (restacks_setTop _).imp fun _ st'' set => ?_
    rw [set, ← same]
    rfl

/-- Spilled slots are taken off the snapshot. -/
theorem restacks_spillMany (n : Nat) :
    Restacks f o st (spillMany n) fun ts st' => ts.length = n ∧ st = ts.map Temp.slot ++ st' := by
  induction n generalizing st with
  | zero => exact .pure ⟨rfl, rfl⟩
  | succ n ih =>
    refine restacks_popSlot.bind fun slot rest shape => .after fun k => ?_
    refine .after fun i => .after fun _ => ?_
    refine ih.bind fun ts st' ⟨length, spilled⟩ => .pure ⟨?_, ?_⟩
    · rw [List.length_cons, length]
    · rw [shape, spilled]
      rfl

/-- Temporaries come back in their former order. -/
theorem restacks_reload (ts : List Temp) :
    Restacks f o st (reload ts) fun _ st' => st' = ts.map Temp.slot ++ st := by
  have pushes (us : List Temp) (st : Snapshot) : Restacks f o st (us.forM reloadTemp)
      fun _ st' => st' = (us.map Temp.slot).reverse ++ st := by
    induction us generalizing st with
    | nil => exact .pure rfl
    | cons u us ih =>
      refine .bind (x := reloadTemp u) (.after fun _ => restacks_pushSlot u.slot)
        fun _ st' pushed => (ih st').imp fun _ st'' rest => ?_
      rw [rest, pushed, List.map_cons, List.reverse_cons, List.append_assoc]
      rfl
  refine (pushes ts.reverse st).imp fun _ st' same => ?_
  rw [same, List.map_reverse, List.reverse_reverse]

/-- The whole stack is copied. -/
theorem restacks_copyAll :
    Restacks f o st (do copyOut (← stack).length)
      fun ts st' => st' = st ∧ ts.map Temp.slot = st := by
  constructor
  intro s ts s' offset stack run
  replace run := rest_of_ok run rfl
  rw [stack] at run
  have spills : Restacks f o st (spill st.length)
      fun ts st' => st' = [] ∧ ts.map Temp.slot = st := by
    refine .after fun found => ?_
    split
    · refine (restacks_spillMany st.length).imp fun ts st' ⟨length, shape⟩ => ?_
      have none : st' = [] := by
        have lengths := congrArg List.length shape
        rw [List.length_append, List.length_map, length] at lengths
        exact List.length_eq_zero_iff.mp (by omega)
      rw [none, List.append_nil] at shape
      exact ⟨none, shape.symm⟩
    · exact ⟨fun _ _ _ _ _ run => by cases run⟩
  have copies : Restacks f o st (copyOut st.length) fun ts st' => st' = st ∧ ts.map Temp.slot = st := by
    refine spills.bind fun ts st' ⟨empty, all⟩ => (restacks_reload ts).bind fun _ st'' back => .pure ⟨?_, all⟩
    rw [back, empty, all, List.append_nil]
  exact copies.run s ts s' offset stack run

/-! ## Jumps -/

/-- A jump to an offset has carried a snapshot there: no handler begins at the offset, and what is
expected there afterwards is the snapshot carried, or one expected before that agrees with it. -/
def Joined (target : Int) (carried : Snapshot) (s s' : State) : Prop :=
  s.handlers.contains target = false ∧ ∃ e, s'.expected[target]? = some e ∧
    (s.expected[target]? = none ∧ e = carried ∨
      s.expected[target]? = some e ∧ e.compatible s.registry carried = true)

/-- From a snapshot a step that is done jumps to an offset. -/
structure Jumps (f : Function) (o : Int) (st : Snapshot) (x : Lowering α) (target : Int)
    (carried : Snapshot) : Prop where
  run : ∀ s a s', s.offset = o → s.stack = st → x f s = (.ok a, s') → s'.failure = none →
    Joined target carried s s'

namespace Jumps

variable {target : Int} {carried : Snapshot} {k : α → Lowering β}

/-- The jump comes after a step. -/
theorem bind {Q : α → Snapshot → Prop} (h : Restacks f o st x Q)
    (h' : ∀ a st', Q a st' → Jumps f o st' (k a) target carried) :
    Jumps f o st (x >>= k) target carried := by
  constructor
  intro s b s' offset stack run fine
  obtain ⟨a, s₁, first, second⟩ := bind_eq_ok run
  obtain ⟨still, here⟩ := h.run s a s₁ offset stack first
  have joined := (h' a s₁.stack here).run s₁ b s' (still.offset.trans offset) rfl second fine
  unfold Joined at joined
  rwa [still.handlers, still.expected, still.registry] at joined

/-- The jump comes after a step that leaves the snapshot as it is. -/
theorem after [h : Mute x] (h' : ∀ a, Jumps f o st (k a) target carried) :
    Jumps f o st (x >>= k) target carried := by
  refine bind h.restacks fun a st' same => ?_
  rw [same]
  exact h' a

theorem before (h : Jumps f o st x target carried)
    (h' : ∀ a o' st', Restacks f o' st' (k a) fun _ _ => True) :
    Jumps f o st (x >>= k) target carried := by
  constructor
  intro s b s' offset stack run fine
  obtain ⟨a, s₁, first, second⟩ := bind_eq_ok run
  obtain ⟨still, -⟩ := (h' a s₁.offset s₁.stack).run s₁ b s' rfl rfl second
  have joined := h.run s a s₁ offset stack first (still.failure fine)
  unfold Joined
  rw [still.expected]
  exact joined

end Jumps

instance (target : Int) : Mute (offsetLabel target) := by
  refine .bind inferInstance fun s => ?_
  split
  · infer_instance
  · refine .bind inferInstance fun l => .bind ⟨fun f s a s' run => ?_⟩ inferInstance
    cases run
    exact ⟨⟨rfl, rfl, rfl, rfl, id⟩, rfl⟩

theorem mute_branchTo (op : Opcode) (target : Int) :
    Mute (do branch op (← offsetLabel target)) := inferInstance

/-- A jump carries the snapshot. -/
theorem jumps_jumpTo (op : Opcode) (target : Int) : Jumps f o st (jumpTo op target) target st := by
  constructor
  intro s a s' _ stack run fine
  replace run := rest_of_ok run rfl
  split at run
  · -- A handler begins at the target, and the jump fails.
    exact absurd fine (failed_of_fail run)
  rename_i plain
  refine ⟨Bool.eq_false_of_not_eq_true plain, ?_⟩
  cases found : s.expected[target]? with
  | some e =>
    simp only [found] at run
    replace run := rest_of_ok run rfl
    split at run
    · rename_i agrees
      obtain ⟨still, -⟩ := (mute_branchTo op target).run f s a s' run
      rw [still.expected, ← stack]
      exact ⟨e, found, .inr ⟨rfl, agrees⟩⟩
    · replace run := rest_of_ok run rfl
      replace run := rest_of_ok run rfl
      obtain ⟨_, _, failed, run⟩ := bind_eq_ok run
      cases run
      exact absurd fine (failed_of_fail failed)
  | none =>
    simp only [found] at run
    replace run := rest_of_ok run rfl
    obtain ⟨still, -⟩ := (mute_branchTo op target).run f _ a s' run
    rw [still.expected, ← stack]
    exact ⟨s.stack, Std.TreeMap.getElem?_insert_self, .inl ⟨rfl, rfl⟩⟩

/-- The snapshot that a jump carries to its target: what is left when the operands have been popped,
and for an iterator that has ended the value it returns. -/
def Operation.carried (s : State) : Operation → Snapshot
  | .popJumpIf .. | .popJumpIfNone .. | .forIter _ => s.stack.drop 1
  | .jumpUnlessMatch _ => s.stack.drop 2
  | .send _ => ⟨some objectType, s.offset⟩ :: s.stack.drop 2
  | _ => s.stack

theorem jumps_popJumpIf (value : Bool) (target : Int) :
    Jumps f o st (popJumpIf value target) target (st.drop 1) := by
  refine .bind restacks_toBool fun _ st₁ same => .bind (restacks_drop 1) fun _ st₂ dropped => ?_
  rw [← same, ← dropped]
  exact .after fun _ => jumps_jumpTo _ _

theorem jumps_jumpIfOrPop (value : Bool) (target : Int) :
    Jumps f o st (jumpIfOrPop value target) target st := by
  have copies : Restacks f o st (duplicate 0) fun _ st' => st'.drop 1 = st := by
    refine .after fun _ => .after fun top => ?_
    exact (restacks_pushSlot top).imp fun _ st' pushed => by rw [pushed]; rfl
  refine .bind copies fun _ st₁ same => ?_
  have jumps : Jumps f o st₁ (popJumpIf value target) target (st₁.drop 1) :=
    jumps_popJumpIf value target
  rw [same] at jumps
  exact jumps.before fun _ _ _ => .after fun _ => (restacks_drop 1).any

theorem jumps_popJumpIfNone (isNone : Bool) (target : Int) :
    Jumps f o st (popJumpIfNone isNone target) target (st.drop 1) := by
  refine .bind (restacks_drop 1) fun _ st₁ dropped => .after fun _ => ?_
  rw [← dropped]
  exact jumps_jumpTo _ _

theorem jumps_jumpUnlessMatch (target : Int) :
    Jumps f o st (jumpUnlessMatch target) target (st.drop 2) := by
  refine .after fun _ => ?_
  refine .bind (restacks_drop 2) fun _ st₁ dropped => ?_
  rw [← dropped]
  exact jumps_jumpTo _ _

theorem jumps_forIter (target : Int) : Jumps f o st (forIter target) target (st.drop 1) := by
  unfold forIter
  rw [← bind_assoc]
  refine .bind restacks_copyAll fun ts st₁ copied => ?_
  repeat refine .after fun _ => ?_
  refine .bind (restacks_setStack []) fun _ st₂ empty => ?_
  refine .bind (restacks_reload (ts.drop 1)) fun _ st₃ back => ?_
  have carried : st₃ = st.drop 1 := by rw [back, empty, List.append_nil, List.map_drop, copied.2]
  rw [← carried]
  -- The code behind the jump goes on with the stack of the loop.
  refine (jumps_jumpTo _ _).before fun _ _ _ => .bind (restacks_setStack _) fun _ _ _ => ?_
  refine .after fun _ => .bind (restacks_pushType? _) fun _ _ _ => ?_
  exact .any (Mute.restacks inferInstance)

theorem jumps_send (target : Int) :
    Jumps f o st (send target) target (⟨some objectType, o⟩ :: st.drop 2) := by
  unfold send
  rw [← bind_assoc]
  refine .bind restacks_copyAll fun ts st₁ copied => ?_
  match ts with
  | [] | [_] => exact ⟨fun _ _ _ _ _ run => by cases run⟩
  | value :: receiver :: rest =>
    repeat refine .after fun _ => ?_
    refine .bind (restacks_setStack []) fun _ st₂ empty => ?_
    refine .bind (restacks_reload rest) fun _ st₃ back => .after fun _ => ?_
    refine .bind (restacks_pushType? (some objectType)) fun _ st₄ pushed => ?_
    refine .after fun _ => ?_
    have carried : st₄ = ⟨some objectType, o⟩ :: st.drop 2 := by
      rw [pushed, back, empty, List.append_nil, ← copied.2]
      rfl
    rw [← carried]
    -- The code behind the jump goes on with the stack that a yielded value leaves.
    refine (jumps_jumpTo _ _).before fun _ _ _ => .bind (restacks_setStack _) fun _ _ _ => ?_
    refine .after fun _ => .bind (restacks_drop 1) fun _ _ _ => ?_
    exact .bind (restacks_pushType? _) fun _ _ _ => .any (Mute.restacks inferInstance)

/-- The body of an operation that has a target jumps there. -/
theorem jumps_body {target : Int} (jumps : op.target? = some target) (s : State) :
    Jumps f s.offset s.stack op.body target (op.carried s) := by
  cases op with
  | jump t =>
    cases jumps
    refine (jumps_jumpTo _ _).before fun _ _ _ => ⟨fun s a s' _ _ run => ?_⟩
    cases run
    exact ⟨⟨rfl, rfl, rfl, rfl, id⟩, trivial⟩
  | popJumpIf value t =>
    cases jumps
    exact jumps_popJumpIf value target
  | jumpIfOrPop value t =>
    cases jumps
    exact jumps_jumpIfOrPop value target
  | popJumpIfNone isNone t =>
    cases jumps
    exact jumps_popJumpIfNone isNone target
  | forIter t =>
    cases jumps
    exact jumps_forIter target
  | jumpUnlessMatch t =>
    cases jumps
    exact jumps_jumpUnlessMatch target
  | send t =>
    cases jumps
    exact jumps_send target
  | _ => cases jumps

/-! ## Actions -/

theorem joined_of_perform {target : Int} (jumps : op.target? = some target)
    (run : op.perform f s = (.ok (), s')) (fine : s'.failure = none) :
    Joined target (op.carried s) s s' := by
  have jumps := jumps_body (f := f) jumps { s with operation := op.name }
  exact jumps.run { s with operation := op.name } () s' rfl rfl (perform_eq_ok run fine).2.2 fine

/-- A visit that leads to no failure: the offset was not visited before, and it is a handler that
control does not fall into, or the snapshot given agrees with what control comes with. -/
structure Accepted (o : Int) (given : Snapshot) (s s' : State) : Prop where
  new : s.marked.contains o = false
  marked : s'.marked.contains o = true
  arrives : s.handlers.contains o = true ∧ s.reachable = false ∨
    s'.expected[o]? = some given ∧ (s.reachable = true → given.compatible s.registry s.stack = true) ∧
      ∀ e, s.expected[o]? = some e → given.compatible s.registry e = true

theorem accepted_of_visit (orderly : Orderly f s)
    (run : (Action.visit o given).run f s = (.ok (), s')) (fine : s'.failure = none) :
    Accepted o given s s' := by
  obtain ⟨orderly', -⟩ := (concludes_run _ orderly).of_ok run
  let c : Source := ⟨f, Set.univ, fun _ _ => trivial⟩
  obtain ⟨new, ⟨h, found, run⟩ | ⟨-, s₁, checked, run⟩⟩ := atOffset_cases run fine
  · have visited := atHandler_eq_ok (c := c) (s := { s with operation := "At", offset := o })
      found new run fine
    have known : s'.handlers[o]? = some { h with emitted := true } := by
      rw [visited.handlers]
      show ((s.handlers[o]?).elim _ _)[o]? = _
      rw [found]
      exact Std.TreeMap.getElem?_insert_self
    refine ⟨new, orderly'.entered o _ known rfl, .inl ⟨?_, ?_⟩⟩
    · rw [Std.TreeMap.contains_eq_isSome_getElem?, found]
      rfl
    · replace run := rest_of_ok run rfl
      split at run
      · exact absurd fine (failed_of_fail run)
      · rename_i unreachable
        exact Bool.eq_false_of_not_eq_true unreachable
  · obtain ⟨_, s₂, marked, run⟩ := bind_eq_ok run
    cases run
    obtain ⟨l, fresh, -, -, -, a, labels, rfl⟩ := markOffset_eq_ok (c := c) marked
    refine ⟨new, mem_marked_insert.mpr (.inl rfl), .inr ⟨Std.TreeMap.getElem?_insert_self, ?_⟩⟩
    rcases acceptAt_eq_ok checked with ⟨-, through, expected, -⟩ | ⟨no, -⟩
    · exact ⟨fun goes => (Snapshot.compatible_comm _ _).trans (through goes),
        fun e found => (Snapshot.compatible_comm _ _).trans (expected e found)⟩
    · cases no

/-! ## Sessions -/

/-- Actions lead from an orderly state to another one, and none leads to a failure. -/
inductive Proceeds (f : Function) : State → List Action → State → Prop where
  | nil {s : State} (orderly : Orderly f s) : Proceeds f s [] s
  | cons {s s₁ s' : State} {a : Action} {rest : List Action} (orderly : Orderly f s)
      (run : a.run f s = (.ok (), s₁)) (leaves : a.Leaves f s s₁) (fine : s₁.failure = none)
      (later : Proceeds f s₁ rest s') : Proceeds f s (a :: rest) s'

theorem proceeds_of_forM {actions : List Action} (orderly : Orderly f s)
    (run : actions.forM Action.run f s = (.ok (), s')) (fine : s'.failure = none) :
    Proceeds f s actions s' ∧ s.failure = none := by
  induction actions generalizing s with
  | nil =>
    cases run
    exact ⟨.nil orderly, fine⟩
  | cons a rest ih =>
    obtain ⟨_, s₁, first, run⟩ := bind_eq_ok (x := a.run) run
    obtain ⟨orderly₁, leaves⟩ := (concludes_run a orderly).of_ok first
    obtain ⟨later, fine₁⟩ := ih orderly₁ run
    refine ⟨.cons orderly first leaves fine₁ later, ?_⟩
    -- A failure before the action would still be there after it.
    by_contra failed
    obtain ⟨e, failed⟩ := Option.ne_none_iff_exists'.mp failed
    rw [leaves.failure e failed] at fine₁
    cases fine₁

namespace Proceeds

variable {actions : List Action}

theorem orderly (h : Proceeds f s actions s') : Orderly f s' := by
  induction h with
  | nil orderly => exact orderly
  | cons _ _ _ _ _ ih => exact ih

theorem types (h : Proceeds f s actions s') : s'.registry.types = s.registry.types := by
  induction h with
  | nil _ => rfl
  | cons _ _ leaves _ _ ih => exact ih.trans leaves.types

theorem marked (h : Proceeds f s actions s') (visited : s.marked.contains o = true) :
    s'.marked.contains o = true := by
  induction h with
  | nil _ => exact visited
  | cons _ _ leaves _ _ ih => exact ih (leaves.marked o visited)

theorem marked_of_mem (h : Proceeds f s actions s') (mem : .visit o given ∈ actions) :
    s'.marked.contains o = true := by
  induction h with
  | nil _ => cases mem
  | cons orderly run _ fine later ih =>
    rcases List.mem_cons.mp mem with rfl | mem
    · exact later.marked (accepted_of_visit orderly run fine).marked
    · exact ih mem

theorem not_visit (h : Proceeds f s actions s') (visited : s.marked.contains o = true)
    (given : Snapshot) : .visit o given ∉ actions := by
  intro mem
  induction h with
  | nil _ => cases mem
  | cons orderly run leaves fine _ ih =>
    rcases List.mem_cons.mp mem with rfl | mem
    · rw [(accepted_of_visit orderly run fine).new] at visited
      cases visited
    · exact ih (leaves.marked o visited) mem

end Proceeds

/-- A jump that comes to an offset: the registry at that time and the snapshot it carries. -/
structure Arrival where
  registry : Registry
  carried : Snapshot

/-- The jump to an offset that an action makes. -/
def Action.arrival? (o : Int) (s : State) : Action → Option Arrival
  | .perform op => if op.target? = some o then some ⟨s.registry, op.carried s⟩ else none
  | _ => none

/-- The jumps that come to an offset when actions are done from a state, in order. -/
def arrivals (f : Function) (o : Int) : State → List Action → List Arrival
  | _, [] => []
  | s, a :: rest =>
    (a.arrival? o s).toList ++
      match s.after f a.run with
      | .ok s' => arrivals f o s' rest
      | .error _ => []

theorem arrivals_cons {rest : List Action} (run : a.run f s = (.ok (), s')) :
    arrivals f o s (a :: rest) = (a.arrival? o s).toList ++ arrivals f o s' rest := by
  show _ ++ (match s.after f a.run with | .ok s' => arrivals f o s' rest | .error _ => []) = _
  unfold State.after
  rw [run]

/-- An action that makes no jump to an offset, and does not visit it, expects nothing new there. -/
theorem expected_of_arrival?_none (leaves : a.Leaves f s s') (other : ∀ given, a ≠ .visit o given)
    (no : a.arrival? o s = none) : s'.expected[o]? = s.expected[o]? := by
  apply leaves.elsewhere
  cases a with
  | visit o' given =>
    intro same
    cases same
    exact other given rfl
  | perform op =>
    intro same
    have jumps : op.target? = some o := same
    simp [Action.arrival?, jumps] at no
  | spell types => exact nofun

theorem joined_of_arrival? {x : Arrival} (here : a.arrival? o s = some x)
    (run : a.run f s = (.ok (), s')) (fine : s'.failure = none) :
    x.registry = s.registry ∧ Joined o x.carried s s' := by
  cases a with
  | visit o' given => cases here
  | spell types => cases here
  | perform op =>
    by_cases jumps : op.target? = some o
    · rw [Action.arrival?, if_pos jumps] at here
      cases here
      exact ⟨rfl, joined_of_perform jumps run fine⟩
    · rw [Action.arrival?, if_neg jumps] at here
      cases here

/-- Where a snapshot is expected, all jumps agree with it, and it stays. -/
theorem Proceeds.expected {actions : List Action} {e : Snapshot} (h : Proceeds f s actions s')
    (unvisited : ∀ given, .visit o given ∉ actions) (here : s.expected[o]? = some e) :
    s'.expected[o]? = some e ∧
      ∀ x ∈ arrivals f o s actions, e.compatible x.registry x.carried = true := by
  induction h with
  | nil _ => exact ⟨here, by simp [arrivals]⟩
  | @cons s s₁ s' a rest _ run leaves fine _ ih =>
    have other : ∀ given, a ≠ .visit o given := by
      rintro given rfl
      exact unvisited given List.mem_cons_self
    have later := ih fun given mem => unvisited given (List.mem_cons_of_mem a mem)
    rw [arrivals_cons run]
    cases jump : a.arrival? o s with
    | none =>
      obtain ⟨stays, agree⟩ := later ((expected_of_arrival?_none leaves other jump).trans here)
      exact ⟨stays, agree⟩
    | some x =>
      obtain ⟨registry, -, e', now, ⟨none, -⟩ | ⟨old, agrees⟩⟩ := joined_of_arrival? jump run fine
      · rw [here] at none
        cases none
      · obtain rfl : e = e' := Option.some.inj (here.symm.trans old)
        obtain ⟨stays, agree⟩ := later now
        refine ⟨stays, fun y mem => ?_⟩
        rcases List.mem_cons.mp mem with rfl | mem
        · rw [registry]
          exact agrees
        · exact agree y mem

/-- Where nothing is expected, the first jump notes its snapshot, and the other jumps agree with it. -/
theorem Proceeds.unexpected {actions : List Action} (h : Proceeds f s actions s')
    (unvisited : ∀ given, .visit o given ∉ actions) (here : s.expected[o]? = none) :
    arrivals f o s actions = [] ∧ s'.expected[o]? = none ∨
      ∃ first others, arrivals f o s actions = first :: others ∧ s'.expected[o]? = some first.carried ∧
        ∀ x ∈ others, first.carried.compatible x.registry x.carried = true := by
  induction h with
  | nil _ => exact .inl ⟨rfl, here⟩
  | @cons s s₁ s' a rest _ run leaves fine later ih =>
    have other : ∀ given, a ≠ .visit o given := by
      rintro given rfl
      exact unvisited given List.mem_cons_self
    have unvisited' (given : Snapshot) (mem : .visit o given ∈ rest) : False :=
      unvisited given (List.mem_cons_of_mem a mem)
    rw [arrivals_cons run]
    cases jump : a.arrival? o s with
    | none => exact ih unvisited' ((expected_of_arrival?_none leaves other jump).trans here)
    | some first =>
      obtain ⟨-, -, e, now, ⟨-, rfl⟩ | ⟨old, -⟩⟩ := joined_of_arrival? jump run fine
      · obtain ⟨stays, agree⟩ := later.expected unvisited' now
        exact .inr ⟨first, _, rfl, stays, agree⟩
      · rw [here] at old
        cases old

theorem Action.Leaves.handler (h : a.Leaves f s s') (handler : s.handlers.contains o = true) :
    s'.handlers.contains o = true := by
  rw [Std.TreeMap.contains_eq_isSome_getElem?] at handler ⊢
  obtain ⟨e, found⟩ := Option.isSome_iff_exists.mp handler
  obtain ⟨e', found', -⟩ := h.handlers o e found
  rw [found']
  rfl

/-- No jump comes to a handler. -/
theorem Proceeds.guarded {actions : List Action} (h : Proceeds f s actions s')
    (handler : s.handlers.contains o = true) : arrivals f o s actions = [] := by
  induction h with
  | nil _ => rfl
  | @cons s s₁ s' a rest _ run leaves fine _ ih =>
    rw [arrivals_cons run, ih (leaves.handler handler), List.append_nil]
    cases jump : a.arrival? o s with
    | none => rfl
    | some x =>
      obtain ⟨-, plain, -⟩ := joined_of_arrival? jump run fine
      rw [handler] at plain
      cases plain

/-- The registered types are those the session began with. -/
theorem Proceeds.arrival_types {actions : List Action} (h : Proceeds f s actions s') :
    ∀ x ∈ arrivals f o s actions, x.registry.types = s.registry.types := by
  induction h with
  | nil _ => simp [arrivals]
  | @cons s s₁ s' a rest _ run leaves fine _ ih =>
    intro x mem
    rw [arrivals_cons run] at mem
    rcases List.mem_append.mp mem with here | later
    · have jump : a.arrival? o s = some x := Option.mem_toList.mp here
      rw [(joined_of_arrival? jump run fine).1]
    · exact (ih x later).trans leaves.types

/-- A session without a failure, before, at and after one of its actions. -/
theorem proceeds_of_stateBy {before after : List Action} {t : State}
    (h : stateBy f r (before ++ a :: after) = .ok t) (fine : t.failure = none) :
    ∃ s₀ s s', State.start f r = .ok s₀ ∧ stateBy f r before = .ok s ∧ a.run f s = (.ok (), s') ∧
      s'.failure = none ∧ Proceeds f s₀ before s ∧ Proceeds f s' after t := by
  obtain ⟨s₀, started, acted⟩ := except_bind_eq_ok h
  have begun := begun_of_start started
  obtain ⟨s, first, rest⟩ := forM_append_eq_ok (after_eq_ok acted)
  obtain ⟨_, s', run, last⟩ := bind_eq_ok (x := a.run) rest
  obtain ⟨orderly, -⟩ := orderly_forM begun.orderly first
  obtain ⟨orderly', leaves⟩ := (concludes_run a orderly).of_ok run
  obtain ⟨later, fine'⟩ := proceeds_of_forM orderly' last fine
  have alone : [a].forM Action.run f s = (.ok (), s') := bind_of_eq_ok run
  obtain ⟨-, fine₁⟩ := proceeds_of_forM orderly alone fine'
  obtain ⟨earlier, -⟩ := proceeds_of_forM begun.orderly first fine₁
  exact ⟨s₀, s, s', started, stateBy_of_eq_ok started first, run, fine', earlier, later⟩

/-- **Joins.** In a session without a failure, the snapshot given at a visit agrees with the one that
falls through, with the first jump before the visit and with every jump after it. The other jumps
before the visit agree with the first one. All of them have the same depth and kinds. -/
theorem joins_agree {before after : List Action} {given : Snapshot} {t : State}
    (h : stateBy f r (before ++ .visit o given :: after) = .ok t) (fine : t.failure = none) :
    ∃ s₀ s s', State.start f r = .ok s₀ ∧ stateBy f r before = .ok s ∧
      (Action.visit o given).run f s = (.ok (), s') ∧
      (s.reachable = true → given.compatible s.registry s.stack = true) ∧
      (∀ first others, arrivals f o s₀ before = first :: others →
        given.compatible s.registry first.carried = true ∧
          ∀ x ∈ others, first.carried.compatible x.registry x.carried = true) ∧
      (∀ x ∈ arrivals f o s' after, given.compatible x.registry x.carried = true) ∧
      ∀ x ∈ arrivals f o s₀ before ++ arrivals f o s' after, x.carried.kinds r = given.kinds r := by
  obtain ⟨s₀, s, s', started, reached, run, fine', earlier, later⟩ := proceeds_of_stateBy h fine
  have begun := begun_of_start started
  have accepted := accepted_of_visit earlier.orderly run fine'
  obtain ⟨-, leaves⟩ := (concludes_run _ earlier.orderly).of_ok run
  -- The offset is visited once.
  have unvisited (given' : Snapshot) : .visit o given' ∉ before := by
    intro mem
    have marked := earlier.marked_of_mem mem
    rw [accepted.new] at marked
    cases marked
  have before_ := earlier.unexpected unvisited (begun.expected o)
  refine ⟨s₀, s, s', started, reached, run, ?_⟩
  rcases accepted.arrives with ⟨handler, unreachable⟩ | ⟨expected, through, jumped⟩
  · -- Control comes to a handler in no other way than by an exception.
    have none : arrivals f o s₀ before = [] := by
      rcases before_ with ⟨none, -⟩ | ⟨first, others, -, found, -⟩
      · exact none
      · rw [earlier.orderly.guarded o handler] at found
        cases found
    have none' : arrivals f o s' after = [] := later.guarded (leaves.handler handler)
    rw [none, none', unreachable]
    exact ⟨nofun, nofun, nofun, nofun⟩
  · have after_ := (later.expected (later.not_visit accepted.marked) expected).2
    have types : s.registry.types = r.types := earlier.types.trans begun.types
    have types' : s'.registry.types = r.types := leaves.types.trans types
    have joins : ∀ first others, arrivals f o s₀ before = first :: others →
        given.compatible s.registry first.carried = true ∧
          ∀ x ∈ others, first.carried.compatible x.registry x.carried = true := by
      intro first others found
      rcases before_ with ⟨none, -⟩ | ⟨first', others', some_, noted, agree⟩
      · rw [none] at found
        cases found
      · rw [some_] at found
        cases found
        exact ⟨jumped _ noted, agree⟩
    refine ⟨through, joins, after_, fun x mem => ?_⟩
    -- Agreement gives the same kinds, and these do not depend on the time of the jump.
    have same {a b : Snapshot} {r' : Registry} (types : r'.types = r.types)
        (agree : a.compatible r' b = true) : b.kinds r = a.kinds r := by
      rw [← Snapshot.kinds_of_types types a, ← Snapshot.kinds_of_types types b]
      exact (Snapshot.kinds_of_compatible agree).symm
    rcases List.mem_append.mp mem with old | new
    · have timely : x.registry.types = r.types := (earlier.arrival_types x old).trans begun.types
      cases found : arrivals f o s₀ before with
      | nil =>
          rw [found] at old
          cases old
      | cons first others =>
          obtain ⟨agrees, agree⟩ := joins first others found
          rw [found] at old
          rcases List.mem_cons.mp old with rfl | old
          · exact same types agrees
          · exact (same timely (agree x old)).trans (same types agrees)
    · exact same ((later.arrival_types x new).trans types') (after_ x new)

/-- Two jumps to one offset, the first with an object and the second with a number. -/
def jumpingTwice : List Action :=
  [.visit 0 [], .perform (.loadLocal 0), .perform (.loadConst (.bool true)),
    .perform (.popJumpIf true 10), .perform .pop, .perform (.loadConst (.int 5)), .perform (.jump 10)]

/-- A text is expected where a number may come: the visit accepts it, since the first jump carries
an object, which agrees with both. -/
theorem jumpingTwice_disagrees :
    (method? taking .builtin
        (jumpingTwice ++ [.visit 10 [.ofType strType], .perform .returnValue])).isSome = true ∧
      ∃ s₀, State.start taking .builtin = .ok s₀ ∧
        ∃ x ∈ arrivals taking 10 s₀ jumpingTwice,
          Snapshot.compatible x.registry [.ofType strType] x.carried = false := by
  obtain ⟨s₀, started, disagrees⟩ := exists_of_any (x := State.start taking .builtin)
    (p := fun s₀ => (arrivals taking 10 s₀ jumpingTwice).any fun x =>
      !Snapshot.compatible x.registry [.ofType strType] x.carried) (by decide +kernel)
  refine ⟨by decide +kernel, s₀, started, ?_⟩
  obtain ⟨x, mem, differs⟩ := List.any_eq_true.mp disagrees
  exact ⟨x, mem, Bool.not_eq_true' _ ▸ differs⟩

/-- Two jumps forwards to an offset, which control falls into as well. -/
def joining : List Action :=
  [.visit 0 [], .perform (.loadConst (.int 1)), .perform (.loadLocal 0),
    .perform (.popJumpIfNone true 10), .perform (.loadConst (.bool true)), .perform (.popJumpIf false 10)]

/-- A jump back to the offset. -/
def joiningEnd : List Action :=
  [.perform (.loadLocal 0), .perform (.popJumpIfNone true 10), .perform .returnValue]

theorem joins_agree_joining : ∃ t s₀ s s',
    stateBy taking .builtin (joining ++ .visit 10 [.ofType intType] :: joiningEnd) = .ok t ∧
      t.failure = none ∧ State.start taking .builtin = .ok s₀ ∧ stateBy taking .builtin joining = .ok s ∧
      (Action.visit 10 [.ofType intType]).run taking s = (.ok (), s') ∧ s.reachable = true ∧
      Snapshot.compatible s.registry [.ofType intType] s.stack = true ∧
      (arrivals taking 10 s₀ joining).length = 2 ∧ (arrivals taking 10 s' joiningEnd).length = 1 ∧
      (∀ x ∈ arrivals taking 10 s' joiningEnd,
        Snapshot.compatible x.registry [.ofType intType] x.carried = true) ∧
      ∀ x ∈ arrivals taking 10 s₀ joining ++ arrivals taking 10 s' joiningEnd,
        x.carried.kinds .builtin = [.ref] := by
  obtain ⟨t, h, fine⟩ := exists_of_any
    (x := stateBy taking .builtin (joining ++ .visit 10 [.ofType intType] :: joiningEnd))
    (p := fun t => t.failure.isNone) (by decide +kernel)
  have fine : t.failure = none := Option.isNone_iff_eq_none.mp fine
  obtain ⟨s₀, s, s', started, reached, run, through, -, after_, kinds⟩ := joins_agree h fine
  obtain ⟨u₀, started', two⟩ := exists_of_any (x := State.start taking .builtin)
    (p := fun s₀ => (arrivals taking 10 s₀ joining).length == 2) (by decide +kernel)
  obtain ⟨u, reached', goes⟩ := exists_of_any (x := stateBy taking .builtin joining)
    (p := fun s => s.reachable) (by decide +kernel)
  obtain ⟨u', visited, one⟩ := exists_of_any
    (x := stateBy taking .builtin (joining ++ [.visit 10 [.ofType intType]]))
    (p := fun s' => (arrivals taking 10 s' joiningEnd).length == 1) (by decide +kernel)
  -- These are the states that the theorem speaks of.
  obtain rfl : u₀ = s₀ := Except.ok.inj (started'.symm.trans started)
  obtain rfl : u = s := Except.ok.inj (reached'.symm.trans reached)
  obtain rfl : u' = s' := (Prod.mk.inj ((run_of_stateBy reached visited).symm.trans run)).2
  refine ⟨t, u₀, u, u', h, fine, started, reached, run, goes, through goes, beq_iff_eq.mp two,
    beq_iff_eq.mp one, after_, fun x mem => (kinds x mem).trans ?_⟩
  decide +kernel

end HostLowering.Lower
