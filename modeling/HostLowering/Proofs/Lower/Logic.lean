import HostLowering.Lower.Script
import HostLowering.Proofs.Machine.Typing

set_option autoImplicit false

/-! # A logic for lowering steps

What a step of lowering does to the depth of the host stack. A *view* adds to the state what the
state does not keep: the symbolic code and the depth at each label. The `Invariant` ties both
together. A *point* says how deep the host stack and the snapshot are at the end of the code, and
whether the source goes on there. `Moves c Γ x p q Δ` says that the step `x` leads from point `p` to
point `q`; it may use the facts `Γ` and adds the facts `Δ` about its result. Facts are stable: no
later step makes them false.

A step after which a failure or an error of the assembler is recorded says nothing, and neither does
one that ends with a defect. So `Moves` asks for its facts only in states that are `Fine`.
-/

namespace HostLowering.Lower

open Machine Catalog Lowering

/-! ## References -/

/-- The methods of the library that lowered code may invoke. -/
def libraryReferences : List MethodRef :=
  [Library.getType, Library.getAttributeOrError, Library.getAttributeOrNull, Library.call,
    Library.boundFunctionInit, Library.boundFunctionInstance, Library.getDefiningTypeOrNull,
    Library.isInstance, Library.getDunderOrError, Library.boolValueOf, Library.intValueOf,
    Library.strValueOf, Library.collectionInit Library.listClass,
    Library.collectionInit Library.dictClass, Library.collectionInit Library.tupleClass,
    Library.collectionInit Library.setClass, Library.reverseAdd Library.listClass,
    Library.reverseAdd Library.tupleClass, Library.reverseAdd Library.setClass, Library.listAdd,
    Library.listExtend, Library.listGet, Library.listSize, Library.listCut, Library.dictPut,
    Library.sliceInit, Library.stopIterationValue, Library.setCause, Library.coerceToType,
    Library.currentTraceback, Library.unsupportedOperandsError, Library.noAttributeError,
    Library.unpackTooFewError, Library.unpackTooManyError, Library.unpackTooFewStarredError,
    Library.notSupportedError]

/-- The methods that code lowered with a registry may invoke. -/
def references (r : Registry) : Set MethodRef :=
  { m | m ∈ libraryReferences ∨ ∃ s, r.Knows s ∧ s.method = m }

/-! ## States and views -/

theorem Function.nonneg_localBase (f : Function) : 0 ≤ f.localBase := by
  unfold Function.localBase
  split <;> decide

theorem Function.localBase_le (f : Function) : f.localBase ≤ f.slotBase := by
  unfold Function.slotBase
  omega

theorem Function.nonneg_slotBase (f : Function) : 0 ≤ f.slotBase := f.nonneg_localBase.trans f.localBase_le

/-- What stays the same while a function is lowered: the function, the methods its code may invoke,
and the source offsets that may have been marked before a region opened that ends there. -/
structure Setting where
  function : Function
  refs : Set MethodRef
  clear : Clear refs
  library : ∀ m ∈ libraryReferences, m ∈ refs
  early : List Int

/-- The symbolic code and the depth at each label. -/
structure View where
  items : List Item
  depth : Depths

/-- Nothing is wrong with a state. -/
def State.Fine (s : State) : Prop := s.failure = none ∧ s.assembler.error = none

/-- The depth of the host stack at a source offset: an exception handler is entered with the thrown
value alone, and everything else with the snapshot expected there. -/
def State.sourceDepth (s : State) (o : Int) : Option Nat :=
  if s.handlers.contains o then some 1 else (s.expected[o]?).map List.length

/-- The depth with which a suspended generator resumes. -/
def ResumePoint.depth (p : ResumePoint) : Nat := if p.frameOnly then 0 else p.stack.length + 1

/-- The state and the view belong together. -/
structure Invariant (c : Setting) (v : View) (s : State) : Prop where
  held : Held c.refs v.items s.assembler
  within : Within v.items s.pool.maxLocals
  fresh : ∀ l, s.assembler.labels.size ≤ l → v.depth l = none
  sources : ∀ (o : Int) (l : Label), s.labels[o]? = some l →
    l < s.assembler.labels.size ∧ v.depth l = s.sourceDepth o ∧
      (s.marked.contains o = false → s.assembler.position? l = none)
  distinct : ∀ (o o' : Int) (l : Label), s.labels[o]? = some l → s.labels[o']? = some l → o = o'
  guards : ∀ h ∈ s.assembler.handlers, v.depth h.target = some 1 ∧
    ∃ p, s.assembler.position? h.start = some p ∧
      ((∀ q, s.assembler.position? h.stop = some q → p ≤ q) ∨
        ∃ o ∈ c.early, s.labels[o]? = some h.stop ∧ s.marked.contains o = true)
  resumes : ∀ p ∈ s.resumes, v.depth p.label = some p.depth ∧ ∀ i ∈ p.frame, i < s.pool.maxLocals
  first : ∀ n : Nat, s.first = some n → s.sourceDepth n = some 1
  kept : ∀ (o : Int) (h : HandlerEntry), s.handlers[o]? = some h →
    ∀ k ∈ h.kept, k.1 < s.pool.maxLocals
  arguments : c.function.argCount ≤ c.function.locals.size
  slots : c.function.slotBase + 2 ≤ s.pool.maxLocals
  reserved : ∀ i ∈ s.pool.reserved, i < s.pool.maxLocals
  registry : ∀ sig, s.registry.Knows sig → sig.Sound ∧ sig.method ∈ c.refs

/-- The depth of the host stack at the end of the code, none where control does not get, the depth of
the snapshot, and whether the source goes on. -/
structure Point where
  depth : Option Nat
  slots : Nat
  live : Bool

theorem Point.ext_nat {d d' m m' : Nat} {b : Bool} (depth : d = d') (slots : m = m') :
    (⟨some d, m, b⟩ : Point) = ⟨some d', m', b⟩ := by
  rw [depth, slots]

/-- The items can be passed and leave a depth, or control does not reach their end. -/
def View.Ends (v : View) : Option Nat → Prop
  | some d => Flows v.depth v.items d
  | none => Dead v.depth v.items

theorem View.Ends.mono {items : List Item} {depth depth' : Depths} (le : depth.Le depth')
    {d : Option Nat} (h : View.Ends ⟨items, depth⟩ d) : View.Ends ⟨items, depth'⟩ d := by
  cases d with
  | some d => exact Flows.mono le h
  | none => exact fun d => Flows.mono le (h d)

/-- The state is at a point. -/
structure Point.At (p : Point) (v : View) (s : State) : Prop where
  ends : v.Ends p.depth
  slots : s.stack.length = p.slots
  live : s.reachable = p.live

/-! ## Facts -/

/-- What a step may rely on. -/
inductive Fact where
  | deep (l : Label) (d : Nat)
  /-- A label that belongs to no source offset. -/
  | inner (l : Label)
  | placed (l : Label)
  /-- A label that is marked, and not behind another one. -/
  | before (l l' : Label)
  | source (o : Int) (l : Label)
  | expects (o : Int) (d : Nat)
  /-- A source offset that counts as marked, and whether a handler begins there. -/
  | marked (o : Int) (handler : Bool)
  /-- A source offset that was given a snapshot of some depth. -/
  | visited (o : Int) (d : Nat)
  | dispatch (l : Label)
  | locals (is : List Int)
  /-- Anything that does not depend on the state. -/
  | prop (p : Prop)

def Fact.Holds (v : View) (s : State) : Fact → Prop
  | deep l d => v.depth l = some d
  | inner l => l < s.assembler.labels.size ∧ ∀ o : Int, s.labels[o]? ≠ some l
  | placed l => (s.assembler.position? l).isSome = true
  | before l l' => ∃ p, s.assembler.position? l = some p ∧
      ∀ q, s.assembler.position? l' = some q → p ≤ q
  | source o l => s.labels[o]? = some l
  | expects o d => s.sourceDepth o = some d
  | marked o handler => s.marked.contains o = true ∧ s.handlers.contains o = handler
  | visited o d => s.marked.contains o = true ∧ ∃ l, s.labels[o]? = some l ∧
      (s.assembler.position? l).isSome = true ∧
      v.depth l = some (if s.handlers.contains o then 1 else d)
  | dispatch l => s.dispatch = l
  | locals is => ∀ i ∈ is, i < s.pool.maxLocals
  | prop p => p

/-- What no step takes back. -/
structure Grows (v : View) (s : State) (v' : View) (s' : State) : Prop where
  depth : v.depth.Le v'.depth
  labels : s.assembler.labels.size ≤ s'.assembler.labels.size
  positions : ∀ l p, s.assembler.position? l = some p → s'.assembler.position? l = some p
  later : ∀ l q, s'.assembler.position? l = some q → s.assembler.position? l = some q ∨
    ∀ l' p, s.assembler.position? l' = some p → p ≤ q
  sources : ∀ (o : Int) (l : Label), s.labels[o]? = some l → s'.labels[o]? = some l
  newer : ∀ (o : Int) (l : Label), s'.labels[o]? = some l →
    s.labels[o]? = some l ∨ s.assembler.labels.size ≤ l
  expects : ∀ o d, s.sourceDepth o = some d → s'.sourceDepth o = some d
  marked : ∀ o, s.marked.contains o = true → s'.marked.contains o = true
  handlers : ∀ o, s.marked.contains o = true → s'.handlers.contains o = s.handlers.contains o
  dispatch : s'.dispatch = s.dispatch
  maxLocals : s.pool.maxLocals ≤ s'.pool.maxLocals

variable {v v' : View} {s s' : State} {φ : Fact} {P : Prop} {i : Int}

theorem Fact.Holds.mono (grows : Grows v s v' s') (h : φ.Holds v s) : φ.Holds v' s' := by
  have placed (l : Label) (h : (s.assembler.position? l).isSome = true) :
      (s'.assembler.position? l).isSome = true := by
    obtain ⟨p, hp⟩ := Option.isSome_iff_exists.mp h
    rw [grows.positions l p hp]
    rfl
  cases φ with
  | deep l d => exact grows.depth l d h
  | inner l =>
    refine ⟨h.1.trans_le grows.labels, fun o ho => ?_⟩
    rcases grows.newer o l ho with old | new
    · exact h.2 o old
    · exact absurd h.1 (Nat.not_lt.mpr new)
  | placed l => exact placed l h
  | before l l' =>
    obtain ⟨p, hp, ordered⟩ := h
    refine ⟨p, grows.positions l p hp, fun q hq => ?_⟩
    rcases grows.later l' q hq with old | new
    · exact ordered q old
    · exact new l p hp
  | source o l => exact grows.sources o l h
  | expects o d => exact grows.expects o d h
  | marked o handler => exact ⟨grows.marked o h.1, (grows.handlers o h.1).trans h.2⟩
  | visited o d =>
    obtain ⟨marked, l, hl, hp, depth⟩ := h
    refine ⟨grows.marked o marked, l, grows.sources o l hl, placed l hp, ?_⟩
    rw [grows.handlers o marked]
    exact grows.depth l _ depth
  | dispatch l => exact grows.dispatch.trans h
  | locals is => exact fun i hi => (h i hi).trans_le grows.maxLocals
  | prop p => exact h

/-! ## Steps -/

def Known (c : Setting) (Γ : List Fact) (p : Point) (s : State) : Prop :=
  ∃ v, Invariant c v s ∧ p.At v s ∧ ∀ φ ∈ Γ, φ.Holds v s

/-- A step leads from one point to another and adds facts about its result. -/
def Moves {α : Type} (c : Setting) (Γ : List Fact) (x : Lowering α) (p q : Point)
    (Δ : α → List Fact) : Prop :=
  ∀ s a s', (s.Fine → Known c Γ p s) → x c.function s = (.ok a, s') → s'.Fine →
    Known c (Δ a ++ Γ) q s'

variable {α β : Type} {c : Setting} {Γ : List Fact} {x : Lowering α} {p q r : Point}
  {Δ : α → List Fact} {f : Function}

/-- Facts that were known in between need not be. -/
theorem Known.forget {Δ Φ : List Fact} (h : Known c (Δ ++ (Φ ++ Γ)) p s) : Known c (Δ ++ Γ) p s := by
  obtain ⟨v, inv, here, facts⟩ := h
  refine ⟨v, inv, here, fun φ mem => facts φ ?_⟩
  rcases List.mem_append.mp mem with new | old
  · exact List.mem_append_left _ new
  · exact List.mem_append_right _ (List.mem_append_right _ old)

theorem bind_of_eq_ok {k : α → Lowering β} {a : α} (h : x f s = (.ok a, s')) :
    (x >>= k) f s = k a f s' := by
  simp only [Bind.bind, ReaderT.bind, ExceptT.bind, ExceptT.mk, StateT.bind, h]
  rfl

/-- What is left to do behind a step of which it is known where it leads. -/
theorem rest_of_ok {k : α → Lowering β} {a : α} {b : Except Defect β × State}
    (h : (x >>= k) f s = b) (first : x f s = (.ok a, s')) : k a f s' = b :=
  (bind_of_eq_ok first).symm.trans h

theorem failed_of_fail {e : Cause} {u : Unit} (h : Lowering.fail e f s = (.ok u, s')) :
    s'.failure ≠ none := by
  obtain ⟨-, rfl⟩ := Prod.mk.inj h
  simp

theorem bind_of_eq_error {k : α → Lowering β} {d : Defect} (h : x f s = (.error d, s')) :
    (x >>= k) f s = (.error d, s') := by
  simp only [Bind.bind, ReaderT.bind, ExceptT.bind, ExceptT.mk, StateT.bind, h]
  rfl

theorem bind_eq_ok {k : α → Lowering β} {b : β} (h : (x >>= k) f s = (.ok b, s')) :
    ∃ a s₁, x f s = (.ok a, s₁) ∧ k a f s₁ = (.ok b, s') := by
  cases run : x f s with
  | mk r s₁ =>
    cases r with
    | ok a =>
      rw [bind_of_eq_ok run] at h
      exact ⟨a, s₁, rfl, h⟩
    | error d =>
      rw [bind_of_eq_error run] at h
      cases h

theorem failed_of_failWith {e : Cause} {a b : α}
    (h : (do Lowering.fail e; pure a : Lowering α) f s = (.ok b, s')) : s'.failure ≠ none := by
  obtain ⟨_, s₁, failed, h⟩ := bind_eq_ok h
  cases h
  exact failed_of_fail failed

namespace Moves

theorem bind {k : α → Lowering β} {Δ' : β → List Fact} (h : Moves c Γ x p q Δ)
    (h' : ∀ a, Moves c (Δ a ++ Γ) (k a) q r Δ') : Moves c Γ (x >>= k) p r Δ' := by
  intro s b s' known run fine
  obtain ⟨a, s₁, first, second⟩ := bind_eq_ok run
  exact (h' a s₁ b s' (h s a s₁ known first) second fine).forget

/-- Two steps of which the first adds no facts. -/
theorem seq {k : α → Lowering β} {Δ' : β → List Fact} (h : Moves c Γ x p q fun _ => [])
    (h' : ∀ a, Moves c Γ (k a) q r Δ') : Moves c Γ (x >>= k) p r Δ' :=
  h.bind h'

theorem pure (a : α) : Moves c Γ (Pure.pure a) p p fun _ => [] := by
  intro s b s' known run fine
  obtain ⟨-, rfl⟩ : Except.ok a = Except.ok b ∧ s = s' := Prod.mk.inj run
  exact known fine

/-- A result whose facts follow from those known. -/
theorem ret {a : α} (h : ∀ v s, (∀ φ ∈ Γ, φ.Holds v s) → ∀ φ ∈ Δ a, φ.Holds v s) :
    Moves c Γ (Pure.pure a) p p Δ := by
  intro s b s' known run fine
  obtain ⟨same, rfl⟩ : Except.ok a = Except.ok b ∧ s = s' := Prod.mk.inj run
  cases same
  obtain ⟨v, inv, here, facts⟩ := known fine
  refine ⟨v, inv, here, fun φ mem => ?_⟩
  rcases List.mem_append.mp mem with new | old
  · exact h v s facts φ new
  · exact facts φ old

theorem defect (d : Defect) : Moves c Γ (Lowering.defect d : Lowering α) p q Δ := by
  intro s a s' _ run
  cases run

theorem fail (e : Cause) {Δ : Unit → List Fact} : Moves c Γ (Lowering.fail e) p q Δ := by
  intro s a s' _ run fine
  exact absurd fine.1 (failed_of_fail run)

/-- Nothing is left to do where a failure has been recorded. -/
theorem never {a : α} (mem : .prop P ∈ Γ) (no : ¬P) : Moves c Γ (Pure.pure a) p q Δ := by
  intro s b s' known run fine
  obtain ⟨-, rfl⟩ : Except.ok a = Except.ok b ∧ s = s' := Prod.mk.inj run
  obtain ⟨v, -, -, facts⟩ := known fine
  exact absurd (facts _ mem) no

/-- A failure, and a result that says so. -/
theorem failWith (e : Cause) (a : α) :
    Moves c Γ (do Lowering.fail e; Pure.pure a) p q Δ :=
  .bind (q := q) (.fail e (Δ := fun _ => [.prop False])) fun _ => .never List.mem_cons_self id

/-- Where a point can be given in another way, by what is known. -/
theorem conv (mem : .prop P ∈ Γ) (eq : P → p = r) (h : Moves c Γ x r q Δ) : Moves c Γ x p q Δ := by
  intro s a s' known
  refine h s a s' fun fine => ?_
  obtain ⟨v, inv, here, facts⟩ := known fine
  exact ⟨v, inv, eq (facts _ mem) ▸ here, facts⟩

theorem post (h : Moves c Γ x p r Δ) (mem : ∀ a, .prop P ∈ Δ a ++ Γ) (eq : P → r = q) :
    Moves c Γ x p q Δ := by
  intro s a s' known run fine
  obtain ⟨v, inv, here, facts⟩ := h s a s' known run fine
  exact ⟨v, inv, eq (facts _ (mem a)) ▸ here, facts⟩

/-- Fewer facts about the result, or others that follow. -/
theorem weaken {Δ' : α → List Fact} (h : Moves c Γ x p q Δ)
    (sub : ∀ a v s, Invariant c v s → (∀ φ ∈ Δ a ++ Γ, φ.Holds v s) → ∀ φ ∈ Δ' a, φ.Holds v s) :
    Moves c Γ x p q Δ' := by
  intro s a s' known run fine
  obtain ⟨v, inv, here, facts⟩ := h s a s' known run fine
  refine ⟨v, inv, here, fun φ mem => ?_⟩
  rcases List.mem_append.mp mem with new | old
  · exact sub a v s' inv facts φ new
  · exact facts φ (List.mem_append_right _ old)

/-- One more fact that follows. -/
theorem derive (follows : ∀ v s, (∀ ψ ∈ Γ, ψ.Holds v s) → φ.Holds v s)
    (h : Moves c (φ :: Γ) x p q Δ) : Moves c Γ x p q Δ := by
  intro s a s' known run fine
  have more : s.Fine → Known c (φ :: Γ) p s := fun start => by
    obtain ⟨v, inv, here, facts⟩ := known start
    refine ⟨v, inv, here, fun ψ mem => ?_⟩
    rcases List.mem_cons.mp mem with rfl | old
    · exact follows v s facts
    · exact facts ψ old
  exact (h s a s' more run fine).forget (Φ := [φ])

/-- Where control does not get, every depth will do. -/
theorem dead {d m : Nat} {b : Bool} (h : Moves c Γ x ⟨some d, m, b⟩ q Δ) :
    Moves c Γ x ⟨none, m, b⟩ q Δ := by
  intro s a s' known
  refine h s a s' fun fine => ?_
  obtain ⟨v, inv, here, facts⟩ := known fine
  exact ⟨v, inv, ⟨here.ends d, here.slots, here.live⟩, facts⟩

theorem revive {d m : Nat} {b : Bool} (h : Moves c Γ x p ⟨none, m, b⟩ Δ) :
    Moves c Γ x p ⟨some d, m, b⟩ Δ := by
  intro s a s' known run fine
  obtain ⟨v, inv, here, facts⟩ := h s a s' known run fine
  exact ⟨v, inv, ⟨here.ends d, here.slots, here.live⟩, facts⟩

/-- A step whose result is not used. -/
theorem discard (h : Moves c Γ x p q fun _ => []) : Moves c Γ (discard x) p q fun _ => [] :=
  .seq h fun _ => .pure ()

/-- A step from what it does to the state. -/
theorem step (h : ∀ s a s', x c.function s = (.ok a, s') → s'.Fine → s.Fine ∧
      ∀ v, Invariant c v s → p.At v s → (∀ φ ∈ Γ, φ.Holds v s) →
        ∃ v', Invariant c v' s' ∧ Grows v s v' s' ∧ q.At v' s' ∧ ∀ φ ∈ Δ a, φ.Holds v' s') :
    Moves c Γ x p q Δ := by
  intro s a s' known run fine
  obtain ⟨before, next⟩ := h s a s' run fine
  obtain ⟨v, inv, here, facts⟩ := known before
  obtain ⟨v', inv', grows, there, new⟩ := next v inv here facts
  refine ⟨v', inv', there, fun φ mem => ?_⟩
  rcases List.mem_append.mp mem with added | old
  · exact new φ added
  · exact (facts φ old).mono grows

end Moves

/-! ## Steps that emit nothing -/

/-- A change of the state that the invariant does not notice. -/
structure Quiet (s s' : State) : Prop where
  assembler : s'.assembler = s.assembler
  labels : s'.labels = s.labels
  marked : s'.marked = s.marked
  expected : s'.expected = s.expected
  handlers : s'.handlers = s.handlers
  resumes : s'.resumes = s.resumes
  first : s'.first = s.first
  dispatch : s'.dispatch = s.dispatch
  failure : s'.failure = none → s.failure = none
  maxLocals : s.pool.maxLocals ≤ s'.pool.maxLocals
  reserved : ∀ i ∈ s'.pool.reserved, i ∈ s.pool.reserved ∨ i < s'.pool.maxLocals
  registry : ∀ sig, s'.registry.Knows sig → s.registry.Knows sig

theorem Quiet.fine (h : Quiet s s') (fine : s'.Fine) : s.Fine :=
  ⟨h.failure fine.1, h.assembler ▸ fine.2⟩

theorem Quiet.sourceDepth (h : Quiet s s') (o : Int) : s'.sourceDepth o = s.sourceDepth o := by
  unfold State.sourceDepth
  rw [h.handlers, h.expected]

/-- Nothing grows where code, labels and source offsets stay. -/
theorem Grows.of_eq (assembler : s'.assembler = s.assembler) (labels : s'.labels = s.labels)
    (marked : s'.marked = s.marked) (expected : s'.expected = s.expected)
    (handlers : s'.handlers = s.handlers) (dispatch : s'.dispatch = s.dispatch)
    (maxLocals : s.pool.maxLocals ≤ s'.pool.maxLocals) : Grows v s v s' where
  depth _ _ known := known
  labels := by rw [assembler]
  positions l p hp := by rwa [assembler]
  later l q hq := .inl (assembler ▸ hq)
  sources o l hl := by rwa [labels]
  newer o l hl := .inl (labels ▸ hl)
  expects o d hd := by
    unfold State.sourceDepth at hd ⊢
    rwa [handlers, expected]
  marked o ho := by rwa [marked]
  handlers o _ := by rw [handlers]
  dispatch := dispatch
  maxLocals := maxLocals

theorem Grows.refl (v : View) (s : State) : Grows v s v s :=
  .of_eq rfl rfl rfl rfl rfl rfl le_rfl

theorem Quiet.grows (h : Quiet s s') : Grows v s v s' :=
  .of_eq h.assembler h.labels h.marked h.expected h.handlers h.dispatch h.maxLocals

theorem Invariant.quiet (inv : Invariant c v s) (h : Quiet s s') : Invariant c v s' where
  held := h.assembler ▸ inv.held
  within := inv.within.mono h.maxLocals
  fresh l hl := inv.fresh l (h.assembler ▸ hl)
  sources o l hl := by
    rw [h.labels] at hl
    rw [h.assembler, h.marked, h.sourceDepth]
    exact inv.sources o l hl
  distinct := by
    rw [h.labels]
    exact inv.distinct
  guards := by
    rw [h.assembler, h.labels, h.marked]
    exact inv.guards
  resumes p hp := by
    obtain ⟨depth, frame⟩ := inv.resumes p (h.resumes ▸ hp)
    exact ⟨depth, fun i hi => (frame i hi).trans_le h.maxLocals⟩
  first n hn := by
    rw [h.sourceDepth]
    exact inv.first n (h.first ▸ hn)
  kept o e he k hk := (inv.kept o e (h.handlers ▸ he) k hk).trans_le h.maxLocals
  arguments := inv.arguments
  slots := inv.slots.trans h.maxLocals
  reserved i hi := by
    rcases h.reserved i hi with old | new
    · exact (inv.reserved i old).trans_le h.maxLocals
    · exact new
  registry sig known := inv.registry sig (h.registry sig known)

namespace Moves

/-- A step that the invariant does not notice. -/
theorem quiet (depth : q.depth = p.depth) (h : ∀ s a s', x c.function s = (.ok a, s') → s'.Fine →
      Quiet s s' ∧ (s.stack.length = p.slots → s'.stack.length = q.slots) ∧
        (s.reachable = p.live → s'.reachable = q.live) ∧
        ∀ v, Invariant c v s → s.stack.length = p.slots → ∀ φ ∈ Δ a, φ.Holds v s') :
    Moves c Γ x p q Δ := by
  refine .step fun s a s' run fine => ?_
  obtain ⟨quiet, slots, live, facts⟩ := h s a s' run fine
  refine ⟨quiet.fine fine, fun v inv here _ => ⟨v, inv.quiet quiet, quiet.grows, ?_, ?_⟩⟩
  · exact ⟨depth ▸ here.ends, slots here.slots, live here.live⟩
  · exact facts v inv here.slots

/-- A step that reads the state. -/
theorem reads (h : ∀ s, (x c.function s).2 = s) : Moves c Γ x p p fun _ => [] := by
  intro s a s' known run fine
  obtain rfl : s = s' := by rw [← h s, run]
  exact known fine

theorem read {k : Function → Lowering β} {Δ : β → List Fact}
    (h : Moves c Γ (k c.function) p q Δ) : Moves c Γ (MonadReaderOf.read >>= k) p q Δ :=
  h

theorem pureBind {k : α → Lowering β} {Δ : β → List Fact} {a : α} (h : Moves c Γ (k a) p q Δ) :
    Moves c Γ (Pure.pure a >>= k) p q Δ :=
  h

end Moves

/-! ## Steps from a given state -/

/-- A step leads from one point to another when it starts in a given state. -/
def MovesFrom (c : Setting) (Γ : List Fact) (x : Lowering α) (s : State) (p q : Point)
    (Δ : α → List Fact) : Prop :=
  ∀ a s', (s.Fine → Known c Γ p s) → x c.function s = (.ok a, s') → s'.Fine → Known c (Δ a ++ Γ) q s'

namespace MovesFrom

/-- Two steps. The second one starts in the state that the first one leaves. -/
theorem bindFrom {k : α → Lowering β} {Δ' : β → List Fact} (h : MovesFrom c Γ x s p q Δ)
    (h' : ∀ a s₁, x c.function s = (.ok a, s₁) → MovesFrom c (Δ a ++ Γ) (k a) s₁ q r Δ') :
    MovesFrom c Γ (x >>= k) s p r Δ' := by
  intro b s' known run fine
  obtain ⟨a, s₁, first, second⟩ := bind_eq_ok run
  exact (h' a s₁ first b s' (h a s₁ known first) second fine).forget

theorem bind {k : α → Lowering β} {Δ' : β → List Fact} (h : MovesFrom c Γ x s p q Δ)
    (h' : ∀ a, Moves c (Δ a ++ Γ) (k a) q r Δ') : MovesFrom c Γ (x >>= k) s p r Δ' :=
  h.bindFrom fun a s₁ _ => h' a s₁

/-- A step that reads the state. -/
theorem reads {k : α → Lowering β} {Δ : β → List Fact} {a : α} (h : x c.function s = (.ok a, s))
    (h' : MovesFrom c Γ (k a) s p q Δ) : MovesFrom c Γ (x >>= k) s p q Δ := by
  intro b s' known run fine
  obtain ⟨a', s₁, first, second⟩ := bind_eq_ok run
  obtain ⟨same, rfl⟩ := Prod.mk.inj (h.symm.trans first)
  cases same
  exact h' b s' known second fine

theorem modify {g : State → State} {k : Unit → Lowering β} {Δ : β → List Fact}
    (fine : (g s).Fine → s.Fine)
    (keeps : ∀ v, Invariant c v s → p.At v s → (∀ φ ∈ Γ, φ.Holds v s) →
      ∃ v', Invariant c v' (g s) ∧ Grows v s v' (g s) ∧ q.At v' (g s))
    (h : MovesFrom c Γ (k ()) (g s) q r Δ) : MovesFrom c Γ (modify g >>= k) s p r Δ := by
  intro b s' known run
  refine h b s' (fun now => ?_) run
  obtain ⟨v, inv, here, facts⟩ := known (fine now)
  obtain ⟨v', inv', grows, there⟩ := keeps v inv here facts
  exact ⟨v', inv', there, fun φ mem => (facts φ mem).mono grows⟩

/-- What is known of the state becomes facts. -/
theorem notes {Φ : List Fact}
    (holds : ∀ v, Invariant c v s → p.At v s → (∀ φ ∈ Γ, φ.Holds v s) → ∀ φ ∈ Φ, φ.Holds v s)
    (h : MovesFrom c (Φ ++ Γ) x s p q Δ) : MovesFrom c Γ x s p q Δ := by
  intro a s' known run fine
  have noted : s.Fine → Known c (Φ ++ Γ) p s := fun start => by
    obtain ⟨v, inv, here, facts⟩ := known start
    refine ⟨v, inv, here, fun φ mem => ?_⟩
    rcases List.mem_append.mp mem with new | old
    · exact holds v inv here facts φ new
    · exact facts φ old
  exact (h a s' noted run fine).forget

theorem note (holds : ∀ v, Invariant c v s → p.At v s → (∀ ψ ∈ Γ, ψ.Holds v s) → φ.Holds v s)
    (h : MovesFrom c (φ :: Γ) x s p q Δ) : MovesFrom c Γ x s p q Δ := by
  refine notes (Φ := [φ]) (fun v inv here facts ψ mem => ?_) h
  rw [List.mem_singleton] at mem
  exact mem ▸ holds v inv here facts

end MovesFrom

/-- Reading the state gives the state from which the rest starts. -/
theorem Moves.get {k : State → Lowering β} {Δ : β → List Fact}
    (h : ∀ s, MovesFrom c Γ (k s) s p q Δ) : Moves c Γ (MonadStateOf.get >>= k) p q Δ :=
  fun s b s' => h s b s'

/-- What the invariant does not depend on. -/
theorem Quiet.update (s : State) (stack : Snapshot) (reachable : Bool) (operation : String)
    (offset nextState : Int) :
    Quiet s { s with stack, reachable, operation, offset, nextState } :=
  ⟨rfl, rfl, rfl, rfl, rfl, rfl, rfl, rfl, id, le_rfl, fun _ => .inl, fun _ => id⟩

theorem Quiet.refl (s : State) : Quiet s s := Quiet.update s _ _ _ _ _

theorem moves_get {d : Option Nat} {m : Nat} {b : Bool} :
    Moves c Γ (get : Lowering State) ⟨d, m, b⟩ ⟨d, m, b⟩ fun s =>
      [.prop (s.stack.length = m), .prop (∀ sig, s.registry.Knows sig → sig.Sound ∧ sig.method ∈ c.refs),
        .locals s.pool.reserved] := by
  refine .quiet rfl fun s a s' run _ => ?_
  obtain ⟨same, rfl⟩ := Prod.mk.inj run
  cases same
  refine ⟨.refl s, id, id, fun v inv slots φ mem => ?_⟩
  simp only [List.mem_cons, List.not_mem_nil, or_false] at mem
  rcases mem with rfl | rfl | rfl
  · exact slots
  · exact inv.registry
  · exact inv.reserved

variable {d : Option Nat} {m n : Nat} {b : Bool}

theorem moves_stack : Moves c Γ stack ⟨d, m, b⟩ ⟨d, m, b⟩ fun st => [.prop (st.length = m)] := by
  unfold stack
  refine moves_get.bind fun s => .ret fun v s' facts φ mem => facts φ ?_
  rw [List.mem_singleton] at mem
  subst mem
  exact List.mem_cons_self

theorem moves_setStack (st : Snapshot) :
    Moves c Γ (setStack st) ⟨d, m, b⟩ ⟨d, st.length, b⟩ fun _ => [] := by
  refine .quiet rfl fun s a s' run _ => ?_
  obtain ⟨-, rfl⟩ := Prod.mk.inj run
  exact ⟨.update s _ _ _ _ _, fun _ => rfl, id, by simp⟩

theorem moves_pushSlot (slot : Slot) :
    Moves c Γ (pushSlot slot) ⟨d, m, b⟩ ⟨d, m + 1, b⟩ fun _ => [] := by
  refine .quiet rfl fun s a s' run _ => ?_
  obtain ⟨-, rfl⟩ := Prod.mk.inj run
  exact ⟨.update s _ _ _ _ _, congrArg (· + 1), id, by simp⟩

theorem moves_pushType? (t : Option TypeRef) :
    Moves c Γ (pushType? t) ⟨d, m, b⟩ ⟨d, m + 1, b⟩ fun _ => [] := by
  refine .quiet rfl fun s a s' run _ => ?_
  obtain ⟨-, rfl⟩ := Prod.mk.inj run
  exact ⟨.update s _ _ _ _ _, congrArg (· + 1), id, by simp⟩

theorem moves_pushType (t : TypeRef) :
    Moves c Γ (pushType t) ⟨d, m, b⟩ ⟨d, m + 1, b⟩ fun _ => [] :=
  moves_pushType? _

theorem moves_drop : Moves c Γ (drop n) ⟨d, m + n, b⟩ ⟨d, m, b⟩ fun _ => [] := by
  unfold drop
  refine moves_stack.bind fun st => ?_
  split
  · refine .post (moves_setStack _) (P := st.length = m + n) (by simp) fun length => ?_
    rw [List.length_drop, length, Nat.add_sub_cancel]
  · exact .defect _

theorem moves_popSlot : Moves c Γ popSlot ⟨d, m + 1, b⟩ ⟨d, m, b⟩ fun _ => [] := by
  unfold popSlot
  refine moves_stack.bind fun st => ?_
  split
  · rename_i slot rest
    refine .seq ?_ fun _ => .pure slot
    refine .post (moves_setStack rest) (P := (slot :: rest).length = m + 1) (by simp) fun length => ?_
    rw [List.length_cons] at length
    rw [Nat.succ.inj length]
  · exact .defect _

theorem moves_setTop (slot : Slot) :
    Moves c Γ (setTop slot) ⟨d, m + 1, b⟩ ⟨d, m + 1, b⟩ fun _ => [] :=
  .seq moves_popSlot fun _ => moves_pushSlot slot

theorem moves_peek (k : Int) : Moves c Γ (peek k) p p fun _ => [] := by
  unfold peek
  refine .seq (.reads fun _ => rfl) fun st => ?_
  split
  · exact .pure _
  · exact .defect _

theorem moves_peekType (k : Int) : Moves c Γ (peekType k) p p fun _ => [] :=
  .seq (moves_peek k) fun _ => .pure _

/-! ## Locals -/

theorem moves_alloc (k : Kind) : Moves c Γ (alloc k) p p fun i => [.locals [i]] := by
  refine .quiet rfl fun s a s' run _ => ?_
  obtain ⟨same, rfl⟩ := Prod.mk.inj run
  cases same
  refine ⟨⟨rfl, rfl, rfl, rfl, rfl, rfl, rfl, rfl, id, le_max_left _ _, fun _ => .inl, fun _ => id⟩,
    id, id, fun v inv _ φ mem => ?_⟩
  rw [List.mem_singleton] at mem
  subst mem
  intro i hi
  rw [List.mem_singleton] at hi
  subst hi
  exact (Int.lt_succ _).trans_le (le_max_right _ _)

/-- A temporary stands behind everything persistent and all others. -/
theorem alloc_eq_ok {k : Kind} (h : alloc k f s = (.ok i, s')) :
    i = s.pool.base + s.pool.live.length ∧ ∃ pool, s' = { s with pool } ∧
      pool.base = s.pool.base ∧ pool.reserved = s.pool.reserved ∧ pool.live = i :: s.pool.live ∧
      s.pool.maxLocals ≤ pool.maxLocals ∧ i < pool.maxLocals := by
  obtain ⟨same, rfl⟩ := Prod.mk.inj h
  cases same
  refine ⟨rfl, _, rfl, rfl, rfl, rfl, le_max_left _ _, ?_⟩
  show s.pool.base + (s.pool.live.length : Int) < max _ (s.pool.base + s.pool.live.length + 1)
  omega

theorem SlotPool.free_eq_ok {pool pool' : SlotPool} (h : pool.free i = .ok pool') :
    ∃ rest, pool.live = i :: rest ∧ pool' = { pool with live := rest } := by
  unfold SlotPool.free at h
  split at h
  · split at h
    · rename_i live same
      cases h
      exact ⟨_, same ▸ live, rfl⟩
    · cases h
  · cases h

/-- The latest temporary is freed. -/
theorem free_eq_ok {u : Unit} (h : free i f s = (.ok u, s')) :
    ∃ rest, s.pool.live = i :: rest ∧ s' = { s with pool := { s.pool with live := rest } } := by
  replace h := rest_of_ok h rfl
  cases freed : s.pool.free i with
  | error e =>
    simp only [freed] at h
    cases h
  | ok pool =>
    simp only [freed] at h
    obtain ⟨-, rfl⟩ := Prod.mk.inj h
    obtain ⟨rest, live, rfl⟩ := SlotPool.free_eq_ok freed
    exact ⟨rest, live, rfl⟩

theorem moves_free (i : Int) : Moves c Γ (free i) p p fun _ => [] := by
  refine .quiet rfl fun s a s' run _ => ?_
  obtain ⟨rest, -, rfl⟩ := free_eq_ok run
  exact ⟨⟨rfl, rfl, rfl, rfl, rfl, rfl, rfl, rfl, id, le_rfl, fun _ => .inl, fun _ => id⟩, id, id,
    by simp⟩

theorem reserve_eq_ok {k : Kind} (h : reserve k f s = (.ok i, s')) :
    i = s.pool.base ∧ s' = { s with pool := { s.pool with
      base := s.pool.base + 1
      kinds := s.pool.kinds.insert s.pool.base k
      reserved := s.pool.base :: s.pool.reserved
      maxLocals := max s.pool.maxLocals (s.pool.base + 1) } } := by
  replace h := rest_of_ok h rfl
  cases taken : s.pool.reserveBy id k with
  | error e =>
    simp only [taken] at h
    cases h
  | ok r =>
    obtain ⟨i', pool⟩ := r
    simp only [taken] at h
    cases h
    unfold SlotPool.reserveBy at taken
    split at taken
    · cases taken
      exact ⟨rfl, rfl⟩
    · cases taken

theorem moves_reserve (k : Kind) : Moves c Γ (reserve k) p p fun i => [.locals [i]] := by
  refine .quiet rfl fun s a s' run _ => ?_
  obtain ⟨rfl, rfl⟩ := reserve_eq_ok run
  have lt : s.pool.base < max s.pool.maxLocals (s.pool.base + 1) :=
    (Int.lt_succ _).trans_le (le_max_right _ _)
  refine ⟨⟨rfl, rfl, rfl, rfl, rfl, rfl, rfl, rfl, id, le_max_left _ _, fun j hj => ?_, fun _ => id⟩, id, id,
    fun v inv _ φ mem => ?_⟩
  · rcases List.mem_cons.mp hj with rfl | old
    · exact .inr lt
    · exact .inl old
  · rw [List.mem_singleton] at mem
    subst mem
    intro j hj
    rw [List.mem_singleton] at hj
    subst hj
    exact lt

end HostLowering.Lower
