import HostLowering.Proofs.Lower.Control
import HostLowering.Proofs.Lower.Frames

set_option autoImplicit false

/-! # Regions and handlers

What opening a region and entering a handler write, and what their code does. A region keeps the
bottom of the operand stack in the slots of its handler and puts everything back as it was. The
handler makes the exception current and loads the slots.
-/

namespace HostLowering.Lower

open Machine Object Catalog Lowering

variable {c : Source} {r : Registry} {call : Caller} {pool : Pool} {code : List Line}
  {stack : List Value} {locals : Array Value} {w w' : World} {s s' s'' : State} {u : Unit}
  {lines more : List Line} {x : Lowering Unit} {f : Function} {ts : List Temp} {region : Region}

/-! ## Stores and loads -/

/-- The lines that pop values into locals. -/
def storeLines (slots : List (Kind × Int)) : List Line :=
  slots.flatMap fun (k, i) => [.store k i.toNat]

/-- The lines that push locals. -/
def fetchLines (slots : List (Kind × Int)) : List Line :=
  slots.flatMap fun (k, i) => [.load k i.toNat]

/-! ## Steps that work on the stack -/

/-- Lines have been added while the snapshot and the temporaries changed. -/
def Worked (c : Source) (lines : List Line) (s s' : State) : Prop :=
  ∃ a st p, s' = { s with assembler := a, stack := st, pool := p } ∧
    Wrote c.refs lines 0 [] s.assembler a ∧ p.base = s.pool.base ∧ p.reserved = s.pool.reserved ∧
      s.pool.maxLocals ≤ p.maxLocals

theorem Worked.trans (h : Worked c lines s s') (h' : Worked c more s' s'') :
    Worked c (lines ++ more) s s'' := by
  obtain ⟨a, st, p, rfl, wrote, base, reserved, maxLocals⟩ := h
  obtain ⟨a', st', p', rfl, wrote', base', reserved', maxLocals'⟩ := h'
  exact ⟨a', st', p', rfl, wrote.trans wrote', base'.trans base, reserved'.trans reserved,
    maxLocals.trans maxLocals'⟩

theorem Worked.restacked (s : State) (st : Snapshot) : Worked c [] s { s with stack := st } :=
  ⟨s.assembler, st, s.pool, rfl, .refl _, rfl, rfl, le_rfl⟩

theorem Worked.refl (s : State) : Worked c [] s s := .restacked s s.stack

theorem Emitted.worked (h : Emitted c lines 0 [] s s') : Worked c lines s s' := by
  obtain ⟨a, rfl, wrote⟩ := h
  exact ⟨a, s.stack, s.pool, rfl, wrote, rfl, rfl, le_rfl⟩

theorem Worked.registry (h : Worked c lines s s') : s'.registry = s.registry := by
  obtain ⟨a, st, p, rfl, -⟩ := h
  rfl

theorem Worked.labelled (h : Worked c lines s s') : Labelled s s' := by
  obtain ⟨a, st, p, rfl, -⟩ := h
  exact labelled_of_eq rfl

theorem Worked.wrote (h : Worked c lines s s') :
    Wrote c.refs lines 0 [] s.assembler s'.assembler := by
  obtain ⟨a, st, p, rfl, wrote, -⟩ := h
  exact wrote

theorem Worked.maxLocals (h : Worked c lines s s') : s.pool.maxLocals ≤ s'.pool.maxLocals := by
  obtain ⟨a, st, p, rfl, -, -, -, le⟩ := h
  exact le

/-- A step appends lines and may change the snapshot and the temporaries. -/
class Works (c : Source) (r : Registry) (x : Lowering Unit) (lines : outParam (List Line)) : Prop where
  works : ∀ s u s', s.registry = r → x c.function s = (.ok u, s') → Worked c lines s s'

theorem Worked.of [h : Works c s.registry x lines] (run : x c.function s = (.ok u, s')) :
    Worked c lines s s' :=
  h.works s u s' rfl run

instance Works.seq {k : Unit → Lowering Unit} [h : Works c r x lines] [h' : Works c r (k ()) more] :
    Works c r (x >>= k) (lines ++ more) := by
  constructor
  intro s u s' registry run
  obtain ⟨u', s₁, first, second⟩ := bind_eq_ok run
  have worked := h.works s u' s₁ registry first
  exact worked.trans (h'.works s₁ u s' (worked.registry.trans registry) second)

instance [h : Writes c r x lines] : Works c r x lines :=
  ⟨fun s u s' registry run => (h.emits s u s' registry run).worked⟩

/-- A step that works on the stack comes first, and the rest goes on from there. -/
theorem Works.first {α : Type} {k : Unit → Lowering α} {b : α} [Works c s.registry x lines]
    (run : (x >>= k) c.function s = (.ok b, s')) :
    ∃ s₁, Worked c lines s s₁ ∧ k () c.function s₁ = (.ok b, s') := by
  obtain ⟨u, s₁, first, rest⟩ := bind_eq_ok run
  exact ⟨s₁, .of first, rest⟩

/-- A step that changes just the snapshot writes nothing. -/
theorem works_of_stack {st : State → Snapshot}
    (h : ∀ s, x c.function s = (.ok (), { s with stack := st s })) : Works c r x [] := by
  constructor
  intro s u s' _ run
  obtain ⟨-, rfl⟩ := Prod.mk.inj ((h s).symm.trans run)
  exact .restacked s _

instance (st : Snapshot) : Works c r (setStack st) [] := works_of_stack fun _ => rfl

instance (slot : Slot) : Works c r (pushSlot slot) [] := works_of_stack fun _ => rfl

instance (t : TypeRef) : Works c r (pushType t) [] := works_of_stack fun _ => rfl

instance (i : Int) : Works c r (free i) [] := by
  constructor
  intro s u s' _ run
  obtain ⟨rest, -, rfl⟩ := free_eq_ok run
  exact ⟨s.assembler, s.stack, _, rfl, .refl _, rfl, rfl, le_rfl⟩

instance Works.forM {α : Type} {xs : List α} {g : α → Lowering Unit} {ls : α → List Line}
    [h : ∀ x, Works c r (g x) (ls x)] : Works c r (xs.forM g) (xs.flatMap ls) := by
  induction xs with
  | nil => exact inferInstanceAs (Works c r (pure ()) [])
  | cons x xs ih =>
    rw [List.flatMap_cons]
    exact Works.seq (k := fun _ => xs.forM g)

/-- How and where a spilled slot is held. -/
def Temp.place (r : Registry) (t : Temp) : Kind × Int := (t.slot.kind r, t.index)

instance (t : Temp) : Writes c r (loadTemp t) [.load (t.slot.kind r) t.index.toNat] :=
  .reads (a := t.slot.kind r) fun s same => by rw [← same]; rfl

instance (ts : List Temp) :
    Works c r (reload ts) (fetchLines (ts.reverse.map (Temp.place r))) := by
  rw [fetchLines, List.flatMap_map]
  unfold reload reloadTemp
  infer_instance

instance (ts : List Temp) : Works c r (release ts) [] := by
  have frees : Works c r (release ts) (ts.reverse.flatMap fun _ => []) :=
    Works.forM (g := fun t : Temp => free t.index)
  rwa [List.flatMap_eq_nil_iff.mpr fun _ _ => rfl] at frees

/-- Spilled slots stand in temporaries of their own, behind everything persistent. -/
structure Spilled (s s' : State) (n : Nat) (ts : List Temp) : Prop where
  stack : s.stack = ts.map Temp.slot ++ s'.stack
  index : ts.map Temp.index = slotsFrom (s.pool.base + s.pool.live.length) n
  inside : ∀ t ∈ ts, t.index < s'.pool.maxLocals

theorem popSlot_eq_ok {slot : Slot} (run : popSlot f s = (.ok slot, s')) :
    ∃ rest, s.stack = slot :: rest ∧ s' = { s with stack := rest } := by
  replace run := rest_of_ok run rfl
  cases shape : s.stack with
  | nil =>
    simp only [shape] at run
    cases run
  | cons top rest =>
    simp only [shape] at run
    cases run
    exact ⟨rest, rfl, rfl⟩

theorem spillMany_eq_ok {n : Nat} (run : spillMany n c.function s = (.ok ts, s')) :
    Worked c (storeLines (ts.map (Temp.place s.registry))) s s' ∧ Spilled s s' n ts := by
  induction n generalizing s ts with
  | zero =>
    cases run
    exact ⟨.refl _, rfl, rfl, by simp⟩
  | succ n ih =>
    obtain ⟨slot, s₁, popped, run⟩ := bind_eq_ok run
    obtain ⟨rest, shape, rfl⟩ := popSlot_eq_ok popped
    replace run := rest_of_ok run rfl
    obtain ⟨i, s₂, took, run⟩ := bind_eq_ok run
    obtain ⟨index, taken, rfl, base, reserved, live, maxLocals, inside⟩ := alloc_eq_ok took
    obtain ⟨s₃, stored, run⟩ := Begins.rest (c := c) run
    obtain ⟨ts', s₄, spilled, run⟩ := bind_eq_ok run
    cases run
    obtain ⟨worked, later⟩ := ih spilled
    have first : Worked c (storeLines [Temp.place s.registry ⟨i, slot⟩]) s s₃ := by
      obtain ⟨a, rfl, wrote⟩ := stored
      exact ⟨a, rest, taken, rfl, wrote, base, reserved, maxLocals⟩
    have pool : s₃.pool = taken := stored.pool
    have registry : s₃.registry = s.registry := first.registry
    rw [registry] at worked
    refine ⟨first.trans worked, ?_, ?_, ?_⟩
    · rw [shape, List.map_cons, List.cons_append, ← later.stack, stored.stack]
    · rw [List.map_cons, later.index, pool, base, live, index, slotsFrom_succ]
      congr 2
      rw [List.length_cons]
      push_cast
      omega
    · intro t mem
      rcases List.mem_cons.mp mem with rfl | mem
      · obtain ⟨a, st, p, rfl, -, -, -, le⟩ := worked
        rw [pool] at le
        exact inside.trans_le le
      · exact later.inside t mem

theorem spill_eq_ok {n : Int} (run : spill n c.function s = (.ok ts, s')) :
    Worked c (storeLines (ts.map (Temp.place s.registry))) s s' ∧ Spilled s s' n.toNat ts := by
  replace run := rest_of_ok run rfl
  split at run
  · exact spillMany_eq_ok run
  · cases run

theorem Spilled.length {n : Nat} (h : Spilled s s' n ts) : ts.length = n := by
  rw [← List.length_map (f := Temp.index), h.index, length_slotsFrom]

/-! ## Opening a region -/

/-- How and where a handler holds the slots it keeps. -/
def HandlerEntry.places (r : Registry) (h : HandlerEntry) : List (Kind × Int) :=
  h.kept.map fun (i, slot) => (slot.kind r, i)

def HandlerEntry.slots (h : HandlerEntry) : List Int := h.kept.map Prod.fst

theorem HandlerEntry.map_places (r : Registry) (h : HandlerEntry) :
    (h.places r).map Prod.snd = h.slots := by
  rw [places, slots, List.map_map]
  rfl

instance (h : HandlerEntry) : Writes c r (loadKept h) (fetchLines (h.places r)) := by
  rw [fetchLines, HandlerEntry.places, List.flatMap_map]
  refine .forM fun (i, slot) _ => .reads (a := slot.kind r) fun s same => ?_
  rw [← same]
  rfl

instance (h : HandlerEntry) : Writes c r (storeKept h) (storeLines (h.places r).reverse) := by
  rw [storeLines, HandlerEntry.places, ← List.map_reverse, List.flatMap_map]
  refine .forM fun (i, slot) _ => .reads (a := slot.kind r) fun s same => ?_
  rw [← same]
  rfl

/-- Persistent slots have been taken. -/
structure Reserved (slots : List Int) (p p' : SlotPool) : Prop where
  consecutive : slots = slotsFrom p.base slots.length
  base : p'.base = p.base + slots.length
  persistent : p'.persistent = p.persistent ++ slots
  maxLocals : p.maxLocals ≤ p'.maxLocals
  inside : p.base ≤ p.maxLocals → p'.base ≤ p'.maxLocals

theorem reserveAll_eq_ok {slots : List Slot} {kept : List (Int × Slot)}
    (run : (slots.mapM fun slot => do
      return (← reserve (← slotKind slot), slot) :
        Lowering (List (Int × Slot))) f s = (.ok kept, s')) :
    kept.length = slots.length ∧
      ∃ p, s' = { s with pool := p } ∧ Reserved (kept.map Prod.fst) s.pool p := by
  induction slots generalizing s kept with
  | nil =>
    cases run
    refine ⟨rfl, _, rfl, rfl, ?_, ?_, le_rfl, id⟩
    · simp
    · simp
  | cons slot slots ih =>
    rw [List.mapM_cons] at run
    obtain ⟨pair, s₁, first, run⟩ := bind_eq_ok run
    replace first := rest_of_ok first rfl
    obtain ⟨i, s₂, took, first⟩ := bind_eq_ok first
    obtain ⟨rfl, rfl⟩ := reserve_eq_ok took
    cases first
    obtain ⟨rest, s₂, others, run⟩ := bind_eq_ok run
    cases run
    obtain ⟨length, p, rfl, slots', base, persistent, maxLocals, inside⟩ := ih others
    refine ⟨congrArg Nat.succ length, p, rfl, ?_, ?_, ?_, ?_, fun _ => inside ?_⟩
    · rw [List.map_cons, List.length_cons, slotsFrom_succ]
      exact congrArg _ slots'
    · rw [base, List.map_cons, List.length_cons]
      push_cast
      omega
    · rw [persistent]
      simp [SlotPool.persistent]
    · exact (le_max_left _ _).trans maxLocals
    · exact le_max_right _ _

/-- The handler of a region keeps as many slots as the region. It was there, or it is new and has
slots of its own. -/
theorem regionHandler_eq_ok {saved : Snapshot} {h : HandlerEntry}
    (run : regionHandler region saved f s = (.ok (some h), s')) :
    h.kept.length = saved.length ∧ (s.handlers[region.target]? = some h ∧ s' = s ∨
      s.handlers[region.target]? = none ∧ ∃ p, Reserved h.slots s.pool p ∧
        s' = { s with pool := p, handlers := s.handlers.insert region.target h }) := by
  replace run := rest_of_ok run rfl
  cases found : s.handlers[region.target]? with
  | some h' =>
    simp only [found] at run
    have failed {e : Cause} (run : (do
        fail e
        return none : Lowering (Option HandlerEntry)) f s = (.ok (some h), s')) : False := by
      obtain ⟨_, s₁, failed, run⟩ := bind_eq_ok run
      cases run
    split at run
    · replace run := rest_of_ok run rfl
      split at run
      · rename_i agrees
        cases run
        have length := Snapshot.length_eq_of_compatible agrees
        rw [HandlerEntry.snapshot, List.length_reverse, List.length_map] at length
        exact ⟨length, .inl ⟨rfl, rfl⟩⟩
      · exact (failed run).elim
    · exact (failed run).elim
  | none =>
    simp only [found] at run
    split at run
    · obtain ⟨_, s₁, failed, run⟩ := bind_eq_ok run
      cases run
    · obtain ⟨kept, s₁, took, run⟩ := bind_eq_ok run
      obtain ⟨length, p, rfl, reserved⟩ := reserveAll_eq_ok took
      cases run
      exact ⟨length.trans List.length_reverse, .inr ⟨rfl, p, reserved, rfl⟩⟩

theorem regionHandler_eq_none {saved : Snapshot}
    (run : regionHandler region saved f s = (.ok none, s')) : s'.failure ≠ none := by
  replace run := rest_of_ok run rfl
  cases found : s.handlers[region.target]? with
  | some h' =>
    simp only [found] at run
    split at run
    · replace run := rest_of_ok run rfl
      split at run
      · cases run
      · exact failed_of_failWith (f := f) run
    · exact failed_of_failWith (f := f) run
  | none =>
    simp only [found] at run
    split at run
    · exact failed_of_failWith run
    · obtain ⟨kept, s₁, took, run⟩ := bind_eq_ok run
      cases run

def openLines (r : Registry) (h : HandlerEntry) (upper : List Temp) (start : Label) : List Line :=
  storeLines (upper.map (Temp.place r)) ++ (storeLines (h.places r).reverse ++
    (fetchLines (h.places r) ++ (fetchLines (upper.reverse.map (Temp.place r)) ++ [.mark start])))

/-- The code from here on is guarded. -/
theorem guard_eq_ok {o o' : Int} {cls : String} (run : (do
      let start ← newLabel
      mark start
      let stop ← offsetLabel o
      let target ← offsetLabel o'
      tryCatch start stop target cls : Lowering Unit) c.function s = (.ok u, s')) :
    ∃ start fresh stop target, start = s.assembler.labels.size ∧ s'.labels[o]? = some stop ∧
      s'.labels[o']? = some target ∧ Labelled s s' ∧
      (start < s'.assembler.labels.size ∧
        ∀ o : Int, s'.labels[o]? = some start → s.labels[o]? = some start) ∧
      Wrote c.refs [.mark start] fresh [⟨start, stop, target, cls⟩] s.assembler s'.assembler ∧
      ∃ a labels, s' = { s with assembler := a, labels } := by
  obtain ⟨start, t₁, new, e₁, run⟩ := newLabel_first run
  obtain ⟨t₂, e₂, run⟩ := Begins.rest (c := c) run
  obtain ⟨stop, t₃, found, run⟩ := bind_eq_ok run
  obtain ⟨stops, labelled₃, ⟨fresh₃, wrote₃⟩, same₃⟩ := wrote_offsetLabel (c := c) found
  obtain ⟨target, t₄, found, run⟩ := bind_eq_ok run
  obtain ⟨targets, labelled₄, ⟨fresh₄, wrote₄⟩, same₄⟩ := wrote_offsetLabel (c := c) found
  have guards := emitted_tryCatch (c := c) run
  have begins := e₁.trans e₂
  have marks := begins.wrote
  have first := begins.labelled.trans labelled₃ marks.le_labels wrote₃.le_labels
  have second := first.trans labelled₄ (marks.trans wrote₃).le_labels wrote₄.le_labels
  have last := guards.labelled
  have after := labelled₃.trans (labelled₄.trans last wrote₄.le_labels guards.wrote.le_labels)
    wrote₃.le_labels (wrote₄.trans guards.wrote).le_labels
  have made : start < t₂.assembler.labels.size := by
    rw [new, marks.labels]
    omega
  refine ⟨start, _, stop, target, new, last.sources _ _ (labelled₄.sources _ _ stops),
    last.sources _ _ targets, second.trans last
      (marks.trans (wrote₃.trans wrote₄)).le_labels guards.wrote.le_labels,
    ⟨made.trans_le (wrote₃.trans (wrote₄.trans guards.wrote)).le_labels, fun o found => ?_⟩,
    marks.trans <| wrote₃.trans <| wrote₄.trans guards.wrote, ?_⟩
  · rcases after.newer o start found with old | newer
    · obtain ⟨a₁, rfl, -⟩ := begins
      exact old
    · exact absurd made (Nat.not_lt.mpr newer.1)
  obtain ⟨a₁, rfl, -⟩ := begins
  obtain ⟨a₃, labels₃, rfl⟩ := same₃
  obtain ⟨a₄, labels₄, rfl⟩ := same₄
  obtain ⟨a₅, rfl, -⟩ := guards
  exact ⟨a₅, labels₄, rfl⟩

/-- What opening a region leaves behind, once its handler is known in the state `s₁`. -/
structure Opens (c : Source) (region : Region) (h : HandlerEntry) (upper : List Temp) (start : Label)
    (s₁ s' : State) : Prop where
  wrote : ∃ fresh stop target, s'.labels[region.stop]? = some stop ∧
    s'.labels[region.target]? = some target ∧
      Wrote c.refs (openLines s₁.registry h upper start) fresh
        [⟨start, stop, target, Library.baseExceptionClass⟩] s₁.assembler s'.assembler
  new : start = s₁.assembler.labels.size
  inner : start < s'.assembler.labels.size ∧
    ∀ o : Int, s'.labels[o]? = some start → s₁.labels[o]? = some start
  labelled : Labelled s₁ s'
  spilled : ∃ t, Spilled s₁ t upper.length upper ∧ t.pool.maxLocals ≤ s'.pool.maxLocals
  rest : ∃ a st p labels, s' = { s₁ with assembler := a, stack := st, pool := p, labels } ∧
    p.base = s₁.pool.base ∧ p.reserved = s₁.pool.reserved ∧ s₁.pool.maxLocals ≤ p.maxLocals

theorem openRegion_eq_ok (run : openRegion region c.function s = (.ok u, s'))
    (fine : s'.failure = none) :
    s.marked.contains region.target = false ∧ ∃ h s₁ upper start,
      regionHandler region (s.stack.drop (s.stack.length - region.depth.toNat)) c.function
        s = (.ok (some h), s₁) ∧ Opens c region h upper start s₁ s' := by
  replace run := rest_of_ok run rfl
  split at run
  · exact absurd fine (failed_of_fail run)
  replace run := rest_of_ok run rfl
  split at run
  · exact absurd fine (failed_of_fail run)
  split at run
  · exact absurd fine (failed_of_fail run)
  rename_i unmarked
  refine ⟨Bool.eq_false_of_not_eq_true unmarked, ?_⟩
  obtain ⟨found, s₁, handled, run⟩ := bind_eq_ok run
  cases found with
  | none =>
    cases run
    exact absurd fine (regionHandler_eq_none handled)
  | some h =>
    obtain ⟨upper, t₁, spills, run⟩ := bind_eq_ok run
    obtain ⟨t₂, e₂, run⟩ := Begins.rest (c := c) run
    obtain ⟨t₄, w₄, run⟩ := Works.first (c := c) run
    obtain ⟨t₅, w₅, run⟩ := Works.first (c := c) run
    obtain ⟨start, fresh, stop, target, new, stops, targets, labelled, inner, guards, a, labels,
      same⟩ := guard_eq_ok run
    obtain ⟨w₁, spilled⟩ := spill_eq_ok spills
    rw [e₂.registry, w₁.registry] at w₄
    rw [w₁.registry] at e₂
    have later := e₂.worked.trans <| w₄.trans w₅
    have work := w₁.trans later
    have wrote := work.wrote.trans guards
    simp only [List.append_assoc, List.append_nil, List.nil_append] at wrote
    refine ⟨h, s₁, upper, start, handled, ⟨_, stop, target, stops, targets, wrote⟩,
      new.trans work.wrote.labels, ⟨inner.1, fun o found => ?_⟩,
      work.labelled.trans labelled work.wrote.le_labels guards.le_labels,
      ⟨t₁, spilled.length ▸ spilled, ?_⟩, ?_⟩
    · have old := inner.2 o found
      obtain ⟨a', st, p, rfl, -⟩ := work
      exact old
    · rw [same]
      exact later.maxLocals
    · obtain ⟨a', st, p, rfl, -, rest⟩ := work
      subst same
      exact ⟨a, st, p, labels, rfl, rest⟩

end HostLowering.Lower
