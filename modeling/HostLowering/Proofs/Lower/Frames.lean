import HostLowering.Proofs.Lower.Idioms

set_option autoImplicit false

/-! # Saved frames

A suspended generator holds a list of its operand stack, from the bottom up, and of its persistent
locals behind it. Here is the code that saves a frame in such a list, the code that loads it again,
and the dispatcher, which finds by the state of the generator what to load and where to go on.
-/

namespace HostLowering.Lower

open Machine Object Catalog Lowering Library

variable {c : Source} {r : Registry} {call : Caller} {pool : Pool} {code : List Line}
  {stack : List Value} {locals : Array Value} {w w' : World} {g v l : Value} {G : Generator}
  {items : List Value} {s s' : State} {u : Unit} {cls : String}

/-! ## Consecutive locals -/

/-- A number of consecutive locals. -/
def slotsFrom (b : Int) (n : Nat) : List Int := (List.range n).map fun (j : Nat) => b + j

@[simp] theorem length_slotsFrom (b : Int) (n : Nat) : (slotsFrom b n).length = n := by
  simp [slotsFrom]

theorem slotsFrom_succ (b : Int) (n : Nat) : slotsFrom b (n + 1) = b :: slotsFrom (b + 1) n := by
  rw [slotsFrom, List.range_succ_eq_map, List.map_cons, List.map_map, slotsFrom]
  congr 1
  · simp
  · refine List.map_congr_left fun j _ => ?_
    simp only [Function.comp_apply]
    push_cast
    omega

theorem slotsFrom_add (b : Int) (m n : Nat) :
    slotsFrom b (m + n) = slotsFrom b m ++ slotsFrom (b + m) n := by
  induction m generalizing b with
  | zero => simp [slotsFrom]
  | succ m ih =>
    rw [Nat.succ_add, slotsFrom_succ, ih, slotsFrom_succ, List.cons_append]
    congr 3
    push_cast
    omega

theorem mem_slotsFrom {b i : Int} {n : Nat} : i ∈ slotsFrom b n ↔ b ≤ i ∧ i < b + n := by
  simp only [slotsFrom, List.mem_map, List.mem_range]
  constructor
  · rintro ⟨j, lt, rfl⟩
    omega
  · rintro ⟨le, lt⟩
    exact ⟨(i - b).toNat, by omega, by omega⟩

theorem nodup_slotsFrom {b : Int} (nonneg : 0 ≤ b) (n : Nat) :
    ((slotsFrom b n).map Int.toNat).Nodup := by
  rw [slotsFrom, List.map_map]
  refine List.nodup_range.map_on fun i _ j _ same => ?_
  simp only [Function.comp_apply] at same
  omega

/-! ## Saving -/

def saveLines (depth : Nat) (frame : List Int) (state : Int) : List Line :=
  newLines listClass (depth + frame.length) ++
    ((List.replicate depth (reverseAddLines listClass)).flatten ++
      (addLines frame ++ (writeLines generatorStack ++ stateLines state)))

theorem emitted_saveFrame {frame : List Int} {state : Int}
    (run : saveFrame frame state c.function s = (.ok u, s')) :
    Emitted c (saveLines s.stack.length frame state) 0 [] s s' := by
  obtain ⟨st, s₁, got, run⟩ := bind_eq_ok run
  cases got
  dsimp only at run
  exact .of run

/-- Saving a frame empties the stack. The generator then holds a list of all values. -/
theorem exec_save (call : Caller) (honest : pool.Honest) (self : locals[0]? = some g)
    (gen : w.generator? g = some G) (known : w.byHost.get? listClass = some .list)
    {frame : List Int} {vs : List Value}
    (loads : List.Forall₂ (fun (i : Int) v => locals[i.toNat]? = some v) frame vs)
    (vals : List Value) (state : Int) :
    ∃ l w', w'.generator? g = some ((G.withField generatorStack l).withField
        generatorState (.word (.ofInt state))) ∧
      w'.sequence? l = some (.list, vals.reverse ++ vs) ∧ w.KeepsClasses w' ∧ ∀ code stack,
        exec call pool (saveLines vals.length frame state ++ code) none (vals ++ stack) locals w =
          exec call pool code none stack locals w' := by
  obtain ⟨l, w₁, made, makes⟩ := exec_newList honest known (vals.length + frame.length)
  obtain ⟨w₂, gathered, gathers⟩ := exec_reverseAdds honest vals made
  obtain ⟨w₃, added, adds⟩ := exec_adds honest loads gathered
  have gen₃ := added.generator? gen
  have gen₄ : (w₃.withGenerator g (G.withField generatorStack l)).generator? g = some _ :=
    World.generator?_withGenerator gen₃
  refine ⟨l, _, World.generator?_withGenerator gen₄, ?_,
    (added.keepsClasses.trans (World.keepsClasses_withGenerator gen₃ _)).trans
      (World.keepsClasses_withGenerator gen₄ _), fun code stack => ?_⟩
  · rw [World.sequence?_withGenerator gen₄, World.sequence?_withGenerator gen₃, added.sequence?,
      List.append_nil]
  · rw [saveLines, List.append_assoc, makes, List.append_assoc, gathers, List.append_assoc, adds,
      List.append_assoc, exec_write honest self gen₃ (by decide), exec_setState honest self gen₄]

/-! ## Loading -/

/-- The lines that push an item of the saved frame. -/
def itemLines (i : Nat) (cls : String) : List Line :=
  readLines generatorStack ++ .word (.ofInt i) :: callLine listGet :: castLines cls

instance (i : Nat) (cls : String) : Writes c r (frameItem i cls) (itemLines i cls) := by
  unfold frameItem
  infer_instance

/-- A value can be narrowed to a class. -/
def Castable (w : World) (cls : String) (v : Value) : Prop :=
  cls = objectClass ∨ v = .null ∨ w.isHostInstance v cls = true

/-- The code that narrows a value to a class does not stop: it does nothing, or the value can be used
as an instance. -/
def Narrows (w : World) (cls : String) (v : Value) : Prop :=
  castLines cls = [] ∨ v = .null ∨ w.isHostInstance v cls = true

theorem Castable.narrows (h : Castable w cls v) : Narrows w cls v := by
  refine h.imp_left fun same => ?_
  rw [castLines, if_pos (.inl same)]

theorem exec_narrows (able : Narrows w cls v) :
    exec call pool (castLines cls ++ code) none (v :: stack) locals w =
      exec call pool code none (v :: stack) locals w := by
  rcases able with none_ | able
  · rw [none_]
    rfl
  · unfold castLines
    split
    · rfl
    · refine exec_ask (r := .cast cls v) (s := stack) rfl ?_
      rw [Effect.serve, Effect.bind_get, if_pos]
      · rfl
      · rcases able with rfl | able
        · rfl
        · rw [able, Bool.or_true]

theorem exec_cast (able : Castable w cls v) :
    exec call pool (castLines cls ++ code) none (v :: stack) locals w =
      exec call pool code none (v :: stack) locals w :=
  exec_narrows able.narrows

/-- The generator has a list of items saved. -/
structure Saved (w : World) (g : Value) (items : List Value) : Prop where
  frame : ∃ G l, w.generator? g = some G ∧ G.field generatorStack.name = l ∧
    w.sequence? l = some (.list, items)
  small : items.length < 2 ^ 63

theorem exec_find (honest : pool.Honest) (self : locals[0]? = some g) (saved : Saved w g items)
    {i : Nat} (found : items[i]? = some v) (cls : String) :
    exec call pool (itemLines i cls ++ code) none stack locals w =
      exec call pool (castLines cls ++ code) none (v :: stack) locals w := by
  obtain ⟨G, l, gen, rfl, list⟩ := saved.frame
  have lt := (List.getElem?_eq_some_iff.mp found).1
  rw [itemLines, List.append_assoc, exec_read honest self gen (by decide), List.cons_append,
    exec_word]
  exact exec_library (honest.method (by decide)) rfl (by decide) [_, _] rfl
    (library_itemAt list found (lt.trans saved.small))

theorem exec_item (honest : pool.Honest) (self : locals[0]? = some g) (saved : Saved w g items)
    {i : Nat} (found : items[i]? = some v) (able : Narrows w cls v) :
    exec call pool (itemLines i cls ++ code) none stack locals w =
      exec call pool code none (v :: stack) locals w :=
  (exec_find honest self saved found cls).trans (exec_narrows able)

/-- The lines that push the saved operand stack. -/
def stackLines (r : Registry) (below : Snapshot) : List Line :=
  below.reverse.zipIdx.flatMap fun (slot, i) => itemLines i (r.hostClassOf slot.known)

instance (below : Snapshot) : Writes c r (restoreStack below) (stackLines r below) := by
  refine .forM fun (slot, i) _ => .reads (a := r.hostClassOf slot.known) fun s same => ?_
  rw [← same]
  rfl

/-- Slots hold values that can be narrowed to their classes. -/
def Fitting (r : Registry) (w : World) : Snapshot → List Value → Prop :=
  List.Forall₂ fun slot v => Castable w (r.hostClassOf slot.known) v

/-- Slots hold values that can be loaded as what is known of them. -/
def Loadable (r : Registry) (w : World) : Snapshot → List Value → Prop :=
  List.Forall₂ fun slot v => Narrows w (r.hostClassOf slot.known) v

theorem Fitting.loadable {below : Snapshot} {vals : List Value} (h : Fitting r w below vals) :
    Loadable r w below vals :=
  h.imp fun _ _ => Castable.narrows

theorem exec_items (honest : pool.Honest) (self : locals[0]? = some g) (saved : Saved w g items)
    {slots : List Slot} {vs : List Value} (fits : Loadable r w slots vs) {k : Nat} {rest : List Value}
    (found : items.drop k = vs ++ rest) :
    exec call pool (((slots.zipIdx k).flatMap fun (slot, i) =>
        itemLines i (r.hostClassOf slot.known)) ++ code) none stack locals w =
      exec call pool code none (vs.reverse ++ stack) locals w := by
  induction fits generalizing k stack with
  | nil => rfl
  | @cons slot v slots vs able _ ih =>
    have head : items[k]? = some v := by
      rw [← List.head?_drop, found]
      rfl
    have tail : items.drop (k + 1) = vs ++ rest := by
      rw [← List.drop_drop, found]
      rfl
    rw [List.zipIdx_cons, List.flatMap_cons, List.append_assoc,
      exec_item honest self saved head able, ih tail]
    simp

/-- The saved operand stack is pushed as it was. -/
theorem exec_restoreStack (honest : pool.Honest) (self : locals[0]? = some g) {below : Snapshot}
    {vals rest : List Value} (saved : Saved w g (vals.reverse ++ rest))
    (fits : Loadable r w below vals) :
    exec call pool (stackLines r below ++ code) none stack locals w =
      exec call pool code none (vals ++ stack) locals w := by
  refine (exec_items honest self saved (List.rel_reverse fits) List.drop_zero).trans ?_
  rw [List.reverse_reverse]

/-- The class that a local of the frame is narrowed to. -/
def classOfLocal (f : Function) (r : Registry) (i : Int) : String :=
  let n := i - f.localBase
  if 0 ≤ n ∧ n < f.locals.size then r.hostClassOf (f.locals[n.toNat]?).join else objectClass

/-- The lines that load the saved locals. -/
def frameLines (f : Function) (r : Registry) (depth : Nat) (frame : List Int) : List Line :=
  frame.zipIdx.flatMap fun (i, n) =>
    itemLines (depth + n) (classOfLocal f r i) ++ [.store .ref i.toNat]

instance (p : ResumePoint) :
    Writes c r (restoreFrame p) (frameLines c.function r p.stack.length p.frame) := by
  refine .forM fun (i, n) _ => .reads (a := classOfLocal c.function r i) fun s same => ?_
  rw [← same, frameClass, classOfLocal]
  show (if _ then _ else _ : Lowering String) c.function s = _
  split <;> rfl

/-- Locals with values written to some of them. -/
def fill (locals : Array Value) : List Int → List Value → Array Value
  | i :: frame, v :: vs => fill (locals.setIfInBounds i.toNat v) frame vs
  | _, _ => locals

theorem getElem?_fill_of_notMem {frame : List Int} {vs : List Value} {n : Nat}
    (other : ∀ i ∈ frame, i.toNat ≠ n) : (fill locals frame vs)[n]? = locals[n]? := by
  fun_induction fill locals frame vs with
  | case1 locals i frame v vs ih =>
    rw [ih fun j mem => other j (List.mem_cons_of_mem i mem), Array.getElem?_setIfInBounds,
      if_neg (other i List.mem_cons_self)]
  | case2 => rfl

theorem forall₂_fill {frame : List Int} {vs : List Value} (apart : (frame.map Int.toNat).Nodup)
    (inside : ∀ i ∈ frame, i.toNat < locals.size) (length : frame.length = vs.length) :
    List.Forall₂ (fun (i : Int) v => (fill locals frame vs)[i.toNat]? = some v) frame vs := by
  induction frame generalizing locals vs with
  | nil =>
    obtain rfl := List.length_eq_zero_iff.mp length.symm
    exact .nil
  | cons j frame ih =>
    obtain _ | ⟨v, vs⟩ := vs
    · cases length
    rw [List.map_cons, List.nodup_cons] at apart
    refine .cons ?_ (ih apart.2 (fun k mem => ?_) (Nat.succ.inj length))
    · have alone : ∀ k ∈ frame, k.toNat ≠ j.toNat :=
        fun k mem same => apart.1 (List.mem_map.mpr ⟨k, mem, same⟩)
      rw [fill, getElem?_fill_of_notMem alone, Array.getElem?_setIfInBounds, if_pos rfl,
        if_pos (inside j List.mem_cons_self)]
    · rw [Array.size_setIfInBounds]
      exact inside k (List.mem_cons_of_mem j mem)

theorem getElem?_fill {saved : Array Value} {frame : List Int} {vs : List Value}
    (apart : (frame.map Int.toNat).Nodup) (inside : ∀ i ∈ frame, i.toNat < locals.size)
    (loads : List.Forall₂ (fun (i : Int) v => saved[i.toNat]? = some v) frame vs) :
    ∀ i ∈ frame, (fill locals frame vs)[i.toNat]? = saved[i.toNat]? := by
  intro i mem
  obtain ⟨k, lt, rfl⟩ := List.getElem_of_mem mem
  have lt' : k < vs.length := loads.length_eq ▸ lt
  exact ((forall₂_fill apart inside loads.length_eq).get lt lt').trans (loads.get lt lt').symm

/-- Locals hold values that can be loaded as what is known of them. -/
def LoadableFrame (f : Function) (r : Registry) (w : World) : List Int → List Value → Prop :=
  List.Forall₂ fun i v => Narrows w (classOfLocal f r i) v

section Restoring

variable {f : Function} {depth : Nat} {frame : List Int} {vs rest : List Value}

/-- The saved locals are loaded as they were, and nothing else changes. -/
theorem exec_restoreFrame (honest : pool.Honest) (fits : LoadableFrame f r w frame vs)
    (saved : Saved w g items) (found : items.drop depth = vs ++ rest)
    (self : locals[0]? = some g) (usable : ∀ i ∈ frame, 0 < i.toNat ∧ i.toNat < locals.size) :
    exec call pool (frameLines f r depth frame ++ code) none stack locals w =
      exec call pool code none stack (fill locals frame vs) w := by
  -- the induction is on the locals still to be loaded, the first of them with the number `k`
  suffices h : ∀ k, items.drop (depth + k) = vs ++ rest →
      exec call pool (((frame.zipIdx k).flatMap fun (i, n) =>
        itemLines (depth + n) (classOfLocal f r i) ++ [.store .ref i.toNat]) ++ code) none stack
          locals w = exec call pool code none stack (fill locals frame vs) w from h 0 found
  clear found
  induction fits generalizing locals with
  | nil => exact fun _ _ => rfl
  | @cons i v frame vs able _ ih =>
    intro k found
    have head : items[depth + k]? = some v := by
      rw [← List.head?_drop, found]
      rfl
    have tail : items.drop (depth + (k + 1)) = vs ++ rest := by
      rw [← Nat.add_assoc, ← List.drop_drop, found]
      rfl
    obtain ⟨pos, lt⟩ := usable i List.mem_cons_self
    rw [List.zipIdx_cons, List.flatMap_cons, List.append_assoc, List.append_assoc,
      exec_item honest self saved head able, List.cons_append, List.nil_append, exec_store lt]
    refine ih ?_ (fun j mem => ?_) (k + 1) tail
    · rw [Array.getElem?_setIfInBounds, if_neg (by omega), self]
    · rw [Array.size_setIfInBounds]
      exact usable j (List.mem_cons_of_mem i mem)

end Restoring

/-! ## The dispatcher -/

def loadLines (f : Function) (r : Registry) (p : ResumePoint) : List Line :=
  frameLines f r p.stack.length p.frame ++
    if p.frameOnly then [] else stackLines r p.stack ++ readLines sentValue

/-- The lines of the dispatcher for a resumption point. -/
def entryLines (f : Function) (r : Registry) (p : ResumePoint) (next : Label) : List Line :=
  readLines generatorState ++ .word (.ofInt p.state) :: .branch .ifIcmpne next ::
    (loadLines f r p ++ [.branch .goto p.label, .mark next])

theorem emitted_dispatchTo {p : ResumePoint}
    (run : dispatchTo p c.function s = (.ok u, s')) :
    Emitted c (entryLines c.function s.registry p s.assembler.labels.size) 1 [] s s' := by
  obtain ⟨next, s₁, new, run⟩ := bind_eq_ok run
  obtain ⟨rfl, a, rfl, wrote⟩ := emitted_newLabel (c := c) new
  have makes : Emitted c [] 1 [] s { s with assembler := a } := ⟨a, rfl, wrote⟩
  unfold entryLines loadLines
  cases only : p.frameOnly
  all_goals
    simp only [only, Bool.false_eq_true, if_true, if_false] at run
    simpa using makes.trans (.of run)

/-- Lines in which no label stands. -/
def Unmarked (lines : List Line) : Prop := ∀ l, .mark l ∉ lines

theorem Unmarked.append {lines more : List Line} (h : Unmarked lines) (h' : Unmarked more) :
    Unmarked (lines ++ more) :=
  fun l mem => (List.mem_append.mp mem).elim (h l) (h' l)

theorem Unmarked.flatMap {α : Type} {xs : List α} {ls : α → List Line}
    (h : ∀ x ∈ xs, Unmarked (ls x)) : Unmarked (xs.flatMap ls) := by
  intro l mem
  obtain ⟨x, hx, mem⟩ := List.mem_flatMap.mp mem
  exact h x hx l mem

theorem unmarked_item (i : Nat) (cls : String) : Unmarked (itemLines i cls) := by
  intro l
  unfold itemLines castLines readLines callLine
  split <;> simp

theorem unmarked_load (f : Function) (r : Registry) (p : ResumePoint) :
    Unmarked (loadLines f r p) := by
  have frame : Unmarked (frameLines f r p.stack.length p.frame) :=
    .flatMap fun _ _ => (unmarked_item _ _).append fun l => by simp
  refine frame.append ?_
  split
  · exact fun l => by simp
  · have stack : Unmarked (stackLines r p.stack) := .flatMap fun _ _ => unmarked_item _ _
    exact stack.append fun l => by simp [readLines]

theorem mark_mem_entry {f : Function} {p : ResumePoint} {next l : Label}
    (h : .mark l ∈ entryLines f r p next) : l = next := by
  simpa [entryLines, readLines, unmarked_load f r p l] using h

section Dispatch

variable {f : Function} {p : ResumePoint} {next : Label} {n : Int64}

/-- In another state the entry is passed over. -/
theorem exec_entry_ne (honest : pool.Honest) (self : locals[0]? = some g)
    (gen : w.generator? g = some G) (state : G.field generatorState.name = .word n)
    (other : n ≠ .ofInt p.state) :
    exec call pool (entryLines f r p next ++ code) none stack locals w =
      exec call pool code none stack locals w := by
  rw [entryLines, List.append_assoc, exec_read honest self gen (by decide), state,
    List.cons_append, exec_word, List.cons_append, exec_ifIcmpne, if_neg other, List.append_assoc,
    exec_skip (unmarked_load f r p next)]
  exact exec_found

/-- What a resumption point needs can be loaded from a saved frame. -/
structure Restorable (f : Function) (r : Registry) (w : World) (p : ResumePoint)
    (vals vs : List Value) : Prop where
  stack : p.frameOnly = false → Loadable r w p.stack vals
  frame : LoadableFrame f r w p.frame vs

section Loading

variable {vals vs : List Value}

/-- What a resumption point needs is loaded. -/
theorem exec_loads (honest : pool.Honest) (self : locals[0]? = some g)
    (gen : w.generator? g = some G) (saved : Saved w g (vals.reverse ++ vs))
    (depth : vals.length = p.stack.length) (able : Restorable f r w p vals vs)
    (usable : ∀ i ∈ p.frame, 0 < i.toNat ∧ i.toNat < locals.size) :
    exec call pool (loadLines f r p ++ code) none stack locals w =
      exec call pool code none
        (if p.frameOnly then stack else G.field sentValue.name :: (vals ++ stack))
        (fill locals p.frame vs) w := by
  have behind : (vals.reverse ++ vs).drop p.stack.length = vs ++ [] := by
    rw [← depth, ← List.length_reverse, List.drop_left, List.append_nil]
  have self' : (fill locals p.frame vs)[0]? = some g := by
    rw [getElem?_fill_of_notMem fun i mem => (usable i mem).1.ne', self]
  rw [loadLines, List.append_assoc, exec_restoreFrame honest able.frame saved behind self usable]
  cases only : p.frameOnly with
  | true => rfl
  | false =>
    simp only [Bool.false_eq_true, if_false, List.append_assoc]
    rw [exec_restoreStack honest self' saved (able.stack only),
      exec_read honest self' gen (by decide)]

end Loading

/-- In its state the entry loads what it needs and goes to the resumption point. -/
theorem exec_entry (honest : pool.Honest) (self : locals[0]? = some g)
    (gen : w.generator? g = some G)
    (state : G.field generatorState.name = .word (.ofInt p.state)) :
    exec call pool (entryLines f r p next ++ code) none stack locals w =
      exec call pool (loadLines f r p ++ .branch .goto p.label :: .mark next :: code) none stack
        locals w := by
  rw [entryLines, List.append_assoc, exec_read honest self gen (by decide), state,
    List.cons_append, exec_word, List.cons_append, exec_ifIcmpne, if_pos rfl, List.append_assoc]
  rfl

def entriesLines (f : Function) (r : Registry) (ps : List ResumePoint) (nexts : List Label) :
    List Line :=
  (ps.zip nexts).flatMap fun (p, next) => entryLines f r p next

theorem mark_mem_entries {ps : List ResumePoint} {nexts : List Label} {l : Label}
    (h : .mark l ∈ entriesLines f r ps nexts) : l ∈ nexts := by
  obtain ⟨⟨p, next⟩, mem, h⟩ := List.mem_flatMap.mp h
  exact mark_mem_entry h ▸ (List.of_mem_zip mem).2

/-- The entry of the state of the generator is found among all entries. -/
theorem exec_entries (honest : pool.Honest) (self : locals[0]? = some g)
    (gen : w.generator? g = some G)
    (state : G.field generatorState.name = .word (.ofInt p.state))
    {ps qs : List ResumePoint} {nexts : List Label} (count : nexts.length = (ps ++ p :: qs).length)
    (others : ∀ q ∈ ps, Int64.ofInt p.state ≠ .ofInt q.state) :
    ∃ lines, (∀ l, .mark l ∈ lines → l ∈ nexts) ∧
      exec call pool (entriesLines f r (ps ++ p :: qs) nexts ++ code) none stack locals w =
        exec call pool (loadLines f r p ++ .branch .goto p.label :: (lines ++ code)) none stack locals
          w := by
  induction ps generalizing nexts with
  | nil =>
    obtain _ | ⟨next, nexts⟩ := nexts
    · cases count
    · refine ⟨.mark next :: entriesLines f r qs nexts, fun l mem => ?_, ?_⟩
      · rcases List.mem_cons.mp mem with same | later
        · cases same
          exact List.mem_cons_self
        · exact List.mem_cons_of_mem next (mark_mem_entries later)
      · rw [List.nil_append, entriesLines, List.zip_cons_cons, List.flatMap_cons,
          List.append_assoc, exec_entry honest self gen state]
        rfl
  | cons q ps ih =>
    obtain _ | ⟨next, nexts⟩ := nexts
    · cases count
    · have rest : nexts.length = (ps ++ p :: qs).length := Nat.succ.inj count
      obtain ⟨lines, marks, goes⟩ := ih rest fun q' mem => others q' (List.mem_cons_of_mem q mem)
      refine ⟨lines, fun l mem => List.mem_cons_of_mem next (marks l mem), ?_⟩
      rw [List.cons_append, entriesLines, List.zip_cons_cons, List.flatMap_cons,
        List.append_assoc, exec_entry_ne honest self gen state (others q List.mem_cons_self)]
      exact goes

theorem emitted_entries {ps : List ResumePoint}
    (run : ps.forM dispatchTo c.function s = (.ok u, s')) :
    ∃ nexts : List Label, nexts.length = ps.length ∧
      (∀ l ∈ nexts, s.assembler.labels.size ≤ l) ∧
        Emitted c (entriesLines c.function s.registry ps nexts) ps.length [] s s' := by
  induction ps generalizing s with
  | nil =>
    cases run
    exact ⟨[], rfl, by simp, .refl _⟩
  | cons p ps ih =>
    obtain ⟨u', s₁, first, run⟩ := bind_eq_ok (x := dispatchTo p) run
    obtain ⟨a, rfl, wrote⟩ := emitted_dispatchTo first
    obtain ⟨nexts, count, fresh, rest⟩ := ih run
    refine ⟨s.assembler.labels.size :: nexts, congrArg Nat.succ count, fun l mem => ?_, ?_⟩
    · rcases List.mem_cons.mp mem with rfl | later
      · exact le_rfl
      · exact le_trans (by rw [wrote.labels]; omega) (fresh l later)
    · have both := Emitted.trans ⟨a, rfl, wrote⟩ rest
      rwa [Nat.add_comm] at both

def dispatchLines (f : Function) (r : Registry) (dispatch begin next : Label)
    (ps : List ResumePoint) (nexts : List Label) : List Line :=
  .mark dispatch :: (readLines generatorState ++ .branch .ifne next ::
    (readLines sentValue ++ .branch .goto begin :: .mark next ::
      (entriesLines f r ps nexts ++ [.plain .returnVoid])))

theorem wrote_emitDispatch {n : Nat} (run : emitDispatch n c.function s = (.ok u, s')) :
    ∃ (begin next : Label) (nexts : List Label) (fresh : Nat),
      nexts.length = s.resumes.size ∧ (∀ l ∈ next :: nexts, s.assembler.labels.size ≤ l) ∧
      Wrote c.refs (dispatchLines c.function s.registry s.dispatch begin next s.resumes.toList nexts)
        fresh [] s.assembler s'.assembler ∧
      s'.pool = s.pool ∧ s'.failure = s.failure := by
  replace run := rest_of_ok run rfl
  replace run := rest_of_ok run rfl
  obtain ⟨s₁, e₁, run⟩ := Begins.rest (c := c) run
  obtain ⟨next, s₂, new, e₂, run⟩ := newLabel_first run
  obtain ⟨s₃, e₃, run⟩ := Begins.rest (c := c) run
  obtain ⟨begin, _, found, run⟩ := bind_eq_ok run
  obtain ⟨-, -, ⟨fresh, wrote₄⟩, a₄, labels, rfl⟩ := wrote_offsetLabel (c := c) found
  obtain ⟨s₅, e₅, run⟩ := Begins.rest (c := c) run
  replace run := rest_of_ok run rfl
  obtain ⟨_, s₆, entered, run⟩ := bind_eq_ok run
  obtain ⟨nexts, count, newer, e₆⟩ := emitted_entries (c := c) entered
  have e₇ := Emitted.of (c := c) run
  have before := e₁.trans <| e₂.trans e₃
  have resumes : s₅.resumes = s.resumes := e₅.resumption.1.trans before.resumption.1
  have registry : s₅.registry = s.registry := e₅.registry.trans before.registry
  rw [resumes] at count e₆
  rw [registry] at e₆
  have le₁ : s.assembler.labels.size ≤ s₁.assembler.labels.size := e₁.wrote.labels.ge
  have le₅ : s₁.assembler.labels.size ≤ s₅.assembler.labels.size := by
    rw [((e₂.trans e₃).wrote.trans (wrote₄.trans e₅.wrote)).labels]
    exact Nat.le_add_right _ _
  refine ⟨begin, next, nexts, _, count, fun l mem => ?_,
    e₁.wrote.trans <| e₂.wrote.trans <| e₃.wrote.trans <| wrote₄.trans <| e₅.wrote.trans <|
      e₆.wrote.trans e₇.wrote, ?_, ?_⟩
  · rcases List.mem_cons.mp mem with rfl | later
    · exact le₁.trans new.ge
    · exact (le₁.trans le₅).trans (newer l later)
  · exact e₇.pool.trans (e₆.pool.trans (e₅.pool.trans before.pool))
  · exact e₇.failure.trans (e₆.failure.trans (e₅.failure.trans before.failure))

section Dispatching

variable {dispatch begin : Label} {ps qs : List ResumePoint} {nexts : List Label} {vals vs : List Value}

/-- In the state of a resumption point the dispatcher loads what is needed. -/
theorem exec_dispatches (f : Function) (r : Registry) (call : Caller) (dispatch begin next : Label)
    (honest : pool.Honest) (self : locals[0]? = some g)
    (gen : w.generator? g = some G)
    (state : G.field generatorState.name = .word (.ofInt p.state))
    (started : Int64.ofInt p.state ≠ 0) (count : nexts.length = (ps ++ p :: qs).length)
    (others : ∀ q ∈ ps, Int64.ofInt p.state ≠ .ofInt q.state) :
    ∃ lines, (∀ l, .mark l ∈ lines → l ∈ nexts) ∧
      exec call pool (dispatchLines f r dispatch begin next (ps ++ p :: qs) nexts) (some dispatch) []
          locals w =
        exec call pool (loadLines f r p ++ .branch .goto p.label :: (lines ++ [.plain .returnVoid])) none
          [] locals w := by
  obtain ⟨lines, marks, goes⟩ : ∃ lines, (∀ l, .mark l ∈ lines → l ∈ nexts) ∧
      exec call pool (entriesLines f r (ps ++ p :: qs) nexts ++ [.plain .returnVoid]) none [] locals w =
        exec call pool (loadLines f r p ++ .branch .goto p.label :: (lines ++ [.plain .returnVoid])) none
          [] locals w := exec_entries honest self gen state count others
  refine ⟨lines, marks, ?_⟩
  have skipped : exec call pool (readLines sentValue ++ .branch .goto begin ::
      .mark next :: (entriesLines f r (ps ++ p :: qs) nexts ++ [.plain .returnVoid])) (some next)
        [] locals w =
      exec call pool (entriesLines f r (ps ++ p :: qs) nexts ++ [.plain .returnVoid]) none [] locals
        w := by
    rw [exec_skip (by simp [readLines])]
    exact exec_found
  rw [dispatchLines, exec_found, exec_read honest self gen (by decide), state, exec_ifne,
    if_neg started, skipped, goes]

/-- The dispatcher goes to the resumption point. -/
theorem exec_dispatch (honest : pool.Honest) (self : locals[0]? = some g)
    (gen : w.generator? g = some G)
    (state : G.field generatorState.name = .word (.ofInt p.state))
    (started : Int64.ofInt p.state ≠ 0) (count : nexts.length = (ps ++ p :: qs).length)
    (others : ∀ q ∈ ps, Int64.ofInt p.state ≠ .ofInt q.state)
    (saved : Saved w g (vals.reverse ++ vs)) (depth : vals.length = p.stack.length)
    (able : Restorable f r w p vals vs)
    (usable : ∀ i ∈ p.frame, 0 < i.toNat ∧ i.toNat < locals.size) (ne : p.label ∉ nexts) :
    exec call pool (dispatchLines f r dispatch begin next (ps ++ p :: qs) nexts) (some dispatch) []
        locals w =
      (.jumps p.label (if p.frameOnly then [] else G.field sentValue.name :: vals)
        (fill locals p.frame vs), w) := by
  obtain ⟨lines, marks, goes⟩ := exec_dispatches f r call dispatch begin next honest self gen state
    started count others
  rw [goes, exec_loads honest self gen saved depth able usable, exec_goto,
    exec_skip fun mem => ne (marks _ mem), List.append_nil]
  rfl

end Dispatching

end Dispatch

end HostLowering.Lower
