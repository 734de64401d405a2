import HostLowering.Object.Initial
import HostLowering.Object.Perform
import HostLowering.Proofs.Lower.Candidates
import HostLowering.Proofs.Lower.Rearrangement
import HostLowering.Proofs.Object.Following

set_option autoImplicit false

/-! # Asking for the truth of a value

The code of an operation that tests a slot calls the truth method of the value's class and
compares the answer with the object for truth. `Test.asks` is that question and `Test.outcome`
what becomes of its answer. `exec_asks` runs the code of the question, `Test.body_object` the code
of each operation, and `asks_of_truthful` and `asks_of_answer` say for which values the answer is their
truth. A list has no truth method of its own, and its length is never asked for.
-/

namespace HostLowering.Object

open Machine Effect

variable {call : Caller} {w w' : World} {v fn : Value} {name : String} {F : Function} {b : Bool}
  {n depth : Nat}

/-! ## Truth methods -/

/-- What the class of a value defines is called with the value, next to a new list. -/
theorem callOnClass_eq (lists : w.byHost.get? Library.listClass = some .list)
    (defines : w.Defines v name fn F) : ∃ list w', w.Gathers list [v] w' ∧
      ∀ call, callOnClass call v name w = call (.value fn [v] []) w' := by
  obtain ⟨⟨c, known, found⟩, function, unbound⟩ := defines
  obtain ⟨list, w₁, made, gathers⟩ := serve_allocate_list lists
  obtain ⟨w', added, gathered⟩ := gathers.prepend v
  refine ⟨list, w', gathered, fun call => ?_⟩
  have method : library call .getMethodOrError [.cls c, .text name] w = (.ok fn, w) := by
    rw [library, bind_ok (getAttribute?_class found function unbound)]
    rfl
  have cast : serve call (.cast Library.functionClass fn) w' = (.ok fn, w') := by
    rw [serve, bind_get,
      gathered.keepsClasses _ _ (World.isHostInstance_function function), Bool.or_true]
    rfl
  rw [callOnClass, bind_ok (library_getType known), bind_ok method,
    bind_ok (x := allocate _) (made call), bind_ok (added call),
    bind_ok cast]
  exact library_call (gathered.function? function) gathered.sequence?

/-- A builtin function of its receiver is performed at once. -/
theorem performUpTo_ofSelf {B : Builtin} (function : w.function? fn = some (ofSelf name B))
    (shallow : depth < depthLimit) : performUpTo (n + 2) depth (.value fn [v] []) w =
      builtin (performUpTo n (depth + 1)) B [v] w := by
  unfold World.function? at function
  split at function
  · rename_i found
    cases function
    cases fn with
    | object r =>
      rw [performUpTo, bind_get]
      simp only [found]
      have bound : bind (ofSelf name B) [v] [] w = (.ok [v], w) := rfl
      rw [bind_ok bound, performUpTo, if_neg (Nat.not_le.mpr shallow)]
      rfl
    | _ => cases found
  · cases function

theorem World.Extends.int? {k : Int64} (h : w.Extends w') (int : w.int? v = some k) :
    w'.int? v = some k := by
  unfold World.int? at int ⊢
  cases v with
  | bool b => exact int
  | object r =>
    cases found : w.object? (.object r) with
    | none =>
      rw [found] at int
      cases int
    | some o =>
      rw [h.object? found]
      rw [found] at int
      exact int
  | _ => cases int

/-- The classes of lists and truth values are there, and truth is what it is. -/
structure World.Furnished (w : World) : Prop where
  lists : w.byHost.get? Library.listClass = some .list
  bools : w.byHost.get? Library.boolClass = some .bool
  yes : (w.info .bool).statics.get? Library.trueField.name = some (.bool true)

theorem World.Furnished.extend (furnished : w.Furnished) (h : w.Extends w') : w'.Furnished := by
  refine ⟨h.byHost ▸ furnished.lists, h.byHost ▸ furnished.bools, ?_⟩
  rw [World.info, h.classes, ← World.info, furnished.yes]

/-- Values whose truth is told by a builtin method of their class. -/
inductive World.Truthful (w : World) (fn : Value) : Value → Bool → Prop where
  | int {v : Value} {k : Int64} (int : w.int? v = some k)
      (defines : w.Defines v "__bool__" fn (ofSelf "__bool__" .intTruth)) : w.Truthful fn v (k != 0)
  | none (defines : w.Defines .none "__bool__" fn (ofSelf "__bool__" (.constant false))) :
      w.Truthful fn .none false
  | object {v : Value} {c : ClassId} (class_ : w.classOf? v = some c) (nonInt : w.int? v = .none)
      (nonNone : v ≠ .none) (inherits : w.definingClass? c "__bool__" = some .object)
      (lengthless : w.attribute? c "__len__" = .none)
      (defines : w.Defines v "__bool__" fn (ofSelf "__bool__" (.constant true))) :
      w.Truthful fn v true

/-- The truth of a value is told by a method that its class does not have from `object`. What the method
answers does not depend on objects that are made in between, nor on how many more calls can be nested. -/
structure World.Tells (w : World) (n depth : Nat) (fn v : Value) (b : Bool) : Prop where
  own : ∃ c, w.classOf? v = some c ∧ w.definingClass? c "__bool__" ≠ some .object
  nonInt : w.int? v = none
  nonNone : v ≠ .none
  defines : ∃ F, w.Defines v "__bool__" fn F
  binds : w.find? v "__bool__" = some (.bind v fn)
  answers : ∀ k w₁, n ≤ k → w.Extends w₁ →
    ∃ w₂, performUpTo k depth (.value fn [v] []) w₁ = (.ok (.bool b), w₂) ∧ w₂.Furnished

theorem truth_of_truthful (h : w.Truthful fn v b) : truth call v w = (.ok b, w) := by
  cases h with
  | int int defines =>
    rw [truth, bind_get, int]
    rfl
  | none defines => rfl
  | object class_ nonInt nonNone inherits lengthless defines =>
    rw [truth, bind_get, nonInt, class_]
    cases v with
    | none => exact absurd rfl nonNone
    | _ =>
      simp only [inherits, lengthless]
      rfl

/-- A method that is bound to its receiver is called with it. -/
theorem callMethod_bind {self : Value} (args : List Value)
    (found : w.find? v name = some (.bind self fn)) :
    callMethod (performUpTo (n + 1) depth) v name args w =
      performUpTo n depth (.value fn (self :: args) []) (w.push (.bound self fn)) := by
  have bound : getAttribute v name w = (.ok (.object ⟨w.heap.size⟩), w.push (.bound self fn)) := by
    have found' : getAttribute? v name w =
        (.ok (some (.object ⟨w.heap.size⟩)), w.push (.bound self fn)) := by
      rw [getAttribute?, bind_get, found]
      rfl
    rw [getAttribute, bind_ok found']
    rfl
  have made : (w.push (.bound self fn)).object? (.object ⟨w.heap.size⟩) = some (.bound self fn) :=
    Array.getElem?_push_size
  rw [callMethod, bind_ok bound, performUpTo, bind_get]
  simp only [made]

theorem truth_of_tells (h : w.Tells n depth fn v b) :
    ∃ w', truth (performUpTo (n + 1) depth) v w = (.ok b, w') := by
  obtain ⟨⟨c, known, own⟩, nonInt, nonNone, -, binds, answers⟩ := h
  obtain ⟨w₂, answered, -⟩ := answers n _ le_rfl (w.extends_push (.bound v fn))
  refine ⟨w₂, ?_⟩
  have called := (callMethod_bind [] binds).trans answered
  rw [truth, bind_get, nonInt, known]
  cases v with
  | none => exact absurd rfl nonNone
  | _ =>
    simp only [bne_iff_ne, ne_eq, own, not_false_eq_true, if_true]
    rw [bind_ok called]
    rfl

end HostLowering.Object

namespace HostLowering.Lower

set_option synthInstance.maxSize 1000000

open Machine Object Catalog Lowering
open Relation (ReflTransGen)

variable {c : Source} {s s' : State} {u : Unit} {call : Caller} {pool : Pool} {code : List Line}
  {stack : List Value} {locals : Array Value} {w : World} {v : Value} {name : String} {top : Slot}
  {below : Snapshot} {r : Registry} {fn : Value} {b : Bool} {n depth : Nat}
  {target : Int} {value : Bool} {l : Label}

section

variable (like : ∀ m ∈ libraryReferences, (pool.method m).Like m)

include like

/-- The code that looks a method up on the class of a value calls it. -/
theorem exec_callUnary :
    exec call pool (callUnaryLines name ++ code) none (v :: stack) locals w =
      Exit.follow locals (Effect.callOnClass call v name)
        (fun answer => exec call pool code none (answer :: stack) locals) w := by
  simp only [callUnaryLines, packLines, newLines, reverseAddLines, callPackedLines,
    List.replicate_succ, List.replicate_zero, List.flatten_cons, List.flatten_nil, List.append_nil,
    List.cons_append, List.nil_append]
  unfold Effect.callOnClass
  -- request by request: the type, the method, the list, the value in it, the call
  rw [exec_dup, Exit.follow_bind]
  refine (exec_invokes (like _ (by decide)) rfl (by decide) [v] rfl).trans (Exit.follow_congr fun cls w => ?_)
  rw [Exit.follow_bind]
  refine (exec_invokes (like _ (by decide)) rfl (by decide) [cls, .text name] rfl).trans
    (Exit.follow_congr fun method w => ?_)
  rw [Exit.follow_bind]
  refine (exec_swap (a := method)).trans ((exec_request rfl).trans
    (Exit.follow_congr fun args w => ?_))
  rw [Exit.follow_bind]
  refine (exec_library (L := .initCollection) (like _ (by decide)) rfl (by decide) [args, .word _]
    rfl rfl).trans ?_
  refine (exec_invokes (like _ (by decide)) rfl (by decide) [args, v] rfl).trans (Exit.follow_congr fun _ w => ?_)
  rw [Exit.follow_bind]
  refine (exec_swap (a := args)).trans ((exec_request rfl).trans
    (Exit.follow_congr fun function w => ?_))
  exact exec_invokes (like _ (by decide)) rfl (by decide) [function, args, .null, .null] rfl

end

/-! ## Tests -/

/-- The operations that ask for the truth of the top slot. A jump is made if it is the given one. -/
inductive Test where
  | not
  | popJump (value : Bool) (target : Int)
  | jumpOrPop (value : Bool) (target : Int)

namespace Test

def operation : Test → Operation
  | not => .not
  | popJump value target => .popJumpIf value target
  | jumpOrPop value target => .jumpIfOrPop value target

def target? : Test → Option Int
  | not => none
  | popJump _ target | jumpOrPop _ target => some target

/-- Whether the truth method of a value's class answers with the object for truth. -/
def asks (call : Caller) (v : Value) : Effect Bool := do
  let answer ← Effect.callOnClass call v "__bool__"
  let yes ← Effect.serve call (.getStatic Library.trueField)
  return yes == answer

/-- Whether a jump is made, and with which stack control goes on. -/
def outcome (call : Caller) (v : Value) (vals : List Value) : Test → Effect (Bool × List Value)
  | not => do
    let truth ← asks call v
    return (false, (← Effect.serve call (.getStatic (Library.boolField !truth))) :: vals)
  | popJump value _ => return ((← asks call v) == value, vals)
  | jumpOrPop value _ =>
    return if (← asks call v) = value then (true, v :: vals) else (false, vals)

end Test

/-! ## Lines -/

instance (slot : Slot) : Works c r (setTop slot) [] := by
  constructor
  intro s u s' _ run
  obtain ⟨_, s₁, popped, run⟩ := bind_eq_ok run
  obtain ⟨rest, -, rfl⟩ := popSlot_eq_ok popped
  obtain ⟨-, rfl⟩ := Prod.mk.inj run
  exact .restacked s _

theorem duplicate_top (shape : s.stack = top :: below)
    (run : duplicate 0 c.function s = (.ok u, s')) :
    Worked c [.plain .dup] s s' ∧ s'.stack = top :: s.stack := by
  rw [duplicate, if_pos rfl] at run
  obtain ⟨s₁, dups, run⟩ := Begins.rest (c := c) run
  obtain ⟨slot, _, peeked, pushes⟩ := bind_eq_ok run
  obtain ⟨found, rfl⟩ := peek_eq_ok peeked
  rw [dups.stack, shape] at found
  cases found
  have pushed := Worked.of (c := c) pushes
  obtain ⟨-, rfl⟩ := Prod.mk.inj pushes
  exact ⟨dups.worked.trans pushed, congrArg _ dups.stack⟩

section Objects

variable (shape : s.stack = top :: below) (object : top.known = objectType)

include shape object

theorem unary_object (run : unary name c.function s = (.ok u, s')) :
    Worked c (callUnaryLines name) s s' := by
  have none : directMethod? c.function s.registry objectType name [] = none := by
    simp [directMethod?, Registry.lookup?]
  replace run := peekType_first (by rw [shape]; rfl) run
  obtain ⟨direct, _, looked, run⟩ := bind_eq_ok run
  obtain ⟨rfl, rfl⟩ := direct?_eq_ok looked
  rw [object, none] at run
  simpa using Worked.of (c := c) run

variable (other : s.registry.isSubtype objectType boolType = false)

include other

/-- Nothing is known in advance about the truth of an object. -/
theorem toBool_object (run : toBool c.function s = (.ok u, s')) :
    Worked c (callUnaryLines "__bool__") s s' := by
  replace run := peekType_first (by rw [shape]; rfl) run
  replace run := rest_of_ok run rfl
  rw [object, other] at run
  obtain ⟨_, s₁, called, run⟩ := bind_eq_ok run
  obtain ⟨slot, _, peeked, sets⟩ := bind_eq_ok run
  obtain ⟨-, rfl⟩ := peek_eq_ok peeked
  simpa using (unary_object shape object called).trans (Worked.of (c := c) sets)

theorem popJumpIf_object (run : popJumpIf value target c.function s = (.ok u, s'))
    (fine : s'.failure = none) : ∃ l fresh, s'.labels[target]? = some l ∧
      Adds c (callUnaryLines "__bool__" ++ [.onField .getstatic Library.trueField,
        .branch (compare value) l]) fresh [] s s' := by
  obtain ⟨_, s₁, asked, run⟩ := bind_eq_ok run
  obtain ⟨s₂, dropped, run⟩ := Works.first (c := c) run
  obtain ⟨s₃, pushed, run⟩ := Works.first (c := c) run
  obtain ⟨l, fresh, label, jumps⟩ := jumpTo_eq_ok (by cases value <;> rfl) run fine
  have first := toBool_object shape object other asked
  exact ⟨l, _, label, by simpa using ((first.trans dropped).trans pushed).adds.trans jumps⟩

end Objects

/-! ## Execution -/

section Execution

variable (honest : pool.Honest) (like : ∀ m ∈ libraryReferences, (pool.method m).Like m)

include honest like

/-- The code of a test branches as the truth method answers. -/
theorem exec_asks : exec call pool (callUnaryLines "__bool__" ++
    .onField .getstatic Library.trueField :: .branch (compare b) l :: code) none (v :: stack)
      locals w = Exit.follow locals (Test.asks call v) (fun truth =>
        exec call pool code (if truth = b then some l else none) stack locals) w := by
  unfold Test.asks
  rw [exec_callUnary like, Exit.follow_bind]
  refine Exit.follow_congr fun answer w => ?_
  rw [exec_static honest (by decide), Exit.follow_bind]
  refine Exit.follow_congr fun yes w => ?_
  rw [Exit.follow_pure]
  cases b with
  | true => exact exec_branch (t := yes == answer) rfl
  | false =>
    -- the jump is made where the two differ
    refine (exec_branch (t := yes != answer) rfl).trans ?_
    simp [bne]

/-- The lines that push the opposite of a truth value. -/
def oppositeLines (same done : Label) : List Line :=
  [.onField .getstatic Library.trueField, .branch .goto done, .mark same,
    .onField .getstatic Library.falseField, .mark done]

omit like in
theorem exec_opposite {same done : Label} (ne : same ≠ done) (truth : Bool) :
    exec call pool (oppositeLines same done) (if truth = true then some same else none) stack
      locals w = Exit.follow locals (Effect.serve call (.getStatic (Library.boolField !truth)))
        (fun v w => (.falls (v :: stack) locals, w)) w := by
  cases truth with
  | true =>
    rw [if_pos rfl]
    have here : Line.mark same ∉ [.onField .getstatic Library.trueField, .branch .goto done] := by
      simp
    refine (exec_skip here).trans (exec_found.trans ?_)
    exact exec_static honest (f := Library.falseField) (by decide)
  | false =>
    refine (exec_static honest (f := Library.trueField) (by decide)).trans
      (Exit.follow_congr fun v w => ?_)
    have here : Line.mark done ∉ [.mark same, .onField .getstatic Library.falseField] := by
      simp [ne.symm]
    exact (exec_skip here).trans exec_found

end Execution

/-- How the code of a test ends: with a jump to a label, or behind the code. -/
def Test.exit (l : Label) (locals : Array Value) : Bool × List Value → Exit
  | (true, stack) => .jumps l stack locals
  | (false, stack) => .falls stack locals

/-- Lines follow the outcome of a test. -/
def Test.Follows (t : Test) (s : State) (lines : List Line) : Prop :=
  ∃ l, (∀ o ∈ t.target?, s.labels[o]? = some l) ∧
    ∀ pool : Pool, pool.Honest → (∀ m ∈ libraryReferences, (pool.method m).Like m) →
      ∀ call v vals locals w, exec call pool lines none (v :: vals) locals w =
        Exit.follow locals (t.outcome call v vals) (fun next w => (Test.exit l locals next, w)) w

theorem Test.body_object (t : Test) (shape : s.stack = top :: below)
    (object : top.known = objectType) (other : s.registry.isSubtype objectType boolType = false)
    (run : t.operation.body c.function s = (.ok u, s')) (fine : s'.failure = none) :
    ∃ lines fresh, Wrote c.refs lines fresh [] s.assembler s'.assembler ∧ t.Follows s' lines := by
  cases t with
  | not =>
    obtain ⟨_, s₁, asked, run⟩ := bind_eq_ok run
    obtain ⟨s₂, pushed, run⟩ := Works.first (c := c) run
    obtain ⟨_, s₃, compared, run⟩ := bind_eq_ok run
    obtain ⟨same, t₁, n₁, made₁, compared⟩ := newLabel_first compared
    obtain ⟨done, t₂, n₂, made, compared⟩ := made₁.label compared
    have compares := Emitted.of (c := c) compared
    have asks := toBool_object shape object other asked
    have all := (asks.trans pushed).adds.trans (made.adds.trans
      (compares.adds.trans (Worked.of (c := c) run).adds))
    -- both labels are new, so each mark is found by its own jump
    have ne : same ≠ done := by omega
    refine ⟨_, _, all.wrote, same, by simp [target?],
      fun pool honest like call v vals locals w => ?_⟩
    simp only [List.append_assoc, List.cons_append, List.nil_append, List.append_nil]
    refine (exec_asks honest like (b := true)).trans ?_
    rw [outcome, Exit.follow_bind]
    refine Exit.follow_congr fun truth w => (exec_opposite honest ne truth).trans ?_
    rw [Exit.follow_bind]
    rfl
  | popJump value target =>
    obtain ⟨l, fresh, label, adds⟩ := popJumpIf_object shape object other run fine
    refine ⟨_, fresh, adds.wrote, l, by simpa [target?] using label,
      fun pool honest like call v vals locals w => ?_⟩
    rw [exec_asks honest like, outcome, Exit.follow_bind]
    refine Exit.follow_congr fun truth w => ?_
    cases truth <;> cases value <;> rfl
  | jumpOrPop value target =>
    obtain ⟨_, s₁, doubled, run⟩ := bind_eq_ok run
    obtain ⟨_, s₂, jumped, run⟩ := bind_eq_ok run
    obtain ⟨doubles, twice⟩ := duplicate_top shape doubled
    obtain ⟨s₃, pops, run⟩ := Works.first (c := c) run
    have dropped := pops.trans (Worked.of (c := c) run)
    -- what is popped behind the jump records no failure
    have fine₂ : s₂.failure = none := dropped.adds.failure.symm.trans fine
    obtain ⟨l, fresh, label, jumps⟩ := popJumpIf_object twice object
      (by rw [doubles.registry]; exact other) jumped fine₂
    refine ⟨_, _, (doubles.adds.trans (jumps.trans dropped.adds)).wrote, l,
      by simpa [target?] using dropped.labelled.sources _ _ label,
      fun pool honest like call v vals locals w => ?_⟩
    simp only [List.append_assoc, List.cons_append, List.nil_append]
    rw [exec_dup, exec_asks honest like, outcome, Exit.follow_bind]
    refine Exit.follow_congr fun truth w => ?_
    cases truth <;> cases value <;> rfl

/-! ## Agreement -/

/-- What the truth method of a class answers is the outcome. -/
theorem asks_of_answer {F : Object.Function} {call : Caller} (furnished : w.Furnished)
    (defines : w.Defines v "__bool__" fn F) (answers : ∀ w₁, w.Extends w₁ →
      ∃ w₂, call (.value fn [v] []) w₁ = (.ok (.bool b), w₂) ∧ w₂.Furnished) :
    ∃ w', Test.asks call v w = (.ok b, w') := by
  obtain ⟨list, w₁, gathers, calls⟩ := callOnClass_eq furnished.lists defines
  obtain ⟨w₂, answered, furnished₂⟩ := answers w₁ gathers.toExtends
  refine ⟨w₂, ?_⟩
  have owner : Effect.staticClass Library.trueField w₂ = (.ok .bool, w₂) := by
    have bools : w₂.byHost.get? Library.trueField.owner = some .bool := furnished₂.bools
    rw [Effect.staticClass, Effect.bind_get, bools]
    rfl
  have yes : Effect.serve call (.getStatic Library.trueField) w₂ = (.ok (.bool true), w₂) := by
    rw [Effect.serve, Effect.bind_ok owner, if_neg (by decide), Effect.bind_get, furnished₂.yes]
    rfl
  rw [Test.asks, Effect.bind_ok ((calls call).trans answered), Effect.bind_ok yes]
  cases b <;> rfl

theorem asks_of_truthful (furnished : w.Furnished) (h : w.Truthful fn v b)
    (shallow : depth < depthLimit) :
    ∃ w', Test.asks (Effect.performUpTo (n + 2) depth) v w = (.ok b, w') := by
  -- the call makes a list of arguments; the classes and the integers of the world stay
  have asks {B : Builtin} (defines : w.Defines v "__bool__" fn (ofSelf "__bool__" B))
      (answers : ∀ w₁ call, w.Extends w₁ → Effect.builtin call B [v] w₁ = (.ok (.bool b), w₁)) :
      ∃ w', Test.asks (Effect.performUpTo (n + 2) depth) v w = (.ok b, w') := by
    refine asks_of_answer furnished defines fun w₁ more => ⟨w₁, ?_, ?_⟩
    · exact (performUpTo_ofSelf (more.function? defines.function) shallow).trans (answers w₁ _ more)
    · exact furnished.extend more
  cases h with
  | int int defines =>
    refine asks defines fun w₁ call more => ?_
    rw [Effect.builtin, Effect.bind_get, more.int? int]
    rfl
  | none defines => exact asks defines fun _ _ _ => rfl
  | object class_ nonInt nonNone inherits lengthless defines => exact asks defines fun _ _ _ => rfl

/-- The tests of an object-typed slot call the truth method that its class has, and compare the
answer with the object for truth. They go where that leads with the stack that their names say, and
stop where it stops. For integers, for none, for objects without a truth method and a length of
their own, and for objects with a truth method that answers with a truth value this is their truth. -/
theorem tests_ask_class {f : Function} {before after : List Action} (t : Test) {m : Method}
    (distinct : Distinct (references r)) (reached : stateBy f r before = .ok s)
    (lowered : methodBy f r (before ++ .perform t.operation :: after) = .ok (.ok m))
    (shape : s.stack = top :: below) (object : top.known = objectType)
    (other : s.registry.isSubtype objectType boolType = false) :
    (∃ s', stateBy f r (before ++ [.perform t.operation]) = .ok s' ∧
      ∀ (x : Frame) (v : Value) (vals : List Value), At m s.assembler.size (v :: vals) x.locals x →
        ∀ call w, match t.outcome call v vals w with
          | (.ok (jumps, stack), w') => ∃ y p,
              Effect.RunsIn call (Between s.assembler.size s'.assembler.size) (x, w) (y, w') ∧
                At m p stack x.locals y ∧
                  if jumps then
                    ∀ o ∈ t.target?, Placed f r (before ++ .perform t.operation :: after) o p
                  else p = s'.assembler.size
          | (.error e, w') => (Exit.stops e x.locals).Reached call m (fun _ => none)
              s.assembler.size s'.assembler.size (x, w) w') ∧
    (∀ w v fn b n depth, World.Furnished w → World.Truthful w fn v b → depth < depthLimit →
      Effect.truth (Effect.performUpTo (n + 2) depth) v w = (.ok b, w) ∧
        ∃ w', Test.asks (Effect.performUpTo (n + 2) depth) v w = (.ok b, w')) ∧
    ∀ w v fn b n depth, World.Furnished w → World.Tells w n depth fn v b →
      (∃ w', Effect.truth (Effect.performUpTo (n + 1) depth) v w = (.ok b, w')) ∧
        ∃ w', Test.asks (Effect.performUpTo (n + 1) depth) v w = (.ok b, w') := by
  refine ⟨?_, fun w v fn b n depth furnished truthful shallow =>
    ⟨truth_of_truthful truthful, asks_of_truthful furnished truthful shallow⟩,
    fun w v fn b n depth furnished tells => ⟨truth_of_tells tells, ?_⟩⟩
  rotate_left
  · obtain ⟨F, defines⟩ := tells.defines
    exact asks_of_answer furnished defines fun w₁ more => tells.answers _ w₁ n.le_succ more
  let c : Source := ⟨f, references r, fun _ => .inl⟩
  obtain ⟨t₃, t', session⟩ :=
    exists_session (c := c) (fun sig known => .inr ⟨sig, known, rfl⟩) lowered
  obtain ⟨s', passed, -⟩ := session.exists_state
    (List.append_cons before (.perform t.operation) after)
  obtain ⟨after', front, back, ending, newer, cut⟩ :=
    session.cut ⟨before, after, rfl, reached, passed⟩
  obtain ⟨-, -, body⟩ := perform_eq_ok cut.run cut.fine.1
  obtain ⟨lines, fresh, wrote, l, label, follows⟩ := t.body_object (c := c)
    (s := { s with operation := t.operation.name }) shape object other body cut.fine.1
  have spelled := cut.spelled wrote
  obtain ⟨items, held, -⟩ := spelled.held
  refine ⟨s', passed, fun x v vals here call w => ?_⟩
  have run := follows _ spelled.honest
    (fun m mem => distinct.method_like held.keyed (.inl mem)) call v vals x.locals w
  cases outcome : t.outcome call v vals w with
  | mk answer w' =>
      cases answer with
      | error e => exact cut.executes wrote here (run.trans (Exit.follow_error outcome))
      | ok next =>
          rw [Exit.follow_ok outcome] at run
          obtain ⟨jumps, stack⟩ := next
          cases jumps with
          | false =>
              obtain ⟨y, runs, there⟩ := cut.executes wrote here run
              exact ⟨y, _, runs, there, rfl⟩
          | true =>
              -- the label of the target is marked where the target is visited
              obtain ⟨y, p, place, runs, there⟩ := cut.executes wrote here run
              exact ⟨y, p, runs, there, fun o target =>
                session.placed_of_position (cut.later.labelled.sources o l (label o target)) place⟩

/-- A jump that depends on the argument. -/
def branchStart : List Action := [.visit 0 [], .perform (.loadLocal 0)]

def branchEnd : List Action :=
  [.perform (.loadConst .none), .perform .returnValue, .visit 10 [], .perform (.loadConst (.int 1)),
    .perform .returnValue]

/-- The object at 1, whose class says that it is false with the function before it. -/
def denying : World where
  heap := #[.function (ofSelf "__bool__" (.constant false)), .record ⟨1⟩ []]
  classes := ((Array.replicate ClassId.bool.index default).set! 1 {
    name := "Denying"
    host := "u/Denying"
    lineage := [⟨1⟩]
    attributes := [("__bool__", .object ⟨0⟩)] }).push {
      name := "bool"
      host := Library.boolClass
      lineage := [.bool]
      statics := [(Library.trueField.name, .bool true)] }
  byHost := [(Library.listClass, .list), (Library.boolClass, .bool)]

theorem tests_ask_class_branching : ∃ s m, stateBy taking .builtin branchStart = .ok s ∧
    methodBy taking .builtin (branchStart ++ .perform (.popJumpIf false 10) :: branchEnd) =
      .ok (.ok m) ∧
    (∀ (x : Frame) (v : Value), At m s.assembler.size [v] x.locals x → ∀ call w w',
      Test.asks call v w = (.ok false, w') → ∃ y p, At m p [] x.locals y ∧
        ReflTransGen (Effect.Loops call) (x, w) (y, w') ∧
          Placed taking .builtin (branchStart ++ .perform (.popJumpIf false 10) :: branchEnd) 10 p) ∧
    (∃ w', Test.asks (Effect.performUpTo 2 0) .none .initial = (.ok false, w')) ∧
    ∃ w', Effect.truth (Effect.performUpTo 3 0) (.object ⟨1⟩) denying = (.ok false, w') := by
  obtain ⟨s, reached, here⟩ := exists_of_any (x := stateBy taking .builtin branchStart)
    (p := fun s => decide (s.stack.map Slot.known = [objectType]) &&
      !s.registry.isSubtype objectType boolType) (by decide +kernel)
  simp only [Bool.and_eq_true, decide_eq_true_eq, Bool.not_eq_true'] at here
  obtain ⟨types, other⟩ := here
  obtain ⟨top, below, shape, object, -⟩ := List.map_eq_cons_iff.mp types
  obtain ⟨m, found⟩ := Option.isSome_iff_exists.mp (by decide +kernel : (method? taking .builtin
    (branchStart ++ .perform (.popJumpIf false 10) :: branchEnd)).isSome = true)
  have lowered := methodBy_of_method? found
  obtain ⟨⟨s', -, runs⟩, agree, agree'⟩ := tests_ask_class (.popJump false 10) distinct_builtin reached
    lowered shape object other
  refine ⟨s, m, reached, lowered, fun x v here call w w' asked => ?_, ?_, ?_⟩
  · have run := runs x v [] here call w
    rw [Test.outcome, Effect.bind_ok asked] at run
    obtain ⟨y, p, runs, there, placed⟩ := run
    exact ⟨y, p, there, runs.loops, placed 10 rfl⟩
  · -- object 6 of the initial heap is the truth method of none
    refine (agree .initial .none (.object ⟨6⟩) false 0 0 ⟨by decide +kernel, by decide +kernel,
      by decide +kernel⟩ (.none ⟨⟨.noneType, rfl, by decide +kernel⟩, ?_, rfl⟩) (by decide)).2
    rfl
  · have furnished : denying.Furnished := ⟨rfl, rfl, rfl⟩
    have function : denying.function? (.object ⟨0⟩) = some (ofSelf "__bool__" (.constant false)) := rfl
    refine (agree' denying (.object ⟨1⟩) (.object ⟨0⟩) false 2 0 furnished ⟨⟨⟨1⟩, rfl, by decide⟩, rfl,
      by simp, ⟨_, ⟨⟨1⟩, rfl, rfl⟩, function, rfl⟩, rfl, fun k w₁ le more => ⟨w₁, ?_, ?_⟩⟩).1
    · obtain ⟨k, rfl⟩ := Nat.exists_eq_add_of_le' le
      exact performUpTo_ofSelf (more.function? function) (by decide)
    · exact furnished.extend more

/-- An empty list is false, but counts as true where it is tested. -/
theorem emptyList_tested_true : ∃ v w,
    (Effect.truth (Effect.performUpTo 3 0) v w).1.toOption = some false ∧
      (Test.asks (Effect.performUpTo 3 0) v w).1.toOption = some true :=
  ⟨.object ⟨World.initial.heap.size⟩, (Effect.newCopy .list [] .initial).2, by decide +kernel,
    by decide +kernel⟩

end HostLowering.Lower
