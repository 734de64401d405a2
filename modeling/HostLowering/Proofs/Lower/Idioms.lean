import HostLowering.Proofs.Lower.Writing
import HostLowering.Proofs.Object.Answers

set_option autoImplicit false

/-! # What idioms do

The lines of the short idioms of lowering, executed: reading and writing the fields of the generator,
which stands in the first local, and collecting values into a new list.
-/

namespace HostLowering.Lower

open Machine Object Lowering

variable {c : Source} {r : Catalog.Registry} {call : Caller} {pool : Pool} {code : List Line}
  {stack : List Value} {locals : Array Value} {w w' : World} {g v l : Value} {G : Generator}
  {f : FieldRef} {items : List Value}

/-! ## The generator -/

def readLines (f : FieldRef) : List Line := [.load .ref 0, .onField .getfield f]

instance (f : FieldRef) : Writes c r (readGenerator f) (readLines f) := by
  unfold readGenerator loadGenerator
  infer_instance

/-- The lines that pop a value into a field of the generator. -/
def writeLines (f : FieldRef) : List Line := [.load .ref 0, .plain .swap, .onField .putfield f]

instance (f : FieldRef) : Writes c r (writeGenerator f) (writeLines f) := by
  unfold writeGenerator loadGenerator
  infer_instance

def clearLines (f : FieldRef) : List Line :=
  [.load .ref 0, .plain .aconstNull, .onField .putfield f]

instance (f : FieldRef) : Writes c r (clearGenerator f) (clearLines f) := by
  unfold clearGenerator loadGenerator
  infer_instance

def stateLines (n : Int) : List Line :=
  [.load .ref 0, .word (.ofInt n), .onField .putfield Library.generatorState]

instance (n : Int) : Writes c r (setState n) (stateLines n) := by
  unfold setState loadGenerator
  infer_instance

section Generator

variable (honest : pool.Honest) (self : locals[0]? = some g) (gen : w.generator? g = some G)
  (plain : f.Plain)

include honest self gen plain

theorem exec_read : exec call pool (readLines f ++ code) none stack locals w =
    exec call pool code none (G.field f.name :: stack) locals w := by
  rw [readLines, List.cons_append, exec_load self]
  refine exec_ask (r := .getField f g) (s := stack) ?_ (serve_getField gen f)
  simp [Act.ofLine, Act.onField, honest.field plain]

omit self in
/-- The value on top goes to a field. -/
theorem exec_put : exec call pool (.onField .putfield f :: code) none (v :: g :: stack) locals w =
    exec call pool code none stack locals (w.withGenerator g (G.withField f v)) := by
  refine exec_ask (r := .putField f g v) (s := stack) ?_ (serve_putField gen f v)
  simp [Act.ofLine, Act.onField, honest.field plain]

theorem exec_write : exec call pool (writeLines f ++ code) none (v :: stack) locals w =
    exec call pool code none stack locals (w.withGenerator g (G.withField f v)) := by
  rw [writeLines, List.cons_append, exec_load self]
  exact exec_put honest gen plain

theorem exec_clear : exec call pool (clearLines f ++ code) none stack locals w =
    exec call pool code none stack locals (w.withGenerator g (G.withField f .null)) := by
  rw [clearLines, List.cons_append, exec_load self]
  exact exec_put honest gen plain

omit plain in
theorem exec_setState (n : Int) : exec call pool (stateLines n ++ code) none stack locals w =
    exec call pool code none stack locals
      (w.withGenerator g (G.withField Library.generatorState (.word (.ofInt n)))) := by
  rw [stateLines, List.cons_append, exec_load self]
  exact exec_put honest gen (by decide)

end Generator

/-! ## Lists -/

section Lists

variable (honest : pool.Honest)

include honest

theorem exec_newList (known : w.byHost.get? Library.listClass = some .list) (n : Int) :
    ∃ l w', w.Gathers l [] w' ∧ ∀ call code stack locals,
      exec call pool (newLines Library.listClass n ++ code) none stack locals w =
        exec call pool code none (l :: stack) locals w' := by
  obtain ⟨l, w', served, gathers⟩ := serve_allocate_list known
  refine ⟨l, w', gathers, fun call code stack locals => ?_⟩
  rw [newLines, List.cons_append, exec_ask rfl (served call)]
  exact exec_library (L := .initCollection) (honest.method (by decide)) rfl (by decide)
    [l, .word (.ofInt n)] rfl rfl

/-- The value under the list goes to its front. -/
theorem exec_reverseAdd (gathers : w.Gathers l items w') (v : Value) : ∃ w'',
    w.Gathers l (v :: items) w'' ∧ ∀ call code stack locals,
      exec call pool (reverseAddLines Library.listClass ++ code) none (l :: v :: stack) locals w' =
        exec call pool code none (l :: stack) locals w'' := by
  obtain ⟨w'', performed, gathers'⟩ := gathers.prepend v
  refine ⟨w'', gathers', fun call code stack locals => ?_⟩
  exact exec_library (honest.method (by decide)) rfl (by decide) [l, v] rfl (performed call)

/-- All values under the list go to its front, the deepest one first. -/
theorem exec_reverseAdds (vs : List Value) (gathers : w.Gathers l items w') : ∃ w'',
    w.Gathers l (vs.reverse ++ items) w'' ∧ ∀ call code stack locals,
      exec call pool ((List.replicate vs.length (reverseAddLines Library.listClass)).flatten ++ code)
          none (l :: (vs ++ stack)) locals w' =
        exec call pool code none (l :: stack) locals w'' := by
  induction vs generalizing items w' with
  | nil => exact ⟨w', gathers, fun _ _ _ _ => rfl⟩
  | cons v vs ih =>
    obtain ⟨w₁, first, runs⟩ := exec_reverseAdd honest gathers v
    obtain ⟨w₂, rest, runs'⟩ := ih first
    refine ⟨w₂, by simpa using rest, fun call code stack locals => ?_⟩
    rw [List.length_cons, List.replicate_succ, List.flatten_cons, List.append_assoc,
      List.cons_append, runs, runs']

/-- The lines that put locals behind a list. -/
def addLines (frame : List Int) : List Line :=
  frame.flatMap fun i => [.plain .dup, .load .ref i.toNat, callLine Library.listAdd]

theorem exec_adds {frame : List Int} {vs : List Value}
    (loads : List.Forall₂ (fun (i : Int) v => locals[i.toNat]? = some v) frame vs)
    (gathers : w.Gathers l items w') : ∃ w'', w.Gathers l (items ++ vs) w'' ∧ ∀ call code stack,
      exec call pool (addLines frame ++ code) none (l :: stack) locals w' =
        exec call pool code none (l :: stack) locals w'' := by
  induction loads generalizing items w' with
  | nil => exact ⟨w', by simpa using gathers, fun _ _ _ => rfl⟩
  | @cons i v frame vs load _ ih =>
    obtain ⟨w₁, performed, first⟩ := gathers.append v
    obtain ⟨w₂, rest, runs⟩ := ih first
    refine ⟨w₂, by simpa using rest, fun call code stack => ?_⟩
    rw [addLines, List.flatMap_cons, List.append_assoc, List.cons_append, exec_dup,
      List.cons_append, exec_load load]
    exact (exec_library (honest.method (by decide)) rfl (by decide) [l, v] rfl (performed call)).trans
      (runs call code stack)

end Lists

end HostLowering.Lower
