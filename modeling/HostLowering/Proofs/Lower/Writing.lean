import HostLowering.Proofs.Lower.Emit
import HostLowering.Proofs.Machine.Spelling

set_option autoImplicit false

/-! # What emission writes

The lines that the instructions and idioms of lowering write. `Writes c r x lines` says that the step
`x`, done with the registry `r`, appends exactly these lines and touches nothing else of the state.
Steps that also make labels or change the snapshot are described by `Emitted`, which relates the
states before and after.
-/

namespace HostLowering.Lower

open Machine Catalog Lowering

/-- What is lowered: the function, and the methods its code may invoke. -/
structure Source where
  function : Function
  refs : Set MethodRef
  library : ∀ m ∈ libraryReferences, m ∈ refs

variable {c : Source} {r : Registry} {s s' s'' : State} {lines more : List Line} {α : Type}
  {op : Opcode} {l : Label} {cls : String}

/-- Lines, labels and entries of the exception table have been added, and nothing else. -/
def Emitted (c : Source) (lines : List Line) (fresh : Nat) (guards : List PendingHandler)
    (s s' : State) : Prop :=
  ∃ a, s' = { s with assembler := a } ∧ Wrote c.refs lines fresh guards s.assembler a

theorem Emitted.refl (s : State) : Emitted c [] 0 [] s s := ⟨s.assembler, rfl, .refl _⟩

/-- What emission leaves as it is. -/
def State.background (s : State) :=
  (s.registry, s.failure, s.labels, s.marked, s.handlers, s.dispatch, s.first, s.pool.base,
    s.pool.reserved)

section Fields

variable {n : Nat} {gs : List PendingHandler} (h : Emitted c lines n gs s s')

include h

theorem Emitted.wrote : Wrote c.refs lines n gs s.assembler s'.assembler := by
  obtain ⟨a, rfl, wrote⟩ := h
  exact wrote

theorem Emitted.background : s'.background = s.background := by
  obtain ⟨a, rfl, -⟩ := h
  rfl

theorem Emitted.registry : s'.registry = s.registry := by
  obtain ⟨a, rfl, -⟩ := h
  rfl

theorem Emitted.failure : s'.failure = s.failure := by
  obtain ⟨a, rfl, -⟩ := h
  rfl

theorem Emitted.stack : s'.stack = s.stack := by
  obtain ⟨a, rfl, -⟩ := h
  rfl

theorem Emitted.pool : s'.pool = s.pool := by
  obtain ⟨a, rfl, -⟩ := h
  rfl

theorem Emitted.resumption : s'.resumes = s.resumes ∧ s'.nextState = s.nextState := by
  obtain ⟨a, rfl, -⟩ := h
  exact ⟨rfl, rfl⟩

end Fields

theorem Emitted.trans {n n' : Nat} {gs gs' : List PendingHandler} (h : Emitted c lines n gs s s')
    (h' : Emitted c more n' gs' s' s'') : Emitted c (lines ++ more) (n + n') (gs ++ gs') s s'' := by
  obtain ⟨a, rfl, wrote⟩ := h
  obtain ⟨a', rfl, wrote'⟩ := h'
  exact ⟨a', rfl, wrote.trans wrote'⟩

/-- A step appends lines and does nothing else. As a class this is found for a step from what the step
is made of, and the lines with it. -/
class Writes (c : Source) (r : Registry) (x : Lowering Unit) (lines : outParam (List Line)) : Prop where
  emits : ∀ s u s', s.registry = r → x c.function s = (.ok u, s') → Emitted c lines 0 [] s s'

/-- What a step that was done has written. -/
theorem Emitted.of {x : Lowering Unit} {u : Unit} [h : Writes c s.registry x lines]
    (run : x c.function s = (.ok u, s')) : Emitted c lines 0 [] s s' :=
  h.emits s u s' rfl run

/-- A step begins by appending lines and goes on with another step. -/
class Begins {α : Type} (c : Source) (r : Registry) (x : Lowering α) (lines : outParam (List Line))
    (rest : outParam (Lowering α)) : Prop where
  begins : ∀ s b s', s.registry = r → x c.function s = (.ok b, s') →
    ∃ s₁, Emitted c lines 0 [] s s₁ ∧ rest c.function s₁ = (.ok b, s')

instance (priority := low) Begins.last {x : Lowering Unit} {k : Unit → Lowering α}
    [h : Writes c r x lines] : Begins c r (x >>= k) lines (k ()) := by
  constructor
  intro s b s' registry run
  obtain ⟨u, s₁, first, run⟩ := bind_eq_ok run
  exact ⟨s₁, h.emits s u s₁ registry first, run⟩

instance Begins.step {x : Lowering Unit} {k : Unit → Lowering α} {rest : Lowering α}
    [h : Writes c r x lines] [h' : Begins c r (k ()) more rest] :
    Begins c r (x >>= k) (lines ++ more) rest := by
  constructor
  intro s b s' registry run
  obtain ⟨u, s₁, first, run⟩ := bind_eq_ok run
  have emitted := h.emits s u s₁ registry first
  obtain ⟨s₂, emitted', run⟩ := h'.begins s₁ b s' (emitted.registry.trans registry) run
  exact ⟨s₂, emitted.trans emitted', run⟩

/-- The rest of a step that was done, and what was written before it. -/
theorem Begins.rest {x rest : Lowering α} {b : α} [h : Begins c s.registry x lines rest]
    (run : x c.function s = (.ok b, s')) :
    ∃ s₁, Emitted c lines 0 [] s s₁ ∧ rest c.function s₁ = (.ok b, s') :=
  h.begins s b s' rfl run

namespace Writes

variable {x : Lowering Unit}

instance seq {k : Unit → Lowering Unit} [h : Writes c r x lines] [h' : Writes c r (k ()) more] :
    Writes c r (x >>= k) (lines ++ more) := by
  constructor
  intro s u s' registry run
  obtain ⟨u', s₁, first, second⟩ := bind_eq_ok run
  obtain ⟨a, rfl, wrote⟩ := h.emits s u' s₁ registry first
  exact .trans ⟨a, rfl, wrote⟩ (h'.emits _ u s' registry second)

instance nothing : Writes c r (pure ()) [] := by
  constructor
  intro s u s' _ run
  obtain ⟨-, rfl⟩ := Prod.mk.inj run
  exact .refl s

theorem reads {y : Lowering α} {k : α → Lowering Unit} {a : α} [h' : Writes c r (k a) lines]
    (h : ∀ s : State, s.registry = r → y c.function s = (.ok a, s)) :
    Writes c r (y >>= k) lines := by
  constructor
  intro s u s' registry run
  obtain ⟨a', s₁, first, second⟩ := bind_eq_ok run
  obtain ⟨same, rfl⟩ := Prod.mk.inj ((h s registry).symm.trans first)
  cases same
  exact h'.emits s u s' registry second

theorem assemble {step : Asm Unit} (h : ∀ a a', step a = .ok ((), a') → Wrote c.refs lines 0 [] a a') :
    Writes c r (assemble step) lines := by
  constructor
  intro s u s' _ run
  obtain ⟨a, done, rfl⟩ := assemble_eq_ok run
  exact ⟨a, rfl, h _ _ done⟩

theorem forM {xs : List α} {g : α → Lowering Unit} {ls : α → List Line}
    (h : ∀ x ∈ xs, Writes c r (g x) (ls x)) : Writes c r (xs.forM g) (xs.flatMap ls) := by
  induction xs with
  | nil => exact nothing
  | cons x xs ih =>
    have first := h x List.mem_cons_self
    have later := ih fun y hy => h y (List.mem_cons_of_mem x hy)
    rw [List.flatMap_cons]
    exact seq (k := fun _ => xs.forM g)

instance {xs : List α} {g : α → Lowering Unit} {ls : α → List Line}
    [h : ∀ x, Writes c r (g x) (ls x)] : Writes c r (xs.forM g) (xs.flatMap ls) :=
  .forM fun x _ => h x

instance times {n : Nat} [h : Writes c r x lines] :
    Writes c r (Lowering.times n x) (List.replicate n lines).flatten := by
  induction n with
  | zero => exact nothing
  | succ n ih => exact seq (k := fun _ => Lowering.times n x)

end Writes

/-! ## Instructions -/

/-- An opcode that can be emitted without an operand. -/
abbrev Plain (op : Opcode) : Prop := op.isKnown = true ∧ op.shape = .plain

/-- Opcodes that can be emitted without operands. -/
class Plains (ops : List Opcode) : Prop where
  plain : ∀ op ∈ ops, Plain op

instance : Plains [] := ⟨by simp⟩

instance {ops : List Opcode} [h : Among op [.dup, .swap, .pop, .aconstNull, .athrow, .dupX2,
    .returnVoid, .dupX1, .dup2, .pop2, .areturn]] [h' : Plains ops] : Plains (op :: ops) :=
  ⟨List.forall_mem_cons.mpr ⟨(by decide : ∀ op ∈ _, Plain op) op h.mem, h'.plain⟩⟩

/-- An opcode of branches. -/
class Branches (op : Opcode) : Prop where
  shape : op.shape = .branch

instance [h : Among op [.goto, .ifnull, .ifAcmpeq, .ifne, .ifIcmpge, .ifAcmpne, .ifIcmpne,
    .ifnonnull, .ifeq]] : Branches op :=
  ⟨(by decide : ∀ op ∈ _, op.shape = .branch) op h.mem⟩

/-- A method of the library that lowered code invokes. -/
class Invoked (m : MethodRef) : Prop where
  mem : m ∈ libraryReferences

instance Invoked.of_among {m : MethodRef} [h : Among m (delta% libraryReferences)] : Invoked m := ⟨h.mem⟩

instance writes_emit {ops : List Opcode} [h : Plains ops] :
    Writes c r (emit ops) (ops.map .plain) := by
  unfold emit
  rw [List.map_eq_flatMap]
  refine .forM fun op mem => .assemble fun a a' done => ?_
  cases done
  exact wrote_emit (h.plain op mem).1 (h.plain op mem).2

instance writes_load (i : Int) (k : Kind) : Writes c r (load i k) [.load k i.toNat] :=
  .assemble fun _ _ done => by
    cases done
    exact wrote_load

instance writes_store (i : Int) (k : Kind) : Writes c r (store i k) [.store k i.toNat] :=
  .assemble fun _ _ done => by
    cases done
    exact wrote_store

instance (i : Int) : Writes c r (loadRef i) [.load .ref i.toNat] := writes_load i .ref

instance (i : Int) : Writes c r (storeRef i) [.store .ref i.toNat] := writes_store i .ref

instance writes_increment (i : Int) : Writes c r (increment i) [.increment i.toNat 1] :=
  .assemble fun a _ done => by
    cases done
    have wrote : Wrote c.refs _ 0 [] a _ := wrote_emitIncrement a i 1
    rwa [show signed8 (Assembler.lowByte 1).toNat = 1 by decide] at wrote

theorem writes_invokeBy {m : MethodRef} (invoke : op.isInvoke = true) (mem : m ∈ c.refs) :
    Writes c r (invokeBy op m) [.invoke op m] :=
  .assemble fun _ _ done => wrote_emitInvoke done mem invoke

/-- An invocation of a method on its receiver. -/
def callLine (m : MethodRef) : Line :=
  .invoke (if m.isInterface then .invokeinterface else .invokevirtual) m

section Library

variable {m : MethodRef} [h : Invoked m]

instance : Writes c r (invoke m) [callLine m] :=
  writes_invokeBy (by split <;> rfl) (c.library m h.mem)

instance : Writes c r (invokeStatic m) [.invoke .invokestatic m] :=
  writes_invokeBy rfl (c.library m h.mem)

instance : Writes c r (invokeSpecial m) [.invoke .invokespecial m] :=
  writes_invokeBy rfl (c.library m h.mem)

end Library

instance (f : FieldRef) : Writes c r (getStatic f) [.onField .getstatic f] :=
  .assemble fun _ _ done => wrote_emitField done rfl rfl

instance (f : FieldRef) : Writes c r (getField f) [.onField .getfield f] :=
  .assemble fun _ _ done => wrote_emitField done rfl rfl

instance (f : FieldRef) : Writes c r (putField f) [.onField .putfield f] :=
  .assemble fun _ _ done => wrote_emitField done rfl rfl

instance {name : String} [h : Among op [.new, .checkcast, .instanceof]] :
    Writes c r (emitClass op name) [.onClass op name] := by
  obtain ⟨shape, other⟩ :=
    (by decide : ∀ op ∈ _, op.shape = .constant ∧ op.isInvoke = false) op h.mem
  exact .assemble fun _ _ done => wrote_emitClass done shape other

/-- The line that narrows the top of the stack, if there is one. -/
def castLines (name : String) : List Line :=
  if name = Library.objectClass ∨ Kind.ofTypeName name ≠ .ref then [] else [.onClass .checkcast name]

instance writes_cast (name : String) : Writes c r (Lowering.cast name) (castLines name) := by
  unfold Lowering.cast castLines
  split <;> infer_instance

/-- The lines that narrow the value below the top of the stack. -/
def castUnderLines (name : String) : List Line :=
  if name ≠ Library.objectClass then .plain .swap :: castLines name ++ [.plain .swap] else []

instance writes_castUnder (name : String) :
    Writes c r (castUnder name) (castUnderLines name) := by
  unfold castUnder castUnderLines
  split <;> infer_instance

instance (n : Int) : Writes c r (pushInt n) [.word (.ofInt n)] :=
  .assemble fun _ _ done => wrote_pushInt done

instance (t : String) : Writes c r (pushText t) [.text t] :=
  .assemble fun _ _ done => wrote_pushString done

instance writes_mark (l : Label) : Writes c r (mark l) [.mark l] :=
  .assemble fun _ _ done => wrote_mark done

theorem writes_branch (shape : op.shape = .branch) (l : Label) :
    Writes c r (branch op l) [.branch op l] :=
  .assemble fun _ _ done => wrote_jump done shape

instance [h : Branches op] : Writes c r (branch op l) [.branch op l] :=
  writes_branch h.shape l

theorem emitted_newLabel (run : newLabel c.function s = (.ok l, s')) :
    l = s.assembler.labels.size ∧ Emitted c [] 1 [] s s' := by
  obtain ⟨a, done, rfl⟩ := assemble_eq_ok run
  cases done
  exact ⟨rfl, _, rfl, wrote_newLabel _⟩

/-- A new label is made first, and the rest goes on with it. -/
theorem newLabel_first {k : Label → Lowering α} {b : α}
    (run : (newLabel >>= k) c.function s = (.ok b, s')) :
    ∃ (l : Nat) (s₁ : State), l = s.assembler.labels.size ∧ Emitted c [] 1 [] s s₁ ∧
      k l c.function s₁ = (.ok b, s') := by
  obtain ⟨l, s₁, made, rest⟩ := bind_eq_ok run
  obtain ⟨new, emitted⟩ := emitted_newLabel (c := c) made
  exact ⟨l, s₁, new, emitted, rest⟩

/-- Labels that are made one after the other are consecutive. -/
theorem Emitted.label {k : Label → Lowering α} {b : α} {n : Nat} {s₁ : State}
    (labels : Emitted c [] n [] s s₁) (run : (newLabel >>= k) c.function s₁ = (.ok b, s')) :
    ∃ (l : Nat) (s₂ : State), l = s.assembler.labels.size + n ∧ Emitted c [] (n + 1) [] s s₂ ∧
      k l c.function s₂ = (.ok b, s') := by
  obtain ⟨l, s₂, new, emitted, rest⟩ := newLabel_first run
  exact ⟨l, s₂, new.trans labels.wrote.labels, labels.trans emitted, rest⟩

/-- An entry of the exception table is registered. -/
theorem emitted_tryCatch {start stop target : Label} {u : Unit}
    (run : tryCatch start stop target cls c.function s = (.ok u, s')) :
    Emitted c [] 0 [⟨start, stop, target, cls⟩] s s' := by
  obtain ⟨a, done, rfl⟩ := assemble_eq_ok run
  cases done
  exact ⟨_, rfl, wrote_tryCatch _ _⟩

/-- Source offsets keep their labels, and the labels of more of them are new. -/
structure Labelled (s s' : State) : Prop where
  sources : ∀ (o : Int) (l : Label), s.labels[o]? = some l → s'.labels[o]? = some l
  newer : ∀ (o : Int) (l : Label), s'.labels[o]? = some l → s.labels[o]? = some l ∨
    s.assembler.labels.size ≤ l ∧ l < s'.assembler.labels.size
  apart : (∀ (o : Int) (l : Label), s.labels[o]? = some l → l < s.assembler.labels.size) →
    ∀ (o o' : Int) (l : Label), s'.labels[o]? = some l → s'.labels[o']? = some l →
      o = o' ∨ s.labels[o]? = some l ∧ s.labels[o']? = some l

theorem Labelled.trans (h : Labelled s s') (h' : Labelled s' s'')
    (le : s.assembler.labels.size ≤ s'.assembler.labels.size)
    (le' : s'.assembler.labels.size ≤ s''.assembler.labels.size) : Labelled s s'' where
  sources o l hl := h'.sources o l (h.sources o l hl)
  newer o l hl := by
    rcases h'.newer o l hl with old | new
    · rcases h.newer o l old with older | new
      · exact .inl older
      · exact .inr ⟨new.1, new.2.trans_le le'⟩
    · exact .inr ⟨le.trans new.1, new.2⟩
  apart made o o' l hl hl' := by
    have made' (o : Int) (l : Label) (hl : s'.labels[o]? = some l) : l < s'.assembler.labels.size := by
      rcases h.newer o l hl with old | new
      · exact (made o l old).trans_le le
      · exact new.2
    rcases h'.apart made' o o' l hl hl' with same | ⟨old, old'⟩
    · exact .inl same
    · exact h.apart made o o' l old old'

theorem labelled_of_eq (labels : s'.labels = s.labels) : Labelled s s' where
  sources _ _ hl := labels ▸ hl
  newer _ _ hl := .inl (labels ▸ hl)
  apart _ _ _ _ hl hl' := .inr ⟨labels ▸ hl, labels ▸ hl'⟩

theorem Emitted.labelled {n : Nat} {gs : List PendingHandler} (h : Emitted c lines n gs s s') :
    Labelled s s' := by
  obtain ⟨a, rfl, -⟩ := h
  exact labelled_of_eq rfl

/-- The label of a source offset is found, and at most it is new. -/
theorem wrote_offsetLabel {o : Int} (run : offsetLabel o c.function s = (.ok l, s')) :
    s'.labels[o]? = some l ∧ Labelled s s' ∧
      (∃ fresh, Wrote c.refs [] fresh [] s.assembler s'.assembler) ∧
        ∃ a labels, s' = { s with assembler := a, labels } := by
  rcases offsetLabel_eq_ok run with ⟨known, rfl⟩ | ⟨unknown, rfl, rfl⟩
  · exact ⟨known, labelled_of_eq rfl, ⟨0, .refl _⟩, s'.assembler, s'.labels, rfl⟩
  · have wrote : Wrote c.refs [] 1 [] s.assembler _ := wrote_newLabel s.assembler
    have found {o' : Int} {l : Label}
        (hl : (s.labels.insert o s.assembler.labels.size)[o']? = some l) :
        o' = o ∧ l = s.assembler.labels.size ∨ s.labels[o']? = some l := by
      rw [Std.TreeMap.getElem?_insert] at hl
      split at hl
      · rename_i same
        cases hl
        exact .inl ⟨(Std.LawfulEqOrd.eq_of_compare same).symm, rfl⟩
      · exact .inr hl
    refine ⟨Std.TreeMap.getElem?_insert_self,
      ⟨fun o' l hl => ?_, fun o' l hl => ?_, fun made o' o'' l hl hl' => ?_⟩, ⟨1, wrote⟩, _, _, rfl⟩
    · show (s.labels.insert o _)[o']? = some l
      rw [Std.TreeMap.getElem?_insert, if_neg fun same => ?_]
      · exact hl
      · rw [← Std.LawfulEqOrd.eq_of_compare same, unknown] at hl
        cases hl
    · rcases found hl with ⟨-, rfl⟩ | old
      · exact .inr ⟨le_rfl, wrote.labels.ge⟩
      · exact .inl old
    · -- the new label is none of those that were made before
      rcases found hl with ⟨rfl, rfl⟩ | old
      · rcases found hl' with ⟨rfl, -⟩ | old'
        · exact .inl rfl
        · exact absurd (made o'' _ old') (lt_irrefl _)
      · rcases found hl' with ⟨rfl, rfl⟩ | old'
        · exact absurd (made o' _ old) (lt_irrefl _)
        · exact .inr ⟨old, old'⟩

/-! ## Idioms -/

def newLines (cls : String) (n : Int) : List Line :=
  [.onClass .new cls, .plain .dup, .word (.ofInt n),
    .invoke .invokespecial (Library.collectionInit cls)]

instance {n : Int} [Invoked (Library.collectionInit cls)] :
    Writes c r (newCollection cls n) (newLines cls n) :=
  inferInstanceAs (Writes c r (do
    emitClass .new cls
    emit [.dup]
    pushInt n
    invokeSpecial (Library.collectionInit cls)) _)

/-- The lines that move a value into the collection above it. -/
def reverseAddLines (cls : String) : List Line :=
  [.plain .dupX1, .plain .swap, .invoke .invokevirtual (Library.reverseAdd cls)]

instance [Invoked (Library.reverseAdd cls)] :
    Writes c r (reverseAdd cls) (reverseAddLines cls) := by
  unfold reverseAdd
  infer_instance

/-- The lines that collect values into a new list. -/
def packLines (n : Nat) : List Line :=
  newLines Library.listClass n ++ (List.replicate n (reverseAddLines Library.listClass)).flatten

instance (n : Nat) : Writes c r (packArguments n) (packLines n) := by
  unfold packArguments
  infer_instance

/-- The lines that call a function with a list of arguments. -/
def callPackedLines : List Line :=
  [.plain .swap, .onClass .checkcast Library.functionClass, .plain .swap, .plain .aconstNull,
    .plain .aconstNull, callLine Library.call]

instance : Writes c r callPacked callPackedLines := by
  unfold callPacked
  infer_instance

/-- The lines that call a protocol method without arguments. -/
def callUnaryLines (method : String) : List Line :=
  [.plain .dup, callLine Library.getType, .text method, callLine Library.getDunderOrError,
    .plain .swap] ++ packLines 1 ++ callPackedLines

instance (method : String) : Writes c r (callUnary method) (callUnaryLines method) := by
  unfold callUnary
  infer_instance

end HostLowering.Lower
