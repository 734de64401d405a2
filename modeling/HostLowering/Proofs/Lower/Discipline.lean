import HostLowering.Proofs.Lower.Call
import HostLowering.Proofs.Lower.Writing

set_option autoImplicit false

/-! # Disciplines

A *discipline* is what lowering steps are judged by when neither the types nor the depths they meet
matter. `D.Does own live x after` says that the step `x` keeps the discipline `D` when it is begun with
the labels `own` made by the operation and the temporaries `live` taken, and that the temporaries
`after` are taken when it ends with a value. A `Discipline` comes with rules for single instructions;
rules for idioms are derived here, and those for operations in the next module. To stay in a scope is
one discipline, to free what was taken another.
-/

namespace HostLowering

/-- Whether a defect is that of a local slot taken, freed or left behind at the wrong time. -/
def Defect.ofPool : Defect → Bool
  | freeOutOfOrder .. | reserveWhileLive _ | temporariesLeft .. => true
  | _ => false

/-- Whether a line neither uses a local nor has to do with a label. -/
def Machine.Line.idle : Machine.Line → Bool
  | load .. | store .. | increment .. | branch .. | mark _ => false
  | _ => true

namespace Lower

open Machine Catalog Lowering

variable {i : Int} {op : Opcode} {m : MethodRef} {f : FieldRef} {name : String} {t : TypeRef}
  {slot : Slot}

/-! ## Steps of the assembler -/

/-- A step of the assembler that ends with no defect of the pool of slots. -/
def Clean {α : Type} (step : Asm α) : Prop := ∀ a d, step a = .error d → d.ofPool = false

theorem clean_modify (g : Assembler → Assembler) : Clean (modify g : Asm Unit) := by
  intro a d h
  cases h

theorem clean_emitConstant (op : Opcode) (c : Constant) : Clean (Asm.emitConstant op c) := by
  intro a d h
  unfold Asm.emitConstant at h
  dsimp only at h
  cases entered : a.pool.intern c with
  | ok r =>
    rw [entered] at h
    cases h
  | error e =>
    rw [entered] at h
    cases h
    unfold Pool.intern at entered
    split at entered
    · cases entered
    · split at entered
      · cases entered
      · cases entered
        rfl

theorem clean_pushInt (n : Int64) : Clean (Asm.pushInt n) := by
  unfold Asm.pushInt
  split
  · exact clean_modify _
  · exact clean_emitConstant _ _

theorem clean_newLabel : Clean Asm.newLabel := by
  intro a d h
  cases h

theorem clean_mark (l : Label) : Clean (Asm.mark l) := by
  intro a d h
  unfold Asm.mark at h
  cases found : a.labels[l]? with
  | none =>
    rw [found] at h
    cases h
    rfl
  | some state =>
    rw [found] at h
    cases marked : state.position <;> simp only [need, Bind.bind, Except.bind, marked] at h <;> cases h
    rfl

theorem clean_jump (op : Opcode) (l : Label) : Clean (Asm.jump op l) := by
  intro a d h
  unfold Asm.jump at h
  cases found : a.labels[l]? with
  | none =>
    rw [found] at h
    cases h
    rfl
  | some state =>
    rw [found] at h
    cases marked : state.position <;> simp only [need, Bind.bind, Except.bind, marked] at h <;> cases h

/-! ## The rules of a discipline -/

/-- A way to judge steps, and the rules for single instructions. Code may invoke `refs` and write the
persistent locals of which `writes` holds, may jump to the offsets of which `jumps` holds, and may put
entries into the exception table if `guards`. -/
structure Discipline extends Source where
  Does {α : Type} (own : List Label) (live : List Int) (x : Lowering α) (after : α → List Int) : Prop
  writes : Int → Prop
  jumps : Int → Prop
  guards : Prop
  bind {α β : Type} {own : List Label} {live : List Int} {x : Lowering α} {k : α → Lowering β}
    {mid : α → List Int} {after : β → List Int} (h : Does own live x mid)
    (h' : ∀ a, Does own (mid a) (k a) after) : Does own live (x >>= k) after
  ret {α : Type} {own : List Label} {live : List Int} {after : α → List Int} (a : α)
    (same : after a = live) : Does own live (pure a) after
  defect {α : Type} {own : List Label} {live : List Int} {after : α → List Int} {d : Defect}
    (other : d.ofPool = false) : Does own live (Lowering.defect d : Lowering α) after
  fail {own : List Label} {live : List Int} (e : Cause) :
    Does own live (Lowering.fail e) fun _ => live
  /-- Only what a step does with the function at hand counts. -/
  congr {α : Type} {own : List Label} {live : List Int} {x y : Lowering α} {after : α → List Int}
    (same : x function = y function) (h : Does own live y after) : Does own live x after
  /-- The registry gives signatures of methods that may be invoked. -/
  get {α : Type} {own : List Label} {live : List Int} {k : State → Lowering α}
    {after : α → List Int}
    (h : ∀ s, (∀ sig, s.registry.Knows sig → sig.method ∈ refs) → Does own live (k s) after) :
    Does own live (MonadStateOf.get >>= k) after
  owning {α : Type} {own : List Label} {live : List Int} {x : Lowering α} {after : α → List Int}
    (h : Does own live x after) (l : Label) : Does (l :: own) live x after
  label {α : Type} {own : List Label} {live : List Int} {k : Label → Lowering α}
    {after : α → List Int} (h : ∀ l, Does (l :: own) live (k l) after) :
    Does own live (newLabel >>= k) after
  line {own : List Label} {live : List Int} {step : Asm Unit} (line : Line) (clean : Clean step)
    (wrote : ∀ a a', step a = .ok ((), a') → Wrote refs [line] 0 [] a a') (idle : line.idle = true) :
    Does own live (assemble step) fun _ => live
  load {own : List Label} {live : List Int} {i : Int} (k : Kind)
    (usable : 0 ≤ i ∧ i < function.slotBase + 2 ∨ i ∈ live) :
    Does own live (load i k) fun _ => live
  store {own : List Label} {live : List Int} {i : Int} (k : Kind) (writable : writes i ∨ i ∈ live) :
    Does own live (store i k) fun _ => live
  increment {own : List Label} {live : List Int} {i : Int} (taken : i ∈ live) :
    Does own live (increment i) fun _ => live
  mark {own : List Label} {live : List Int} {l : Label} (mem : l ∈ own) :
    Does own live (mark l) fun _ => live
  branch {own : List Label} {live : List Int} {op : Opcode} {l : Label} (shape : op.shape = .branch)
    (mem : l ∈ own) : Does own live (branch op l) fun _ => live
  tryCatch {own : List Label} {live : List Int} {start stop target : Label} (cls : String)
    (may : guards) (hs : start ∈ own) (he : stop ∈ own) (ht : target ∈ own) :
    Does own live (tryCatch start stop target cls) fun _ => live
  jumpTo {own : List Label} {live : List Int} {op : Opcode} {target : Int}
    (shape : op.shape = .branch) (may : jumps target) :
    Does own live (jumpTo op target) fun _ => live
  adjust {own : List Label} {live : List Int} (stack : State → Snapshot) (reachable : State → Bool) :
    Does own live (modify fun s : State => { s with stack := stack s, reachable := reachable s })
      fun _ => live
  addCallable {own : List Label} {live : List Int} {sig : Signature} (mem : sig.method ∈ refs)
    (bound : Bool) : Does own live (do
      let (t, registry) := (← (MonadState.get : Lowering State)).registry.addCallable ⟨sig, bound⟩
      modify fun s : State => { s with registry }
      pushType t) fun _ => live
  alloc {own : List Label} {live : List Int} (k : Kind) :
    Does own live (alloc k) fun i => i :: live
  free {own : List Label} {live : List Int} (i : Int) :
    Does own (i :: live) (free i) fun _ => live

/-- A step keeps a discipline. As a class this is found for a step from what the step is made of: what
comes first tells which labels and temporaries there are for the rest. -/
class Discipline.Conforms (D : Discipline) {α : Type} (own : List Label) (live : List Int)
    (x : Lowering α) (after : outParam (α → List Int)) : Prop where
  does : D.Does own live x after

/-- A step leaves the temporaries as they are. -/
abbrev Discipline.Abides (D : Discipline) {α : Type} (own : List Label) (x : Lowering α) : Prop :=
  ∀ live, D.Conforms own live x fun _ => live

variable {D : Discipline} {own : List Label} {live : List Int} {α β γ : Type} {x y : Lowering α}
  {k : α → Lowering β} {mid : α → List Int} {after : β → List Int}

namespace Discipline

/-! ## One step after another -/

namespace Conforms

instance [h : D.Conforms own live x mid] [h' : ∀ a, D.Conforms own (mid a) (k a) after] :
    D.Conforms own live (x >>= k) after :=
  ⟨D.bind h.does fun a => (h' a).does⟩

theorem next [D.Conforms own live x mid] (h : ∀ a, D.Conforms own (mid a) (k a) after) :
    D.Conforms own live (x >>= k) after :=
  inferInstance

/-- Only what a step does with the function at hand counts. -/
theorem congr {after : α → List Int} (same : x D.function = y D.function)
    (h : D.Conforms own live y after) : D.Conforms own live x after :=
  ⟨D.congr same h.does⟩

instance {a : α} [h : D.Conforms own live (k a) after] : D.Conforms own live (pure a >>= k) after :=
  .congr rfl h

instance label {k : Label → Lowering β} [h : ∀ l, D.Conforms (l :: own) live (k l) after] :
    D.Conforms own live (newLabel >>= k) after :=
  ⟨D.label fun l => (h l).does⟩

instance reading {k : Function → Lowering β} [h : D.Conforms own live (k D.function) after] :
    D.Conforms own live ((read : Lowering Function) >>= k) after :=
  .congr (y := k D.function) rfl h

theorem get {k : State → Lowering β}
    (h : ∀ s, (∀ sig, s.registry.Knows sig → sig.method ∈ D.refs) → D.Conforms own live (k s) after) :
    D.Conforms own live ((MonadState.get : Lowering State) >>= k) after :=
  ⟨D.get fun s known => (h s known).does⟩

instance {k : State → Lowering β} [h : ∀ s, D.Conforms own live (k s) after] :
    D.Conforms own live ((MonadState.get : Lowering State) >>= k) after :=
  get fun s _ => h s

instance {p : Prop} [Decidable p] [D.Conforms own live x mid] [D.Conforms own live y mid] :
    D.Conforms own live (if p then x else y) mid := by
  split <;> infer_instance

instance (a : α) : D.Conforms own live (pure a) fun _ => live := ⟨D.ret a rfl⟩

instance (e : Cause) : D.Conforms own live (Lowering.fail e) fun _ => live := ⟨D.fail e⟩

/-- A defect, of the assembler or of an access. -/
theorem defect {d : Defect} (other : d.ofPool = false) :
    D.Conforms own live (Lowering.defect d : Lowering α) mid :=
  ⟨D.defect other⟩

instance : D.Conforms own live (Lowering.defect .invalidAccess : Lowering α) fun _ => live :=
  .defect rfl

instance : D.Conforms own live ((Lowering.defect .invalidAccess : Lowering α) >>= k) fun _ => live :=
  .congr (y := Lowering.defect .invalidAccess) rfl inferInstance

theorem forM {xs : List α} {g : α → Lowering Unit}
    (h : ∀ y ∈ xs, D.Conforms own live (g y) fun _ => live) :
    D.Conforms own live (xs.forM g) fun _ => live := by
  induction xs with
  | nil => exact inferInstanceAs (D.Conforms own live (pure ()) _)
  | cons y xs ih =>
    have first := h y List.mem_cons_self
    have rest := ih fun z hz => h z (List.mem_cons_of_mem y hz)
    exact inferInstanceAs (D.Conforms own live (g y >>= fun _ => xs.forM g) _)

instance {xs : List α} {g : α → Lowering Unit} [h : ∀ y, D.Conforms own live (g y) fun _ => live] :
    D.Conforms own live (xs.forM g) fun _ => live :=
  forM fun y _ => h y

instance {n : Nat} {x : Lowering Unit} [D.Conforms own live x fun _ => live] :
    D.Conforms own live (times n x) fun _ => live := by
  induction n with
  | zero => exact inferInstanceAs (D.Conforms own live (pure ()) _)
  | succ n ih =>
    exact inferInstanceAs (D.Conforms own live (x >>= fun _ => times n x) _)

instance [D.Conforms own live x fun _ => live] : D.Conforms own live (discard x) fun _ => live :=
  inferInstanceAs (D.Conforms own live (x >>= fun _ => pure ()) _)

/-- More labels do no harm. -/
theorem owning (h : D.Conforms own live x mid) (l : Label) : D.Conforms (l :: own) live x mid :=
  ⟨D.owning h.does l⟩

theorem reads (g : State → α) (h : ∀ s, x D.function s = (.ok (g s), s)) :
    D.Conforms own live x fun _ => live := by
  have same : x D.function =
      ((MonadState.get : Lowering State) >>= fun s => (pure (g s) : Lowering α)) D.function := by
    funext s
    exact h s
  exact congr same inferInstance

/-- A step of the assembler that writes one line, which neither uses a local nor a label. -/
theorem line {step : Asm Unit} (line : Line) (clean : Clean step)
    (wrote : ∀ a a', step a = .ok ((), a') → Wrote D.refs [line] 0 [] a a')
    (idle : line.idle = true) : D.Conforms own live (assemble step) fun _ => live :=
  ⟨D.line line clean wrote idle⟩

end Conforms

end Discipline

/-! ## Instructions -/

/-- What a discipline may have to allow. -/
class Given (p : Prop) : Prop where
  holds : p

/-- A local that can be read: one in front of all temporaries, or a temporary that is taken. -/
class Discipline.Readable (D : Discipline) (live : List Int) (i : Int) : Prop where
  readable : 0 ≤ i ∧ i < D.function.slotBase + 2 ∨ i ∈ live

/-- A local that can be written. -/
class Discipline.Writable (D : Discipline) (live : List Int) (i : Int) : Prop where
  writable : D.writes i ∨ i ∈ live

instance [h : Among i live] : D.Readable live i := ⟨.inr h.mem⟩

instance [h : Among i live] : D.Writable live i := ⟨.inr h.mem⟩

instance [h : Given (D.writes i)] : D.Writable live i := ⟨.inl h.holds⟩

instance {ops : List Opcode} [h : Plains ops] :
    D.Conforms own live (emit ops) fun _ => live := by
  refine .forM fun op mem => .line (.plain op) (clean_modify _) (fun a a' done => ?_) rfl
  cases done
  exact wrote_emit (h.plain op mem).1 (h.plain op mem).2

instance {k : Kind} [h : D.Readable live i] :
    D.Conforms own live (load i k) fun _ => live :=
  ⟨D.load k h.readable⟩

instance [D.Readable live i] : D.Conforms own live (loadRef i) fun _ => live :=
  inferInstanceAs (D.Conforms own live (load i .ref) _)

instance {k : Kind} [h : D.Writable live i] :
    D.Conforms own live (store i k) fun _ => live :=
  ⟨D.store k h.writable⟩

instance [D.Writable live i] : D.Conforms own live (storeRef i) fun _ => live :=
  inferInstanceAs (D.Conforms own live (store i .ref) _)

instance [h : Among i live] : D.Conforms own live (increment i) fun _ => live :=
  ⟨D.increment h.mem⟩

instance {k : Kind} : D.Conforms own live (alloc k) fun i => i :: live := ⟨D.alloc k⟩

instance : D.Conforms own live allocRef fun i => i :: live := ⟨D.alloc .ref⟩

instance : D.Conforms own (i :: live) (free i) fun _ => live := ⟨D.free i⟩

theorem abides_invokeBy (invoke : op.isInvoke = true) (mem : m ∈ D.refs) :
    D.Conforms own live (invokeBy op m) fun _ => live :=
  .line (.invoke op m) (clean_emitConstant _ _) (fun _ _ done => wrote_emitInvoke done mem invoke) rfl

instance [h : Invoked m] : D.Abides own (invoke m) :=
  fun _ => abides_invokeBy (by split <;> rfl) (D.library m h.mem)

instance [h : Invoked m] : D.Abides own (invokeStatic m) :=
  fun _ => abides_invokeBy rfl (D.library m h.mem)

instance [h : Invoked m] : D.Abides own (invokeSpecial m) :=
  fun _ => abides_invokeBy rfl (D.library m h.mem)

theorem abides_emitField {op : Opcode} (shape : op.shape = .constant) (other : op.isInvoke = false)
    (f : FieldRef) : D.Abides own (assemble (Asm.emitField op f)) := fun _ =>
  .line (.onField op f) (clean_emitConstant _ _) (fun _ _ done => wrote_emitField done shape other) rfl

instance : D.Abides own (getStatic f) := abides_emitField rfl rfl f

instance : D.Abides own (getField f) := abides_emitField rfl rfl f

instance : D.Abides own (putField f) := abides_emitField rfl rfl f

instance [h : Among op [.new, .checkcast, .instanceof]] :
    D.Abides own (emitClass op name) := by
  obtain ⟨shape, other⟩ :=
    (by decide : ∀ op ∈ _, op.shape = .constant ∧ op.isInvoke = false) op h.mem
  intro live
  exact .line (.onClass op name) (clean_emitConstant _ _)
    (fun _ _ done => wrote_emitClass done shape other) rfl

instance : D.Abides own (Lowering.cast name) := by
  unfold Lowering.cast
  infer_instance

instance : D.Abides own (castUnder name) := by
  unfold castUnder
  infer_instance

/-- A host integer is pushed. -/
instance {n : Int64} : D.Abides own (assemble (Asm.pushInt n)) := fun _ =>
  .line (.word n) (clean_pushInt n) (fun _ _ done => wrote_pushInt done) rfl

instance {n : Int} : D.Abides own (pushInt n) :=
  inferInstanceAs (D.Abides own (assemble (Asm.pushInt _)))

instance {t : String} : D.Abides own (pushText t) := fun _ =>
  .line (.text t) (clean_emitConstant _ _) (fun _ _ done => wrote_pushString done) rfl

instance {t : String} : D.Abides own (pushStr t) := by
  unfold pushStr
  infer_instance

instance {l : Label} [h : Among l own] : D.Abides own (mark l) := fun _ => ⟨D.mark h.mem⟩

instance {l : Label} [h : Branches op] [h' : Among l own] : D.Abides own (branch op l) :=
  fun _ => ⟨D.branch h.shape h'.mem⟩

instance {start stop target : Label} {cls : String} [may : Given D.guards] [hs : Among start own]
    [he : Among stop own] [ht : Among target own] :
    D.Abides own (tryCatch start stop target cls) :=
  fun _ => ⟨D.tryCatch cls may.holds hs.mem he.mem ht.mem⟩

instance {target : Int} [h : Branches op] [may : Given (D.jumps target)] :
    D.Abides own (jumpTo op target) :=
  fun _ => ⟨D.jumpTo h.shape may.holds⟩

/-! ## The snapshot and the registry -/

instance : D.Abides own stack := fun _ => .reads State.stack fun _ => rfl

instance {st : Snapshot} : D.Abides own (setStack st) :=
  fun _ => ⟨D.adjust (fun _ => st) State.reachable⟩

instance : D.Abides own (pushSlot slot) :=
  fun _ => ⟨D.adjust (fun s => slot :: s.stack) State.reachable⟩

instance {t : Option TypeRef} : D.Abides own (pushType? t) :=
  fun _ => ⟨D.adjust (fun s => { type := t, source := s.offset } :: s.stack) State.reachable⟩

instance : D.Abides own (pushType t) :=
  inferInstanceAs (D.Abides own (pushType? _))

instance : D.Abides own stop := fun _ => ⟨D.adjust State.stack fun _ => false⟩

instance : D.Abides own popSlot := fun _ => .next fun st => by split <;> infer_instance

instance {n : Nat} : D.Abides own (drop n) := by
  unfold drop
  infer_instance

instance : D.Abides own (setTop slot) := by
  unfold setTop
  infer_instance

instance {d : Int} : D.Abides own (peek d) := by
  refine fun _ => .next fun st => ?_
  split
  · infer_instance
  · rename_i e missing
    refine .defect ?_
    unfold Snapshot.peek need at missing
    split at missing
    · split at missing
      · cases missing
      · cases missing
        rfl
    · cases missing
      rfl

instance {d : Int} : D.Abides own (peekType d) := by
  unfold peekType
  infer_instance

instance {st : Snapshot} : D.Abides own (showStack st) := fun _ => .reads _ fun _ => rfl

instance : D.Abides own (slotKind slot) := fun _ => .reads _ fun _ => rfl

instance : D.Abides own (typeKind t) := fun _ => .reads _ fun _ => rfl

instance {t : Option TypeRef} : D.Abides own (hostClassOf t) := fun _ => .reads _ fun _ => rfl

instance {u : TypeRef} : D.Abides own (isSubtype t u) := fun _ => .reads _ fun _ => rfl

/-- A signature that the registry gives may be invoked. -/
theorem abides_lookup? {k : Option Signature → Lowering β}
    (h : ∀ found, (∀ sig ∈ found, sig.method ∈ D.refs) → D.Conforms own live (k found) after) :
    D.Conforms own live (lookup? t name >>= k) after := by
  cases direct : D.function.direct with
  | true =>
    have same : (lookup? t name >>= k) D.function =
        ((get : Lowering State) >>= fun s => k (s.registry.lookup? t name)) D.function := by
      unfold lookup?
      change ((if D.function.direct = true then _ else _ : Lowering _) >>= k) D.function = _
      rw [if_pos direct]
      rfl
    refine .congr same (.get fun s known => h _ fun sig found => ?_)
    exact known sig (Registry.knows_of_lookup? found)
  | false =>
    have same : (lookup? t name >>= k) D.function = k none D.function := by
      unfold lookup?
      change ((if D.function.direct = true then _ else _ : Lowering _) >>= k) D.function = _
      rw [direct]
      rfl
    exact .congr same (h none (by simp))

end Lower

end HostLowering
