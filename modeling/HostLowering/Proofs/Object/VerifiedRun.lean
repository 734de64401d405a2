import HostLowering.Object.Run
import HostLowering.Proofs.Machine.Exploration
import HostLowering.Proofs.Machine.Pool

set_option autoImplicit false

/-! # Running verified methods

A method that the verifier accepts runs as the verifier says. Whatever the world answers to the
requests of an activation, every activation in the loop stands at an instruction the verifier
knows, with exactly the operands it computed (`verified_run`). So an instruction never finds its
operands or its local missing, and control stays inside the code.

The table of the verifier and the instructions of the activation are two separate definitions.
`Frame.Obeys` says of one instruction that it does to the stack what the table has for it; there is
one lemma per operand shape, and the rest of the module carries the depths along the edges of the
method.
-/

namespace HostLowering.Object

open Machine Effect

variable {α : Type}

/-! ## Texts of faults -/

/-- The text of the fault of an activation that has no more code. -/
def offTheEnd : String := "fell off the end of the code"

theorem begins_offTheEnd : Begins 'f' offTheEnd := by simp [Begins, offTheEnd]

theorem begins_poolError (e : PoolError) : Begins 'h' e.message := by
  have index : Begins 'h' "host: pool index " := by simp [Begins]
  have entry : Begins 'h' "host: pool entry " := by simp [Begins]
  cases e with
  | outOfRange i n => exact (((index.append _).append _).append _).append _
  | notMethod i | notField i | notClass i => exact (entry.append _).append _

/-! ## One instruction -/

namespace Frame

/-- Another activation of the same method with as many locals. -/
structure Continues (f g : Frame) : Prop where
  method : g.method = f.method
  locals : g.locals.size = f.locals.size

/-- The outcome of an instruction that finds its operands: what it leaves on the stack, together
with the answer it asks for, differs from what was there by the effect. It goes on behind the
instruction or at the target of its branch, and a fault is about a value or a constant. -/
def Obeys (f : Frame) (i : Instruction) (effect : Int) : Except Stop Transition → Prop
  | .error s => ∃ text, s = .fault { place := some f.place, text } ∧ text ≠ offTheEnd
  | .ok (.return _) => True
  | .ok (.next g) => f.Continues g ∧ (g.stack.length : Int) = f.stack.length + effect ∧
      (i.opcode.isTerminal = false ∧ g.position = f.position ∨
        ∃ t, i.operand = .branch t ∧ g.position = f.position + t)
  | .ok (.ask r g) => f.Continues g ∧ g.current = f.current ∧
      (∀ field, r ≠ .putStatic field none) ∧
      ((∃ v, r = .throw v) ∨ i.opcode.isTerminal = false ∧ g.position = f.position ∧
        ∀ v, ((g.answer r v).stack.length : Int) = f.stack.length + effect)

variable {f : Frame} {i : Instruction} {effect : Int}

theorem obeys_fault {text : String} (h : text ≠ offTheEnd) :
    f.Obeys i effect (f.fault text) :=
  ⟨text, rfl, h⟩

theorem obeys_go {s : List Value} (continues : i.opcode.isTerminal = false)
    (length : (s.length : Int) = f.stack.length + effect) : f.Obeys i effect (f.go s) :=
  ⟨⟨rfl, rfl⟩, length, .inl ⟨continues, rfl⟩⟩

/-- An instruction that uses an entry of the pool obeys if it does with every entry. -/
theorem obeys_fromPool {entry : Except PoolError α} {k : α → Except Stop Transition}
    (h : ∀ a, entry = .ok a → f.Obeys i effect (k a)) :
    f.Obeys i effect (f.fromPool entry >>= k) := by
  cases entry with
  | error e => exact obeys_fault ((begins_poolError e).ne begins_offTheEnd (by decide))
  | ok a => exact h a rfl

theorem obeys_ask {r : Request} {s : List Value} (continues : i.opcode.isTerminal = false)
    (given : ∀ field, r ≠ .putStatic field none)
    (length : (s.length : Int) + (if r.pushesAnswer then 1 else 0) = f.stack.length + effect) :
    f.Obeys i effect (f.ask r s) := by
  refine ⟨⟨rfl, rfl⟩, rfl, given, .inr ⟨continues, rfl, fun v => ?_⟩⟩
  unfold answer
  split <;> simp_all [withStack]

variable {op : Opcode} {n : Nat}

theorem one_operand (h : 1 ≤ f.stack.length) : ∃ a s, f.stack = a :: s :=
  List.exists_cons_of_length_pos h

theorem two_operands (h : 2 ≤ f.stack.length) : ∃ a b s, f.stack = a :: b :: s := by
  obtain ⟨a, s, hs⟩ := one_operand (Nat.le_of_succ_le h)
  rw [hs, List.length_cons] at h
  obtain ⟨b, t, ht⟩ := List.exists_cons_of_length_pos (Nat.le_of_succ_le_succ h)
  exact ⟨a, b, t, ht ▸ hs⟩

theorem three_operands (h : 3 ≤ f.stack.length) : ∃ a b c s, f.stack = a :: b :: c :: s := by
  obtain ⟨a, b, s, hs⟩ := two_operands (Nat.le_of_succ_le h)
  simp only [hs, List.length_cons] at h
  obtain ⟨c, t, ht⟩ := List.exists_cons_of_length_pos (l := s) (by omega)
  exact ⟨a, b, c, t, ht ▸ hs⟩

theorem obeys_plain (known : op.isKnown = true) (shape : op.shape = .plain)
    (enough : op.operandsNeeded ≤ f.stack.length) :
    f.Obeys ⟨op, .plain⟩ op.stackEffect (f.plain op) := by
  cases op with
  | nop | aconstNull => exact obeys_go rfl (by simp [Opcode.stackEffect])
  | pop | dup =>
    obtain ⟨a, s, stack⟩ := one_operand enough
    unfold plain
    rw [stack]
    exact obeys_go rfl (by simp [stack, Opcode.stackEffect])
  | pop2 | dupX1 | dup2 | swap =>
    obtain ⟨a, b, s, stack⟩ := two_operands enough
    unfold plain
    rw [stack]
    exact obeys_go rfl (by simp only [stack, List.length_cons, Opcode.stackEffect]; omega)
  | dupX2 =>
    obtain ⟨a, b, c, s, stack⟩ := three_operands enough
    unfold plain
    rw [stack]
    exact obeys_go rfl (by simp [stack, Opcode.stackEffect])
  | returnVoid => trivial
  | areturn =>
    obtain ⟨a, s, stack⟩ := one_operand enough
    unfold plain
    rw [stack]
    trivial
  | athrow =>
    obtain ⟨a, s, stack⟩ := one_operand enough
    unfold plain
    rw [stack]
    exact ⟨⟨rfl, rfl⟩, rfl, by simp, .inl ⟨a, rfl⟩⟩
  | unknown b => cases known
  | _ => cases shape

theorem obeys_onLocal (shape : op.shape = .slot) (inside : n < f.locals.size)
    (enough : op.operandsNeeded ≤ f.stack.length) :
    f.Obeys ⟨op, .slot n⟩ op.stackEffect (f.onLocal op n) := by
  have there : f.locals[n]? = some f.locals[n] := Array.getElem?_eq_getElem inside
  cases op with
  | aload | iload | lload | dload =>
    simp only [onLocal, there]
    exact obeys_go rfl (by simp [Opcode.stackEffect])
  | astore | istore | lstore | dstore =>
    obtain ⟨a, s, stack⟩ := one_operand enough
    simp only [onLocal, there, stack]
    exact ⟨⟨rfl, by simp⟩, by simp [stack, Opcode.stackEffect], .inl ⟨rfl, rfl⟩⟩
  | _ => cases shape

theorem obeys_increment {step : Int} (shape : op.shape = .increment) (inside : n < f.locals.size) :
    f.Obeys ⟨op, .increment n step⟩ op.stackEffect (f.increment n step) := by
  have there : f.locals[n]? = some f.locals[n] := Array.getElem?_eq_getElem inside
  have text : Begins 'I' "IINC of non-int local " := by simp [Begins]
  obtain rfl : op = .iinc := by cases op <;> first | rfl | cases shape
  unfold increment
  rw [there]
  split
  · exact ⟨⟨rfl, by simp⟩, by simp [Opcode.stackEffect], .inl ⟨rfl, rfl⟩⟩
  · exact obeys_fault ((text.append _).ne begins_offTheEnd (by decide))
  · contradiction

theorem obeys_loadConstant (c : Constant) :
    f.Obeys ⟨.ldc, .constant n⟩ (Opcode.stackEffect .ldc) (f.loadConstant c) := by
  have text : Begins 'L' "LDC of " := by simp [Begins]
  unfold loadConstant
  split
  · exact obeys_go rfl (by simp [Opcode.stackEffect])
  · exact obeys_go rfl (by simp [Opcode.stackEffect])
  · exact obeys_fault ((text.append _).ne begins_offTheEnd (by decide))

/-- The instructions on a constant other than invocations. -/
theorem obeys_onConstant (plain : op.isInvoke = false) (shape : op.shape = .constant)
    (enough : op.operandsNeeded ≤ f.stack.length) :
    f.Obeys ⟨op, .constant n⟩ op.stackEffect (f.onConstant op n) := by
  cases op with
  | ldc => exact obeys_fromPool fun c _ => obeys_loadConstant c
  | new | getstatic =>
    exact obeys_fromPool fun _ _ =>
      obeys_ask rfl (by simp) (by simp [Request.pushesAnswer, Opcode.stackEffect])
  | checkcast | instanceof | getfield | putstatic =>
    refine obeys_fromPool fun _ _ => ?_
    obtain ⟨a, s, stack⟩ := one_operand enough
    simp only [stack]
    exact obeys_ask rfl (by simp) (by simp [stack, Request.pushesAnswer, Opcode.stackEffect])
  | putfield =>
    refine obeys_fromPool fun _ _ => ?_
    obtain ⟨a, b, s, stack⟩ := two_operands enough
    simp only [stack]
    refine obeys_ask rfl (by simp) ?_
    simp only [stack, Request.pushesAnswer, Opcode.stackEffect, List.length_cons,
      Bool.false_eq_true, if_false]
    omega
  | invokevirtual | invokeinterface | invokestatic | invokespecial => cases plain
  | _ => cases shape

theorem obeys_invocation {r : MethodRef} (invoke : op.isInvoke = true)
    (entry : f.method.methodAt n = .ok r) (enough : r.operandCount op ≤ f.stack.length) :
    f.Obeys ⟨op, .constant n⟩ (r.stackEffect op) (f.onConstant op n) := by
  have ask : f.Obeys ⟨op, .constant n⟩ (r.stackEffect op) (f.invoke op r) := by
    unfold Frame.invoke
    rw [if_neg (Nat.not_lt.mpr enough)]
    have continues : op.isTerminal = false := by cases op <;> first | rfl | cases invoke
    refine obeys_ask continues (by simp) ?_
    rw [List.length_drop, Nat.cast_sub enough, Request.pushesAnswer, MethodRef.stackEffect]
    ring
  cases op with
  | invokevirtual | invokeinterface | invokestatic | invokespecial =>
    simp only [onConstant, entry]
    exact ask
  | _ => cases invoke

theorem popWord_cons (f : Frame) (a : Value) (s : List Value) :
    (∃ n, f.popWord (a :: s) = .ok (n, s)) ∨
      f.popWord (a :: s) = f.fault "expected an int on the stack" := by
  cases a <;> simp [popWord]

/-- A branch that finds its operands decides, unless one of them is not a word. -/
theorem decideBranch_cases (shape : op.shape = .branch)
    (enough : op.operandsNeeded ≤ f.stack.length) :
    f.decideBranch op = f.fault "expected an int on the stack" ∨
      ∃ taken s, f.decideBranch op = .ok (taken, s) ∧
        (s.length : Int) = f.stack.length + op.stackEffect ∧
        (taken = false → op.isTerminal = false) := by
  cases op with
  | goto => exact .inr ⟨true, f.stack, rfl, by simp [Opcode.stackEffect], by simp⟩
  | ifnull | ifnonnull =>
    obtain ⟨a, s, stack⟩ := one_operand enough
    simp only [decideBranch, stack]
    exact .inr ⟨_, s, rfl, by simp [Opcode.stackEffect], fun _ => rfl⟩
  | ifAcmpeq | ifAcmpne =>
    obtain ⟨a, b, s, stack⟩ := two_operands enough
    simp only [decideBranch, stack]
    exact .inr ⟨_, s, rfl, by simp only [Opcode.stackEffect, List.length_cons]; omega,
      fun _ => rfl⟩
  | ifeq | ifne =>
    obtain ⟨a, s, stack⟩ := one_operand enough
    simp only [decideBranch, stack]
    rcases popWord_cons f a s with ⟨n, pop⟩ | pop
    · rw [pop]
      exact .inr ⟨_, s, rfl, by simp [Opcode.stackEffect], fun _ => rfl⟩
    · rw [pop]
      exact .inl rfl
  | ifIcmpeq | ifIcmpne | ifIcmplt | ifIcmpgt | ifIcmpge =>
    obtain ⟨b, a, s, stack⟩ := two_operands enough
    simp only [decideBranch, stack]
    rcases popWord_cons f b (a :: s) with ⟨y, popb⟩ | popb
    · rw [popb]
      rcases popWord_cons f a s with ⟨x, popa⟩ | popa
      · simp only [Bind.bind, Except.bind, popa]
        exact .inr ⟨_, s, rfl, by simp only [Opcode.stackEffect, List.length_cons]; omega,
          fun _ => rfl⟩
      · simp only [Bind.bind, Except.bind, popa]
        exact .inl rfl
    · rw [popb]
      exact .inl rfl
  | _ => cases shape

theorem obeys_jump {t : Int} (shape : op.shape = .branch)
    (enough : op.operandsNeeded ≤ f.stack.length) :
    f.Obeys ⟨op, .branch t⟩ op.stackEffect (f.jump op t) := by
  have text : Begins 'e' "expected an int on the stack" := by simp [Begins]
  unfold jump
  rcases decideBranch_cases shape enough with refused | ⟨taken, s, decided, length, falls⟩
  · rw [refused]
    exact obeys_fault (text.ne begins_offTheEnd (by decide))
  · rw [decided]
    cases taken with
    | true => exact ⟨⟨rfl, rfl⟩, length, .inr ⟨t, rfl, rfl⟩⟩
    | false => exact ⟨⟨rfl, rfl⟩, length, .inl ⟨falls rfl, rfl⟩⟩

/-- Every instruction that finds its operands and its local does what the verifier's table says. -/
theorem obeys_execute {needed : Nat} (use : Uses f.method i needed effect)
    (enough : needed ≤ f.stack.length) (known : i.opcode.isKnown = true)
    (shape : i.operand.shape = i.opcode.shape)
    (inside : ∀ k, i.operand.local? = some k → k < f.locals.size) :
    f.Obeys i effect (f.execute i) := by
  cases use with
  | invocation invoke entry => exact obeys_invocation invoke entry enough
  | @other op o plain =>
    cases o with
    | plain => exact obeys_plain known shape.symm enough
    | short n =>
      obtain rfl : op = .sipush := by cases op <;> first | rfl | cases shape
      exact obeys_go rfl (by simp [Opcode.stackEffect])
    | slot n => exact obeys_onLocal shape.symm (inside n rfl) enough
    | increment n step => exact obeys_increment shape.symm (inside n rfl)
    | constant n => exact obeys_onConstant plain shape.symm enough
    | branch t => exact obeys_jump shape.symm enough

/-! ## Turns of the loop -/

/-- One turn of the loop, whatever the world answers: the activation goes on by itself, with the
value it asked for, or with an exception at a handler that covers the instruction. -/
inductive Turn (f : Frame) : Frame → Prop where
  | next {g : Frame} (step : f.step = .ok (.next g)) : Turn f g
  | answer {g : Frame} {r : Request} (step : f.step = .ok (.ask r g)) (v : Value)
      (returns : ∀ x, r ≠ .throw x) : Turn f (g.answer r v)
  | handle {g : Frame} {r : Request} (step : f.step = .ok (.ask r g)) (exception : Value)
      {h : Handler} (mem : h ∈ g.method.handlers) (covers : h.covers g.current = true) :
      Turn f (g.handle h.target exception)

end Frame

theorem World.handler?_eq_some {w : World} {m : Method} {pc : Nat} {e : Value} {target : Int}
    (h : w.handler? m pc e = some target) :
    ∃ entry ∈ m.handlers, entry.covers pc = true ∧ entry.target = target := by
  obtain ⟨entry, found, rfl⟩ := Option.map_eq_some_iff.mp h
  have fits := List.find?_some found
  rw [Bool.and_eq_true] at fits
  exact ⟨entry, List.mem_of_find?_eq_some found, fits.1, rfl⟩

/-- A step in the world that never has an answer. -/
def Effect.Fails {α : Type} (e : Effect α) : Prop := ∀ w, ∃ s w', e w = (.error s, w')

theorem Effect.fails_throw (s : Stop) : Effect.Fails (throw s : Effect α) :=
  fun w => ⟨s, w, rfl⟩

theorem Effect.fails_bind {α β : Type} (x : Effect α) {k : α → Effect β}
    (h : ∀ a, Effect.Fails (k a)) : Effect.Fails (x >>= k) := by
  intro w
  cases run : x w with
  | mk outcome w' =>
    cases outcome with
    | error s =>
      refine ⟨s, w', ?_⟩
      simp only [Bind.bind, ExceptT.bind, ExceptT.mk, StateT.bind, run]
      rfl
    | ok a =>
      obtain ⟨s, w'', fails⟩ := h a w'
      exact ⟨s, w'', by simp [Bind.bind, ExceptT.bind, ExceptT.mk, StateT.bind, run,
        ExceptT.bindCont, fails]⟩

/-- Raising a value has no answer. -/
theorem Effect.fails_throwValue (v : Value) : Effect.Fails (throwValue v) := by
  refine fails_bind _ fun w => ?_
  split
  · exact fails_bind _ fun _ => fails_throw _
  · split
    · exact fails_throw _
    · exact fails_throw _
  · exact fails_throw _

theorem Effect.turn_eq_inr {call : Caller} {f g : Frame} {w w' : World}
    (h : turn call f w = .inr (g, w')) : f.Turn g := by
  unfold turn at h
  cases step : f.step with
  | error s => simp [step] at h
  | ok t =>
    rcases t with g' | ⟨r, g'⟩ | v
    · simp only [step, Sum.inr.injEq, Prod.mk.injEq] at h
      obtain ⟨rfl, -⟩ := h
      exact .next step
    · simp only [step] at h
      split at h
      · rename_i v _ served
        simp only [Sum.inr.injEq, Prod.mk.injEq] at h
        obtain ⟨rfl, -⟩ := h
        refine .answer step v ?_
        rintro x rfl
        obtain ⟨s, _, fails⟩ := fails_throwValue x w
        cases fails.symm.trans served
      · split at h
        · rename_i target found
          simp only [Sum.inr.injEq, Prod.mk.injEq] at h
          obtain ⟨rfl, -⟩ := h
          obtain ⟨entry, mem, covers, rfl⟩ := World.handler?_eq_some found
          exact .handle step _ mem covers
        · cases h
      · cases h
      · cases h
    · simp [step] at h

/-! ## Where activations stand -/

/-- An activation of a method stands where the verifier expects it, with enough locals. -/
structure Placed (m : Method) (a : Analysis) (f : Frame) : Prop where
  method : f.method = m
  locals : m.maxLocals ≤ f.locals.size
  depth : a.Knows f.position f.stack.length

/-- What the verifier promises of an activation at an instruction. -/
structure Fits (m : Method) (a : Analysis) (f : Frame) (pc : Nat) (i : Instruction) : Prop where
  position : f.position = pc
  start : InstructionStart m.code pc
  decoded : instructionAt f.method.code pc = .ok i
  depth : (pc, f.stack.length) ∈ a.depths
  bounded : f.stack.length ≤ a.maxStack
  operands : ∃ needed effect, Uses m i needed effect ∧ needed ≤ f.stack.length
  inLocals : ∀ k, i.operand.local? = some k → k < f.locals.size
  noDefect : ∀ d, f.step ≠ .error (.defect d)
  given : ∀ field g, f.step ≠ .ok (.ask (.putStatic field none) g)
  inside : ∀ place, f.step ≠ .error (.fault { place, text := offTheEnd })

@[simp] theorem Frame.answer_method (f : Frame) (r : Request) (v : Value) :
    (f.answer r v).method = f.method := by
  unfold Frame.answer
  split <;> rfl

@[simp] theorem Frame.answer_locals (f : Frame) (r : Request) (v : Value) :
    (f.answer r v).locals = f.locals := by
  unfold Frame.answer
  split <;> rfl

@[simp] theorem Frame.answer_position (f : Frame) (r : Request) (v : Value) :
    (f.answer r v).position = f.position := by
  unfold Frame.answer
  split <;> rfl

def Frame.fetch (f : Frame) (pc : Nat) (i : Instruction) : Frame :=
  { f with current := pc, position := ↑(pc + i.opcode.size) }

theorem Frame.step_eq {f : Frame} {pc : Nat} {i : Instruction} (position : f.position = pc)
    (lt : pc < f.method.code.size) (decoded : instructionAt f.method.code pc = .ok i) :
    f.step = (f.fetch pc i).execute i := by
  unfold Frame.step
  rw [position, if_neg (Int.not_lt.mpr (Int.natCast_nonneg pc)), Int.toNat_natCast,
    if_neg (Nat.not_le.mpr lt)]
  simp only [decoded]
  rfl

section Verified

variable {m : Method} {a : Analysis} {f g : Frame} (safe : Safe m) (sound : a.Sound m)
  (knows : ∀ pc d, Reaches m pc d → a.Knows pc d)

include safe sound

/-- The step of a placed activation: the instruction fetched is one that may execute, and it
obeys. -/
theorem Placed.obeys (placed : Placed m a f) :
    ∃ (pc : Nat) (i : Instruction) (needed : Nat) (effect : Int), f.position = pc ∧
      a.depthAt pc = some f.stack.length ∧ Analysis.Fetched m pc f.stack.length i ∧
      Uses m i needed effect ∧
      needed ≤ f.stack.length ∧ (∀ k, i.operand.local? = some k → k < f.locals.size) ∧
      (f.fetch pc i).Obeys i effect f.step := by
  obtain ⟨pc, position, known⟩ := placed.depth
  obtain ⟨start, reach⟩ := sound.reached pc _ known
  obtain ⟨i, decoded, isKnown, shape, -⟩ := start.decodes safe.splits
  have here : Analysis.Fetched m pc f.stack.length i := ⟨start, reach, decoded, shape⟩
  have exec := here.executable safe
  obtain ⟨needed, effect, use, enough⟩ := exec.operands
  have inside : ∀ k, i.operand.local? = some k → k < f.locals.size := fun k hk => by
    have := exec.inLocals k hk
    have := placed.locals
    omega
  refine ⟨pc, i, needed, effect, position, known, here, use, enough, inside, ?_⟩
  obtain rfl := placed.method
  rw [Frame.step_eq position start.lt decoded]
  exact Frame.obeys_execute use enough isKnown shape inside

theorem Placed.fits (placed : Placed m a f) : ∃ pc i, Fits m a f pc i := by
  obtain ⟨pc, i, needed, effect, position, known, here, use, enough, inLocals, obeys⟩ :=
    placed.obeys safe sound
  refine ⟨pc, i, position, here.start, placed.method ▸ here.decoded,
    Analysis.mem_depths.mpr known, sound.bounded pc _ known, ⟨needed, effect, use, enough⟩,
    inLocals, fun d step => ?_, fun field g step => ?_, fun place step => ?_⟩
  · rw [step] at obeys
    obtain ⟨text, h, -⟩ := obeys
    cases h
  · rw [step] at obeys
    exact obeys.2.2.1 field rfl
  · rw [step] at obeys
    obtain ⟨text, h, other⟩ := obeys
    cases h
    exact other rfl

include knows

theorem Placed.turn (placed : Placed m a f) (turn : f.Turn g) : Placed m a g := by
  obtain ⟨pc, i, needed, effect, position, known, here, use, enough, -, obeys⟩ :=
    placed.obeys safe sound
  have next (d : Nat) (after : (d : Int) = f.stack.length + effect)
      (continues : i.opcode.isTerminal = false) : a.Knows ↑(pc + i.opcode.size) d :=
    knows _ _ (here.reach.step (.next here.decoded use continues after))
  cases turn with
  | next step =>
    rw [step] at obeys
    obtain ⟨⟨method, locals⟩, length, place⟩ := obeys
    refine ⟨method.trans placed.method, locals ▸ placed.locals, ?_⟩
    rcases place with ⟨continues, same⟩ | ⟨t, branch, target⟩
    · rw [same]
      exact next _ length continues
    · rw [target]
      exact knows _ _ (here.reach.step (.branch here.decoded use branch length))
  | @answer g r step v returns =>
    rw [step] at obeys
    obtain ⟨⟨method, locals⟩, -, -, throws | ⟨continues, same, length⟩⟩ := obeys
    · obtain ⟨x, rfl⟩ := throws
      exact absurd rfl (returns x)
    · have same' : (g.answer r v).position = ↑(pc + i.opcode.size) := by
        rw [Frame.answer_position, same, Frame.fetch]
      refine ⟨?_, ?_, same' ▸ next _ (length v) continues⟩
      · rw [Frame.answer_method, method, Frame.fetch, placed.method]
      · rw [Frame.answer_locals, locals, Frame.fetch]
        exact placed.locals
  | @handle g r step exception h mem covers =>
    rw [step] at obeys
    obtain ⟨⟨method, locals⟩, -⟩ := obeys
    have mem' : h ∈ m.handlers := by
      rwa [method, Frame.fetch, placed.method] at mem
    exact ⟨method.trans placed.method, locals ▸ placed.locals, knows _ _ (.handler mem')⟩

end Verified

theorem Placed.start {m : Method} {a : Analysis} {args : List Value} {f : Frame}
    (entry : a.Knows 0 0) (started : Frame.start m args = .ok f) : Placed m a f := by
  unfold Frame.start at started
  split at started
  · cases started
  · cases started
    refine ⟨rfl, ?_, entry⟩
    simp only [List.size_toArray, List.length_append, List.length_replicate]
    omega

/-- The states of the interpreter's loop that follow one another. -/
def Effect.Loops (call : Caller) (p q : Frame × World) : Prop :=
  turn call p.1 p.2 = .inr q

/-- Verified methods run as verified. From the start of a method the verifier accepts, through any
number of turns and whatever the world answers, every activation fits what the verifier computed;
and so does every activation in the loop of the interpreter, in any world and with any outcomes of
the calls it makes. -/
theorem verified_run {m : Method} {a : Analysis} (nonempty : m.code ≠ #[])
    (accepted : analyze m = .ok a) {args : List Value} {f₀ : Frame}
    (started : Frame.start m args = .ok f₀) :
    (∀ f, Relation.ReflTransGen Frame.Turn f₀ f → ∃ pc i, Fits m a f pc i) ∧
      ∀ (call : Caller) (w w' : World) (f : Frame),
        Relation.ReflTransGen (Effect.Loops call) (f₀, w) (f, w') → ∃ pc i, Fits m a f pc i := by
  obtain ⟨safe, sound, knows⟩ := analyze_eq_ok (Array.size_pos_iff.mpr nonempty) accepted
  have all (f : Frame) (run : Relation.ReflTransGen Frame.Turn f₀ f) :
      ∃ pc i, Fits m a f pc i := by
    have placed : Placed m a f := by
      induction run with
      | refl => exact .start (knows 0 0 .entry) started
      | tail _ turn ih => exact ih.turn safe sound knows turn
    exact placed.fits safe sound
  refine ⟨all, fun call w w' f run => all f ?_⟩
  exact run.lift Prod.fst fun _ _ => Effect.turn_eq_inr

/-- What the verifier finds of the sample with a loop and a handler. -/
def throwingAnalysis : Analysis where
  depth := #[some 0, none, none, some 1, none, none, some 0, none, none, some 1, some 1]
  maxStack := 1

theorem verified_run_throwing :
    throwing.code ≠ #[] ∧ analyze throwing = .ok throwingAnalysis ∧
      Frame.start throwing [.word 7] = .ok { method := throwing, locals := #[.word 7] } ∧
      (∀ f, Relation.ReflTransGen Frame.Turn { method := throwing, locals := #[.word 7] } f →
        ∃ pc i, Fits throwing throwingAnalysis f pc i) ∧
      ∀ (call : Caller) (w w' : World) (f : Frame),
        Relation.ReflTransGen (Effect.Loops call)
          ({ method := throwing, locals := #[.word 7] }, w) (f, w') →
        ∃ pc i, Fits throwing throwingAnalysis f pc i := by
  have accepted : analyze throwing = .ok throwingAnalysis := by decide +kernel
  have started : Frame.start throwing [.word 7] =
      .ok { method := throwing, locals := #[.word 7] } := rfl
  exact ⟨by decide, accepted, started, verified_run (by decide) accepted started⟩

end HostLowering.Object
