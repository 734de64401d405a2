import HostLowering.Proofs.Lower.Parts
import HostLowering.Proofs.Object.Locals

set_option autoImplicit false

/-! # Activations of lowered methods

The code of a function stands between lines of the lowering's own: those at the beginning clear the
slots of exceptions and, in a generator, go to the dispatcher that stands at the end. An activation
keeps its arguments in the locals below those of the source, whatever it runs (`Whole.activation`), and
one of a generator with a saved frame gets to the suspension point of that frame (`Whole.resumes`).
-/

namespace HostLowering.Lower

open Machine Object Catalog
open Relation (ReflTransGen)

variable {c : Source} {r : Registry} {s s' : State} {m : Method} {inner ending : List Line}

/-! ## What the dispatcher writes -/

section Written

variable {f : Function} {line : Line} {i : Nat}

theorem written_frame {depth : Nat} {frame : List Int} (mem : line ∈ frameLines f r depth frame)
    (writes : line.written? = some i) : ∃ j ∈ frame, i = j.toNat := by
  obtain ⟨⟨j, n⟩, item, mem⟩ := List.mem_flatMap.mp mem
  rcases List.mem_append.mp mem with read | store
  · have loud := written_mem_loud read writes
    rw [loud_item] at loud
    cases loud
  · rw [List.mem_singleton.mp store] at writes
    cases writes
    exact ⟨j, (List.mem_zipIdx item).2.2 ▸ List.getElem_mem _, rfl⟩

theorem written_load {p : ResumePoint} (mem : line ∈ loadLines f r p)
    (writes : line.written? = some i) : ∃ j ∈ p.frame, i = j.toNat := by
  rcases List.mem_append.mp mem with frame | stack
  · exact written_frame frame writes
  · have loud := written_mem_loud stack writes
    split at loud
    · cases loud
    · rw [loud_append, loud_stack] at loud
      cases loud

theorem written_entry {p : ResumePoint} {next : Label} (mem : line ∈ entryLines f r p next)
    (writes : line.written? = some i) : ∃ j ∈ p.frame, i = j.toNat := by
  have loud := written_mem_loud mem writes
  change line ∈ .branch .ifIcmpne next ::
    Lower.loud (loadLines f r p ++ [.branch .goto p.label, .mark next]) at loud
  rw [loud_append, List.mem_cons, List.mem_append] at loud
  rcases loud with rfl | load | leaves
  · cases writes
  · exact written_load (List.mem_filter.mp load).1 writes
  · rcases List.mem_pair.mp leaves with rfl | rfl <;> cases writes

/-- The dispatcher writes the frames of suspension points. -/
theorem written_dispatch {dispatch begin next : Label} {ps : List ResumePoint} {nexts : List Label}
    (mem : line ∈ dispatchLines f r dispatch begin next ps nexts) (writes : line.written? = some i) :
    ∃ p ∈ ps, ∃ j ∈ p.frame, i = j.toNat := by
  have loud := written_mem_loud mem writes
  change line ∈ [.mark dispatch, .branch .ifne next, .branch .goto begin, .mark next] ++
    Lower.loud (entriesLines f r ps nexts ++ [.plain .returnVoid]) at loud
  rw [loud_append, List.mem_append, List.mem_append] at loud
  rcases loud with own | entry | returns
  · simp only [List.mem_cons, List.not_mem_nil, or_false] at own
    rcases own with rfl | rfl | rfl | rfl <;> cases writes
  · obtain ⟨⟨p, l⟩, member, mem⟩ := List.mem_flatMap.mp (List.mem_filter.mp entry).1
    exact ⟨p, (List.of_mem_zip member).1, written_entry mem writes⟩
  · cases returns

end Written

/-! ## The beginning -/

def clearedLocals (f : Function) (locals : Array Value) : Array Value :=
  (locals.setIfInBounds f.exceptionSlot.toNat .null).setIfInBounds f.previousSlot.toNat .null

@[simp] theorem size_clearedLocals (f : Function) (locals : Array Value) :
    (clearedLocals f locals).size = locals.size := by
  simp [clearedLocals]

theorem first_clearedLocals {f : Function} (generator : f.generator = true) (locals : Array Value) :
    (clearedLocals f locals)[0]? = locals[0]? := by
  have base : f.localBase = 1 := if_pos generator
  have slots := f.localBase_le
  unfold clearedLocals Function.exceptionSlot Function.previousSlot
  rw [Array.getElem?_setIfInBounds, if_neg (by omega), Array.getElem?_setIfInBounds,
    if_neg (by omega)]

/-- The code of a generator begins with a jump to the dispatcher. -/
theorem exec_start {f : Function} {call : Caller} {pool : Pool} {dispatch : Label}
    {locals : Array Value} {w : World} (generator : f.generator = true)
    (room : f.previousSlot.toNat < locals.size) :
    exec call pool (startLines f dispatch) none [] locals w =
      (.jumps dispatch [] (clearedLocals f locals), w) := by
  have room' : f.exceptionSlot.toNat < locals.size := by
    unfold Function.previousSlot at room
    unfold Function.exceptionSlot
    omega
  rw [startLines, if_pos generator]
  rw [List.cons_append, exec_aconstNull, List.cons_append, exec_store room', List.cons_append,
    exec_aconstNull, List.cons_append, exec_store (by simpa using room)]
  rfl

/-! ## Whole methods -/

/-- A branch reaches less than 2¹⁵ bytes ahead. -/
theorem branch_lt {bytes : Array UInt8} {p : Nat} {op : Opcode} {t : Int}
    (read : instructionAt bytes p = .ok ⟨op, .branch t⟩) : t < 32768 := by
  obtain ⟨b, -, read⟩ := except_bind_eq_ok read
  obtain ⟨o, operand, read⟩ := except_bind_eq_ok read
  obtain ⟨-, rfl⟩ := Instruction.mk.inj (Except.ok.inj read)
  cases shape : (Opcode.ofByte b).shape with
  | branch =>
    rw [shape] at operand
    obtain ⟨n, -, same⟩ := except_bind_eq_ok operand
    obtain rfl := Operand.branch.inj (Except.ok.inj same)
    have lt : (n : Int).bmod 65536 < (65536 + 1) / 2 := Int.bmod_lt (by decide)
    exact lt.trans_le (by decide)
  | plain =>
    rw [shape] at operand
    cases operand
  | increment =>
    rw [shape] at operand
    obtain ⟨n, -, same⟩ := except_bind_eq_ok operand
    obtain ⟨d, -, same⟩ := except_bind_eq_ok same
    cases same
  | short | slot | constant =>
    rw [shape] at operand
    obtain ⟨n, -, same⟩ := except_bind_eq_ok operand
    cases same

/-- An activation begins at the first instruction with its arguments in its first locals. -/
theorem start_eq_ok_iff {args : List Value} {x : Frame} (start : Frame.start m args = .ok x) :
    At m 0 [] x.locals x ∧ m.maxLocals ≤ x.locals.size ∧
      ∀ n < args.length, x.locals[n]? = args[n]? := by
  unfold Frame.start at start
  split at start
  · cases start
  · cases start
    refine ⟨⟨rfl, rfl, rfl, rfl⟩, ?_, fun n lt => ?_⟩
    · simp only [List.size_toArray, List.length_append, List.length_replicate]
      omega
    · simp [List.getElem?_append_left lt]

/-- A method that is built from the state `s'` and was complete but for its end in the state `s`. -/
structure Whole (c : Source) (m : Method) (s s' : State) (inner ending : List Line) : Prop where
  tidy : Tidy c s
  begins : startLines c.function s.dispatch <+: inner
  ends : Ending c.function s ending
  spelled : Spelled c.refs (inner ++ ending) s'.assembler
  built : Built s'.assembler s'.pool.maxLocals m
  maxLocals : s'.pool.maxLocals = s.pool.maxLocals
  writes : ∀ line ∈ inner, ∀ i : Nat, line.written? = some i → c.function.localBase ≤ i
  states : s.nextState ≤ 1 + codeSize inner

theorem Cut.whole {a : Action} {after : List Action} {s₁ s₂ s₃ : State}
    {front lines back : List Line} {newer guards : List PendingHandler} {targets : List Int}
    (cut : Cut c m a after s₁ s₂ s₃ s front back ending newer)
    (advanced : Advanced c targets lines guards s₁ s₂) :
    Whole c m s₃ s (front ++ (lines ++ back)) ending where
  tidy := cut.tidy₃
  begins := by
    rw [cut.later.dispatch, advanced.dispatch]
    exact cut.begins.trans (List.prefix_append _ _)
  ends := cut.ends
  spelled := by
    obtain ⟨fresh, wrote⟩ := advanced.wrote
    have spelled := cut.spelled wrote
    rwa [← List.append_assoc lines, ← List.append_assoc front] at spelled
  built := cut.built
  maxLocals := congrArg SlotPool.maxLocals cut.pool
  writes line mem i writes := by
    rcases List.mem_append.mp mem with front | mem
    · exact cut.early line front i writes
    · rcases List.mem_append.mp mem with own | back
      · exact (advanced.written line own i writes).localBase_le cut.tidy₂ cut.tidy₁.base
      · exact (cut.later.written line back i writes).localBase_le cut.tidy₃ cut.tidy₂.base
  states := by
    have first := cut.states
    have own := advanced.nextState
    have last := cut.later.nextState
    simp only [codeSize_append]
    push_cast
    omega

namespace Whole

variable (whole : Whole c m s s' inner ending)

include whole

theorem lined : Lined m s'.assembler.pool s'.assembler.position? (inner ++ ending) :=
  lined_of_spelled whole.spelled whole.built

/-- No line writes a local in front of the source locals. -/
theorem writes_all (line : Line) (mem : line ∈ inner ++ ending) (i : Nat)
    (writes : line.written? = some i) : c.function.localBase ≤ i := by
  rcases List.mem_append.mp mem with inside | behind
  · exact whole.writes line inside i writes
  · have ends := whole.ends
    unfold Ending at ends
    split at ends
    · obtain ⟨begin, next, nexts, -, -, rfl⟩ := ends
      obtain ⟨p, hp, j, hj, rfl⟩ := written_dispatch behind writes
      obtain ⟨n, frame, -⟩ := whole.tidy.frames p (Array.mem_toList_iff.mp hp)
      rw [frame, mem_slotsFrom] at hj
      omega
    · rw [ends] at behind
      cases behind

/-- The code of a generator is short, since its beginning branches to its end. -/
theorem short (generator : c.function.generator = true) : codeSize inner < 2 ^ 16 := by
  have reads := whole.lined.reads
  have ends := whole.ends
  rw [Ending, if_pos generator] at ends
  obtain ⟨begin, next, nexts, -, -, rfl⟩ := ends
  obtain ⟨rest, rfl⟩ := whole.begins
  rw [startLines, if_pos generator, readsFrom_append, readsFrom_append, readsFrom_append] at reads
  obtain ⟨⟨⟨-, branches, -⟩, -⟩, ends, -⟩ := reads
  cases branches with
  | branch _ known read =>
    cases ends with
    | mark place =>
      cases known.symm.trans place
      have lt := branch_lt read
      simp only [codeSize_append, startLines, if_pos generator, codeSize_cons, codeSize_nil,
        Line.size] at lt ⊢
      push_cast at lt
      omega

/-- Suspension points are told by the states that the generator holds. -/
theorem state_ne (generator : c.function.generator = true) {p : ResumePoint}
    {ps qs : List ResumePoint} (split : s.resumes.toList = ps ++ p :: qs) :
    Int64.ofInt p.state ≠ 0 ∧ ∀ q ∈ ps, Int64.ofInt p.state ≠ .ofInt q.state := by
  have short := whole.short generator
  have last := whole.states
  have value {q : ResumePoint} (mem : q ∈ s.resumes) :
      1 ≤ q.state ∧ (Int64.ofInt q.state).toInt = q.state := by
    obtain ⟨low, high, -⟩ := whole.tidy.states q mem
    exact ⟨low, Int64.toInt_ofInt_of_le (by omega) (by omega)⟩
  have own : p ∈ s.resumes := by
    rw [← Array.mem_toList_iff, split]
    simp
  obtain ⟨low, exact_⟩ := value own
  constructor
  · intro zero
    rw [zero] at exact_
    have none : (0 : Int64).toInt = 0 := by decide
    omega
  · intro q mem same
    have numbered := whole.tidy.numbered
    rw [split, List.pairwise_append] at numbered
    have lt := numbered.2.2 q mem p List.mem_cons_self
    obtain ⟨-, exact'⟩ := value (q := q) (by
      rw [← Array.mem_toList_iff, split]
      exact List.mem_append_left _ mem)
    rw [same, exact'] at exact_
    omega

section Runs

variable {call : Caller} {args : List Value} {x₀ x : Frame} {w₀ w : World} {g : Value}

/-- An activation of a method keeps the locals in front of the source locals. -/
theorem activation (start : Frame.start m args = .ok x₀)
    (run : ReflTransGen (Effect.Loops call) (x₀, w₀) (x, w)) :
    x.method = m ∧ (∃ q : Nat, x.position = q ∧ Boundary (inner ++ ending) q) ∧
      x.locals.size = x₀.locals.size ∧
        ∀ n : Nat, n < c.function.localBase → x.locals[n]? = x₀.locals[n]? := by
  have turns : ReflTransGen Frame.Turn x₀ x := run.lift Prod.fst fun _ _ => Effect.turn_eq_inr
  obtain ⟨method, position⟩ : x₀.method = m ∧ x₀.position = 0 := by
    unfold Frame.start at start
    split at start
    · cases start
    · cases start
      exact ⟨rfl, rfl⟩
  refine whole.lined.run (K := fun n => (n : Int) < c.function.localBase)
    (fun line mem i writes => ?_) turns method ⟨0, position, [], _, rfl, rfl⟩
  exact not_lt.mpr (whole.writes_all line mem i writes)

/-- An activation of the body of a generator has it in its first local, and room for all others. -/
theorem self (generator : c.function.generator = true) (start : Frame.start m (g :: args) = .ok x₀)
    (run : ReflTransGen (Effect.Loops call) (x₀, w₀) (x, w)) :
    x.locals[0]? = some g ∧ s.pool.maxLocals ≤ x.locals.size := by
  obtain ⟨-, -, size, first⟩ := whole.activation start run
  obtain ⟨-, room, arguments⟩ := start_eq_ok_iff start
  have base : c.function.localBase = 1 := if_pos generator
  constructor
  · rw [first 0 (by omega)]
    exact arguments 0 (by simp)
  · rw [size, ← whole.maxLocals, ← whole.built.locals]
    exact room

section Dispatch

variable (generator : c.function.generator = true) (call : Caller)
  (start : Frame.start m (g :: args) = .ok x₀) {p : ResumePoint} {ps qs : List ResumePoint}
  (split : s.resumes.toList = ps ++ p :: qs)

include generator start

/-- The code of a generator begins with a jump to the dispatcher. -/
theorem dispatches : ∃ (begin next : Label) (nexts : List Label),
    nexts.length = s.resumes.toList.length ∧ (∀ l ∈ nexts, s.assembler.labels.size ≤ l) ∧
      ∀ e w', exec call s'.assembler.pool (dispatchLines c.function s.registry s.dispatch begin next
          s.resumes.toList nexts) (some s.dispatch) [] (clearedLocals c.function x₀.locals) w = (e, w') →
        ∃ x₁, Effect.RunsIn call (Between 0 (codeSize (startLines c.function s.dispatch))) (x₀, w) (x₁, w) ∧
          e.Reached call m s'.assembler.position? (codeSize inner) (codeSize inner + codeSize ending)
            (x₁, w) w' := by
  obtain ⟨here, room, -⟩ := start_eq_ok_iff start
  have slots : c.function.localBase ≤ c.function.slotBase := c.function.localBase_le
  have first : c.function.localBase = 1 := if_pos generator
  have maxLocals : m.maxLocals = s.pool.maxLocals := whole.built.locals.trans whole.maxLocals
  have base := whole.tidy.base
  have inside := whole.tidy.maxLocals
  have reads := whole.lined.reads
  obtain ⟨rest, rfl⟩ := whole.begins
  rw [readsFrom_append, readsFrom_append] at reads
  obtain ⟨⟨begins, -⟩, ends⟩ := reads
  have enters : exec call s'.assembler.pool (startLines c.function s.dispatch) none [] x₀.locals w =
      (.jumps s.dispatch [] (clearedLocals c.function x₀.locals), w) :=
    exec_start generator (by unfold Function.previousSlot; omega)
  have ready : Ready m s'.assembler.position? 0 [] x₀.locals x₀ none := here
  obtain ⟨x₁, q₁, place₁, runs₁, there₁⟩ := exec_reached begins ready enters
  have ending_ := whole.ends
  rw [Ending, if_pos generator] at ending_
  obtain ⟨begin, next, nexts, count, newer, rfl⟩ := ending_
  refine ⟨begin, next, nexts, by rw [count, Array.length_toList],
    fun l mem => newer l (List.mem_cons_of_mem _ mem), fun e w' run => ⟨x₁, ?_, ?_⟩⟩
  · rwa [Nat.zero_add] at runs₁
  · have ready₁ : Ready m s'.assembler.position?
        (0 + codeSize (startLines c.function s.dispatch ++ rest)) [] _ x₁ (some s.dispatch) :=
      ⟨q₁, place₁, there₁⟩
    have reached := exec_reached ends ready₁ run
    rwa [Nat.zero_add] at reached

include split

/-- The frame of a suspension point is in the locals, behind the generator. -/
theorem usable : ∀ i ∈ p.frame,
    0 < i.toNat ∧ i.toNat < (clearedLocals c.function x₀.locals).size := by
  intro i mem
  obtain ⟨-, room, -⟩ := start_eq_ok_iff start
  have first : c.function.localBase = 1 := if_pos generator
  have maxLocals : m.maxLocals = s.pool.maxLocals := whole.built.locals.trans whole.maxLocals
  have inside := whole.tidy.maxLocals
  have own : p ∈ s.resumes := by
    rw [← Array.mem_toList_iff, split]
    simp
  obtain ⟨n, frame, -, high⟩ := whole.tidy.frames p own
  rw [frame, mem_slotsFrom] at mem
  rw [size_clearedLocals]
  omega

variable {G : Generator} (gen : w.generator? g = some G)
  (state : G.field Library.generatorState.name = .word (.ofInt p.state)) {vals vs : List Value}
  (saved : Saved w g (vals.reverse ++ vs)) (depth : vals.length = p.stack.length)

include gen state saved depth

/-- A generator in the state of a suspension point is resumed there, with what it saved. -/
theorem resumes (able : Restorable c.function s.registry w p vals vs) :
    ∃ (y : Frame) (q : Nat), s'.assembler.position? p.label = some q ∧
      Effect.RunsIn call (fun n => n < codeSize (startLines c.function s.dispatch) ∨ codeSize inner ≤ n)
        (x₀, w) (y, w) ∧
        At m q (if p.frameOnly then [] else G.field Library.sentValue.name :: vals)
          (fill (clearedLocals c.function x₀.locals) p.frame vs) y := by
  obtain ⟨-, -, arguments⟩ := start_eq_ok_iff start
  have self : (clearedLocals c.function x₀.locals)[0]? = some g :=
    (first_clearedLocals generator _).trans (arguments 0 (by simp))
  obtain ⟨-, -, label⟩ := whole.tidy.states p (by rw [← Array.mem_toList_iff, split]; simp)
  obtain ⟨started, others⟩ := whole.state_ne generator split
  obtain ⟨begin, next, nexts, count, newer, goes⟩ := whole.dispatches generator call start
  have ne : p.label ∉ nexts := fun mem => absurd label (Nat.not_lt.mpr (newer p.label mem))
  rw [split] at count goes
  obtain ⟨x₁, runs₁, y, q, place, runs, there⟩ := goes _ _
    (exec_dispatch whole.spelled.honest self gen state started count others saved depth able
      (whole.usable generator start split) ne)
  refine ⟨y, q, place, ?_, there⟩
  exact (runs₁.mono fun n here => .inl here.2).trans (runs.mono fun n here => .inr here.1)

end Dispatch

end Runs

end Whole

/-! ## Computing activations -/

/-- Turns of the interpreter's loop. -/
def turns (call : Caller) : Nat → Frame × World → Option (Frame × World)
  | 0, start => some start
  | n + 1, start =>
    match Effect.turn call start.1 start.2 with
    | .inr next => turns call n next
    | .inl _ => none

theorem loops_of_turns {call : Caller} {n : Nat} {start stop : Frame × World}
    (h : turns call n start = some stop) : ReflTransGen (Effect.Loops call) start stop := by
  induction n generalizing start with
  | zero => exact Option.some.inj h ▸ .refl
  | succ n ih =>
    unfold turns at h
    split at h
    · exact .head ‹_› (ih h)
    · cases h

/-- The method that comes of actions and an activation of it after some turns. -/
def activation? (f : Function) (r : Registry) (actions : List Action) (call : Caller)
    (args : List Value) (world : Method → World) (n : Nat) : Option (Method × Frame × World) :=
  (method? f r actions).bind fun m => (Frame.start m args).toOption.bind fun start =>
    (turns call n (start, world m)).map fun (x, w) => (m, x, w)

theorem activation?_eq_some {f : Function} {actions : List Action} {call : Caller}
    {args : List Value} {world : Method → World} {n : Nat} {x : Frame} {w : World}
    (h : activation? f r actions call args world n = some (m, x, w)) :
    methodBy f r actions = .ok (.ok m) ∧ ∃ start, Frame.start m args = .ok start ∧
      ReflTransGen (Effect.Loops call) (start, world m) (x, w) := by
  simp only [activation?, Option.bind_eq_some_iff, Option.map_eq_some_iff] at h
  obtain ⟨m', lowered, start, started, ⟨x', w'⟩, runs, last⟩ := h
  cases last
  cases eq : Frame.start m args with
  | error e => simp [eq, Except.toOption] at started
  | ok y =>
    simp only [eq, Except.toOption, Option.some.injEq] at started
    exact ⟨methodBy_of_method? lowered, y, rfl, started ▸ loops_of_turns runs⟩

end HostLowering.Lower
