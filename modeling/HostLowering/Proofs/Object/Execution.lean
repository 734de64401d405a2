import HostLowering.Proofs.Machine.Spelling
import HostLowering.Proofs.Object.VerifiedRun

set_option autoImplicit false

/-! # Executing lines

What a stretch of code does, computed from its lines alone: `exec` passes the lines in order, follows
branches to labels ahead, and lets the world serve their requests. It ends when control falls off the
last line, jumps to a label that is not ahead, returns, or is stopped by the world. Where a line
cannot be executed, because its operands are not there or not of the right sort, nothing is said.

The loop of the interpreter does the same wherever the lines stand in a method (`exec_reached`), so
everything else about emitted code is a computation with `exec`.
-/

namespace HostLowering.Object

open Machine Relation

/-! ## Single lines -/

/-- What a line does: it goes on, asks the world, goes on at a label, or returns. -/
inductive Act where
  | go (stack : List Value) (locals : Array Value)
  | ask (r : Request) (stack : List Value)
  | leap (l : Label) (stack : List Value)
  | give (v : Value)
  | stuck

/-- What a transition of an activation does. -/
def Act.of : Except Stop Transition → Act
  | .ok (.next f) => .go f.stack f.locals
  | .ok (.ask r f) => .ask r f.stack
  | .ok (.return v) => .give v
  | .error _ => .stuck

/-- An activation of no method in particular. -/
def Frame.bare (stack : List Value) (locals : Array Value) : Frame :=
  { method := default, locals, stack }

namespace Act

def load (i : Nat) (stack : List Value) (locals : Array Value) : Act :=
  match locals[i]? with
  | some v => .go (v :: stack) locals
  | none => .stuck

def store (i : Nat) (stack : List Value) (locals : Array Value) : Act :=
  match locals[i]?, stack with
  | some _, v :: s => .go s (locals.setIfInBounds i v)
  | _, _ => .stuck

def increment (i : Nat) (step : Int) (stack : List Value) (locals : Array Value) : Act :=
  match locals[i]? with
  | some (.word n) => .go stack (locals.setIfInBounds i (.word (n + Int64.ofInt step)))
  | _ => .stuck

def onClass (op : Opcode) (name : String) (stack : List Value) : Act :=
  match op, stack with
  | .new, s => .ask (.allocate name) s
  | .checkcast, v :: s => .ask (.cast name v) s
  | .instanceof, v :: s => .ask (.instanceOf name v) s
  | _, _ => .stuck

def onField (op : Opcode) (f : FieldRef) (stack : List Value) : Act :=
  match op, stack with
  | .getfield, o :: s => .ask (.getField f o) s
  | .putfield, v :: o :: s => .ask (.putField f o v) s
  | .getstatic, s => .ask (.getStatic f) s
  | _, _ => .stuck

def invoke (op : Opcode) (m : MethodRef) (stack : List Value) : Act :=
  if op.isInvoke ∧ m.operandCount op ≤ stack.length then
    .ask (.invoke op m (stack.take (m.operandCount op)).reverse) (stack.drop (m.operandCount op))
  else .stuck

def branch (op : Opcode) (l : Label) (stack : List Value) (locals : Array Value) : Act :=
  match (Frame.bare stack locals).decideBranch op with
  | .ok (true, s) => .leap l s
  | .ok (false, s) => .go s locals
  | .error _ => .stuck

def ofLine (pool : Pool) (stack : List Value) (locals : Array Value) : Line → Act
  | .plain op => .of ((Frame.bare stack locals).plain op)
  | .word n => .go (.word n :: stack) locals
  | .text s => .go (.text s :: stack) locals
  | .load _ i => load i stack locals
  | .store _ i => store i stack locals
  | .increment i step => increment i step stack locals
  | .onClass op name => onClass op name stack
  | .onField op f => onField op (pool.field f) stack
  | .invoke op r => invoke op (pool.method r) stack
  | .branch op l => branch op l stack locals
  | .mark _ => .go stack locals

end Act

/-- An activation of a method is at an offset with an operand stack and locals. -/
structure At (m : Method) (p : Nat) (stack : List Value) (locals : Array Value) (f : Frame) :
    Prop where
  method : f.method = m
  position : f.position = p
  stack : f.stack = stack
  locals : f.locals = locals

/-- The next step of an activation, at the offset `p` with the next line at `next`, does what a line
does. -/
inductive Act.Steps (m : Method) (place : Label → Option Nat) (p next : Nat) (locals : Array Value)
    (f : Frame) : Act → Prop where
  | go {stack : List Value} {locals' : Array Value} {f' : Frame} (step : f.step = .ok (.next f'))
      (there : At m next stack locals' f') : Steps m place p next locals f (.go stack locals')
  | ask {r : Request} {stack : List Value} {f' : Frame} (step : f.step = .ok (.ask r f'))
      (there : At m next stack locals f') (current : f'.current = p) :
      Steps m place p next locals f (.ask r stack)
  | leap {l : Label} {stack : List Value} {q : Nat} {f' : Frame} (known : place l = some q)
      (step : f.step = .ok (.next f')) (there : At m q stack locals f') :
      Steps m place p next locals f (.leap l stack)
  | give {v : Value} (step : f.step = .ok (.return v)) : Steps m place p next locals f (.give v)
  | stuck : Steps m place p next locals f .stuck

variable {m : Method} {pool : Pool} {place : Label → Option Nat} {p : Nat} {stack : List Value}
  {locals : Array Value} {f : Frame} {line : Line} {op : Opcode} {o : Operand} {n : Int64} {q : Nat}

/-- A step of an activation executes the instruction it is at. -/
theorem At.step (here : At m p stack locals f) (read : instructionAt m.code p = .ok ⟨op, o⟩) :
    f.step = Frame.execute
      { method := m, locals, stack, current := p, position := (p + op.size : Nat) } ⟨op, o⟩ := by
  obtain ⟨rfl, position, rfl, rfl⟩ := here
  have inside : p < f.method.code.size := by
    by_contra outside
    have none : f.method.code[p]? = none := Array.getElem?_eq_none (Nat.not_lt.mp outside)
    simp [instructionAt, byteAt, none, bind, Except.bind] at read
  unfold Frame.step
  rw [if_neg (by omega), if_neg (by omega)]
  simp only [position, Int.toNat_natCast, read]

/-- The step of an opcode without operand depends on the stack alone. -/
theorem Act.Steps.plain (read : instructionAt m.code p = .ok ⟨op, .plain⟩)
    (here : At m p stack locals f) :
    (Act.of ((Frame.bare stack locals).plain op)).Steps m place p (p + op.size) locals f := by
  have step := here.step read
  simp only [Frame.execute] at step
  cases op <;> rcases stack with _ | ⟨a, _ | ⟨b, _ | ⟨c, s⟩⟩⟩ <;>
    first
      | exact .stuck
      | exact .go step ⟨rfl, rfl, rfl, rfl⟩
      | exact .ask step ⟨rfl, rfl, rfl, rfl⟩ rfl
      | exact .give step

theorem execute_load {k : Kind} {i : Nat} {v : Value} (h : f.locals[i]? = some v) :
    f.execute ⟨.load k, .slot i⟩ = .ok (.next (f.withStack (v :: f.stack))) := by
  cases k <;> simp [Frame.execute, Frame.onLocal, Opcode.load, h, Frame.go]

theorem execute_store {k : Kind} {i : Nat} {v : Value} {s : List Value} (h : i < f.locals.size)
    (hs : f.stack = v :: s) : f.execute ⟨.store k, .slot i⟩ =
      .ok (.next { f with locals := f.locals.setIfInBounds i v, stack := s }) := by
  cases k <;> simp [Frame.execute, Frame.onLocal, Opcode.store, h, hs]

theorem Act.Steps.load {k : Kind} {i : Nat} (read : instructionAt m.code p = .ok ⟨.load k, .slot i⟩)
    (here : At m p stack locals f) :
    (Act.load i stack locals).Steps m place p (p + 3) locals f := by
  have step := here.step read
  rw [Opcode.size_load] at step
  unfold Act.load
  cases value : locals[i]? with
  | none => exact .stuck
  | some v =>
    rw [execute_load value] at step
    exact .go step ⟨rfl, rfl, rfl, rfl⟩

theorem Act.Steps.store {k : Kind} {i : Nat}
    (read : instructionAt m.code p = .ok ⟨.store k, .slot i⟩) (here : At m p stack locals f) :
    (Act.store i stack locals).Steps m place p (p + 3) locals f := by
  have step := here.step read
  rw [Opcode.size_store] at step
  unfold Act.store
  cases value : locals[i]? with
  | none => exact .stuck
  | some u =>
    cases stack with
    | nil => exact .stuck
    | cons v s =>
      rw [execute_store (Array.getElem?_eq_some_iff.mp value).1 rfl] at step
      exact .go step ⟨rfl, rfl, rfl, rfl⟩

theorem Act.Steps.increment {i : Nat} {n : Int}
    (read : instructionAt m.code p = .ok ⟨.iinc, .increment i n⟩) (here : At m p stack locals f) :
    (Act.increment i n stack locals).Steps m place p (p + 4) locals f := by
  have step := here.step read
  simp only [Frame.execute, Frame.increment] at step
  unfold Act.increment
  split
  · rename_i value
    simp only [value] at step
    exact .go step ⟨rfl, rfl, rfl, rfl⟩
  · exact .stuck

section Constants

variable {k : Nat}

theorem classAt_of_entry {name : String} (entry : m.pool[k]? = some (.ofClass name)) :
    m.classAt k = .ok name := by
  simp [Method.classAt, Method.constantAt, entry, Constant.ofClass, bind, Except.bind]

theorem fieldAt_of_entry {g : FieldRef} (entry : m.pool[k]? = some (.ofField g)) :
    m.fieldAt k = .ok g := by
  simp [Method.fieldAt, Method.constantAt, entry, Constant.ofField, bind, Except.bind]

theorem methodAt_of_entry {r : MethodRef} (entry : m.pool[k]? = some (.ofMethod r)) :
    m.methodAt k = .ok r := by
  simp [Method.methodAt, Method.constantAt, entry, Constant.ofMethod, bind, Except.bind]

theorem Act.Steps.ldc {c : Constant} {v : Value}
    (read : instructionAt m.code p = .ok ⟨.ldc, .constant k⟩) (entry : m.pool[k]? = some c)
    (loads : ∀ f : Frame, f.loadConstant c = f.go (v :: f.stack)) (here : At m p stack locals f) :
    (Act.go (v :: stack) locals).Steps m place p (p + 3) locals f := by
  have step := here.step read
  simp only [Frame.execute, Frame.onConstant, Method.constantAt, entry, Frame.fromPool, bind,
    Except.bind, loads] at step
  exact .go step ⟨rfl, rfl, rfl, rfl⟩

theorem Act.Steps.onClass {name : String} (read : instructionAt m.code p = .ok ⟨op, .constant k⟩)
    (entry : m.pool[k]? = some (.ofClass name)) (here : At m p stack locals f) :
    (Act.onClass op name stack).Steps m place p (p + 3) locals f := by
  have step := here.step read
  unfold Act.onClass
  split
  all_goals
    first
      | exact .stuck
      | simp only [Frame.execute, Frame.onConstant, classAt_of_entry entry, Frame.fromPool, bind,
          Except.bind] at step
        exact .ask step ⟨rfl, rfl, rfl, rfl⟩ rfl

theorem Act.Steps.onField {g : FieldRef} (read : instructionAt m.code p = .ok ⟨op, .constant k⟩)
    (entry : m.pool[k]? = some (.ofField g)) (here : At m p stack locals f) :
    (Act.onField op g stack).Steps m place p (p + 3) locals f := by
  have step := here.step read
  unfold Act.onField
  split
  all_goals
    first
      | exact .stuck
      | simp only [Frame.execute, Frame.onConstant, fieldAt_of_entry entry, Frame.fromPool, bind,
          Except.bind] at step
        exact .ask step ⟨rfl, rfl, rfl, rfl⟩ rfl

theorem execute_invoke {r : MethodRef} (invoke : op.isInvoke = true)
    (found : f.method.methodAt k = .ok r) : f.execute ⟨op, .constant k⟩ = f.invoke op r := by
  cases op <;> first
    | exact absurd invoke (by decide)
    | simp only [Frame.execute, Frame.onConstant, found, Frame.fromPool, bind, Except.bind]

theorem Act.Steps.invoke {r : MethodRef} (read : instructionAt m.code p = .ok ⟨op, .constant k⟩)
    (entry : m.pool[k]? = some (.ofMethod r)) (here : At m p stack locals f) :
    (Act.invoke op r stack).Steps m place p (p + 3) locals f := by
  have step := here.step read
  unfold Act.invoke
  split
  · rename_i able
    have constant : op.size = 3 := Opcode.size_of_shape (Opcode.shape_of_isInvoke able.1)
    rw [execute_invoke able.1 (methodAt_of_entry entry), constant, Frame.invoke,
      if_neg (by simpa using able.2)] at step
    exact .ask step ⟨rfl, rfl, rfl, rfl⟩ rfl
  · exact .stuck

end Constants

/-! ## Branches -/

theorem popWord_eq_ok {s t : List Value} : f.popWord s = .ok (n, t) ↔ s = .word n :: t := by
  constructor
  · intro h
    unfold Frame.popWord at h
    split at h <;> cases h
    rfl
  · rintro rfl
    rfl

/-- Whether a branch is taken depends on the stack alone. -/
theorem decideBranch_congr {f' : Frame} {r : Bool × List Value} (same : f'.stack = f.stack)
    (h : f.decideBranch op = .ok r) : f'.decideBranch op = .ok r := by
  have pop {β : Type} {s : List Value} {k : Int64 × List Value → Except Stop β} {b : β}
      (h : (f.popWord s).bind k = .ok b) : ∃ n t, s = .word n :: t ∧ k (n, t) = .ok b := by
    cases popped : f.popWord s with
    | error e => simp [popped, Except.bind] at h
    | ok x =>
      rw [popped] at h
      exact ⟨x.1, x.2, popWord_eq_ok.mp popped, h⟩
  unfold Frame.decideBranch at h ⊢
  rw [same]
  generalize f.stack = s at h ⊢
  split at h
  · exact h
  · obtain ⟨n, t, rfl, h⟩ := pop h
    exact h
  · obtain ⟨n, t, rfl, h⟩ := pop h
    exact h
  all_goals first | exact h | cases h | skip
  obtain ⟨n, t, rfl, rest⟩ := pop h
  obtain ⟨n', t', rfl, last⟩ := pop rest
  exact last

theorem jump_eq (f' : Frame) {taken : Bool} {s : List Value} (same : f'.stack = f.stack)
    (decided : f.decideBranch op = .ok (taken, s)) (distance : Int) :
    f'.jump op distance = .ok (.next { f' with
      stack := s
      position := if taken then f'.position + distance else f'.position }) := by
  simp only [Frame.jump, decideBranch_congr same decided, bind, Except.bind, pure, Except.pure]

theorem Act.Steps.branch {l : Label} (shape : op.shape = .branch) (known : place l = some q)
    (read : instructionAt m.code p = .ok ⟨op, .branch (q - (p + 3))⟩) (here : At m p stack locals f) :
    (Act.branch op l stack locals).Steps m place p (p + 3) locals f := by
  have step : f.step = Frame.jump
      { method := m, locals, stack, current := p, position := (p + op.size : Nat) } op
      (q - (p + 3)) := here.step read
  rw [Opcode.size_of_branch shape] at step
  unfold Act.branch
  split
  · rename_i s decided
    have jump := jump_eq (f := .bare stack locals) ⟨m, locals, stack, (p + 3 : Nat), p⟩ rfl decided
      (q - (p + 3))
    refine .leap known (step.trans jump) ⟨rfl, ?_, rfl, rfl⟩
    show ((p + 3 : Nat) : Int) + (q - (p + 3)) = q
    push_cast
    omega
  · rename_i s decided
    have jump := jump_eq (f := .bare stack locals) ⟨m, locals, stack, (p + 3 : Nat), p⟩ rfl decided
      (q - (p + 3))
    exact .go (step.trans jump) ⟨rfl, rfl, rfl, rfl⟩
  · exact .stuck

/-- A line other than a mark does what it says. -/
theorem steps_of_reads (reads : line.Reads m pool place p) (code : ∀ l, line ≠ .mark l)
    (here : At m p stack locals f) :
    (Act.ofLine pool stack locals line).Steps m place p (p + line.size) locals f := by
  cases reads with
  | plain shape read =>
    have steps : Act.Steps m place p (p + _) locals f _ := .plain read here
    rwa [Opcode.size_of_shape shape] at steps
  | short read => exact .go (here.step read) ⟨rfl, rfl, rfl, rfl⟩
  | word read entry => exact .ldc read entry (fun _ => rfl) here
  | text read entry => exact .ldc read entry (fun _ => rfl) here
  | load read => exact .load read here
  | store read => exact .store read here
  | increment read => exact .increment read here
  | onClass read entry => exact .onClass read entry here
  | onField read entry => exact .onField read entry here
  | invoke read entry => exact .invoke read entry here
  | branch shape known read => exact .branch shape known read here
  | mark => exact absurd rfl (code _)

/-! ## Stretches of code -/

/-- How a stretch of code ends. -/
inductive Exit where
  | falls (stack : List Value) (locals : Array Value)
  | jumps (l : Label) (stack : List Value) (locals : Array Value)
  | returns (v : Value)
  | stops (s : Stop) (locals : Array Value)
  | stuck

/-- Execute lines from the first one on, or from the mark of a label on. -/
def exec (call : Caller) (pool : Pool) :
    List Line → Option Label → List Value → Array Value → World → Exit × World
  | [], none, stack, locals, w => (.falls stack locals, w)
  | [], some l, stack, locals, w => (.jumps l stack locals, w)
  | line :: code, some l, stack, locals, w =>
    exec call pool code (if line = .mark l then none else some l) stack locals w
  | line :: code, none, stack, locals, w =>
    match Act.ofLine pool stack locals line with
    | .go stack locals => exec call pool code none stack locals w
    | .leap l stack => exec call pool code (some l) stack locals w
    | .give v => (.returns v, w)
    | .stuck => (.stuck, w)
    | .ask r stack =>
      match Effect.serve call r w with
      | (.ok v, w) =>
        exec call pool code none (if r.pushesAnswer then v :: stack else stack) locals w
      | (.error s, w) => (.stops s locals, w)

/-- Activations in worlds that the loop of the interpreter leads to while it is at certain offsets. -/
def Effect.RunsIn (call : Caller) (inside : Nat → Prop) : Frame × World → Frame × World → Prop :=
  ReflTransGen fun x y => (∃ p : Nat, x.1.position = p ∧ inside p) ∧ Effect.Loops call x y

/-- The offsets from one up to another. -/
abbrev Between (p q : Nat) : Nat → Prop := fun r => p ≤ r ∧ r < q

theorem Effect.RunsIn.mono {call : Caller} {inside inside' : Nat → Prop} {x y : Frame × World}
    (h : Effect.RunsIn call inside x y) (le : ∀ p, inside p → inside' p) :
    Effect.RunsIn call inside' x y :=
  ReflTransGen.mono (fun _ _ ⟨⟨p, position, here⟩, loops⟩ => ⟨⟨p, position, le p here⟩, loops⟩) x y h

theorem Effect.RunsIn.loops {call : Caller} {inside : Nat → Prop} {x y : Frame × World}
    (h : Effect.RunsIn call inside x y) : ReflTransGen (Effect.Loops call) x y :=
  ReflTransGen.mono (fun _ _ step => step.2) x y h

/-- The loop of the interpreter, started with an activation in a world, gets to the end of a stretch
of code from the offset `p` up to `q`. Only requests made there can stop it. -/
def Exit.Reached (call : Caller) (m : Method) (place : Label → Option Nat) (p q : Nat)
    (start : Frame × World) (w : World) : Exit → Prop
  | falls stack locals =>
    ∃ f, Effect.RunsIn call (Between p q) start (f, w) ∧ At m q stack locals f
  | jumps l stack locals => ∃ f r, place l = some r ∧
      Effect.RunsIn call (Between p q) start (f, w) ∧ At m r stack locals f
  | returns v => ∃ f, Effect.RunsIn call (Between p q) start (f, w) ∧ f.step = .ok (.return v)
  | stops s locals => ∃ f w₀ r f', Effect.RunsIn call (Between p q) start (f, w₀) ∧
      f.step = .ok (.ask r f') ∧ Effect.serve call r w₀ = (.error s, w) ∧ f'.method = m ∧
      f'.locals = locals ∧ p ≤ f'.current ∧ f'.current < q
  | stuck => True

/-- Where execution goes on: at an offset, or at the place of a label. -/
def Ready (m : Method) (place : Label → Option Nat) (p : Nat) (stack : List Value)
    (locals : Array Value) (f : Frame) : Option Label → Prop
  | none => At m p stack locals f
  | some l => ∃ q, place l = some q ∧ At m q stack locals f

variable {e : Exit}

/-- What is reached from one frame is reached from another whose runs extend those of the first. -/
theorem Exit.Reached.extend {call : Caller} {p' : Nat} {start next : Frame × World} {w : World}
    (le : p ≤ p') (extend : ∀ {y}, Effect.RunsIn call (Between p' q) next y →
      Effect.RunsIn call (Between p q) start y)
    (h : e.Reached call m place p' q next w) : e.Reached call m place p q start w := by
  cases e with
  | falls stack locals =>
    obtain ⟨f, runs, there⟩ := h
    exact ⟨f, extend runs, there⟩
  | jumps l stack locals =>
    obtain ⟨f, r, known, runs, there⟩ := h
    exact ⟨f, r, known, extend runs, there⟩
  | returns v =>
    obtain ⟨f, runs, returned⟩ := h
    exact ⟨f, extend runs, returned⟩
  | stops s locals =>
    obtain ⟨f, w₀, r, f', runs, step, served, method, locals, low, high⟩ := h
    exact ⟨f, w₀, r, f', extend runs, step, served, method, locals, le.trans low, high⟩
  | stuck => trivial

theorem Exit.Reached.head {call : Caller} {start next : Frame × World} {w : World}
    (position : start.1.position = p) (lt : p < q) (first : Effect.Loops call start next)
    (h : e.Reached call m place p q next w) : e.Reached call m place p q start w :=
  h.extend le_rfl (.head ⟨⟨p, position, le_rfl, lt⟩, first⟩)

theorem Exit.Reached.widen {call : Caller} {p' : Nat} {start : Frame × World} {w : World}
    (le : p ≤ p') (h : e.Reached call m place p' q start w) :
    e.Reached call m place p q start w :=
  h.extend le fun runs => runs.mono fun _ here => ⟨le.trans here.1, here.2⟩

/-- The loop of the interpreter executes lines as `exec` does. -/
theorem exec_reached {call : Caller} {code : List Line} (reads : ReadsFrom m pool place p code)
    {target : Option Label} (ready : Ready m place p stack locals f target) {w w' : World}
    (run : exec call pool code target stack locals w = (e, w')) :
    e.Reached call m place p (p + codeSize code) (f, w) w' := by
  induction code generalizing p stack locals f target w with
  | nil =>
    cases target with
    | none =>
      cases run
      exact ⟨f, .refl, ready⟩
    | some l =>
      cases run
      obtain ⟨q, known, there⟩ := ready
      exact ⟨f, q, known, .refl, there⟩
  | cons line code ih =>
    obtain ⟨first, rest⟩ := reads
    have further (f' : Frame) (target : Option Label) {stack : List Value}
        {locals : Array Value} {w : World}
        (ready : Ready m place (p + line.size) stack locals f' target)
        (run : exec call pool code target stack locals w = (e, w')) :
        e.Reached call m place p (p + codeSize (line :: code)) (f', w) w' := by
      have reached := (ih rest ready run).widen (Nat.le_add_right p line.size)
      rwa [Nat.add_assoc, ← codeSize_cons] at reached
    cases target with
    | some l =>
      refine further f _ ?_ run
      split
      · -- the label stands here, so this is where the activation is
        rename_i same
        subst same
        obtain ⟨q, known, there⟩ := ready
        cases first with
        | mark here =>
          cases known.symm.trans here
          exact there
      · exact ready
    | none =>
      by_cases mark : ∃ l, line = .mark l
      · obtain ⟨l, rfl⟩ := mark
        exact further f none ready run
      · have steps := steps_of_reads first (fun l same => mark ⟨l, same⟩) ready
        have position : f.position = p := ready.position
        have size := Line.size_pos fun l same => mark ⟨l, same⟩
        have lt : p < p + codeSize (line :: code) := by
          rw [codeSize_cons]
          omega
        rw [exec] at run
        cases does : Act.ofLine pool stack locals line with
        | go stack' locals' =>
          rw [does] at run steps
          obtain ⟨step, there⟩ := steps
          exact (further _ none there run).head position lt
            (by simp [Effect.Loops, Effect.turn, step])
        | leap l stack' =>
          rw [does] at run steps
          obtain - | - | ⟨known, step, there⟩ := steps
          exact (further _ (some l) ⟨_, known, there⟩ run).head position lt
            (by simp [Effect.Loops, Effect.turn, step])
        | give v =>
          rw [does] at run steps
          cases run
          obtain - | - | - | step := steps
          exact ⟨f, .refl, step⟩
        | stuck =>
          rw [does] at run
          cases run
          trivial
        | ask r stack' =>
          rw [does] at run steps
          obtain - | ⟨step, there, current⟩ := steps
          rename_i f'
          cases served : Effect.serve call r w with
          | mk answer w₁ =>
            simp only [served] at run
            cases answer with
            | error s =>
              cases run
              refine ⟨f, w, r, f', .refl, step, served, there.method, there.locals, ?_, ?_⟩
              · omega
              · omega
            | ok v =>
              have next : At m (p + line.size)
                  (if r.pushesAnswer then v :: stack' else stack') locals
                  (f'.answer r v) := by
                obtain ⟨method, position, rfl, locals⟩ := there
                unfold Frame.answer
                split
                · exact ⟨method, position, rfl, locals⟩
                · exact ⟨method, position, rfl, locals⟩
              exact (further _ none next run).head position lt
                (by simp [Effect.Loops, Effect.turn, step, served])

/-! ## Computing -/

section Computing

variable {call : Caller} {code : List Line} {target : Option Label} {l : Label} {w w' : World}
  {a b c v : Value} {i : Nat} {k : Kind} {g : FieldRef} {r : Request} {s : List Value}

/-- A line that asks the world goes on with the answer. -/
theorem exec_ask (asks : Act.ofLine pool stack locals line = .ask r s)
    (served : Effect.serve call r w = (.ok v, w')) :
    exec call pool (line :: code) none stack locals w =
      exec call pool code none (if r.pushesAnswer then v :: s else s) locals w' := by
  rw [exec, asks]
  simp only [served]

theorem exec_stop {e : Stop} (asks : Act.ofLine pool stack locals line = .ask r s)
    (served : Effect.serve call r w = (.error e, w')) :
    exec call pool (line :: code) none stack locals w = (.stops e locals, w') := by
  rw [exec, asks]
  simp only [served]

theorem exec_aconstNull : exec call pool (.plain .aconstNull :: code) none stack locals w =
    exec call pool code none (.null :: stack) locals w := rfl

theorem exec_pop : exec call pool (.plain .pop :: code) none (a :: stack) locals w =
    exec call pool code none stack locals w := rfl

theorem exec_dup : exec call pool (.plain .dup :: code) none (a :: stack) locals w =
    exec call pool code none (a :: a :: stack) locals w := rfl

theorem exec_dupX2 : exec call pool (.plain .dupX2 :: code) none (a :: b :: c :: stack) locals w =
    exec call pool code none (a :: b :: c :: a :: stack) locals w := rfl

theorem exec_dup2 : exec call pool (.plain .dup2 :: code) none (a :: b :: stack) locals w =
    exec call pool code none (a :: b :: a :: b :: stack) locals w := rfl

theorem exec_swap : exec call pool (.plain .swap :: code) none (a :: b :: stack) locals w =
    exec call pool code none (b :: a :: stack) locals w := rfl

theorem exec_word : exec call pool (.word n :: code) none stack locals w =
    exec call pool code none (.word n :: stack) locals w := rfl

theorem exec_text {t : String} : exec call pool (.text t :: code) none stack locals w =
    exec call pool code none (.text t :: stack) locals w := rfl

theorem exec_load (h : locals[i]? = some v) : exec call pool (.load k i :: code) none stack locals w =
    exec call pool code none (v :: stack) locals w := by
  simp [exec, Act.ofLine, Act.load, h]

theorem exec_store (h : i < locals.size) :
    exec call pool (.store k i :: code) none (v :: stack) locals w =
      exec call pool code none stack (locals.setIfInBounds i v) w := by
  simp [exec, Act.ofLine, Act.store, h]

theorem exec_goto : exec call pool (.branch .goto l :: code) none stack locals w =
    exec call pool code (some l) stack locals w := rfl

/-- A branch whose operands are there. -/
theorem exec_branch {t : Bool} (decided : (Frame.bare stack locals).decideBranch op = .ok (t, s)) :
    exec call pool (.branch op l :: code) none stack locals w =
      exec call pool code (if t then some l else none) s locals w := by
  rw [exec, Act.ofLine, Act.branch, decided]
  cases t <;> rfl

theorem exec_ifnull : exec call pool (.branch .ifnull l :: code) none (a :: stack) locals w =
    exec call pool code (if a = .null then some l else none) stack locals w := by
  rw [exec_branch (t := a == .null) rfl]
  simp only [beq_iff_eq]

theorem exec_ifne :
    exec call pool (.branch .ifne l :: code) none (.word n :: stack) locals w =
      exec call pool code (if n = 0 then none else some l) stack locals w := by
  rw [exec_branch (t := n != 0) rfl]
  simp only [bne_iff_ne, ite_not]

theorem exec_ifIcmpne {m : Int64} :
    exec call pool (.branch .ifIcmpne l :: code) none (.word n :: .word m :: stack) locals w =
      exec call pool code (if m = n then none else some l) stack locals w := by
  rw [exec_branch (t := m != n) rfl]
  simp only [bne_iff_ne, ne_eq, ite_not]

theorem exec_found : exec call pool (.mark l :: code) (some l) stack locals w =
    exec call pool code none stack locals w := by
  rw [exec, if_pos rfl]

/-- Lines without the mark of a label are passed over. -/
theorem exec_skip {lines : List Line} (h : .mark l ∉ lines) :
    exec call pool (lines ++ code) (some l) stack locals w =
      exec call pool code (some l) stack locals w := by
  induction lines with
  | nil => rfl
  | cons line lines ih =>
    have other : line ≠ .mark l := fun same => h (same ▸ List.mem_cons_self)
    rw [List.cons_append, exec, if_neg other]
    exact ih fun mem => h (List.mem_cons_of_mem line mem)

end Computing

end HostLowering.Object
