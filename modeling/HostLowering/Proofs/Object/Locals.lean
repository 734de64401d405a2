import HostLowering.Proofs.Machine.Table
import HostLowering.Proofs.Object.Execution

set_option autoImplicit false

/-! # What a step leaves alone

Whatever the operands and the answers of the world are, a step of an activation changes at most the
local that its instruction writes, and goes on behind the instruction, at the target of its branch or
at a handler. So an activation of a method that was built from lines stays at the beginnings of lines
(`Frame.Turn.stays`), and locals that no line at hand writes keep their values.
-/

namespace HostLowering.Object

open Machine

/-! ## Instructions -/

def writtenBy (i : Instruction) : Option Nat :=
  match i.operand with
  | .slot n => if i.opcode ∈ [.astore, .istore, .lstore, .dstore] then some n else none
  | .increment n _ => some n
  | _ => none

/-- The same method with as many locals, of which at most one has another value. -/
structure Frame.Rewrites (f g : Frame) (written : Option Nat) : Prop where
  method : g.method = f.method
  size : g.locals.size = f.locals.size
  locals : ∀ n, written ≠ some n → g.locals[n]? = f.locals[n]?

theorem Frame.Rewrites.of_eq {f g : Frame} {written : Option Nat} (method : g.method = f.method)
    (locals : g.locals = f.locals) : f.Rewrites g written :=
  ⟨method, by rw [locals], fun _ _ => by rw [locals]⟩

/-- What leaves all locals alone leaves all but one alone. -/
theorem Frame.Rewrites.weaken {f g : Frame} (h : f.Rewrites g none) (written : Option Nat) :
    f.Rewrites g written :=
  ⟨h.method, h.size, fun n _ => h.locals n nofun⟩

/-- What the outcome of an instruction has in common with the activation before. An instruction that
asks the world writes no local. -/
def Transition.Follows (f : Frame) (i : Instruction) : Transition → Prop
  | .return _ => True
  | .next g => f.Rewrites g (writtenBy i) ∧
      (g.position = f.position ∨ ∃ t, i.operand = .branch t ∧ g.position = f.position + t)
  | .ask _ g => f.Rewrites g none ∧ g.position = f.position ∧ g.current = f.current

namespace Frame

variable {f : Frame} {i : Instruction} {op : Opcode} {t : Transition}

theorem follows_go {s : List Value} (h : f.go s = .ok t) : t.Follows f i := by
  cases h
  exact ⟨.of_eq rfl rfl, .inl rfl⟩

theorem follows_ask {r : Request} {s : List Value} (h : f.ask r s = .ok t) : t.Follows f i := by
  cases h
  exact ⟨.of_eq rfl rfl, rfl, rfl⟩

theorem follows_plain (h : f.plain op = .ok t) : t.Follows f i := by
  unfold Frame.plain at h
  generalize f.stack = stack at h
  cases op <;> rcases stack with _ | ⟨a, _ | ⟨b, _ | ⟨c, s⟩⟩⟩ <;>
    first
      | exact follows_go h
      | exact follows_ask h
      | (cases h; trivial)
      | cases h

theorem follows_onLocal {n : Nat} (h : f.onLocal op n = .ok t) : t.Follows f ⟨op, .slot n⟩ := by
  have stores {v : Value} {s : List Value}
      (written : writtenBy ⟨op, .slot n⟩ = some n)
      (h : (.ok (.next { f with locals := f.locals.setIfInBounds n v, stack := s }) :
        Except Stop Transition) = .ok t) : t.Follows f ⟨op, .slot n⟩ := by
    cases h
    refine ⟨⟨rfl, Array.size_setIfInBounds, fun k other => ?_⟩, .inl rfl⟩
    rw [written] at other
    show (f.locals.setIfInBounds n v)[k]? = _
    rw [Array.getElem?_setIfInBounds, if_neg fun same => other (congrArg some same)]
  unfold Frame.onLocal at h
  split at h <;> first | exact follows_go h | exact stores rfl h | cases h

theorem follows_increment {n : Nat} {step : Int} (h : f.increment n step = .ok t) :
    t.Follows f ⟨op, .increment n step⟩ := by
  unfold Frame.increment at h
  split at h
  · cases h
    refine ⟨⟨rfl, Array.size_setIfInBounds, fun k other => ?_⟩, .inl rfl⟩
    show (f.locals.setIfInBounds n _)[k]? = _
    rw [Array.getElem?_setIfInBounds, if_neg fun same => other (congrArg some same)]
  · cases h
  · cases h

theorem follows_fromPool {α : Type} {entry : Except PoolError α} {k : α → Except Stop Transition}
    (follows : ∀ a, k a = .ok t → t.Follows f i) (h : (f.fromPool entry >>= k) = .ok t) :
    t.Follows f i := by
  cases entry with
  | error e => cases h
  | ok a => exact follows a h

theorem follows_onConstant {n : Nat} (h : f.onConstant op n = .ok t) : t.Follows f i := by
  unfold Frame.onConstant at h
  split at h <;> refine follows_fromPool (fun a h => ?_) h
  · unfold Frame.loadConstant at h
    split at h <;> first | exact follows_go h | cases h
  · exact follows_ask h
  · split at h <;> first | exact follows_ask h | cases h
  · split at h <;> first | exact follows_ask h | cases h
  · split at h <;> first | exact follows_ask h | cases h
  · split at h <;> first | exact follows_ask h | cases h
  · exact follows_ask h
  · exact follows_ask h
  · simp only [Frame.invoke] at h
    split at h
    · cases h
    · exact follows_ask h

theorem follows_jump {d : Int} (h : f.jump op d = .ok t) : t.Follows f ⟨op, .branch d⟩ := by
  unfold Frame.jump at h
  cases decided : f.decideBranch op with
  | error s => simp [decided, bind, Except.bind] at h
  | ok r =>
    obtain ⟨taken, s⟩ := r
    simp only [decided, bind, Except.bind, pure, Except.pure, Except.ok.injEq] at h
    subst h
    refine ⟨.of_eq rfl rfl, ?_⟩
    cases taken
    · exact .inl rfl
    · exact .inr ⟨d, rfl, rfl⟩

theorem follows_execute (h : f.execute i = .ok t) : t.Follows f i := by
  obtain ⟨op, o⟩ := i
  cases o with
  | plain => exact follows_plain h
  | short n => exact follows_go h
  | slot n => exact follows_onLocal h
  | increment n step => exact follows_increment h
  | constant n => exact follows_onConstant h
  | branch d => exact follows_jump h

theorem step_eq_ok (h : f.step = .ok t) : ∃ (p : Nat) (i : Instruction), f.position = p ∧
    p < f.method.code.size ∧ instructionAt f.method.code p = .ok i ∧
      t.Follows { f with current := p, position := (p + i.opcode.size : Nat) } i := by
  unfold Frame.step at h
  split at h
  · cases h
  rename_i nonneg
  split at h
  · cases h
  rename_i inside
  cases read : instructionAt f.method.code f.position.toNat with
  | error d =>
    simp only [read] at h
    cases h
  | ok i =>
    simp only [read] at h
    exact ⟨f.position.toNat, i, by omega, by omega, read, follows_execute h⟩

/-- A turn of the loop executes the instruction at the position, and goes on behind it, at the target
of its branch or at a handler. -/
theorem Turn.follows {g : Frame} (turn : f.Turn g) : ∃ (p : Nat) (i : Instruction),
    f.position = p ∧ p < f.method.code.size ∧ instructionAt f.method.code p = .ok i ∧
      f.Rewrites g (writtenBy i) ∧
        (g.position = (p + i.opcode.size : Nat) ∨
          (∃ t, i.operand = .branch t ∧ g.position = (p + i.opcode.size : Nat) + t) ∨
            ∃ h ∈ f.method.handlers, h.covers p = true ∧ g.position = h.target) := by
  have rewrites {p : Nat} {i : Instruction} {g : Frame}
      (h : Frame.Rewrites { f with current := p, position := (p + i.opcode.size : Nat) } g
        (writtenBy i)) : f.Rewrites g (writtenBy i) :=
    ⟨h.method, h.size, h.locals⟩
  cases turn with
  | next step =>
    obtain ⟨p, i, position, inside, read, same, goes⟩ := step_eq_ok step
    exact ⟨p, i, position, inside, read, rewrites same, goes.imp_right .inl⟩
  | @answer g r step v returns =>
    obtain ⟨p, i, position, inside, read, same, goes, -⟩ := step_eq_ok step
    have after : g.Rewrites (g.answer r v) (writtenBy i) ∧ (g.answer r v).position = g.position := by
      unfold Frame.answer
      split <;> exact ⟨.of_eq rfl rfl, rfl⟩
    refine ⟨p, i, position, inside, read, ?_, .inl (after.2.trans goes)⟩
    exact ⟨after.1.method.trans same.method, after.1.size.trans same.size,
      fun n other => (after.1.locals n other).trans (same.locals n nofun)⟩
  | @handle g r step e h mem covers =>
    obtain ⟨p, i, position, inside, read, same, -, current⟩ := step_eq_ok step
    rw [show g.method = f.method from same.method] at mem
    rw [show g.current = p from current] at covers
    have same := same.weaken (writtenBy i)
    exact ⟨p, i, position, inside, read, rewrites ⟨same.method, same.size, same.locals⟩,
      .inr (.inr ⟨h, mem, covers, rfl⟩)⟩

end Frame

/-! ## Lines -/

variable {m : Method} {pool : Pool} {place : Label → Option Nat} {code : List Line} {p : Nat}
  {line : Line} {i : Instruction} {g : Frame} {n : Nat}

theorem shape_of_operandAt {bytes : Array UInt8} {shape : Opcode.Shape} {o : Operand}
    (read : operandAt bytes p shape = .ok o) : o.shape = shape := by
  have word {k : Nat → Except Defect Operand} (q : Nat) (h : (wordAt bytes q >>= k) = .ok o) :
      ∃ n, k n = .ok o := by
    cases hw : wordAt bytes q with
    | error e => simp [hw, bind, Except.bind] at h
    | ok n => exact ⟨n, by simpa [hw, bind, Except.bind] using h⟩
  cases shape with
  | plain =>
    cases read
    rfl
  | increment =>
    obtain ⟨n, read⟩ := word p read
    cases hb : byteAt bytes (p + 2) with
    | error e => simp [hb, bind, Except.bind] at read
    | ok d =>
      simp only [hb, bind, Except.bind, pure, Except.pure, Except.ok.injEq] at read
      exact read ▸ rfl
  | short | slot | constant | branch =>
    obtain ⟨n, read⟩ := word p read
    cases read
    rfl

theorem shape_of_instructionAt {bytes : Array UInt8} (read : instructionAt bytes p = .ok i) :
    i.operand.shape = i.opcode.shape := by
  obtain ⟨_, -, -, operand⟩ := instructionAt_eq_ok.mp read
  exact shape_of_operandAt operand

/-- The instruction that is read at a line writes what the line writes, and branches where the line
branches. -/
theorem instruction_of_reads (reads : line.Reads m pool place p) (code : ∀ l, line ≠ .mark l)
    (read : instructionAt m.code p = .ok i) :
    writtenBy i = line.written? ∧ i.opcode.size = line.size ∧
      ∀ t, i.operand = .branch t → ∃ l q, line.target? = some l ∧ place l = some q ∧
        (p + line.size : Nat) + t = q := by
  have size := Opcode.size_of_shape (shape_of_instructionAt read).symm
  have same {i' : Instruction} (read' : instructionAt m.code p = .ok i') : i = i' :=
    Except.ok.inj (read.symm.trans read')
  cases reads with
  | mark => exact absurd rfl (code _)
  | branch shape known read' =>
    cases same read'
    refine ⟨rfl, size, fun t branch => ⟨_, _, rfl, known, ?_⟩⟩
    cases branch
    simp only [Line.size]
    push_cast
    omega
  | @load k _ read' =>
    cases same read'
    exact ⟨by cases k <;> rfl, size, fun t branch => by cases branch⟩
  | @store k _ read' =>
    cases same read'
    exact ⟨by cases k <;> rfl, size, fun t branch => by cases branch⟩
  | plain _ read' | short read' | word read' | text read' | increment read' | onClass read'
  | onField read' | invoke read' =>
    cases same read'
    exact ⟨rfl, size, fun t branch => by cases branch⟩

/-- A method whose code is these lines, with all labels in their places. -/
structure Lined (m : Method) (pool : Pool) (place : Label → Option Nat) (code : List Line) : Prop where
  reads : ReadsFrom m pool place 0 code
  size : m.code.size = codeSize code
  places : ∀ l p, place l = some p → ∃ xs ys, code = xs ++ .mark l :: ys ∧ p = codeSize xs
  targets : ∀ h ∈ m.handlers, ∃ l p, place l = some p ∧ h.target = p

theorem lined_of_spelled {refs : Set MethodRef} {a : Assembler} {maxLocals : Int}
    (spelled : Spelled refs code a) (built : Built a maxLocals m) :
    Lined m a.pool a.position? code where
  reads := spelled.reads built
  size := by rw [built.code, spelled.size]
  places _ _ place := spelled.position?_iff.mp place
  targets h mem := by
    obtain ⟨-, pending, -, start, stop, target, -, -, place, -, -, same⟩ := built.handlers h mem
    exact ⟨pending.target, target, place, same⟩

/-- An offset at which a line begins, or the end of the code. -/
def Boundary (code : List Line) (p : Nat) : Prop := ∃ xs ys, code = xs ++ ys ∧ p = codeSize xs

/-- At a boundary before the end there is a line to execute. -/
theorem Boundary.exists_line (h : Boundary code p) (lt : p < codeSize code) :
    ∃ xs line ys, code = xs ++ line :: ys ∧ p = codeSize xs ∧ ∀ l, line ≠ .mark l := by
  obtain ⟨xs, ys, rfl, rfl⟩ := h
  induction ys generalizing xs with
  | nil => simp at lt
  | cons line ys ih =>
    by_cases mark : ∃ l, line = .mark l
    · obtain ⟨l, rfl⟩ := mark
      have split : xs ++ .mark l :: ys = (xs ++ [.mark l]) ++ ys := by simp
      have size : codeSize (xs ++ [.mark l]) = codeSize xs := by simp [Line.size]
      obtain ⟨us, line, vs, split', size', code⟩ := ih (xs ++ [.mark l]) (by rw [size, ← split]; exact lt)
      exact ⟨us, line, vs, split.trans split', size.symm.trans size', code⟩
    · exact ⟨xs, line, ys, rfl, rfl, fun l same => mark ⟨l, same⟩⟩

theorem Lined.exists_line (lined : Lined m pool place code) (here : Boundary code p)
    (lt : p < codeSize code) : ∃ xs line ys, code = xs ++ line :: ys ∧ p = codeSize xs ∧
      (∀ l, line ≠ .mark l) ∧ line.Reads m pool place p := by
  obtain ⟨xs, line, ys, split, rfl, code_⟩ := here.exists_line lt
  have reads := lined.reads
  rw [split, readsFrom_append, Nat.zero_add] at reads
  exact ⟨xs, line, ys, split, rfl, code_, reads.2.1⟩

/-- Only lines that take room write locals. -/
theorem size_pos_of_written {i : Nat} (h : line.written? = some i) : 0 < line.size := by
  cases line with
  | store | increment => simp [Line.size]
  | _ => cases h

/-- A line that stands within a part of the code belongs to it. -/
theorem mem_of_between {front lines back xs ys : List Line}
    (split : front ++ (lines ++ back) = xs ++ line :: ys) (size : 0 < line.size)
    (low : codeSize front ≤ codeSize xs) (high : codeSize xs < codeSize front + codeSize lines) :
    line ∈ lines := by
  rcases List.append_eq_append_iff.mp split with ⟨us, rfl, rest⟩ | ⟨us, rfl, rest⟩
  · -- The line stands behind the front.
    rcases List.append_eq_append_iff.mp rest with ⟨vs, rfl, -⟩ | ⟨vs, rfl, later⟩
    · rw [codeSize_append, codeSize_append] at high
      omega
    · cases vs with
      | nil =>
        rw [codeSize_append, List.append_nil] at high
        omega
      | cons v vs =>
        obtain ⟨rfl, -⟩ := List.cons.inj later
        exact List.mem_append_right _ List.mem_cons_self
  · cases us with
    | nil =>
      rw [List.nil_append] at rest
      cases lines with
      | nil =>
        rw [codeSize_append] at high
        simp at high
      | cons l lines =>
        obtain ⟨rfl, -⟩ := List.cons.inj rest
        exact List.mem_cons_self
    | cons u us =>
      obtain ⟨rfl, -⟩ := List.cons.inj rest
      rw [codeSize_append, codeSize_cons] at low
      omega

/-- From a boundary the loop executes the line that begins there. It changes at most the local that the
line writes, and goes on behind the line, at the label of its branch or at a handler. -/
theorem Frame.Turn.goes (lined : Lined m pool place code) {f : Frame} (turn : f.Turn g)
    (method : f.method = m) (position : f.position = p) (here : Boundary code p) :
    ∃ xs line ys, code = xs ++ line :: ys ∧ p = codeSize xs ∧ (∀ l, line ≠ .mark l) ∧
      line.Reads m pool place p ∧ f.Rewrites g line.written? ∧ (g.position = (p + line.size : Nat) ∨
        (∃ l q : Nat, line.target? = some l ∧ place l = some q ∧ g.position = q) ∨
          ∃ h ∈ m.handlers, h.covers p = true ∧ g.position = h.target) := by
  subst method
  obtain ⟨p', i, position', inside, read, rewrites, goes⟩ := turn.follows
  obtain rfl : p' = p := by omega
  obtain ⟨xs, line, ys, split, size, code_, first⟩ := lined.exists_line here (lined.size ▸ inside)
  obtain ⟨written, width, branches⟩ := instruction_of_reads first code_ read
  rw [written] at rewrites
  refine ⟨xs, line, ys, split, size, code_, first, rewrites, ?_⟩
  rcases goes with next | ⟨t, branch, there⟩ | handled
  · exact .inl (by rw [next, width])
  · obtain ⟨l, q, target, known, same⟩ := branches t branch
    exact .inr (.inl ⟨l, q, target, known, by rw [there, width]; exact same⟩)
  · exact .inr (.inr handled)

/-- From a boundary the loop goes on at a boundary, and changes at most the local that the line
writes. -/
theorem Frame.Turn.stays (lined : Lined m pool place code) {f : Frame} (turn : f.Turn g)
    (method : f.method = m) (position : f.position = p) (here : Boundary code p) :
    ∃ xs line ys, code = xs ++ line :: ys ∧ p = codeSize xs ∧ f.Rewrites g line.written? ∧
      ∃ q : Nat, g.position = q ∧ Boundary code q := by
  obtain ⟨xs, line, ys, split, size, -, -, rewrites, goes⟩ := turn.goes lined method position here
  refine ⟨xs, line, ys, split, size, rewrites, ?_⟩
  have placed {l : Label} {q : Nat} (known : place l = some q) : Boundary code q := by
    obtain ⟨us, vs, split, size⟩ := lined.places l q known
    exact ⟨us, _, split, size⟩
  rcases goes with next | ⟨l, q, -, known, there⟩ | ⟨h, mem, -, there⟩
  · refine ⟨p + line.size, next, xs ++ [line], ys, by simp [split], ?_⟩
    simp [size]
  · exact ⟨q, there, placed known⟩
  · obtain ⟨l, q, known, same⟩ := lined.targets h mem
    exact ⟨q, there.trans same, placed known⟩

/-- A run from a boundary stays in the method at boundaries, and keeps the locals that no line
writes. -/
theorem Lined.run (lined : Lined m pool place code) {K : Nat → Prop}
    (avoids : ∀ line ∈ code, ∀ i, line.written? = some i → ¬K i) {f : Frame}
    (run : Relation.ReflTransGen Frame.Turn f g) (method : f.method = m)
    (here : ∃ p : Nat, f.position = p ∧ Boundary code p) :
    g.method = m ∧ (∃ q : Nat, g.position = q ∧ Boundary code q) ∧ g.locals.size = f.locals.size ∧
      ∀ n, K n → g.locals[n]? = f.locals[n]? := by
  induction run with
  | refl => exact ⟨method, here, rfl, fun _ _ => rfl⟩
  | tail _ turn ih =>
    obtain ⟨method', ⟨p, position, here'⟩, size, same⟩ := ih
    obtain ⟨xs, line, ys, split, -, rewrites, next⟩ := turn.stays lined method' position here'
    have mem : line ∈ code := split ▸ List.mem_append_right xs List.mem_cons_self
    refine ⟨rewrites.method.trans method', next, rewrites.size.trans size, fun n kept => ?_⟩
    exact (rewrites.locals n fun writes => avoids line mem n writes kept).trans (same n kept)

end HostLowering.Object
