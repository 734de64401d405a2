import HostLowering.Proofs.Lower.Exhaustion

set_option autoImplicit false

/-! # The first candidate of a binary operator

The code of an operator begins with a candidate: a method that is looked up on the class of the left
operand when the code runs, or one that the registry knows. Main statement: where the static type of the
left operand is not known, or declares the operator's method, or at least the right operand does not
declare the reflected one and the operator is not in place, the first call that the code makes is one of
the left operand's method with both operands (`left_operand_first`). Otherwise it may be another one
(`subtraction_right_first`).
-/

namespace HostLowering.Object

open Machine Effect
open Relation (ReflTransGen)

variable {call : Caller} {w w' : World} {v fn : Value} {name : String} {F : Function}
  {args : List Value} {m : Method} {pool : Pool} {place : Label → Option Nat} {p : Nat}
  {stack : List Value} {locals : Array Value} {op : Opcode} {ref : MethodRef} {c : ClassId}
  {lines : List Line}

/-! ## Calls -/

def Call.Of (w : World) (fn : Value) (args : List Value) : Call → Prop
  | .value callee values keywords => callee = fn ∧ values = args ∧ keywords = []
  | .function F values => w.function? fn = some F ∧ values = args

/-- Whatever becomes of calls, the first one that the loop of the interpreter makes is `c`, in the
world `w`. -/
def Effect.CallsFirst (start : Frame × World) (c : Call) (w : World) : Prop :=
  ∃ q, (∀ call, serve call q w = call c w) ∧
    ∀ call, ∃ y y', ReflTransGen (Effect.Loops call) start (y, w) ∧ y.step = .ok (.ask q y')

/-- The class of a value has a function under a name, which is called with what it is called with. -/
structure World.Defines (w : World) (v : Value) (name : String) (fn : Value) (F : Function) :
    Prop where
  found : ∃ c, w.classOf? v = some c ∧ w.attribute? c name = some fn
  function : w.function? fn = some F
  unbound : F.classMethod = false

/-- A caller that refuses all calls and tells which function it was. -/
def refuse : Caller
  | .value .. => fault ""
  | .function F _ => fault F.name

/-- The interpreter stops at its first call if that is refused. -/
theorem Effect.CallsFirst.outcome {start y : Frame × World} {c : Call} (h : CallsFirst start c w)
    {e : Fault} (refused : call c w = (.error (.fault e), w'))
    (runs : ReflTransGen (Loops call) start y) {out : Except Stop Value × World}
    (ends : turn call y.1 y.2 = .inl out) :
    ∃ place, out = (.error (.fault { e with place }), w') := by
  obtain ⟨q, serves, reaches⟩ := h
  obtain ⟨x, x', runs', asks⟩ := reaches call
  have stops : turn call x w =
      .inl (.error (.fault (e.atPlace x'.place.1 x'.place.2)), w') := by
    simp only [turn, asks, serves call, refused]
  have unique : Relator.RightUnique (Loops call) :=
    fun _ _ _ first second => Sum.inr.inj (Eq.trans (Eq.symm first) second)
  -- both runs have come to their end
  have same : y = (x, w) := by
    rcases ReflTransGen.total_of_right_unique unique runs runs' with later | later
    · rcases later.cases_head with same | ⟨z, step, -⟩
      · exact same
      · cases ends.symm.trans step
    · rcases later.cases_head with same | ⟨z, step, -⟩
      · exact same.symm
      · cases stops.symm.trans step
  subst same
  cases stops.symm.trans ends
  exact ⟨_, rfl⟩

theorem World.isHostInstance_function (h : w.function? fn = some F) :
    w.isHostInstance fn Library.functionClass = true := by
  unfold World.function? at h
  split at h
  · rename_i found
    unfold World.isHostInstance
    rw [if_neg (by decide), if_pos rfl]
    cases fn with
    | object r => simp only [found]
    | _ => cases found
  · cases h

theorem World.Extends.function? (h : w.Extends w') (found : w.function? fn = some F) :
    w'.function? fn = some F := by
  unfold World.function? at found ⊢
  split at found
  · rename_i object
    rw [h.object? object]
    exact found
  · cases found

theorem library_getType (found : w.classOf? v = some c) :
    library call .getType [v] w = (.ok (.cls c), w) := by
  rw [library, bind_get, found]
  rfl

theorem getAttribute?_class (found : w.attribute? c name = some fn)
    (function : w.function? fn = some F) (unbound : F.classMethod = false) :
    getAttribute? (.cls c) name w = (.ok (some fn), w) := by
  have own : w.find? (.cls c) name = some (.plain fn) := by
    simp [World.find?, World.ownAttribute?, found, function, unbound]
  rw [getAttribute?, bind_get, own]
  rfl

theorem library_getAttributeOrNull (found : w.attribute? c name = some fn)
    (function : w.function? fn = some F) (unbound : F.classMethod = false) :
    library call .getAttributeOrNull [.cls c, .text name] w = (.ok fn, w) := by
  rw [library, bind_ok (getAttribute?_class found function unbound)]
  rfl

/-- Calling a function with a list calls it with the items. -/
theorem library_call {l : Value} (function : w.function? fn = some F)
    (list : w.sequence? l = some (.list, args)) :
    library call .call [fn, l, .null, .null] w = call (.value fn args []) w := by
  obtain ⟨place, window, items⟩ : ∃ place, w.window? l = some (.list, place) ∧ w.items place = args := by
    unfold World.sequence? at list
    obtain ⟨⟨kind, place⟩, window, same⟩ := Option.map_eq_some_iff.mp list
    cases same
    exact ⟨place, window, rfl⟩
  rw [library, bind_get, window]
  subst items
  cases fn with
  | object r => rfl
  | _ => cases function

/-- A method that is not of the library is found on the class of its receiver. -/
theorem serve_found (like : (pool.method ref).Like ref)
    (foreign : LibraryMethod.ofReference? ref = none)
    (receiver : op = .invokevirtual ∨ op = .invokeinterface) (known : w.classOf? v = some c)
    (found : w.attribute? c ref.name = some fn) (function : w.function? fn = some F) :
    serve call (.invoke op (pool.method ref) (v :: args)) w =
      call (.function F (v :: args)) w := by
  have some_ : v ≠ .null := by
    rintro rfl
    cases known
  have of_class : invocationClass op (pool.method ref) (v :: args) w = (.ok c, w) := by
    unfold invocationClass
    rw [if_neg (by rcases receiver with rfl | rfl <;> decide)]
    cases v with
    | null => exact absurd rfl some_
    | _ =>
      simp only [bind_get, known]
      rfl
  rw [serve, invoke, LibraryMethod.ofReference?_congr like, foreign]
  simp only [bind_ok of_class, bind_get, like.name, found, function]

/-- The loop makes its first call where lines without one have led to it. -/
theorem callsFirst_of_exec {f : Frame} {c : Call} {locals' : Array Value} (args : List Value)
    (reads : ReadsFrom m pool place p (lines ++ [.invoke op ref])) (here : At m p stack locals f)
    {rest : List Value} (runs : ∀ call, exec call pool lines none stack locals w =
      (.falls (args.reverse ++ rest) locals', w')) (like : (pool.method ref).Like ref)
    (invoke : op.isInvoke = true) (count : args.length = ref.operandCount op)
    (serves : ∀ call, serve call (.invoke op (pool.method ref) args) w' = call c w') :
    Effect.CallsFirst (f, w) c w' := by
  refine ⟨_, serves, fun call => ?_⟩
  rw [readsFrom_append] at reads
  obtain ⟨before, own, -⟩ := reads
  have ready : Ready m place p stack locals f none := here
  obtain ⟨y, reached, there⟩ := exec_reached before ready (runs call)
  have steps := steps_of_reads own (by simp) there
  rw [ofLine_invoke like invoke args count] at steps
  obtain - | ⟨step, -, -⟩ := steps
  exact ⟨y, _, reached.loops, step⟩

end HostLowering.Object

namespace HostLowering.Lower

set_option synthInstance.maxSize 1000000

open Machine Object Catalog Effect

variable {K : Scope} {α β : Type} {x : Lowering α} {call : Caller} {pool : Pool} {code : List Line}
  {stack : List Value} {locals : Array Value} {w w' : World} {a b l fn : Value} {F : Object.Function}
  {method : String} {c : ClassId} {f : Function} {lines : List Line} {sig : Signature} {cls : String}
  {r : Registry}

/-! ## How the code of a step begins -/

/-- The code of a step begins with lines. -/
def Starts (K : Scope) (x : Lowering α) (P : List Line → Prop) : Prop :=
  ∀ s b s', K.Open s → x K.function s = (.ok b, s') → ∃ lines rest fresh guards,
    P lines ∧ Wrote K.refs (lines ++ rest) fresh guards s.assembler s'.assembler

namespace Starts

variable {P : List Line → Prop}

theorem stop {R : α → Prop} (h : Keeps K x R) : Starts K x (· = []) := by
  intro s b s' opened run
  obtain ⟨rest, fresh, guards, wrote, -⟩ := (h s b s' opened run).1.code
  exact ⟨[], rest, fresh, guards, rfl, wrote⟩

theorem weaken {P' : List Line → Prop} (h : Starts K x P) (imp : ∀ lines, P lines → P' lines) :
    Starts K x P' := by
  intro s b s' opened run
  obtain ⟨lines, rest, fresh, guards, holds, wrote⟩ := h s b s' opened run
  exact ⟨lines, rest, fresh, guards, imp _ holds, wrote⟩

theorem step {y : Lowering Unit} {k : Unit → Lowering α} {more : List Line}
    [writes : ∀ r, Writes K.toSource r y lines] (h : Starts K (k ()) (· = more)) :
    Starts K (y >>= k) (· = lines ++ more) := by
  intro s b s' opened run
  obtain ⟨u, s₁, first, later⟩ := bind_eq_ok run
  have emitted := (writes s.registry).emits s u s₁ rfl first
  obtain ⟨_, rest, fresh, guards, rfl, wrote⟩ := h s₁ b s' (opened.emitted emitted) later
  have all := emitted.wrote.trans wrote
  rw [← List.append_assoc] at all
  exact ⟨_, rest, _, _, rfl, all⟩

theorem label {k : Label → Lowering α} (h : ∀ l, Starts (K.owning l) (k l) P) :
    Starts K (Lowering.newLabel >>= k) P := by
  intro s b s' opened run
  obtain ⟨l, s₁, made, later⟩ := bind_eq_ok run
  obtain ⟨emitted, -, owning⟩ := opened.newLabel made
  obtain ⟨lines, rest, fresh, guards, holds, wrote⟩ := h l s₁ b s' owning later
  exact ⟨lines, rest, _, _, holds, emitted.wrote.trans wrote⟩

end Starts

/-! ## Candidates found when the code runs -/

/-- The lines that pass a function and a list of arguments. -/
def passLines : List Line :=
  [.plain .swap, .onClass .checkcast Library.functionClass, .plain .swap, .plain .aconstNull,
    .plain .aconstNull]

/-- The lines that look a method up on the type of the left operand and pass both operands. -/
def lookupLines (method : String) (missing : Label) : List Line :=
  [.plain .dup2, .plain .swap, .plain .dup, callLine Library.getType, .text method,
    callLine Library.getAttributeOrNull, .plain .dup, .branch .ifnull missing, .plain .dupX2,
    .plain .pop, .plain .swap] ++ (packLines 2 ++ passLines)

theorem starts_genericCandidate {next : Lowering Unit} (h : Keeps K next fun _ => True)
    (method : String) : Starts K (Lowering.genericCandidate [.dup2, .swap] method next)
      fun lines => ∃ missing, lines = lookupLines method missing ++ [callLine Library.call] := by
  refine .label fun missing => .label fun declined => .label fun done => ?_
  have rest : (((K.owning missing).owning declined).owning done).discipline.Abides
      (done :: declined :: missing :: K.own) next :=
    (((h.owning missing).owning declined).owning done).abides
  have tail : Keeps (((K.owning missing).owning declined).owning done) (do
      Lowering.orElse declined done
      Lowering.mark missing
      Lowering.emit [.pop2]
      Lowering.mark declined
      Lowering.emit [.pop]
      next
      Lowering.mark done
      return some objectType) fun _ => True :=
    Scope.keeps (inferInstanceAs (Discipline.Abides _ (done :: declined :: missing :: K.own) _))
  refine Starts.weaken (.step <| .step <| .step <| .step <| .step <| .step <| .step <| .step <| .step <|
    .step <| .stop tail) ?_
  rintro lines rfl
  exact ⟨missing, rfl⟩

section Lookup

variable (like : ∀ m ∈ libraryReferences, (pool.method m).Like m)

include like

theorem exec_getType (known : w.classOf? l = some c) :
    exec call pool (callLine Library.getType :: code) none (l :: stack) locals w =
      exec call pool code none (.cls c :: stack) locals w :=
  exec_library (like _ (by decide)) rfl (by decide) [l] rfl (library_getType known)

theorem exec_getAttributeOrNull (found : w.attribute? c method = some fn)
    (function : w.function? fn = some F) (unbound : F.classMethod = false) :
    exec call pool (callLine Library.getAttributeOrNull :: code) none
        (.text method :: .cls c :: stack) locals w =
      exec call pool code none (fn :: stack) locals w :=
  exec_library (like _ (by decide)) rfl (by decide) [.cls c, .text method] rfl
    (library_getAttributeOrNull found function unbound)

omit like in
theorem exec_pass (able : Castable w Library.functionClass fn) :
    exec call pool passLines none (l :: fn :: stack) locals w =
      (.falls (.null :: .null :: l :: fn :: stack) locals, w) := by
  rw [passLines, exec_swap]
  exact exec_cast able

/-- The method is found and both operands are passed. -/
theorem exec_lookup (honest : pool.Honest) (lists : w.byHost.get? Library.listClass = some .list)
    (defines : w.Defines l method fn F) (a : Value) (missing : Label) (stack : List Value)
    (locals : Array Value) : ∃ list w', w.Gathers list [l, a] w' ∧ ∀ call,
      exec call pool (lookupLines method missing) none (a :: l :: stack) locals w =
        (.falls (.null :: .null :: list :: fn :: a :: l :: stack) locals, w') := by
  obtain ⟨⟨c, known, found⟩, function, unbound⟩ := defines
  obtain ⟨list, w₁, made, makes⟩ := exec_newList honest lists (2 : Nat)
  obtain ⟨w', gathered, gathers⟩ := exec_reverseAdds honest [a, l] made
  refine ⟨list, w', gathered, fun call => ?_⟩
  have some_ : fn ≠ .null := by
    rintro rfl
    cases function
  have able : Castable w' Library.functionClass fn :=
    .inr (.inr (gathered.keepsClasses _ _ (World.isHostInstance_function function)))
  simp only [lookupLines, List.cons_append, List.nil_append]
  rw [exec_dup2, exec_swap, exec_dup, exec_getType like known, exec_text,
    exec_getAttributeOrNull like found function unbound, exec_dup, exec_ifnull, if_neg some_,
    exec_dupX2, exec_pop, exec_swap, packLines, List.append_assoc, makes]
  exact (gathers call passLines _ locals).trans (exec_pass able)

end Lookup

/-! ## Candidates known in advance -/

def receiverClass (r : Registry) (sig : Signature) : String := r.hostClassOf sig.owner

/-- The host class of the first parameter of a signature. -/
def argumentClass (r : Registry) (sig : Signature) : String :=
  sig.params.head?.elim Library.objectClass fun p => r.hostClassOf p.type

/-- The lines that narrow both operands for a method of the left one. -/
def narrowLines (r : Registry) (sig : Signature) : List Line :=
  castUnderLines (receiverClass r sig) ++ (castLines (argumentClass r sig) ++
    if sig.mayNotImplement then [.plain .dup2] else [])

theorem ownerClass_eq {s s' : State} (run : Lowering.ownerClass sig f s = (.ok cls, s')) :
    cls = receiverClass s.registry sig ∧ s' = s := by
  unfold Lowering.ownerClass at run
  cases owner : sig.owner with
  | some t =>
    rw [owner] at run
    cases run
    exact ⟨by rw [receiverClass, owner], rfl⟩
  | none =>
    rw [owner] at run
    cases run

theorem firstParamClass_eq {s s' : State} (run : Lowering.firstParamClass sig f s = (.ok cls, s')) :
    cls = argumentClass s.registry sig ∧ s' = s := by
  unfold Lowering.firstParamClass at run
  cases params : sig.params with
  | cons p ps =>
    rw [params] at run
    cases run
    exact ⟨by rw [argumentClass, params]; rfl, rfl⟩
  | nil =>
    rw [params] at run
    cases run

theorem directCandidate_eq_ok {next : Lowering Unit} {s s' : State} {t : Option TypeRef}
    (mem : sig.method ∈ K.refs) (h : Keeps K next fun _ => True) (opened : K.Open s)
    (run : Lowering.directCandidate sig false next K.function s = (.ok t, s')) :
    ∃ rest fresh guards, Wrote K.refs
      ((narrowLines s.registry sig ++ [.invoke sig.opcode sig.method]) ++ rest) fresh guards
        s.assembler s'.assembler := by
  obtain ⟨receiver, s₁, owner, run⟩ := bind_eq_ok run
  obtain ⟨rfl, rfl⟩ := ownerClass_eq owner
  obtain ⟨argument, s₂, param, run⟩ := bind_eq_ok run
  obtain ⟨rfl, rfl⟩ := firstParamClass_eq param
  have concludes {x : Lowering (Option TypeRef)} (run : x K.function s₂ = (.ok t, s'))
      (starts : Starts K x fun lines =>
        lines = narrowLines s₂.registry sig ++ [.invoke sig.opcode sig.method]) : ∃ rest fresh guards,
      Wrote K.refs ((narrowLines s₂.registry sig ++ [.invoke sig.opcode sig.method]) ++ rest) fresh
        guards s₂.assembler s'.assembler := by
    obtain ⟨_, rest, fresh, guards, rfl, wrote⟩ := starts _ _ _ opened run
    exact ⟨rest, fresh, guards, wrote⟩
  refine concludes run ?_
  have writes (r : Registry) : Writes K.toSource r (Lowering.invokeSignature sig) _ :=
    writes_invokeBy (Signature.isInvoke_opcode sig) mem
  unfold narrowLines
  cases sig.mayNotImplement with
  | true =>
    refine Starts.weaken (.step <| .step <| .step <| .step <|
      .stop (K.keeps (abides_ifDeclined h.abides _))) ?_
    rintro lines rfl
    simp
  | false =>
    refine Starts.weaken (.step <| .step <| .step <| .stop (Keeps.pure _)) ?_
    rintro lines rfl
    simp

theorem kind_of_directMethod? {t : TypeRef} {name : String} {args : List TypeRef}
    (h : directMethod? f r t name args = some sig) :
    sig.kind = .onReceiver ∧ sig.arity = args.length := by
  unfold directMethod? at h
  split at h
  · obtain ⟨-, fits⟩ := Option.filter_eq_some_iff.mp h
    simp only [Bool.and_eq_true, beq_iff_eq] at fits
    exact fits.1
  · cases h

/-- A signature stands for the method of the left operand's class: its host method is found there, and
the operands can be used as what it takes. -/
structure Stands (r : Registry) (w : World) (method : String) (l a : Value) (sig : Signature) :
    Prop where
  sound : sig.Sound
  foreign : LibraryMethod.ofReference? sig.method = none
  found : ∀ c, w.classOf? l = some c → w.attribute? c sig.method.name = w.attribute? c method
  receiver : Castable w (receiverClass r sig) l
  argument : Castable w (argumentClass r sig) a

theorem exec_castUnder (able : Castable w cls b) :
    exec call pool (castUnderLines cls ++ code) none (a :: b :: stack) locals w =
      exec call pool code none (a :: b :: stack) locals w := by
  unfold castUnderLines
  split
  · rw [List.cons_append, List.cons_append, List.append_assoc, exec_swap, exec_cast able]
    rfl
  · rfl

theorem exec_narrow (stands : Stands r w method l a sig) (pool : Pool) (stack : List Value)
    (locals : Array Value) : ∃ rest, ∀ call,
      exec call pool (narrowLines r sig) none (a :: l :: stack) locals w =
        (.falls (a :: l :: rest) locals, w) := by
  refine ⟨if sig.mayNotImplement then a :: l :: stack else stack, fun call => ?_⟩
  rw [narrowLines, exec_castUnder stands.receiver, exec_cast stands.argument]
  cases sig.mayNotImplement <;> rfl

/-! ## The left operand first -/

/-- The method of the left operand is the first candidate of an operator. -/
def Operator.LeftFirst (op : Operator) (f : Function) (r : Registry) (left right : TypeRef) : Prop :=
  left = objectType ∨ (directMethod? f r left op.method [right]).isSome ∨
    op.fallback? = none ∧
      ∀ method, op.reflected? = some method → directMethod? f r right method [left] = none

/-- The lines of a first candidate on the left operand. -/
inductive LeftLines (f : Function) (r : Registry) (method : String) (left right : TypeRef) :
    List Line → Prop where
  | lookup (missing : Label) :
      LeftLines f r method left right (lookupLines method missing ++ [callLine Library.call])
  | direct {sig : Signature} (found : directMethod? f r left method [right] = some sig) :
      LeftLines f r method left right (narrowLines r sig ++ [.invoke sig.opcode sig.method])

/-- The code between two states begins with a first candidate on the left operand. -/
def Operator.BeginsLeft (op : Operator) (K : Scope) (left right : TypeRef) (s s' : State) : Prop :=
  ∃ lines rest fresh guards, LeftLines K.function s.registry op.method left right lines ∧
    Wrote K.refs (lines ++ rest) fresh guards s.assembler s'.assembler

section Operators

variable {op : Operator} {symbol : String} {s s' : State} {top under : Slot} {below : Snapshot}
  {t : Option TypeRef}

theorem genericBinary_eq_ok (opened : K.Open s) {left right : TypeRef}
    (run : Lowering.genericBinary op symbol K.function s = (.ok t, s')) :
    op.BeginsLeft K left right s s' := by
  obtain ⟨_, rest, fresh, guards, ⟨missing, rfl⟩, wrote⟩ :=
    starts_genericCandidate (K.keeps abides_afterLeft) op.method _ _ _ opened run
  exact ⟨_, rest, fresh, guards, .lookup missing, wrote⟩

theorem direct?_eq_ok {r : TypeRef} {name : String} {args : List TypeRef} {found : Option Signature}
    (run : Lowering.direct? r name args f s = (.ok found, s')) :
    directMethod? f s.registry r name args = found ∧ s = s' := by
  rw [direct?_eq] at run
  obtain ⟨looked, rfl⟩ := Prod.mk.inj run
  exact ⟨Except.ok.inj looked, rfl⟩

theorem peekType_first {d : Int} {k : TypeRef → Lowering α} {b : α} {slot : Slot}
    (there : s.stack.peek d = .ok slot) (run : (Lowering.peekType d >>= k) f s = (.ok b, s')) :
    k slot.known f s = (.ok b, s') := by
  obtain ⟨_, _, peeked, run⟩ := bind_eq_ok run
  obtain ⟨slot', found, rfl, rfl⟩ := peekType_eq_ok peeked
  cases there.symm.trans found
  exact run

/-- Where the reflected method is not known, all candidates are looked up. -/
theorem rightSide_eq_ok (shape : s.stack = top :: under :: below)
    (reflected : op.reflected? = some method)
    (missing : directMethod? K.function s.registry top.known method [under.known] = none)
    (opened : K.Open s) (run : Lowering.rightSide op op op symbol false K.function s = (.ok t, s')) :
    op.BeginsLeft K under.known top.known s s' := by
  have run₁ := peekType_first (by rw [shape]; rfl) run
  have run₂ := peekType_first (by rw [shape]; rfl) run₁
  rw [reflected] at run₂
  obtain ⟨found, _, looked, run₃⟩ := bind_eq_ok run₂
  obtain ⟨found_, rfl⟩ := direct?_eq_ok looked
  obtain rfl := missing.symm.trans found_
  exact genericBinary_eq_ok opened run₃

theorem leftSide_eq_ok (shape : s.stack = top :: under :: below)
    (first : op.LeftFirst K.function s.registry under.known top.known) (opened : K.Open s)
    (run : Lowering.leftSide op symbol K.function s = (.ok t, s')) :
    op.BeginsLeft K under.known top.known s s' := by
  have run₁ := peekType_first (by rw [shape]; rfl) run
  have run₂ := peekType_first (by rw [shape]; rfl) run₁
  obtain ⟨found, _, looked, run₃⟩ := bind_eq_ok run₂
  obtain ⟨found_, rfl⟩ := direct?_eq_ok looked
  have direct {sig : Signature} {next : Lowering Unit} (h : Keeps K next fun _ => True)
      (known : directMethod? K.function s.registry under.known op.method [top.known] = some sig)
      (run : Lowering.directCandidate sig false next K.function s = (.ok t, s')) :
      op.BeginsLeft K under.known top.known s s' := by
    obtain ⟨rest, fresh, guards, wrote⟩ :=
      directCandidate_eq_ok (opened.registry sig (knows_of_directMethod? known)) h opened run
    exact ⟨_, rest, fresh, guards, .direct known, wrote⟩
  cases found with
  | some sig => cases fallback : op.fallback? <;> cases reflected : op.reflected? <;>
      rw [fallback, reflected] at run₃ <;> exact direct (K.keeps inferInstance) found_ run₃
  | none =>
    dsimp only at run₃
    split at run₃
    · exact genericBinary_eq_ok opened run₃
    · rename_i known
      rcases first with object | some_ | ⟨fallback, missing⟩
      · exact absurd object known
      · rw [found_] at some_
        cases some_
      · rw [fallback] at run₃
        cases reflected : op.reflected? with
        | some method =>
          rw [reflected] at run₃
          exact rightSide_eq_ok shape reflected (missing _ reflected) opened run₃
        | none =>
          rw [reflected] at run₃
          exact genericBinary_eq_ok opened run₃

/-- The code of an operator begins with the left operand. -/
theorem binary_eq_ok (other : op ≠ .eq ∧ op ≠ .ne) (shape : s.stack = top :: under :: below)
    (first : op.LeftFirst K.function s.registry under.known top.known) (opened : K.Open s) {u : Unit}
    (run : Lowering.binary op K.function s = (.ok u, s')) :
    op.BeginsLeft K under.known top.known s s' := by
  obtain ⟨_, _, left, run₁⟩ := bind_eq_ok run
  obtain ⟨_, -, rfl, rfl⟩ := peekType_eq_ok left
  have run₂ := rest_of_ok run₁ rfl
  have chosen (inherited : Prop) : ¬((op = .eq ∨ op = .ne) ∧ inherited) := by
    rintro ⟨rfl | rfl, -⟩
    · exact other.1 rfl
    · exact other.2 rfl
  dsimp only at run₂
  rw [if_neg (chosen _)] at run₂
  obtain ⟨result, s₁, candidates, run₃⟩ := bind_eq_ok run₂
  obtain ⟨lines, rest, fresh, guards, begins, wrote⟩ := leftSide_eq_ok shape first opened candidates
  have ends : Worked K.toSource [] s₁ s' := .of run₃
  have all := wrote.trans ends.wrote
  rw [List.append_nil] at all
  exact ⟨lines, rest, _, _, begins, all⟩

end Operators

/-- The first candidate on the left operand is the first that is called. -/
theorem LeftLines.callsFirst {left right : TypeRef} {m : Method} {place : Label → Option Nat}
    {p : Nat} {x : Frame} {refs : Set MethodRef} (h : LeftLines f r method left right lines)
    (like : ∀ m ∈ refs, (pool.method m).Like m) (library : ∀ m ∈ libraryReferences, m ∈ refs)
    (honest : pool.Honest) (reads : ReadsFrom m pool place p lines)
    (here : At m p (a :: l :: stack) locals x)
    (lists : w.byHost.get? Library.listClass = some .list)
    (known : ∀ sig, directMethod? f r left method [right] = some sig → sig.method ∈ refs)
    (stands : ∀ sig, directMethod? f r left method [right] = some sig → Stands r w method l a sig)
    (defines : w.Defines l method fn F) :
    ∃ c w', c.Of w fn [l, a] ∧ Effect.CallsFirst (x, w) c w' := by
  cases h with
  | lookup missing =>
    obtain ⟨list, w', gathers, runs⟩ := exec_lookup (fun m mem => like m (library m mem)) honest
      lists defines a missing stack locals
    refine ⟨.value fn [l, a] [], w', ⟨rfl, rfl, rfl⟩, callsFirst_of_exec
      [fn, list, .null, .null] reads here runs (like _ (library _ (by decide))) rfl rfl
        fun call => ?_⟩
    rw [serve_library (like _ (library _ (by decide))) (by decide : _ = some LibraryMethod.call)]
    exact library_call (gathers.function? defines.function) gathers.sequence?
  | @direct sig found =>
    have stands := stands sig found
    obtain ⟨kind, arity⟩ := kind_of_directMethod? found
    obtain ⟨⟨c, class_, named⟩, function, -⟩ := defines
    obtain ⟨rest, runs⟩ := exec_narrow stands pool stack locals
    have like := like _ (known sig found)
    have receiver : sig.opcode = .invokevirtual ∨ sig.opcode = .invokeinterface := by
      rw [Signature.opcode, kind]
      by_cases interface : sig.method.isInterface <;> simp [interface]
    refine ⟨.function F [l, a], w, ⟨function, rfl⟩, callsFirst_of_exec [l, a] reads here runs
      like sig.isInvoke_opcode ?_ fun call => ?_⟩
    · rw [stands.sound.operandCount, Signature.taken, kind, arity]
      rfl
    · exact serve_found like stands.foreign receiver class_
        ((stands.found c class_).trans named) function

/-- The first call that an operator makes is one of the left operand's method. -/
theorem left_operand_first {f : Function} {r : Registry} {before after : List Action} {n : UInt8}
    {op : Operator} {s : State} {m : Method} {x : Frame} {vals : List Value} {top under : Slot}
    {below : Snapshot} (distinct : Distinct (references r)) (numbered : Operator.ofCode? n = some op)
    (other : op ≠ .eq ∧ op ≠ .ne) (reached : stateBy f r before = .ok s)
    (lowered : methodBy f r (before ++ .perform (.binary n) :: after) = .ok (.ok m))
    (shape : s.stack = top :: under :: below)
    (first : op.LeftFirst f s.registry under.known top.known) (method : x.method = m)
    (position : x.position = s.assembler.bytes.size) (operands : x.stack = a :: l :: vals)
    (lists : w.byHost.get? Library.listClass = some .list)
    (stands : ∀ sig, directMethod? f s.registry under.known op.method [top.known] = some sig →
      Stands s.registry w op.method l a sig)
    (defines : w.Defines l op.method fn F) :
    ∃ c w', c.Of w fn [l, a] ∧ Effect.CallsFirst (x, w) c w' := by
  obtain ⟨t₁, s₂, s₃, s', front, back, ending, newer, e₁, -, -, cut⟩ :=
    exists_cut (c := ⟨f, references r, fun _ => .inl⟩) (fun sig known => .inr ⟨sig, known, rfl⟩) lowered
  obtain rfl := Except.ok.inj (reached.symm.trans e₁)
  obtain ⟨-, -, body⟩ := perform_eq_ok cut.run cut.fine.1
  rw [Operation.body, numbered] at body
  have tidy := cut.tidy₁.named (Operation.binary n).name
  obtain ⟨lines, rest, fresh, guards, begins, wrote⟩ := binary_eq_ok (K := tidy.scope)
    (s := { s with operation := (Operation.binary n).name }) other shape first tidy.opened body
  have spelled := cut.spelled wrote
  obtain ⟨items, held, -⟩ := spelled.held
  have reads := cut.reads wrote
  rw [readsFrom_append, readsFrom_append, readsFrom_append, Nat.zero_add] at reads
  refine begins.callsFirst (fun m mem => distinct.method_like held.keyed mem) (fun _ => .inl)
    spelled.honest
    reads.2.1.1 ⟨method, ?_, operands, rfl⟩ lists (fun sig found => ?_) stands defines
  · rw [position, cut.held.size]
  · exact cut.tidy₁.registry sig (knows_of_directMethod? found)

/-- A sum of two integers. -/
def summing : Function where
  dialect := some .bare
  verify := false
  direct := true
  argCount := 2
  locals := #[some intType, some intType]

def sumStart : List Action := [.visit 0 [], .perform (.loadLocal 0), .perform (.loadLocal 1)]

/-- A world of two integers and the method that adds them. -/
def sumWorld : World where
  heap := #[.int 1, .int 2, .function { name := "__add__", body := .builtin .skip }]
  classes := (Array.replicate ClassId.int.index default).push {
    name := "int"
    host := Library.intClass
    lineage := [.int]
    attributes := [("__add__", .object ⟨2⟩)] }
  byHost := [(Library.listClass, .list)]

/-- An activation in front of their sum. -/
def sumFrame (m : Method) : Frame where
  method := m
  locals := #[.object ⟨0⟩, .object ⟨1⟩, .null, .null]
  stack := [.object ⟨1⟩, .object ⟨0⟩]
  position := 14

/-- The signature of their sum is found and stands for the method of their class. -/
def sumFits (s : State) : Bool :=
  s.assembler.bytes.size == 14 && s.stack.map (·.known) == [intType, intType] &&
    (directMethod? summing s.registry intType "__add__" [intType]).any fun sig =>
      sig.kind == .onReceiver && sig.arity == 1 &&
        sig.method == ⟨Library.intClass, "__add__", [Library.intClass], Library.intClass, false⟩ &&
          receiverClass s.registry sig == Library.intClass &&
            argumentClass s.registry sig == Library.intClass

theorem left_operand_first_summing : ∃ s m c w', stateBy summing .builtin sumStart = .ok s ∧
    methodBy summing .builtin (sumStart ++ .perform (.binary 0) :: [.perform .returnValue]) =
      .ok (.ok m) ∧ c.Of sumWorld (.object ⟨2⟩) [.object ⟨0⟩, .object ⟨1⟩] ∧
        Effect.CallsFirst (sumFrame m, sumWorld) c w' := by
  have some_ : (method? summing .builtin
      (sumStart ++ .perform (.binary 0) :: [.perform .returnValue])).isSome = true := by
    decide +kernel
  have fits : (stateBy summing .builtin sumStart).toOption.any sumFits = true := by decide +kernel
  have method : (Operator.arith .add).method = "__add__" := by decide +kernel
  have defines : sumWorld.Defines (.object ⟨0⟩) (Operator.arith .add).method (.object ⟨2⟩)
      { name := "__add__", body := .builtin .skip } :=
    ⟨⟨.int, rfl, by decide +kernel⟩, rfl, rfl⟩
  obtain ⟨m, found⟩ := Option.isSome_iff_exists.mp some_
  have lowered := methodBy_of_method? found
  cases reached : stateBy summing .builtin sumStart with
  | error e => simp [reached, Except.toOption] at fits
  | ok s =>
      simp only [reached, Except.toOption, Option.any_some, sumFits, Bool.and_eq_true, beq_iff_eq,
        Option.any_eq_true] at fits
      obtain ⟨⟨size, types⟩, sig, known, ⟨⟨⟨kind, arity⟩, host⟩, receiver⟩, argument⟩ := fits
      obtain ⟨top, rest, shape, right, types⟩ := List.map_eq_cons_iff.mp types
      obtain ⟨under, below, rfl, left, -⟩ := List.map_eq_cons_iff.mp types
      have looked : directMethod? summing s.registry under.known (Operator.arith .add).method
          [top.known] = some sig := by
        rw [left, right, method, known]
      have stands : Stands s.registry sumWorld (Operator.arith .add).method (.object ⟨0⟩)
          (.object ⟨1⟩) sig := by
        refine ⟨⟨?_, ?_⟩, ?_, fun c _ => ?_, .inr (.inr ?_), .inr (.inr ?_)⟩
        · rw [host, kind, arity]
          rfl
        · rw [host]
          decide
        · rw [host]
          decide
        · rw [host, method]
        · rw [receiver]
          decide
        · rw [argument]
          decide
      obtain ⟨c, w', calls, first⟩ := left_operand_first distinct_builtin (by decide) (by decide)
        reached lowered shape (.inr (.inl (by rw [looked]; rfl))) rfl (by rw [size]; rfl) rfl
          (w := sumWorld) (by decide)
          (fun sig' found => Option.some.inj (looked.symm.trans found) ▸ stands) defines
          (x := sumFrame m)
      exact ⟨s, m, c, w', rfl, lowered, calls, first⟩

/-! ## The right operand first

Where the static type of the left operand has no signature for an operator and that of the right one
has one for the reflected method, the code calls the reflected method without looking at the class that
the left operand has when it runs. -/

def declareClass (r : Registry) (name host : String) : Registry :=
  (declareType r name host).setBase name (some objectType)

/-- The types of two operands, of which only the right one declares a method. -/
def reflecting : Registry :=
  declareMethod (declareClass (declareClass .builtin "L" "u/L") "R" "u/R") "R" "__rsub__" ["object"]

/-- A difference of operands of these types. -/
def subtracting : Function where
  dialect := some .bare
  verify := false
  direct := true
  argCount := 2
  locals := #[some (.named "L"), some (.named "R")]

def subtraction : List Action :=
  [.visit 0 [], .perform (.loadLocal 0), .perform (.loadLocal 1), .perform (.binary 1),
    .perform .returnValue]

/-- A world of two operands whose classes both have a method for their difference. -/
def reflectingWorld : World where
  heap := #[.record ⟨0⟩ [], .record ⟨1⟩ [], .function { name := "__sub__", body := .builtin .skip },
    .function { name := "__rsub__", body := .builtin .skip }]
  classes := #[
    { name := "L", host := "u/L", lineage := [⟨0⟩], attributes := [("__sub__", .object ⟨2⟩)] },
    { name := "R", host := "u/R", lineage := [⟨1⟩], attributes := [("__rsub__", .object ⟨3⟩)] }]
  byHost := [(Library.listClass, .list)]

theorem subtraction_right_first : Operator.ofCode? 1 = some (.arith .sub) ∧ ∃ m x,
    methodBy subtracting reflecting subtraction = .ok (.ok m) ∧
      Frame.start m [.object ⟨0⟩, .object ⟨1⟩] = .ok x ∧
        reflectingWorld.Defines (.object ⟨0⟩) (Operator.arith .sub).method (.object ⟨2⟩)
          { name := "__sub__", body := .builtin .skip } ∧
        ¬∃ c w', c.Of reflectingWorld (.object ⟨2⟩) [.object ⟨0⟩, .object ⟨1⟩] ∧
          Effect.CallsFirst (x, reflectingWorld) c w' := by
  have stops : (activation? subtracting reflecting subtraction refuse [.object ⟨0⟩, .object ⟨1⟩]
      (fun _ => reflectingWorld) 8).any (fun (_, x, w) =>
        match Effect.turn refuse x w with
        | .inl (.error (.fault e), _) => e.text == "__rsub__"
        | _ => false) = true := by
    decide +kernel
  have defines : reflectingWorld.Defines (.object ⟨0⟩) (Operator.arith .sub).method (.object ⟨2⟩)
      { name := "__sub__", body := .builtin .skip } :=
    ⟨⟨⟨0⟩, rfl, by decide +kernel⟩, rfl, rfl⟩
  obtain ⟨⟨m, y, w⟩, found, holds⟩ := (Option.any_eq_true _ _).mp stops
  obtain ⟨lowered, x, start, runs⟩ := activation?_eq_some found
  refine ⟨by decide, m, x, lowered, start, defines, ?_⟩
  rintro ⟨c, w', calls, first⟩
  dsimp only at holds
  split at holds
  · rename_i e w₁ ends
    -- a call of the left operand's method would have been refused with another text
    have other : ∃ e, refuse c w' = (.error (.fault e), w') ∧ e.text ≠ "__rsub__" := by
      cases c with
      | value => exact ⟨{ text := "" }, rfl, by decide⟩
      | function F =>
          obtain ⟨function, -⟩ := calls
          cases defines.function.symm.trans function
          exact ⟨{ text := "__sub__" }, rfl, by decide⟩
    obtain ⟨e', refused, text⟩ := other
    obtain ⟨place, same⟩ := first.outcome refused runs ends
    cases same
    exact text (beq_iff_eq.mp holds)
  · cases holds

end HostLowering.Lower
