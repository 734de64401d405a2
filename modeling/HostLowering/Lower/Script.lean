import HostLowering.Catalog.Declaration
import HostLowering.Lower.Operation
import HostLowering.Machine.Verifier

set_option autoImplicit false

/-! # Lowering a function

A function is lowered by starting a state, performing the operations of its source in order, each
at its offset, and finishing the method. At an offset the source states the snapshot it expects,
which must agree with the one left by the previous operation and with every jump there.
-/

namespace HostLowering.Lower

open Machine Catalog

namespace Lowering

/-! ## Source offsets -/

def markOffset (offset : Int) : Lowering Unit := do
  modify fun s => { s with marked := s.marked.insert offset () }
  mark (← offsetLabel offset)

/-- Go on from an offset with a snapshot. -/
def resumeWith (s : Snapshot) : Lowering Unit :=
  modify fun st => { st with stack := s, reachable := true }

def atHandler (offset : Int) (h : HandlerEntry) (s : Snapshot) : Lowering Unit := do
  if (← get).reachable then fail .fallsIntoHandler
  else
    markOffset offset
    enterHandler offset h
    let entry ← stack
    unless ← compatible entry s do
      fail (.handlerStack (← showStack entry) (← showStack s))
    resumeWith s

/-- Whether a snapshot found agrees with the one given; otherwise a failure. -/
def agree (found given : Snapshot) (cause : String → String → Cause) : Lowering Bool := do
  if ← compatible found given then return true
  else
    fail (cause (← showStack found) (← showStack given))
    return false

/-- Whether a snapshot that may have been found agrees with the one given. -/
def agreeWith (found : Option Snapshot) (given : Snapshot) (cause : String → String → Cause) :
    Lowering Bool :=
  match found with
  | some s => agree s given cause
  | none => return true

/-- A generator that has not begun begins at an offset with the value sent first. -/
def beginAt (offset : Int) (s : Snapshot) : Lowering Bool := do
  if (← read).generator ∧ (← get).first = none then
    modify fun st => { st with first := offset.toNat? }
    agree [.dynamic] s .generatorStack
  else return true

/-- Check a snapshot against the previous operation and against the jumps to an offset, and for a
generator that has not begun against the value sent first. -/
def acceptAt (offset : Int) (s : Snapshot) : Lowering Bool := do
  let st ← get
  if ← agreeWith (if st.reachable then some st.stack else none) s .fallthroughStack then
    if ← agreeWith st.expected[offset]? s .jumpStack then beginAt offset s else return false
  else return false

/-- Begin the instruction at an offset with the snapshot expected there. -/
def atOffset (offset : Int) (s : Snapshot) : Lowering Unit := do
  unless ← hasFailed do
    modify fun st => { st with operation := "At", offset }
    let st ← get
    if st.marked.contains offset then fail .visitedTwice
    else match st.handlers[offset]? with
      | some h => atHandler offset h s
      | none =>
        if ← acceptAt offset s then
          modify fun st => { st with expected := st.expected.insert offset s }
          markOffset offset
          resumeWith s

/-! ## Beginning and end -/

/-- There must be a local for each argument. -/
def checkArguments : Lowering Unit := do
  let f ← read
  if (f.locals.size : Int) < f.argCount then fail (.tooFewLocals f.locals.size f.argCount)

def clearSlot (i : Int) : Lowering Unit := do
  emit [.aconstNull]
  storeRef i

/-- Go to the code of the source: in a generator to the dispatcher. -/
def enter : Lowering Unit := do
  if (← read).generator then
    let dispatch ← newLabel
    modify fun s => { s with dispatch }
    branch .goto dispatch
  else modify fun s => { s with reachable := true }

/-- Begin a function: clear the slots of the current and the previous exception, and enter it. -/
def start : Lowering Unit := do
  checkArguments
  let current ← reserve .ref
  let previous ← reserve .ref
  [current, previous].forM clearSlot
  enter

def unlessFailed (step : Lowering Unit) : Lowering Unit := do
  unless ← hasFailed do step

/-- Fail for the least offset of a list, if there is one. -/
def failForLeast (offsets : List Int) (cause : Int → Cause) : Lowering Unit :=
  match offsets.min? with
  | some n => fail (cause n)
  | none => pure ()

/-- Check that the code is complete, and emit the dispatcher of a generator. -/
def complete : Lowering Unit := do
  modify fun s => { s with operation := "Finish" }
  unlessFailed do
    if (← get).reachable then fail .fallsOffEnd
  unlessFailed do
    if (← read).generator then
      match (← get).first with
      | some n => emitDispatch n
      | none => fail .emptyGenerator
  unlessFailed do
    let s ← get
    failForLeast (s.expected.keys.filter fun n => !s.marked.contains n) .targetNotReached
  unlessFailed do
    let missing := (← get).handlers.toList.filter fun (_, h) => !h.emitted
    failForLeast (missing.map Prod.fst) .handlerNotReached

end Lowering

/-! ## Scripts -/

def State.after (f : Function) (s : State) (step : Lowering Unit) : Except Defect State :=
  match step f s with
  | (.ok (), s) => .ok s
  | (.error d, _) => .error d

def State.start (f : Function) (r : Registry) : Except Defect State :=
  State.after f { registry := r, pool := SlotPool.new f.slotBase } Lowering.start

/-- A step of a script: an instruction offset with the snapshot as it is or with the types stated
there, an operation, or steps done several times. -/
inductive Step where
  | here (offset : Int)
  | atTypes (offset : Int) (types : List TypeSpec)
  | perform (operation : Operation)
  | repeated (count : Nat) (steps : List Step)
deriving Inhabited

/-- The snapshot of types as they are spelled, from the bottom up. -/
def Lowering.resolveSnapshot (types : List TypeSpec) : Lowering Snapshot := fun _ s =>
  match types.mapM TypeSpec.resolve s.registry with
  | .ok (ts, registry) => (.ok (Snapshot.ofTypes ts), { s with registry })
  | .error d => (.error d, s)

mutual

def Step.run : Step → Lowering Unit
  | .here offset => do Lowering.atOffset offset (← Lowering.stack)
  | .atTypes offset types => do Lowering.atOffset offset (← Lowering.resolveSnapshot types)
  | .perform op => op.perform
  | .repeated count steps => Lowering.times count (Step.runAll steps)

def Step.runAll : List Step → Lowering Unit
  | [] => pure ()
  | s :: rest => do
    s.run
    Step.runAll rest

end

def State.step (f : Function) (s : State) (step : Step) : Except Defect State :=
  s.after f step.run

/-- Why no method came of a function. -/
inductive FinishError where
  | failed (f : Failure)
  | build (function : String) (e : BuildError)
  | verify (function : String) (e : VerifyError)
deriving Repr, Inhabited

def FinishError.message : FinishError → String
  | failed f => f.message
  | build name e => "lower: build " ++ name ++ ": " ++ e.message
  | verify name e => "lower: " ++ name ++ ": " ++ e.message

/-- The method of a function whose operations have been performed. -/
def State.finish (f : Function) (s : State) : Except Defect (Except FinishError Method) := do
  let s ← s.after f Lowering.complete
  return do
    if let some failure := s.failure then throw (.failed failure)
    let m ← (s.assembler.build f.owner f.name (f.params s.registry) s.pool.maxLocals).mapError
      (.build f.name)
    if f.verify then (Machine.verify m).mapError (.verify f.name) else return m

/-- Lower a function given by its steps: the method or the error, and the registry with the types
met on the way. -/
def lowerFunction (f : Function) (r : Registry) (steps : List Step) :
    Except Defect (Except FinishError Method × Registry) := do
  let s ← State.start f r
  let s ← s.after f (Step.runAll steps)
  return (← s.finish f, s.registry)

end HostLowering.Lower
