import HostLowering.Lower.Control

set_option autoImplicit false

/-! # Generators

The body of a generator is one host method that takes the generator object first. Every call enters
it at the top, from where a jump to the dispatcher selects the place to continue by the state of the
generator. To suspend, the method saves the operand stack and the persistent locals in a list held
by the generator and returns.
-/

namespace HostLowering.Lower.Lowering

open Machine Catalog

/-! ## The generator object -/

def loadGenerator : Lowering Unit := loadRef 0

def readGenerator (f : FieldRef) : Lowering Unit := do
  loadGenerator
  getField f

/-- Pop the top of the stack into a field of the generator. -/
def writeGenerator (f : FieldRef) : Lowering Unit := do
  loadGenerator
  emit [.swap]
  putField f

def clearGenerator (f : FieldRef) : Lowering Unit := do
  loadGenerator
  emit [.aconstNull]
  putField f

def setState (n : Int) : Lowering Unit := do
  loadGenerator
  pushInt n
  putField Library.generatorState

/-- Do a step that only a generator can do. -/
def inGenerator (step : Lowering Unit) : Lowering Unit := do
  if (← read).generator then step else fail (.outsideGenerator (← get).operation)

/-! ## Frames -/

/-- The locals that survive a suspension: the source locals and the persistent slots. -/
def frameSlots : Lowering (List Int) := do
  let f ← read
  return (List.range f.locals.size).map (fun (i : Nat) => f.hostLocal i) ++ (← get).pool.persistent

/-- The host class that a local of the frame is restored as. -/
def frameClass (i : Int) : Lowering String := do
  let f ← read
  let n := i - f.localBase
  if 0 ≤ n ∧ n < f.locals.size then hostClassOf (f.locals[n.toNat]?).join
  else return Library.objectClass

/-- Why the function cannot suspend here: it holds a value that is not a reference. -/
def suspendError? (frame : List Int) : Lowering (Option Cause) := do
  let f ← read
  let s ← get
  let primitive (k : Kind) : Option Kind := if k = .ref then none else some k
  let slot := s.stack.reverse.findSome? fun x => primitive (x.kind s.registry)
  let persistent := (frame.filter fun i => f.slotBase ≤ i).findSome? fun i =>
    primitive (s.pool.kind i)
  let declared := f.locals.toList.findSome? fun t => t.bind fun t => primitive (s.registry.kind t)
  return (slot.map Cause.suspendSlot).or ((persistent.or declared).map Cause.suspendLocal)

/-- Save the operand stack, from the bottom up, and the frame in a new list held by the generator,
and set the state to resume in. The host stack is empty afterwards. -/
def saveFrame (frame : List Int) (state : Int) : Lowering Unit := do
  let depth := (← stack).length
  newCollection Library.listClass (depth + frame.length)
  times depth (reverseAdd Library.listClass)
  frame.forM fun i => do
    emit [.dup]
    loadRef i
    invoke Library.listAdd
  writeGenerator Library.generatorStack
  setState state

def frameItem (i : Nat) (cls : String) : Lowering Unit := do
  readGenerator Library.generatorStack
  pushInt i
  invoke Library.listGet
  cast cls

/-- Push the saved operand stack. -/
def restoreStack (s : Snapshot) : Lowering Unit :=
  s.reverse.zipIdx.forM fun (slot, i) => do frameItem i (← hostClassOf slot.known)

/-- Load the saved locals. -/
def restoreFrame (p : ResumePoint) : Lowering Unit :=
  p.frame.zipIdx.forM fun (i, n) => do
    frameItem (p.stack.length + n) (← frameClass i)
    storeRef i

/-- Save the frame and do a step with the state and the frame saved, unless the function cannot
suspend here. -/
def suspend (step : Int → List Int → Lowering Unit) : Lowering Unit := do
  let state := (← get).nextState
  modify fun s => { s with nextState := state + 1 }
  let frame ← frameSlots
  match ← suspendError? frame with
  | some c => fail c
  | none =>
    saveFrame frame state
    step state frame

/-- Mark a new label and resume there. -/
def resumeHere (state : Int) (frame : List Int) (frameOnly : Bool) : Lowering Unit := do
  let label ← newLabel
  mark label
  let stack ← stack
  modify fun s => { s with resumes := s.resumes.push { state, label, stack, frame, frameOnly } }

/-! ## Yielding -/

/-- Suspend with the top slot as the yielded value. On resumption the sent value replaces it; a
value thrown into the generator is raised. -/
def yield : Lowering Unit := inGenerator do
  writeGenerator Library.yieldedValue
  drop 1
  suspend fun state frame => do
    emit [.returnVoid]
    resumeHere state frame false
    pushType objectType
    let notThrown ← newLabel
    readGenerator Library.thrownValue
    emit [.dup]
    branch .ifnull notThrown
    clearGenerator Library.thrownValue
    emit [.athrow]
    mark notThrown
    emit [.pop]

/-- Call a function with one argument: `[fn x] -> [result]`. -/
def callWithOne : Lowering Unit := do
  packArguments 1
  callPacked

/-- Delegate to the iterator under the top slot until it is exhausted, forwarding what it yields and
what is sent or thrown in. The top slot is the first value to send. The result is the value that the
iterator returns. -/
def yieldFrom : Lowering Unit := inGenerator do
  writeGenerator Library.sentValue
  drop 1
  writeGenerator Library.yieldFromIterator
  drop 1
  suspend fun state frame => do
    let rest ← stack
    resumeHere state frame true
    let start ← newLabel
    let ended ← newLabel
    let exhausted ← newLabel
    let notThrown ← newLabel
    let noThrow ← newLabel
    let useNext ← newLabel
    let got ← newLabel
    mark start
    -- Something was thrown in: hand it to the iterator, if that can take it.
    readGenerator Library.thrownValue
    emit [.dup]
    branch .ifnull notThrown
    clearGenerator Library.thrownValue
    readGenerator Library.yieldFromIterator
    pushText "throw"
    invoke Library.getAttributeOrNull
    emit [.dup]
    branch .ifnull noThrow
    emit [.swap]
    callWithOne
    branch .goto got
    -- Something was sent: none advances the iterator, anything else is sent on.
    mark notThrown
    emit [.pop]
    readGenerator Library.sentValue
    emit [.dup]
    getStatic Library.noneField
    branch .ifAcmpeq useNext
    readGenerator Library.yieldFromIterator
    pushText "send"
    invoke Library.getAttributeOrError
    emit [.swap]
    callWithOne
    branch .goto got
    mark useNext
    emit [.pop]
    readGenerator Library.yieldFromIterator
    callUnary "__next__"
    mark got
    mark ended
    writeGenerator Library.yieldedValue
    setState state
    emit [.returnVoid]
    mark noThrow
    emit [.pop]
    clearGenerator Library.yieldFromIterator
    emit [.athrow]
    mark exhausted
    tryCatch start ended exhausted Library.stopIterationClass
    emitClass .checkcast Library.stopIterationClass
    invoke Library.stopIterationValue
    clearGenerator Library.yieldFromIterator
    let result ← allocRef
    storeRef result
    restoreStack rest
    loadRef result
    free result
    pushType objectType

/-- Advance the iterator under the top slot with the top slot as the sent value. A value it yields
replaces the sent one; when it is exhausted the value it returns replaces both and control continues
at the target. -/
def send (target : Int) : Lowering Unit := do
  let ts ← copyOut (← stack).length
  match ts with
  | value :: receiver :: rest =>
    let start ← newLabel
    let ended ← newLabel
    let exhausted ← newLabel
    let useNext ← newLabel
    let got ← newLabel
    let continued ← newLabel
    mark start
    loadTemp value
    getStatic Library.noneField
    branch .ifAcmpeq useNext
    loadTemp receiver
    pushText "send"
    invoke Library.getAttributeOrError
    loadTemp value
    callWithOne
    branch .goto got
    mark useNext
    loadTemp receiver
    callUnary "__next__"
    mark got
    mark ended
    emit [.swap, .pop]
    branch .goto continued
    mark exhausted
    tryCatch start ended exhausted Library.stopIterationClass
    emitClass .checkcast Library.stopIterationClass
    invoke Library.stopIterationValue
    let result ← allocRef
    storeRef result
    let yielding ← stack
    setStack []
    reload rest
    loadRef result
    pushType objectType
    free result
    jumpTo .goto target
    setStack yielding
    mark continued
    drop 1
    pushType objectType
    release ts
  | _ => defect .invalidAccess

/-! ## The end -/

/-- Finish the generator with the value on top of the host stack. -/
def finishGenerator : Lowering Unit := do
  writeGenerator Library.yieldedValue
  clearGenerator Library.generatorStack
  setState Library.stateFinished
  emit [.returnVoid]

/-- Finish the generator with the top slot as its result. -/
def endGenerator : Lowering Unit := inGenerator do
  finishGenerator
  drop 1
  stop

/-- Return the top slot. -/
def returnValue : Lowering Unit := do
  if (← read).generator then finishGenerator else emit [.areturn]
  drop 1
  stop

/-- One entry of the dispatcher: in the state of a resumption point, restore what was saved there
and continue. -/
def dispatchTo (p : ResumePoint) : Lowering Unit := do
  let next ← newLabel
  readGenerator Library.generatorState
  pushInt p.state
  branch .ifIcmpne next
  restoreFrame p
  unless p.frameOnly do
    restoreStack p.stack
    readGenerator Library.sentValue
  branch .goto p.label
  mark next

/-- The dispatcher: the start state begins the body with the sent value, every resumption point has
its entry, and any other state returns at once. -/
def emitDispatch (first : Nat) : Lowering Unit := do
  modify fun s => { s with operation := "Dispatch" }
  mark (← get).dispatch
  let next ← newLabel
  readGenerator Library.generatorState
  branch .ifne next
  readGenerator Library.sentValue
  branch .goto (← offsetLabel first)
  mark next
  (← get).resumes.toList.forM dispatchTo
  emit [.returnVoid]

end HostLowering.Lower.Lowering
