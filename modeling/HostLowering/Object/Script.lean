import HostLowering.Object.Builtin

set_option autoImplicit false

/-! # Building and showing values, and scripted functions -/

namespace HostLowering.Object

/-! ## Showing -/

namespace World

/-- A value as it is shown, nested at most so deep inside the given objects. -/
def viewUpTo (w : World) : Nat → List Ref → Value → View
  | 0, _, _ => .cycle
  | n + 1, path, v =>
    match v with
    | .null => .null
    | .word n => .word n
    | .text s => .text s
    | .none => .none
    | .notImplemented => .notImplemented
    | .bool b => .bool b
    | .cls c => .cls (w.className c)
    | .object r =>
      if path.contains r then .cycle
      else
        let inside := w.viewUpTo n (r :: path)
        match w.heap[r.index]? with
        | none => .null
        | some (.record c fields) =>
          .record (w.className c) (fields.map fun (name, x) => (name, inside x))
        | some (.int n) => .int n
        | some (.str s) => .str s
        | some (.sequence .tuple place) => .tuple ((w.items place).map inside)
        | some (.sequence .list place) => .list ((w.items place).map inside)
        | some (.sequence .set place) => .set ((w.items place).map inside)
        | some (.dict entries) => .dict (entries.map fun (k, x) => (inside k, inside x))
        | some (.slice start stop step) => .slice (inside start) (inside stop) (inside step)
        | some (.function f) => .function f.name
        | some (.bound self f) => .bound (inside self) (inside f)
        | some (.iterator _) => .iterator
        | some (.generator _) => .generator

def view (w : World) (v : Value) : View := w.viewUpTo (w.heap.size + 1) [] v

end World

/-! ## Building -/

namespace Effect

def classNamed (name : String) : Effect ClassId := do require ((← get).byName.get? name)

mutual

def eval (call : Caller) : Expr → Effect Value
  | .null => return .null
  | .word n => return .word n
  | .text s => return .text s
  | .none => return .none
  | .notImplemented => return .notImplemented
  | .bool b => return .bool b
  | .int n => newInt n
  | .str s => newStr s
  | .list items => do newList (← evalAll call items)
  | .tuple items => do newTuple (← evalAll call items)
  | .dict entries => do alloc (.dict (← evalEntries call entries []))
  | .slice start stop step => do
    let a ← eval call start
    let b ← eval call stop
    let c ← eval call step
    alloc (.slice a b c)
  | .iterator items => do alloc (.iterator (← evalAll call items))
  | .bound self f => do
    let s ← eval call self
    let g ← eval call f
    alloc (.bound s g)
  | .cls name => return .cls (← classNamed name)
  | .exception name args => do newException (← classNamed name) (← evalAll call args)
  | .new name args => do
    let c ← classNamed name
    let args ← evalAll call args
    call (.value (.cls c) args [])
  | .var name => do require ((← get).vars.get? name)
  | .function name => do require ((← get).functions.get? name)

def evalAll (call : Caller) : List Expr → Effect (List Value)
  | [] => return []
  | e :: rest => do
    let v ← eval call e
    return v :: (← evalAll call rest)

/-- The entries of a dict, put behind those already there. -/
def evalEntries (call : Caller) :
    List (Expr × Expr) → List (Value × Value) → Effect (List (Value × Value))
  | [], entries => return entries
  | (k, x) :: rest, entries => do
    let key ← eval call k
    let v ← eval call x
    evalEntries call rest ((← get).putEntry key v entries)

end

/-! ## Scripts -/

def argument (args : List Value) (i : Int) : Effect Value :=
  if 0 ≤ i then require args[i.toNat]? else defect .invalidAccess

def raiseInstance (v : Value) : Effect Value := do
  let (_, _) ← require ((← get).record? v)
  throw (.raised v)

def codeNamed (name : String) : Effect Machine.Method := do require ((← get).code.get? name)

def logCall (label : String) (args : List Value) : Effect Unit :=
  modify fun w => { w with log := w.log.push (label, args.map w.view) }

/-- Do what a script says. -/
def script (call : Caller) (s : Script) (args : List Value) : Effect Value := do
  match s with
  | .give e => eval call e
  | .giveArgument i => argument args i
  | .giveArguments => newTuple args
  | .raise e => raiseInstance (← eval call e)
  | .raiseArgument i => raiseInstance (← argument args i)
  | .setField i name j =>
    let v ← argument args i
    let (c, fields) ← require ((← get).record? v)
    write v (.record c (fields.set name (← argument args j)))
    return .none
  | .getField i name =>
    let (_, fields) ← require ((← get).record? (← argument args i))
    return (fields.get? name).getD .null
  | .run name => runMethod call (← codeNamed name) args
  | .generate name => alloc (.generator (.new (← codeNamed name) args))
  | .call i js =>
    let f ← argument args i
    call (.value f (← js.mapM (argument args)) [])

end Effect

end HostLowering.Object
