import HostLowering.Object.Binding
import HostLowering.Object.Script

set_option autoImplicit false

/-! # Performing calls

The definition that closes the circle: a call of a value binds its arguments and calls a function,
or makes an instance; a call of a function runs its body, which performs calls in turn. Functions
can be nested up to a fixed depth; beyond it a call raises an error.
-/

namespace HostLowering.Object

/-- How deep calls of functions can be nested. -/
def depthLimit : Nat := 512

/-- How deep calls of any sort can be nested. -/
def nestingLimit : Nat := 0x4000

namespace Effect

def runBody (call : Caller) (f : Function) (args : List Value) : Effect Value :=
  match f.body with
  | .builtin b => builtin call b args
  | .lowered m => runMethod call m args
  | .generator m => alloc (.generator (.new m args))
  | .script label s => do
    logCall label args
    script call s args

/-- Perform a call inside `depth` calls of functions. -/
def performUpTo : Nat → Nat → Caller
  | 0, _, _ => throw .outOfFuel
  | n + 1, depth, .value callee args keywords => do
    match callee, (← get).object? callee with
    | .cls c, _ => instantiate (performUpTo n depth) c (← store args) keywords
    | _, some (.function f) =>
      let args ← bind f args keywords
      performUpTo n depth (.function f args)
    | _, some (.bound self f) => performUpTo n depth (.value f (self :: args) keywords)
    | _, _ => raise .typeError (Library.notCallable ((← get).typeName callee))
  | n + 1, depth, .function f args =>
    if depthLimit ≤ depth then raise .runtimeError "maximum recursion depth exceeded"
    else runBody (performUpTo n (depth + 1)) f args

def perform : Caller := performUpTo nestingLimit 0

end Effect

end HostLowering.Object
