import HostLowering.Proofs.Object.Answers

set_option autoImplicit false

/-! # Code that follows an effect

What the code of an operation does is said by an effect: the world serves the requests of the code
one after the other as the effect would, and the code is stopped where the effect is
(`Exit.follow`). The effect of most operations begins with a call of what the class of a value has
under a name (`Effect.callOnClass`).
-/

namespace HostLowering.Object

open Machine

variable {α β : Type} {call : Caller} {pool : Pool} {line : Line} {code : List Line} {r : Request}
  {stack s : List Value} {locals : Array Value} {w w' : World} {x : Effect α} {a : α} {e : Stop}
  {op : Opcode} {m : MethodRef} {L : LibraryMethod}

/-- Go on with what an effect gives, or stop where it stops. -/
def Exit.follow (locals : Array Value) (x : Effect α) (k : α → World → Exit × World) (w : World) :
    Exit × World :=
  match x w with
  | (.ok a, w') => k a w'
  | (.error e, w') => (.stops e locals, w')

namespace Exit

variable {k : α → World → Exit × World}

theorem follow_ok (h : x w = (.ok a, w')) : follow locals x k w = k a w' := by
  rw [follow, h]

theorem follow_error (h : x w = (.error e, w')) : follow locals x k w = (.stops e locals, w') := by
  rw [follow, h]

theorem follow_pure : follow locals (pure a) k w = k a w := rfl

theorem follow_congr {k' : α → World → Exit × World} (same : ∀ a w, k a w = k' a w) :
    follow locals x k w = follow locals x k' w := by
  obtain rfl : k = k' := funext fun a => funext (same a)
  rfl

theorem follow_bind {f : α → Effect β} {k : β → World → Exit × World} :
    follow locals (x >>= f) k w = follow locals x (fun a => follow locals (f a) k) w := by
  cases eq : x w with
  | mk answer w' =>
    cases answer with
    | ok a => rw [follow_ok eq, follow, Effect.bind_ok eq, follow]
    | error e => rw [follow_error eq, follow_error (Effect.bind_error eq)]

end Exit

/-- A line that asks the world follows its answer. -/
theorem exec_request (asks : Act.ofLine pool stack locals line = .ask r s) :
    exec call pool (line :: code) none stack locals w = Exit.follow locals (Effect.serve call r)
      (fun v => exec call pool code none (if r.pushesAnswer then v :: s else s) locals) w := by
  cases served : Effect.serve call r w with
  | mk answer w' =>
    cases answer with
    | ok v => rw [exec_ask asks served, Exit.follow_ok served]
    | error e => rw [exec_stop asks served, Exit.follow_error served]

/-- An invocation of a library method follows that method. -/
theorem exec_invokes (like : (pool.method m).Like m) (invoke : op.isInvoke = true)
    (known : LibraryMethod.ofReference? m = some L) (args : List Value)
    (count : args.length = m.operandCount op) :
    exec call pool (.invoke op m :: code) none (args.reverse ++ stack) locals w =
      Exit.follow locals (Effect.library call L args)
        (fun v => exec call pool code none (if m.pushesResult then v :: stack else stack) locals)
        w := by
  rw [exec_request (ofLine_invoke like invoke args count), Exit.follow, serve_library like known,
    pushesAnswer_invoke like, Exit.follow]

/-- A static field is read. -/
theorem exec_static (honest : pool.Honest) {f : FieldRef} (plain : f.Plain) :
    exec call pool (.onField .getstatic f :: code) none stack locals w =
      Exit.follow locals (Effect.serve call (.getStatic f))
        (fun v => exec call pool code none (v :: stack) locals) w :=
  exec_request (by simp [Act.ofLine, Act.onField, honest.field plain])

/-- Call what the class of a value has under a name, with the value as its one argument. -/
def Effect.callOnClass (call : Caller) (v : Value) (name : String) : Effect Value := do
  let cls ← library call .getType [v]
  let method ← library call .getMethodOrError [cls, .text name]
  let args ← allocate Library.listClass
  let _ ← library call .addFirst [args, v]
  let function ← serve call (.cast Library.functionClass method)
  library call .call [function, args, .null, .null]

end HostLowering.Object
