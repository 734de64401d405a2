import HostLowering.Library.BindError
import HostLowering.Object.Equality
import HostLowering.Object.Exception

set_option autoImplicit false

/-! # Binding arguments to functions

The arguments of a call in the order in which the body of a function takes them: the named
parameters, then the tuple of surplus positional arguments and the dict of unmatched keywords where
the function takes them.
-/

namespace HostLowering.Object

open Library

/-- The arguments bound so far: one place for each parameter, and the unmatched keywords. -/
structure Bound where
  named : List (Option Value)
  extra : List (Value × Value) := []
deriving DecidableEq, Repr, Inhabited

namespace Function

/-- Bind positional arguments from the left; the surplus is given as well. -/
def bindPositional (f : Function) (args : List Value) : Except BindError (Bound × List Value) :=
  let n := f.params.length
  if n < args.length ∧ !f.varArgs then .error (.tooManyPositional f.name n args.length)
  else
    let given := (args.take n).map some
    .ok (⟨given ++ List.replicate (n - given.length) none, []⟩, args.drop n)

/-- Bind keywords by name. A key that is no text counts as the empty name. -/
def bindKeywords (w : World) (f : Function) :
    List (Value × Value) → Bound → Except BindError Bound
  | [], b => .ok b
  | (key, v) :: rest, b =>
    let name := w.textOf key
    match f.params.idxOf? name with
    | some i =>
      if (b.named[i]?).join.isSome then .error (.multipleValues f.name name)
      else f.bindKeywords w rest { b with named := b.named.set i (some v) }
    | none =>
      if f.varKwargs then f.bindKeywords w rest { b with extra := w.putEntry key v b.extra }
      else .error (.unexpectedKeyword f.name name)

/-- The values of the parameters, with defaults for those that are not bound. -/
def fillDefaults (f : Function) : List (String × Option Value) → Except BindError (List Value)
  | [] => .ok []
  | (name, given) :: rest =>
    match given.or (f.defaults.get? name) with
    | some v => (f.fillDefaults rest).map (v :: ·)
    | none => .error (.missingArgument f.name name)

/-- Bind the arguments of a call: the values of the parameters, the surplus positional arguments
and the unmatched keywords. -/
def bindAll (w : World) (f : Function) (args : List Value) (keywords : List (Value × Value)) :
    Except BindError (List Value × List Value × List (Value × Value)) := do
  let (b, surplus) ← f.bindPositional args
  let b ← f.bindKeywords w keywords b
  let named ← f.fillDefaults (f.params.zip b.named)
  return (named, surplus, b.extra)

end Function

/-- The arguments of the body of a function for a call. -/
def Effect.bind (f : Function) (args : List Value) (keywords : List (Value × Value)) :
    Effect (List Value) := do
  match f.bindAll (← get) args keywords with
  | .error e => raise .typeError e.message
  | .ok (named, surplus, extra) =>
    let tuple ← if f.varArgs then pure [← newCopy .tuple surplus] else pure []
    let dict ← if f.varKwargs then pure [← alloc (.dict extra)] else pure []
    return named ++ tuple ++ dict

end HostLowering.Object
