import HostLowering.Catalog.Type
import HostLowering.Defect
import HostLowering.Library.BindError

set_option autoImplicit false

/-! # Binding arguments to signatures

Matching the arguments of a call with the parameters of a signature: positional arguments from the
left, then keywords by name, then defaults. Surplus positional arguments and unmatched keywords go
to the variadic parameters, where the signature has them. The result lists where each host argument
comes from.
-/

namespace HostLowering.Lower

open Machine Catalog Library

/-- Where a host argument comes from. -/
inductive HostArg (α : Type) where
  | given (param : Param) (value : α)
  | default (field : FieldRef)
  | null
  | surplus (values : List α)
  | keywords (entries : List (String × α))
deriving Repr, Inhabited

variable {α : Type}

/-- The values bound to parameters by keywords, those bound already first, and the keywords that
match no parameter in order. -/
def bindKeywords (s : Signature) : List (String × α) → List (Nat × α) → List (String × α) →
    Except BindError (List (Nat × α) × List (String × α))
  | [], bound, extra => .ok (bound, extra)
  | (name, value) :: rest, bound, extra =>
    match s.paramIndex? name with
    | some i =>
      if (bound.lookup i).isSome then .error (.multipleValues s.name name)
      else bindKeywords s rest (bound ++ [(i, value)]) extra
    | none =>
      if s.varKwargs.isSome then bindKeywords s rest bound (extra ++ [(name, value)])
      else .error (.unexpectedKeyword s.name name)

/-- One host argument that is not variadic. -/
def bindParam (s : Signature) (bound : List (Nat × α)) (i : Nat) :
    Except Defect (Except BindError (HostArg α)) := do
  let n := s.namedIndex i
  if n < 0 then throw .invalidAccess
  let p ← need s.params[n.toNat]?
  match bound.lookup n.toNat, p.defaultField with
  | some v, _ => return .ok (.given p v)
  | none, some f => return .ok (.default f)
  | none, none =>
    return if p.nullable then .ok .null else .error (.missingArgument s.name p.name)

/-- The host arguments in order, from the given host parameters. -/
def bindParams (s : Signature) (bound : List (Nat × α)) (surplus : List α)
    (extra : List (String × α)) : List Nat → Except Defect (Except BindError (List (HostArg α)))
  | [] => .ok (.ok [])
  | i :: rest => do
    let arg ← if s.varArgs = some i then .ok (.ok (.surplus surplus))
      else if s.varKwargs = some i then .ok (.ok (.keywords extra))
      else bindParam s bound i
    match arg with
    | .error e => return .error e
    | .ok a =>
      match ← bindParams s bound surplus extra rest with
      | .error e => return .error e
      | .ok args => return .ok (a :: args)

/-- Match positional and keyword arguments with the parameters of a signature. -/
def bind (s : Signature) (positional : List α) (keywords : List (String × α)) :
    Except Defect (Except BindError (List (HostArg α))) :=
  let count := s.params.length
  if count < positional.length ∧ s.varArgs = none then
    .ok (.error (.tooManyPositional s.name count positional.length))
  else
    let bound := (positional.take count).zipIdx.map fun (v, i) => (i, v)
    match bindKeywords s keywords bound [] with
    | .error e => .ok (.error e)
    | .ok (bound, extra) =>
      bindParams s bound (positional.drop count) extra (List.range s.arity)

end HostLowering.Lower
