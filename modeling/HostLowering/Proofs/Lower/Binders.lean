import HostLowering.Object.Binding
import HostLowering.Proofs.Lower.Call
import HostLowering.Proofs.Object.Answers

set_option autoImplicit false

/-! # The two binders

Arguments are bound in two places. When the callee is known, a call is bound while it is lowered
(`Lower.bind`), against a signature; otherwise it is bound when it runs (`Object.Effect.bind`),
against a function of the object world. `binders_agree` says that the two do the same whenever the
function is the one that the signature describes: they accept the same calls, deliver the same
arguments position by position, and refuse a call with the same words.

Both binders go through the same three stages, so the proof does as well. The state between the
stages is kept in different forms, a list of pairs here and a list with one place for each parameter
there; `places` turns the first into the second.
-/

namespace HostLowering.Object.World

/-- A key of a keyword dict is the text, as a string object or as a host text. -/
def Spells (w : World) (key : Value) (name : String) : Prop :=
  key = .text name ∨ w.str? key = some name

/-- An exception is of a class and carries a text as its only argument. -/
def Complains (w : World) (exception : Value) (c : ClassId) (text : String) : Prop :=
  ∃ fields args message, w.record? exception = some (c, fields) ∧ fields.get? "args" = some args ∧
    w.sequence? args = some (.tuple, [message]) ∧ w.str? message = some text

variable {w : World} {key key' : Value} {name name' : String}

theorem Spells.textOf (h : w.Spells key name) : w.textOf key = name := by
  rcases h with rfl | h
  · rfl
  · cases key with
    | object r => simp [World.textOf, h]
    | _ => cases h

theorem object?_of_str? (h : w.str? key = some name) : w.object? key = some (.str name) := by
  unfold World.str? at h
  split at h
  · rename_i s found
    cases h
    exact found
  · cases h

/-- Keys with different texts are different keys. -/
theorem equal_of_spells (h : w.Spells key name) (h' : w.Spells key' name') (ne : name ≠ name') :
    w.equal key key' = false := by
  have different : (key == key') = false := by
    rw [beq_eq_false_iff_ne]
    rintro rfl
    exact ne (h.textOf.symm.trans h'.textOf)
  -- a key is no integer: what is left to compare is the text of two objects
  have noInt {k : Value} {n : String} (hk : w.Spells k n) : w.int? k = none := by
    rcases hk with rfl | hk
    · rfl
    · have found := object?_of_str? hk
      cases k with
      | object r => simp [World.int?, found]
      | _ => cases found
  unfold World.equal
  rw [World.equalUpTo, different, noInt h, noInt h', Bool.false_or]
  rcases h with rfl | h
  · rfl
  · rw [object?_of_str? h]
    rcases h' with rfl | h'
    · rfl
    · rw [object?_of_str? h']
      simpa using ne

/-- Putting a key that is not there adds an entry at the end. -/
theorem putEntry_of_fresh (v : Value) {entries : List (Value × Value)}
    (fresh : ∀ e ∈ entries, w.equal e.1 key = false) :
    w.putEntry key v entries = entries ++ [(key, v)] := by
  induction entries with
  | nil => rfl
  | cons e rest ih =>
    rw [World.putEntry, fresh e List.mem_cons_self, if_neg Bool.false_ne_true,
      ih fun e he => fresh e (List.mem_cons_of_mem _ he), List.cons_append]

/-! ## New objects -/

theorem Spells.push (h : w.Spells key name) (new : Entity) : (w.push new).Spells key name := by
  refine h.imp_right fun h => ?_
  simp [World.str?, object?_push new (object?_of_str? h)]

theorem raise_complains {α : Type} (w : World) (c : ClassId) (text : String) :
    ∃ exception w', (Effect.raise c text : Effect α) w = (.error (.raised exception), w') ∧
      w'.Complains exception c text := by
  let place := (w.storage.add [.object ⟨w.heap.size⟩] 1).1
  let stored : World := { w.push (.str text) with
    storage := (w.storage.add [.object ⟨w.heap.size⟩] 1).2 }
  let listed := stored.push (.sequence .tuple place)
  let fields : Table String Value := ("args", .object ⟨stored.heap.size⟩) ::
    if stored.isSubclass c .stopIteration then [("value", (stored.items place).headD .none)] else []
  refine ⟨.object ⟨listed.heap.size⟩, listed.push (.record c fields), rfl, fields,
    .object ⟨stored.heap.size⟩, .object ⟨w.heap.size⟩, ?_, rfl, ?_, ?_⟩
  · simp only [World.record?, object?_push_self]
  · have tuple := object?_push (.record c fields) (object?_push_self stored (.sequence .tuple place))
    simp only [World.sequence?, World.window?, listed, tuple, Option.map_some]
    exact congrArg (fun items => some (SequenceKind.tuple, items)) (Storage.items_add _ _ _)
  · have message : stored.object? (.object ⟨w.heap.size⟩) = some (.str text) :=
      object?_push_self w (.str text)
    have kept := object?_push (.record c fields)
      (object?_push (.sequence .tuple place) message)
    simp only [World.str?, listed, kept]

end HostLowering.Object.World

namespace HostLowering.Lower

open Machine Catalog Library Object

variable {entries : List (Value × Value)} {p : Param}

/-! ## Signatures and their functions -/

/-- The signature with a tuple of surplus arguments and a dict of unmatched keywords behind its
parameters, as far as they are asked for. -/
def variadic (s : Signature) (args kwargs : Bool) : Signature :=
  let s := if args then s.withVarArgs else s
  if kwargs then s.withVarKwargs else s

/-- A function of the object world is the one that a signature describes. -/
structure Describes (s : Signature) (f : Object.Function) : Prop where
  name : f.name = s.name
  params : f.params = s.params.map Param.name
  varArgs : f.varArgs = s.varArgs.isSome
  varKwargs : f.varKwargs = s.varKwargs.isSome
  defaults : ∀ name, f.defaults.has name = true ↔
    ∃ p ∈ s.params, p.name = name ∧ p.isOptional = true

/-- Where the variadic parameters of a signature stand: behind the named ones, the tuple first. -/
structure Trailing (s : Signature) : Prop where
  varArgs : ∀ i, s.varArgs = some i → i = s.params.length
  varKwargs : ∀ i, s.varKwargs = some i →
    i = s.params.length + if s.varArgs.isSome then 1 else 0

section Signatures

variable {s : Signature} {f : Object.Function}

theorem params_variadic (s : Signature) (args kwargs : Bool) :
    (variadic s args kwargs).params = s.params := by
  cases args <;> cases kwargs <;> rfl

theorem trailing_variadic (noArgs : s.varArgs = none) (noKwargs : s.varKwargs = none)
    (args kwargs : Bool) : Trailing (variadic s args kwargs) := by
  cases args <;> cases kwargs <;>
    constructor <;> intro i h <;>
      simp_all [variadic, Signature.withVarArgs, Signature.withVarKwargs, Signature.arity]

theorem Trailing.namedIndex (trailing : Trailing s) {i : Nat} (lt : i < s.params.length) :
    s.namedIndex i = i := by
  have before {v : Option Nat} (h : ∀ j, v = some j → s.params.length ≤ j) :
      v.any (· < i) = false := by
    cases v with
    | none => rfl
    | some j =>
      have := h j rfl
      simp only [Option.any_some, decide_eq_false_iff_not]
      omega
  have args := before fun j h => (trailing.varArgs j h).ge
  have kwargs : s.varKwargs.any (· < i) = false := before fun j h => by
    have := trailing.varKwargs j h
    omega
  simp [Signature.namedIndex, args, kwargs]

/-- The host parameters: the named ones, then the variadic ones. -/
theorem Trailing.range_arity (trailing : Trailing s) :
    List.range s.arity = List.range s.params.length ++ (s.varArgs.toList ++ s.varKwargs.toList) := by
  unfold Signature.arity
  have args := trailing.varArgs
  have kwargs := trailing.varKwargs
  cases ha : s.varArgs with
  | none =>
    cases hk : s.varKwargs with
    | none => simp
    | some j =>
      have last : j = s.params.length := by simpa [ha] using kwargs j hk
      simp [last, List.range_succ]
  | some i =>
    have first : i = s.params.length := args i ha
    cases hk : s.varKwargs with
    | none => simp [first, List.range_succ]
    | some j =>
      have last : j = s.params.length + 1 := by simpa [ha] using kwargs j hk
      simp [first, last, List.range_succ]

theorem Describes.idxOf? (like : Describes s f) (name : String) :
    f.params.idxOf? name = s.paramIndex? name := by
  rw [like.params, List.idxOf?, List.findIdx?_map]
  rfl

theorem paramIndex?_lt {name : String} {i : Nat} (h : s.paramIndex? name = some i) :
    i < s.params.length :=
  (List.findIdx?_eq_some_iff_findIdx_eq.mp h).1

/-- A parameter has a default exactly when it may be left out. -/
theorem Describes.default? (like : Describes s f) (distinct : (s.params.map Param.name).Nodup)
    (mem : p ∈ s.params) : (f.defaults.get? p.name).isSome = p.isOptional := by
  rw [Bool.eq_iff_iff]
  refine (like.defaults p.name).trans ⟨?_, fun optional => ⟨p, mem, rfl, optional⟩⟩
  rintro ⟨q, memQ, same, optional⟩
  exact List.inj_on_of_nodup_map distinct memQ mem same ▸ optional

end Signatures

/-! ## The places of the parameters -/

variable {α : Type} {ν : α → Value}

/-- The values bound to the first parameters, one place for each of them. -/
def places (ν : α → Value) (n : Nat) (bound : List (Nat × α)) : List (Option Value) :=
  (List.range n).map fun i => (bound.lookup i).map ν

section Places

variable {n i : Nat} {bound : List (Nat × α)}

theorem getElem?_places (lt : i < n) : (places ν n bound)[i]? = some ((bound.lookup i).map ν) := by
  simp [places, lt]

theorem places_append (a : α) (free : bound.lookup i = none) :
    places ν n (bound ++ [(i, a)]) = (places ν n bound).set i (some (ν a)) := by
  apply List.ext_getElem?
  intro j
  rw [List.getElem?_set]
  by_cases lt : j < n
  · rw [getElem?_places lt, getElem?_places lt, List.lookup_append]
    by_cases same : i = j
    · subst same
      simp [places, lt, free]
    · have other : (j == i) = false := beq_eq_false_iff_ne.mpr (Ne.symm same)
      simp [same, List.lookup_cons, other]
  · simp only [places, List.length_map, List.length_range]
    grind

theorem lookup_zipIdx (xs : List α) (k i : Nat) :
    ((xs.zipIdx k).map fun (v, i) => (i, v)).lookup i = if k ≤ i then xs[i - k]? else none := by
  induction xs generalizing k with
  | nil => simp
  | cons x xs ih =>
    rw [List.zipIdx_cons, List.map_cons, List.lookup_cons]
    by_cases here : i = k
    · subst here
      simp
    · rw [beq_eq_false_iff_ne.mpr here]
      dsimp only
      rw [ih]
      by_cases le : k + 1 ≤ i
      · rw [if_pos le, if_pos (by omega), show i - k = (i - (k + 1)) + 1 by omega,
          List.getElem?_cons_succ]
      · rw [if_neg le, if_neg (by omega)]

theorem places_positional (ν : α → Value) (n : Nat) (positional : List α) :
    places ν n ((positional.take n).zipIdx.map fun (v, i) => (i, v)) =
      ((positional.map ν).take n).map some ++
        List.replicate (n - (((positional.map ν).take n).map some).length) none := by
  apply List.ext_getElem?
  intro j
  by_cases lt : j < n
  · rw [getElem?_places lt, lookup_zipIdx, if_pos (Nat.zero_le j), Nat.sub_zero]
    by_cases bound : j < positional.length
    · rw [List.getElem?_append_left (by simp; omega)]
      simp [bound, lt]
    · rw [List.getElem?_append_right (by simp; omega), List.getElem?_replicate,
        if_pos (by simp; omega), List.getElem?_eq_none (by simp; omega), Option.map_none]
  · rw [List.getElem?_eq_none (by simp [places]; omega), List.getElem?_eq_none (by simp; omega)]

end Places

/-! ## Keywords -/

/-- A keyword argument as it is given while lowering and as an entry of a keyword dict. -/
def SameKeyword (ν : α → Value) (w : World) (k : String × α) (e : Value × Value) : Prop :=
  w.Spells e.1 k.1 ∧ e.2 = ν k.2

section Stages

variable {s : Signature} {f : Object.Function} {w : World}

/-- A keyword that none of the earlier ones is has no entry yet. -/
theorem fresh_of_sameKeyword {extra : List (String × α)} {key : Value} {name : String}
    (old : List.Forall₂ (SameKeyword ν w) extra entries) (spells : w.Spells key name)
    (new : name ∉ extra.map Prod.fst) : ∀ e ∈ entries, w.equal e.1 key = false := by
  induction old with
  | nil => simp
  | @cons k e extra entries here _ ih =>
    rw [List.map_cons, List.mem_cons, not_or] at new
    intro e' he
    rcases List.mem_cons.mp he with rfl | he
    · exact World.equal_of_spells here.1 spells (Ne.symm new.1)
    · exact ih new.2 e' he

/-- Both binders meet the keywords in order, with the same outcome. -/
theorem bindKeywords_agree (like : Describes s f) (bound : List (Nat × α))
    {keywords extra : List (String × α)} {given : List (Value × Value)}
    (same : List.Forall₂ (SameKeyword ν w) keywords given)
    (old : List.Forall₂ (SameKeyword ν w) extra entries)
    (distinct : ((extra ++ keywords).map Prod.fst).Nodup) :
    match bindKeywords s keywords bound extra with
    | .error e => f.bindKeywords w given ⟨places ν s.params.length bound, entries⟩ = .error e
    | .ok (bound', extra') => ∃ entries', List.Forall₂ (SameKeyword ν w) extra' entries' ∧
        f.bindKeywords w given ⟨places ν s.params.length bound, entries⟩ =
          .ok ⟨places ν s.params.length bound', entries'⟩ := by
  induction same generalizing bound extra entries with
  | nil => exact ⟨entries, old, rfl⟩
  | @cons k e keywords given here _ ih =>
    obtain ⟨name, a⟩ := k
    obtain ⟨key, v⟩ := e
    obtain ⟨spells, rfl⟩ := here
    rw [bindKeywords, Object.Function.bindKeywords, spells.textOf, like.idxOf?]
    cases index : s.paramIndex? name with
    | some i =>
      -- the keyword names a parameter, which must be free
      have lt := paramIndex?_lt index
      dsimp only
      rw [getElem?_places lt, Option.join_some, Option.isSome_map]
      by_cases taken : (bound.lookup i).isSome = true
      · rw [if_pos taken, if_pos taken, like.name]
      · rw [if_neg taken, if_neg taken,
          ← places_append a (Option.not_isSome_iff_eq_none.mp taken)]
        refine ih _ old (distinct.sublist ?_)
        exact ((List.Sublist.refl extra).append (List.sublist_cons_self _ _)).map _
    | none =>
      dsimp only
      rw [like.varKwargs]
      by_cases more : s.varKwargs.isSome = true
      · rw [if_pos more, if_pos more]
        have new : name ∉ extra.map Prod.fst := by
          intro mem
          rw [List.map_append, List.nodup_append] at distinct
          exact distinct.2.2 name mem name (by simp) rfl
        rw [World.putEntry_of_fresh _ (fresh_of_sameKeyword old spells new)]
        refine ih _ (List.rel_append old (.cons ⟨spells, rfl⟩ .nil)) ?_
        rwa [List.append_assoc, List.singleton_append]
      · rw [if_neg more, if_neg more, like.name]

/-! ## Parameters -/

/-- The host argument at a position and the value that the body of a function gets there. -/
inductive Delivers (s : Signature) (f : Object.Function) (ν : α → Value) (w : World) (i : Nat) :
    HostArg α → Value → Prop where
  | given {p : Param} {a : α} (param : s.params[i]? = some p) : Delivers s f ν w i (.given p a) (ν a)
  | default {p : Param} {field : FieldRef} {v : Value} (param : s.params[i]? = some p)
      (held : p.defaultField = some field) (known : f.defaults.get? p.name = some v) :
      Delivers s f ν w i (.default field) v
  | null {p : Param} {v : Value} (param : s.params[i]? = some p) (unheld : p.defaultField = none)
      (nullable : p.nullable = true) (known : f.defaults.get? p.name = some v) :
      Delivers s f ν w i .null v
  | surplus {as : List α} {v : Value} (place : s.varArgs = some i)
      (tuple : w.sequence? v = some (.tuple, as.map ν)) : Delivers s f ν w i (.surplus as) v
  | keywords {es : List (String × α)} {entries : List (Value × Value)} {v : Value}
      (place : s.varKwargs = some i) (dict : w.dict? v = some entries)
      (same : List.Forall₂ (SameKeyword ν w) es entries) : Delivers s f ν w i (.keywords es) v

/-- The host arguments from a position on and the values that the body of a function gets there. -/
def DeliversFrom (s : Signature) (f : Object.Function) (ν : α → Value) (w : World) (k : Nat)
    (args : List (HostArg α)) (values : List Value) : Prop :=
  List.Forall₂ (fun (x : HostArg α × Nat) v => Delivers s f ν w x.2 x.1 v) (args.zipIdx k) values

/-- What a parameter gets: the value bound to it, its default, or null. -/
def paramArg (s : Signature) (p : Param) (given : Option α) : Except BindError (HostArg α) :=
  match given, p.defaultField with
  | some v, _ => .ok (.given p v)
  | none, some f => .ok (.default f)
  | none, none => if p.nullable then .ok .null else .error (.missingArgument s.name p.name)

theorem bindParam_eq {bound : List (Nat × α)} {i : Nat} (trailing : Trailing s)
    (param : s.params[i]? = some p) :
    bindParam s bound i = .ok (paramArg s p (bound.lookup i)) := by
  have lt : i < s.params.length := (List.getElem?_eq_some_iff.mp param).1
  unfold bindParam paramArg
  rw [trailing.namedIndex lt]
  dsimp only
  rw [if_neg (by omega), Int.toNat_natCast, param]
  cases bound.lookup i <;> cases held : p.defaultField <;>
    simp [need, Bind.bind, Except.bind, pure, Except.pure, held]

/-- One parameter gets the same from both binders. -/
theorem paramArg_agrees (like : Describes s f) (distinct : (s.params.map Param.name).Nodup)
    {i : Nat} (param : s.params[i]? = some p) (given : Option α) :
    match paramArg s p given with
    | .ok a => ∃ v, (given.map ν).or (f.defaults.get? p.name) = some v ∧ Delivers s f ν w i a v
    | .error e => (given.map ν).or (f.defaults.get? p.name) = none ∧
        e = .missingArgument f.name p.name := by
  have known := like.default? distinct (List.mem_of_getElem? param)
  cases given with
  | some a => exact ⟨ν a, rfl, .given param⟩
  | none =>
    rw [Option.map_none, Option.none_or]
    cases held : p.defaultField with
    | some field =>
      rw [Param.isOptional, held, Option.isSome_some, Bool.true_or, Option.isSome_iff_exists] at known
      obtain ⟨v, known⟩ := known
      simpa only [paramArg, held] using ⟨v, known, .default param held known⟩
    | none =>
      rw [Param.isOptional, held, Option.isSome_none, Bool.false_or] at known
      simp only [paramArg, held]
      by_cases nullable : p.nullable = true
      · rw [if_pos nullable]
        rw [nullable, Option.isSome_iff_exists] at known
        obtain ⟨v, known⟩ := known
        exact ⟨v, known, .null param held nullable known⟩
      · rw [if_neg nullable]
        rw [Bool.not_eq_true] at nullable
        rw [nullable, Option.isSome_eq_false_iff, Option.isNone_iff_eq_none] at known
        exact ⟨known, by rw [like.name]⟩

/-- A named parameter is bound first, then those behind it. -/
theorem bindParams_named {bound : List (Nat × α)} (surplus : List α) (extra : List (String × α))
    {i : Nat} (trailing : Trailing s) (param : s.params[i]? = some p) (rest : List Nat) :
    bindParams s bound surplus extra (i :: rest) =
      match paramArg s p (bound.lookup i) with
      | .error e => .ok (.error e)
      | .ok a => (bindParams s bound surplus extra rest).map (·.map (a :: ·)) := by
  have lt : i < s.params.length := (List.getElem?_eq_some_iff.mp param).1
  have noArgs : s.varArgs ≠ some i := fun h => by
    have := trailing.varArgs i h
    omega
  have noKwargs : s.varKwargs ≠ some i := fun h => by
    have := trailing.varKwargs i h
    omega
  rw [bindParams_cons, if_neg noArgs, if_neg noKwargs, bindParam_eq trailing param]
  cases paramArg s p (bound.lookup i) with
  | error e => rfl
  | ok a =>
    cases bindParams s bound surplus extra rest with
    | error d => rfl
    | ok outcome => cases outcome <;> rfl

/-- The variadic parameters behind the others take the surplus and the unmatched keywords. -/
theorem bindParams_variadic {bound : List (Nat × α)} (surplus : List α) (extra : List (String × α))
    (trailing : Trailing s) :
    bindParams s bound surplus extra (s.varArgs.toList ++ s.varKwargs.toList) =
      .ok (.ok (s.varArgs.toList.map (fun _ => .surplus surplus) ++
        s.varKwargs.toList.map fun _ => .keywords extra)) := by
  cases ha : s.varArgs with
  | none =>
    cases hk : s.varKwargs with
    | none => rfl
    | some j => simp [bindParams, ha, hk, Bind.bind, Except.bind, pure, Except.pure]
  | some i =>
    have first := trailing.varArgs i ha
    cases hk : s.varKwargs with
    | none => simp [bindParams, ha, Bind.bind, Except.bind, pure, Except.pure]
    | some j =>
      have last := trailing.varKwargs j hk
      have apart : i ≠ j := by simp [ha] at last; omega
      simp [bindParams, ha, hk, apart, Bind.bind, Except.bind, pure, Except.pure]

theorem zip_places (like : Describes s f) (bound : List (Nat × α)) :
    f.params.zip (places ν s.params.length bound) =
      s.params.zipIdx.map fun (p, i) => (p.name, (bound.lookup i).map ν) := by
  apply List.ext_getElem?
  intro j
  rw [like.params, List.getElem?_map, List.getElem?_zipIdx]
  by_cases lt : j < s.params.length
  · simp [places, lt]
  · rw [List.getElem?_eq_none (by simp; omega), List.getElem?_eq_none (by omega)]
    rfl

/-- Both binders go through the named parameters in order and stop at the first one that gets
nothing. Here the parameters from the `k`th one on. -/
theorem bindParams_agree (like : Describes s f) (distinct : (s.params.map Param.name).Nodup)
    (trailing : Trailing s) (bound : List (Nat × α)) (surplus : List α)
    (extra : List (String × α)) (tail : List Nat) (last : List (HostArg α))
    (ending : bindParams s bound surplus extra tail = .ok (.ok last)) (ps : List Param) (k : Nat)
    (here : ∀ j p, ps[j]? = some p → s.params[k + j]? = some p) :
    match f.fillDefaults ((ps.zipIdx k).map fun (p, i) => (p.name, (bound.lookup i).map ν)) with
    | .error e => bindParams s bound surplus extra (List.range' k ps.length ++ tail) = .ok (.error e)
    | .ok vals => ∃ args, bindParams s bound surplus extra (List.range' k ps.length ++ tail) =
        .ok (.ok (args ++ last)) ∧ args.length = ps.length ∧
          ∀ w, DeliversFrom s f ν w k args vals := by
  induction ps generalizing k with
  | nil => exact ⟨[], ending, rfl, fun _ => .nil⟩
  | cons p ps ih =>
    have param : s.params[k]? = some p := here 0 p rfl
    have rest := ih (k + 1) fun j q hq => by
      rw [Nat.add_assoc, Nat.add_comm 1 j]
      exact here (j + 1) q hq
    have first (w : World) :=
      paramArg_agrees (ν := ν) (w := w) like distinct param (bound.lookup k)
    rw [List.zipIdx_cons, List.map_cons, Object.Function.fillDefaults, List.length_cons,
      List.range'_succ, List.cons_append, bindParams_named surplus extra trailing param]
    cases found : paramArg s p (bound.lookup k) with
    | error e =>
      obtain ⟨nothing, rfl⟩ := found ▸ first {}
      simp only [nothing]
    | ok a =>
      obtain ⟨v, value, -⟩ := found ▸ first {}
      simp only [value]
      cases others : f.fillDefaults _ with
      | error e =>
        rw [others] at rest
        simp [rest, Except.map]
      | ok vals =>
        rw [others] at rest
        obtain ⟨args, bound', length, delivered⟩ := rest
        refine ⟨a :: args, by simp [bound', Except.map], congrArg (· + 1) length, fun w => ?_⟩
        obtain ⟨v', value', delivers⟩ := found ▸ first w
        cases value.symm.trans value'
        rw [DeliversFrom, List.zipIdx_cons]
        exact .cons delivers (delivered w)

/-! ## The whole -/

/-- What both binders do before the variadic parameters are made into objects. -/
theorem bindAll_agrees (like : Describes s f) (distinct : (s.params.map Param.name).Nodup)
    (trailing : Trailing s) (positional : List α) {keywords : List (String × α)}
    {given : List (Value × Value)} (same : List.Forall₂ (SameKeyword ν w) keywords given)
    (once : (keywords.map Prod.fst).Nodup) :
    match f.bindAll w (positional.map ν) given with
    | .error e => bind s positional keywords = .ok (.error e)
    | .ok (named, surplus, entries) => ∃ args rest extra, surplus = rest.map ν ∧
        List.Forall₂ (SameKeyword ν w) extra entries ∧ args.length = s.params.length ∧
        (∀ w, DeliversFrom s f ν w 0 args named) ∧
        bind s positional keywords = .ok (.ok (args ++
          (s.varArgs.toList.map (fun _ => .surplus rest) ++
            s.varKwargs.toList.map fun _ => .keywords extra))) := by
  have count : f.params.length = s.params.length := by rw [like.params, List.length_map]
  have variadic : (s.varArgs = none) ↔ (!f.varArgs) = true := by
    rw [like.varArgs]
    cases s.varArgs <;> simp
  unfold Object.Function.bindAll Object.Function.bindPositional Lower.bind
  dsimp only
  rw [count, List.length_map]
  by_cases many : s.params.length < positional.length ∧ s.varArgs = none
  · -- too many positional arguments, reported before anything else is looked at
    rw [if_pos many, if_pos ⟨many.1, variadic.mp many.2⟩, like.name]
    rfl
  · rw [if_neg many, if_neg fun h => many ⟨h.1, variadic.mpr h.2⟩]
    simp only [Bind.bind, Except.bind]
    rw [← places_positional]
    have keywordsAgree := bindKeywords_agree like
      ((positional.take s.params.length).zipIdx.map fun (v, i) => (i, v)) same .nil
      (by simpa using once)
    cases kept : bindKeywords s keywords ((positional.take s.params.length).zipIdx.map
        fun (v, i) => (i, v)) [] with
    | error e =>
      rw [kept] at keywordsAgree
      rw [keywordsAgree]
    | ok outcome =>
      obtain ⟨bound, extra⟩ := outcome
      rw [kept] at keywordsAgree
      obtain ⟨entries, extras, keywordsAgree⟩ := keywordsAgree
      have paramsAgree := bindParams_agree (ν := ν) like distinct trailing bound
        (positional.drop s.params.length) extra _ _
        (bindParams_variadic _ extra trailing) s.params 0 (by simp)
      rw [keywordsAgree]
      simp only [zip_places like, trailing.range_arity, List.range_eq_range']
      cases filled : f.fillDefaults _ with
      | error e =>
        rw [filled] at paramsAgree
        exact paramsAgree
      | ok named =>
        rw [filled] at paramsAgree
        obtain ⟨args, bound', length, delivered⟩ := paramsAgree
        exact ⟨args, positional.drop s.params.length, extra, by rw [List.map_drop], extras,
          length, delivered, bound'⟩

/-- The objects made for the variadic parameters. -/
theorem variadic_delivered (like : Describes s f) (trailing : Trailing s) (named : List Value)
    (rest : List α) {extra : List (String × α)}
    (same : List.Forall₂ (SameKeyword ν w) extra entries) :
    ∃ made w', (do
        let tuple ← if f.varArgs then pure [← Effect.newCopy .tuple (rest.map ν)] else pure []
        let dict ← if f.varKwargs then pure [← Effect.alloc (.dict entries)] else pure []
        return named ++ tuple ++ dict : Effect (List Value)) w = (.ok (named ++ made), w') ∧
      DeliversFrom s f ν w' s.params.length
        (s.varArgs.toList.map (fun _ => .surplus rest) ++
          s.varKwargs.toList.map fun _ => .keywords extra) made := by
  let copied : World := { w with storage := (w.storage.copy (rest.map ν)).2 }
  let tupled := copied.push (.sequence .tuple (w.storage.copy (rest.map ν)).1)
  have tuple : tupled.sequence? (.object ⟨w.heap.size⟩) = some (.tuple, rest.map ν) := by
    have found := World.object?_push_self copied (.sequence .tuple (w.storage.copy (rest.map ν)).1)
    simp only [World.sequence?, World.window?, tupled]
    rw [show w.heap.size = copied.heap.size from rfl, found]
    exact congrArg (fun items => some (SequenceKind.tuple, items)) (Storage.items_add _ _ _)
  have dict (w : World) : (w.push (.dict entries)).dict? (.object ⟨w.heap.size⟩) = some entries := by
    simp only [World.dict?, World.object?_push_self]
  have later {w w' : World} (step : ∀ key name, w.Spells key name → w'.Spells key name)
      (same : List.Forall₂ (SameKeyword ν w) extra entries) :
      List.Forall₂ (SameKeyword ν w') extra entries :=
    same.imp fun k e h => ⟨step _ _ h.1, h.2⟩
  have toCopied : ∀ key name, w.Spells key name → tupled.Spells key name := fun key name h => by
    have same : copied.Spells key name := h
    exact same.push _
  rw [like.varArgs, like.varKwargs]
  cases ha : s.varArgs with
  | none =>
    cases hk : s.varKwargs with
    | none => exact ⟨[], w, by simp; rfl, .nil⟩
    | some j =>
      have last : j = s.params.length := by simpa [ha] using trailing.varKwargs j hk
      refine ⟨[.object ⟨w.heap.size⟩], w.push (.dict entries), by simp; rfl, ?_⟩
      refine .cons (.keywords (last ▸ hk) (dict w) (later (fun _ _ h => h.push _) same)) .nil
  | some i =>
    obtain rfl := trailing.varArgs i ha
    cases hk : s.varKwargs with
    | none =>
      exact ⟨[.object ⟨w.heap.size⟩], tupled, by simp; rfl, .cons (.surplus ha tuple) .nil⟩
    | some j =>
      have last : j = s.params.length + 1 := by simpa [ha] using trailing.varKwargs j hk
      refine ⟨[.object ⟨w.heap.size⟩, .object ⟨tupled.heap.size⟩], tupled.push (.dict entries),
        by simp; rfl, ?_⟩
      -- the dict comes behind the tuple, which it leaves as it is
      have kept : (tupled.push (.dict entries)).sequence? (.object ⟨w.heap.size⟩) =
          some (.tuple, rest.map ν) := by
        have found : tupled.object? (.object ⟨w.heap.size⟩) = some _ :=
          World.object?_push_self copied (.sequence .tuple (w.storage.copy (rest.map ν)).1)
        simp only [World.sequence?, World.window?, World.object?_push _ found]
        exact congrArg (fun items => some (SequenceKind.tuple, items)) (Storage.items_add _ _ _)
      exact .cons (.surplus ha kept) (.cons (.keywords (last ▸ hk) (dict tupled)
        (later (fun _ _ h => h.push _) (later toCopied same))) .nil)

end Stages

/-- The two binders agree. A signature gets its variadic parameters behind the named ones, whose
names are distinct, and the function is the one it describes; the keywords have distinct names and
come in the same order. Then either both binders succeed, and the host arguments and the values that
the body gets correspond position by position, or both fail, and the exception that is raised has
the text of the error that is reported. -/
theorem binders_agree (s : Signature) (noArgs : s.varArgs = none) (noKwargs : s.varKwargs = none)
    (distinct : (s.params.map Param.name).Nodup) (args kwargs : Bool) (f : Object.Function)
    (like : Describes (variadic s args kwargs) f) (ν : α → Value) (w : World) (positional : List α)
    (keywords : List (String × α)) (once : (keywords.map Prod.fst).Nodup)
    (given : List (Value × Value)) (same : List.Forall₂ (SameKeyword ν w) keywords given) :
    (∃ hostArgs values w', bind (variadic s args kwargs) positional keywords = .ok (.ok hostArgs) ∧
        Effect.bind f (positional.map ν) given w = (.ok values, w') ∧
        DeliversFrom (variadic s args kwargs) f ν w' 0 hostArgs values) ∨
      ∃ e exception w', bind (variadic s args kwargs) positional keywords = .ok (.error e) ∧
        Effect.bind f (positional.map ν) given w = (.error (.raised exception), w') ∧
        w'.Complains exception .typeError e.message := by
  have trailing := trailing_variadic noArgs noKwargs args kwargs
  rw [← params_variadic s args kwargs] at distinct
  generalize variadic s args kwargs = s at *
  have agrees := bindAll_agrees like distinct trailing positional same once
  unfold Effect.bind
  simp only [Effect.bind_get]
  cases bound : f.bindAll w (positional.map ν) given with
  | error e =>
      rw [bound] at agrees
      obtain ⟨exception, w', raised, complains⟩ :=
        World.raise_complains (α := List Value) w .typeError e.message
      exact .inr ⟨e, exception, w', agrees, raised, complains⟩
  | ok result =>
      obtain ⟨named, surplus, entries⟩ := result
      rw [bound] at agrees
      obtain ⟨hostArgs, rest, extra, rfl, sameExtra, length, delivered, agrees⟩ := agrees
      obtain ⟨made, w', run, last⟩ := variadic_delivered like trailing named rest sameExtra
      refine .inl ⟨_, _, w', agrees, run, ?_⟩
      rw [DeliversFrom, List.zipIdx_append, Nat.zero_add, length]
      exact List.rel_append (delivered w') last

/-! ### A call with surplus arguments of both sorts -/

/-- Two parameters, of which the second may be left out. -/
def pairing : Signature where
  name := "pair"
  params := [{ name := "x" }, { name := "y", nullable := true }]

/-- The function that `pairing` describes when it takes surplus arguments. -/
def pairingFunction : Object.Function where
  name := "pair"
  params := ["x", "y"]
  defaults := [("y", .none)]
  varArgs := true
  varKwargs := true
  body := .builtin .skip

/-- A world with the keys of two keywords. -/
def keyed : World := { heap := #[.str "b", .str "a"] }

/-- The call `pair(1, 2, 3, b=4, a=5)`: the surplus tuple is `(3,)` and the surplus dict keeps the
order of the keywords. -/
theorem binders_agree_pairing :
    ∃ values w',
      Effect.bind pairingFunction [.word 1, .word 2, .word 3]
        [(.object ⟨0⟩, .word 4), (.object ⟨1⟩, .word 5)] keyed = (.ok values, w') ∧
      DeliversFrom (variadic pairing true true) pairingFunction id w' 0
        [.given { name := "x" } (.word 1), .given { name := "y", nullable := true } (.word 2),
          .surplus [.word 3], .keywords [("b", .word 4), ("a", .word 5)]] values := by
  have like : Describes (variadic pairing true true) pairingFunction := by
    refine ⟨rfl, rfl, rfl, rfl, fun name => ?_⟩
    simp [pairingFunction, pairing, variadic, Signature.withVarArgs, Signature.withVarKwargs,
      Table.has, Table.get?, Param.isOptional]
  have bound : bind (variadic pairing true true) [Value.word 1, .word 2, .word 3]
      [("b", .word 4), ("a", .word 5)] = .ok (.ok [.given { name := "x" } (.word 1),
        .given { name := "y", nullable := true } (.word 2), .surplus [.word 3],
        .keywords [("b", .word 4), ("a", .word 5)]]) := by rfl
  rcases binders_agree pairing rfl rfl (by decide) true true pairingFunction like id keyed
    [.word 1, .word 2, .word 3] [("b", .word 4), ("a", .word 5)] (by decide)
    [(.object ⟨0⟩, .word 4), (.object ⟨1⟩, .word 5)]
    (.cons ⟨.inr rfl, rfl⟩ (.cons ⟨.inr rfl, rfl⟩ .nil)) with
    ⟨hostArgs, values, w', agrees, run, delivered⟩ | ⟨e, exception, w', fails, -, -⟩
  · cases bound.symm.trans agrees
    exact ⟨values, w', run, delivered⟩
  · cases bound.symm.trans fails

end HostLowering.Lower
