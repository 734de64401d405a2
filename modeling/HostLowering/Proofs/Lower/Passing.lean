import HostLowering.Proofs.Lower.Binders

set_option autoImplicit false

/-! # The ways of passing an argument

An argument reaches its parameter by position or under the parameter's name. Binding takes the two
ways in different loops, but only the values that the parameters get matter afterwards
(`bindParams_congr`). So an argument may move from one way to the other, and the keywords that match
parameters may come in any order (`bind_passing`).
-/

namespace HostLowering.Lower

open Catalog Library

variable {α : Type} {s : Signature} {bound bound' : List (Nat × α)}
  {keywords keywords' extra extra' : List (String × α)}

/-! ## Positional arguments as keywords -/

/-- The arguments from the left, each with the number of its parameter. -/
def numbered (args : List α) : List (Nat × α) :=
  args.zipIdx.map fun (v, i) => (i, v)

theorem numbered_append_singleton (args : List α) (a : α) :
    numbered (args ++ [a]) = numbered args ++ [(args.length, a)] := by
  simp [numbered, List.zipIdx_append]

theorem numbered_free (args : List α) : (numbered args).lookup args.length = none := by
  rw [numbered, lookup_zipIdx]
  simp

theorem nodup_numbered (args : List α) : ((numbered args).map Prod.fst).Nodup := by
  have range : (numbered args).map Prod.fst = List.range args.length := by
    simp [numbered, Function.comp_def, ← List.range_eq_range', List.zipIdx_map_snd]
  exact range ▸ List.nodup_range

/-- Among distinct names, the name of a parameter finds that parameter. -/
theorem paramIndex?_name (distinct : (s.params.map Param.name).Nodup) {i : Nat} {name : String}
    (h : (s.params.map Param.name)[i]? = some name) : s.paramIndex? name = some i := by
  obtain ⟨lt, rfl⟩ := List.getElem?_eq_some_iff.mp h
  rw [Signature.paramIndex?, List.findIdx?_eq_some_iff_getElem]
  refine ⟨by simpa using lt, by simp, ?_⟩
  intro j less same
  have equal : (s.params.map Param.name)[j] = (s.params.map Param.name)[i] := by simpa using same
  have := (distinct.getElem_inj_iff).mp equal
  omega

/-- Arguments under the names of the parameters that come next are bound as if by position. -/
theorem bindKeywords_next (distinct : (s.params.map Param.name).Nodup) (args done : List α)
    (keywords extra : List (String × α))
    (room : done.length + args.length ≤ s.params.length) :
    bindKeywords s (((s.params.map Param.name).drop done.length).zip args ++ keywords)
        (numbered done) extra =
      bindKeywords s keywords (numbered (done ++ args)) extra := by
  induction args generalizing done with
  | nil => simp
  | cons a args ih =>
    rw [List.length_cons] at room
    have lt : done.length < (s.params.map Param.name).length := by
      rw [List.length_map]
      omega
    have found := paramIndex?_name distinct (List.getElem?_eq_getElem lt)
    rw [List.drop_eq_getElem_cons lt, List.zip_cons_cons, List.cons_append, bindKeywords, found]
    simp only [numbered_free, Option.isSome_none, Bool.false_eq_true, if_false]
    rw [← numbered_append_singleton]
    have next := ih (done ++ [a]) (by rw [List.length_append, List.length_singleton]; omega)
    rw [List.length_append, List.length_singleton, List.append_assoc] at next
    exact next

/-! ## Keywords in another order -/

/-- The values that keywords give to parameters. -/
def matched (s : Signature) (keywords : List (String × α)) : List (Nat × α) :=
  keywords.filterMap fun (name, value) => (s.paramIndex? name).map (·, value)

/-- The keywords that match no parameter, in order. -/
def unmatched (s : Signature) (keywords : List (String × α)) : List (String × α) :=
  keywords.filter fun (name, _) => (s.paramIndex? name).isNone

theorem lookup_eq_none_iff_not_mem {i : Nat} :
    bound.lookup i = none ↔ i ∉ bound.map Prod.fst := by
  rw [List.lookup_eq_none_iff]
  simp only [List.mem_map, not_exists, not_and, bne_iff_ne, ne_eq, eq_comm (a := i)]

theorem lookup_isSome_iff_mem {i : Nat} : (bound.lookup i).isSome ↔ i ∈ bound.map Prod.fst := by
  rw [← not_iff_not, ← lookup_eq_none_iff_not_mem, Bool.not_eq_true, Option.isSome_eq_false_iff,
    Option.isNone_iff_eq_none]

/-- Binding keywords succeeds exactly when no parameter gets two values and the unmatched keywords,
if there are any, have a place to go; the result then is all of them in order. -/
theorem bindKeywords_eq_ok_iff (once : (bound.map Prod.fst).Nodup) :
    bindKeywords s keywords bound extra = .ok (bound', extra') ↔
      bound' = bound ++ matched s keywords ∧ extra' = extra ++ unmatched s keywords ∧
        (bound'.map Prod.fst).Nodup ∧ (unmatched s keywords ≠ [] → s.varKwargs.isSome) := by
  induction keywords generalizing bound extra with
  | nil =>
    simp only [bindKeywords, matched, unmatched, Except.ok.injEq, Prod.mk.injEq,
      List.filterMap_nil, List.filter_nil, List.append_nil, ne_eq, not_true, false_implies,
      and_true]
    constructor
    · rintro ⟨rfl, rfl⟩
      exact ⟨rfl, rfl, once⟩
    · rintro ⟨rfl, rfl, -⟩
      exact ⟨rfl, rfl⟩
  | cons k keywords ih =>
    obtain ⟨name, value⟩ := k
    cases index : s.paramIndex? name with
    | some i =>
      have first : matched s ((name, value) :: keywords) = (i, value) :: matched s keywords := by
        simp [matched, index]
      have same : unmatched s ((name, value) :: keywords) = unmatched s keywords := by
        simp [unmatched, index]
      rw [bindKeywords, index, first, same]
      dsimp only
      by_cases taken : i ∈ bound.map Prod.fst
      · rw [if_pos (lookup_isSome_iff_mem.mpr taken)]
        constructor
        · intro h
          cases h
        · rintro ⟨rfl, -, distinct, -⟩
          rw [List.map_append, List.map_cons, List.nodup_append] at distinct
          exact absurd rfl (distinct.2.2 i taken i List.mem_cons_self)
      · have fresh : ((bound ++ [(i, value)]).map Prod.fst).Nodup := by
          rw [List.map_append, List.map_singleton]
          exact once.append (List.nodup_singleton _) (by simpa using taken)
        rw [if_neg (mt lookup_isSome_iff_mem.mp taken), ih fresh, List.append_assoc,
          List.singleton_append]
    | none =>
      have same : matched s ((name, value) :: keywords) = matched s keywords := by
        simp [matched, index]
      have first : unmatched s ((name, value) :: keywords) =
          (name, value) :: unmatched s keywords := by
        simp [unmatched, index]
      rw [bindKeywords, index, first, same]
      dsimp only
      by_cases room : s.varKwargs.isSome
      · rw [if_pos room, ih once, List.append_assoc, List.singleton_append]
        simp [room]
      · rw [if_neg room]
        constructor
        · intro h
          cases h
        · rintro ⟨-, -, -, needed⟩
          exact absurd (needed (List.cons_ne_nil _ _)) room

/-- What the parameters get is all that matters of the values bound to them. -/
theorem bindParams_congr (same : ∀ i, bound.lookup i = bound'.lookup i) (surplus : List α)
    (extra : List (String × α)) (is : List Nat) :
    bindParams s bound surplus extra is = bindParams s bound' surplus extra is := by
  induction is with
  | nil => rfl
  | cons i is ih =>
    have param : bindParam s bound i = bindParam s bound' i := by
      unfold bindParam
      simp only [same]
    rw [bindParams_cons, bindParams_cons, ih, param]

/-- With one value for each parameter, the order of the values does not matter. -/
theorem lookup_perm (perm : bound.Perm bound') (once : (bound.map Prod.fst).Nodup) (i : Nat) :
    bound.lookup i = bound'.lookup i := by
  induction perm with
  | nil => rfl
  | cons e _ ih =>
    rw [List.lookup_cons, List.lookup_cons, ih (List.nodup_cons.mp once).2]
  | swap e e' l =>
    obtain ⟨m, v⟩ := e
    obtain ⟨n, v'⟩ := e'
    have differ : n ≠ m := by
      intro equal
      simp [equal] at once
    simp only [List.lookup_cons]
    by_cases here : i = m
    · simp [here, beq_eq_false_iff_ne.mpr differ.symm]
    · simp [beq_eq_false_iff_ne.mpr here]
  | trans first _ ih ih' =>
    rw [ih once, ih' ((first.map Prod.fst).nodup_iff.mp once)]

/-- Keywords in another order bind the same values, as long as the unmatched ones keep theirs. -/
theorem bindKeywords_perm (perm : keywords.Perm keywords')
    (order : unmatched s keywords' = unmatched s keywords) (once : (bound.map Prod.fst).Nodup)
    (h : bindKeywords s keywords bound extra = .ok (bound', extra')) :
    ∃ bound'', bindKeywords s keywords' bound extra = .ok (bound'', extra') ∧
      ∀ i, bound'.lookup i = bound''.lookup i := by
  obtain ⟨rfl, rfl, distinct, room⟩ := (bindKeywords_eq_ok_iff once).mp h
  have moved : (bound ++ matched s keywords).Perm (bound ++ matched s keywords') :=
    (perm.filterMap _).append_left _
  refine ⟨_, (bindKeywords_eq_ok_iff once).mpr ⟨rfl, ?_, ?_, ?_⟩, lookup_perm moved distinct⟩
  · rw [order]
  · exact (moved.map Prod.fst).nodup_iff.mp distinct
  · rwa [order]

/-! ## The result -/

/-- Arguments that fit the parameters are bound by position, then the keywords. -/
theorem bind_eq_of_fits {args : List α} (fits : args.length ≤ s.params.length) :
    bind s args keywords =
      match bindKeywords s keywords (numbered args) [] with
      | .error e => .ok (.error e)
      | .ok (bound, extra) => bindParams s bound [] extra (List.range s.arity) := by
  have enough : ¬(s.params.length < args.length ∧ s.varArgs = none) := by omega
  rw [bind]
  dsimp only
  rw [if_neg enough, List.take_of_length_le fits, List.drop_eq_nil_of_le fits]
  rfl

/-- Binding does not depend on how arguments are passed. Where the parameters have distinct names,
arguments that fit them give the same vector, or fail with the same error, whether those from
the `j`th on are passed by position or under the names of their parameters; further keywords may
follow. And a vector stays the same when the keywords come in another order, in which those that
match no parameter keep theirs. -/
theorem bind_passing (s : Signature) (distinct : (s.params.map Param.name).Nodup) :
    (∀ (args : List α) (j : Nat) (keywords : List (String × α)), args.length ≤ s.params.length →
      bind s (args.take j)
          (((s.params.map Param.name).drop j).zip (args.drop j) ++ keywords) =
        bind s args keywords) ∧
    ∀ (positional : List α) (keywords keywords' : List (String × α)) (vector : List (HostArg α)),
      keywords.Perm keywords' → unmatched s keywords' = unmatched s keywords →
      bind s positional keywords = .ok (.ok vector) →
      bind s positional keywords' = .ok (.ok vector) := by
  constructor
  · intro args j keywords fits
    by_cases inside : j ≤ args.length
    · have length : (args.take j).length = j := List.length_take_of_le inside
      have next := bindKeywords_next distinct (args.drop j) (args.take j) keywords []
        (by rw [← List.length_append, List.take_append_drop]; exact fits)
      rw [length, List.take_append_drop] at next
      rw [bind_eq_of_fits (length.le.trans (inside.trans fits)), bind_eq_of_fits fits, next]
    · have past : args.length ≤ j := by omega
      rw [List.take_of_length_le past, List.drop_eq_nil_of_le past, List.zip_nil_right,
        List.nil_append]
  · intro positional keywords keywords' vector perm order h
    rw [bind] at h ⊢
    dsimp only at h ⊢
    split at h
    · cases h
    · rename_i enough
      rw [if_neg enough]
      split at h
      · cases h
      · rename_i bound extra bindsKeywords
        obtain ⟨bound', moved, same⟩ :=
          bindKeywords_perm perm order (nodup_numbered _) bindsKeywords
        have run : bindKeywords s keywords'
            ((positional.take s.params.length).zipIdx.map fun (v, i) => (i, v)) [] =
              .ok (bound', extra) := moved
        rw [run, ← h]
        exact (bindParams_congr same _ _ _).symm

/-- Three parameters, of which the last has a default, and room for other keywords. -/
def tripling : Signature :=
  ({ name := "triple",
     params := [{ name := "x" }, { name := "y" }, { name := "z", nullable := true }] } :
    Signature).withVarKwargs

/-- `triple(1, 2, u=4, v=5)`, `triple(1, y=2, u=4, v=5)` and `triple(1, u=4, y=2, v=5)`. -/
theorem bind_passing_tripling :
    bind tripling [1] [("y", 2), ("u", 4), ("v", 5)] =
      bind tripling [1, 2] [("u", 4), ("v", 5)] ∧
    bind tripling [1] [("u", 4), ("y", 2), ("v", 5)] =
      .ok (.ok [.given { name := "x" } 1, .given { name := "y" } 2, .null,
        .keywords [("u", 4), ("v", 5)]]) := by
  obtain ⟨moved, permuted⟩ := bind_passing (α := Nat) tripling (by decide)
  exact ⟨moved [1, 2] 1 [("u", 4), ("v", 5)] (by decide),
    permuted [1] [("y", 2), ("u", 4), ("v", 5)] _ _ (.swap _ _ _) rfl rfl⟩

end HostLowering.Lower
