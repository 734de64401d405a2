import HostLowering.Proofs.Lower.Frames

set_option autoImplicit false

/-! # The history of a pool of slots

What a pool of slots answers is determined by what it has handed out and got back. A `SlotPool.Log`
records that, and says without the pool which temporaries are live, which slots are persistent and
what each was last taken for. `Represents` ties a pool to its log. Every call keeps the tie
(`Represents.perform`), although persistent slots are taken where temporaries have been before. Numbers
are consecutive in 64 bits only, so the slot behind the one with the greatest number has the least one.
-/

namespace HostLowering.Lower.SlotPool

open Machine

/-! ## Calls and what comes of them -/

/-- A call on a pool. -/
inductive Call where
  | reserve (k : Kind)
  | alloc (k : Kind)
  | free (slot : Int)
deriving DecidableEq, Repr

/-- What a call has done. -/
inductive Event where
  | reserved (slot : Int) (k : Kind)
  | allocated (slot : Int) (k : Kind)
  | freed (slot : Int)
deriving DecidableEq, Repr

/-- What calls have done, the latest first. -/
abbrev Log := List Event

/-- One more call on a pool with its log. -/
def Call.perform (state : Log × SlotPool) : Call → Except Defect (Log × SlotPool)
  | reserve k => do
    let (slot, p) ← state.2.reserve k
    return (.reserved slot k :: state.1, p)
  | alloc k =>
    let (slot, p) := state.2.alloc k
    return (.allocated slot k :: state.1, p)
  | free slot => return (.freed slot :: state.1, ← state.2.free slot)

/-- Calls on a new pool, as long as none of them is a defect. -/
def after (base : Int) (calls : List Call) : Except Defect (Log × SlotPool) :=
  calls.foldlM Call.perform ([], .new base)

namespace Log

/-- The temporaries that were handed out and did not come back since, the latest first. -/
def temporaries : Log → List Int
  | [] => []
  | .reserved _ _ :: log => temporaries log
  | .allocated slot _ :: log => slot :: temporaries log
  | .freed slot :: log => (temporaries log).erase slot

/-- The persistent slots, the latest first. -/
def persistent : Log → List Int
  | [] => []
  | .reserved slot _ :: log => slot :: persistent log
  | .allocated _ _ :: log | .freed _ :: log => persistent log

/-- The slots that were handed out, with what for. -/
def taken : Log → List (Int × Kind)
  | [] => []
  | .reserved slot k :: log | .allocated slot k :: log => (slot, k) :: taken log
  | .freed _ :: log => taken log

/-- What a slot was last handed out for. -/
def lastKind (log : Log) (slot : Int) : Option Kind := log.taken.lookup slot

variable {log : Log} {i : Int}

end Log

/-! ## Numbers of 64 bits -/

theorem wrap64_eq_self_iff {n : Int} : wrap64 n = n ↔ -2 ^ 63 ≤ n ∧ n < 2 ^ 63 := by
  unfold wrap64
  rw [Int.bmod_def]
  omega

theorem wrap64_wrap64 (n : Int) : wrap64 (wrap64 n) = wrap64 n := Int.bmod_bmod

theorem wrap64_add (n m : Int) : wrap64 (wrap64 n + m) = wrap64 (n + m) := Int.bmod_add_bmod

theorem slotsFrom_last (b : Int) (n : Nat) : slotsFrom b (n + 1) = slotsFrom b n ++ [b + n] := by
  rw [slotsFrom_add, slotsFrom_succ]
  simp [slotsFrom]

/-- The number of locals that a log asks for: all below the base, and all that were handed out. -/
def Needs (number : Int → Int) (base : Int) (log : Log) : Int → Prop :=
  IsGreatest (insert base {n | ∃ t ∈ log.taken, n = number (t.1 + 1)})

/-- A pool is what its log says. -/
structure Represents (base : Int) (log : Log) (p : SlotPool) : Prop where
  live : p.live = log.temporaries
  reserved : p.reserved = log.persistent
  next : p.base = wrap64 (base + p.reserved.length)
  stacked : p.live.reverse = (slotsFrom (base + p.reserved.length) p.live.length).map wrap64
  settled : p.reserved.reverse = (slotsFrom base p.reserved.length).map wrap64
  words : ∀ t ∈ log.taken, wrap64 t.1 = t.1
  kinds : ∀ i, p.kind i = (log.lastKind i).getD .ref
  needs : Needs wrap64 base log p.maxLocals

variable {base : Int} {log log' : Log} {p p' : SlotPool} {k : Kind} {slot : Int}

/-- A slot that is handed out is asked for with those before it. -/
theorem Needs.take {number : Int → Int} {m : Int} (needs : Needs number base log m)
    (taken : log'.taken = (slot, k) :: log.taken) :
    Needs number base log' (max m (number (slot + 1))) := by
  have more : insert base {n | ∃ t ∈ log'.taken, n = number (t.1 + 1)} =
      insert (number (slot + 1)) (insert base {n | ∃ t ∈ log.taken, n = number (t.1 + 1)}) := by
    ext n
    simp only [taken, List.mem_cons, Set.mem_insert_iff, Set.mem_ofPred_eq, exists_eq_or_imp]
    tauto
  rw [Needs, more, max_comm]
  exact needs.insert _

/-- A slot that is handed out is known by what for. -/
theorem kind_take (kinds : ∀ i, p.kind i = (log.lastKind i).getD .ref)
    (taken : log'.taken = (slot, k) :: log.taken) (insert : p'.kinds = p.kinds.insert slot k) (i : Int) :
    p'.kind i = (log'.lastKind i).getD .ref := by
  rw [Log.lastKind, taken, kind, insert, Std.TreeMap.getD_insert]
  by_cases same : slot = i
  · subst same
    simp
  · rw [if_neg (by simpa using same), List.lookup_cons, beq_false_of_ne (Ne.symm same)]
    exact kinds i

theorem Represents.reserve (h : Represents base log p) (call : p.reserve k = .ok (slot, p')) :
    Represents base (.reserved slot k :: log) p' := by
  unfold SlotPool.reserve reserveBy at call
  split at call
  · rename_i empty
    cases call
    refine ⟨h.live, congrArg _ h.reserved, ?_, ?_, ?_, ?_, ?_, ?_⟩
    · simp only [h.next, wrap64_add, List.length_cons, Nat.cast_succ, Int.add_assoc]
    -- the base moves, and there is no temporary above it
    · simp [List.isEmpty_iff.mp empty, slotsFrom]
    · rw [List.reverse_cons, h.settled, List.length_cons, slotsFrom_last, List.map_append, h.next]
      rfl
    · exact List.forall_mem_cons.mpr ⟨by rw [h.next, wrap64_wrap64], h.words⟩
    · exact kind_take h.kinds rfl rfl
    · exact h.needs.take rfl
  · cases call

theorem Represents.alloc (h : Represents base log p) :
    Represents base (.allocated (p.alloc k).1 k :: log) (p.alloc k).2 where
  live := congrArg _ h.live
  __ := h
  stacked := by
    simp only [SlotPool.alloc, allocBy, List.reverse_cons, List.length_cons, h.stacked, slotsFrom_last,
      List.map_append, List.map_singleton, h.next, wrap64_add]
  words := List.forall_mem_cons.mpr ⟨wrap64_wrap64 _, h.words⟩
  kinds := kind_take h.kinds rfl rfl
  needs := h.needs.take rfl

theorem Represents.free (h : Represents base log p) (call : p.free slot = .ok p') :
    Represents base (.freed slot :: log) p' := by
  obtain ⟨rest, live, rfl⟩ := free_eq_ok call
  have stacked := h.stacked
  rw [live, List.reverse_cons, List.length_cons, slotsFrom_last, List.map_append] at stacked
  exact { h with
    live := by simp [Log.temporaries, ← h.live, live]
    stacked := (List.append_inj' stacked rfl).1 }

/-- A call that is no defect keeps the tie of a pool to its log. -/
theorem Represents.perform {c : Call} (h : Represents base log p)
    (call : c.perform (log, p) = .ok (log', p')) : Represents base log' p' := by
  cases c with
  | reserve k =>
    obtain ⟨taken, done, call⟩ := except_bind_eq_ok call
    cases call
    exact h.reserve done
  | alloc k =>
    cases call
    exact h.alloc
  | free slot =>
    obtain ⟨left, done, call⟩ := except_bind_eq_ok call
    cases call
    exact h.free done

/-- Below the greatest number of 64 bits, slots are numbered by the integers themselves. -/
theorem numbered_by_integers (low : -2 ^ 63 ≤ p.base) (room : p.base + p.live.length < 2 ^ 63 - 1) :
    p.alloc k = p.allocBy id k ∧ p.reserve k = p.reserveBy id k := by
  have same (n : Int) (le : p.base ≤ n) (lt : n ≤ p.base + p.live.length + 1) : wrap64 n = n :=
    wrap64_eq_self_iff.mpr (by omega)
  simp only [SlotPool.alloc, allocBy, SlotPool.reserve, reserveBy, id]
  rw [same (p.base + p.live.length) (by omega) (by omega), same (_ + _ + 1) (by omega) (by omega),
    same (p.base + 1) (by omega) (by omega)]
  exact ⟨rfl, rfl⟩

end HostLowering.Lower.SlotPool
