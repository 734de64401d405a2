import HostLowering.Proofs.Machine.Paths

set_option autoImplicit false

/-! # What the verifier computes

The verifier accepts exactly the safe methods, and what it computes of them is the set of reached
states (`analyze_exact`).

The exploration enters an offset once, so the unknown offsets and the pending ones together get
fewer with every visit (`Analysis.work`), and it ends with nothing pending. The known states are all
reached (`Analysis.Sound`), and those that are no longer pending have their successors known
(`Analysis.Settled`), so at the end the known states are closed under the edges of the method.
-/

namespace HostLowering.Machine

/-! ## Known states -/

namespace Analysis

/-- The known depth before an offset. -/
def depthAt (a : Analysis) (pc : Nat) : Option Nat := (a.depth[pc]?).join

/-- The offsets of unknown depth together with the pending ones. -/
def work (a : Analysis) : Nat := a.depth.count none + a.pending.length

/-- The analysis with the depth before one more offset. -/
def learn (a : Analysis) (pc d : Nat) : Analysis where
  depth := a.depth.setIfInBounds pc (some d)
  pending := pc :: a.pending
  maxStack := max a.maxStack d

@[simp] theorem maxStack_learn (a : Analysis) (pc d : Nat) :
    (a.learn pc d).maxStack = max a.maxStack d := rfl

theorem depthAt_learn {a : Analysis} {pc : Nat} (lt : pc < a.depth.size) (d k : Nat) :
    (a.learn pc d).depthAt k = if pc = k then some d else a.depthAt k := by
  unfold depthAt learn
  rw [Array.getElem?_setIfInBounds]
  split <;> simp_all

theorem work_learn {a : Analysis} {pc : Nat} (lt : pc < a.depth.size) (new : a.depthAt pc = none)
    (d : Nat) : (a.learn pc d).work = a.work := by
  have unknown : a.depth[pc] = none := by simpa [depthAt, lt] using new
  have pos : 0 < a.depth.count none :=
    Array.count_pos_iff.mpr (unknown ▸ Array.getElem_mem lt)
  have removed : (a.depth.setIfInBounds pc (some d)).count none = a.depth.count none - 1 := by
    rw [Array.setIfInBounds_def, dif_pos lt, Array.count_set]
    simp [unknown]
  simp only [work, learn, removed, List.length_cons]
  omega

variable {m : Method} {starts : Array Bool} {a b c : Analysis}

/-- What is known is reached, and `maxStack` is its greatest depth. -/
structure Sound (m : Method) (a : Analysis) : Prop where
  size : a.depth.size = m.code.size
  reached : ∀ pc d, a.depthAt pc = some d → InstructionStart m.code pc ∧ Reaches m pc d
  pendingKnown : ∀ pc ∈ a.pending, ∃ d, a.depthAt pc = some d
  bounded : ∀ pc d, a.depthAt pc = some d → d ≤ a.maxStack
  attained : a.maxStack = 0 ∨ ∃ pc, a.depthAt pc = some a.maxStack

/-- From one analysis to a later one: known depths stay, offsets that became known are pending, and
the work has not grown. -/
structure Grows (a b : Analysis) : Prop where
  keeps : ∀ pc d, a.depthAt pc = some d → b.depthAt pc = some d
  fresh : ∀ pc d, b.depthAt pc = some d → a.depthAt pc = some d ∨ pc ∈ b.pending
  pending : ∀ pc ∈ a.pending, pc ∈ b.pending
  work : b.work ≤ a.work

theorem Grows.refl (a : Analysis) : Grows a a where
  keeps _ _ h := h
  fresh _ _ h := .inl h
  pending _ h := h
  work := le_rfl

theorem Grows.trans (ab : Grows a b) (bc : Grows b c) : Grows a c where
  keeps pc d h := bc.keeps pc d (ab.keeps pc d h)
  fresh pc d h := by
    rcases bc.fresh pc d h with h | h
    · exact (ab.fresh pc d h).imp_right (bc.pending pc)
    · exact .inr h
  pending pc h := bc.pending pc (ab.pending pc h)
  work := bc.work.trans ab.work

def Knows (a : Analysis) (pc : Int) (d : Nat) : Prop := ∃ n : Nat, pc = n ∧ a.depthAt n = some d

theorem Knows.mono {pc : Int} {d : Nat} (h : Knows a pc d) (ab : Grows a b) : Knows b pc d := by
  obtain ⟨n, rfl, h⟩ := h
  exact ⟨n, rfl, ab.keeps n d h⟩

theorem Sound.learn {pc d : Nat} (sound : Sound m a) (start : InstructionStart m.code pc)
    (reach : Reaches m pc d) (new : a.depthAt pc = none) : Sound m (a.learn pc d) := by
  have lt : pc < a.depth.size := sound.size ▸ start.lt
  have known := depthAt_learn lt d
  refine ⟨by simp [Analysis.learn, sound.size], fun k e h => ?_, fun k hk => ?_, fun k e h => ?_, ?_⟩
  · rw [known k] at h
    split at h
    · rename_i same
      cases h
      exact same ▸ ⟨start, reach⟩
    · exact sound.reached k e h
  · rw [known k]
    split
    · exact ⟨d, rfl⟩
    · rcases List.mem_cons.mp hk with rfl | hk
      · contradiction
      · exact sound.pendingKnown k hk
  · rw [known k] at h
    split at h
    · cases h
      exact le_max_right _ _
    · exact (sound.bounded k e h).trans (le_max_left _ _)
  · rcases Nat.le_total a.maxStack d with le | le
    · exact .inr ⟨pc, by rw [known pc, if_pos rfl, maxStack_learn, max_eq_right le]⟩
    · refine sound.attained.imp (fun h => ?_) (fun ⟨k, h⟩ => ⟨k, ?_⟩)
      · rw [maxStack_learn]
        omega
      · have other : pc ≠ k := by
          rintro rfl
          simp [new] at h
        rw [known k, if_neg other, maxStack_learn, max_eq_left le, h]

theorem Grows.learn {pc : Nat} (lt : pc < a.depth.size) (new : a.depthAt pc = none) (d : Nat) :
    Grows a (a.learn pc d) where
  keeps k e h := by
    have other : pc ≠ k := by
      rintro rfl
      simp [new] at h
    rw [depthAt_learn lt, if_neg other, h]
  fresh k e h := by
    rw [depthAt_learn lt] at h
    split at h
    · rename_i same
      exact .inr (same ▸ List.mem_cons_self)
    · exact .inl h
  pending _ h := List.mem_cons_of_mem _ h
  work := (work_learn lt new d).le

/-! ## The exploration

Each step either succeeds, with what it then knows, or fails, and then the method is not safe. -/

/-- Entering an instruction start compares the depths or learns a new one. -/
theorem enter_of_marked {n : Nat} (h : starts[n]? = some true) (source : Int) (d : Nat)
    (a : Analysis) : enter starts source n d a =
      match a.depthAt n with
      | some known => if known = d then .ok a else .error ⟨n, .depthMismatch known d⟩
      | none => .ok (a.learn n d) :=
  if_pos ⟨Int.natCast_nonneg n, h⟩

theorem enter_outcome (marked : ∀ i, starts[i]? = some true ↔ InstructionStart m.code i)
    (sound : Sound m a) {pc : Int} {d : Nat} (reach : Reaches m pc d) (source : Int) :
    (∃ b, enter starts source pc d a = .ok b ∧ Sound m b ∧ Grows a b ∧ Knows b pc d) ∨
      (∃ e, enter starts source pc d a = .error e) ∧ ¬ Safe m := by
  by_cases start : 0 ≤ pc ∧ starts[pc.toNat]? = some true
  · obtain ⟨n, rfl⟩ := Int.eq_ofNat_of_zero_le start.1
    have hn : starts[n]? = some true := start.2
    have hstart := (marked n).mp hn
    rw [enter_of_marked hn]
    cases known : a.depthAt n with
    | some k =>
      by_cases same : k = d
      · exact .inl ⟨a, if_pos same, sound, .refl a, n, rfl, same ▸ known⟩
      · refine .inr ⟨⟨_, if_neg same⟩, fun safe => same ?_⟩
        exact safe.agrees n k d (sound.reached n k known).2 reach
    | none =>
      have lt : n < a.depth.size := sound.size ▸ hstart.lt
      exact .inl ⟨a.learn n d, rfl, sound.learn hstart reach known, .learn lt known d, n, rfl,
        by rw [depthAt_learn lt, if_pos rfl]⟩
  · refine .inr ⟨⟨_, if_neg start⟩, fun safe => start ?_⟩
    obtain ⟨n, rfl, hn, -⟩ := safe.admissible pc d reach
    exact ⟨Int.natCast_nonneg n, (marked n).mpr hn⟩

/-- The instruction at a state may execute there, and the states that follow are known. -/
def Settled (m : Method) (a : Analysis) (pc d : Nat) : Prop :=
  Admissible m pc d ∧ ∀ pc' d', Edge m pc d pc' d' → Knows a pc' d'

theorem Settled.mono {pc d : Nat} (h : Settled m a pc d) (ab : Grows a b) : Settled m b pc d :=
  ⟨h.1, fun pc' d' edge => (h.2 pc' d' edge).mono ab⟩

/-- The instruction of a reached state. -/
structure Fetched (m : Method) (pc d : Nat) (i : Instruction) : Prop where
  start : InstructionStart m.code pc
  reach : Reaches m pc d
  decoded : instructionAt m.code pc = .ok i
  shape : i.operand.shape = i.opcode.shape

theorem Fetched.executable {pc d : Nat} {i : Instruction} (here : Fetched m pc d i)
    (safe : Safe m) : Executable m pc i d := by
  obtain ⟨n, hn, -, j, hj, exec⟩ := safe.admissible pc d here.reach
  obtain rfl : pc = n := Int.ofNat_inj.mp hn
  rw [here.decoded] at hj
  cases hj
  exact exec

section Follow

variable {pc d e needed : Nat} {i : Instruction} {effect : Int}
  (marked : ∀ i, starts[i]? = some true ↔ InstructionStart m.code i)
  (here : Fetched m pc d i) (use : Uses m i needed effect)
  (after : (e : Int) = d + effect)

include marked here use after

theorem enterTarget_outcome (sound : Sound m a) :
    (∃ b, enterTarget starts pc (pc + i.opcode.size) i.operand e a = .ok b ∧ Sound m b ∧
      Grows a b ∧ ∀ t, i.operand = .branch t → Knows b (↑(pc + i.opcode.size) + t) e) ∨
    (∃ err, enterTarget starts pc (pc + i.opcode.size) i.operand e a = .error err) ∧ ¬ Safe m := by
  cases operand : i.operand with
  | branch t =>
    have reach := here.reach.step (.branch here.decoded use operand after)
    refine (enter_outcome marked sound reach pc).imp_left fun ⟨b, ok, sound', grows, knows⟩ => ?_
    refine ⟨b, ok, sound', grows, fun t' same => ?_⟩
    cases same
    exact knows
  | plain | short | slot | increment | constant =>
    exact .inl ⟨a, rfl, sound, .refl a, fun t h => nomatch h⟩

theorem enterNext_outcome (sound : Sound m a) :
    (∃ b, enterNext m starts pc i.opcode e a = .ok b ∧ Sound m b ∧ Grows a b ∧
      (i.opcode.isTerminal = false →
        pc + i.opcode.size < m.code.size ∧ Knows b ↑(pc + i.opcode.size) e)) ∨
    (∃ err, enterNext m starts pc i.opcode e a = .error err) ∧ ¬ Safe m := by
  unfold enterNext
  cases terminal : i.opcode.isTerminal with
  | true => exact .inl ⟨a, rfl, sound, .refl a, fun h => nomatch h⟩
  | false =>
    have reach := here.reach.step (.next here.decoded use terminal after)
    by_cases off : m.code.size ≤ pc + i.opcode.size
    · refine .inr ⟨⟨_, by simp [off]; rfl⟩, fun safe => ?_⟩
      have := (here.executable safe).stays terminal
      omega
    · simp only [Bool.false_eq_true, if_false, off]
      refine (enter_outcome marked sound reach pc).imp_left
        fun ⟨b, ok, sound', grows, knows⟩ => ?_
      exact ⟨b, ok, sound', grows, fun _ => ⟨by omega, knows⟩⟩

end Follow

/-- Following a decoded instruction settles its state. -/
theorem follow_outcome (marked : ∀ i, starts[i]? = some true ↔ InstructionStart m.code i)
    (sound : Sound m a) {pc d : Nat} {i : Instruction} (here : Fetched m pc d i)
    (known : a.depthAt pc = some d) :
    (∃ b, follow m starts pc i a = .ok b ∧ Sound m b ∧ Grows a b ∧ Settled m b pc d) ∨
      (∃ e, follow m starts pc i a = .error e) ∧ ¬ Safe m := by
  have depth : (a.depth[pc]?).join.getD 0 = d := by
    unfold depthAt at known
    rw [known, Option.getD_some]
  unfold follow
  rw [depth]
  cases after : depthAfter m pc i d with
  | error e =>
    refine .inr ⟨⟨e, rfl⟩, fun safe => ?_⟩
    have exec := here.executable safe
    obtain ⟨needed, effect, use, enough⟩ := exec.operands
    have down := use.neg_needed_le
    have ok : depthAfter m pc i d = .ok (d + effect).toNat :=
      (depthAfter_eq_ok_iff here.shape).mpr
        ⟨needed, effect, use, enough, exec.inLocals, Int.toNat_of_nonneg (by omega)⟩
    simp [after] at ok
  | ok e =>
    obtain ⟨needed, effect, use, enough, inLocals, he⟩ :=
      (depthAfter_eq_ok_iff here.shape).mp after
    simp only [bind, Except.bind]
    rcases enterTarget_outcome marked here use he sound with
      ⟨b, hb, soundb, ab, target⟩ | ⟨⟨err, hb⟩, bad⟩
    · rw [hb]
      rcases enterNext_outcome marked here use he soundb with
        ⟨c, hc, soundc, bc, next⟩ | ⟨⟨err, hc⟩, bad⟩
      · refine .inl ⟨c, hc, soundc, ab.trans bc, ?_, fun pc' d' edge => ?_⟩
        · exact ⟨pc, rfl, here.start, i, here.decoded, ⟨needed, effect, use, enough⟩, inLocals,
            fun continues => (next continues).1⟩
        · rcases edge.resolve here.decoded use he with
            ⟨rfl, t, branch, rfl⟩ | ⟨rfl, continues, rfl⟩
          · exact (target t branch).mono bc
          · exact (next continues).2
      · exact .inr ⟨⟨err, hc⟩, bad⟩
    · rw [hb]
      exact .inr ⟨⟨err, rfl⟩, bad⟩

/-- Every known state that is not pending is settled. -/
def Explored (m : Method) (a : Analysis) : Prop :=
  ∀ pc d, a.depthAt pc = some d → pc ∉ a.pending → Settled m a pc d

/-- What the exploration ends with: nothing is pending. -/
structure Complete (m : Method) (a b : Analysis) : Prop where
  sound : Sound m b
  explored : Explored m b
  done : b.pending = []
  keeps : ∀ pc d, a.depthAt pc = some d → b.depthAt pc = some d

/-- One visit: the pending offset is settled and the work gets less. -/
theorem visit_outcome (whole : Splits m.code 0)
    (marked : ∀ i, starts[i]? = some true ↔ InstructionStart m.code i) (sound : Sound m a)
    (explored : Explored m a) {pc : Nat} {rest : List Nat} (first : a.pending = pc :: rest) :
    (∃ b, visit m starts pc { a with pending := rest } = .ok (.ok b) ∧ Sound m b ∧
      Explored m b ∧ (∀ pc d, a.depthAt pc = some d → b.depthAt pc = some d) ∧
      b.work < a.work) ∨
    (∃ e, visit m starts pc { a with pending := rest } = .ok (.error e)) ∧ ¬ Safe m := by
  have sound' : Sound m { a with pending := rest } := {
    __ := sound
    pendingKnown := fun k hk => sound.pendingKnown k (first ▸ List.mem_cons_of_mem pc hk) }
  obtain ⟨d, known⟩ := sound.pendingKnown pc (first ▸ List.mem_cons_self)
  obtain ⟨start, reach⟩ := sound.reached pc d known
  obtain ⟨i, decoded, -, shape, -⟩ := start.decodes whole
  simp only [visit, decoded, Except.map]
  rcases follow_outcome marked sound' ⟨start, reach, decoded, shape⟩ known with
    ⟨b, hb, soundb, grows, settled⟩ | ⟨⟨e, he⟩, bad⟩
  · refine .inl ⟨b, by rw [hb], soundb, fun k e hk notPending => ?_, grows.keeps, ?_⟩
    · have before := (grows.fresh k e hk).resolve_right notPending
      by_cases same : k = pc
      · subst same
        cases known.symm.trans before
        exact settled
      · have old : k ∉ a.pending := by
          rw [first, List.mem_cons]
          exact fun h => h.elim same (fun h => notPending (grows.pending k h))
        have settled : Settled m { a with pending := rest } k e := explored k e before old
        exact settled.mono grows
    · have := grows.work
      simp only [work, first, List.length_cons] at this ⊢
      omega
  · exact .inr ⟨⟨e, by rw [he]⟩, bad⟩

/-- The exploration ends with nothing pending, or finds the method unsafe. The bound suffices when
it is at least the work. -/
theorem explore_outcome (whole : Splits m.code 0)
    (marked : ∀ i, starts[i]? = some true ↔ InstructionStart m.code i) (bound : Nat)
    (sound : Sound m a) (explored : Explored m a) (enough : a.work ≤ bound) :
    (∃ b, explore m starts bound a = .ok (.ok b) ∧ Complete m a b) ∨
      (∃ e, explore m starts bound a = .ok (.error e)) ∧ ¬ Safe m := by
  induction bound generalizing a with
  | zero =>
    have done : a.pending = [] := List.length_eq_zero_iff.mp (by unfold work at enough; omega)
    exact .inl ⟨a, rfl, sound, explored, done, fun _ _ h => h⟩
  | succ bound ih =>
    unfold explore
    cases pending : a.pending with
    | nil => exact .inl ⟨a, rfl, sound, explored, pending, fun _ _ h => h⟩
    | cons pc rest =>
      rcases visit_outcome whole marked sound explored pending with
        ⟨b, hb, soundb, exploredb, keeps, less⟩ | ⟨⟨e, he⟩, bad⟩
      · simp only [hb]
        refine (ih soundb exploredb (by omega)).imp_left fun ⟨c, hc, complete⟩ => ?_
        exact ⟨c, hc, { complete with
          keeps := fun pc d h => complete.keeps pc d (keeps pc d h) }⟩
      · simp only [he]
        exact .inr ⟨⟨e, rfl⟩, bad⟩

/-! ## The entries -/

/-- Entering the targets of exception table entries. -/
theorem enterHandlers_outcome (marked : ∀ i, starts[i]? = some true ↔ InstructionStart m.code i)
    (hs : List Handler) (mem : ∀ h ∈ hs, h ∈ m.handlers) (sound : Sound m a) :
    (∃ b, hs.foldlM (enterHandler m starts) a = .ok b ∧ Sound m b ∧ Grows a b ∧
      ∀ h ∈ hs, h.Proper m ∧ Knows b h.target 1) ∨
    (∃ e, hs.foldlM (enterHandler m starts) a = .error e) ∧ ¬ Safe m := by
  induction hs generalizing a with
  | nil => exact .inl ⟨a, rfl, sound, .refl a, by simp⟩
  | cons h hs ih =>
    have memh := mem h List.mem_cons_self
    rw [List.foldlM_cons]
    by_cases proper : h.Proper m
    · have range : ¬ (h.start < 0 ∨ h.stop > m.code.size ∨ h.start ≥ h.stop) := by
        unfold Handler.Proper at proper
        omega
      rw [enterHandler, if_neg range]
      rcases enter_outcome marked sound (.handler memh) h.start with
        ⟨b, hb, soundb, ab, knows⟩ | ⟨⟨e, he⟩, bad⟩
      · rw [hb]
        refine (ih (fun h' hh => mem h' (List.mem_cons_of_mem h hh)) soundb).imp_left
          fun ⟨c, hc, soundc, bc, rest⟩ => ⟨c, hc, soundc, ab.trans bc, ?_⟩
        rw [List.forall_mem_cons]
        exact ⟨⟨proper, knows.mono bc⟩, rest⟩
      · rw [he]
        exact .inr ⟨⟨e, rfl⟩, bad⟩
    · have range : h.start < 0 ∨ h.stop > m.code.size ∨ h.start ≥ h.stop := by
        unfold Handler.Proper at proper
        omega
      rw [enterHandler, if_pos range]
      exact .inr ⟨⟨_, rfl⟩, fun safe => proper (safe.proper h memh)⟩

/-- The analysis that knows nothing yet. -/
def blank (m : Method) : Analysis := { depth := Array.replicate m.code.size none }

theorem depthAt_blank (m : Method) (pc : Nat) : (blank m).depthAt pc = none := by
  unfold depthAt blank
  rw [Array.getElem?_replicate]
  split <;> rfl

theorem sound_blank (m : Method) : Sound m (blank m) where
  size := by simp [blank]
  reached pc d h := by simp [depthAt_blank] at h
  pendingKnown := by simp [blank]
  bounded pc d h := by simp [depthAt_blank] at h
  attained := .inl rfl

/-- At the start of the exploration the entries of all paths are known and everything is pending. -/
theorem enterAll_outcome (marked : ∀ i, starts[i]? = some true ↔ InstructionStart m.code i) :
    (∃ b, enterAll m starts = .ok b ∧ Sound m b ∧ Explored m b ∧ b.work ≤ m.code.size ∧
      Knows b 0 0 ∧ ∀ h ∈ m.handlers, h.Proper m ∧ Knows b h.target 1) ∨
    (∃ e, enterAll m starts = .error e) ∧ ¬ Safe m := by
  unfold enterAll
  rcases enter_outcome marked (sound_blank m) .entry 0 with
    ⟨a, ha, sounda, grows, entry⟩ | ⟨⟨e, he⟩, bad⟩
  · rw [← blank, ha]
    refine (enterHandlers_outcome marked m.handlers (fun _ h => h) sounda).imp_left
      fun ⟨b, hb, soundb, ab, handlers⟩ => ?_
    have all := grows.trans ab
    refine ⟨b, hb, soundb, fun pc d known pending => ?_, ?_, entry.mono ab, handlers⟩
    · rcases all.fresh pc d known with h | h
      · simp [depthAt_blank] at h
      · exact absurd h pending
    · have := all.work
      simpa [work, blank] using this
  · rw [← blank, he]
    exact .inr ⟨⟨e, rfl⟩, bad⟩

/-! ## Exactness -/

/-- States that are known to a complete analysis with all entries are all there is to reach. -/
theorem knows_of_reaches (explored : Explored m a) (done : a.pending = []) (entry : Knows a 0 0)
    (handlers : ∀ h ∈ m.handlers, Knows a h.target 1) {pc : Int} {d : Nat}
    (reach : Reaches m pc d) : Knows a pc d := by
  induction reach with
  | entry => exact entry
  | handler mem => exact handlers _ mem
  | @step pc d _ _ _ edge ih =>
    obtain ⟨n, hn, known⟩ := ih
    obtain rfl : pc = n := Int.ofNat_inj.mp hn
    exact (explored pc d known (by simp [done])).2 _ _ edge

theorem mem_depths {pc d : Nat} : (pc, d) ∈ a.depths ↔ a.depthAt pc = some d := by
  unfold depths depthAt
  rw [List.mem_filterMap, Option.join_eq_some_iff]
  constructor
  · rintro ⟨⟨o, i⟩, mem, h⟩
    rw [List.mk_mem_zipIdx_iff_getElem?, Array.getElem?_toList] at mem
    obtain ⟨n, rfl, hn⟩ := Option.map_eq_some_iff.mp h
    cases hn
    exact mem
  · intro h
    refine ⟨(some d, pc), ?_, rfl⟩
    rwa [List.mk_mem_zipIdx_iff_getElem?, Array.getElem?_toList]

end Analysis

variable {m : Method}

/-- The verifier reads the code without a defect, and either knows the reached states of a safe
method or finds the method unsafe. -/
theorem examine_outcome (nonempty : 0 < m.code.size) :
    (∃ a, examine m = .ok (.ok a) ∧ Safe m ∧ a.Sound m ∧ ∀ pc d, Reaches m pc d → a.Knows pc d) ∨
      (∃ e, examine m = .ok (.error e)) ∧ ¬ Safe m := by
  unfold examine
  cases scan : instructionStarts m.code with
  | error e =>
    refine .inr ⟨⟨e, rfl⟩, fun safe => ?_⟩
    obtain ⟨starts, ok⟩ := instructionStarts_of_splits safe.splits
    simp [scan] at ok
  | ok starts =>
    obtain ⟨whole, marked⟩ := instructionStarts_eq_ok scan
    have some_ : m.code.isEmpty = false := by simpa [Array.isEmpty] using nonempty.ne'
    simp only [some_, Bool.false_eq_true, if_false]
    rcases Analysis.enterAll_outcome marked with
      ⟨a, ha, sounda, explored, work, entry, handlers⟩ | ⟨⟨e, he⟩, bad⟩
    · rw [ha]
      refine (Analysis.explore_outcome whole marked m.code.size sounda explored work).imp_left
        fun ⟨b, hb, complete⟩ => ?_
      have keeps {pc : Int} {d : Nat} (h : a.Knows pc d) : b.Knows pc d :=
        h.imp fun n h => ⟨h.1, complete.keeps n d h.2⟩
      have knows : ∀ pc d, Reaches m pc d → b.Knows pc d := fun pc d reach =>
        Analysis.knows_of_reaches complete.explored complete.done (keeps entry)
          (fun h mem => keeps (handlers h mem).2) reach
      refine ⟨b, hb, ⟨whole, fun h mem => (handlers h mem).1, ?_, ?_⟩, complete.sound, knows⟩
      · intro pc d reach
        obtain ⟨n, rfl, known⟩ := knows pc d reach
        exact (complete.explored n d known (by simp [complete.done])).1
      · intro pc d d' reach reach'
        obtain ⟨n, rfl, known⟩ := knows pc d reach
        obtain ⟨n', hn, known'⟩ := knows n d' reach'
        obtain rfl : n = n' := Int.ofNat_inj.mp hn
        exact Option.some.inj (known.symm.trans known')
    · rw [he]
      exact .inr ⟨⟨e, rfl⟩, bad⟩

theorem analyze_of_examine {v : Except VerifyError Analysis} (h : examine m = .ok v) :
    analyze m = v := by
  rw [analyze, h]

/-- What an accepted method is known to be. -/
theorem analyze_eq_ok {a : Analysis} (nonempty : 0 < m.code.size) (h : analyze m = .ok a) :
    Safe m ∧ a.Sound m ∧ ∀ pc d, Reaches m pc d → a.Knows pc d := by
  rcases examine_outcome nonempty with ⟨b, hb, safe⟩ | ⟨⟨e, he⟩, -⟩
  · cases (analyze_of_examine hb).symm.trans h
    exact safe
  · cases (analyze_of_examine he).symm.trans h

/-- The verifier is exact. On every method with code it reads no byte that is not there, accepts
exactly the safe methods, and of those it finds exactly the reached states and their greatest
depth. -/
theorem analyze_exact (m : Method) (nonempty : m.code ≠ #[]) :
    ∃ verdict, examine m = .ok verdict ∧ analyze m = verdict ∧
      ((∃ a, verdict = .ok a) ↔ Safe m) ∧
      ∀ a, verdict = .ok a →
        (∀ pc d, Reaches m pc d ↔ ∃ n : Nat, pc = n ∧ (n, d) ∈ a.depths) ∧
        (∀ pc d, Reaches m pc d → d ≤ a.maxStack) ∧ ∃ pc, Reaches m pc a.maxStack := by
  rcases examine_outcome (Array.size_pos_iff.mpr nonempty) with
    ⟨a, ha, safe, sound, knows⟩ | ⟨⟨e, he⟩, bad⟩
  · refine ⟨.ok a, ha, analyze_of_examine ha, ⟨fun _ => safe, fun _ => ⟨a, rfl⟩⟩, ?_⟩
    rintro _ ⟨⟩
    refine ⟨fun pc d => ⟨fun reach => ?_, ?_⟩, fun pc d reach => ?_, ?_⟩
    · obtain ⟨n, hn, known⟩ := knows pc d reach
      exact ⟨n, hn, Analysis.mem_depths.mpr known⟩
    · rintro ⟨n, rfl, mem⟩
      exact (sound.reached n d (Analysis.mem_depths.mp mem)).2
    · obtain ⟨n, -, known⟩ := knows pc d reach
      exact sound.bounded n d known
    · rcases sound.attained with zero | ⟨n, known⟩
      · exact ⟨0, zero ▸ .entry⟩
      · exact ⟨n, (sound.reached n _ known).2⟩
  · refine ⟨.error e, he, analyze_of_examine he, ⟨?_, fun safe => absurd safe bad⟩, ?_⟩
    · rintro ⟨a, ⟨⟩⟩
    · rintro a ⟨⟩

/-- A loop over a local with a handler that returns what was thrown: `ALOAD 0`, `IFNULL` back to the
start, `ALOAD 0`, `ATHROW`, and at the target of the handler `ARETURN`. -/
def throwing : Method where
  body := some #[0x20, 0, 0, 0x63, 0xFA, 0xFF, 0x20, 0, 0, 0x72, 0x71]
  handlers := [{ start := 6, stop := 10, target := 10 }]
  maxLocals := 1

example : ((analyze throwing).toOption.map (·.depths)) =
    some [(0, 0), (3, 1), (6, 0), (9, 1), (10, 1)] := by decide +kernel

theorem analyze_exact_throwing :
    throwing.code ≠ #[] ∧ ∃ verdict, examine throwing = .ok verdict ∧
      analyze throwing = verdict ∧ ((∃ a, verdict = .ok a) ↔ Safe throwing) ∧
      ∀ a, verdict = .ok a →
        (∀ pc d, Reaches throwing pc d ↔ ∃ n : Nat, pc = n ∧ (n, d) ∈ a.depths) ∧
        (∀ pc d, Reaches throwing pc d → d ≤ a.maxStack) ∧ ∃ pc, Reaches throwing pc a.maxStack :=
  ⟨by decide, analyze_exact throwing (by decide)⟩

end HostLowering.Machine
