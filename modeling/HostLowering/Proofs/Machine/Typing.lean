import HostLowering.Proofs.Catalog.Sound
import HostLowering.Proofs.Machine.Exploration
import HostLowering.Proofs.Machine.Layout

set_option autoImplicit false

/-! # Depths of symbolic code

Every label gets the depth of the stack at its place. `Flows depth items d` says that the items can
be passed in order so that the stack holds `d` values behind them: each line finds its operands, each
branch leads to a label of the depth it leaves, and each mark is met at the depth of its label. Behind
a line that does not continue every depth will do, until the next mark.

Code that flows and ends in a line that does not continue is safe once it is built
(`Coded.safe`): the depth with which an offset is reached is the only one its items flow with.
-/

namespace HostLowering.Machine

/-- The depths at labels, as far as they are known. -/
abbrev Depths := Label → Option Nat

/-- The label a line branches to has the depth that the line leaves. No other line branches. -/
def Part.Leads (depth : Depths) (after : Int) : Part → Prop
  | known o => o.shape ≠ .branch
  | branch l => ∃ d : Nat, depth l = some d ∧ (d : Int) = after

/-- The items, latest first, can be passed and leave a depth. -/
def Flows (depth : Depths) : List Item → Nat → Prop
  | [], d => d = 0
  | .mark l :: items, d => depth l = some d ∧ Flows depth items d
  | .line op part needed effect :: items, d =>
    ∃ before : Nat, Flows depth items before ∧ needed ≤ before ∧ part.Leads depth (before + effect) ∧
      (op.isTerminal = false → (d : Int) = before + effect)

/-- Control does not reach the end of the items. -/
def Dead (depth : Depths) (items : List Item) : Prop := ∀ d, Flows depth items d

/-- More depths are known. -/
def Depths.Le (depth depth' : Depths) : Prop := ∀ l d, depth l = some d → depth' l = some d

variable {depth depth' : Depths} {items : List Item} {d : Nat} {d' : Nat} {l : Label}

theorem Flows.mono (le : depth.Le depth') (h : Flows depth items d) : Flows depth' items d := by
  induction items generalizing d with
  | nil => exact h
  | cons i items ih =>
    cases i with
    | mark l => exact ⟨le l d h.1, ih h.2⟩
    | line op part needed effect =>
      obtain ⟨before, flows, enough, leads, after⟩ := h
      refine ⟨before, ih flows, enough, ?_, after⟩
      cases part with
      | known o => exact leads
      | branch l =>
        obtain ⟨e, known, same⟩ := leads
        exact ⟨e, le l e known, same⟩

/-! ## Settled depths -/

def Settled (depth : Depths) (items : List Item) (d : Nat) : Prop :=
  ∀ d', Flows depth items d' ↔ d' = d

theorem Settled.flows (h : Settled depth items d) : Flows depth items d := (h d).mpr rfl

theorem settled_nil : Settled depth [] 0 := fun _ => Iff.rfl

theorem Settled.unique (h : Settled depth items d) (h' : Settled depth items d') : d = d' :=
  (h' d).mp h.flows

theorem settled_mark (h : Flows depth (.mark l :: items) d) :
    Settled depth (.mark l :: items) d := by
  refine fun d' => ⟨fun h' => ?_, fun same => same ▸ h⟩
  exact Option.some.inj (h'.1.symm.trans h.1)

theorem Settled.line {op : Opcode} {part : Part} {n : Nat} {e : Int} (h : Settled depth items d)
    (continues : op.isTerminal = false) (flows : Flows depth (.line op part n e :: items) d') :
    Settled depth (.line op part n e :: items) d' := by
  have after {d'' : Nat} (flows : Flows depth (.line op part n e :: items) d'') :
      (d'' : Int) = d + e := by
    obtain ⟨before, flows', -, -, after⟩ := flows
    rw [(h before).mp flows'] at after
    exact after continues
  refine fun d'' => ⟨fun flows'' => ?_, fun same => same ▸ flows⟩
  have := after flows
  have := after flows''
  omega

theorem Flows.of_suffix {earlier : List Item} (h : Flows depth items d)
    (suffix : earlier <:+ items) : ∃ d', Flows depth earlier d' := by
  induction items generalizing d with
  | nil =>
    rw [List.suffix_nil] at suffix
    exact ⟨d, suffix ▸ h⟩
  | cons i items ih =>
    rcases List.suffix_cons_iff.mp suffix with rfl | old
    · exact ⟨d, h⟩
    · cases i with
      | mark l => exact ih h.2 old
      | line op part n e =>
        obtain ⟨before, flows, -⟩ := h
        exact ih flows old

theorem stands_iff {i : Item} {p : Nat} :
    Stands items p i ↔ ∃ earlier, i :: earlier <:+ items ∧ span earlier = p := by
  constructor
  · intro h
    induction h with
    | @last items i => exact ⟨items, List.suffix_rfl, rfl⟩
    | @earlier items x i p h ih =>
      obtain ⟨earlier, suffix, place⟩ := ih
      exact ⟨earlier, suffix.trans (List.suffix_cons x items), place⟩
  · rintro ⟨earlier, ⟨later, rfl⟩, rfl⟩
    induction later with
    | nil => exact .last
    | cons x later ih => exact .earlier ih

/-- Behind items that settle a depth, in code that ends dead, stands a line that is met with that
depth. There are only marks between. -/
theorem exists_next {earlier : List Item} (dead : Dead depth items) (suffix : earlier <:+ items)
    (settled : Settled depth earlier d) :
    ∃ op part n e before, Item.line op part n e :: before <:+ items ∧
      span before = span earlier ∧ Settled depth before d := by
  obtain ⟨later, rfl⟩ := suffix
  induction later using List.reverseRecOn generalizing earlier with
  | nil =>
    -- dead code flows with two depths
    have zero := (settled 0).mp (dead 0)
    have one := (settled 1).mp (dead 1)
    omega
  | append_singleton later i ih =>
    rw [List.append_assoc, List.singleton_append] at dead ⊢
    cases i with
    | line op part n e =>
      exact ⟨op, part, n, e, earlier, List.suffix_append later _, rfl, settled⟩
    | mark l =>
      obtain ⟨d', flows⟩ := (dead 0).of_suffix (List.suffix_append later (.mark l :: earlier))
      obtain rfl : d' = d := (settled d').mp flows.2
      obtain ⟨op, part, n, e, before, suffix, place, settled'⟩ :=
        ih (settled_mark flows) dead
      refine ⟨op, part, n, e, before, suffix, ?_, settled'⟩
      rw [place, span_cons, Item.size, Nat.zero_add]

/-! ## Built methods -/

variable {a : Assembler} {m : Method} {owner name : String} {params : List String} {maxLocals : Int}

/-- What a method that was built has from its assembler. -/
structure Built (a : Assembler) (maxLocals : Int) (m : Method) : Prop where
  fine : a.error = none
  code : m.code = a.bytes
  pool : m.pool = a.pool.entries
  locals : m.maxLocals = maxLocals
  resolved : ∀ (l : Label) (s : LabelState), a.labels[l]? = some s → s.position = none →
    s.waiting = #[]
  handlers : ∀ h ∈ m.handlers, h.start ≠ h.stop ∧ ∃ pending ∈ a.handlers, ∃ start stop target : Nat,
    a.position? pending.start = some start ∧ a.position? pending.stop = some stop ∧
      a.position? pending.target = some target ∧ h.start = start ∧ h.stop = stop ∧ h.target = target

theorem resolve_eq_ok_iff {g : PendingHandler} {h : Handler} : a.resolve g = .ok h ↔
    ∃ start stop target : Nat, a.position? g.start = some start ∧ a.position? g.stop = some stop ∧
      a.position? g.target = some target ∧ h = ⟨start, stop, target, g.catches⟩ := by
  unfold Assembler.resolve
  constructor
  · intro eq
    split at eq
    · rename_i start stop target hs he ht
      cases eq
      exact ⟨start, stop, target, hs, he, ht, rfl⟩
    · cases eq
  · rintro ⟨start, stop, target, hs, he, ht, rfl⟩
    simp only [hs, he, ht]

theorem build_eq_ok (h : a.build owner name params maxLocals = .ok m) : a.error = none ∧
    ¬(a.labels.any fun l => l.position.isNone && !l.waiting.isEmpty) ∧
      ∃ hs, a.handlers.toList.mapM a.resolve = .ok hs ∧ m = {
        owner, name, params
        body := if a.bytes.isEmpty then none else some a.bytes
        pool := a.pool.entries
        handlers := Assembler.orderHandlers hs
        maxLocals } := by
  unfold Assembler.build at h
  cases fine : a.error with
  | some e => simp [fine, bind, Except.bind, throw, throwThe, MonadExceptOf.throw] at h
  | none =>
    simp only [fine] at h
    split at h
    · cases h
    · rename_i resolved
      obtain ⟨hs, table, h⟩ := except_bind_eq_ok h
      exact ⟨rfl, resolved, hs, table, (Except.ok.inj h).symm⟩

theorem built_of_build (h : a.build owner name params maxLocals = .ok m) : Built a maxLocals m := by
  obtain ⟨fine, resolved, hs, table, rfl⟩ := build_eq_ok h
  refine ⟨fine, ?_, rfl, rfl, fun l s hl unmarked => ?_, fun h mem => ?_⟩
  · unfold Method.code
    by_cases empty : a.bytes.isEmpty = true
    · simp only [empty, if_true, Option.getD_none]
      exact (Array.isEmpty_iff.mp empty).symm
    · simp only [empty, if_false, Option.getD_some, Bool.false_eq_true]
  · by_contra waits
    refine resolved (Array.any_eq_true'.mpr ⟨s, Array.mem_of_getElem? hl, ?_⟩)
    simp [unmarked, waits]
  · unfold Assembler.orderHandlers at mem
    rw [List.mem_mergeSort, List.mem_filter] at mem
    obtain ⟨pending, hp, eq⟩ := mem_of_mapM_ok table h mem.1
    obtain ⟨start, stop, target, hs, he, ht, rfl⟩ := resolve_eq_ok_iff.mp eq
    exact ⟨by simpa using mem.2, pending, Array.mem_toList_iff.mp hp, start, stop, target, hs, he, ht,
      rfl, rfl, rfl⟩

/-! ## Reading a built method -/

theorem uses_of_pool {pool : Array Constant} {i : Instruction} {n : Nat} {e : Int}
    (h : m.pool = pool) (use : Uses { pool } i n e) : Uses m i n e := by
  cases use with
  | invocation invoke entry =>
    refine .invocation invoke ?_
    rw [← entry]
    simp only [Method.methodAt, Method.constantAt, h]
  | other plain => exact .other plain

variable {op : Opcode} {part : Part} {n p : Nat} {e : Int}

/-- The operand that a line has in the end: a branch has the distance to the place of its label. -/
def Part.Resolves (a : Assembler) (p : Nat) (o : Operand) : Part → Prop
  | known o' => o' = o
  | branch l => ∃ q : Nat, a.position? l = some q ∧ o = .branch (q - (p + 3))

/-- A line is read as its instruction, with its use of the stack. -/
theorem Coded.decodes (coded : Coded items a) (built : Built a maxLocals m)
    (stands : Stands items p (.line op part n e)) :
    ∃ o, instructionAt m.code p = .ok ⟨op, o⟩ ∧ Uses m ⟨op, o⟩ n e ∧ part.Resolves a p o := by
  obtain ⟨-, -, use, written⟩ := coded.lines stands
  rw [built.code]
  cases part with
  | known o => exact ⟨o, written, uses_of_pool built.pool use, rfl⟩
  | branch l =>
    obtain ⟨plain, rfl, rfl⟩ := use
    obtain ⟨d, read, s, known, marked, open_⟩ := written
    cases place : s.position with
    | none =>
      have waits := open_ place
      rw [built.resolved l s known place] at waits
      simp at waits
    | some q =>
      refine ⟨.branch d, read, .other plain, q, ?_, by rw [marked q place]⟩
      simp [Assembler.position?, known, place]

theorem Coded.opcode (coded : Coded items a) (built : Built a maxLocals m)
    (stands : Stands items p (.line op part n e)) (lt : p < m.code.size) :
    Opcode.ofByte m.code[p] = op := by
  obtain ⟨o, read, -⟩ := coded.decodes built stands
  exact (opcode_of_instructionAt lt read).symm

theorem Coded.lt (coded : Coded items a) (built : Built a maxLocals m)
    (stands : Stands items p (.line op part n e)) : p < m.code.size := by
  have le := stands.le
  have pos := op.size_pos
  rw [built.code, coded.size]
  simp only [Item.size] at le
  omega

/-- Where items of the code end, the next instruction starts. -/
theorem Coded.instructionStart (coded : Coded items a) (built : Built a maxLocals m)
    {before : List Item} (suffix : before <:+ items) (more : span before < m.code.size) :
    InstructionStart m.code (span before) := by
  induction before with
  | nil => exact .zero more
  | cons i before ih =>
    have rest : before <:+ items := (List.suffix_cons i before).trans suffix
    rw [span_cons] at more ⊢
    cases i with
    | mark l =>
      rw [Item.size, Nat.zero_add] at more ⊢
      exact ih rest more
    | line op part n e =>
      have stands : Stands items (span before) (.line op part n e) :=
        stands_iff.mpr ⟨before, suffix, rfl⟩
      have lt := coded.lt built stands
      have opcode := coded.opcode built stands lt
      rw [Item.size, Nat.add_comm, ← opcode] at more ⊢
      exact .next lt (ih rest lt) more

theorem Coded.splits (coded : Coded items a) (built : Built a maxLocals m) {before : List Item}
    (suffix : before <:+ items) : Splits m.code (span before) := by
  obtain ⟨later, eq⟩ := suffix
  induction later using List.reverseRecOn generalizing before with
  | nil =>
    have size := coded.size
    rw [← built.code, ← eq, List.nil_append] at size
    exact size ▸ .done
  | append_singleton later i ih =>
    rw [List.append_assoc, List.singleton_append] at eq
    have rest := ih eq
    cases i with
    | mark l =>
      rw [span_cons, Item.size, Nat.zero_add] at rest
      exact rest
    | line op part n e =>
      have stands : Stands items (span before) (.line op part n e) :=
        stands_iff.mpr ⟨before, ⟨later, eq⟩, rfl⟩
      have lt := coded.lt built stands
      have opcode := coded.opcode built stands lt
      rw [span_cons, Item.size, Nat.add_comm, ← opcode] at rest
      refine .instruction lt ?_ rest
      rw [opcode]
      exact (coded.lines stands).1

/-! ## Paths through a built method -/

def Met (depth : Depths) (items : List Item) (p d : Nat) : Prop :=
  ∃ op part n e before, Item.line op part n e :: before <:+ items ∧ span before = p ∧
    Settled depth before d

/-- A line stands alone at its offset, so it is met with at most one depth. -/
theorem Met.unique (h : Met depth items p d) (h' : Met depth items p d') : d = d' := by
  obtain ⟨op, part, n, e, before, suffix, rfl, settled⟩ := h
  obtain ⟨op', part', n', e', before', suffix', place, settled'⟩ := h'
  have alone {op part n e x i y} (h : Item.line op part n e :: x <:+ i :: y)
      (place : span y = span x) : x = y := by
    rcases List.suffix_cons_iff.mp h with same | ⟨later, rfl⟩
    · exact (List.cons.inj same).2
    · have pos := op.size_pos
      simp [span, Item.size] at place
      omega
  rcases List.suffix_or_suffix_of_suffix suffix suffix' with h | h
  · obtain rfl := alone h place
    exact settled.unique settled'
  · obtain rfl := alone h place.symm
    exact settled.unique settled'

/-- The line at the place of a label is met with the depth of the label. -/
theorem met_mark {k : Nat} (dead : Dead depth items) (stands : Stands items p (.mark l))
    (known : depth l = some k) : Met depth items p k := by
  obtain ⟨earlier, suffix, rfl⟩ := stands_iff.mp stands
  obtain ⟨d, flows⟩ := (dead 0).of_suffix suffix
  obtain rfl : d = k := Option.some.inj (flows.1.symm.trans known)
  obtain ⟨op, part, n, e, before, suffix', place, settled⟩ :=
    exists_next dead suffix (settled_mark flows)
  exact ⟨op, part, n, e, before, suffix', by rw [place, span_cons, Item.size, Nat.zero_add], settled⟩

/-- The exception table entries of an assembler have the depth of the thrown value at their targets,
and end behind where they start. -/
def Assembler.Guards (a : Assembler) (depth : Depths) : Prop :=
  ∀ h ∈ a.handlers, depth h.target = some 1 ∧
    ∃ p, a.position? h.start = some p ∧ ∀ q, a.position? h.stop = some q → p ≤ q

/-- The locals that lines name. -/
def Within (items : List Item) (maxLocals : Int) : Prop :=
  ∀ (p : Nat) (op : Opcode) (o : Operand) (n : Nat) (e : Int) (k : Nat),
    Stands items p (.line op (.known o) n e) → o.local? = some k → (k : Int) < maxLocals

theorem Within.mono {n n' : Int} (h : Within items n) (le : n ≤ n') :
    Within items n' :=
  fun p op o k e i stands named => (h p op o k e i stands named).trans_le le

/-- The states on the paths are the lines with the depths they are met with. -/
theorem Coded.met_of_reaches (coded : Coded items a) (dead : Dead depth items)
    (guards : a.Guards depth) (built : Built a maxLocals m) {pc : Int} (h : Reaches m pc d) :
    ∃ p : Nat, pc = p ∧ Met depth items p d := by
  induction h with
  | entry =>
    obtain ⟨op, part, n, e, before, suffix, place, settled⟩ :=
      exists_next dead List.nil_suffix settled_nil
    exact ⟨0, rfl, op, part, n, e, before, suffix, place, settled⟩
  | @handler h mem =>
    obtain ⟨-, pending, memP, -, -, target, -, -, ht, -, -, eq⟩ := built.handlers h mem
    exact ⟨target, eq, met_mark dead ((coded.marks _ _).mp ht) (guards pending memP).1⟩
  | @step pc d d' pc' _ edge ih =>
    obtain ⟨_, same, op, part, n, e, before, suffix, rfl, settled⟩ := ih
    obtain rfl : pc = span before := by exact_mod_cast same
    have stands : Stands items (span before) (.line op part n e) :=
      stands_iff.mpr ⟨before, suffix, rfl⟩
    obtain ⟨o, read, use, resolves⟩ := coded.decodes built stands
    obtain ⟨d'', flows⟩ := (dead 0).of_suffix suffix
    obtain ⟨k, flows', enough, leads, behind⟩ := id flows
    obtain rfl : d = k := ((settled k).mp flows').symm
    have down := use.neg_needed_le
    obtain ⟨after, ha⟩ := Int.eq_ofNat_of_zero_le (show 0 ≤ (d : Int) + e by omega)
    rcases edge.resolve read use ha.symm with ⟨rfl, t, operand, rfl⟩ | ⟨rfl, continues, rfl⟩
    · cases part with
      | known o' =>
        obtain rfl : o' = o := resolves
        simp only at operand
        exact absurd (by rw [operand]; rfl) leads
      | branch l =>
        obtain ⟨q, hq, rfl⟩ := resolves
        obtain ⟨k, known, hk⟩ := leads
        have three := Opcode.size_of_branch (coded.lines stands).2.1.symm
        cases operand
        refine ⟨q, ?_, ?_⟩
        · simp only [three]
          push_cast
          ring
        · obtain rfl : k = d' := by omega
          exact met_mark dead ((coded.marks l q).mp hq) known
    · have next := settled.line continues flows
      obtain rfl : d'' = d' := by
        have := behind continues
        omega
      obtain ⟨op', part', n', e', before', suffix', place, settled'⟩ :=
        exists_next dead suffix next
      refine ⟨_, rfl, op', part', n', e', before', suffix', ?_, settled'⟩
      rw [place, span_cons, Item.size, Nat.add_comm]

/-- A line may execute at the depth it is met with. -/
theorem Coded.admissible (coded : Coded items a) (dead : Dead depth items)
    (within : Within items maxLocals) (built : Built a maxLocals m) (met : Met depth items p d) :
    Admissible m p d := by
  obtain ⟨op, part, n, e, before, suffix, rfl, settled⟩ := met
  have stands : Stands items (span before) (.line op part n e) :=
    stands_iff.mpr ⟨before, suffix, rfl⟩
  have rest : before <:+ items := (List.suffix_cons _ before).trans suffix
  obtain ⟨o, read, use, resolves⟩ := coded.decodes built stands
  obtain ⟨d', flows⟩ := (dead 0).of_suffix suffix
  obtain ⟨k, flows', enough, -⟩ := id flows
  obtain rfl : d = k := ((settled k).mp flows').symm
  refine ⟨_, rfl, coded.instructionStart built rest (coded.lt built stands), _, read,
    ⟨n, e, use, enough⟩, fun k hk => ?_, fun continues => ?_⟩
  · rw [built.locals]
    cases part with
    | known o' =>
      obtain rfl : o' = o := resolves
      exact within _ op o' n e k stands hk
    | branch l =>
      obtain ⟨q, -, rfl⟩ := resolves
      simp [Operand.local?] at hk
  · -- another line stands behind one that continues, as the end is dead
    obtain ⟨op', part', n', e', before', suffix', place, -⟩ :=
      exists_next dead suffix (settled.line continues flows)
    have lt := coded.lt built (stands_iff.mpr ⟨before', suffix', rfl⟩)
    rw [place, span_cons, Item.size] at lt
    simp only
    omega

/-- Code that flows and ends dead is safe, and its offsets are reached with the depths they are met
with. -/
theorem Coded.safe (coded : Coded items a) (dead : Dead depth items) (guards : a.Guards depth)
    (within : Within items maxLocals) (built : Built a maxLocals m) : Safe m where
  splits := coded.splits built List.nil_suffix
  proper h mem := by
    obtain ⟨ne, pending, memP, start, stop, target, hs, he, -, eqs, eqe, -⟩ := built.handlers h mem
    obtain ⟨-, p, hp, ordered⟩ := guards pending memP
    cases hs.symm.trans hp
    have le := ordered stop he
    have inside := ((coded.marks _ _).mp he).le
    rw [Item.size, ← coded.size, ← built.code] at inside
    refine ⟨by omega, ?_, by omega⟩
    have : (start : Int) ≠ stop := by rwa [eqs, eqe] at ne
    omega
  admissible pc d h := by
    obtain ⟨p, rfl, met⟩ := coded.met_of_reaches dead guards built h
    exact coded.admissible dead within built met
  agrees pc d d' h h' := by
    obtain ⟨p, rfl, met⟩ := coded.met_of_reaches dead guards built h
    obtain ⟨q, same, met'⟩ := coded.met_of_reaches dead guards built h'
    obtain rfl : p = q := by exact_mod_cast same
    exact met.unique met'

/-- The depth at the place of a label, if it is reached. -/
theorem Coded.depth_of_reaches {k : Nat} (coded : Coded items a) (dead : Dead depth items)
    (guards : a.Guards depth) (built : Built a maxLocals m) (place : a.position? l = some p)
    (known : depth l = some k) (h : Reaches m p d) : d = k := by
  obtain ⟨q, same, met⟩ := coded.met_of_reaches dead guards built h
  obtain rfl : p = q := by exact_mod_cast same
  exact met.unique (met_mark dead ((coded.marks l p).mp place) known)

end HostLowering.Machine
