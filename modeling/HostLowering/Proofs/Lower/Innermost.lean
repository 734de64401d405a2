import HostLowering.Proofs.Lower.Exhaustion

set_option autoImplicit false

/-! # Regions in regions

Where regions are nested in each other, an exception goes to the handler of the innermost one that
covers the code that raised it. The exception table knows nothing of nesting: its entries are in the
order of their spans. Regions of the source that are nested have stretches of code that are nested
(`Session.stretches_nested`), so the innermost one is not longer than the others, and it is shorter
unless both begin and end at the same places in the code. Then the entry that was registered first is
found, and that is the one of the outer region (`innermost_region_handles`, `twinRegions_outer`).
-/

namespace HostLowering.Lower

open Machine Object Catalog

variable {c : Source} {f : Function} {r : Registry} {actions : List Action} {m : Method}
  {s s' s₁ s₂ s₃ t t' : State} {u : Unit} {a : Action} {g : PendingHandler} {l : Label} {o : Int}
  {rest : List Action} {given : Snapshot}

/-! ## Entries of the exception table -/

/-- An action with the given lines puts an entry into the exception table: a region one that begins
behind its lines, and an operation that advances an iterator one that begins and ends in them. -/
inductive Action.Enters (lines : List Line) (s' : State) : Action → PendingHandler → Prop where
  | region {region : Region} {g : PendingHandler} (init : List Line)
      (catches : g.catches = Library.baseExceptionClass) (start : lines = init ++ [.mark g.start])
      (stop : s'.labels[region.stop]? = some g.stop)
      (target : s'.labels[region.target]? = some g.target) :
      Enters lines s' (.perform (.openRegion region)) g
  | own {op : Operation} {g : PendingHandler} (iterates : op.Iterates)
      (catches : g.catches = Library.stopIterationClass) (start : .mark g.start ∈ lines)
      (stop : .mark g.stop ∈ lines) : Enters lines s' (.perform op) g

/-- An operation that neither opens a region nor advances an iterator puts no entry into the table. -/
theorem perform_unguarded {op : Operation} (tidy : Tidy c s) (ordinary : op.Ordinary)
    (plain : ¬op.Iterates) (run : op.perform c.function s = (.ok u, s')) (fine : s'.Fine) :
    ∃ lines fresh, Wrote c.refs lines fresh [] s.assembler s'.assembler := by
  obtain ⟨-, -, body⟩ := perform_eq_ok run fine.1
  let K : Scope := { tidy.scope with guarding := False }
  have opened : K.Open { s with operation := op.name } :=
    ⟨rfl, le_rfl, by simp [K, Tidy.scope], tidy.sources, tidy.registry⟩
  obtain ⟨lines, fresh, guards, wrote, -, owns⟩ := (keeps_body ordinary plain _ u s' opened body).1.code
  cases guards with
  | nil => exact ⟨lines, fresh, wrote⟩
  | cons g guards => exact (owns g List.mem_cons_self).1.elim

theorem exists_openLines (r : Registry) (h : HandlerEntry) (upper : List Temp) (start : Label) :
    ∃ init, openLines r h upper start = init ++ [.mark start] := by
  unfold openLines
  simp only [← List.append_assoc]
  exact ⟨_, rfl⟩

/-- What an action adds to the exception table. -/
theorem entered_run (tidy : Tidy c s) (run : a.run c.function s = (.ok u, s')) (fine : s'.Fine) :
    ∃ lines fresh guards, Wrote c.refs lines fresh guards s.assembler s'.assembler ∧
      ∀ g ∈ guards, a.Enters lines s' g := by
  cases a with
  | visit o given =>
    obtain ⟨l, fresh, -, wrote⟩ := (atOffset_eq_ok run fine.1).code
    exact ⟨_, fresh, [], wrote, by simp⟩
  | spell types =>
    obtain ⟨-, advanced⟩ := spell_advanced tidy run
    obtain ⟨fresh, wrote⟩ := advanced.wrote
    exact ⟨_, fresh, [], wrote, by simp⟩
  | perform op =>
    by_cases iterates : op.Iterates
    · obtain ⟨guarded, handler, -, -, -, g, head, between, rest, catches, -, ⟨fresh, wrote⟩, -⟩ :=
        iterates.guards tidy run fine
      refine ⟨_, fresh, [g], wrote, fun g' mem => ?_⟩
      rw [List.mem_singleton.mp mem]
      exact .own iterates catches (mark_mem_guardLines.mpr (by simp))
        (mark_mem_guardLines.mpr (by simp))
    · by_cases ordinary : op.Ordinary
      · obtain ⟨lines, fresh, wrote⟩ := perform_unguarded tidy ordinary iterates run fine
        exact ⟨lines, fresh, [], wrote, by simp⟩
      · obtain ⟨-, -, body⟩ := perform_eq_ok run fine.1
        have tidy' := tidy.named op.name
        cases op with
        | yield =>
          obtain ⟨-, top, rest, -, suspends⟩ := yield_eq_ok body fine.1
          exact ⟨_, _, [], suspends.wrote, by simp⟩
        | openRegion region =>
          obtain ⟨-, h, t₁, upper, start, handled, opens⟩ := openRegion_eq_ok body fine.1
          obtain ⟨-, stop, target, stops, targets, advanced, -⟩ :=
            openRegion_advanced tidy' handled opens
          obtain ⟨fresh, wrote⟩ := advanced.wrote
          refine ⟨_, fresh, _, wrote, fun g mem => ?_⟩
          rw [List.mem_singleton.mp mem]
          obtain ⟨init, begins⟩ := exists_openLines t₁.registry h upper start
          exact .region init rfl begins stops targets
        | yieldFrom => exact absurd trivial iterates
        | _ => exact absurd trivial ordinary

/-! ## What entries stand for -/

/-- Where the code of a region begins that is opened behind some actions. -/
abbrev regionStart (f : Function) (r : Registry) (before : List Action) (region : Region) : Nat :=
  codeAfter f r (before ++ [.perform (.openRegion region)])

/-- An entry of the exception table stands for a region that some actions open, or for the end of an
iteration in one of their operations. -/
inductive Represents (f : Function) (r : Registry) (actions before : List Action) (h : Handler) : Prop where
  | region {first rest : List Action} {region : Region} {stop target : Nat}
      (split : before = first ++ .perform (.openRegion region) :: rest)
      (catches : h.catches = Library.baseExceptionClass)
      (start : h.start = regionStart f r first region)
      (stops : h.stop = stop) (ends : Placed f r actions region.stop stop) (leads : h.target = target)
      (handles : Placed f r actions region.target target)
  | own {first rest : List Action} {op : Operation} (split : before = first ++ .perform op :: rest)
      (iterates : op.Iterates) (catches : h.catches = Library.stopIterationClass)
      (start : codeAfter f r first ≤ h.start) (stop : h.stop ≤ codeAfter f r (first ++ [.perform op]))

theorem Represents.snoc {before : List Action} {h : Handler} (stands : Represents f r actions before h)
    (a : Action) : Represents f r actions (before ++ [a]) h := by
  cases stands with
  | @region first rest reg stop target split catches start stops ends leads handles =>
    have longer : before ++ [a] = first ++ .perform (.openRegion reg) :: (rest ++ [a]) := by
      rw [split, List.append_assoc, List.cons_append]
    exact .region longer catches start stops ends leads handles
  | @own first rest op split iterates catches start stop =>
    have longer : before ++ [a] = first ++ .perform op :: (rest ++ [a]) := by
      rw [split, List.append_assoc, List.cons_append]
    exact .own longer iterates catches start stop

/-- A label that is marked in a stretch of code has its place there. -/
theorem position_inside {refs : Set MethodRef} {front lines back : List Line} {a : Assembler} {p : Nat}
    (spelled : Spelled refs (front ++ (lines ++ back)) a) (mem : .mark l ∈ lines)
    (place : a.position? l = some p) : codeSize front ≤ p ∧ p ≤ codeSize front + codeSize lines := by
  obtain ⟨xs, ys, rfl⟩ := List.append_of_mem mem
  have here : a.position? l = some (codeSize (front ++ xs)) :=
    spelled.position?_iff.mpr ⟨front ++ xs, ys ++ back, by simp, rfl⟩
  cases place.symm.trans here
  simp only [codeSize_append]
  omega

namespace Session

variable (session : Session c r actions m s₃ s)

include session

section Step

variable {before after : List Action} {h : Handler} {lines : List Line} {fresh : Nat}
  {guards : List PendingHandler} (split : actions = before ++ a :: after)
  (reached : stateBy c.function r before = .ok t)
  (passed : stateBy c.function r (before ++ [a]) = .ok t')
  (wrote : Wrote c.refs lines fresh guards t.assembler t'.assembler)
  (resolved : s.assembler.resolve g = .ok h)

include split reached passed wrote resolved

/-- An entry that begins behind the lines of an action and leads to source offsets. -/
theorem region_placed {init : List Line} {o' : Int} (begins : lines = init ++ [.mark g.start])
    (stops : t'.labels[o]? = some g.stop) (targets : t'.labels[o']? = some g.target) :
    ∃ stop target : Nat,
      s.assembler.position? g.start = some (codeAfter c.function r (before ++ [a])) ∧
      s.assembler.position? g.stop = some stop ∧ s.assembler.position? g.target = some target ∧
      h = ⟨codeAfter c.function r (before ++ [a]), stop, target, g.catches⟩ ∧
      Placed c.function r actions o stop ∧ Placed c.function r actions o' target := by
  obtain ⟨after', front, back, ending, newer, cut⟩ := session.cut ⟨before, after, split, reached, passed⟩
  obtain ⟨start, stop, target, hs, he, ht, rfl⟩ := resolve_eq_ok_iff.mp resolved
  have ends := session.placed_of_position (cut.later.labelled.sources _ _ stops) he
  have handles := session.placed_of_position (cut.later.labelled.sources _ _ targets) ht
  have here : s.assembler.position? g.start = some (codeSize (front ++ init)) := by
    refine (cut.spelled wrote).position?_iff.mpr ⟨front ++ init, back ++ ending, ?_, rfl⟩
    rw [begins]
    simp
  have last : codeAfter c.function r (before ++ [a]) = codeSize (front ++ init) := by
    rw [codeAfter_eq passed, (wrote.spelled cut.fine.2 front cut.held).size, begins]
    simp [Line.size]
  cases hs.symm.trans here
  rw [last]
  exact ⟨stop, target, hs, he, ht, rfl, ends, handles⟩

/-- What the entry of an action stands for. -/
theorem represents_run (enters : a.Enters lines t' g) :
    Represents c.function r actions (before ++ [a]) h := by
  cases enters with
  | @region region _ init catches begins stops targets =>
    obtain ⟨stop, target, -, -, -, rfl, ends, handles⟩ :=
      session.region_placed split reached passed wrote resolved begins stops targets
    exact .region rfl catches rfl rfl ends rfl handles
  | own iterates catches begins stops =>
    obtain ⟨after', front, back, ending, newer, cut⟩ :=
      session.cut ⟨before, after, split, reached, passed⟩
    obtain ⟨start, stop, target, hs, he, -, rfl⟩ := resolve_eq_ok_iff.mp resolved
    obtain ⟨low, -⟩ := position_inside (cut.spelled wrote) begins hs
    obtain ⟨-, high⟩ := position_inside (cut.spelled wrote) stops he
    refine .own rfl iterates catches ?_ ?_
    · rw [codeAfter_eq reached, cut.held.size]
      show (codeSize front : Int) ≤ start
      omega
    · rw [codeAfter_eq passed, (wrote.spelled cut.fine.2 front cut.held).size, codeSize_append]
      show (stop : Int) ≤ (codeSize front + codeSize lines : Nat)
      omega

end Step

/-- Every entry that is in the exception table after some actions stands for one of them. -/
theorem represents {before after : List Action} {h : Handler} (split : actions = before ++ after)
    (reached : stateBy c.function r before = .ok t) (mem : g ∈ t.assembler.handlers.toList)
    (resolved : s.assembler.resolve g = .ok h) : Represents c.function r actions before h := by
  induction before using List.reverseRecOn generalizing after t with
  | nil =>
    obtain ⟨s₀, started, acted⟩ := except_bind_eq_ok reached
    cases after_eq_ok acted
    obtain ⟨t₀, reached₀, fine⟩ := session.exists_state split
    cases reached.symm.trans reached₀
    obtain ⟨-, -, none, -⟩ := start_eq_ok session.known started fine
    rw [none] at mem
    cases mem
  | append_singleton before a ih =>
    obtain ⟨t', reached', fine'⟩ := session.exists_state split
    cases reached.symm.trans reached'
    have split' : actions = before ++ a :: after := by rw [split]; simp
    obtain ⟨t₁, reached₁, fine₁⟩ := session.exists_state split'
    obtain ⟨tidy, -⟩ := spelled_of_stateBy session.known reached₁ fine₁
    obtain ⟨lines, fresh, guards, wrote, enters⟩ :=
      entered_run tidy (run_of_stateBy reached₁ reached) fine'
    rw [wrote.handlers, List.mem_append] at mem
    rcases mem with old | new
    · exact (ih split' reached₁ old).snoc a
    · exact session.represents_run split' reached₁ reached wrote resolved (enters g new)

/-- The entry of a region stands behind those of the actions before. -/
theorem opening {before after : List Action} {region : Region}
    (split : actions = before ++ .perform (.openRegion region) :: after)
    (reached : stateBy c.function r before = .ok t) :
    ∃ (g : PendingHandler) (back : List PendingHandler) (stop target : Nat),
      s.assembler.handlers.toList = t.assembler.handlers.toList ++ g :: back ∧
      g.catches = Library.baseExceptionClass ∧
      s.assembler.position? g.start =
        some (regionStart c.function r before region) ∧
      s.assembler.position? g.stop = some stop ∧ s.assembler.position? g.target = some target ∧
      Placed c.function r actions region.stop stop ∧
        Placed c.function r actions region.target target := by
  have behind : actions = (before ++ [.perform (.openRegion region)]) ++ after := by rw [split]; simp
  obtain ⟨t', passed, fine⟩ := session.exists_state behind
  obtain ⟨after', front, back, ending, newer, cut⟩ := session.cut ⟨before, after, split, reached, passed⟩
  obtain ⟨-, -, body⟩ := perform_eq_ok cut.run fine.1
  obtain ⟨-, entry, t₁, upper, start, handled, opens⟩ := openRegion_eq_ok body fine.1
  obtain ⟨-, stop, target, stops, targets, advanced, -⟩ :=
    openRegion_advanced (cut.tidy₁.named _) handled opens
  obtain ⟨fresh, wrote⟩ := advanced.wrote
  have table := cut.handlers wrote
  obtain ⟨h, resolved⟩ := session.resolve (g := ⟨start, stop, target, Library.baseExceptionClass⟩) (by
    rw [table]
    simp)
  obtain ⟨init, begins⟩ := exists_openLines t₁.registry entry upper start
  obtain ⟨stop', target', hs, he, ht, -, ends, handles⟩ :=
    session.region_placed split reached passed wrote resolved begins stops targets
  exact ⟨_, newer, stop', target', table, rfl, hs, he, ht, ends, handles⟩

end Session

/-! ## Nesting -/

/-- The offset at which a region ends that an operation opens. -/
def Operation.stops : Operation → List Int
  | .openRegion region => [region.stop]
  | _ => []

/-- Whether regions are nested, where those that are open end at the given offsets, the innermost one
first. At an offset all regions end that end there, and so no other region is in them. -/
def nestedFrom (ends : List Int) : List Action → Bool
  | [] => true
  | .visit o _ :: rest =>
    let left := ends.dropWhile (· == o)
    !left.contains o && nestedFrom left rest
  | .perform op :: rest => nestedFrom (op.stops ++ ends) rest
  | .spell _ :: rest => nestedFrom ends rest

def Nested (actions : List Action) : Prop := nestedFrom [] actions = true

instance (actions : List Action) : Decidable (Nested actions) := inferInstanceAs (Decidable (_ = true))

/-- A region in which others end stays open until it ends itself. -/
theorem dropWhile_above {above below : List Int} {stop : Int} (other : stop ≠ o) :
    (above ++ stop :: below).dropWhile (· == o) = above.dropWhile (· == o) ++ stop :: below := by
  rw [List.dropWhile_append]
  split
  · rename_i empty
    rw [List.isEmpty_iff.mp empty, List.dropWhile_cons_of_neg (by simpa using other)]
    rfl
  · rfl

/-- A region that is open inside another one ends with it or before. -/
theorem ends_inside {above below : List Int} {stop : Int} {after : List Action} (mem : o ∈ below)
    (h : nestedFrom (above ++ stop :: below) (rest ++ .visit o given :: after) = true) :
    stop ∈ Action.offsets rest ∨ stop = o := by
  by_cases same : stop = o
  · exact .inr same
  left
  induction rest generalizing above with
  | nil =>
    rw [List.nil_append, nestedFrom, dropWhile_above same, Bool.and_eq_true] at h
    simp [mem] at h
  | cons a rest ih =>
    cases a with
    | visit o' given' =>
      rw [Action.offsets]
      by_cases ends : stop = o'
      · exact List.mem_cons.mpr (.inl ends)
      · rw [List.cons_append, nestedFrom, dropWhile_above ends, Bool.and_eq_true] at h
        exact List.mem_cons_of_mem o' (ih h.2)
    | perform op =>
      rw [List.cons_append, nestedFrom, ← List.append_assoc] at h
      exact ih h
    | spell types =>
      rw [List.cons_append, nestedFrom] at h
      exact ih h

/-- Regions stay open until the offset is visited at which they end. -/
theorem nestedFrom_append {ends : List Int} {between : List Action}
    (h : nestedFrom ends (between ++ rest) = true) : ∃ ends', nestedFrom ends' rest = true ∧
      ∀ o ∈ ends, o ∈ Action.offsets between ∨ o ∈ ends' := by
  induction between generalizing ends with
  | nil => exact ⟨ends, h, fun o mem => .inr mem⟩
  | cons a between ih =>
    cases a with
    | visit o' given =>
      rw [List.cons_append, nestedFrom, Bool.and_eq_true] at h
      obtain ⟨ends', later, kept⟩ := ih h.2
      refine ⟨ends', later, fun o mem => ?_⟩
      rw [Action.offsets]
      by_cases same : o = o'
      · exact .inl (List.mem_cons.mpr (.inl same))
      · obtain ⟨above, below, rfl⟩ := List.append_of_mem mem
        rw [dropWhile_above same] at kept
        exact (kept o (by simp)).imp_left (List.mem_cons_of_mem o')
    | perform op =>
      rw [List.cons_append, nestedFrom] at h
      obtain ⟨ends', later, kept⟩ := ih h
      exact ⟨ends', later, fun o mem => kept o (List.mem_append_right _ mem)⟩
    | spell types =>
      rw [List.cons_append, nestedFrom] at h
      exact ih h

/-- A region that is opened in another one ends before it or where it ends. -/
theorem Nested.ends {before between after : List Action} {outer inner : Region}
    (nested : Nested (before ++ .perform (.openRegion outer) ::
      (between ++ .perform (.openRegion inner) :: (rest ++ .visit outer.stop given :: after)))) :
    outer.stop ∈ Action.offsets between ∨ inner.stop ∈ Action.offsets rest ∨
      inner.stop = outer.stop := by
  obtain ⟨ends, h, -⟩ := nestedFrom_append nested
  rw [nestedFrom] at h
  obtain ⟨ends', h, kept⟩ := nestedFrom_append h
  rcases kept outer.stop (by simp [Operation.stops]) with visited | mem
  · exact .inl visited
  · rw [nestedFrom] at h
    have top : nestedFrom ([] ++ inner.stop :: ends') (rest ++ .visit outer.stop given :: after) = true := h
    exact .inr (ends_inside mem top)

/-! ## Stretches of code -/

/-- A region that is opened behind some actions covers an instruction. -/
def Covers (f : Function) (r : Registry) (actions before : List Action) (region : Region) (pc : Nat) :
    Prop :=
  (∃ after, actions = before ++ .perform (.openRegion region) :: after) ∧
    regionStart f r before region ≤ pc ∧
      ∃ stop, Placed f r actions region.stop stop ∧ pc < stop

/-- Two regions begin and end at the same places in the code. -/
def Twins (f : Function) (r : Registry) (actions before : List Action) (region : Region)
    (before' : List Action) (region' : Region) : Prop :=
  regionStart f r before region = regionStart f r before' region' ∧
    ∃ stop, Placed f r actions region.stop stop ∧ Placed f r actions region'.stop stop

/-- An instruction is covered by the entry with which an operation that advances an iterator handles the
end of the iteration itself. -/
def Iterating (f : Function) (r : Registry) (actions : List Action) (m : Method) (pc : Nat) : Prop :=
  ∃ before op after, actions = before ++ .perform op :: after ∧ op.Iterates ∧
    ∃ h ∈ m.handlers, h.catches = Library.stopIterationClass ∧ codeAfter f r before ≤ h.start ∧
      h.stop ≤ codeAfter f r (before ++ [.perform op]) ∧ h.covers pc = true

theorem exists_visit (mem : o ∈ Action.offsets actions) :
    ∃ before given after, actions = before ++ .visit o given :: after := by
  induction actions with
  | nil => cases mem
  | cons a actions ih =>
    cases a with
    | visit o' given =>
      rw [Action.offsets] at mem
      rcases List.mem_cons.mp mem with rfl | mem
      · exact ⟨[], given, actions, rfl⟩
      · obtain ⟨before, given', after, rfl⟩ := ih mem
        exact ⟨.visit o' given :: before, given', after, rfl⟩
    | perform op =>
      obtain ⟨before, given, after, rfl⟩ := ih mem
      exact ⟨.perform op :: before, given, after, rfl⟩
    | spell types =>
      obtain ⟨before, given, after, rfl⟩ := ih mem
      exact ⟨.spell types :: before, given, after, rfl⟩

/-- An entry that covers an instruction and catches an exception stands for a region that covers it,
unless the exception is the end of an iteration and the instruction is where it may end. -/
theorem Represents.covers {before after : List Action} {h : Handler} {pc : Nat} {w : World} {e : Value}
    (stands : Represents f r actions before h) (split : actions = before ++ after)
    (mem : h ∈ m.handlers) (covered : h.covers pc = true)
    (catches : (h.catches == "" || w.isHostInstance e h.catches) = true)
    (other : w.isHostInstance e Library.stopIterationClass = true →
      ¬Iterating f r actions m pc) :
    ∃ first rest region, before = first ++ .perform (.openRegion region) :: rest ∧
      Covers f r actions first region pc ∧
        h.start = regionStart f r first region ∧
          ∃ stop : Nat, h.stop = stop ∧ Placed f r actions region.stop stop := by
  cases stands with
  | @region first rest region stop target opened _ start stops ends _ _ =>
    simp only [Handler.covers, Bool.and_eq_true, decide_eq_true_eq] at covered
    refine ⟨first, rest, region, opened, ⟨⟨rest ++ after, ?_⟩, by omega, stop, ends, by omega⟩, start,
      stop, stops, ends⟩
    rw [split, opened]
    simp
  | @own first rest op performed iterates ended start stop =>
    -- it catches nothing but the end of an iteration
    have named : (Library.stopIterationClass == "") = false := by decide
    rw [ended, named, Bool.false_or] at catches
    refine absurd ⟨first, op, rest ++ after, ?_, iterates, h, mem, ended, start, stop, covered⟩
      (other catches)
    rw [split, performed]
    simp

namespace Session

variable (session : Session c r actions m s₃ s)

include session

/-- Of two regions that cover an instruction, the one that is opened later stands in the other one. -/
theorem stretches_nested (nested : Nested actions) {before before' : List Action}
    {region region' : Region} {pc stop stop' : Nat}
    (covers : Covers c.function r actions before region pc)
    (covers' : Covers c.function r actions before' region' pc)
    (ends : Placed c.function r actions region.stop stop)
    (ends' : Placed c.function r actions region'.stop stop') (earlier : before'.length ≤ before.length) :
    regionStart c.function r before' region' ≤ regionStart c.function r before region ∧
      stop ≤ stop' := by
  obtain ⟨⟨after, split⟩, low, -⟩ := covers
  obtain ⟨⟨after', split'⟩, -, stop'', placed, high⟩ := covers'
  cases session.placed_unique ends' placed
  have opens : before ++ [.perform (.openRegion region)] <+: actions := ⟨after, by rw [split]; simp⟩
  have opens' : before' ++ [.perform (.openRegion region')] <+: actions :=
    ⟨after', by rw [split']; simp⟩
  have inside : before' ++ [.perform (.openRegion region')] <+: before ++ [.perform (.openRegion region)] :=
    List.prefix_of_prefix_length_le opens' opens (by simpa using earlier)
  refine ⟨session.codeAfter_mono inside opens, ?_⟩
  -- the region that was opened first ends behind the instruction, so behind the opening of the other
  obtain ⟨until_, given, rest', split₁, rfl⟩ := placed
  have longer : before ++ [.perform (.openRegion region)] <+: until_ := by
    rcases List.prefix_or_prefix_of_prefix opens ⟨_, split₁.symm⟩ with longer | shorter
    · exact longer
    · have le : _ ≤ regionStart c.function r before region := session.codeAfter_mono shorter opens
      omega
  obtain ⟨rest, rfl⟩ := longer
  rcases Nat.eq_or_lt_of_le earlier with same | less
  · have equal := inside.eq_of_length (by simpa using same)
    obtain ⟨-, regions⟩ := List.append_inj' equal rfl
    cases regions
    exact (session.placed_unique ends ends').le
  · obtain ⟨between, rfl⟩ : before' ++ [.perform (.openRegion region')] <+: before :=
      List.prefix_of_prefix_length_le inside (List.prefix_append _ _) (by simpa using less)
    have shape : actions = before' ++ .perform (.openRegion region') :: (between ++
        .perform (.openRegion region) :: (rest ++ .visit region'.stop given :: rest')) := by
      rw [split₁]
      simp
    rw [shape] at nested
    have whole : (((before' ++ [.perform (.openRegion region')]) ++ between) ++
        [.perform (.openRegion region)]) ++ rest <+: actions := ⟨_, split₁.symm⟩
    rcases nested.ends with early | before_ | same
    · -- it would have ended before the other one was opened
      obtain ⟨first, given', last, rfl⟩ := exists_visit early
      have place : Placed c.function r actions region'.stop
          (codeAfter c.function r (before' ++ .perform (.openRegion region') :: first)) :=
        ⟨_, given', last ++ .perform (.openRegion region) :: (rest ++ .visit region'.stop given :: rest'),
          by rw [shape]; simp, rfl⟩
      have shorter : before' ++ .perform (.openRegion region') :: first <+:
          ((before' ++ [.perform (.openRegion region')]) ++ (first ++ .visit region'.stop given' :: last)) ++
            [.perform (.openRegion region)] :=
        ⟨.visit region'.stop given' :: last ++ [.perform (.openRegion region)], by simp⟩
      have le : _ ≤ regionStart c.function r _ region := session.codeAfter_mono shorter opens
      have same := session.placed_unique place ends'
      omega
    · obtain ⟨first, given', last, rfl⟩ := exists_visit before_
      have place : Placed c.function r actions region.stop (codeAfter c.function r (((before' ++
          [.perform (.openRegion region')]) ++ between) ++ [.perform (.openRegion region)] ++ first)) :=
        ⟨_, given', last ++ .visit region'.stop given :: rest', by rw [shape]; simp, rfl⟩
      rw [session.placed_unique ends place]
      exact session.codeAfter_mono ⟨.visit region.stop given' :: last, by simp⟩ whole
    · rw [same] at ends
      exact (session.placed_unique ends ends').le

end Session

/-- An exception that is raised at an instruction goes to a place in the code. The end of an iteration
that an operation of the source handles itself is not meant. -/
def RaisesTo (f : Function) (r : Registry) (actions : List Action) (m : Method) (pc target : Nat) :
    Prop :=
  ∀ (call : Caller) (x x' : Frame) (q : Request) (w w' : World) (e : Value), x.method = m →
    x.step = .ok (.ask q x') → x'.current = pc → Effect.serve call q w = (.error (.raised e), w') →
      w'.isHostInstance e Library.baseExceptionClass = true →
        (w'.isHostInstance e Library.stopIterationClass = true → ¬Iterating f r actions m pc) →
          Effect.turn call x w = .inr (x'.handle target e, w')

section Delivery

variable {before before₀ : List Action} {region region₀ : Region} {pc : Nat}
  (session : Session c r actions m s₃ s) (nested : Nested actions)
  (covers : Covers c.function r actions before region pc)
  (innermost : ∀ before' region', Covers c.function r actions before' region' pc →
    before'.length ≤ before.length)

include session nested covers innermost

/-- An entry that would do is not shorter than the innermost region, and if it is not longer either, then
it is that of a region with the same places. -/
theorem Session.least {before' after' : List Action} {h : Handler} {stop : Nat} {w : World} {e : Value}
    (ends : Placed c.function r actions region.stop stop)
    (stands : Represents c.function r actions before' h) (split : actions = before' ++ after')
    (mem : h ∈ m.handlers) (covered : h.covers pc = true)
    (catches : (h.catches == "" || w.isHostInstance e h.catches) = true)
    (other : w.isHostInstance e Library.stopIterationClass = true →
      ¬Iterating c.function r actions m pc) :
    (stop : Int) - regionStart c.function r before region < h.span ∨
      (stop : Int) - regionStart c.function r before region = h.span ∧
        ∃ first rest region', before' = first ++ .perform (.openRegion region') :: rest ∧
          Covers c.function r actions first region' pc ∧
            Twins c.function r actions first region' before region := by
  obtain ⟨first, rest, region', opened, covers', start, stop', stops, ends'⟩ :=
    stands.covers split mem covered catches other
  obtain ⟨low, high⟩ := session.stretches_nested nested covers covers' ends ends'
    (innermost first region' covers')
  rw [Handler.span, start, stops]
  by_cases same : regionStart c.function r first region' = regionStart c.function r before region ∧
      stop = stop'
  · obtain ⟨begins, rfl⟩ := same
    exact .inr ⟨by omega, first, rest, region', opened, covers', begins, stop, ends', ends⟩
  · exact .inl (by omega)

/-- The region that is opened first of those that begin and end at the same places as the innermost one
handles what is raised. -/
theorem Session.delivers (covers₀ : Covers c.function r actions before₀ region₀ pc)
    (twins : Twins c.function r actions before₀ region₀ before region)
    (first : ∀ before' region', Covers c.function r actions before' region' pc →
      Twins c.function r actions before' region' before region → before₀.length ≤ before'.length) :
    ∃ target, Placed c.function r actions region₀.target target ∧
      RaisesTo c.function r actions m pc target := by
  obtain ⟨⟨after, split⟩, low, stop₀, ends₀, high⟩ := covers₀
  obtain ⟨begins, stop, ends, innerEnds⟩ := twins
  cases session.placed_unique ends₀ ends
  obtain ⟨t, reached, -⟩ := session.exists_state split
  obtain ⟨g, back, stop', target, table, catches, hs, he, ht, ends', handles⟩ :=
    session.opening split reached
  cases session.placed_unique ends ends'
  refine ⟨target, handles, fun call x x' q w w' e method step current raised exception other => ?_⟩
  have least {before' after' : List Action} {h : Handler}
      (stands : Represents c.function r actions before' h) (split : actions = before' ++ after')
      (listed : h ∈ m.handlers)
      (holds : (h.covers pc && (h.catches == "" || w'.isHostInstance e h.catches)) = true) :=
    session.least nested covers innermost innerEnds stands split listed
      (Bool.and_eq_true_iff.mp holds).1 (Bool.and_eq_true_iff.mp holds).2 other
  obtain ⟨-, complete, tabled⟩ := session.finished
  have found := tabled.find?_first (q := fun h =>
    h.covers pc && (h.catches == "" || w'.isHostInstance e h.catches)) table
    (resolve_eq_ok_iff.mpr ⟨_, _, _, hs, he, ht, rfl⟩) (by omega) ?_
    (fun g' mem h listed resolved holds => ?_) fun g' mem h listed resolved holds => ?_
  · obtain ⟨_, _, _, _, _, same, _⟩ := Frame.step_eq_ok step
    have handler : w'.handler? x'.method x'.current e = some (target : Int) := by
      rw [World.handler?, same.method, method, current, found]
      rfl
    simp only [Effect.turn, step, raised, handler]
  · simp [Handler.covers, catches, exception]
    omega
  · -- the ones before were opened earlier, so they are longer
    rcases least (session.represents split reached mem resolved) split listed holds with
      longer | ⟨-, first', rest, region', rfl, covers', twins⟩
    · rw [begins]
      exact longer
    · have le := first first' region' covers' twins
      simp at le
  · obtain ⟨-, -, ending, fresh, -, wrote⟩ := complete_eq_ok session.completed complete
    have old : g' ∈ s₃.assembler.handlers.toList := by
      rw [← List.append_nil s₃.assembler.handlers.toList, ← wrote.handlers, table]
      simp [mem]
    have all : actions = actions ++ [] := (List.append_nil actions).symm
    rw [begins]
    rcases least (session.represents all session.reached old resolved) all listed holds with
      longer | ⟨same, -⟩
    · exact longer.le
    · exact same.le

end Delivery

/-- What is raised at an instruction in nested regions goes to the handler of the innermost one that
covers it, if no other one begins and ends at the same places in the code. Otherwise it goes to the
handler of the region that was opened first of all that do. -/
theorem innermost_region_handles {before : List Action} {region : Region} {pc : Nat}
    (lowered : methodBy f r actions = .ok (.ok m)) (nested : Nested actions)
    (covers : Covers f r actions before region pc)
    (innermost : ∀ before' region', Covers f r actions before' region' pc →
      before'.length ≤ before.length) :
    ∃ before₀ region₀ target, Covers f r actions before₀ region₀ pc ∧
      Twins f r actions before₀ region₀ before region ∧
      (∀ before' region', Covers f r actions before' region' pc →
        Twins f r actions before' region' before region → before₀.length ≤ before'.length) ∧
      Placed f r actions region₀.target target ∧ RaisesTo f r actions m pc target ∧
      ((∀ before' region', Covers f r actions before' region' pc →
        Twins f r actions before' region' before region → before' = before) → region₀ = region) := by
  classical
  have session : ∃ s₃ s, Session ⟨f, Set.univ, fun _ _ => trivial⟩ r actions m s₃ s :=
    exists_session (fun _ _ => trivial) lowered
  obtain ⟨s₃, s, session⟩ := session
  have twin : Twins f r actions before region before region := by
    obtain ⟨-, -, stop, ends, -⟩ := covers
    exact ⟨rfl, stop, ends, ends⟩
  have some_ : ∃ n before' region', before'.length = n ∧ Covers f r actions before' region' pc ∧
      Twins f r actions before' region' before region := ⟨_, before, region, rfl, covers, twin⟩
  obtain ⟨before₀, region₀, length, covers₀, twins⟩ := Nat.find_spec some_
  have first : ∀ before' region', Covers f r actions before' region' pc →
      Twins f r actions before' region' before region → before₀.length ≤ before'.length := by
    intro before' region' covers' twins'
    rw [length]
    exact Nat.find_min' some_ ⟨before', region', rfl, covers', twins'⟩
  obtain ⟨target, handles, delivers⟩ :=
    session.delivers nested covers innermost covers₀ twins first
  refine ⟨before₀, region₀, target, covers₀, twins, first, handles, delivers, fun lone => ?_⟩
  obtain rfl := lone before₀ region₀ covers₀ twins
  obtain ⟨⟨after, split⟩, -⟩ := covers
  obtain ⟨⟨after₀, split₀⟩, -⟩ := covers₀
  have same := List.append_cancel_left (split₀.symm.trans split)
  cases same
  rfl

/-- An action stands behind those before it. -/
theorem take_of_split {before after : List Action} (split : actions = before ++ a :: after) :
    before = actions.take before.length ∧ actions[before.length]? = some a := by
  rw [split]
  simp

theorem placed_take {n p : Nat} (visit : actions[n]? = some (.visit o given))
    (size : codeAfter f r (actions.take n) = p) : Placed f r actions o p := by
  refine ⟨actions.take n, given, actions.drop (n + 1), ?_, size⟩
  obtain ⟨lt, same⟩ := List.getElem?_eq_some_iff.mp visit
  rw [← same, List.getElem_cons_drop, List.take_append_drop]

/-- A loop in two regions, the inner one of which is opened in each turn. Both end at the same place. -/
def nestedLoop : List Action := loopStart ++ .perform (.forIter 3) :: loopEnd

theorem nestedLoop_opened {before after : List Action} {region : Region}
    (split : nestedLoop = before ++ .perform (.openRegion region) :: after) :
    before = nestedLoop.take 1 ∧ region = ⟨3, 4, 0, false⟩ ∨
      before = nestedLoop.take 5 ∧ region = ⟨3, 5, 1, false⟩ := by
  obtain ⟨first, found⟩ := take_of_split split
  have lt : before.length < 16 := (List.getElem?_eq_some_iff.mp found).1
  rw [first]
  generalize before.length = n at found lt
  interval_cases n <;> simp [nestedLoop, loopStart, loopEnd] at found ⊢
  all_goals exact found.symm

theorem innermost_region_handles_nestedLoop :
    ∃ m, methodBy looping .builtin nestedLoop = .ok (.ok m) ∧ Nested nestedLoop ∧
      Covers looping .builtin nestedLoop (nestedLoop.take 5) ⟨3, 5, 1, false⟩ 53 ∧
      Covers looping .builtin nestedLoop (nestedLoop.take 1) ⟨3, 4, 0, false⟩ 53 ∧
      ∃ target, Placed looping .builtin nestedLoop 5 target ∧
        RaisesTo looping .builtin nestedLoop m 53 target := by
  have some_ : (method? looping .builtin nestedLoop).isSome = true := by decide +kernel
  obtain ⟨m, found⟩ := Option.isSome_iff_exists.mp some_
  have lowered := methodBy_of_method? found
  have nested : Nested nestedLoop := by decide
  have ends : Placed looping .builtin nestedLoop 3 107 := placed_take (n := 9) rfl (by decide +kernel)
  have inner : regionStart looping .builtin (nestedLoop.take 5) ⟨3, 5, 1, false⟩ = 53 := by
    decide +kernel
  have outer : regionStart looping .builtin (nestedLoop.take 1) ⟨3, 4, 0, false⟩ = 8 := by
    decide +kernel
  have covers : Covers looping .builtin nestedLoop (nestedLoop.take 5) ⟨3, 5, 1, false⟩ 53 :=
    ⟨⟨nestedLoop.drop 6, rfl⟩, inner.le, 107, ends, by decide⟩
  refine ⟨m, lowered, nested, covers,
    ⟨⟨nestedLoop.drop 2, rfl⟩, outer.trans_le (by decide), 107, ends, by decide⟩, ?_⟩
  obtain ⟨before₀, region₀, target, -, -, -, handles, delivers, alone⟩ :=
    innermost_region_handles lowered nested covers fun before' region' covers' => by
      obtain ⟨⟨after, split⟩, -⟩ := covers'
      rcases nestedLoop_opened split with ⟨rfl, -⟩ | ⟨rfl, -⟩
      · decide
      · exact le_rfl
  have own : region₀ = ⟨3, 5, 1, false⟩ := by
    refine alone fun before' region' covers' twins => ?_
    obtain ⟨⟨after, split⟩, -⟩ := covers'
    rcases nestedLoop_opened split with ⟨rfl, rfl⟩ | ⟨rfl, -⟩
    · -- the outer region begins elsewhere
      exact absurd (outer.symm.trans (twins.1.trans inner)) (by decide)
    · rfl
  subst own
  exact ⟨target, handles, delivers⟩

/-- Two regions without code between their openings, which end at the same offset. -/
def twinRegions : List Action :=
  [.visit 0 [], .perform (.openRegion ⟨3, 6, 0, false⟩), .visit 1 [],
    .perform (.openRegion ⟨3, 5, 0, false⟩), .visit 2 [], .perform (.loadLocal 0), .perform (.raise 1),
    .visit 3 [], .perform (.loadConst .none), .perform .returnValue, .visit 5 [.dynamic],
    .perform .returnValue, .visit 6 [.dynamic], .perform .returnValue]

theorem twinRegions_opened {before after : List Action} {region : Region}
    (split : twinRegions = before ++ .perform (.openRegion region) :: after) :
    1 ≤ before.length ∧ before.length ≤ 3 := by
  obtain ⟨-, found⟩ := take_of_split split
  have lt : before.length < 14 := (List.getElem?_eq_some_iff.mp found).1
  generalize before.length = n at found lt
  interval_cases n <;> simp [twinRegions] at found ⊢

/-- What is raised in the inner one of two regions that begin and end at the same places goes to the
handler of the outer one. -/
theorem twinRegions_outer : ∃ m, methodBy looping .builtin twinRegions = .ok (.ok m) ∧
    Nested twinRegions ∧ Placed looping .builtin twinRegions 5 46 ∧
      Placed looping .builtin twinRegions 6 59 ∧
        Covers looping .builtin twinRegions (twinRegions.take 3) ⟨3, 5, 0, false⟩ 41 ∧
          RaisesTo looping .builtin twinRegions m 41 59 := by
  have some_ : (method? looping .builtin twinRegions).isSome = true := by decide +kernel
  obtain ⟨m, found⟩ := Option.isSome_iff_exists.mp some_
  have lowered := methodBy_of_method? found
  have nested : Nested twinRegions := by decide
  have ends : Placed looping .builtin twinRegions 3 42 := placed_take (n := 7) rfl (by decide +kernel)
  have handles : Placed looping .builtin twinRegions 6 59 :=
    placed_take (n := 12) rfl (by decide +kernel)
  have outer : regionStart looping .builtin (twinRegions.take 1) ⟨3, 6, 0, false⟩ = 8 := by
    decide +kernel
  have inner : regionStart looping .builtin (twinRegions.take 3) ⟨3, 5, 0, false⟩ = 8 := by
    decide +kernel
  have covers : Covers looping .builtin twinRegions (twinRegions.take 3) ⟨3, 5, 0, false⟩ 41 :=
    ⟨⟨twinRegions.drop 4, rfl⟩, inner.trans_le (by decide), 42, ends, by decide⟩
  have covers₀ : Covers looping .builtin twinRegions (twinRegions.take 1) ⟨3, 6, 0, false⟩ 41 :=
    ⟨⟨twinRegions.drop 2, rfl⟩, outer.trans_le (by decide), 42, ends, by decide⟩
  refine ⟨m, lowered, nested, placed_take (n := 10) rfl (by decide +kernel), handles, covers, ?_⟩
  have session : ∃ s₃ s, Session ⟨looping, Set.univ, fun _ _ => trivial⟩ .builtin twinRegions m s₃ s :=
    exists_session (fun _ _ => trivial) lowered
  obtain ⟨s₃, s, session⟩ := session
  obtain ⟨target, placed, delivers⟩ := session.delivers nested covers (fun before' region' covers' => by
      obtain ⟨⟨after, split⟩, -⟩ := covers'
      exact (twinRegions_opened split).2) covers₀ ⟨outer.trans inner.symm, 42, ends, ends⟩
    fun before' region' covers' _ => by
      obtain ⟨⟨after, split⟩, -⟩ := covers'
      exact (twinRegions_opened split).1
  cases session.placed_unique handles placed
  exact delivers

end HostLowering.Lower
