import HostLowering.Object.Generator
import HostLowering.Proofs.Machine.Texts
import HostLowering.Proofs.Object.Execution

set_option autoImplicit false

/-! # Answers to requests

What the world answers to the requests that code for generators and calls makes: access to the fields
of a generator, making a new list, putting items into it and reading them. A list that is being made
leaves everything alone that was there before (`World.Gathers`).
-/

namespace HostLowering.Object

open Machine

/-! ## Storage -/

namespace Storage

variable {n : Nat}

variable {s : Storage} {place : Window} {more : List Value}

theorem items_add (s : Storage) (items : List Value) (room : Nat) :
    (s.add items room).2.items (s.add items room).1 = items := by
  simp [add, Storage.items, cells]

theorem items_append (s : Storage) (place : Window) (more : List Value) :
    (s.append place more).2.items (s.append place more).1 = s.items place ++ more := by
  unfold append
  dsimp only
  split
  · rename_i room
    cases found : s.blocks[place.block]? with
    | none =>
      -- there is no such block, so nothing was there and nothing is added
      have none : more = [] ∧ place.length = 0 := by
        simp only [cells, found, Option.getD_none, List.length_nil, Nat.le_zero,
          Nat.add_eq_zero_iff, List.length_eq_zero_iff] at room
        exact ⟨room.2, room.1⟩
      simp [Storage.items, none]
    | some block =>
      simp only [cells, found, Option.getD_some] at room
      have lt := (Array.getElem?_eq_some_iff.mp found).1
      have length : (block.take place.length ++ more).length = place.length + more.length := by
        rw [List.length_append, List.length_take]
        omega
      simp only [Storage.items, cells, fill, Array.getElem?_modify, found, if_pos,
        Option.map_some, Option.getD_some]
      rw [← length, List.take_left']
      rfl
  · exact items_add ..

theorem items_prepend (s : Storage) (place : Window) (v : Value) :
    (s.prepend place v).2.items (s.prepend place v).1 = v :: s.items place := by
  unfold prepend
  dsimp only
  rw [items_append, items_add]
  rfl

/-- Blocks are only written behind a number of them. -/
def Beyond (n : Nat) (s s' : Storage) : Prop :=
  s.blocks.size ≤ s'.blocks.size ∧ ∀ i < n, s'.blocks[i]? = s.blocks[i]?

theorem beyond_add (le : n ≤ s.blocks.size) (items : List Value) (room : Nat) :
    Beyond n s (s.add items room).2 ∧ n ≤ (s.add items room).1.block := by
  refine ⟨⟨by simp [add], fun i lt => ?_⟩, le⟩
  simp only [add]
  rw [Array.getElem?_push, if_neg (by omega)]

theorem beyond_append (le : n ≤ s.blocks.size) (there : n ≤ place.block) (more : List Value) :
    Beyond n s (s.append place more).2 ∧ n ≤ (s.append place more).1.block := by
  unfold append
  dsimp only
  split
  · refine ⟨⟨by simp [fill], fun i lt => ?_⟩, there⟩
    simp only [fill, Array.getElem?_modify]
    rw [if_neg (by omega)]
  · exact beyond_add le _ _

theorem Beyond.trans {s' s'' : Storage} (h : Beyond n s s') (h' : Beyond n s' s'') :
    Beyond n s s'' :=
  ⟨h.1.trans h'.1, fun i lt => (h'.2 i lt).trans (h.2 i lt)⟩

theorem beyond_prepend (le : n ≤ s.blocks.size) (v : Value) :
    Beyond n s (s.prepend place v).2 ∧ n ≤ (s.prepend place v).1.block := by
  unfold prepend
  dsimp only
  obtain ⟨first, there⟩ := beyond_add le [v] 1
  obtain ⟨second, there⟩ := beyond_append (le.trans first.1) there (s.items place)
  exact ⟨first.trans second, there⟩

end Storage

/-! ## Generators -/

namespace World

variable {w : World} {g v : Value} {G G' : Generator}

def withGenerator (w : World) (g : Value) (G : Generator) : World :=
  match g with
  | .object r => w.put r (.generator G)
  | _ => w

theorem object?_of_generator? (h : w.generator? g = some G) : w.object? g = some (.generator G) := by
  unfold generator? at h
  split at h
  · rename_i found
    rw [found]
    cases h
    rfl
  · cases h

theorem object?_push {o : Entity} (new : Entity) (h : w.object? v = some o) :
    (w.push new).object? v = some o := by
  cases v with
  | object r =>
    have lt : r.index < w.heap.size := (Array.getElem?_eq_some_iff.mp h).1
    exact (Array.getElem?_push_lt lt).trans ((Array.getElem?_eq_getElem lt).symm.trans h)
  | _ => cases h

theorem object?_push_self (w : World) (new : Entity) :
    (w.push new).object? (.object ⟨w.heap.size⟩) = some new :=
  Array.getElem?_push_size

theorem generator?_eq_some : w.generator? g = some G ↔ w.object? g = some (.generator G) := by
  refine ⟨object?_of_generator?, fun found => ?_⟩
  rw [generator?, found]

theorem object?_put {r : Ref} {o : Entity} (found : w.heap[r.index]? = some o) (new : Entity)
    (v : Value) : (w.put r new).object? v = if v = .object r then some new else w.object? v := by
  have lt : r.index < w.heap.size := (Array.getElem?_eq_some_iff.mp found).1
  cases v with
  | object r' =>
    simp only [put, object?, Value.object.injEq]
    rw [Array.getElem?_setIfInBounds]
    by_cases same : r' = r
    · subst same
      simp [lt]
    · have ne : r.index ≠ r'.index := fun eq => same (by cases r; cases r'; simp_all)
      rw [if_neg ne, if_neg same]
  | _ => simp [object?]

theorem object?_withGenerator (h : w.generator? g = some G) (v : Value) :
    (w.withGenerator g G').object? v = if v = g then some (.generator G') else w.object? v := by
  have found := object?_of_generator? h
  cases g with
  | object r => exact object?_put found _ v
  | _ => cases found

theorem generator?_withGenerator (h : w.generator? g = some G) :
    (w.withGenerator g G').generator? g = some G' := by
  rw [generator?, object?_withGenerator h, if_pos rfl]

theorem sequence?_withGenerator (h : w.generator? g = some G) (v : Value) :
    (w.withGenerator g G').sequence? v = w.sequence? v := by
  have window : (w.withGenerator g G').window? v = w.window? v := by
    unfold window?
    rw [object?_withGenerator h]
    by_cases same : v = g
    · rw [if_pos same, same, object?_of_generator? h]
    · rw [if_neg same]
  unfold sequence?
  rw [window]
  cases g <;> rfl

@[simp] theorem classes_withGenerator (w : World) (g : Value) (G : Generator) :
    (w.withGenerator g G).classes = w.classes := by
  cases g <;> rfl

@[simp] theorem byHost_withGenerator (w : World) (g : Value) (G : Generator) :
    (w.withGenerator g G).byHost = w.byHost := by
  cases g <;> rfl

theorem classOf?_withGenerator (h : w.generator? g = some G) (v : Value) :
    (w.withGenerator g G').classOf? v = w.classOf? v := by
  cases v with
  | object r =>
    show ((w.withGenerator g G').object? (.object r)).map Entity.cls =
      (w.object? (.object r)).map Entity.cls
    rw [object?_withGenerator h]
    by_cases same : .object r = g
    · rw [if_pos same, same, object?_of_generator? h]
      rfl
    · rw [if_neg same]
  | _ => rfl

/-- What a value can be used as does not change with a generator. -/
theorem isHostInstance_withGenerator (h : w.generator? g = some G) (v : Value) (host : String) :
    (w.withGenerator g G').isHostInstance v host = w.isHostInstance v host := by
  have found := object?_of_generator? h
  have lineage (c : ClassId) : (w.withGenerator g G').lineage c = w.lineage c := by
    simp [World.lineage, World.info]
  have info (c : ClassId) : (w.withGenerator g G').info c = w.info c := by
    simp [World.info]
  unfold isHostInstance
  rw [classOf?_withGenerator h]
  simp only [lineage, info]
  split
  · rfl
  · split
    · rw [object?_withGenerator h]
      by_cases same : v = g
      · subst same
        rw [if_pos rfl, found]
        cases v with
        | object r => rfl
        | _ => cases found
      · rw [if_neg same]
    · rfl

/-- Values can be used as what they could be used as before. -/
def KeepsClasses (w w' : World) : Prop :=
  ∀ v host, w.isHostInstance v host = true → w'.isHostInstance v host = true

theorem KeepsClasses.trans {w₁ w₂ w₃ : World} (h : w₁.KeepsClasses w₂) (h' : w₂.KeepsClasses w₃) :
    w₁.KeepsClasses w₃ :=
  fun v host used => h' v host (h v host used)

theorem keepsClasses_withGenerator (h : w.generator? g = some G) (G' : Generator) :
    w.KeepsClasses (w.withGenerator g G') :=
  fun v host used => (isHostInstance_withGenerator h v host).trans used

end World

/-! ## Running effects -/

section Effects

variable {α β : Type} {x : Effect α} {k : α → Effect β} {w w' : World}

theorem Effect.bind_ok {a : α} (h : x w = (.ok a, w')) : (x >>= k) w = k a w' := by
  simp only [Bind.bind, ExceptT.bind, ExceptT.mk, StateT.bind, h]
  rfl

theorem Effect.bind_error {e : Stop} (h : x w = (.error e, w')) : (x >>= k) w = (.error e, w') := by
  simp only [Bind.bind, ExceptT.bind, ExceptT.mk, StateT.bind, h]
  rfl

theorem Effect.bind_get {k : World → Effect β} : ((get : Effect World) >>= k) w = k w w := rfl

theorem Effect.write_generator {g : Value} {G : Generator} (gen : w.generator? g = some G)
    (G' : Generator) : Effect.write g (.generator G') w = (.ok (), w.withGenerator g G') := by
  have found := World.object?_of_generator? gen
  cases g with
  | object r => rfl
  | _ => cases found

theorem Effect.changeGenerator_eq {g : Value} {G : Generator} (gen : w.generator? g = some G)
    (f : Generator → Generator) :
    Effect.changeGenerator g f w = (.ok (), w.withGenerator g (f G)) := by
  rw [Effect.changeGenerator, Effect.bind_get, gen]
  exact Effect.write_generator gen _

end Effects

/-! ## Invocations of the library -/

theorem LibraryMethod.ofReference?_congr {r s : MethodRef} (like : r.Like s) :
    ofReference? r = ofReference? s := by
  unfold ofReference?
  rw [like.owner, like.name]

section Invocations

variable {call : Caller} {pool : Pool} {op : Opcode} {m : MethodRef} {L : LibraryMethod}
  {code : List Line} {stack : List Value} {locals : Array Value} {w w' : World} {v : Value}

/-- An invocation takes its operands off the stack and asks for the method found in the pool. -/
theorem ofLine_invoke (like : (pool.method m).Like m) (invoke : op.isInvoke = true)
    (args : List Value) (count : args.length = m.operandCount op) :
    Act.ofLine pool (args.reverse ++ stack) locals (.invoke op m) =
      .ask (.invoke op (pool.method m) args) stack := by
  have operands : (pool.method m).operandCount op = args.reverse.length := by
    rw [List.length_reverse, count, MethodRef.operandCount, MethodRef.operandCount, like.params]
  rw [Act.ofLine, Act.invoke, if_pos ⟨invoke, by rw [operands, List.length_append]; omega⟩, operands,
    List.take_left, List.drop_left, List.reverse_reverse]

theorem pushesAnswer_invoke (like : (pool.method m).Like m) (args : List Value) :
    (Request.invoke op (pool.method m) args).pushesAnswer = m.pushesResult := by
  rw [Request.pushesAnswer, MethodRef.pushesResult, MethodRef.pushesResult, like.returns]

theorem serve_library (like : (pool.method m).Like m) (known : LibraryMethod.ofReference? m = some L)
    (args : List Value) (w : World) :
    Effect.serve call (.invoke op (pool.method m) args) w = Effect.library call L args w := by
  rw [Effect.serve, Effect.invoke, LibraryMethod.ofReference?_congr like, known]

theorem exec_library (like : (pool.method m).Like m) (invoke : op.isInvoke = true)
    (known : LibraryMethod.ofReference? m = some L) (args : List Value)
    (count : args.length = m.operandCount op)
    (performed : Effect.library call L args w = (.ok v, w')) :
    exec call pool (.invoke op m :: code) none (args.reverse ++ stack) locals w =
      exec call pool code none (if m.pushesResult then v :: stack else stack) locals w' := by
  rw [exec_ask (ofLine_invoke like invoke args count) ((serve_library like known args w).trans performed),
    pushesAnswer_invoke like]

end Invocations

/-! ## Fields of generators -/

section Fields

variable {call : Caller} {w : World} {g v : Value} {G : Generator}

def Generator.withField (G : Generator) (f : FieldRef) (v : Value) : Generator :=
  { G with fields := G.fields.set f.name v }

theorem Generator.field_withField (G : Generator) (f : FieldRef) (v : Value) (name : String) :
    (G.withField f v).field name = if f.name = name then v else G.field name := by
  unfold Generator.field Generator.withField
  rw [Table.get?_set]
  by_cases same : f.name = name
  · rw [if_pos same, if_pos (beq_iff_eq.mpr same)]
    rfl
  · rw [if_neg same, if_neg (mt beq_iff_eq.mp same)]

theorem serve_getField (h : w.generator? g = some G) (f : FieldRef) :
    Effect.serve call (.getField f g) w = (.ok (G.field f.name), w) := by
  rw [Effect.serve, Effect.readField, Effect.bind_get, World.object?_of_generator? h]
  rfl

theorem serve_putField (h : w.generator? g = some G) (f : FieldRef) (v : Value) :
    Effect.serve call (.putField f g v) w = (.ok .null, w.withGenerator g (G.withField f v)) := by
  have writes : Effect.writeField f g v w = (.ok (), w.withGenerator g (G.withField f v)) := by
    rw [Effect.writeField, Effect.bind_get, World.object?_of_generator? h]
    exact Effect.write_generator h _
  rw [Effect.serve, Effect.bind_ok writes]
  rfl

end Fields

/-! ## Lists in the making -/

/-- Between two worlds objects may have been made, and nothing else has happened to what was there. -/
structure World.Extends (w w' : World) : Prop where
  heap : w.heap.size ≤ w'.heap.size ∧ ∀ i < w.heap.size, w'.heap[i]? = w.heap[i]?
  storage : Storage.Beyond w.storage.blocks.size w.storage w'.storage
  classes : w'.classes = w.classes
  byHost : w'.byHost = w.byHost

/-- Between two worlds a list of items has been made. -/
structure World.Gathers (w : World) (l : Value) (items : List Value) (w' : World) : Prop
    extends World.Extends w w' where
  list : ∃ r place, l = .object r ∧ w.heap.size ≤ r.index ∧
    w'.heap[r.index]? = some (.sequence .list place) ∧ w.storage.blocks.size ≤ place.block ∧
    w'.items place = items

section Lists

variable {call : Caller} {w w' : World} {l g v : Value} {items : List Value} {G : Generator}

theorem World.exists_window {kind : SequenceKind} (h : w.sequence? l = some (kind, items)) :
    ∃ ref place, l = .object ref ∧ w.heap[ref.index]? = some (.sequence kind place) ∧
      w.items place = items := by
  unfold World.sequence? World.window? at h
  split at h
  · rename_i found
    cases h
    cases l with
    | object ref => exact ⟨ref, _, rfl, found, rfl⟩
    | _ => cases found
  · cases h

theorem World.Gathers.sequence? (h : w.Gathers l items w') :
    w'.sequence? l = some (.list, items) := by
  obtain ⟨r, place, rfl, -, found, -, rfl⟩ := h.list
  simp [World.sequence?, World.window?, World.object?, found]

/-- An object that was there is still there. -/
theorem World.Extends.object? (h : w.Extends w') {o : Entity} (found : w.object? v = some o) :
    w'.object? v = some o := by
  cases v with
  | object r => exact (h.heap.2 _ (Array.getElem?_eq_some_iff.mp found).1).trans found
  | _ => cases found

theorem World.Extends.generator? (h : w.Extends w') (found : w.generator? g = some G) :
    w'.generator? g = some G := by
  rw [World.generator?, h.object? (World.object?_of_generator? found)]

theorem World.Extends.keepsClasses (h : w.Extends w') : w.KeepsClasses w' := by
  intro v host used
  have lineage (c : ClassId) : w'.lineage c = w.lineage c := by
    simp only [World.lineage, World.info, h.classes]
  have info (c : ClassId) : w'.info c = w.info c := by
    simp only [World.info, h.classes]
  unfold World.isHostInstance at used ⊢
  simp only [lineage, info]
  cases v with
  | object r =>
    cases found : w.object? (.object r) with
    | none =>
      have none_ : w.classOf? (.object r) = none := congrArg (Option.map Entity.cls) found
      simp [none_, found] at used
    | some o =>
      have found' := h.object? found
      have same : w'.classOf? (.object r) = w.classOf? (.object r) :=
        congrArg (Option.map Entity.cls) (found'.trans found.symm)
      rw [same, found']
      rwa [found] at used
  | _ => exact used

theorem World.extends_push (w : World) (o : Entity) : w.Extends (w.push o) := by
  refine ⟨⟨by simp [World.push], fun i lt => ?_⟩, ⟨le_rfl, fun _ _ => rfl⟩, rfl, rfl⟩
  exact (Array.getElem?_push_lt lt).trans (Array.getElem?_eq_getElem lt).symm

/-- A copy of items is a list of its own. -/
theorem gathers_newCopy (w : World) (items : List Value) :
    ∃ v w', Effect.newCopy .list items w = (.ok v, w') ∧ w.Gathers v items w' := by
  obtain ⟨beyond, there⟩ := Storage.beyond_add (s := w.storage) le_rfl items (roomFor items.length)
  exact ⟨_, _, rfl, ⟨(World.extends_push w _).heap, beyond, rfl, rfl⟩,
    ⟨_, _, rfl, le_rfl, Array.getElem?_push_size, there, Storage.items_add ..⟩⟩

theorem serve_allocate_list (known : w.byHost.get? Library.listClass = some .list) :
    ∃ l w', (∀ call, Effect.serve call (.allocate Library.listClass) w = (.ok l, w')) ∧
      w.Gathers l [] w' := by
  obtain ⟨l, w', copied, gathers⟩ := gathers_newCopy w []
  refine ⟨l, w', fun call => ?_, gathers⟩
  rw [Effect.serve, Effect.allocate, Effect.bind_get, known]
  exact copied

/-- The items of a sequence are changed where it stands. -/
theorem changeItems_object {r : Ref} {kind : SequenceKind} {place : Window}
    (found : w.heap[r.index]? = some (.sequence kind place))
    (step : Storage → Window → Window × Storage) :
    Effect.changeItems (.object r) step w =
      (.ok (), World.put { w with storage := (step w.storage place).2 } r
        (.sequence kind (step w.storage place).1)) := by
  have window : Effect.window (.object r) w = (.ok (kind, place), w) := by
    rw [Effect.window, Effect.bind_get]
    simp only [World.window?, World.object?, found]
    rfl
  rw [Effect.changeItems, Effect.bind_ok window]
  rfl

theorem World.Gathers.change (h : w.Gathers l items w') (step : Storage → Window → Window × Storage)
    (more : List Value)
    (beyond : ∀ s place, w.storage.blocks.size ≤ s.blocks.size → w.storage.blocks.size ≤ place.block →
      Storage.Beyond w.storage.blocks.size s (step s place).2 ∧
        w.storage.blocks.size ≤ (step s place).1.block)
    (items' : ∀ s place, s.items place = items → (step s place).2.items (step s place).1 = more) :
    ∃ w'', Effect.changeItems l step w' = (.ok (), w'') ∧ w.Gathers l more w'' := by
  obtain ⟨⟨heap, storage, classes, byHost⟩, r, place, rfl, fresh, found, there, same⟩ := h
  have lt : r.index < w'.heap.size := (Array.getElem?_eq_some_iff.mp found).1
  obtain ⟨keeps, there'⟩ := beyond w'.storage place storage.1 there
  refine ⟨_, changeItems_object found step, ⟨⟨by simpa [World.put] using heap.1, fun i old => ?_⟩,
    storage.trans keeps, classes, byHost⟩,
    ⟨r, _, rfl, fresh, by simp [World.put, lt], there', items' _ _ same⟩⟩
  show (w'.heap.setIfInBounds r.index _)[i]? = _
  rw [Array.getElem?_setIfInBounds, if_neg (by omega)]
  exact heap.2 i old

/-- An item is put in front of a list. -/
theorem World.Gathers.prepend (h : w.Gathers l items w') (v : Value) : ∃ w'',
    (∀ call, Effect.library call .addFirst [l, v] w' = (.ok .null, w'')) ∧
      w.Gathers l (v :: items) w'' := by
  obtain ⟨w'', changed, gathers⟩ := h.change (·.prepend · v) (v :: items)
    (fun s place le _ => Storage.beyond_prepend le v) fun s place same => by
      rw [Storage.items_prepend, same]
  refine ⟨w'', fun call => ?_, gathers⟩
  rw [Effect.library, Effect.bind_ok changed]
  rfl

/-- An item is put behind a list. -/
theorem World.Gathers.append (h : w.Gathers l items w') (v : Value) : ∃ w'',
    (∀ call, Effect.library call .addLast [l, v] w' = (.ok .null, w'')) ∧
      w.Gathers l (items ++ [v]) w'' := by
  obtain ⟨w'', changed, gathers⟩ := h.change (·.append · [v]) (items ++ [v])
    (fun s place le there => Storage.beyond_append le there [v]) fun s place same => by
      rw [Storage.items_append, same]
  refine ⟨w'', fun call => ?_, gathers⟩
  rw [Effect.library, Effect.bind_ok changed]
  rfl

theorem sequence_eq {kind : SequenceKind} (h : w.sequence? l = some (kind, items)) :
    Effect.sequence l w = (.ok (kind, items), w) := by
  rw [Effect.sequence, Effect.bind_get, h]
  rfl

/-- An item of a list is read. -/
theorem library_itemAt {kind : SequenceKind} (h : w.sequence? l = some (kind, items)) {i : Nat}
    (found : items[i]? = some v) (small : i < 2 ^ 63) :
    Effect.library call .itemAt [l, .word (.ofInt i)] w = (.ok v, w) := by
  have value : (Int64.ofInt i).toInt = i := Int64.toInt_ofInt_of_le (by omega) (by omega)
  have nonneg : ¬(Int64.ofInt i < 0) := by
    rw [Int64.lt_iff_toInt_lt, value]
    simp
  have lt : i < items.length := (List.getElem?_eq_some_iff.mp found).1
  rw [Effect.library, Effect.itemAt, Effect.bind_ok (sequence_eq h)]
  simp only [if_neg nonneg, value, Int.toNat_natCast, found]
  rw [if_pos ⟨by omega, by omega⟩]
  rfl

end Lists

end HostLowering.Object
