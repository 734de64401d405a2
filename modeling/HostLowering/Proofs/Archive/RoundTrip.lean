import HostLowering.Archive.Basic
import HostLowering.Proofs.Archive.Items

set_option autoImplicit false

/-!
# Stored methods and archives read back

A record is written with its optional entries left out when they are empty, and a missing entry
reads as the empty value: reading a record back comes down to looking up each field among the
entries that were written. On top of that stand the items: each record keeps the limits of the
reader (`Sound`) when its texts, lists and numbers do, which `StorableMethod` and
`StorableBundle` say.
-/

namespace HostLowering.Archive

open Cbor Machine

variable {n : Int} {i : Item} {room : Nat} {m : Method} {a : Bundle}

/-! ## Values -/

/-- What the loop of `ByteArray.toList` has still to add is the part from `i` on. -/
theorem toList_loop (bs : ByteArray) (i : Nat) (before : List UInt8) :
    ByteArray.toList.loop bs i before = before.reverse ++ bs.data.toList.drop i := by
  fun_induction ByteArray.toList.loop bs i before with
  | case1 i before more ih =>
    have inside : i < bs.data.toList.length := by simpa using more
    rw [ih, List.drop_eq_getElem_cons inside]
    simp [ByteArray.get!, more]
  | case2 i before done =>
    rw [List.drop_eq_nil_of_le (by simpa using Nat.le_of_not_lt done)]
    simp

theorem toArray_toList (bs : ByteArray) : bs.toList.toArray = bs.data := by
  rw [ByteArray.toList, toList_loop]
  simp

theorem length_toList (bs : ByteArray) : bs.toList.length = bs.size := by
  rw [← List.size_toArray, toArray_toList]
  rfl

theorem readString_string (s : String) : readString (.string s) = some s := by
  have valid : String.fromUTF8? ⟨s.toUTF8.toList.toArray⟩ = some s := by
    rw [toArray_toList, String.fromUTF8?]
    exact dif_pos s.isValidUTF8
  rw [Item.string, readString, textValue, List.mapM_cons, valid]
  simp [String.join]

theorem readInt_int {least greatest : Int} (low : least ≤ n) (high : n ≤ greatest) :
    readInt least greatest (.int n) = some n := by
  rw [Item.int]
  split_ifs with sign
  · rw [readInt, Int.toNat_of_nonneg sign, readInt.inRange]
    simp [low, high]
  · have value : -1 - ((-1 - n).toNat : Int) = n := by omega
    rw [readInt, value, if_pos (by omega), readInt.inRange]
    simp [low, high]

theorem readByte_unsigned (b : UInt8) : readByte (.unsigned b.toNat) = some b := by
  have high : (b.toNat : Int) ≤ 255 := by
    have := b.toNat_lt
    omega
  rw [readByte, readInt, readInt.inRange]
  have value : ((b.toNat : Int) % 256).toNat = b.toNat := by omega
  simp [high, UInt8.ofInt, value]

theorem readBody_body (body : Option (Array UInt8)) :
    readBody (match body with | some b => .bytes b.toList | none => .null) = some body := by
  cases body with
  | none => rfl
  | some b => simp [readBody]

theorem readList_array {α : Type} {read : Item → Option α} {write : α → Item} {xs : List α}
    (one : ∀ x ∈ xs, read (write x) = some x) :
    readList read (.array (xs.map write)) = some xs := by
  rw [readList]
  induction xs with
  | nil => rfl
  | cons x xs ih =>
    rw [List.forall_mem_cons] at one
    rw [List.map_cons, List.mapM_cons, one.1, ih one.2]
    rfl

/-! ## Records -/

/-- The fields of a record: distinct keys of one digit, each with its value unless it is left
out. -/
structure Fields where
  list : List (Nat × Option Item)
  distinct : (list.map Prod.fst).Nodup := by simp
  small : ∀ p ∈ list, p.1 < 9 := by simp
  few : list.length < 9 := by simp

def written : List (Nat × Option Item) → List Item
  | [] => []
  | (key, some value) :: fields => entry key value ++ written fields
  | (_, none) :: fields => written fields

/-- The entries that stand in such a record. -/
def present (fields : List (Nat × Option Item)) : List (Int × Item) :=
  fields.filterMap fun p => p.2.map (Prod.mk (p.1 : Int))

/-- A value left out on a condition. -/
def omitIf (omitted : Bool) (value : Item) : Option Item := if omitted then none else some value

theorem entriesOf_written {fields : List (Nat × Option Item)} (small : ∀ p ∈ fields, p.1 < 9) :
    entriesOf (written fields) = some (present fields) := by
  induction fields with
  | nil => rfl
  | cons p fields ih =>
    rw [List.forall_mem_cons] at small
    obtain ⟨key, value⟩ := p
    have number : (key : Int).bmod 0x10000000000000000 = key := by
      have := small.1
      apply Int.bmod_eq_of_le <;> omega
    cases value with
    | none => simpa [written, present] using ih small.2
    | some value =>
      rw [written, entry, List.cons_append, List.cons_append, List.nil_append, entriesOf,
        keyNumber, number, ih small.2]
      rfl

theorem Fields.readRecord_written (fields : Fields) :
    readRecord (.map (written fields.list)) = some (present fields.list) := by
  rw [readRecord, entriesOf_written fields.small]

@[simp] theorem written_nil : written [] = [] := rfl

@[simp] theorem written_some (key : Nat) (value : Item) (fields : List (Nat × Option Item)) :
    written ((key, some value) :: fields) = entry key value ++ written fields := rfl

@[simp] theorem written_omitIf (key : Nat) (omitted : Bool) (value : Item)
    (fields : List (Nat × Option Item)) :
    written ((key, omitIf omitted value) :: fields)
      = entryIf (!omitted) key value ++ written fields := by
  cases omitted <;> rfl

theorem mem_present {fields : List (Nat × Option Item)} {key : Int}
    (standing : (key, i) ∈ present fields) : ∃ k : Nat, key = k ∧ (k, some i) ∈ fields := by
  obtain ⟨⟨k, value⟩, member, same⟩ := List.mem_filterMap.mp standing
  cases value with
  | none => exact absurd same nofun
  | some value =>
    obtain ⟨rfl, rfl⟩ := Prod.mk.inj (Option.some.inj same)
    exact ⟨k, rfl, member⟩

/-- Looking a key up among the entries finds the value written for it. -/
theorem lookup_present {fields : List (Nat × Option Item)}
    (distinct : (fields.map Prod.fst).Nodup) {key : Nat} {value : Option Item}
    (stands : fields.lookup key = some value) :
    (present fields).lookup (key : Int) = value := by
  induction fields with
  | nil => exact absurd stands nofun
  | cons p fields ih =>
    obtain ⟨k, v⟩ := p
    rw [List.map_cons, List.nodup_cons] at distinct
    by_cases same : key = k
    · subst same
      rw [List.lookup_cons_self, Option.some_inj] at stands
      subst stands
      cases v with
      | some i => simp [present]
      | none =>
        -- a key that is left out here stands nowhere else
        rw [List.lookup_eq_none_iff]
        rintro ⟨k, i⟩ standing
        obtain ⟨k, rfl, member⟩ := mem_present (show _ ∈ present fields from standing)
        have elsewhere : key ≠ k := by
          rintro rfl
          exact distinct.1 (List.mem_map.mpr ⟨_, member, rfl⟩)
        simpa using elsewhere
    · have other : ((key : Int) == (k : Int)) = false := by
        apply beq_false_of_ne
        omega
      rw [List.lookup_cons, beq_false_of_ne same] at stands
      have later := ih distinct.2 stands
      cases v <;> simpa [present, List.lookup_cons, other] using later

section

variable (fields : Fields) (key : Nat) {α : Type} {empty x : α} {read : Item → Option α}

theorem Fields.field_written (stands : fields.list.lookup key = some (some i))
    (reads : read i = some x) : field (present fields.list) key empty read = some x := by
  rw [field, lookup_present fields.distinct stands]
  exact reads

theorem Fields.field_omitIf {omitted : Bool}
    (stands : fields.list.lookup key = some (omitIf omitted i))
    (reads : omitted = false → read i = some x) (isEmpty : omitted = true → x = empty) :
    field (present fields.list) key empty read = some x := by
  rw [field, lookup_present fields.distinct stands]
  cases omitted with
  | true => rw [isEmpty rfl]; rfl
  | false => exact reads rfl

theorem Fields.field_optional {part : Option α} {write : α → Item}
    (stands : fields.list.lookup key = some (part.map write))
    (reads : ∀ y, read (write y) = some y) (notNull : ∀ y, (write y).isNull = false) :
    field (present fields.list) key none (readOptional read) = some part := by
  rw [field, lookup_present fields.distinct stands]
  cases part with
  | none => rfl
  | some y => simp [readOptional, notNull, reads]

end

theorem length_written (fields : List (Nat × Option Item)) :
    (written fields).length = 2 * (present fields).length := by
  induction fields with
  | nil => rfl
  | cons p fields ih =>
    obtain ⟨key, value⟩ := p
    cases value with
    | none => simpa [written, present] using ih
    | some value =>
      show (written fields).length + 2 = 2 * ((present fields).length + 1)
      omega

/-- A record holds its keys and the values that are not left out. -/
theorem mem_written {fields : List (Nat × Option Item)} (member : i ∈ written fields) :
    (∃ p ∈ fields, i = .unsigned p.1) ∨ ∃ key, (key, some i) ∈ fields := by
  induction fields with
  | nil => exact absurd member nofun
  | cons p fields ih =>
    obtain ⟨key, value⟩ := p
    have later : i ∈ written fields → (∃ q ∈ (key, value) :: fields, i = .unsigned q.1) ∨
        ∃ k, (k, some i) ∈ (key, value) :: fields := by
      intro member
      rcases ih member with ⟨q, hq, rfl⟩ | ⟨k, hk⟩
      · exact .inl ⟨q, List.mem_cons_of_mem _ hq, rfl⟩
      · exact .inr ⟨k, List.mem_cons_of_mem _ hk⟩
    cases value with
    | none => exact later member
    | some value =>
      rcases List.mem_cons.mp member with rfl | member
      · exact .inl ⟨_, List.mem_cons_self, rfl⟩
      rcases List.mem_cons.mp member with rfl | member
      · exact .inr ⟨key, List.mem_cons_self⟩
      · exact later member

def SoundPart (room : Nat) (value : Option Item) : Prop := ∀ i ∈ value, Sound room i

@[simp] theorem soundPart_some : SoundPart room (some i) ↔ Sound room i := by
  simp [SoundPart]

theorem soundPart_omitIf (sound : Sound room i) (omitted : Bool) :
    SoundPart room (omitIf omitted i) := by
  cases omitted with
  | true => exact nofun
  | false => exact soundPart_some.mpr sound

theorem soundPart_map {α : Type} {part : Option α} {write : α → Item}
    (sound : ∀ x ∈ part, Sound room (write x)) : SoundPart room (part.map write) := by
  cases part with
  | none => exact nofun
  | some x => exact soundPart_some.mpr (sound x rfl)

theorem Fields.sound_written (fields : Fields) (sound : ∀ p ∈ fields.list, SoundPart room p.2) :
    Sound (room + 1) (.map (written fields.list)) := by
  apply Sound.map (length_written _)
  · have few : (present fields.list).length ≤ fields.list.length := List.length_filterMap_le ..
    have := fields.few
    exact le_trans few (by unfold maxElements; omega)
  · intro i member
    rcases mem_written member with ⟨p, hp, rfl⟩ | ⟨key, hi⟩
    · apply Sound.unsigned
      have := fields.small p hp
      omega
    · exact sound _ hi i rfl

/-! ## What can be stored -/

/-- A text whose length a head can hold. -/
def Short (s : String) : Prop := s.utf8ByteSize < 2 ^ 64

/-- A signed 64-bit number. -/
def Word (n : Int) : Prop := -2 ^ 63 ≤ n ∧ n < 2 ^ 63

/-- A list with no more elements than the reader takes, all of which have a property. -/
@[mk_iff] structure Few {α : Type} (p : α → Prop) (xs : List α) : Prop where
  length : xs.length ≤ maxElements
  each : ∀ x ∈ xs, p x

/-- Field references that can be stored. -/
@[mk_iff] structure StorableField (f : FieldRef) : Prop where
  owner : Short f.owner
  name : Short f.name
  type : Short f.type

/-- Method references that can be stored. -/
@[mk_iff] structure StorableMethodRef (m : MethodRef) : Prop where
  owner : Short m.owner
  name : Short m.name
  params : Few Short m.params
  returns : Short m.returns

/-- Constants that can be stored. -/
@[mk_iff] structure StorableConstant (c : Constant) : Prop where
  text : Short c.text
  field : ∀ f ∈ c.field, StorableField f
  method : ∀ m ∈ c.method, StorableMethodRef m

/-- Exception table entries that can be stored. -/
@[mk_iff] structure StorableHandler (h : Handler) : Prop where
  start : Word h.start
  stop : Word h.stop
  target : Word h.target
  catches : Short h.catches

/-- Methods that can be stored. -/
@[mk_iff] structure StorableMethod (m : Method) : Prop where
  owner : Short m.owner
  name : Short m.name
  params : Few Short m.params
  body : ∀ b ∈ m.body, b.size < 2 ^ 64
  pool : Few StorableConstant m.pool.toList
  handlers : Few StorableHandler m.handlers
  maxStack : Word m.maxStack
  maxLocals : Word m.maxLocals

/-- Archives that can be stored. -/
@[mk_iff] structure StorableBundle (a : Bundle) : Prop where
  version : Word a.version
  unit : Short a.unit
  methods : ∀ ms ∈ a.methods, Few (fun m => ∀ x ∈ m, StorableMethod x) ms

instance (s : String) : Decidable (Short s) := inferInstanceAs (Decidable (_ < _))

instance (n : Int) : Decidable (Word n) := inferInstanceAs (Decidable (_ ∧ _))

instance {α : Type} (p : α → Prop) [DecidablePred p] (xs : List α) : Decidable (Few p xs) :=
  decidable_of_iff' _ (few_iff p xs)

instance (f : FieldRef) : Decidable (StorableField f) := decidable_of_iff' _ (storableField_iff f)

instance (m : MethodRef) : Decidable (StorableMethodRef m) :=
  decidable_of_iff' _ (storableMethodRef_iff m)

instance (c : Constant) : Decidable (StorableConstant c) :=
  decidable_of_iff' _ (storableConstant_iff c)

instance (h : Handler) : Decidable (StorableHandler h) :=
  decidable_of_iff' _ (storableHandler_iff h)

instance (m : Method) : Decidable (StorableMethod m) := decidable_of_iff' _ (storableMethod_iff m)

instance (a : Bundle) : Decidable (StorableBundle a) := decidable_of_iff' _ (storableBundle_iff a)

theorem Word.sound (word : Word n) : Sound room (.int n) := by
  have := word.1
  have := word.2
  rw [Item.int]
  split_ifs
  · exact .unsigned (by omega)
  · exact .negative (by omega)

theorem Word.reads (word : Word n) : readInt64 (.int n) = some n := by
  apply readInt_int word.1
  have := word.2
  omega

theorem Short.sound {s : String} (short : Short s) : Sound room (.string s) := by
  apply Sound.text
  rw [length_toList]
  exact short

theorem Few.sound {α : Type} {p : α → Prop} {xs : List α} (few : Few p xs) {write : α → Item}
    (one : ∀ x, p x → Sound room (write x)) : Sound (room + 1) (.array (xs.map write)) := by
  apply Sound.array
  · rw [List.length_map]
    exact few.length
  · rw [List.forall_mem_map]
    exact fun x hx => one x (few.each x hx)

/-! ## References, constants and exception table entries -/

def fieldFields (f : FieldRef) : Fields where
  list := [(1, some (.string f.owner)), (2, some (.string f.name)), (3, some (.string f.type))]

theorem fieldItem_eq (f : FieldRef) : fieldItem f = .map (written (fieldFields f).list) := rfl

theorem readFieldRef_fieldItem (f : FieldRef) : readFieldRef (fieldItem f) = some f := by
  rw [readFieldRef, fieldItem_eq, Fields.readRecord_written]
  have owner : field (present _) 1 "" readString = some f.owner :=
    (fieldFields f).field_written 1 rfl (readString_string _)
  have name : field (present _) 2 "" readString = some f.name :=
    (fieldFields f).field_written 2 rfl (readString_string _)
  have type : field (present _) 3 "" readString = some f.type :=
    (fieldFields f).field_written 3 rfl (readString_string _)
  simp [owner, name, type]

theorem StorableField.sound {f : FieldRef} (h : StorableField f) :
    Sound (room + 1) (fieldItem f) := by
  rw [fieldItem_eq]
  apply Fields.sound_written
  simp [fieldFields, h.owner.sound, h.name.sound, h.type.sound]

def methodRefFields (m : MethodRef) : Fields where
  list := [(1, some (.string m.owner)), (2, some (.string m.name)),
    (3, omitIf m.params.isEmpty (stringList m.params)), (4, some (.string m.returns)),
    (5, omitIf (!m.isInterface) (.bool true))]

theorem methodRefItem_eq (m : MethodRef) :
    methodRefItem m = .map (written (methodRefFields m).list) := by
  simp [methodRefItem, methodRefFields]

theorem readList_stringList (xs : List String) :
    readList readString (stringList xs) = some xs :=
  readList_array fun x _ => readString_string x

theorem readMethodRef_methodRefItem (m : MethodRef) :
    readMethodRef (methodRefItem m) = some m := by
  rw [readMethodRef, methodRefItem_eq, Fields.readRecord_written]
  have owner : field (present _) 1 "" readString = some m.owner :=
    (methodRefFields m).field_written 1 rfl (readString_string _)
  have name : field (present _) 2 "" readString = some m.name :=
    (methodRefFields m).field_written 2 rfl (readString_string _)
  have params : field (present _) 3 [] (readList readString) = some m.params :=
    (methodRefFields m).field_omitIf 3 rfl (fun _ => readList_stringList _) (by simp)
  have returns : field (present _) 4 "" readString = some m.returns :=
    (methodRefFields m).field_written 4 rfl (readString_string _)
  have isInterface : field (present _) 5 false readBool = some m.isInterface :=
    (methodRefFields m).field_omitIf 5 rfl (by simp +contextual [Item.bool, readBool]) (by simp)
  simp [owner, name, params, returns, isInterface]

theorem StorableMethodRef.sound {m : MethodRef} (h : StorableMethodRef m) :
    Sound (room + 2) (methodRefItem m) := by
  rw [methodRefItem_eq]
  apply Fields.sound_written
  have params : SoundPart (room + 1) (omitIf m.params.isEmpty (stringList m.params)) :=
    soundPart_omitIf (h.params.sound fun _ short => short.sound) _
  have isInterface : SoundPart (room + 1) (omitIf (!m.isInterface) (.bool true)) :=
    soundPart_omitIf (.simple (by decide)) _
  simp [methodRefFields, h.owner.sound, h.name.sound, params, h.returns.sound, isInterface]

def constantFields (c : Constant) : Fields where
  list := [(1, some (.unsigned c.kind.toNat)), (2, omitIf (c.text == "") (.string c.text)),
    (3, omitIf (c.value == 0) (.int c.value.toInt)), (4, c.field.map fieldItem),
    (5, c.method.map methodRefItem)]

theorem constantItem_eq (c : Constant) :
    constantItem c = .map (written (constantFields c).list) := by
  obtain ⟨kind, text, value, field, method⟩ := c
  cases field <;> cases method <;> simp [constantItem, constantFields, written, bne]

theorem readConstant_constantItem (c : Constant) : readConstant (constantItem c) = some c := by
  rw [readConstant, constantItem_eq, Fields.readRecord_written]
  have kind : field (present _) 1 0 readByte = some c.kind :=
    (constantFields c).field_written 1 rfl (readByte_unsigned _)
  have text : field (present _) 2 "" readString = some c.text :=
    (constantFields c).field_omitIf 2 rfl (fun _ => readString_string _) (by simp)
  have value : field (present _) 3 0 readInt64 = some c.value.toInt :=
    (constantFields c).field_omitIf 3 rfl
      (fun _ => Word.reads ⟨c.value.le_toInt, c.value.toInt_lt⟩)
      (by simp +contextual)
  have fieldRef : field (present _) 4 none (readOptional readFieldRef) = some c.field :=
    (constantFields c).field_optional 4 rfl readFieldRef_fieldItem fun _ => rfl
  have methodRef : field (present _) 5 none (readOptional readMethodRef) = some c.method :=
    (constantFields c).field_optional 5 rfl readMethodRef_methodRefItem fun _ => rfl
  simp [kind, text, value, fieldRef, methodRef]

theorem StorableConstant.sound {c : Constant} (h : StorableConstant c) :
    Sound (room + 3) (constantItem c) := by
  rw [constantItem_eq]
  apply Fields.sound_written
  have kind : Sound (room + 2) (.unsigned c.kind.toNat) :=
    .unsigned (lt_trans c.kind.toNat_lt (by decide))
  have text : SoundPart (room + 2) (omitIf (c.text == "") (.string c.text)) :=
    soundPart_omitIf h.text.sound _
  have value : SoundPart (room + 2) (omitIf (c.value == 0) (.int c.value.toInt)) :=
    soundPart_omitIf (Word.sound ⟨c.value.le_toInt, c.value.toInt_lt⟩) _
  have fieldRef : SoundPart (room + 2) (c.field.map fieldItem) :=
    soundPart_map fun f hf => (h.field f hf).sound
  have methodRef : SoundPart (room + 2) (c.method.map methodRefItem) :=
    soundPart_map fun m hm => (h.method m hm).sound
  simp [constantFields, kind, text, value, fieldRef, methodRef]

/-- The fields of an exception table entry. -/
def handlerFields (h : Handler) : Fields where
  list := [(1, some (.int h.start)), (2, some (.int h.stop)), (3, some (.int h.target)),
    (4, omitIf (h.catches == "") (.string h.catches))]

theorem handlerItem_eq (h : Handler) : handlerItem h = .map (written (handlerFields h).list) := by
  simp [handlerItem, handlerFields, bne]

theorem StorableHandler.readHandler_handlerItem {h : Handler} (storable : StorableHandler h) :
    readHandler (handlerItem h) = some h := by
  rw [readHandler, handlerItem_eq, Fields.readRecord_written]
  have start : field (present _) 1 0 readInt64 = some h.start :=
    (handlerFields h).field_written 1 rfl storable.start.reads
  have stop : field (present _) 2 0 readInt64 = some h.stop :=
    (handlerFields h).field_written 2 rfl storable.stop.reads
  have target : field (present _) 3 0 readInt64 = some h.target :=
    (handlerFields h).field_written 3 rfl storable.target.reads
  have catches : field (present _) 4 "" readString = some h.catches :=
    (handlerFields h).field_omitIf 4 rfl (fun _ => readString_string _) (by simp)
  simp [start, stop, target, catches]

theorem StorableHandler.sound {h : Handler} (storable : StorableHandler h) :
    Sound (room + 1) (handlerItem h) := by
  rw [handlerItem_eq]
  apply Fields.sound_written
  have catches : SoundPart room (omitIf (h.catches == "") (.string h.catches)) :=
    soundPart_omitIf storable.catches.sound _
  simp [handlerFields, storable.start.sound, storable.stop.sound, storable.target.sound, catches]

/-! ## Methods -/

def methodFields (m : Method) : Fields where
  list := [(1, some (.string m.owner)), (2, some (.string m.name)),
    (3, omitIf m.params.isEmpty (stringList m.params)),
    (4, some (match m.body with | some b => .bytes b.toList | none => .null)),
    (5, omitIf m.pool.isEmpty (.array (m.pool.toList.map constantItem))),
    (6, omitIf m.handlers.isEmpty (.array (m.handlers.map handlerItem))),
    (7, some (.int m.maxStack)), (8, some (.int m.maxLocals))]

theorem methodItem_eq (m : Method) : methodItem m = .map (written (methodFields m).list) := by
  cases body : m.body <;>
    simp only [methodItem, methodFields, body, written_some, written_omitIf, written_nil,
      List.append_assoc, List.append_nil]

theorem StorableMethod.readMethod_methodItem (storable : StorableMethod m) :
    readMethod (methodItem m) = some m := by
  rw [readMethod, methodItem_eq, Fields.readRecord_written]
  have owner : field (present _) 1 "" readString = some m.owner :=
    (methodFields m).field_written 1 rfl (readString_string _)
  have name : field (present _) 2 "" readString = some m.name :=
    (methodFields m).field_written 2 rfl (readString_string _)
  have params : field (present _) 3 [] (readList readString) = some m.params :=
    (methodFields m).field_omitIf 3 rfl (fun _ => readList_stringList _) (by simp)
  have body : field (present _) 4 none readBody = some m.body :=
    (methodFields m).field_written 4 rfl (readBody_body _)
  have pool : field (present _) 5 [] (readList readConstant) = some m.pool.toList :=
    (methodFields m).field_omitIf 5 rfl
      (fun _ => readList_array fun c _ => readConstant_constantItem c) (by simp)
  have handlers : field (present _) 6 [] (readList readHandler) = some m.handlers :=
    (methodFields m).field_omitIf 6 rfl
      (fun _ => readList_array fun h hh =>
        (storable.handlers.each h hh).readHandler_handlerItem) (by simp)
  have maxStack : field (present _) 7 0 readInt64 = some m.maxStack :=
    (methodFields m).field_written 7 rfl storable.maxStack.reads
  have maxLocals : field (present _) 8 0 readInt64 = some m.maxLocals :=
    (methodFields m).field_written 8 rfl storable.maxLocals.reads
  simp [owner, name, params, body, pool, handlers, maxStack, maxLocals]

theorem StorableMethod.sound (storable : StorableMethod m) : Sound (room + 5) (methodItem m) := by
  rw [methodItem_eq]
  apply Fields.sound_written
  have params : SoundPart (room + 4) (omitIf m.params.isEmpty (stringList m.params)) :=
    soundPart_omitIf (storable.params.sound fun _ short => short.sound) _
  have body : Sound (room + 4) (match m.body with | some b => .bytes b.toList | none => .null) := by
    cases present : m.body with
    | none => exact .simple (by decide)
    | some b => exact .bytes (by simpa using storable.body b present)
  have pool : SoundPart (room + 4)
      (omitIf m.pool.isEmpty (.array (m.pool.toList.map constantItem))) :=
    soundPart_omitIf (storable.pool.sound fun _ constant => constant.sound) _
  have handlers : SoundPart (room + 4)
      (omitIf m.handlers.isEmpty (.array (m.handlers.map handlerItem))) :=
    soundPart_omitIf (storable.handlers.sound fun _ handler => handler.sound) _
  simp [methodFields, storable.owner.sound, storable.name.sound, params, body, pool, handlers,
    storable.maxStack.sound, storable.maxLocals.sound]

theorem StorableMethod.decode_encode (storable : StorableMethod m) :
    decodeMethod (encodeMethod m) = .ok m := by
  have sound : Sound (27 + 5) (methodItem m) := storable.sound
  rw [decodeMethod, encodeMethod, sound.readDocument_encode, Option.bind_some,
    storable.readMethod_methodItem]

theorem StorableMethod.encode_inj {n : Method} (hm : StorableMethod m) (hn : StorableMethod n) :
    encodeMethod m = encodeMethod n ↔ m = n := by
  constructor
  · intro same
    have back := hm.decode_encode
    rw [same, hn.decode_encode] at back
    exact (Except.ok.inj back).symm
  · rintro rfl
    rfl

theorem StorableMethod.withoutDepth (storable : StorableMethod m) :
    StorableMethod { m with maxStack := 0 } := by
  have zero : Word 0 := ⟨by decide, by decide⟩
  exact { storable with maxStack := zero }

/-! ## Archives -/

def archiveFields (a : Bundle) : Fields where
  list := [(1, some (.int a.version)), (2, some (.string a.unit)),
    (3, some (match a.methods with
      | some ms => .array (ms.map fun m => (m.map methodItem).getD .null)
      | none => .null))]

theorem archiveItem_eq (a : Bundle) : archiveItem a = .map (written (archiveFields a).list) := rfl

theorem readOptional_methodItem {m : Option Method} (storable : ∀ x ∈ m, StorableMethod x) :
    readOptional readMethod ((m.map methodItem).getD .null) = some m := by
  cases m with
  | none => rfl
  | some m =>
    have notNull : (methodItem m).isNull = false := rfl
    simp [readOptional, notNull, (storable m rfl).readMethod_methodItem]

theorem StorableBundle.readMethods_methods (storable : StorableBundle a) :
    readMethods (match a.methods with
      | some ms => .array (ms.map fun m => (m.map methodItem).getD .null)
      | none => .null) = some a.methods := by
  cases present : a.methods with
  | none => rfl
  | some ms =>
    have each := (storable.methods ms present).each
    have list := readList_array fun m hm => readOptional_methodItem (each m hm)
    simp [readMethods, Item.isNull, list]

theorem StorableBundle.readArchive_archiveItem (storable : StorableBundle a) :
    readArchive (archiveItem a) = some a := by
  rw [readArchive, archiveItem_eq, Fields.readRecord_written]
  have version : field (present _) 1 0 readInt64 = some a.version :=
    (archiveFields a).field_written 1 rfl storable.version.reads
  have unit : field (present _) 2 "" readString = some a.unit :=
    (archiveFields a).field_written 2 rfl (readString_string _)
  have methods : field (present _) 3 none readMethods = some a.methods :=
    (archiveFields a).field_written 3 rfl storable.readMethods_methods
  simp [version, unit, methods]

theorem StorableBundle.sound (storable : StorableBundle a) : Sound (room + 7) (archiveItem a) := by
  rw [archiveItem_eq]
  apply Fields.sound_written
  have methods : Sound (room + 6) (match a.methods with
      | some ms => .array (ms.map fun m => (m.map methodItem).getD .null)
      | none => .null) := by
    cases present : a.methods with
    | none => exact .simple (by decide)
    | some ms =>
      apply (storable.methods ms present).sound
      intro m hm
      cases m with
      | none => exact .simple (by decide)
      | some m => exact (hm m rfl).sound
  simp [archiveFields, storable.version.sound, storable.unit.sound, methods]

/-- What is stored for an archive is read with its version, zero standing for the current one. -/
theorem StorableBundle.read_encode (storable : StorableBundle a) :
    (readDocument (encodeArchive a)).bind readArchive
      = some { a with version := if a.version = 0 then formatVersion else a.version } := by
  have stored : StorableBundle
      { a with version := if a.version = 0 then formatVersion else a.version } := by
    refine ⟨?_, storable.unit, storable.methods⟩
    show Word (if a.version = 0 then formatVersion else a.version)
    split_ifs
    · exact ⟨by decide, by decide⟩
    · exact storable.version
  have sound : Sound (25 + 7) _ := stored.sound
  rw [encodeArchive, sound.readDocument_encode, Option.bind_some, stored.readArchive_archiveItem]

/-! ## Storing loses nothing -/

/-- **Storing loses nothing.** A method is read back as it was stored. An archive is read back
with the current version, and one stored with another version is refused for it. The bytes under
the content hash are those of the method with no greatest depth, so they tell two methods apart
exactly when something other than that depth does. -/
theorem storing_loses_nothing :
    (∀ m, StorableMethod m → decodeMethod (encodeMethod m) = .ok m) ∧
    (∀ a, StorableBundle a → decodeArchive (encodeArchive a) =
      if a.version = 0 ∨ a.version = 1 then .ok { a with version := 1 }
      else .error (.unsupportedVersion a.version)) ∧
    ∀ m n, StorableMethod m → StorableMethod n →
      contentHash m = Digest.sha256 (encodeMethod { m with maxStack := 0 }) ∧
      (encodeMethod { m with maxStack := 0 } = encodeMethod { n with maxStack := 0 } ↔
        m = { n with maxStack := m.maxStack }) := by
  refine ⟨fun m storable => storable.decode_encode, ?_, ?_⟩
  · intro a storable
    rw [decodeArchive, storable.read_encode]
    by_cases zero : a.version = 0
    · simp [zero, formatVersion]
    · by_cases one : a.version = 1 <;> simp [zero, one, formatVersion]
  · intro m n hm hn
    refine ⟨rfl, ?_⟩
    rw [hm.withoutDepth.encode_inj hn.withoutDepth]
    cases m
    cases n
    simp

/-- A method with constants of several kinds, extreme numbers and an exception table entry. -/
def stored : Method where
  owner := "p/Main"
  name := "f"
  params := ["int"]
  body := some #[0, 255]
  pool := #[{ kind := 1, text := "é" }, { kind := 2, value := -9223372036854775808 },
    { kind := 4, field := some { owner := "p/A", name := "x", type := "long" } },
    { kind := 5, method := some { name := "g", params := ["int"], isInterface := true } }]
  handlers := [{ start := 0, stop := 1, target := -1 }]
  maxStack := 3
  maxLocals := 1

/-- Archives of the current version, of no version and of another one, with an absent method. -/
def bundled (version : Int) : Bundle where
  version := version
  unit := "u"
  methods := some [none, some stored]

theorem storing_loses_nothing_stored :
    StorableMethod stored ∧ decodeMethod (encodeMethod stored) = .ok stored ∧
    decodeArchive (encodeArchive (bundled 0)) = .ok (bundled 1) ∧
    decodeArchive (encodeArchive (bundled 2)) = .error (.unsupportedVersion 2) ∧
    encodeMethod { stored with maxStack := 0 }
      = encodeMethod { { stored with maxStack := 9 } with maxStack := 0 } ∧
    encodeMethod { stored with maxStack := 0 }
      ≠ encodeMethod { { stored with body := none } with maxStack := 0 } := by
  have storable : StorableMethod stored := by decide
  have deeper : StorableMethod { stored with maxStack := 9 } := by decide
  have absent : StorableMethod { stored with body := none } := by decide
  obtain ⟨method, archive, hash⟩ := storing_loses_nothing
  refine ⟨storable, method stored storable, archive (bundled 0) (by decide),
    archive (bundled 2) (by decide), (hash _ _ storable deeper).2.mpr rfl, ?_⟩
  rw [ne_eq, (hash _ _ storable absent).2]
  decide

end HostLowering.Archive
