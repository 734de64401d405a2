import HostLowering.Proofs.Machine.Typing

set_option autoImplicit false

/-! # Code in writing

Code as it is written: a *line* names its operand by what it means, a constant by its value and a
branch by its label. `Spelled code a` says that an assembler holds the lines of `code` and nothing
else. `Wrote lines a a'` says that a step of the assembler appends lines; there is one lemma for each
step. When the method is built, every line is read at its offset (`Spelled.reads`).

A reference is found in the pool under its text. The entry found may be another reference with the
same text, so a line on a reference is read as a line on `Pool.method` or `Pool.field` of it.
-/

namespace HostLowering.Machine

/-! ## Lines -/

/-- A line of code, or the place of a label. -/
inductive Line where
  | plain (op : Opcode)
  | word (n : Int64)
  | text (s : String)
  | load (k : Kind) (i : Nat)
  | store (k : Kind) (i : Nat)
  | increment (i : Nat) (step : Int)
  | onClass (op : Opcode) (name : String)
  | onField (op : Opcode) (f : FieldRef)
  | invoke (op : Opcode) (m : MethodRef)
  | branch (op : Opcode) (l : Label)
  | mark (l : Label)
deriving DecidableEq, Repr

/-- The number of bytes of a line. -/
def Line.size : Line → Nat
  | plain _ => 1
  | increment _ _ => 4
  | mark _ => 0
  | _ => 3

def Line.written? : Line → Option Nat
  | store _ i | increment i _ => some i
  | _ => none

@[simp] def Line.target? : Line → Option Label
  | branch _ l => some l
  | _ => none

/-- The number of bytes of all lines. -/
def codeSize (code : List Line) : Nat := (code.map Line.size).sum

@[simp] theorem codeSize_nil : codeSize [] = 0 := rfl

@[simp] theorem codeSize_cons (line : Line) (code : List Line) :
    codeSize (line :: code) = line.size + codeSize code := by
  simp [codeSize]

@[simp] theorem codeSize_append (code code' : List Line) :
    codeSize (code ++ code') = codeSize code + codeSize code' := by
  simp [codeSize]

/-- An item holds a line. The use of the stack that the item states is left open. -/
inductive Line.Fits (pool : Array Constant) : Line → Item → Prop where
  | plain {op : Opcode} {n : Nat} {e : Int} (shape : op.shape = .plain) :
      Fits pool (.plain op) (.line op (.known .plain) n e)
  | short {k : Int} {n : Nat} {e : Int} :
      Fits pool (.word (Int64.ofInt k)) (.line .sipush (.known (.short k)) n e)
  | word {w : Int64} {k n : Nat} {e : Int} (entry : pool[k]? = some (.ofInt w)) :
      Fits pool (.word w) (.line .ldc (.known (.constant k)) n e)
  | text {s : String} {k n : Nat} {e : Int} (entry : pool[k]? = some (.ofString s)) :
      Fits pool (.text s) (.line .ldc (.known (.constant k)) n e)
  | load {k : Kind} {i n : Nat} {e : Int} :
      Fits pool (.load k i) (.line (.load k) (.known (.slot i)) n e)
  | store {k : Kind} {i n : Nat} {e : Int} :
      Fits pool (.store k i) (.line (.store k) (.known (.slot i)) n e)
  | increment {i n : Nat} {step e : Int} :
      Fits pool (.increment i step) (.line .iinc (.known (.increment i step)) n e)
  | onClass {op : Opcode} {name : String} {k n : Nat} {e : Int} (shape : op.shape = .constant)
      (entry : pool[k]? = some (.ofClass name)) :
      Fits pool (.onClass op name) (.line op (.known (.constant k)) n e)
  | onField {op : Opcode} {f g : FieldRef} {k n : Nat} {e : Int} (shape : op.shape = .constant)
      (entry : pool[k]? = some (.ofField g)) (same : g.text = f.text) :
      Fits pool (.onField op f) (.line op (.known (.constant k)) n e)
  | invoke {op : Opcode} {m r : MethodRef} {k n : Nat} {e : Int} (shape : op.shape = .constant)
      (entry : pool[k]? = some (.ofMethod r)) (same : r.text = m.text) :
      Fits pool (.invoke op m) (.line op (.known (.constant k)) n e)
  | branch {op : Opcode} {l : Label} {n : Nat} {e : Int} (shape : op.shape = .branch) :
      Fits pool (.branch op l) (.line op (.branch l) n e)
  | mark {l : Label} : Fits pool (.mark l) (.mark l)

variable {pool pool' : Array Constant} {line : Line} {i : Item} {r : MethodRef} {f : FieldRef}
  {n : Nat} {items : List Item}

theorem Line.Fits.mono (fits : line.Fits pool i) (h : Extends pool pool') : line.Fits pool' i := by
  cases fits with
  | plain shape => exact .plain shape
  | short => exact .short
  | word entry => exact .word (h _ _ entry)
  | text entry => exact .text (h _ _ entry)
  | load => exact .load
  | store => exact .store
  | increment => exact .increment
  | onClass shape entry => exact .onClass shape (h _ _ entry)
  | onField shape entry same => exact .onField shape (h _ _ entry) same
  | invoke shape entry same => exact .invoke shape (h _ _ entry) same
  | branch shape => exact .branch shape
  | mark => exact .mark

theorem Opcode.size_load (k : Kind) : (Opcode.load k).size = 3 := by cases k <;> rfl

theorem Opcode.size_store (k : Kind) : (Opcode.store k).size = 3 := by cases k <;> rfl

theorem Opcode.size_of_shape {op : Opcode} {shape : Opcode.Shape} (h : op.shape = shape) :
    op.size = 1 + shape.width := by
  rw [Opcode.size, Opcode.operandBytes, h]

theorem Line.Fits.size (fits : line.Fits pool i) : i.size = line.size := by
  cases fits with
  | plain shape => exact Opcode.size_of_shape shape
  | load => exact Opcode.size_load _
  | store => exact Opcode.size_store _
  | onClass shape | onField shape | invoke shape | branch shape => exact Opcode.size_of_shape shape
  | short | word | text | increment | mark => rfl

/-! ## References in the pool -/

/-- Every entry of a pool is found under its key. -/
def Pool.Exact (p : Pool) : Prop :=
  ∀ (k : Nat) (c : Constant), p.entries[k]? = some c → p.index[c.key]? = some k

theorem Pool.exact_empty : Pool.Exact {} := fun k c h => by simp at h

theorem Pool.Exact.intern {p p' : Pool} {c : Constant} {k : Nat} (exact_ : p.Exact)
    (h : p.intern c = .ok (k, p')) : p'.Exact := by
  unfold Pool.intern at h
  cases known : p.index[c.key]? with
  | some i =>
    simp only [known, Except.ok.injEq, Prod.mk.injEq] at h
    exact h.2 ▸ exact_
  | none =>
    simp only [known] at h
    split at h
    · simp only [Except.ok.injEq, Prod.mk.injEq] at h
      obtain ⟨-, rfl⟩ := h
      intro i d hd
      rw [Std.TreeMap.getElem?_insert]
      rw [Array.getElem?_push] at hd
      split at hd
      · rename_i last
        cases hd
        rw [if_pos (Std.compare_eq_iff_eq.mpr rfl), last]
      · have old := exact_ i d hd
        rw [if_neg fun same => ?_]
        · exact old
        · -- the key of the new entry was not there
          rw [← Std.LawfulEqOrd.eq_of_compare same, known] at old
          cases old
    · cases h

def Pool.entry? (p : Pool) (key : String) : Option Constant :=
  (p.index[key]?).bind (p.entries[·]?)

/-- The method that a reference leads to: the one found under its text. -/
def Pool.method (p : Pool) (r : MethodRef) : MethodRef :=
  ((p.entry? (Constant.ofMethod r).key).bind Constant.method).getD r

/-- The field that a reference leads to. -/
def Pool.field (p : Pool) (f : FieldRef) : FieldRef :=
  ((p.entry? (Constant.ofField f).key).bind Constant.field).getD f

theorem Pool.Exact.entry? {p : Pool} {k : Nat} {c : Constant} (exact_ : p.Exact)
    (h : p.entries[k]? = some c) : p.entry? c.key = some c := by
  rw [Pool.entry?, exact_ k c h, Option.bind_some, h]

theorem Constant.key_congr_method {s : MethodRef} (h : r.text = s.text) :
    (Constant.ofMethod r).key = (Constant.ofMethod s).key := by
  rw [Constant.key_ofMethod, Constant.key_ofMethod, h]

theorem Constant.key_congr_field {g : FieldRef} (h : f.text = g.text) :
    (Constant.ofField f).key = (Constant.ofField g).key :=
  congrArg (fun t => "f:" ++ t) h

theorem Pool.Exact.method {p : Pool} {k : Nat} {s : MethodRef} (exact_ : p.Exact)
    (h : p.entries[k]? = some (.ofMethod s)) (same : s.text = r.text) : p.method r = s := by
  rw [Pool.method, ← Constant.key_congr_method same, exact_.entry? h]
  rfl

theorem Pool.Exact.field {p : Pool} {k : Nat} {g : FieldRef} (exact_ : p.Exact)
    (h : p.entries[k]? = some (.ofField g)) (same : g.text = f.text) : p.field f = g := by
  rw [Pool.field, ← Constant.key_congr_field same, exact_.entry? h]
  rfl

theorem Constant.Proper.kind_of_key {refs : Set MethodRef} {c d : Constant} (hc : c.Proper refs)
    (hd : d.Proper refs) (key : c.key = d.key) : c.kind = d.kind := by
  have begins (x : Char) : Begins x (String.ofList [x, ':']) := by simp [Begins]
  have tag {x y : Char} {t u : String}
      (h : String.ofList [x, ':'] ++ t = String.ofList [y, ':'] ++ u) : x = y := by
    by_contra ne
    exact ((begins x).append t).ne ((begins y).append u) ne h
  cases hc <;> cases hd <;>
    first
      | rfl
      | exact absurd (tag key) (by decide)

theorem append_right_inj_text {t u v : String} (h : t ++ u = t ++ v) : u = v := by
  have lists := congrArg String.toList h
  rw [String.toList_append, String.toList_append, List.append_cancel_left_eq] at lists
  exact String.toList_injective lists

theorem repr_injective {m : Nat} (h : Nat.repr m = Nat.repr n) : m = n := by
  rw [← Nat.ofDigitChars_ten_toDigits (n := m), ← Nat.toList_repr, h, Nat.toList_repr,
    Nat.ofDigitChars_ten_toDigits]

/-- A negative number begins with a sign, which no other number has. -/
theorem repr_ne_sign (m : Nat) (t : String) : Nat.repr m ≠ "-" ++ t := by
  intro h
  have sign : '-' ∈ (Nat.repr m).toList := by
    rw [h, String.toList_append]
    exact List.mem_append_left _ (by decide)
  rw [Nat.toList_repr] at sign
  exact absurd (Nat.isDigit_of_mem_toDigits (by omega) le_rfl sign) (by decide)

theorem toString_int_injective : Function.Injective (toString : Int → String) := by
  intro a b h
  cases a with
  | ofNat m =>
    cases b with
    | ofNat n => exact congrArg Int.ofNat (repr_injective h)
    | negSucc n => exact absurd h (repr_ne_sign m _)
  | negSucc m =>
    cases b with
    | ofNat n => exact absurd h.symm (repr_ne_sign n _)
    | negSucc n =>
      exact congrArg Int.negSucc (Nat.succ.inj (repr_injective (append_right_inj_text h)))

section Keys

variable {refs : Set MethodRef} {d : Constant}

theorem Constant.Proper.eq_ofString {s : String} (proper : d.Proper refs)
    (key : d.key = (Constant.ofString s).key) : d = .ofString s := by
  have kind := proper.kind_of_key (.string s) key
  cases proper with
  | string t => exact congrArg Constant.ofString (append_right_inj_text key)
  | int | cls | field | method => cases kind

theorem Constant.Proper.eq_ofClass {s : String} (proper : d.Proper refs)
    (key : d.key = (Constant.ofClass s).key) : d = .ofClass s := by
  have kind := proper.kind_of_key (.cls s) key
  cases proper with
  | cls t => exact congrArg Constant.ofClass (append_right_inj_text key)
  | int | string | field | method => cases kind

theorem Constant.Proper.eq_ofField {f : FieldRef} (proper : d.Proper refs)
    (key : d.key = (Constant.ofField f).key) : ∃ g, d = .ofField g ∧ g.text = f.text := by
  have kind := proper.kind_of_key (.field f) key
  cases proper with
  | field g => exact ⟨g, rfl, append_right_inj_text key⟩
  | int | string | cls | method => cases kind

theorem Constant.Proper.eq_ofInt {n : Int64} (proper : d.Proper refs)
    (key : d.key = (Constant.ofInt n).key) : d = .ofInt n := by
  have kind := proper.kind_of_key (.int n) key
  cases proper with
  | int w =>
    have same : w.toInt = n.toInt := toString_int_injective (append_right_inj_text key)
    exact congrArg Constant.ofInt (Int64.toInt_inj.mp same)
  | field | string | cls | method => cases kind

end Keys

/-! ## Assemblers that hold lines -/

/-- The assembler holds the lines. -/
structure Spelled (refs : Set MethodRef) (code : List Line) (a : Assembler) : Prop where
  held : ∃ items, Held refs items a ∧ List.Forall₂ (Line.Fits a.pool.entries) code items.reverse
  exact_ : a.pool.Exact

variable {refs : Set MethodRef} {code lines : List Line} {a a' a'' : Assembler} {op : Opcode}
  {l : Label}

theorem spelled_empty : Spelled refs [] {} where
  held := ⟨[], ⟨coded_nil, Pool.keyed_empty⟩, .nil⟩
  exact_ := Pool.exact_empty

/-- A step of the assembler appends lines, makes new labels and registers entries of the exception
table. -/
structure Wrote (refs : Set MethodRef) (lines : List Line) (fresh : Nat)
    (guards : List PendingHandler) (a a' : Assembler) : Prop where
  handlers : a'.handlers.toList = a.handlers.toList ++ guards
  labels : a'.labels.size = a.labels.size + fresh
  error : a'.error = none → a.error = none
  spelled : a'.error = none → ∀ code, Spelled refs code a → Spelled refs (code ++ lines) a'

theorem Wrote.refl (a : Assembler) : Wrote refs [] 0 [] a a :=
  ⟨(List.append_nil _).symm, rfl, id, fun _ code h => by rwa [List.append_nil]⟩

theorem Wrote.trans {more : List Line} {n' : Nat} {gs gs' : List PendingHandler}
    (h : Wrote refs lines n gs a a') (h' : Wrote refs more n' gs' a' a'') :
    Wrote refs (lines ++ more) (n + n') (gs ++ gs') a a'' where
  handlers := by rw [h'.handlers, h.handlers, List.append_assoc]
  labels := by rw [h'.labels, h.labels, Nat.add_assoc]
  error fine := h.error (h'.error fine)
  spelled fine code spelled := by
    rw [← List.append_assoc]
    exact h'.spelled fine _ (h.spelled (h'.error fine) code spelled)

theorem Wrote.le_labels {gs : List PendingHandler} (h : Wrote refs lines n gs a a') :
    a.labels.size ≤ a'.labels.size := by
  rw [h.labels]
  exact Nat.le_add_right _ _

theorem Spelled.snoc (spelled : Spelled refs code a) (pool : Extends a.pool.entries a'.pool.entries)
    (exact_ : a'.pool.Exact) (held : ∀ items, Held refs items a → ∃ i, Held refs (i :: items) a' ∧
      line.Fits a'.pool.entries i) : Spelled refs (code ++ [line]) a' := by
  obtain ⟨items, old, fits⟩ := spelled.held
  obtain ⟨i, new, last⟩ := held items old
  refine ⟨⟨i :: items, new, ?_⟩, exact_⟩
  rw [List.reverse_cons]
  exact List.rel_append (fits.imp fun _ _ h => h.mono pool) (.cons last .nil)

/-- A line whose operand is not in the pool. -/
theorem Wrote.one (pool : a'.pool = a.pool) (handlers : a'.handlers = a.handlers)
    (labels : a'.labels.size = a.labels.size) (error : a'.error = none → a.error = none)
    (held : a'.error = none → ∀ items, Held refs items a → ∃ i, Held refs (i :: items) a' ∧
      line.Fits a'.pool.entries i) : Wrote refs [line] 0 [] a a' :=
  ⟨by rw [handlers, List.append_nil], labels, error, fun fine _ spelled =>
    spelled.snoc (pool ▸ .refl _) (pool ▸ spelled.exact_) (held fine)⟩

theorem wrote_emit (known : op.isKnown = true) (shape : op.shape = .plain) :
    Wrote refs [.plain op] 0 [] a (a.emit op) :=
  .one rfl rfl rfl id fun _ _ held => ⟨_, (held.emit known shape).1, .plain shape⟩

theorem Operand.ofWord_short {k : Int} (low : -32768 ≤ k) (high : k ≤ 32767) :
    Operand.ofWord k .short = .short k := by
  rw [Operand.ofWord, signed16_toNat low high]

section Locals

variable {k : Kind} {j : Int}

theorem wrote_emitLocal (shape : op.shape = .slot)
    (fits : ∀ n e, line.Fits a.pool.entries (.line op (.known (.slot j.toNat)) n e)) :
    Wrote refs [line] 0 [] a (a.emitLocal op j) := by
  obtain ⟨pool, handlers, labels⟩ := a.emitLocal_rest op j
  refine .one pool handlers (by rw [labels]) (fun fine => (Assembler.error_emitLocal fine).1)
    fun fine items held => ?_
  obtain ⟨-, held, -⟩ := held.emitLocal shape fine
  exact ⟨_, held, pool ▸ fits _ _⟩

theorem wrote_load : Wrote refs [.load k j.toNat] 0 [] a (a.emitLocal (.load k) j) :=
  wrote_emitLocal (by cases k <;> rfl) fun _ _ => .load

theorem wrote_store : Wrote refs [.store k j.toNat] 0 [] a (a.emitLocal (.store k) j) :=
  wrote_emitLocal (by cases k <;> rfl) fun _ _ => .store

theorem wrote_emitIncrement (a : Assembler) (j step : Int) :
    Wrote refs [.increment j.toNat (signed8 (Assembler.lowByte step).toNat)] 0 [] a
      (a.emitIncrement j step) := by
  obtain ⟨pool, handlers, labels⟩ := a.emitLocal_rest .iinc j
  have error (fine : (a.emitLocal .iinc j).error = none) := (Assembler.error_emitLocal fine).1
  refine .one pool handlers (congrArg Array.size labels) error fun fine items held => ?_
  obtain ⟨-, held, -⟩ := held.emitIncrement fine
  exact ⟨_, held, .increment⟩

end Locals

section Constants

variable {c : Constant}

/-- Every operand has a use of the stack, if an invocation names a method. -/
theorem exists_uses {k : Nat} {d : Constant} (entry : a'.pool.entries[k]? = some d)
    (method : op.isInvoke = true → ∃ r, d = .ofMethod r) :
    ∃ n e, Uses { pool := a'.pool.entries } ⟨op, .constant k⟩ n e := by
  cases invoke : op.isInvoke with
  | false => exact ⟨_, _, .other invoke⟩
  | true =>
    obtain ⟨r, rfl⟩ := method invoke
    exact ⟨_, _, .invocation invoke (methodAt_of_getElem? entry)⟩

/-- A line whose operand is an entry of the pool. -/
theorem wrote_emitConstant (h : Asm.emitConstant op c a = .ok ((), a')) (proper : c.Proper refs)
    (shape : op.shape = .constant)
    (method : op.isInvoke = true → ∃ r, c = .ofMethod r)
    (fits : ∀ (k n : Nat) (e : Int) (d : Constant), a'.pool.entries[k]? = some d → d.key = c.key →
      d.Proper refs → line.Fits a'.pool.entries (.line op (.known (.constant k)) n e)) :
    Wrote refs [line] 0 [] a a' := by
  obtain ⟨i, pool, interned, rfl⟩ := Asm.emitConstant_eq_ok h
  refine ⟨(List.append_nil _).symm, rfl, id, fun _ code spelled => ?_⟩
  obtain ⟨items, held, -⟩ := spelled.held
  obtain ⟨-, extends_, -⟩ := held.keyed.intern proper interned
  refine spelled.snoc extends_ (spelled.exact_.intern interned) fun items held => ?_
  obtain ⟨k, d, entry, key, proper', -, line⟩ := held.emitConstant proper shape h
  have named : op.isInvoke = true → ∃ r, d = .ofMethod r := fun invoke => by
    obtain ⟨r, rfl⟩ := method invoke
    obtain ⟨s, -, rfl, -⟩ := proper'.of_key key
    exact ⟨s, rfl⟩
  obtain ⟨n, e, use⟩ := exists_uses entry named
  exact ⟨_, line n e use, fits k n e d entry key proper'⟩

theorem wrote_pushString {t : String} (h : Asm.pushString t a = .ok ((), a')) :
    Wrote refs [.text t] 0 [] a a' :=
  wrote_emitConstant h (.string t) rfl (fun h => by cases h) fun _ _ _ _ entry key proper =>
    .text (proper.eq_ofString key ▸ entry)

theorem wrote_emitClass {name : String} (h : Asm.emitClass op name a = .ok ((), a'))
    (shape : op.shape = .constant) (plain : op.isInvoke = false) :
    Wrote refs [.onClass op name] 0 [] a a' :=
  wrote_emitConstant h (.cls name) shape (fun h => by simp [plain] at h)
    fun _ _ _ _ entry key proper => .onClass shape (proper.eq_ofClass key ▸ entry)

theorem wrote_emitField (h : Asm.emitField op f a = .ok ((), a')) (shape : op.shape = .constant)
    (plain : op.isInvoke = false) : Wrote refs [.onField op f] 0 [] a a' :=
  wrote_emitConstant h (.field f) shape (fun h => by simp [plain] at h)
    fun _ _ _ _ entry key proper => by
      obtain ⟨g, rfl, same⟩ := proper.eq_ofField key
      exact .onField shape entry same

theorem wrote_emitInvoke (h : Asm.emitInvoke op r a = .ok ((), a')) (mem : r ∈ refs)
    (invoke : op.isInvoke = true) : Wrote refs [.invoke op r] 0 [] a a' :=
  have shape := Opcode.shape_of_isInvoke invoke
  wrote_emitConstant h (.method mem) shape (fun _ => ⟨r, rfl⟩) fun _ _ _ _ entry key proper => by
    obtain ⟨s, -, rfl, same⟩ := proper.of_key key
    exact .invoke shape entry same

/-- An integer, in the code or in the pool. -/
theorem wrote_pushInt {n : Int64} (h : Asm.pushInt n a = .ok ((), a')) :
    Wrote refs [.word n] 0 [] a a' := by
  unfold Asm.pushInt at h
  split at h
  · rename_i range
    cases h
    refine .one rfl rfl rfl id fun _ items held => ⟨_, held.emitShort.1, ?_⟩
    have fits : (Line.word (.ofInt n.toInt)).Fits a.pool.entries
        (.line .sipush (.known (.short n.toInt)) 0 1) := .short
    rwa [Int64.ofInt_toInt, ← Operand.ofWord_short range.1 range.2] at fits
  · exact wrote_emitConstant h (.int n) rfl (fun h => by cases h) fun _ _ _ _ entry key proper =>
      .word (proper.eq_ofInt key ▸ entry)

end Constants

/-! ## Labels -/

theorem wrote_mark (h : Asm.mark l a = .ok ((), a')) : Wrote refs [.mark l] 0 [] a a' := by
  have marked := marked_of_mark h
  exact .one marked.pool marked.handlers marked.count (Asm.error_mark h) fun fine items held =>
    ⟨_, (held.mark h fine).1, .mark⟩

theorem wrote_jump (h : Asm.jump op l a = .ok ((), a')) (shape : op.shape = .branch) :
    Wrote refs [.branch op l] 0 [] a a' := by
  have jumped := jumped_of_jump h
  exact .one jumped.pool jumped.handlers jumped.count (Asm.error_jump h) fun fine items held =>
    ⟨_, (held.jump shape h fine).1, .branch shape⟩

theorem wrote_newLabel (a : Assembler) :
    Wrote refs [] 1 [] a { a with labels := a.labels.push {} } := by
  refine ⟨(List.append_nil _).symm, Array.size_push _, id, fun _ code spelled => ?_⟩
  obtain ⟨items, held, fits⟩ := spelled.held
  rw [List.append_nil]
  exact ⟨⟨items, held.newLabel.1, fits⟩, spelled.exact_⟩

/-- So does an entry of the exception table. -/
theorem wrote_tryCatch (a : Assembler) (h : PendingHandler) :
    Wrote refs [] 0 [h] a { a with handlers := a.handlers.push h } := by
  refine ⟨Array.toList_push, rfl, id, fun _ code spelled => ?_⟩
  obtain ⟨items, held, fits⟩ := spelled.held
  rw [List.append_nil]
  exact ⟨⟨items, ⟨held.coded.of_bytes rfl rfl (.refl _), held.keyed⟩, fits⟩, spelled.exact_⟩

/-! ## Reading -/

/-- A line is read at an offset of a method, where labels have places. -/
inductive Line.Reads (m : Method) (pool : Pool) (place : Label → Option Nat) (p : Nat) :
    Line → Prop where
  | plain {op : Opcode} (shape : op.shape = .plain)
      (read : instructionAt m.code p = .ok ⟨op, .plain⟩) : Reads m pool place p (.plain op)
  | short {k : Int} (read : instructionAt m.code p = .ok ⟨.sipush, .short k⟩) :
      Reads m pool place p (.word (Int64.ofInt k))
  | word {w : Int64} {k : Nat} (read : instructionAt m.code p = .ok ⟨.ldc, .constant k⟩)
      (entry : m.pool[k]? = some (.ofInt w)) : Reads m pool place p (.word w)
  | text {s : String} {k : Nat} (read : instructionAt m.code p = .ok ⟨.ldc, .constant k⟩)
      (entry : m.pool[k]? = some (.ofString s)) : Reads m pool place p (.text s)
  | load {k : Kind} {i : Nat} (read : instructionAt m.code p = .ok ⟨.load k, .slot i⟩) :
      Reads m pool place p (.load k i)
  | store {k : Kind} {i : Nat} (read : instructionAt m.code p = .ok ⟨.store k, .slot i⟩) :
      Reads m pool place p (.store k i)
  | increment {i : Nat} {step : Int}
      (read : instructionAt m.code p = .ok ⟨.iinc, .increment i step⟩) :
      Reads m pool place p (.increment i step)
  | onClass {op : Opcode} {name : String} {k : Nat}
      (read : instructionAt m.code p = .ok ⟨op, .constant k⟩)
      (entry : m.pool[k]? = some (.ofClass name)) : Reads m pool place p (.onClass op name)
  | onField {op : Opcode} {f : FieldRef} {k : Nat}
      (read : instructionAt m.code p = .ok ⟨op, .constant k⟩)
      (entry : m.pool[k]? = some (.ofField (pool.field f))) : Reads m pool place p (.onField op f)
  | invoke {op : Opcode} {r : MethodRef} {k : Nat}
      (read : instructionAt m.code p = .ok ⟨op, .constant k⟩)
      (entry : m.pool[k]? = some (.ofMethod (pool.method r))) : Reads m pool place p (.invoke op r)
  | branch {op : Opcode} {l : Label} {q : Nat} (shape : op.shape = .branch)
      (known : place l = some q)
      (read : instructionAt m.code p = .ok ⟨op, .branch (q - (p + 3))⟩) :
      Reads m pool place p (.branch op l)
  | mark {l : Label} (known : place l = some p) : Reads m pool place p (.mark l)

theorem Line.size_pos (code : ∀ l, line ≠ .mark l) : 0 < line.size := by
  cases line <;> first | exact Nat.succ_pos _ | exact absurd rfl (code _)

/-- Lines are read one behind the other from an offset on. -/
def ReadsFrom (m : Method) (pool : Pool) (place : Label → Option Nat) : Nat → List Line → Prop
  | _, [] => True
  | p, line :: code => line.Reads m pool place p ∧ ReadsFrom m pool place (p + line.size) code

variable {m : Method} {maxLocals : Int} {p : Nat} {place : Label → Option Nat}

theorem readsFrom_append {pool : Pool} {code' : List Line} :
    ReadsFrom m pool place p (code ++ code') ↔
      ReadsFrom m pool place p code ∧ ReadsFrom m pool place (p + codeSize code) code' := by
  induction code generalizing p with
  | nil => simp [ReadsFrom]
  | cons line code ih => simp [ReadsFrom, ih, Nat.add_assoc, and_assoc]

theorem Line.Fits.reads (fits : line.Fits a.pool.entries i) (coded : Coded items a)
    (exact_ : a.pool.Exact) (built : Built a maxLocals m) (stands : Stands items p i) :
    line.Reads m a.pool a.position? p := by
  have entry {k : Nat} {c : Constant} (h : a.pool.entries[k]? = some c) : m.pool[k]? = some c := by
    rwa [built.pool]
  have read {op : Opcode} {o : Operand} {n : Nat} {e : Int}
      (stands : Stands items p (.line op (.known o) n e)) :
      instructionAt m.code p = .ok ⟨op, o⟩ := by
    obtain ⟨o', read, -, rfl⟩ := coded.decodes built stands
    exact read
  cases fits with
  | plain shape => exact .plain shape (read stands)
  | short => exact .short (read stands)
  | word h => exact .word (read stands) (entry h)
  | text h => exact .text (read stands) (entry h)
  | load => exact .load (read stands)
  | store => exact .store (read stands)
  | increment => exact .increment (read stands)
  | onClass _ h => exact .onClass (read stands) (entry h)
  | onField _ h same => exact .onField (read stands) (exact_.field h same ▸ entry h)
  | invoke _ h same => exact .invoke (read stands) (exact_.method h same ▸ entry h)
  | branch shape =>
    obtain ⟨o, read, -, q, known, rfl⟩ := coded.decodes built stands
    exact .branch shape known read
  | mark => exact .mark ((coded.marks _ p).mpr stands)

theorem readsFrom_of_fits {later earlier : List Item} (coded : Coded items a)
    (exact_ : a.pool.Exact) (built : Built a maxLocals m) (split : items = later ++ earlier)
    (fits : List.Forall₂ (Line.Fits a.pool.entries) code later.reverse) :
    ReadsFrom m a.pool a.position? (span earlier) code := by
  induction code generalizing later earlier with
  | nil => trivial
  | cons line code ih =>
    obtain ⟨i, rest, first, others, reversed⟩ := List.forall₂_cons_left_iff.mp fits
    have unfolded : later = rest.reverse ++ [i] := by
      rw [← List.reverse_reverse later, reversed, List.reverse_cons]
    rw [unfolded, List.append_assoc, List.singleton_append] at split
    refine ⟨first.reads coded exact_ built (stands_iff.mpr ⟨earlier, ?_, rfl⟩), ?_⟩
    · exact split ▸ List.suffix_append _ _
    · have next := ih split (by rwa [List.reverse_reverse])
      rwa [span_cons, first.size, Nat.add_comm] at next

/-- The lines of the assembler are read in the method that is built from it. -/
theorem Spelled.reads (spelled : Spelled refs code a) (built : Built a maxLocals m) :
    ReadsFrom m a.pool a.position? 0 code := by
  obtain ⟨items, held, fits⟩ := spelled.held
  exact readsFrom_of_fits held.coded spelled.exact_ built (List.append_nil items).symm fits

theorem span_of_fits (fits : List.Forall₂ (Line.Fits pool) code items) :
    span items = codeSize code := by
  induction fits with
  | nil => rfl
  | cons first _ ih => rw [span_cons, codeSize_cons, first.size, ih]

theorem span_reverse (items : List Item) : span items.reverse = span items := by
  simp [span]

theorem Spelled.size (spelled : Spelled refs code a) : a.bytes.size = codeSize code := by
  obtain ⟨items, held, fits⟩ := spelled.held
  rw [held.coded.size, ← span_of_fits fits, span_reverse]

end HostLowering.Machine
