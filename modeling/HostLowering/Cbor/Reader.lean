import HostLowering.Cbor.Item

set_option autoImplicit false

/-! # Reading data items

The reader accepts exactly the well-formed items: heads with any argument width, definite and
indefinite lengths, tags, simple values and floating-point numbers. It refuses reserved heads,
simple values below 32 in two bytes, chunks of the wrong type, a break outside an indefinite
length, more than 32 nested containers, and more than 131072 elements or pairs in one of them. A
document is one item with nothing behind it.
-/

namespace HostLowering.Cbor

/-- The greatest number of containers inside each other. -/
def maxNesting : Nat := 32

/-- The greatest number of elements of an array and of pairs of a map. -/
def maxElements : Nat := 131072

/-- The number written high byte first in the leading `count` bytes, and the rest. -/
def readNumber (count : Nat) (bs : List UInt8) : Option (Nat × List UInt8) :=
  if bs.length < count then none
  else some ((bs.take count).foldl (fun n b => n * 256 + b.toNat) 0, bs.drop count)

/-- A head: major type, additional information and argument. -/
structure Head where
  major : UInt8
  info : UInt8
  value : Nat
deriving DecidableEq, Repr

def Head.indefinite (h : Head) : Bool := h.info == 31

/-- The head in front of the bytes. -/
def readHead : List UInt8 → Option (Head × List UInt8)
  | [] => none
  | b :: rest =>
    let major := b >>> 5
    let info := b &&& 31
    let wide (count : Nat) : Option (Head × List UInt8) :=
      (readNumber count rest).map fun (n, rest) => (⟨major, info, n⟩, rest)
    match info with
    | 24 =>
      match wide 1 with
      | some (h, rest) => if major == 7 && h.value < 32 then none else some (h, rest)
      | none => none
    | 25 => wide 2
    | 26 => wide 4
    | 27 => wide 8
    | 28 | 29 | 30 => none
    | 31 => if major == 0 || major == 1 || major == 6 || major == 7 then none
            else some (⟨major, info, 31⟩, rest)
    | _ => some (⟨major, info, info.toNat⟩, rest)

/-- The leading `n` bytes and the rest. -/
def splitBytes (n : Nat) (bs : List UInt8) : Option (List UInt8 × List UInt8) :=
  if bs.length < n then none else some (bs.take n, bs.drop n)

/-- The chunks of a string of the given major type up to the break. `bound` limits the number of
chunks; every chunk takes at least one byte. -/
def readChunks (major : UInt8) : Nat → List (List UInt8) → List UInt8 →
    Option (List (List UInt8) × List UInt8)
  | 0, _, _ => none
  | _, _, [] => none
  | _, chunks, 0xff :: rest => some (chunks.reverse, rest)
  | bound + 1, chunks, bs =>
    match readHead bs with
    | some (h, rest) =>
      if h.major == major && !h.indefinite then
        match splitBytes h.value rest with
        | some (chunk, rest) => readChunks major bound (chunk :: chunks) rest
        | none => none
      else none
    | none => none

/-- Whether the bytes begin with a tag. -/
def startsWithTag : List UInt8 → Bool
  | b :: _ => b >>> 5 == 6
  | [] => false

mutual

/-- The item in front of the bytes, inside `depth` containers. `bound` limits the recursion; it is
at least twice the number of bytes. -/
def readItem : Nat → Nat → List UInt8 → Option (Item × List UInt8)
  | 0, _, _ => none
  | bound + 1, depth, bs =>
    match readHead bs with
    | none => none
    | some (h, rest) =>
      match h.major with
      | 0 => some (.unsigned h.value, rest)
      | 1 => some (.negative h.value, rest)
      | 2 =>
        if h.indefinite then
          (readChunks 2 (rest.length + 1) [] rest).map fun (cs, r) => (.bytes cs.flatten, r)
        else (splitBytes h.value rest).map fun (b, r) => (.bytes b, r)
      | 3 =>
        if h.indefinite then
          (readChunks 3 (rest.length + 1) [] rest).map fun (cs, r) => (.text cs, r)
        else (splitBytes h.value rest).map fun (b, r) => (.text [b], r)
      | 4 =>
        if depth ≥ maxNesting then none
        else if h.indefinite then
          match readUntilBreak bound (depth + 1) 0 [] rest with
          | some (items, r) => if items.length ≤ maxElements then some (.array items, r) else none
          | none => none
        else if h.value > maxElements then none
        else (readItems bound (depth + 1) h.value [] rest).map fun (is, r) => (.array is, r)
      | 5 =>
        if depth ≥ maxNesting then none
        else if h.indefinite then
          match readUntilBreak bound (depth + 1) 0 [] rest with
          | some (items, r) =>
            if items.length % 2 = 0 && items.length / 2 ≤ maxElements then
              some (.map items, r)
            else none
          | none => none
        else if h.value > maxElements then none
        else (readItems bound (depth + 1) (2 * h.value) [] rest).map fun (is, r) => (.map is, r)
      | 6 =>
        let inner := if startsWithTag rest then depth + 1 else depth
        if inner > maxNesting then none
        else (readItem bound inner rest).map fun (i, r) => (.tag h.value i, r)
      | _ =>
        if h.info == 25 || h.info == 26 || h.info == 27 then some (.float, rest)
        else some (.simple h.value, rest)

/-- The next `count` items behind those already read, latest first. -/
def readItems : Nat → Nat → Nat → List Item → List UInt8 → Option (List Item × List UInt8)
  | _, _, 0, items, bs => some (items.reverse, bs)
  | 0, _, _, _, _ => none
  | bound + 1, depth, count + 1, items, bs =>
    match readItem bound depth bs with
    | some (i, rest) => readItems bound depth count (i :: items) rest
    | none => none

/-- The items up to the break, behind the `count` items already read, latest first. -/
def readUntilBreak : Nat → Nat → Nat → List Item → List UInt8 → Option (List Item × List UInt8)
  | 0, _, _, _, _ => none
  | _, _, _, _, [] => none
  | _, _, _, items, 0xff :: rest => some (items.reverse, rest)
  | bound + 1, depth, count, items, bs =>
    match readItem bound depth bs with
    | some (i, rest) => readUntilBreak bound depth (count + 1) (i :: items) rest
    | none => none

end

def readDocument (bs : List UInt8) : Option Item :=
  match readItem (2 * bs.length + 2) 0 bs with
  | some (i, []) => some i
  | _ => none

end HostLowering.Cbor
