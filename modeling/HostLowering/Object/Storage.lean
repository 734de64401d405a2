import HostLowering.Object.Value

set_option autoImplicit false

/-! # Storage of sequences

The items of a sequence stand in the first cells of a block of storage. Sequences can share a block;
then each of them shows what another one writes to the cells it covers. A block keeps its size.
Items put behind those of a sequence go to the free cells of its block; when there are too few of
them the sequence moves to a new block, which is larger than needed so that the next items find
room, and shares its cells no more.
-/

namespace HostLowering.Object

/-! ## Sizes of blocks -/

def cellSize : Nat := 16

/-- The sizes in which small pieces of memory are given out, in bytes. -/
def pieceSizes : List Nat :=
  [8, 16, 24, 32, 48, 64, 80, 96, 112, 128, 144, 160, 176, 192, 208, 224, 240, 256, 288, 320, 352,
    384, 416, 448, 480, 512, 576, 640, 704, 768, 896, 1024, 1152, 1280, 1408, 1536, 1792, 2048,
    2304, 2688, 3072, 3200, 3456, 4096, 4864, 5120, 5376, 6144, 6528, 6784, 6912, 8192, 9472, 9728,
    10240, 10880, 12288, 13568, 14336, 16384, 18432, 19072, 20480, 21760, 24576, 27264, 28672,
    32768]

/-- The size of a page, in bytes. Large pieces are given out in whole pages. -/
def pageSize : Nat := 8192

/-- The bytes taken off a piece of more than 512 bytes to describe its contents. -/
def headerSize (bytes : Nat) : Nat := if 512 < bytes then 8 else 0

/-- The usable bytes of the smallest piece with room for so many bytes. -/
def pieceFor (bytes : Nat) : Nat :=
  let header := headerSize bytes
  match pieceSizes.find? (bytes + header ≤ ·) with
  | some piece => piece - header
  | none => (bytes + pageSize - 1) / pageSize * pageSize

/-- The number of cells in the smallest piece with room for so many cells. -/
def roomFor (cells : Nat) : Nat := pieceFor (cells * cellSize) / cellSize

/-- The size of a large block enlarged by about a quarter, as often as the needed size asks. -/
def enlarge (needed size : Nat) : Nat :=
  let next := size + (size + 768) / 4
  if needed ≤ next then next else enlarge needed next
termination_by needed - size

/-- The number of cells to ask for when a block is too small: twice its size, about a quarter more
for a large block, and in any case as many as needed. -/
def growTo (needed size : Nat) : Nat :=
  if 2 * size < needed then needed
  else if size < 256 then 2 * size
  else enlarge needed size

/-! ## Blocks -/

/-- The place of the items of a sequence: so many cells at the front of a block. -/
structure Window where
  block : Nat
  length : Nat
deriving DecidableEq, Repr, Inhabited

/-- The blocks of storage with their cells. A cell that was never written holds null. -/
structure Storage where
  blocks : Array (List Value) := #[]
deriving Inhabited

namespace Storage

def cells (s : Storage) (w : Window) : List Value := (s.blocks[w.block]?).getD []

def items (s : Storage) (w : Window) : List Value := (s.cells w).take w.length

/-- Put items into a new block with room for a number of items. -/
def add (s : Storage) (items : List Value) (room : Nat) : Window × Storage :=
  let free := List.replicate (room - items.length) Value.null
  (⟨s.blocks.size, items.length⟩, { s with blocks := s.blocks.push (items ++ free) })

/-- Put a copy of items into a new block. -/
def copy (s : Storage) (items : List Value) : Window × Storage :=
  s.add items (roomFor items.length)

/-- Write values to the cells of a block from an index on. -/
def fill (s : Storage) (block start : Nat) (values : List Value) : Storage :=
  { s with blocks := s.blocks.modify block fun cells =>
      cells.take start ++ values ++ cells.drop (start + values.length) }

/-- Put items behind those of a window: into the free cells of its block, or all of them into a new
block. -/
def append (s : Storage) (w : Window) (more : List Value) : Window × Storage :=
  let size := (s.cells w).length
  let needed := w.length + more.length
  if needed ≤ size then (⟨w.block, needed⟩, s.fill w.block w.length more)
  else s.add (s.items w ++ more) (roomFor (growTo needed size))

/-- Replace the items between two indices. -/
def replace (s : Storage) (w : Window) (lo hi : Nat) (values : List Value) : Window × Storage :=
  let tail := (s.items w).drop hi
  let (w, s) := s.append ⟨w.block, lo⟩ values
  s.append w tail

/-- Replace the item at an index. -/
def set (s : Storage) (w : Window) (i : Nat) (v : Value) : Window × Storage :=
  (w, s.fill w.block i [v])

/-- Put an item in front of those of a window, all of them into a new block. -/
def prepend (s : Storage) (w : Window) (v : Value) : Window × Storage :=
  let items := s.items w
  let (w, s) := s.add [v] 1
  s.append w items

end Storage

end HostLowering.Object
