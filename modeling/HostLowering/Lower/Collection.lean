import HostLowering.Lower.Binary

set_option autoImplicit false

/-! # Collections

Building collections from slots, unpacking an iterable into slots, and access by key or slice.
-/

namespace HostLowering.Lower

open Machine Catalog

/-- The collections that are built from their elements alone. -/
inductive Collection where
  | tuple | list | set
deriving DecidableEq, Repr, Inhabited

namespace Collection

def hostClass : Collection → String
  | tuple => Library.tupleClass
  | list => Library.listClass
  | set => Library.setClass

def type : Collection → TypeRef
  | tuple => tupleType
  | list => listType
  | set => setType

end Collection

namespace Lowering

/-! ## Building -/

/-- Replace the top slots by a collection of them. -/
def build (c : Collection) (n : Int) : Lowering Unit :=
  if n < 0 then fail (.negativeElements n) else collect c.hostClass c.type n.toNat

/-- Put pairs of temporaries, each key before its value, into the dict on top of the host stack. -/
def putPairs : List Temp → Lowering Unit
  | k :: v :: rest => do
    emit [.dup]
    loadTemp k
    loadTemp v
    invoke Library.dictPut
    putPairs rest
  | _ => pure ()

/-- Replace pairs, keys below values, by a dict. Pairs are inserted from the bottom up, so a
repeated key keeps its last value. -/
def buildMap (n : Int) : Lowering Unit := do
  if n < 0 then fail (.negativePairs n)
  else
    let ts ← spill (wrap64 (2 * n))
    newCollection Library.dictClass n
    putPairs ts.reverse
    release ts
    pushType dictType

/-! ## Unpacking -/

/-- The most targets that room can be made for. -/
def mostTargets : Int := 0x200000000000

/-- Take the next value of an iterator: `[] -> [v]`. -/
def nextOf (iterator : Int) : Lowering Unit := do
  loadRef iterator
  callUnary "__next__"

/-- Replace an iterable by its items, the first on top. The code raises when there are fewer or
more items than targets. The handler for the end of the iteration enters with an empty stack, so
everything is spilled. -/
def unpack (n : Int) : Lowering Unit := do
  if n < 0 then fail (.negativeTargets n)
  else
    let ts ← spill (← stack).length
    reload (ts.take 1)
    unary "__iter__"
    let it ← allocRef
    storeRef it
    drop 1
    let size ← alloc .int
    pushInt 0
    store size .int
    if mostTargets < n then defect .invalidAccess
    let items ← (List.range n.toNat).mapM fun _ => allocRef
    let start ← newLabel
    let stop ← newLabel
    let exhausted ← newLabel
    let done ← newLabel
    mark start
    items.forM fun i => do
      nextOf it
      storeRef i
      increment size
    nextOf it
    mark stop
    emit [.pop]
    pushInt n
    invokeStatic Library.unpackTooManyError
    emit [.athrow]
    mark exhausted
    tryCatch start stop exhausted Library.stopIterationClass
    emit [.pop]
    load size .int
    pushInt n
    branch .ifIcmpge done
    pushInt n
    load size .int
    invokeStatic Library.unpackTooFewError
    emit [.athrow]
    mark done
    reload (ts.drop 1)
    items.reverse.forM fun i => do
      loadRef i
      pushType objectType
    items.reverse.forM free
    free size
    free it
    release ts

/-- Push an item of the list in a local: `[] -> [v]`. -/
def pushItem (list index : Int) : Lowering Unit := do
  loadRef list
  pushInt index
  invoke Library.listGet
  pushType objectType

/-- Replace an iterable by leading items, a list of the middle items and trailing items. The first
leading item ends on top and the last trailing item deepest. -/
def unpackWithTail (before after : Int) : Lowering Unit := do
  if before < 0 ∨ after < 0 then fail (.negativeTargetPair before after)
  else
    newCollection Library.listClass 0
    emit [.dupX1, .swap]
    invoke Library.listExtend
    drop 1
    let list ← allocRef
    storeRef list
    let fixed := before + after
    let enough ← newLabel
    loadRef list
    invoke Library.listSize
    pushInt fixed
    branch .ifIcmpge enough
    pushInt fixed
    loadRef list
    invoke Library.listSize
    invokeStatic Library.unpackTooFewStarredError
    emit [.athrow]
    mark enough
    (List.range after.toNat).forM fun i => pushItem list (-(i + 1))
    loadRef list
    pushInt before
    pushInt after
    invoke Library.listCut
    pushType listType
    (List.range before.toNat).reverse.forM fun i => pushItem list i
    free list

/-! ## Access by key or slice -/

/-- `[start stop] -> [slice]`, with no step -/
def newSlice : Lowering Unit := do
  let ts ← spill 2
  emitClass .new Library.sliceClass
  emit [.dup]
  ts.reverse.forM loadTemp
  getStatic Library.noneField
  invokeSpecial Library.sliceInit
  release ts
  pushType sliceType

/-- Set an item on `[value container key]`. -/
def storeItem : Lowering Unit := do
  rotate3
  rotate3
  callProtocol "__setitem__" 3
  discardTop

/-- Delete an item on `[container key]`. -/
def deleteItem : Lowering Unit := do
  callProtocol "__delitem__" 2
  discardTop

/-- `[container start stop] -> [container[start:stop]]` -/
def getSlice : Lowering Unit := do
  newSlice
  binary .getItem

/-- Set a slice on `[value container start stop]`. -/
def storeSlice : Lowering Unit := do
  newSlice
  storeItem

end Lowering

end HostLowering.Lower
