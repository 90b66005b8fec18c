import KeyValueStore.Memory

/-!
# The file backed buffer

`FileBackedBuffer` as the code computes it: the two list heads at the start of the mapped file and the three header
words of a block, read and written as little-endian 64-bit words, and `alloc`, `free` and the list routines below
them.  A computation fails (`none`) where the code does not return: an access outside the mapping, a failed
assertion, or a list walk longer than the file has bytes, which only a cyclic list gives.  Sizes are `size_t`,
so sums and differences of them are taken modulo `2 ^ 64`.

Every store is also recorded, in program order, so that the file left behind by a kill in the middle of a call is
`killedAfter`.
-/

namespace KeyValueStore

open ByteMemory

/-- `NULL_OFFSET`. -/
def nullOffset : Nat := 0

/-- `sizeof(BufferHeader)`. -/
def sizeofBufferHeader : Nat := 16

/-- `sizeof(Block)`, the overhead of each block. -/
def sizeofBlock : Nat := 24

/-- Addition of two `size_t`. -/
def add64 (a b : Nat) : Nat := (a + b) % 2 ^ 64

/-- Subtraction of two `size_t`. -/
def sub64 (a b : Nat) : Nat := (a + (2 ^ 64 - b % 2 ^ 64)) % 2 ^ 64

/-- The words of `BufferHeader`, and those of the `Block` at a byte offset. -/
inductive Field where
  | nextFreeBlockOffset
  | nextUsedBlockOffset
  | prevBlockOffset (block : Nat)
  | nextBlockOffset (block : Nat)
  | dataSize (block : Nat)
  deriving DecidableEq, Repr

/-- Where a word lies in the file. -/
def Field.address : Field → Nat
  | nextFreeBlockOffset => 0
  | nextUsedBlockOffset => 8
  | prevBlockOffset block => block
  | nextBlockOffset block => block + 8
  | dataSize block => block + 16

/-- The mapped file (`m_db_size`, an `int`, and the bytes at `m_base`), with the stores made so far. -/
structure FileBackedBuffer where
  dbSize : Nat
  dbSize_lt : dbSize < 2 ^ 31
  base : Mem
  stores : List (Field × Nat)

/-- The bytes after a sequence of stores. -/
def applyStores (m : Mem) (ws : List (Field × Nat)) : Mem :=
  ws.foldl (fun m w => setWord m w.1.address w.2) m

/-- The buffer after a sequence of stores. -/
def FileBackedBuffer.after (s : FileBackedBuffer) (ws : List (Field × Nat)) : FileBackedBuffer :=
  { s with base := applyStores s.base ws, stores := s.stores ++ ws }

/-- The value of a word of the file. -/
def FileBackedBuffer.field (s : FileBackedBuffer) (f : Field) : Nat := word s.base f.address

abbrev BufferM := StateT FileBackedBuffer Option

/-- The code does not return from here. -/
def abort {α : Type} : BufferM α := fun _ => none

def assert (c : Bool) : BufferM Unit := fun s => if c then some ((), s) else none

def load (f : Field) : BufferM Nat := fun s =>
  if f.address + 8 ≤ s.dbSize then some (s.field f, s) else none

def store (f : Field) (v : Nat) : BufferM Unit := fun s =>
  if f.address + 8 ≤ s.dbSize then some ((), s.after [(f, v)]) else none

/-- The initialisation of a new file by the constructor. -/
def initBuffer : BufferM Unit := do
  store .nextFreeBlockOffset sizeofBufferHeader
  store .nextUsedBlockOffset nullOffset
  let newBlock ← load .nextFreeBlockOffset
  let dbSize := (← get).dbSize
  store (.dataSize newBlock) (sub64 (sub64 dbSize sizeofBufferHeader) sizeofBlock)
  store (.prevBlockOffset newBlock) nullOffset
  store (.nextBlockOffset newBlock) nullOffset

def removeBlockFromList (listHead : Field) (currBlock : Nat) : BufferM Unit := do
  if (← load (.prevBlockOffset currBlock)) ≠ nullOffset then
    let prevBlock ← load (.prevBlockOffset currBlock)
    store (.nextBlockOffset prevBlock) (← load (.nextBlockOffset currBlock))
  else
    store listHead (← load (.nextBlockOffset currBlock))
  if (← load (.nextBlockOffset currBlock)) ≠ nullOffset then
    let nextBlock ← load (.nextBlockOffset currBlock)
    store (.prevBlockOffset nextBlock) (← load (.prevBlockOffset currBlock))
  store (.prevBlockOffset currBlock) nullOffset
  store (.nextBlockOffset currBlock) nullOffset

/-- Inserts a block at the front of the used list. -/
def insertBlockToUsedList (block : Nat) : BufferM Unit := do
  if (← load .nextUsedBlockOffset) ≠ nullOffset then
    let nextBlock ← load .nextUsedBlockOffset
    store (.prevBlockOffset nextBlock) block
  store (.prevBlockOffset block) nullOffset
  store (.nextBlockOffset block) (← load .nextUsedBlockOffset)
  store .nextUsedBlockOffset block

/-- The loop of `insert_block_to_free_list`: the first free block behind `blockOffset`, or the last free block. -/
def findFreePosition (blockOffset : Nat) : Nat → Nat → BufferM Nat
  | 0, _ => abort
  | fuel + 1, currFreeBlockOffset => do
    if currFreeBlockOffset > blockOffset then
      return currFreeBlockOffset
    if (← load (.nextBlockOffset currFreeBlockOffset)) = nullOffset then
      return currFreeBlockOffset
    findFreePosition blockOffset fuel (← load (.nextBlockOffset currFreeBlockOffset))

/-- The neighbours of the new block, `prev_free_block_offset` and `next_free_block_offset`. -/
def freeNeighbours (blockOffset currFreeBlockOffset : Nat) : BufferM (Nat × Nat) := do
  if currFreeBlockOffset < blockOffset then
    assert ((← load (.nextBlockOffset currFreeBlockOffset)) == nullOffset)
    return (currFreeBlockOffset, ← load (.nextBlockOffset currFreeBlockOffset))
  else if currFreeBlockOffset > blockOffset then
    let prevOffset ← load (.prevBlockOffset currFreeBlockOffset)
    assert (prevOffset == nullOffset || decide (prevOffset < blockOffset))
    return (prevOffset, currFreeBlockOffset)
  else
    -- "block is already in list!"
    abort

/-- The block is linked between its neighbours. -/
def linkFreeBlock (block currFreeBlockOffset prevFreeBlockOffset nextFreeBlockOffset : Nat) : BufferM Unit := do
  store (.prevBlockOffset block) prevFreeBlockOffset
  store (.nextBlockOffset block) nextFreeBlockOffset
  if prevFreeBlockOffset ≠ nullOffset then
    store (.nextBlockOffset prevFreeBlockOffset) block
  else
    assert (currFreeBlockOffset == (← load .nextFreeBlockOffset))
    store .nextFreeBlockOffset block
  if nextFreeBlockOffset ≠ nullOffset then
    store (.prevBlockOffset nextFreeBlockOffset) block

/-- `prev_contiguous` is this test of the predecessor and itself, `next_contiguous` of the successor and the new block:
the neighbour exists, and `block` ends where the block it is linked to starts. -/
def contiguous (neighbour block : Nat) : BufferM Bool :=
  if neighbour ≠ nullOffset then do
    return add64 (add64 block sizeofBlock) (← load (.dataSize block)) == (← load (.nextBlockOffset block))
  else
    return false

/-- The block is merged with the neighbours that it touches. -/
def mergeFreeBlock (block prevFreeBlockOffset nextFreeBlockOffset : Nat) : BufferM Unit := do
  let prevContiguous ← contiguous prevFreeBlockOffset prevFreeBlockOffset
  let nextContiguous ← contiguous nextFreeBlockOffset block
  if prevContiguous && nextContiguous then
    removeBlockFromList .nextFreeBlockOffset block
    removeBlockFromList .nextFreeBlockOffset nextFreeBlockOffset
    let merged := add64 (add64 sizeofBlock (← load (.dataSize block)))
      (add64 sizeofBlock (← load (.dataSize nextFreeBlockOffset)))
    store (.dataSize prevFreeBlockOffset) (add64 (← load (.dataSize prevFreeBlockOffset)) merged)
  else if prevContiguous then
    removeBlockFromList .nextFreeBlockOffset block
    let merged := add64 sizeofBlock (← load (.dataSize block))
    store (.dataSize prevFreeBlockOffset) (add64 (← load (.dataSize prevFreeBlockOffset)) merged)
  else if nextContiguous then
    removeBlockFromList .nextFreeBlockOffset nextFreeBlockOffset
    let merged := add64 sizeofBlock (← load (.dataSize nextFreeBlockOffset))
    store (.dataSize block) (add64 (← load (.dataSize block)) merged)

/-- Inserts a block in sorted order. -/
def insertBlockToFreeList (block : Nat) : BufferM Unit := do
  let head ← load .nextFreeBlockOffset
  if head = nullOffset then
    -- the links of `block` are left as they are
    store .nextFreeBlockOffset block
  else
    let currFreeBlockOffset ← findFreePosition block (← get).dbSize head
    let (prevFreeBlockOffset, nextFreeBlockOffset) ← freeNeighbours block currFreeBlockOffset
    linkFreeBlock block currFreeBlockOffset prevFreeBlockOffset nextFreeBlockOffset
    mergeFreeBlock block prevFreeBlockOffset nextFreeBlockOffset

/-- The body of the branch of `alloc` that splits a block: the part behind the requested size becomes a free block. -/
def splitBlock (currBlock allocSize : Nat) : BufferM Unit := do
  let splitBlock := currBlock + sizeofBlock + allocSize
  store (.dataSize splitBlock) (sub64 (sub64 (← load (.dataSize currBlock)) allocSize) sizeofBlock)
  insertBlockToFreeList splitBlock
  store (.dataSize currBlock) allocSize

/-- The body of the branch of `alloc` that takes a free block; the result is the block's payload. -/
def takeBlock (currBlock allocSize : Nat) : BufferM Nat := do
  removeBlockFromList .nextFreeBlockOffset currBlock
  if (← load (.dataSize currBlock)) ≥ add64 (add64 allocSize sizeofBlock) 100 then
    splitBlock currBlock allocSize
  insertBlockToUsedList currBlock
  return currBlock + sizeofBlock

def allocLoop (allocSize : Nat) : Nat → Nat → BufferM (Option Nat)
  | 0, _ => abort
  | fuel + 1, currFreeBlockOffset => do
    if currFreeBlockOffset = nullOffset then
      return none
    if (← load (.dataSize currFreeBlockOffset)) ≥ allocSize then
      return some (← takeBlock currFreeBlockOffset allocSize)
    allocLoop allocSize fuel (← load (.nextBlockOffset currFreeBlockOffset))

/-- The offset of the payload handed out, `none` for `nullptr`. -/
def alloc (allocSize : Nat) : BufferM (Option Nat) := do
  allocLoop allocSize (← get).dbSize (← load .nextFreeBlockOffset)

/-- Frees the block with the payload at offset `pointer`. -/
def free (pointer : Nat) : BufferM Unit := do
  let block := pointer - sizeofBlock
  removeBlockFromList .nextUsedBlockOffset block
  insertBlockToFreeList block

/-- The walk from one used block on, by `const_iterator`: payload offset and `data_size` of each block. -/
def usedFrom : Nat → Nat → BufferM (List (Nat × Nat))
  | 0, _ => abort
  | fuel + 1, offset => do
    if offset = nullOffset then
      return []
    let data := (offset + sizeofBlock, ← load (.dataSize offset))
    return data :: (← usedFrom fuel (← load (.nextBlockOffset offset)))

/-- The used blocks from `begin_used()` to `end_used()`. -/
def usedBlocks : BufferM (List (Nat × Nat)) := do
  usedFrom (← get).dbSize (← load .nextUsedBlockOffset)

/-- The bytes of the file when the process is killed after `k` of the stores of a call. -/
def killedAfter {α : Type} (call : BufferM α) (s : FileBackedBuffer) (k : Nat) : Option Mem :=
  (call { s with stores := [] }).map fun r => applyStores s.base (r.2.stores.take k)

end KeyValueStore
