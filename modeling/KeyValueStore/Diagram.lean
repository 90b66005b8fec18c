import KeyValueStore.Client
import KeyValueStore.Image

/-!
# The usage diagram

`dump_usage`, apart from the choice of the dimensions, which is made in floating point, and from the encoding of the image:
one pixel for four bytes of the file.  The header of the file and the overhead and the data of every block are plotted, the
used blocks first, and then the blocks are annotated with their sizes.

The offset, the start of the data and the size of a block are divided by four one by one, so the last pixel of a block may
stay unpainted, and the pixels of a block never reach those of another one.
-/

namespace KeyValueStore

open ByteMemory MachineInt Image

/-- `NUM_BYTES_PER_PIXEL`. -/
def numBytesPerPixel : Nat := 4

def rgbAnnotation : Color := ⟨0xFF, 0xFF, 0xFF⟩

def rgbOverhead : Color := ⟨0x90, 0xD5, 0xFF⟩

def rgbData : Color := ⟨0x2E, 0x6F, 0x40⟩

def rgbUnused : Color := ⟨0x55, 0x55, 0x55⟩

/-- `MAX_ANNOTATION_LEN`. -/
def maxAnnotationLen : Nat := 64

/-- A loop over an `unsigned int` that sets `n` pixels; it does not end when `n` is no `unsigned int`. -/
def plotPixels (color : Color) (pixelOffset n : Nat) (img : Image) : Option Image :=
  if n < 2 ^ 32 then
    (List.range n).foldlM (fun img i => img.setPixel (toInt32 (toUInt32 (pixelOffset + i : Nat))) color) img
  else
    none

/-- The body of a plotting loop. -/
def plotBlock (color : Color) (currBlock : Nat) (img : Image) : BufferM Image := do
  let img ← liftM (plotPixels rgbOverhead (toUInt32 (currBlock / numBytesPerPixel : Nat))
    (sizeofBlock / numBytesPerPixel) img)
  let pixelOffset := toUInt32 (add64 currBlock sizeofBlock / numBytesPerPixel : Nat)
  liftM (plotPixels color pixelOffset ((← load (.dataSize currBlock)) / numBytesPerPixel) img)

/-- The text that `snprintf` leaves in `annotation`. -/
def annotationText (kind : Char) (dataSize : Nat) : List Char :=
  (kind :: ':' :: (Nat.toDigits 10 dataSize ++ ['B'])).take (maxAnnotationLen - 1)

/-- The body of an annotating loop. -/
def annotateBlock (font : Nat → Nat → UInt8) (kind : Char) (currBlock : Nat) (img : Image) : BufferM Image := do
  let pixelOffset := toUInt32 (add64 currBlock sizeofBlock / numBytesPerPixel : Nat)
  let xy := img.idxToXy (toInt32 (toUInt32 (pixelOffset + 1 : Nat)))
  liftM (img.drawText font xy.1 xy.2 (annotationText kind (← load (.dataSize currBlock))) rgbAnnotation)

/-- A loop over the blocks of a list. -/
def forBlocks (body : Nat → Image → BufferM Image) : Nat → Nat → Image → BufferM Image
  | 0, _, _ => abort
  | fuel + 1, currBlock, img => do
    if currBlock = nullOffset then
      return img
    let img ← body currBlock img
    forBlocks body fuel (← load (.nextBlockOffset currBlock)) img

/-- The picture before it is annotated. -/
def plotUsage (numRows numCols : Int) : BufferM Image := do
  let img ← liftM (plotPixels rgbOverhead 0 (sizeofBufferHeader / numBytesPerPixel) (Image.new numRows numCols))
  let img ← forBlocks (plotBlock rgbData) (← get).dbSize (← load .nextUsedBlockOffset) img
  forBlocks (plotBlock rgbUnused) (← get).dbSize (← load .nextFreeBlockOffset) img

def annotateUsage (font : Nat → Nat → UInt8) (img : Image) : BufferM Image := do
  let img ← forBlocks (annotateBlock font 'U') (← get).dbSize (← load .nextUsedBlockOffset) img
  forBlocks (annotateBlock font 'F') (← get).dbSize (← load .nextFreeBlockOffset) img

/-- `dump_usage`: the image that is encoded. -/
def dumpUsage (font : Nat → Nat → UInt8) (numRows numCols : Int) : BufferM Image := do
  annotateUsage font (← plotUsage numRows numCols)

/-! ### The calls of the diagram -/

/-- The pixels of the header of the file. -/
def headerPixels : List Nat := List.range' 0 4

/-- The pixels of the overhead of a block. -/
def Block.overheadPixels (b : Block) : List Nat := List.range' (b.offset / 4) 6

/-- The pixels of the data of a block. -/
def Block.dataPixels (b : Block) : List Nat := List.range' ((b.offset + 24) / 4) (b.dataSize / 4)

/-- The first pixel behind those of a block. -/
def Block.pixelStop (b : Block) : Nat := b.offset / 4 + 6 + b.dataSize / 4

/-- The ranges of pixels that are plotted. -/
def Layout.pixels (L : Layout) : List (List Nat) :=
  headerPixels :: (L.used ++ L.free).flatMap fun b => [b.overheadPixels, b.dataPixels]

/-- The calls that set a list of pixels. -/
def setAll (color : Color) (pixels : List Nat) : List (Int × Color) := pixels.map fun (i : Nat) => ((i : Int), color)

def Block.plots (color : Color) (b : Block) : List (Int × Color) :=
  setAll rgbOverhead b.overheadPixels ++ setAll color b.dataPixels

/-- The calls before the annotation. -/
def Layout.plots (L : Layout) : List (Int × Color) :=
  setAll rgbOverhead headerPixels ++ L.used.flatMap (Block.plots rgbData) ++ L.free.flatMap (Block.plots rgbUnused)

/-- Where the annotation of a block starts: at the second pixel of its data, if the image has it. -/
def Block.place (rows cols : Nat) (b : Block) : Int × Int :=
  let i := (b.offset + 24) / 4 + 1
  if i < rows * cols then (((i % cols : Nat) : Int), ((i / cols : Nat) : Int)) else (-1, -1)

def Block.notes (font : Nat → Nat → UInt8) (rows cols : Nat) (kind : Char) (b : Block) : List (Int × Color) :=
  textCalls font rows cols (b.place rows cols).1 (b.place rows cols).2 (annotationText kind b.dataSize) rgbAnnotation

/-- The calls of the annotation. -/
def Layout.notes (font : Nat → Nat → UInt8) (rows cols : Nat) (L : Layout) : List (Int × Color) :=
  L.used.flatMap (Block.notes font rows cols 'U') ++ L.free.flatMap (Block.notes font rows cols 'F')

/-! ### The loops -/

/-- Following the `next` offsets from `offset` on visits these blocks. -/
def Walk (F : Words) : Nat → List Block → Prop
  | offset, [] => offset = nullOffset
  | offset, b :: l => offset = b.offset ∧ F (.dataSize b.offset) = b.dataSize ∧ Walk F (F (.nextBlockOffset b.offset)) l

/-- The two lists, followed from their heads, are those of the layout. -/
structure Layout.Walked (F : Words) (L : Layout) : Prop where
  used : Walk F (F .nextUsedBlockOffset) L.used
  free : Walk F (F .nextFreeBlockOffset) L.free

private theorem walk_of_seg {F : Words} {p offset : Nat} {l : List Block}
    (h : DoublyLinked.Seg (fun x => F (.prevBlockOffset x)) (fun x => F (.nextBlockOffset x)) p (l.map Block.offset)
      nullOffset)
    (hoffset : offset = (l.map Block.offset).headD nullOffset) (hsize : ∀ b ∈ l, F (.dataSize b.offset) = b.dataSize) :
    Walk F offset l := by
  induction l generalizing p offset with
  | nil => exact hoffset
  | cons b l ih =>
    obtain ⟨-, hn, ht⟩ := h
    exact ⟨hoffset, hsize b (List.mem_cons_self ..), ih ht hn fun c hc => hsize c (List.mem_cons_of_mem _ hc)⟩

/-- The lists of a layout are followed forwards. -/
theorem Layout.Holds.walked {F : Words} {L : Layout} (h : L.Holds F) : L.Walked F :=
  ⟨walk_of_seg h.used.seg h.used.head fun b hb => h.sizes b (List.mem_append_right _ hb),
    walk_of_seg h.free.seg h.free.head fun b hb => h.sizes b (List.mem_append_left _ hb)⟩

section

variable {s : FileBackedBuffer} {L : Layout} {rows cols : Nat} {img : Image} {b : Block}

private theorem bind_run {α β : Type} {x : BufferM α} {a : α} {k : α → BufferM β} (h : x s = some (a, s)) :
    (x >>= k) s = k a s := by
  show (x s).bind _ = _
  rw [h]
  rfl

private theorem load_run {f : Field} (h : f.address + 8 ≤ s.dbSize) : load f s = some (s.field f, s) := by
  rw [load, if_pos h]

private theorem liftM_run {α : Type} {x : Option α} {a : α} (h : x = some a) :
    (liftM x : BufferM α) s = some (a, s) := by
  rw [h]
  rfl

/-- A loop over the blocks of a list makes the calls of its body for each of them. -/
private theorem forBlocks_run {body : Nat → Image → BufferM Image} {calls : Block → List (Int × Color)}
    {l : List Block} {offset fuel : Nat} (hl : Walk s.field offset l) (hfuel : l.length < fuel)
    (hin : ∀ b ∈ l, sizeofBufferHeader ≤ b.offset ∧ b.stop ≤ s.dbSize)
    (hbody : ∀ b ∈ l, s.field (.dataSize b.offset) = b.dataSize → ∀ img : Image, img.Fits rows cols →
      body b.offset img s = some (img.after (calls b), s)) (h : img.Fits rows cols) :
    forBlocks body fuel offset img s = some (img.after (l.flatMap calls), s) := by
  induction l generalizing offset fuel img with
  | nil =>
    obtain ⟨fuel, rfl⟩ : ∃ k, fuel = k + 1 := ⟨fuel - 1, by omega⟩
    have hnull : offset = nullOffset := hl
    rw [forBlocks, if_pos hnull, List.flatMap_nil, after_nil]
    rfl
  | cons b l ih =>
    obtain ⟨fuel, rfl⟩ : ∃ k, fuel = k + 1 := ⟨fuel - 1, by omega⟩
    obtain ⟨rfl, hsize, hnext⟩ := hl
    obtain ⟨hb, hstop⟩ := hin b (List.mem_cons_self ..)
    have hne : b.offset ≠ nullOffset := by
      simp only [sizeofBufferHeader, nullOffset] at hb ⊢
      omega
    have haddr : (Field.nextBlockOffset b.offset).address + 8 ≤ s.dbSize := by
      simp only [Field.address, Block.stop, sizeofBlock] at hstop ⊢
      omega
    rw [forBlocks, if_neg hne, bind_run (hbody b (List.mem_cons_self ..) hsize img h), bind_run (load_run haddr),
      List.flatMap_cons, after_append]
    apply ih hnext
    · simpa using hfuel
    · exact fun c hc => hin c (List.mem_cons_of_mem _ hc)
    · exact fun c hc => hbody c (List.mem_cons_of_mem _ hc)
    · exact h.after _

private theorem plotPixels_eq (h : img.Fits rows cols) {pixelOffset n : Nat} (hn : pixelOffset + n ≤ rows * cols)
    (color : Color) :
    plotPixels color pixelOffset n img = some (img.after (setAll color (List.range' pixelOffset n))) := by
  have harea := h.area_le
  have hcalls : setAll color (List.range' pixelOffset n) =
      (List.range n).flatMap fun i => [(((pixelOffset + i : Nat) : Int), color)] := by
    rw [setAll, List.range'_eq_map_range, List.map_map, ← List.map_eq_flatMap]
    rfl
  rw [plotPixels, if_pos (by omega), hcalls]
  refine foldlM_draw (fun i hi img h => ?_) h
  rw [List.mem_range] at hi
  rw [toUInt32_eq_self (by omega), toInt32_eq_self (by omega) (by omega)]
  exact setPixel_eq h (by exact_mod_cast (show pixelOffset + i < rows * cols by omega)) color

/-- The overhead of a block is an integral number of pixels. -/
private theorem Block.dataPixels_start (b : Block) : (b.offset + 24) / 4 = b.offset / 4 + 6 := by
  omega

private theorem Block.pixelStop_le (b : Block) : b.pixelStop ≤ b.stop / 4 := by
  simp only [Block.pixelStop, Block.stop, sizeofBlock]
  omega

/-- What is true of the blocks of a diagram: they lie in the file, and the file in the image. -/
private theorem block_bounds (ht : Tiled L.blocks s.dbSize) (harea : s.dbSize / 4 ≤ rows * cols)
    (hb : b ∈ L.blocks) :
    16 ≤ b.offset ∧ b.offset + 24 + b.dataSize ≤ s.dbSize ∧ s.dbSize < 2 ^ 31 ∧ b.pixelStop ≤ rows * cols := by
  obtain ⟨h₁, h₂⟩ := ht.bounds hb
  have h₃ := b.pixelStop_le
  have hdb := s.dbSize_lt
  simp only [Block.stop, sizeofBlock, sizeofBufferHeader] at h₁ h₂ h₃
  omega

private theorem header_run (ht : Tiled L.blocks s.dbSize) (hb : b ∈ L.blocks)
    (hsize : s.field (.dataSize b.offset) = b.dataSize) :
    load (.dataSize b.offset) s = some (b.dataSize, s) ∧ add64 b.offset sizeofBlock = b.offset + 24 := by
  obtain ⟨h₁, h₂⟩ := ht.bounds hb
  have hdb := s.dbSize_lt
  simp only [Block.stop, sizeofBlock] at h₂
  have haddr : (Field.dataSize b.offset).address + 8 ≤ s.dbSize := by
    simp only [Field.address]
    omega
  constructor
  · rw [load_run haddr, hsize]
  · simp only [add64, sizeofBlock]
    omega

private theorem plotBlock_run (h : img.Fits rows cols) (ht : Tiled L.blocks s.dbSize)
    (harea : s.dbSize / 4 ≤ rows * cols) (hb : b ∈ L.blocks) (hsize : s.field (.dataSize b.offset) = b.dataSize)
    (color : Color) : plotBlock color b.offset img s = some (img.after (b.plots color), s) := by
  obtain ⟨h₁, h₂, h₃, h₄⟩ := block_bounds ht harea hb
  have hstart := b.dataPixels_start
  obtain ⟨hload, hadd⟩ := header_run ht hb hsize
  simp only [Block.pixelStop] at h₄
  have hoverhead : plotPixels rgbOverhead (b.offset / 4) (sizeofBlock / 4) img =
      some (img.after (setAll rgbOverhead b.overheadPixels)) := by
    apply plotPixels_eq h
    simp only [sizeofBlock]
    omega
  have hdata : plotPixels color ((b.offset + 24) / 4) (b.dataSize / 4)
      (img.after (setAll rgbOverhead b.overheadPixels)) =
        some ((img.after (setAll rgbOverhead b.overheadPixels)).after (setAll color b.dataPixels)) :=
    plotPixels_eq (h.after _) (by omega) _
  rw [plotBlock, hadd, numBytesPerPixel, toUInt32_eq_self (by omega), toUInt32_eq_self (by omega)]
  rw [bind_run (liftM_run hoverhead), bind_run hload, Block.plots, after_append]
  exact liftM_run hdata

private theorem Block.place_bounds (hr : 1 ≤ rows) (hc : 1 ≤ cols) (b : Block) :
    -1 ≤ (b.place rows cols).1 ∧ (b.place rows cols).1 < cols ∧ -1 ≤ (b.place rows cols).2 ∧
      (b.place rows cols).2 < rows := by
  simp only [Block.place]
  split
  · rename_i hi
    have hmod := Nat.mod_lt ((b.offset + 24) / 4 + 1) hc
    have hdiv := (Nat.div_lt_iff_lt_mul hc).2 hi
    dsimp only
    generalize ((b.offset + 24) / 4 + 1) % cols = x at hmod ⊢
    generalize ((b.offset + 24) / 4 + 1) / cols = y at hdiv ⊢
    omega
  · dsimp only
    omega

private theorem length_annotationText_lt (kind : Char) (dataSize : Nat) : (annotationText kind dataSize).length < 64 := by
  have hle : (annotationText kind dataSize).length ≤ maxAnnotationLen - 1 := List.length_take_le ..
  simp only [maxAnnotationLen] at hle
  omega

private theorem lt_of_mem_annotationText {kind : Char} (hkind : kind.toNat < 128) {dataSize : Nat} :
    ∀ c ∈ annotationText kind dataSize, c.toNat < 128 := by
  intro c hc
  have hc := List.mem_of_mem_take hc
  simp only [List.mem_cons, List.mem_append, List.not_mem_nil, or_false] at hc
  rcases hc with rfl | rfl | hc | rfl
  · exact hkind
  · decide
  · have hdigit := Nat.isDigit_of_mem_toDigits (by omega) (by omega) hc
    simp only [Char.isDigit, Bool.and_eq_true, decide_eq_true_eq] at hdigit
    have hle : c.val.toNat ≤ 57 := hdigit.2
    show c.val.toNat < 128
    omega
  · decide

private theorem annotateBlock_run (font : Nat → Nat → UInt8) (h : img.Fits rows cols) (ht : Tiled L.blocks s.dbSize)
    (harea : s.dbSize / 4 ≤ rows * cols) (hb : b ∈ L.blocks) (hsize : s.field (.dataSize b.offset) = b.dataSize)
    {kind : Char} (hkind : kind.toNat < 128) :
    annotateBlock font kind b.offset img s = some (img.after (b.notes font rows cols kind), s) := by
  obtain ⟨h₁, h₂, h₃, h₄⟩ := block_bounds ht harea hb
  obtain ⟨hload, hadd⟩ := header_run ht hb hsize
  have hplace : img.idxToXy (((b.offset + 24) / 4 + 1 : Nat) : Int) = b.place rows cols := by
    rw [idxToXy_eq h]
    rfl
  have hidx : toInt32 (toUInt32 (toUInt32 (add64 b.offset sizeofBlock / numBytesPerPixel : Nat) + 1 : Nat)) =
      (((b.offset + 24) / 4 + 1 : Nat) : Int) := by
    rw [hadd, numBytesPerPixel, toUInt32_eq_self (n := (b.offset + 24) / 4) (by omega), toUInt32_eq_self (by omega),
      toInt32_eq_self (by omega) (by omega)]
  have htext : img.drawText font (b.place rows cols).1 (b.place rows cols).2 (annotationText kind b.dataSize) rgbAnnotation =
      some (img.after (b.notes font rows cols kind)) := by
    obtain ⟨hx, hx', hy, hy'⟩ := b.place_bounds h.rows_pos h.cols_pos
    exact drawText_eq h hx hx' hy hy' (lt_of_mem_annotationText hkind) (length_annotationText_lt kind b.dataSize)
  rw [annotateBlock, hidx, hplace, bind_run hload]
  exact liftM_run htext

/-! ### The pixels of the blocks -/

/-- The pixels of a block lie behind those of the blocks in front of it. -/
private theorem pixels_bounds {b : Block} {l : List Nat} (hl : l = b.overheadPixels ∨ l = b.dataPixels) {i : Nat}
    (hi : i ∈ l) : b.offset / 4 ≤ i ∧ i < b.pixelStop := by
  have hstart := b.dataPixels_start
  rcases hl with rfl | rfl
  · obtain ⟨h₁, h₂⟩ := List.mem_range'_1.1 hi
    simp only [Block.pixelStop]
    omega
  · obtain ⟨h₁, h₂⟩ := List.mem_range'_1.1 hi
    simp only [Block.pixelStop]
    omega

private theorem pixelStop_le_of_apart {b c : Block} (h : b.stop ≤ c.offset) : b.pixelStop ≤ c.offset / 4 := by
  have hb := b.pixelStop_le
  omega

/-- No pixel belongs to two of the plotted ranges. -/
theorem Layout.pixels_disjoint {db : Nat} (ht : Tiled L.blocks db) : L.pixels.Pairwise List.Disjoint := by
  have ht : Tiled (L.used ++ L.free) db := ht.perm List.perm_append_comm
  refine List.pairwise_cons.2 ⟨?_, List.pairwise_flatMap.2 ⟨?_, ?_⟩⟩
  · -- the header ends where the first block starts
    intro l hl i hi hi'
    obtain ⟨b, hb, hl⟩ := List.mem_flatMap.1 hl
    obtain ⟨h₁, -⟩ := pixels_bounds (by simpa using hl) hi'
    have hb := (ht.bounds hb).1
    simp only [headerPixels, List.mem_range'_1, sizeofBufferHeader] at hi hb
    omega
  · -- the data of a block start where its overhead ends
    intro b _
    apply List.pairwise_pair.2
    intro i hi hi'
    have hstart := b.dataPixels_start
    simp only [Block.overheadPixels, Block.dataPixels, List.mem_range'_1] at hi hi'
    omega
  · apply ht.pairwise.imp
    intro b c hbc l hl l' hl' i hi hi'
    have h₁ := pixels_bounds (by simpa using hl) hi
    have h₂ := pixels_bounds (by simpa using hl') hi'
    rcases hbc with hbc | hbc
    · have := pixelStop_le_of_apart hbc
      omega
    · have := pixelStop_le_of_apart hbc
      omega

/-- At most the last pixel of a block stays unpainted. -/
private theorem Block.pixels_adjacent {b c : Block} (h : b.stop = c.offset) :
    b.pixelStop ≤ c.offset / 4 ∧ c.offset / 4 ≤ b.pixelStop + 1 := by
  refine ⟨pixelStop_le_of_apart (Nat.le_of_eq h), ?_⟩
  simp only [Block.stop, sizeofBlock, Block.pixelStop] at *
  omega

/-! ### The whole diagram -/

private theorem map_fst_setAll (color : Color) (pixels : List Nat) :
    (setAll color pixels).map Prod.fst = pixels.map fun (i : Nat) => (i : Int) := by
  rw [setAll, List.map_map]
  rfl

/-- The pixels that are set before the annotation are those of the ranges. -/
private theorem Layout.map_fst_plots (L : Layout) :
    L.plots.map Prod.fst = L.pixels.flatten.map fun (i : Nat) => (i : Int) := by
  have hblocks : ∀ (color : Color) (l : List Block), (l.flatMap (Block.plots color)).map Prod.fst =
      (l.flatMap fun b => [b.overheadPixels, b.dataPixels]).flatten.map fun (i : Nat) => (i : Int) := by
    intro color l
    induction l with
    | nil => rfl
    | cons b l ih =>
      simp only [List.flatMap_cons, List.map_append, List.flatten_append, ih, Block.plots, map_fst_setAll,
        List.flatten_cons, List.flatten_nil, List.append_nil]
  simp only [Layout.plots, Layout.pixels, List.map_append, map_fst_setAll, hblocks, List.flatten_cons,
    List.flatMap_append, List.flatten_append, List.append_assoc]

private theorem Layout.plots_nodup {db : Nat} (ht : Tiled L.blocks db) : (L.plots.map Prod.fst).Nodup := by
  rw [L.map_fst_plots]
  refine List.Nodup.map (fun _ _ h => by exact_mod_cast h) (List.nodup_flatten.2 ⟨?_, L.pixels_disjoint ht⟩)
  intro l hl
  rcases List.mem_cons.1 hl with rfl | hl
  · exact List.nodup_range'
  · obtain ⟨b, -, hl⟩ := List.mem_flatMap.1 hl
    simp only [List.mem_cons, List.not_mem_nil, or_false] at hl
    rcases hl with rfl | rfl
    · exact List.nodup_range'
    · exact List.nodup_range'

private theorem Layout.plots_perm {L L' : Layout} (hu : L'.used.Perm L.used) (hf : L'.free.Perm L.free) :
    L'.plots.Perm L.plots := by
  rw [Layout.plots, Layout.plots]
  exact ((List.Perm.refl _).append (hu.flatMap_right _)).append (hf.flatMap_right _)

private theorem passes_run (hL : L.Walked s.field) (ht : Tiled L.blocks s.dbSize)
    {usedBody freeBody : Nat → Image → BufferM Image} {usedCalls freeCalls : Block → List (Int × Color)}
    (hu : ∀ b ∈ L.blocks, s.field (.dataSize b.offset) = b.dataSize → ∀ img : Image, img.Fits rows cols →
      usedBody b.offset img s = some (img.after (usedCalls b), s))
    (hf : ∀ b ∈ L.blocks, s.field (.dataSize b.offset) = b.dataSize → ∀ img : Image, img.Fits rows cols →
      freeBody b.offset img s = some (img.after (freeCalls b), s)) (h : img.Fits rows cols) :
    (do
      let img ← forBlocks usedBody (← get).dbSize (← load .nextUsedBlockOffset) img
      forBlocks freeBody (← get).dbSize (← load .nextFreeBlockOffset) img : BufferM Image) s =
      some (img.after (L.used.flatMap usedCalls ++ L.free.flatMap freeCalls), s) := by
  have hlen := ht.sound.length_lt
  have hdb := ht.sum
  simp only [Layout.blocks, List.length_append] at hlen
  simp only [sizeofBufferHeader] at hdb
  have hget : (get : BufferM FileBackedBuffer) s = some (s, s) := rfl
  have hheads : (Field.nextUsedBlockOffset).address + 8 ≤ s.dbSize ∧ (Field.nextFreeBlockOffset).address + 8 ≤ s.dbSize := by
    simp only [Field.address]
    omega
  have hin : ∀ b ∈ L.blocks, sizeofBufferHeader ≤ b.offset ∧ b.stop ≤ s.dbSize := fun b hb => ht.bounds hb
  have hused := forBlocks_run hL.used (show L.used.length < s.dbSize by omega)
    (fun b hb => hin b (List.mem_append_right _ hb)) (fun b hb => hu b (List.mem_append_right _ hb)) h
  have hfree := forBlocks_run hL.free (show L.free.length < s.dbSize by omega)
    (fun b hb => hin b (List.mem_append_left _ hb)) (fun b hb => hf b (List.mem_append_left _ hb))
    (h.after (L.used.flatMap usedCalls))
  rw [bind_run hget, bind_run (load_run hheads.1), bind_run hused, bind_run hget, bind_run (load_run hheads.2), hfree,
    after_append]

/-- A pixel for every four whole bytes is enough. -/
theorem plotUsage_eq (hL : L.Walked s.field) (ht : Tiled L.blocks s.dbSize) (hr : 1 ≤ rows) (hc : 1 ≤ cols)
    (harea : s.dbSize / 4 ≤ rows * cols) (hmax : rows * cols ≤ 12000 * 12000) :
    plotUsage rows cols s = some ((Image.new rows cols).after L.plots, s) := by
  have hfit := fits_new hr hc hmax
  have hdb := ht.sum
  simp only [sizeofBufferHeader] at hdb
  have hheader : plotPixels rgbOverhead 0 (sizeofBufferHeader / numBytesPerPixel) (Image.new rows cols) =
      some ((Image.new rows cols).after (setAll rgbOverhead headerPixels)) := by
    apply plotPixels_eq hfit
    simp only [sizeofBufferHeader, numBytesPerPixel]
    omega
  rw [plotUsage, bind_run (liftM_run hheader), Layout.plots, List.append_assoc, after_append]
  apply passes_run hL ht
  · exact fun b hb hsize img h => plotBlock_run h ht harea hb hsize rgbData
  · exact fun b hb hsize img h => plotBlock_run h ht harea hb hsize rgbUnused
  · exact hfit.after _

private theorem plotUsage_run (hL : L.Walked s.field) (ht : Tiled L.blocks s.dbSize) (hr : 1 ≤ rows) (hc : 1 ≤ cols)
    (harea : (s.dbSize + 3) / 4 ≤ rows * cols) (hmax : rows * cols ≤ 12000 * 12000) :
    plotUsage rows cols s = some ((Image.new rows cols).after L.plots, s) :=
  plotUsage_eq hL ht hr hc (by omega) hmax

theorem annotateUsage_eq (font : Nat → Nat → UInt8) (hL : L.Walked s.field) (ht : Tiled L.blocks s.dbSize)
    (harea : s.dbSize / 4 ≤ rows * cols) (h : img.Fits rows cols) :
    annotateUsage font img s = some (img.after (L.notes font rows cols), s) := by
  rw [annotateUsage, Layout.notes]
  apply passes_run hL ht
  · exact fun b hb hsize img h => annotateBlock_run font h ht harea hb hsize (by decide)
  · exact fun b hb hsize img h => annotateBlock_run font h ht harea hb hsize (by decide)
  · exact h

private theorem annotateUsage_run (font : Nat → Nat → UInt8) (hL : L.Walked s.field) (ht : Tiled L.blocks s.dbSize)
    (harea : (s.dbSize + 3) / 4 ≤ rows * cols) (h : img.Fits rows cols) :
    annotateUsage font img s = some (img.after (L.notes font rows cols), s) :=
  annotateUsage_eq font hL ht (by omega) h

/-- The index of a call of `set_pixel` is negative, or that of a pixel, whose byte positions do not wrap. -/
def InBounds (rows cols : Nat) (call : Int × Color) : Prop :=
  call.1 < 0 ∨ call.1 < rows * cols ∧ ∀ k < 3, (byteIndex call.1 k : Int) = 3 * call.1 + k

theorem inBounds_of_lt (hmax : rows * cols ≤ 12000 * 12000) {call : Int × Color} (h : call.1 < rows * cols) :
    InBounds rows cols call := by
  by_cases hneg : call.1 < 0
  · exact Or.inl hneg
  · refine Or.inr ⟨h, fun k hk => ?_⟩
    obtain ⟨i, hi⟩ := Int.eq_ofNat_of_zero_le (Int.not_lt.1 hneg)
    rw [hi] at h ⊢
    have hlt : i < rows * cols := by exact_mod_cast h
    rw [byteIndex_eq (by omega) hk]
    push_cast
    ring

theorem lt_of_mem_plots (ht : Tiled L.blocks s.dbSize) (harea : s.dbSize / 4 ≤ rows * cols)
    {call : Int × Color} (hcall : call ∈ L.plots) : call.1 < rows * cols := by
  have hmem := List.mem_map_of_mem (f := Prod.fst) hcall
  rw [L.map_fst_plots] at hmem
  obtain ⟨i, hi, he⟩ := List.mem_map.1 hmem
  rw [← he]
  obtain ⟨l, hl, hi⟩ := List.mem_flatten.1 hi
  have hlt : i < rows * cols := by
    rcases List.mem_cons.1 hl with rfl | hl
    · have hdb := ht.sum
      simp only [headerPixels, List.mem_range'_1, sizeofBufferHeader] at hi hdb
      omega
    · obtain ⟨b, hb, hl⟩ := List.mem_flatMap.1 hl
      obtain ⟨-, h⟩ := pixels_bounds (by simpa using hl) hi
      have hb : b ∈ L.blocks := List.perm_append_comm.mem_iff.1 hb
      obtain ⟨-, -, -, hstop⟩ := block_bounds ht harea hb
      omega
  exact_mod_cast hlt

private theorem plots_lt (ht : Tiled L.blocks s.dbSize) (harea : (s.dbSize + 3) / 4 ≤ rows * cols)
    {call : Int × Color} (hcall : call ∈ L.plots) : call.1 < rows * cols :=
  lt_of_mem_plots ht (by omega) hcall

theorem notes_lt (font : Nat → Nat → UInt8) (hr : 1 ≤ rows) (hc : 1 ≤ cols) {call : Int × Color}
    (hcall : call ∈ L.notes font rows cols) : call.1 < rows * cols := by
  rcases List.mem_append.1 hcall with hcall | hcall
  · obtain ⟨b, -, hb⟩ := List.mem_flatMap.1 hcall
    exact lt_of_mem_textCalls hr hc hb
  · obtain ⟨b, -, hb⟩ := List.mem_flatMap.1 hcall
    exact lt_of_mem_textCalls hr hc hb

/-- What is drawn before and after the annotation, and that it is in bounds and no block is painted over. -/
structure UsageDrawn (font : Nat → Nat → UInt8) (rows cols : Nat) (s : FileBackedBuffer) (L : Layout)
    (img img' : Image) : Prop where
  plotted : plotUsage rows cols s = some (img, s)
  dumped : dumpUsage font rows cols s = some (img', s)
  plots : img.calls = L.plots
  calls : img'.calls = L.plots ++ L.notes font rows cols
  size : img'.size = 3 * (rows * cols)
  inBounds : ∀ call ∈ img'.calls, InBounds rows cols call
  disjoint : L.pixels.Pairwise List.Disjoint
  order : ∀ (s₁ : FileBackedBuffer) (L₁ : Layout), L₁.Walked s₁.field → s₁.dbSize = s.dbSize → L₁.used.Perm L.used →
    L₁.free.Perm L.free → ∃ img₁ : Image, plotUsage rows cols s₁ = some (img₁, s₁) ∧ img₁.image = img.image
  adjacent : ∀ b ∈ L.blocks, ∀ c ∈ L.blocks, b.stop = c.offset →
    b.pixelStop ≤ c.offset / 4 ∧ c.offset / 4 ≤ b.pixelStop + 1

/-- The usage diagram of a file whose blocks tile it, in an image with a pixel for every four bytes.  The calls of
`set_pixel` are those of unbounded arithmetic, and they are in bounds.  The plotted ranges share no pixel, so the picture
before the annotation is the same for every order of the two lists, and between adjacent blocks at most one pixel is left
unpainted. -/
theorem usage_drawn (font : Nat → Nat → UInt8) (hL : L.Walked s.field) (ht : Tiled L.blocks s.dbSize) (hr : 1 ≤ rows)
    (hc : 1 ≤ cols) (harea : (s.dbSize + 3) / 4 ≤ rows * cols) (hmax : rows * cols ≤ 12000 * 12000) :
    ∃ img img' : Image, UsageDrawn font rows cols s L img img' := by
  have hfit := fits_new hr hc hmax
  have hplot := plotUsage_run hL ht hr hc harea hmax
  have hnote := annotateUsage_run font hL ht harea (hfit.after L.plots)
  have hdump : dumpUsage font rows cols s =
      some (((Image.new rows cols).after L.plots).after (L.notes font rows cols), s) := by
    rw [dumpUsage, bind_run hplot]
    exact hnote
  refine ⟨_, _, hplot, hdump, ?_, ?_, ?_, ?_, L.pixels_disjoint ht, ?_, fun b _ c _ h => Block.pixels_adjacent h⟩
  · exact List.nil_append _
  · rfl
  · exact hfit.size
  · intro call hcall
    apply inBounds_of_lt hmax
    rcases List.mem_append.1 hcall with hcall | hcall
    · exact plots_lt ht harea (by simpa [Image.after, Image.new] using hcall)
    · exact notes_lt font hr hc hcall
  · intro s₁ L₁ hL₁ hdb hu hf
    have ht₁ : Tiled L₁.blocks s₁.dbSize := by
      rw [hdb]
      exact ht.perm (hf.symm.append hu.symm)
    have hrun := plotUsage_run hL₁ ht₁ hr hc (by rw [hdb]; exact harea) hmax
    exact ⟨_, hrun, foldl_paint_perm (L₁.plots_nodup ht₁) (Layout.plots_perm hu hf) _⟩

end

/-- The rows of `font8x8_basic` for the characters of an annotation: the digits, and `:`, `B`, `F` and `U`. -/
def annotationFont (c y : Nat) : UInt8 := (glyph c).getD y 0
where
  glyph : Nat → List UInt8
    | 0x30 => [0x3E, 0x63, 0x73, 0x7B, 0x6F, 0x67, 0x3E, 0x00]
    | 0x31 => [0x0C, 0x0E, 0x0C, 0x0C, 0x0C, 0x0C, 0x3F, 0x00]
    | 0x32 => [0x1E, 0x33, 0x30, 0x1C, 0x06, 0x33, 0x3F, 0x00]
    | 0x33 => [0x1E, 0x33, 0x30, 0x1C, 0x30, 0x33, 0x1E, 0x00]
    | 0x34 => [0x38, 0x3C, 0x36, 0x33, 0x7F, 0x30, 0x78, 0x00]
    | 0x35 => [0x3F, 0x03, 0x1F, 0x30, 0x30, 0x33, 0x1E, 0x00]
    | 0x36 => [0x1C, 0x06, 0x03, 0x1F, 0x33, 0x33, 0x1E, 0x00]
    | 0x37 => [0x3F, 0x33, 0x30, 0x18, 0x0C, 0x0C, 0x0C, 0x00]
    | 0x38 => [0x1E, 0x33, 0x33, 0x1E, 0x33, 0x33, 0x1E, 0x00]
    | 0x39 => [0x1E, 0x33, 0x33, 0x3E, 0x30, 0x18, 0x0E, 0x00]
    | 0x3A => [0x00, 0x0C, 0x0C, 0x00, 0x00, 0x0C, 0x0C, 0x00]
    | 0x42 => [0x3F, 0x66, 0x66, 0x3E, 0x66, 0x66, 0x3F, 0x00]
    | 0x46 => [0x7F, 0x46, 0x16, 0x1E, 0x16, 0x06, 0x0F, 0x00]
    | 0x55 => [0x33, 0x33, 0x33, 0x33, 0x33, 0x33, 0x3F, 0x00]
    | _ => []

/-- Two used and two free blocks, in an image of ten rows and ten columns. -/
theorem usage_drawn_of_four_blocks : ∃ (s : FileBackedBuffer) (L : Layout) (img img' : Image),
    L.blocks.length = 4 ∧ UsageDrawn annotationFont 10 10 s L img img' := by
  obtain ⟨c, -, hdb, hL, hwf⟩ := exists_fourBlocks
  have harea : (c.buffer.dbSize + 3) / 4 ≤ 10 * 10 := by omega
  obtain ⟨img, img', hdrawn⟩ := usage_drawn annotationFont hL.walked hwf.tiled (by decide) (by decide) harea (by decide)
  exact ⟨c.buffer, _, img, img', rfl, hdrawn⟩

end KeyValueStore
