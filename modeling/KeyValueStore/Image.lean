import KeyValueStore.Memory
import KeyValueStore.MachineInt
import Mathlib.Data.List.Enum
import Mathlib.Data.List.Nodup
import Mathlib.Logic.Function.Basic

/-!
# The image of the diagram

The class `Image`: pixels are numbered row by row, `set_pixel` writes the three bytes of a pixel and `draw_text` sets the
pixels of the characters of a text.  Indices and coordinates are `int`, the byte positions `unsigned int`; a store outside
of the vector of bytes fails (`none`).  Every call of `set_pixel` is also recorded, in program order.

Where the image is not too large (`Image.Fits`), no operation wraps, and what is drawn is given by the list of the calls
(`Image.after`).
-/

namespace KeyValueStore

open ByteMemory MachineInt

/-- `NUM_CHANNELS`. -/
def numChannels : Nat := 3

/-- `std::array<uint8_t, NUM_CHANNELS>`. -/
structure Color where
  red : UInt8
  green : UInt8
  blue : UInt8
  deriving DecidableEq, Repr

/-- `m_num_rows`, `m_num_cols` and the bytes of `m_image`, with the calls of `set_pixel` made so far. -/
structure Image where
  numRows : Int
  numCols : Int
  size : Nat
  image : Mem
  calls : List (Int × Color)

namespace Image

/-- The constructor. -/
def new (numRows numCols : Int) : Image :=
  ⟨numRows, numCols, toUInt32 (toUInt32 (numChannels * numRows) * numCols), fun _ => 0, []⟩

def xyToIdx (img : Image) (x y : Int) : Int :=
  if x < 0 ∨ x ≥ img.numCols then
    -1
  else if y < 0 ∨ y ≥ img.numRows then
    -1
  else
    toInt32 (toInt32 (y * img.numCols) + x)

def idxToXy (img : Image) (idx : Int) : Int × Int :=
  if idx < 0 ∨ idx ≥ toInt32 (img.numRows * img.numCols) then
    (-1, -1)
  else
    (idx.tmod img.numCols, idx.tdiv img.numCols)

/-- `m_image[i] = v`. -/
def setByte (img : Image) (i : Nat) (v : UInt8) : Option Image :=
  if i < img.size then some { img with image := Function.update img.image i v } else none

/-- `pixel_idx * NUM_CHANNELS + channel`. -/
def byteIndex (pixelIdx : Int) (channel : Nat) : Nat :=
  toUInt32 (toUInt32 (toUInt32 pixelIdx * numChannels : Nat) + channel : Nat)

def setPixel (img : Image) (pixelIdx : Int) (color : Color) : Option Image := do
  let img := { img with calls := img.calls ++ [(pixelIdx, color)] }
  if pixelIdx < 0 then
    return img
  let img ← img.setByte (byteIndex pixelIdx 0) color.red
  let img ← img.setByte (byteIndex pixelIdx 1) color.green
  img.setByte (byteIndex pixelIdx 2) color.blue

/-- One character of `draw_text`, the `i`-th of the text; the font has 128 rows of eight bytes. -/
def drawChar (font : Nat → Nat → UInt8) (xStart yStart : Int) (color : Color) (img : Image) (ci : Char × Nat) :
    Option Image :=
  if ci.1.toNat < 128 then
    (List.range 8).foldlM (fun img y => (List.range 8).foldlM (fun img x =>
      if (font ci.1.toNat y).toNat.testBit x then
        img.setPixel (img.xyToIdx (toInt32 (toInt32 (xStart + toInt32 (8 * ci.2)) + x)) (toInt32 (yStart + y))) color
      else
        some img) img) img
  else
    none

/-- `draw_text`, for a text without its terminating zero byte. -/
def drawText (font : Nat → Nat → UInt8) (img : Image) (xStart yStart : Int) (text : List Char) (color : Color) :
    Option Image :=
  text.zipIdx.foldlM (drawChar font xStart yStart color) img

/-! ### What the calls do -/

/-- The image has these dimensions, and a number of pixels that a diagram has. -/
structure Fits (rows cols : Nat) (img : Image) : Prop where
  numRows : img.numRows = rows
  numCols : img.numCols = cols
  size : img.size = 3 * (rows * cols)
  rows_pos : 1 ≤ rows
  cols_pos : 1 ≤ cols
  area_le : rows * cols ≤ 12000 * 12000

/-- The bytes after one call of `set_pixel`. -/
def paint (m : Mem) (call : Int × Color) : Mem :=
  if call.1 < 0 then
    m
  else
    let i := 3 * call.1.toNat
    Function.update (Function.update (Function.update m i call.2.red) (i + 1) call.2.green) (i + 2) call.2.blue

/-- The image after a sequence of calls. -/
def after (img : Image) (calls : List (Int × Color)) : Image :=
  { img with image := calls.foldl paint img.image, calls := img.calls ++ calls }

theorem after_nil (img : Image) : img.after [] = img := by
  simp [after]

theorem after_append (img : Image) (calls calls' : List (Int × Color)) :
    img.after (calls ++ calls') = (img.after calls).after calls' := by
  simp [after]

variable {rows cols : Nat} {img : Image}

theorem Fits.after (h : img.Fits rows cols) (calls : List (Int × Color)) : (img.after calls).Fits rows cols :=
  ⟨h.numRows, h.numCols, h.size, h.rows_pos, h.cols_pos, h.area_le⟩

/-- The image that the constructor makes. -/
theorem fits_new (hr : 1 ≤ rows) (hc : 1 ≤ cols) (h : rows * cols ≤ 12000 * 12000) :
    (new rows cols).Fits rows cols := by
  refine ⟨rfl, rfl, ?_, hr, hc, h⟩
  have hrows : rows ≤ 12000 * 12000 := Nat.le_trans (Nat.le_mul_of_pos_right _ hc) h
  have h₁ : toUInt32 ((numChannels : Int) * rows) = 3 * rows := by
    have hcast : (numChannels : Int) * rows = ((3 * rows : Nat) : Int) := by simp [numChannels]
    rw [hcast]
    exact toUInt32_eq_self (by omega)
  show toUInt32 ((toUInt32 ((numChannels : Int) * rows) : Int) * cols) = 3 * (rows * cols)
  have hcast : ((3 * rows : Nat) : Int) * cols = ((3 * (rows * cols) : Nat) : Int) := by push_cast; ring
  rw [h₁, hcast]
  exact toUInt32_eq_self (by omega)

/-- The byte positions of a pixel do not wrap. -/
theorem byteIndex_eq {i k : Nat} (hi : i < 12000 * 12000) (hk : k < 3) : byteIndex i k = 3 * i + k := by
  rw [byteIndex, toUInt32_eq_self (show i < 2 ^ 32 by omega),
    toUInt32_eq_self (show i * numChannels < 2 ^ 32 by simp only [numChannels]; omega),
    toUInt32_eq_self (show i * numChannels + k < 2 ^ 32 by simp only [numChannels]; omega), numChannels, Nat.mul_comm]

/-- A call with an index of the image, or a negative one, returns. -/
theorem setPixel_eq (h : img.Fits rows cols) {idx : Int} (hidx : idx < rows * cols) (color : Color) :
    img.setPixel idx color = some (img.after [(idx, color)]) := by
  by_cases hneg : idx < 0
  · simp [setPixel, hneg, Image.after, paint]
  · obtain ⟨i, rfl⟩ := Int.eq_ofNat_of_zero_le (Int.not_lt.1 hneg)
    have hi : i < rows * cols := by exact_mod_cast hidx
    have harea := h.area_le
    have hsize := h.size
    have hb : ∀ k < 3, byteIndex i k = 3 * i + k := fun k hk => byteIndex_eq (by omega) hk
    have hin : ∀ k < 3, 3 * i + k < img.size := by omega
    simp only [setPixel, hneg, if_false, hb 0 (by omega), hb 1 (by omega), hb 2 (by omega), setByte, if_pos (hin 0 (by omega)),
      if_pos (hin 1 (by omega)), if_pos (hin 2 (by omega)), Option.bind_eq_bind, Option.bind_some]
    simp [Image.after, paint]

/-- Drawing in a loop. -/
theorem foldlM_draw {α : Type} {f : Image → α → Option Image} {calls : α → List (Int × Color)} {l : List α}
    (hf : ∀ a ∈ l, ∀ img : Image, img.Fits rows cols → f img a = some (img.after (calls a))) (h : img.Fits rows cols) :
    l.foldlM f img = some (img.after (l.flatMap calls)) := by
  induction l generalizing img with
  | nil => rw [List.flatMap_nil, after_nil]; rfl
  | cons a l ih =>
    rw [List.foldlM_cons, hf a (List.mem_cons_self ..) img h, List.flatMap_cons, after_append]
    exact ih (fun b hb => hf b (List.mem_cons_of_mem _ hb)) (h.after _)

/-- The index of the pixel at a place, which is negative outside of the image. -/
def pixelAt (rows cols : Nat) (x y : Int) : Int :=
  if 0 ≤ x ∧ x < cols ∧ 0 ≤ y ∧ y < rows then y * cols + x else -1

private theorem pixelAt_lt (hr : 1 ≤ rows) (hc : 1 ≤ cols) (x y : Int) : pixelAt rows cols x y < rows * cols := by
  rw [pixelAt]
  split
  · rename_i h
    obtain ⟨-, hx, -, hy⟩ := h
    have hmul : (y + 1) * cols ≤ rows * cols := Int.mul_le_mul_of_nonneg_right (by omega) (by omega)
    rw [Int.add_mul] at hmul
    omega
  · have hpos : (0 : Int) ≤ rows * cols := Int.mul_nonneg (by omega) (by omega)
    omega

private theorem xyToIdx_eq (h : img.Fits rows cols) (x y : Int) : img.xyToIdx x y = pixelAt rows cols x y := by
  have hlt := pixelAt_lt h.rows_pos h.cols_pos x y
  have harea : (rows * cols : Int) ≤ 12000 * 12000 := by exact_mod_cast h.area_le
  simp only [pixelAt] at hlt
  simp only [xyToIdx, pixelAt, h.numRows, h.numCols]
  by_cases hx : 0 ≤ x ∧ x < cols
  · rw [if_neg (by omega)]
    by_cases hy : 0 ≤ y ∧ y < rows
    · have hin : 0 ≤ x ∧ x < cols ∧ 0 ≤ y ∧ y < rows := ⟨hx.1, hx.2, hy⟩
      have hpos : 0 ≤ y * cols := Int.mul_nonneg hy.1 (by omega)
      rw [if_pos hin] at hlt
      rw [if_pos hin, if_neg (by omega), toInt32_eq_self (v := y * cols) (by omega) (by omega),
        toInt32_eq_self (by omega) (by omega)]
    · rw [if_pos (by omega), if_neg (fun hin => hy hin.2.2)]
  · rw [if_pos (by omega), if_neg (fun hin => hx ⟨hin.1, hin.2.1⟩)]

/-- The place of a pixel is outside of the image only when the index is. -/
theorem idxToXy_eq (h : img.Fits rows cols) (i : Nat) :
    img.idxToXy i = if i < rows * cols then (((i % cols : Nat) : Int), ((i / cols : Nat) : Int)) else (-1, -1) := by
  have harea := h.area_le
  have hmul : (rows : Int) * cols = ((rows * cols : Nat) : Int) := by push_cast; rfl
  simp only [idxToXy, h.numRows, h.numCols]
  rw [hmul, toInt32_eq_self (by omega) (by omega)]
  by_cases hi : i < rows * cols
  · rw [if_pos hi, if_neg (by omega)]
    rfl
  · rw [if_neg hi, if_pos (by omega)]

/-- The calls for a character. -/
def charCalls (font : Nat → Nat → UInt8) (rows cols : Nat) (xStart yStart : Int) (color : Color) (ci : Char × Nat) :
    List (Int × Color) :=
  (List.range 8).flatMap fun y => (List.range 8).flatMap fun x =>
    if (font ci.1.toNat y).toNat.testBit x then [(pixelAt rows cols (xStart + 8 * ci.2 + x) (yStart + y), color)] else []

/-- The calls for a text. -/
def textCalls (font : Nat → Nat → UInt8) (rows cols : Nat) (xStart yStart : Int) (text : List Char) (color : Color) :
    List (Int × Color) :=
  text.zipIdx.flatMap (charCalls font rows cols xStart yStart color)

variable {font : Nat → Nat → UInt8} {xStart yStart : Int} {color : Color}

private theorem drawChar_eq (h : img.Fits rows cols) (hx : -1 ≤ xStart) (hx' : xStart < cols) (hy : -1 ≤ yStart)
    (hy' : yStart < rows) {ci : Char × Nat} (hc : ci.1.toNat < 128) (hi : ci.2 < 64) :
    drawChar font xStart yStart color img ci = some (img.after (charCalls font rows cols xStart yStart color ci)) := by
  have hcols : cols ≤ 12000 * 12000 := Nat.le_trans (Nat.le_mul_of_pos_left _ h.rows_pos) h.area_le
  have hrows : rows ≤ 12000 * 12000 := Nat.le_trans (Nat.le_mul_of_pos_right _ h.cols_pos) h.area_le
  rw [drawChar, if_pos hc]
  refine foldlM_draw (fun y hy₈ img h => foldlM_draw (fun x hx₈ img h => ?_) h) h
  rw [List.mem_range] at hx₈ hy₈
  split
  · rw [toInt32_eq_self (v := 8 * ci.2) (by omega) (by omega), toInt32_eq_self (v := xStart + 8 * ci.2) (by omega) (by omega),
      toInt32_eq_self (v := xStart + 8 * ci.2 + x) (by omega) (by omega),
      toInt32_eq_self (v := yStart + y) (by omega) (by omega), xyToIdx_eq h]
    exact setPixel_eq h (pixelAt_lt h.rows_pos h.cols_pos _ _) color
  · rw [after_nil]

/-- A text of less than 64 characters that starts in the image, or right in front of it, is drawn in the image. -/
theorem drawText_eq (h : img.Fits rows cols) (hx : -1 ≤ xStart) (hx' : xStart < cols) (hy : -1 ≤ yStart)
    (hy' : yStart < rows) {text : List Char} (htext : ∀ c ∈ text, c.toNat < 128) (hlen : text.length < 64) :
    img.drawText font xStart yStart text color =
      some (img.after (textCalls font rows cols xStart yStart text color)) := by
  refine foldlM_draw (fun ci hci img h => drawChar_eq h hx hx' hy hy' ?_ ?_) h
  · exact htext _ (List.fst_mem_of_mem_zipIdx hci)
  · have := List.snd_lt_of_mem_zipIdx hci
    omega

theorem lt_of_mem_textCalls (hr : 1 ≤ rows) (hc : 1 ≤ cols) {text : List Char} {call : Int × Color}
    (hcall : call ∈ textCalls font rows cols xStart yStart text color) : call.1 < rows * cols := by
  simp only [textCalls, charCalls, List.mem_flatMap] at hcall
  obtain ⟨ci, -, y, -, x, -, hx⟩ := hcall
  split at hx
  · rw [List.mem_singleton.1 hx]
    exact pixelAt_lt hr hc _ _
  · exact absurd hx (List.not_mem_nil)

/-- Calls for different pixels may be exchanged. -/
theorem paint_comm (m : Mem) {c d : Int × Color} (h : c.1 ≠ d.1) : paint (paint m c) d = paint (paint m d) c := by
  by_cases hc : c.1 < 0
  · simp only [paint, if_pos hc]
  · by_cases hd : d.1 < 0
    · simp only [paint, if_pos hd]
    · simp only [paint, if_neg hc, if_neg hd]
      funext x
      simp only [Function.update_apply]
      split_ifs <;> first | rfl | omega

/-- The picture does not depend on the order of the calls when no pixel is set twice. -/
theorem foldl_paint_perm {l l' : List (Int × Color)} (hl : (l.map Prod.fst).Nodup) (hp : l.Perm l') (m : Mem) :
    l.foldl paint m = l'.foldl paint m := by
  refine hp.foldl_eq' (fun c hc d hd m => ?_) m
  by_cases hcd : c = d
  · rw [hcd]
  · refine paint_comm m fun e => hcd ?_
    exact List.inj_on_of_nodup_map hl hc hd e

end Image

end KeyValueStore
