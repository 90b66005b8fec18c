import KeyValueStore.Binary32
import KeyValueStore.Diagram

/-!
# The dimensions of the diagram

`dump_usage` computes the dimensions of its image with numbers of the type `float`, that is in `binary32`.  Up to a file of
64 MiB the rounding does no harm: the image has a pixel for every four bytes of the file (`diagramDimensions_eq`), so that
nothing is drawn outside of it, and the same is true of the file of the store, of 512 MiB (`usage_dumped`).
-/

namespace KeyValueStore

open ByteMemory MachineInt Image Binary32

/-- `MAX_DIAGRAM_DIMENSION`. -/
def maxDiagramDimension : Nat := 12000

/-- `num_pixels`. -/
def numPixels (dbSize : Nat) : Float32.Model := ceil (Float32.Model.ofInt dbSize / Float32.Model.ofInt numBytesPerPixel)

/-- `num_rows` and `num_cols`, unless the file is too big for the diagram. -/
def diagramDimensions (dbSize : Nat) : Option (Int × Int) :=
  let diagramDimensionPx := ceil (numPixels dbSize).sqrt
  if Float32.Model.ofInt maxDiagramDimension < diagramDimensionPx then
    none
  else
    let numCols := diagramDimensionPx.toInt32.toInt
    let numRows := (ceil (numPixels dbSize / Float32.Model.ofInt numCols)).toInt32.toInt
    some (numRows, numCols)

/-- `dump_buffer_usage`, that is `dump_usage` with the dimensions it computes: the image that is encoded, if there is one. -/
def dumpBufferUsage (font : Nat → Nat → UInt8) : BufferM (Option Image) := do
  match diagramDimensions (← get).dbSize with
  | none => return none
  | some (numRows, numCols) => return some (← dumpUsage font numRows numCols)

/-! ### Enough pixels -/

section

variable {dbSize n cols : Nat}

/-- The number of pixels is an integer, and not below the number of whole groups of four bytes. -/
private theorem numPixels_value (h : 1 ≤ dbSize) (h' : dbSize ≤ 2 ^ 26) :
    ∃ n : Nat, HasValue (numPixels dbSize) n ∧ 1 ≤ n ∧ dbSize / 4 ≤ n ∧ n ≤ 2 ^ 24 := by
  obtain ⟨v, hv, hr⟩ := ofInt_rounds h (by omega)
  have hone : 1 ≤ v := hr.le_of_le (by simpa using representable_zpow 0) (by exact_mod_cast h)
  have hmax : v ≤ 2 ^ 26 := hr.ge_of_ge (by exact_mod_cast representable_zpow 26) (by exact_mod_cast h')
  -- the groups of four bytes are not rounded away
  have hgroups : ((dbSize / 4 : Nat) : ℝ) * 2 ^ (2 : Int) ≤ v := by
    refine hr.le_of_le ((representable_natCast (by omega)).mul_zpow 2) ?_
    exact_mod_cast (show dbSize / 4 * 2 ^ 2 ≤ dbSize by omega)
  have hfour : HasValue (Float32.Model.ofInt numBytesPerPixel) (4 : Nat) := ofInt_exact (by decide) (by decide)
  have hquot : v / (4 : Nat) = v * 2 ^ (-2 : Int) := by norm_num [div_eq_mul_inv]
  obtain ⟨q, hq, hrq⟩ := div_rounds hv hfour (by norm_num; linarith) (by norm_num; linarith)
  have hexact : q = v / (4 : Nat) := by
    apply hrq.eq_of_representable
    rw [hquot]
    exact hv.representable.mul_zpow _
  rw [hexact] at hq
  refine ⟨⌈v / (4 : Nat)⌉₊, ceil_value hq, ?_, ?_, ?_⟩
  · rw [Nat.one_le_ceil_iff]
    exact hexact ▸ hq.pos
  · have hle : ((dbSize / 4 : Nat) : ℝ) ≤ ⌈v / (4 : Nat)⌉₊ := by
      refine le_trans ?_ (Nat.le_ceil _)
      norm_num at hgroups ⊢
      linarith
    exact_mod_cast hle
  · rw [Nat.ceil_le]
    norm_num at hmax ⊢
    linarith

/-- The root of a number of up to 24 bits is at least its 4096th part, also when it is rounded. -/
private theorem numCols_bounds {f : Float32.Model} (hf : HasValue f n) (hn' : n ≤ 2 ^ 24) :
    ∃ cols : Nat, HasValue (ceil f.sqrt) cols ∧ 1 ≤ cols ∧ cols ≤ 4096 ∧ n ≤ 4096 * cols := by
  obtain ⟨w, hw, hr⟩ := sqrt_rounds hf
  have hn'' : (n : ℝ) ≤ 4096 ^ 2 := by exact_mod_cast hn'
  have hmax : w ≤ (4096 : Nat) := by
    refine hr.ge_of_ge (representable_natCast (by omega)) ?_
    rw [Real.sqrt_le_left (by positivity)]
    exact_mod_cast hn'
  have hmin : (n : ℝ) * 2 ^ (-12 : Int) ≤ w := by
    refine hr.le_of_le ((representable_natCast hn').mul_zpow _) ?_
    apply Real.le_sqrt_of_sq_le
    norm_num
    nlinarith
  refine ⟨⌈w⌉₊, ceil_value hw, Nat.one_le_ceil_iff.2 hw.pos, Nat.ceil_le.2 hmax, ?_⟩
  have hle := Nat.le_ceil w
  norm_num at hmin
  have : (n : ℝ) ≤ 4096 * ⌈w⌉₊ := by linarith
  exact_mod_cast this

/-- Enough rows for the pixels: had the quotient been rounded down to an integer, a number of 24 bits would lie between. -/
private theorem numRows_bounds {f g : Float32.Model} (hf : HasValue f n) (hg : HasValue g cols) (hn : 1 ≤ n) (hc : 1 ≤ cols)
    (hc' : cols ≤ 4096) (h : n ≤ 4096 * cols) :
    ∃ rows : Nat, HasValue (ceil (f / g)) rows ∧ 1 ≤ rows ∧ rows ≤ 4096 ∧ n ≤ rows * cols := by
  have hpos : (0 : ℝ) < cols := by exact_mod_cast hc
  have hone : (1 : ℝ) ≤ n := by exact_mod_cast hn
  have hle : (n : ℝ) / cols ≤ (4096 : Nat) := by
    rw [div_le_iff₀ hpos]
    exact_mod_cast h
  have hge : 2 ^ (-12 : Int) ≤ (n : ℝ) / cols := by
    have hc'' : (cols : ℝ) ≤ 4096 := by exact_mod_cast hc'
    rw [le_div_iff₀ hpos]
    norm_num
    linarith
  obtain ⟨q, hq, hr⟩ := div_rounds hf hg (by norm_num at hge ⊢; linarith) (by norm_num at hle ⊢; linarith)
  refine ⟨⌈q⌉₊, ceil_value hq, Nat.one_le_ceil_iff.2 hq.pos, ?_, ?_⟩
  · rw [Nat.ceil_le]
    exact hr.ge_of_ge (representable_natCast (by omega)) hle
  · by_contra hlt
    have hlt : ⌈q⌉₊ * cols + 1 ≤ n := by omega
    have hrows : ⌈q⌉₊ < 4096 := by
      by_contra hrows
      have := Nat.mul_le_mul_right cols (Nat.le_of_not_lt hrows)
      omega
    have hbetween : ((⌈q⌉₊ * 4096 + 1 : Nat) : ℝ) * 2 ^ (-12 : Int) ≤ q := by
      refine hr.le_of_le ((representable_natCast (by omega)).mul_zpow _) ?_
      rw [le_div_iff₀ hpos]
      have hlt' : (⌈q⌉₊ : ℝ) * cols + 1 ≤ n := by exact_mod_cast hlt
      have hc'' : (cols : ℝ) ≤ 4096 := by exact_mod_cast hc'
      norm_num
      nlinarith
    have hceil := Nat.le_ceil q
    norm_num at hbetween
    linarith

private theorem diagramDimensions_eq (h : 1 ≤ dbSize) (h' : dbSize ≤ 2 ^ 26) :
    ∃ rows cols : Nat, diagramDimensions dbSize = some ((rows : Int), (cols : Int)) ∧ 1 ≤ rows ∧ 1 ≤ cols ∧
      dbSize / 4 ≤ rows * cols ∧ rows ≤ 4096 ∧ cols ≤ 4096 := by
  obtain ⟨n, hpixels, hn, hdb, hn'⟩ := numPixels_value h h'
  obtain ⟨cols, hd, hc, hc', hcols⟩ := numCols_bounds hpixels hn'
  obtain ⟨rows, hq, hr, hr', hrows⟩ := numRows_bounds hpixels (ofInt_exact hc (by omega)) hn hc hc' hcols
  have hmax : HasValue (Float32.Model.ofInt maxDiagramDimension) (12000 : Nat) := ofInt_exact (by decide) (by decide)
  have hsmall : ¬ Float32.Model.ofInt maxDiagramDimension < ceil (numPixels dbSize).sqrt := by
    rw [lt_iff hmax hd, not_lt]
    exact_mod_cast (show cols ≤ 12000 by omega)
  refine ⟨rows, cols, ?_, hr, hc, by omega, hr', hc'⟩
  simp only [diagramDimensions, if_neg hsmall, toInt32_natCast hd (show cols < 2 ^ 31 by omega),
    toInt32_natCast hq (show rows < 2 ^ 31 by omega)]

private theorem diagramDimensions_bufferSize : diagramDimensions (2 ^ 29) = some (11585, 11586) := by
  decide +kernel

/-- Between the two sizes the rounding does harm: this file has 16785410 groups of four bytes, and the image one pixel less. -/
example : diagramDimensions 67141640 = some (4097, 4097) ∧ ¬ 67141640 / 4 ≤ 4097 * 4097 := by
  decide +kernel

/-- The image has a pixel for every group of four bytes, and what is drawn is in bounds. -/
structure UsageDumped (font : Nat → Nat → UInt8) (s : FileBackedBuffer) (L : Layout) (rows cols : Nat) (img : Image) :
    Prop where
  dimensions : diagramDimensions s.dbSize = some ((rows : Int), (cols : Int))
  dumped : dumpBufferUsage font s = some (some img, s)
  size : img.size = 3 * (rows * cols)
  pixels : s.dbSize / 4 ≤ rows * cols
  calls : img.calls = L.plots ++ L.notes font rows cols
  inBounds : ∀ call ∈ img.calls, InBounds rows cols call

private theorem usage_dumped_of_dimensions (font : Nat → Nat → UInt8) {s : FileBackedBuffer} {L : Layout} {rows : Nat}
    (hL : L.Holds s.field) (h : L.WellFormed s.dbSize)
    (hdim : diagramDimensions s.dbSize = some ((rows : Int), (cols : Int))) (hr : 1 ≤ rows) (hc : 1 ≤ cols)
    (harea : s.dbSize / 4 ≤ rows * cols) (hmax : rows * cols ≤ 12000 * 12000) :
    UsageDumped font s L rows cols (((Image.new rows cols).after L.plots).after (L.notes font rows cols)) := by
  have hfit := fits_new hr hc hmax
  have hplot := plotUsage_eq hL.walked h.tiled hr hc harea hmax
  have hnote := annotateUsage_eq font hL.walked h.tiled harea (hfit.after L.plots)
  have hdump : dumpUsage font rows cols s =
      some (((Image.new rows cols).after L.plots).after (L.notes font rows cols), s) := by
    show (plotUsage rows cols s).bind _ = _
    rw [hplot]
    exact hnote
  have hcalls : (((Image.new rows cols).after L.plots).after (L.notes font rows cols)).calls =
      L.plots ++ L.notes font rows cols := rfl
  refine ⟨hdim, ?_, hfit.size, harea, hcalls, fun call hcall => inBounds_of_lt hmax ?_⟩
  · show (match diagramDimensions s.dbSize with
      | none => (pure none : BufferM (Option Image))
      | some (numRows, numCols) => do return some (← dumpUsage font numRows numCols)) s = _
    rw [hdim]
    show (dumpUsage font rows cols s).bind _ = _
    rw [hdump]
    rfl
  · rw [hcalls] at hcall
    rcases List.mem_append.1 hcall with hcall | hcall
    · exact lt_of_mem_plots h.tiled harea hcall
    · exact notes_lt font hr hc hcall

/-- `dump_usage` on a well formed file, with the dimensions that it computes itself: up to 64 MiB, and for the file of the
store, it accepts the file, and every store is in bounds. -/
theorem usage_dumped (font : Nat → Nat → UInt8) {s : FileBackedBuffer} {L : Layout} (hL : L.Holds s.field)
    (h : L.WellFormed s.dbSize) (hdb : s.dbSize ≤ 2 ^ 26 ∨ s.dbSize = 2 ^ 29) :
    ∃ (rows cols : Nat) (img : Image), UsageDumped font s L rows cols img := by
  have hpos : 1 ≤ s.dbSize := by
    have := h.tiled.sum
    simp only [sizeofBufferHeader] at this
    omega
  rcases hdb with hdb | hdb
  · obtain ⟨rows, cols, hdim, hr, hc, harea, hr', hc'⟩ := diagramDimensions_eq hpos hdb
    have hmax : rows * cols ≤ 4096 * 4096 := Nat.mul_le_mul hr' hc'
    exact ⟨rows, cols, _, usage_dumped_of_dimensions font hL h hdim hr hc harea (by omega)⟩
  · refine ⟨11585, 11586, _, usage_dumped_of_dimensions font hL h ?_ (by omega) (by omega) ?_ (by omega)⟩
    · rw [hdb]
      exact diagramDimensions_bufferSize
    · rw [hdb]
      omega

theorem usage_dumped_of_four_blocks : ∃ (s : FileBackedBuffer) (L : Layout) (rows cols : Nat) (img : Image),
    L.blocks.length = 4 ∧ UsageDumped annotationFont s L rows cols img := by
  obtain ⟨c, -, hdb, hL, hwf⟩ := exists_fourBlocks
  obtain ⟨rows, cols, img, hdumped⟩ := usage_dumped annotationFont hL hwf (Or.inl (by rw [hdb]; decide))
  exact ⟨c.buffer, _, rows, cols, img, rfl, hdumped⟩

end

end KeyValueStore
