import KeyValueStore.Binary32
import KeyValueStore.Coalescing

/-!
# The statistics of the buffer

`FileBackedBuffer::print_stats`, without the printing: it counts the blocks of the two lists and computes averages and the
fragmentation with numbers of the type `float`.  On a well formed file the counts account for every byte of the file, the
largest free block tells which requests `alloc` can serve, and the fragmentation is zero when there is no second free block
(`bufferStats_describe`).
-/

namespace KeyValueStore

open ByteMemory DoublyLinked Binary32

/-- The number, the smallest and the largest of the sizes that a loop has seen. -/
structure Sizes where
  num : Nat
  smallest : Nat
  largest : Nat
  deriving DecidableEq, Repr

/-- In front of the loop; the smallest size is `std::numeric_limits<size_t>::max()`. -/
def Sizes.init : Sizes := ⟨0, 2 ^ 64 - 1, 0⟩

def Sizes.count (c : Sizes) (size : Nat) : Sizes :=
  ⟨add64 c.num 1, if size < c.smallest then size else c.smallest, if size > c.largest then size else c.largest⟩

/-- The counts for the blocks of one list, whose sizes include the overhead. -/
structure BlockStats where
  sizes : Sizes
  totalBlockSize : Nat
  deriving DecidableEq, Repr

def BlockStats.init : BlockStats := ⟨.init, 0⟩

def BlockStats.count (c : BlockStats) (dataSize : Nat) : BlockStats :=
  let blockSize := add64 dataSize sizeofBlock
  ⟨c.sizes.count blockSize, add64 c.totalBlockSize blockSize⟩

def BlockStats.averageBlockSize (c : BlockStats) : Float32.Model :=
  Float32.Model.ofInt c.totalBlockSize / Float32.Model.ofInt c.sizes.num

/-- The loop over a list by `const_iterator`. -/
def countBlocks : Nat → Nat → BlockStats → BufferM BlockStats
  | 0, _, _ => abort
  | fuel + 1, offset, stats => do
    if offset = nullOffset then
      return stats
    let stats := stats.count (← load (.dataSize offset))
    countBlocks fuel (← load (.nextBlockOffset offset)) stats

/-- What `print_stats` prints. -/
structure BufferStats where
  used : BlockStats
  averageUsedBlockSize : Float32.Model
  free : BlockStats
  averageFreeBlockSize : Float32.Model
  fragmentation : Float32.Model

def BlockStats.fragmentation (free : BlockStats) : Float32.Model :=
  if free.totalBlockSize ≠ 0 then
    Float32.Model.ofInt (sub64 free.totalBlockSize free.sizes.largest) / Float32.Model.ofInt free.totalBlockSize
  else
    Float32.Model.ofInt 0

/-- `FileBackedBuffer::print_stats`. -/
def bufferStats : BufferM BufferStats := do
  let used ← countBlocks (← get).dbSize (← load .nextUsedBlockOffset) .init
  let free ← countBlocks (← get).dbSize (← load .nextFreeBlockOffset) .init
  return ⟨used, used.averageBlockSize, free, free.averageBlockSize, free.fragmentation⟩

/-! ### What the loops compute -/

/-- The counts are those of the sizes `l`. -/
structure Sizes.Of (c : Sizes) (l : List Nat) : Prop where
  num : c.num = l.length
  smallest_le : ∀ x ∈ l, c.smallest ≤ x
  le_largest : ∀ x ∈ l, x ≤ c.largest
  attained : l ≠ [] → c.smallest ∈ l ∧ c.largest ∈ l
  init : l = [] → c = .init

theorem Sizes.of_nil : Sizes.init.Of [] := by
  refine ⟨rfl, ?_, ?_, fun h => absurd rfl h, fun _ => rfl⟩
  · exact fun x hx => absurd hx List.not_mem_nil
  · exact fun x hx => absurd hx List.not_mem_nil

/-- One turn of a loop. -/
theorem Sizes.Of.count {c : Sizes} {l : List Nat} {x : Nat} (h : c.Of l) (hx : x < 2 ^ 64) (hl : l.length + 1 < 2 ^ 64) :
    (c.count x).Of (l ++ [x]) := by
  have hsmallest : (c.count x).smallest ≤ c.smallest ∧ (c.count x).smallest ≤ x := by
    simp only [Sizes.count]
    split <;> omega
  have hlargest : c.largest ≤ (c.count x).largest ∧ x ≤ (c.count x).largest := by
    simp only [Sizes.count]
    split <;> omega
  refine ⟨?_, fun y hy => ?_, fun y hy => ?_, fun _ => ⟨?_, ?_⟩, fun hnil => ?_⟩
  · rw [Sizes.count, h.num, List.length_append, List.length_singleton]
    exact Nat.mod_eq_of_lt hl
  · rcases List.mem_append.1 hy with hy | hy
    · exact Nat.le_trans hsmallest.1 (h.smallest_le y hy)
    · rw [List.mem_singleton.1 hy]
      exact hsmallest.2
  · rcases List.mem_append.1 hy with hy | hy
    · exact Nat.le_trans (h.le_largest y hy) hlargest.1
    · rw [List.mem_singleton.1 hy]
      exact hlargest.2
  · -- the first size is below the initial value
    rcases eq_or_ne l [] with rfl | hne
    · rw [h.init rfl]
      rw [List.nil_append, List.mem_singleton]
      show (if x < 2 ^ 64 - 1 then x else 2 ^ 64 - 1) = x
      rcases Nat.lt_or_ge x (2 ^ 64 - 1) with hlt | hge
      · rw [if_pos hlt]
      · rw [if_neg (Nat.not_lt.2 hge)]
        omega
    · simp only [Sizes.count]
      split
      · exact List.mem_append_right _ (List.mem_singleton_self _)
      · exact List.mem_append_left _ (h.attained hne).1
  · rcases eq_or_ne l [] with rfl | hne
    · rw [h.init rfl]
      rw [List.nil_append, List.mem_singleton]
      show (if x > 0 then x else 0) = x
      rcases Nat.eq_zero_or_pos x with rfl | hpos
      · rfl
      · rw [if_pos hpos]
    · simp only [Sizes.count]
      split
      · exact List.mem_append_right _ (List.mem_singleton_self _)
      · exact List.mem_append_left _ (h.attained hne).2
  · exact absurd hnil (List.append_ne_nil_of_right_ne_nil _ (List.cons_ne_nil _ _))

theorem Sizes.Of.eq_nil {c : Sizes} {l : List Nat} (h : c.Of l) (hnum : c.num = 0) : l = [] :=
  List.length_eq_zero_iff.1 (h.num ▸ hnum)

private theorem Sizes.Of.ne_nil {c : Sizes} {l : List Nat} (h : c.Of l) (hnum : c.num ≠ 0) : l ≠ [] := by
  rintro rfl
  exact hnum h.num

theorem Sizes.Of.bounds {c : Sizes} {l : List Nat} (h : c.Of l) : c.num * c.smallest ≤ l.sum ∧ l.sum ≤ c.num * c.largest := by
  rw [h.num]
  exact ⟨List.card_nsmul_le_sum l c.smallest h.smallest_le, List.sum_le_card_nsmul l c.largest h.le_largest⟩

/-- A rounded average lies between the sizes, as long as these have 24 bits. -/
theorem Sizes.Of.between {c : Sizes} {l : List Nat} {q : ℝ} (h : c.Of l) (hne : l ≠ []) (hsum : l.sum ≤ 2 ^ 24)
    (hq : Rounds (l.sum / c.num) q) : c.smallest ≤ q ∧ q ≤ c.largest := by
  have hpos : (0 : ℝ) < c.num := by
    rw [h.num]
    exact_mod_cast List.length_pos_iff.2 hne
  obtain ⟨hlo, hhi⟩ := h.bounds
  have hlargest : c.largest ≤ l.sum := List.single_le_sum (fun x _ => Nat.zero_le x) _ (h.attained hne).2
  have hsmallest := h.smallest_le _ (h.attained hne).2
  constructor
  · apply hq.le_of_le (representable_natCast (by omega))
    rw [le_div_iff₀ hpos, mul_comm]
    exact_mod_cast hlo
  · apply hq.ge_of_ge (representable_natCast (by omega))
    rw [div_le_iff₀ hpos, mul_comm]
    exact_mod_cast hhi

private theorem Sizes.Of.largest_eq {c : Sizes} {l : List Nat} (h : c.Of l) (hnum : c.num = 1) : c.largest = l.sum := by
  obtain ⟨x, rfl⟩ := List.length_eq_one_iff.1 (h.num.symm.trans hnum)
  rw [List.sum_singleton]
  exact List.mem_singleton.1 (h.attained (List.cons_ne_nil _ _)).2

/-- One size of several is less than their sum. -/
private theorem Sizes.Of.largest_lt {c : Sizes} {l : List Nat} (h : c.Of l) (hl : ∀ x ∈ l, 1 ≤ x) (hnum : 1 < c.num) :
    c.largest < l.sum := by
  have hmem := (h.attained (h.ne_nil (by omega))).2
  rw [h.num] at hnum
  have hsum := (List.perm_cons_erase hmem).sum_nat
  have hlen := List.length_le_sum_of_one_le (l.erase c.largest) fun x hx => hl x (List.mem_of_mem_erase hx)
  rw [List.length_erase_of_mem hmem] at hlen
  rw [List.sum_cons] at hsum
  omega

/-- The size of a block with its overhead. -/
def Block.size (b : Block) : Nat := b.dataSize + sizeofBlock

/-- The counts are those of the blocks `l`. -/
structure BlockStats.Of (c : BlockStats) (l : List Block) : Prop where
  sizes : c.sizes.Of (l.map Block.size)
  total : c.totalBlockSize = (l.map Block.size).sum

theorem BlockStats.of_nil : BlockStats.init.Of [] := ⟨Sizes.of_nil, rfl⟩

theorem BlockStats.Of.count {c : BlockStats} {l : List Block} {b : Block} (h : c.Of l)
    (hsum : ((l ++ [b]).map Block.size).sum < 2 ^ 63) : (c.count b.dataSize).Of (l ++ [b]) := by
  have hlen : l.length ≤ (l.map Block.size).sum := by
    have := List.length_le_sum_of_one_le (l.map Block.size) fun x hx => by
      obtain ⟨b, -, rfl⟩ := List.mem_map.1 hx
      simp only [Block.size, sizeofBlock]
      omega
    rwa [List.length_map] at this
  have htotal := h.total
  rw [List.map_append, List.sum_append] at hsum
  simp only [List.map_cons, List.map_nil, List.sum_cons, List.sum_nil] at hsum
  have hsize : add64 b.dataSize sizeofBlock = b.size := by
    simp only [add64, Block.size] at hsum ⊢
    omega
  rw [BlockStats.count, hsize]
  constructor
  · rw [List.map_append]
    apply h.sizes.count (by omega)
    rw [List.length_map]
    omega
  · simp only [List.map_append, List.sum_append, List.map_cons, List.map_nil, List.sum_cons, List.sum_nil, add64]
    omega

/-- The whole loop. -/
theorem BlockStats.Of.foldl {c : BlockStats} {l l' : List Block} (h : c.Of l)
    (hsum : ((l ++ l').map Block.size).sum < 2 ^ 63) :
    (l'.foldl (fun c b => c.count b.dataSize) c).Of (l ++ l') := by
  induction l' generalizing c l with
  | nil => rwa [List.append_nil]
  | cons b l' ih =>
    have hb : c.count b.dataSize |>.Of (l ++ [b]) := by
      apply h.count
      refine Nat.lt_of_le_of_lt ?_ hsum
      simp only [List.map_append, List.sum_append, List.map_cons, List.map_nil, List.sum_cons, List.sum_nil]
      omega
    rw [List.append_cons] at hsum ⊢
    exact ih hb hsum

private theorem exec_countBlocks {D : Set Nat} {db : Nat} {F : Words} (hD : Headers D db F) {p fuel : Nat} {l : List Block}
    (h : Seg (fun x => F (.prevBlockOffset x)) (fun x => F (.nextBlockOffset x)) p (offsets l) nullOffset)
    (hmem : ∀ b ∈ l, b.offset ∈ D ∧ F (.dataSize b.offset) = b.dataSize) (hfuel : l.length < fuel) (c : BlockStats) :
    Exec D db F (countBlocks fuel ((offsets l).headD nullOffset) c) (l.foldl (fun c b => c.count b.dataSize) c) [] := by
  induction l generalizing p fuel c with
  | nil =>
    obtain ⟨fuel, rfl⟩ : ∃ k, fuel = k + 1 := ⟨fuel - 1, by omega⟩
    show Exec D db F (countBlocks (fuel + 1) nullOffset c) c []
    rw [countBlocks, if_pos rfl]
    exact exec_pure c
  | cons b l ih =>
    obtain ⟨fuel, rfl⟩ : ∃ k, fuel = k + 1 := ⟨fuel - 1, by omega⟩
    obtain ⟨hb, hsize⟩ := hmem b (List.mem_cons_self ..)
    obtain ⟨-, hn, ht⟩ := h
    change F (.nextBlockOffset b.offset) = _ at hn
    have hbs : (Field.dataSize b.offset).On D := hb
    have hbn : (Field.nextBlockOffset b.offset).On D := hb
    show Exec D db F (countBlocks (fuel + 1) b.offset c) _ []
    rw [countBlocks, if_neg (hD.ne_null hb)]
    refine exec_load_bind hD hbs (exec_load_bind hD hbn ?_)
    rw [hn, hsize]
    exact ih ht (fun d hd => hmem d (List.mem_cons_of_mem _ hd)) (by simpa using hfuel) _

variable {s : FileBackedBuffer} {L : Layout}

private theorem Layout.WellFormed.sizes_sum (h : L.WellFormed s.dbSize) :
    sizeofBufferHeader + ((L.used.map Block.size).sum + (L.free.map Block.size).sum) = s.dbSize := by
  have hsum := h.tiled.sum
  have hsize : (fun b : Block => sizeofBlock + b.dataSize) = Block.size := funext fun b => Nat.add_comm ..
  rw [hsize, Layout.blocks, List.map_append, List.sum_append] at hsum
  omega

private theorem bufferStats_eq (hL : L.Holds s.field) (h : L.WellFormed s.dbSize) :
    ∃ used free : BlockStats, used.Of L.used ∧ free.Of L.free ∧
      bufferStats s = some (⟨used, used.averageBlockSize, free, free.averageBlockSize, free.fragmentation⟩, s) := by
  have hD := h.headers_file
  have hlen := h.sound.length_lt
  have hdb := s.dbSize_lt
  have hsum := h.sizes_sum
  simp only [Layout.blocks, List.length_append] at hlen
  have husedHead : Field.nextUsedBlockOffset.On {x | x ∈ offsets L.blocks} := trivial
  have hfreeHead : Field.nextFreeBlockOffset.On {x | x ∈ offsets L.blocks} := trivial
  have hmem {l : List Block} (hl : ∀ b ∈ l, b ∈ L.blocks) : ∀ b ∈ l,
      b.offset ∈ {x | x ∈ offsets L.blocks} ∧ s.field (.dataSize b.offset) = b.dataSize :=
    fun b hb => ⟨List.mem_map_of_mem (hl b hb), hL.sizes b (hl b hb)⟩
  let used : BlockStats := L.used.foldl (fun c b => c.count b.dataSize) .init
  let free : BlockStats := L.free.foldl (fun c b => c.count b.dataSize) .init
  have hx : Exec {x | x ∈ offsets L.blocks} s.dbSize s.field bufferStats
      ⟨used, used.averageBlockSize, free, free.averageBlockSize, free.fragmentation⟩ [] := by
    refine exec_get_bind hD fun t ht => exec_load_bind hD husedHead ?_
    rw [ht, hL.used.head]
    refine exec_read_bind hD
      (exec_countBlocks hD hL.used.seg (hmem fun b hb => Layout.WellFormed.used_mem hb) (by omega) .init) ?_
    refine exec_get_bind hD fun t ht => exec_load_bind hD hfreeHead ?_
    rw [ht, hL.free.head]
    exact exec_read_bind hD
      (exec_countBlocks hD hL.free.seg (hmem fun b hb => Layout.WellFormed.free_mem hb) (by omega) .init) (exec_pure _)
  have hrun := hx.run s rfl fun _ _ => rfl
  rw [FileBackedBuffer.after_nil] at hrun
  refine ⟨used, free, ?_, ?_, hrun⟩
  · exact BlockStats.of_nil.foldl (by rw [List.nil_append]; omega)
  · exact BlockStats.of_nil.foldl (by rw [List.nil_append]; omega)

/-! ### The averages and the fragmentation -/

/-- The average of no sizes is no number.  Every other one is the quotient up to rounding, and lies between the sizes as long
as the total has 24 bits. -/
structure BlockStats.Average (c : BlockStats) (average : Float32.Model) : Prop where
  nan : c.sizes.num = 0 → average.isNaN = true
  value : c.sizes.num ≠ 0 → ∃ q, HasValue average q ∧
    |(c.totalBlockSize : ℝ) / c.sizes.num - q| ≤ c.totalBlockSize / c.sizes.num * 2 ^ (-22 : ℤ) ∧
    (c.totalBlockSize ≤ 2 ^ 24 → c.sizes.smallest ≤ q ∧ q ≤ c.sizes.largest)

/-- The fragmentation is zero as long as there is no second block, and else positive and at most one. -/
structure BlockStats.Fragmentation (c : BlockStats) (fragmentation : Float32.Model) : Prop where
  zero : c.sizes.num ≤ 1 → fragmentation = Float32.Model.ofInt 0
  value : 1 < c.sizes.num → ∃ q, HasValue fragmentation q ∧
    |((c.totalBlockSize - c.sizes.largest : ℕ) : ℝ) / c.totalBlockSize - q| ≤
      ((c.totalBlockSize - c.sizes.largest : ℕ) : ℝ) / c.totalBlockSize * 2 ^ (-22 : ℤ) ∧ q ≤ 1

variable {c : BlockStats} {l : List Block}

private theorem one_le_of_mem_sizes {x : Nat} (hx : x ∈ l.map Block.size) : 1 ≤ x := by
  obtain ⟨b, -, rfl⟩ := List.mem_map.1 hx
  simp only [Block.size, sizeofBlock]
  omega

private theorem BlockStats.Of.num_le (h : c.Of l) : c.sizes.num ≤ c.totalBlockSize := by
  rw [h.sizes.num, h.total]
  exact List.length_le_sum_of_one_le _ fun x hx => one_le_of_mem_sizes hx

theorem BlockStats.Of.average (h : c.Of l) (hsum : c.totalBlockSize < 2 ^ 31) : c.Average c.averageBlockSize := by
  have hle := h.num_le
  constructor
  · intro hnum
    rw [BlockStats.averageBlockSize, hnum, h.total, h.sizes.eq_nil hnum]
    exact isNaN_zero_div_zero
  · intro hnum
    obtain ⟨q, hq, herror, -, hround⟩ := ofInt_div_ofInt (a := c.totalBlockSize) (b := c.sizes.num) (by omega) (by omega)
      (by omega) (by omega)
    refine ⟨q, hq, herror, fun hexact => h.sizes.between (h.sizes.ne_nil hnum) (h.total ▸ hexact) ?_⟩
    rw [← h.total]
    exact hround hexact (by omega)

private theorem BlockStats.Of.fragmentation (h : c.Of l) (hsum : c.totalBlockSize < 2 ^ 31) :
    c.Fragmentation c.fragmentation := by
  have hle := h.num_le
  constructor
  · intro hnum
    rcases Nat.eq_zero_or_pos c.totalBlockSize with hz | hpos
    · rw [BlockStats.fragmentation, if_neg (not_not.2 hz)]
    · -- the only block is the largest one
      have hone : c.sizes.num = 1 := by
        by_contra hne
        rw [h.total, h.sizes.eq_nil (by omega)] at hpos
        exact absurd hpos (Nat.lt_irrefl 0)
      have hlargest : sub64 c.totalBlockSize c.sizes.largest = 0 := by
        rw [h.sizes.largest_eq hone, ← h.total]
        simp only [sub64]
        omega
      obtain ⟨v, hv, -⟩ := ofInt_rounds (n := c.totalBlockSize) (by omega) (by omega)
      rw [BlockStats.fragmentation, if_pos (by omega), hlargest]
      exact zero_div_value hv
  · intro hnum
    have hlt := h.sizes.largest_lt (fun x hx => one_le_of_mem_sizes hx) hnum
    rw [← h.total] at hlt
    have hsub : sub64 c.totalBlockSize c.sizes.largest = c.totalBlockSize - c.sizes.largest := by
      simp only [sub64]
      omega
    rw [BlockStats.fragmentation, if_pos (by omega), hsub]
    obtain ⟨q, hq, herror, hone, -⟩ := ofInt_div_ofInt (a := c.totalBlockSize - c.sizes.largest) (b := c.totalBlockSize)
      (by omega) (by omega) (by omega) (by omega)
    exact ⟨q, hq, herror, hone (by omega)⟩

/-- The largest size tells whether a block has room. -/
private theorem BlockStats.Of.forall_lt_iff {n : Nat} (h : c.Of l) :
    (∀ b ∈ l, b.dataSize < n) ↔ c.sizes.num = 0 ∨ c.sizes.largest < n + sizeofBlock := by
  constructor
  · intro hsmall
    rcases Nat.eq_zero_or_pos c.sizes.num with hz | hpos
    · exact Or.inl hz
    · obtain ⟨b, hb, hsize⟩ := List.mem_map.1 (h.sizes.attained (h.sizes.ne_nil (by omega))).2
      have := hsmall b hb
      simp only [Block.size] at hsize
      omega
  · rintro (hz | hlt) b hb
    · rw [List.map_eq_nil_iff.1 (h.sizes.eq_nil hz)] at hb
      exact absurd hb List.not_mem_nil
    · have := h.sizes.le_largest _ (List.mem_map_of_mem hb)
      simp only [Block.size] at this
      omega

/-- What the numbers say about the file. -/
structure BufferStats.Describes (stats : BufferStats) (s : FileBackedBuffer) (L : Layout) : Prop where
  used : stats.used.Of L.used
  free : stats.free.Of L.free
  /-- No byte of the file is counted twice or left out. -/
  total : sizeofBufferHeader + (stats.used.totalBlockSize + stats.free.totalBlockSize) = s.dbSize
  /-- `alloc` fails for exactly the sizes that do not fit into the largest free block. -/
  alloc_none (n : Nat) : (∃ s', alloc n s = some (none, s')) ↔
    stats.free.sizes.num = 0 ∨ stats.free.sizes.largest < n + sizeofBlock
  averageUsed : stats.used.Average stats.averageUsedBlockSize
  averageFree : stats.free.Average stats.averageFreeBlockSize
  fragmentation : stats.free.Fragmentation stats.fragmentation

/-- `print_stats` reads a well formed file without changing it, and its numbers describe the file. -/
theorem bufferStats_describe (hL : L.Holds s.field) (h : L.WellFormed s.dbSize) :
    ∃ stats, bufferStats s = some (stats, s) ∧ stats.Describes s L := by
  obtain ⟨used, free, hused, hfree, hrun⟩ := bufferStats_eq hL h
  have hsum := h.sizes_sum
  rw [← hused.total, ← hfree.total] at hsum
  have hdb := s.dbSize_lt
  refine ⟨_, hrun, hused, hfree, hsum, fun n => ?_, hused.average (by omega), hfree.average (by omega),
    hfree.fragmentation (by omega)⟩
  rw [alloc_eq_none_iff hL h]
  exact hfree.forall_lt_iff

theorem bufferStats_of_four_blocks : ∃ (s : FileBackedBuffer) (L : Layout) (stats : BufferStats),
    L.used.length = 2 ∧ L.free.length = 2 ∧ bufferStats s = some (stats, s) ∧ stats.Describes s L := by
  obtain ⟨c, -, -, hL, hwf⟩ := exists_fourBlocks
  obtain ⟨stats, hrun, hstats⟩ := bufferStats_describe hL hwf
  exact ⟨c.buffer, _, stats, rfl, rfl, hrun, hstats⟩

end KeyValueStore
