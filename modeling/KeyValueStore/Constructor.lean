import KeyValueStore.Client
import KeyValueStore.MachineInt

/-!
# The constructor on a new file

The requested size passes through the result of `get_file_size` and through `m_db_size`, both `int`, and becomes a
`size_t` again for `mmap` and for the size of the first free block, from which the two headers are subtracted.  The sizes
that the assertion on `m_base` lets through are those whose residue modulo `2 ^ 32` is positive and below `2 ^ 31`, and the
free block ends where the mapping does unless that residue is below 40, the size of the headers.
-/

namespace KeyValueStore

open MachineInt

/-- `get_file_size`, for a file whose `st_size` is the given number. -/
def getFileSize (stSize : Int) : Int := toInt32 stSize

/-- `mmap` maps this many bytes of a new file. -/
def mmapSucceeds (length : Nat) : Bool := 1 ≤ length ∧ length ≤ 2 ^ 47

/-- The constructor on a new file: the number of mapped bytes and the `data_size` of the first free block; it does not
return when the assertion on `m_base` fails. -/
def construct (bufferSize : Nat) : Option (Nat × Nat) :=
  let dbSize := toInt32 (getFileSize bufferSize)
  let length := toUInt64 dbSize
  if mmapSucceeds length then
    some (length, sub64 (sub64 (toUInt64 dbSize) sizeofBufferHeader) sizeofBlock)
  else
    none

/-- The free block that the constructor makes lies in the mapped bytes and ends with them, and the file has them. -/
def FirstBlockFits (bufferSize : Nat) : Prop :=
  ∀ length dataSize, construct bufferSize = some (length, dataSize) →
    sizeofBufferHeader + sizeofBlock + dataSize = length ∧ length ≤ bufferSize

private theorem construct_of_lt {bufferSize : Nat} (h₁ : 1 ≤ bufferSize % 2 ^ 32) (h₂ : bufferSize % 2 ^ 32 < 2 ^ 31) :
    construct bufferSize = some (bufferSize % 2 ^ 32, sub64 (sub64 (bufferSize % 2 ^ 32) 16) 24) := by
  have hsize : toInt32 (getFileSize bufferSize) = ((bufferSize % 2 ^ 32 : Nat) : Int) := by
    rw [getFileSize, toInt32_natCast, if_pos h₂]
    apply toInt32_eq_self <;> omega
  have hlen : toUInt64 (toInt32 (getFileSize bufferSize)) = bufferSize % 2 ^ 32 := by
    rw [hsize]
    exact toUInt64_eq_self (by omega)
  have hmap : mmapSucceeds (bufferSize % 2 ^ 32) = true := by
    simp only [mmapSucceeds, decide_eq_true_eq]
    omega
  simp only [construct, hlen, hmap, if_true, sizeofBufferHeader, sizeofBlock]

private theorem construct_eq_none {bufferSize : Nat} (h : bufferSize % 2 ^ 32 = 0 ∨ 2 ^ 31 ≤ bufferSize % 2 ^ 32) :
    construct bufferSize = none := by
  have hmap : mmapSucceeds (toUInt64 (toInt32 (getFileSize bufferSize))) = false := by
    simp only [mmapSucceeds, decide_eq_false_iff_not, getFileSize, toInt32_natCast]
    rcases h with h | h
    · rw [h]
      decide
    · -- a negative size is converted to a length above every mapping
      have hneg : toInt32 (((bufferSize % 2 ^ 32 : Nat) : Int) - 2 ^ 32) = (bufferSize % 2 ^ 32 : Nat) - 2 ^ 32 := by
        apply toInt32_eq_self <;> omega
      rw [if_neg (by omega), hneg]
      have := toUInt64_of_neg (v := ((bufferSize % 2 ^ 32 : Nat) : Int) - 2 ^ 32) (by omega) (by omega)
      omega
  simp only [construct, hmap, if_false, Bool.false_eq_true]

/-- From 40 bytes on the subtractions do not wrap. -/
private theorem sub64_headers {n : Nat} (h : 40 ≤ n) (h' : n < 2 ^ 64) : sub64 (sub64 n 16) 24 = n - 40 := by
  simp only [sub64]
  omega

private theorem sub64_headers_of_lt {n : Nat} (h : n < 40) : sub64 (sub64 n 16) 24 = 2 ^ 64 - (40 - n) := by
  simp only [sub64]
  omega

/-- The constructor returns exactly for these sizes. -/
theorem construct_isSome_iff (bufferSize : Nat) :
    (construct bufferSize).isSome ↔ 1 ≤ bufferSize % 2 ^ 32 ∧ bufferSize % 2 ^ 32 < 2 ^ 31 := by
  by_cases h : 1 ≤ bufferSize % 2 ^ 32 ∧ bufferSize % 2 ^ 32 < 2 ^ 31
  · rw [construct_of_lt h.1 h.2]
    exact ⟨fun _ => h, fun _ => rfl⟩
  · rw [construct_eq_none (by omega)]
    exact ⟨fun e => absurd e (by decide), fun h' => absurd h' h⟩

/-- The first free block fits the mapping for every requested size, except for those whose residue modulo `2 ^ 32` is
positive and smaller than the two headers. -/
theorem firstBlockFits_iff (bufferSize : Nat) :
    FirstBlockFits bufferSize ↔ ¬ (1 ≤ bufferSize % 2 ^ 32 ∧ bufferSize % 2 ^ 32 < 40) := by
  have hle : bufferSize % 2 ^ 32 ≤ bufferSize := Nat.mod_le ..
  constructor
  · rintro h ⟨h₁, h₂⟩
    obtain ⟨hsum, -⟩ := h _ _ (construct_of_lt h₁ (by omega))
    rw [sub64_headers_of_lt h₂] at hsum
    simp only [sizeofBufferHeader, sizeofBlock] at hsum
    omega
  · intro h length dataSize hc
    have hsome := (construct_isSome_iff bufferSize).1 (by rw [hc]; rfl)
    rw [construct_of_lt hsome.1 hsome.2, sub64_headers (by omega) (by omega)] at hc
    obtain ⟨rfl, rfl⟩ := Prod.mk.inj (Option.some.inj hc)
    simp only [sizeofBufferHeader, sizeofBlock]
    omega

/-- A file of 39 bytes: its free block reaches far beyond the mapping. -/
theorem not_firstBlockFits : ¬ FirstBlockFits 39 := by
  intro h
  obtain ⟨hsum, -⟩ := h 39 (2 ^ 64 - 1) (by decide)
  exact absurd hsum (by decide)

/-- Where it fits, the file is initialised to one free block, which is all of it. -/
theorem construct_wellFormed {bufferSize length dataSize : Nat} (hc : construct bufferSize = some (length, dataSize))
    (h40 : 40 ≤ length) :
    ∃ (h : length < 2 ^ 31) (b : FileBackedBuffer), initBuffer (newFile length h) = some ((), b) ∧
      b.dbSize = length ∧ Layout.Holds b.field ⟨[⟨16, dataSize⟩], []⟩ ∧
      Layout.WellFormed ⟨[⟨16, dataSize⟩], []⟩ length := by
  have hsome := (construct_isSome_iff bufferSize).1 (by rw [hc]; rfl)
  rw [construct_of_lt hsome.1 hsome.2] at hc
  obtain ⟨rfl, rfl⟩ := Prod.mk.inj (Option.some.inj hc)
  rw [sub64_headers h40 (by omega)]
  obtain ⟨b, hb, hdb, hL, hwf⟩ := initBuffer_layout _ h40 hsome.2
  rw [hdb] at hwf
  exact ⟨hsome.2, b, hb, hdb, hL, hwf⟩

end KeyValueStore
