import Mathlib.Data.List.Basic
import Mathlib.Tactic.Ring
import Mathlib.Tactic.Linarith

/-!
# Byte memory and 64-bit words

A memory is a byte for every address.  `setBytes` overwrites a run of bytes; `word` and `setWord` read and write a
little-endian 64-bit word at any address, aligned or not.  Writing a word and reading it back gives the word, and
a write leaves every word alone that is apart from it.  Nothing here refers to the program.
-/

namespace ByteMemory

/-- A byte for every address. -/
abbrev Mem := Nat → UInt8

/-- `m` with the bytes `bs` written from address `a` on. -/
def setBytes (m : Mem) (a : Nat) (bs : List UInt8) : Mem :=
  fun x => if a ≤ x then (bs[x - a]?).getD (m x) else m x

/-- The `n` bytes from address `a` on, the first one least significant. -/
def wordLE (m : Mem) (a : Nat) : Nat → Nat
  | 0 => 0
  | n + 1 => (m a).toNat + 256 * wordLE m (a + 1) n

/-- The 64-bit word at address `a`. -/
def word (m : Mem) (a : Nat) : Nat := wordLE m a 8

/-- The `n` low bytes of `v`, least significant first. -/
def bytesLE (v : Nat) : Nat → List UInt8
  | 0 => []
  | n + 1 => UInt8.ofNat v :: bytesLE (v / 256) n

/-- `m` with the 64-bit word `v` written at address `a`. -/
def setWord (m : Mem) (a v : Nat) : Mem := setBytes m a (bytesLE v 8)

theorem setBytes_outside (m : Mem) (a : Nat) (bs : List UInt8) {x : Nat} (h : x < a ∨ a + bs.length ≤ x) :
    setBytes m a bs x = m x := by
  unfold setBytes
  split
  · rw [List.getElem?_eq_none (by omega)]; rfl
  · rfl

theorem setBytes_inside (m : Mem) (a : Nat) (bs : List UInt8) {i : Nat} (h : i < bs.length) :
    setBytes m a bs (a + i) = bs[i] := by
  simp [setBytes, h]

theorem length_bytesLE (v n : Nat) : (bytesLE v n).length = n := by
  induction n generalizing v with
  | zero => rfl
  | succ n ih => simp [bytesLE, ih]

theorem setWord_outside (m : Mem) (a v : Nat) {x : Nat} (h : x < a ∨ a + 8 ≤ x) : setWord m a v x = m x :=
  setBytes_outside m a _ (by rw [length_bytesLE]; exact h)

private theorem wordLE_congr {m m' : Mem} {a n : Nat} (h : ∀ i < n, m (a + i) = m' (a + i)) :
    wordLE m a n = wordLE m' a n := by
  induction n generalizing a with
  | zero => rfl
  | succ n ih =>
    have h0 : m a = m' a := h 0 (by omega)
    have ih' := ih (a := a + 1) (fun i hi => by
      have := h (i + 1) (by omega)
      rwa [show a + (i + 1) = a + 1 + i by omega] at this)
    simp only [wordLE, h0, ih']

/-- A word depends on its eight bytes only. -/
theorem word_congr {m m' : Mem} {a : Nat} (h : ∀ i < 8, m (a + i) = m' (a + i)) : word m a = word m' a :=
  wordLE_congr h

private theorem wordLE_lt (m : Mem) (a n : Nat) : wordLE m a n < 256 ^ n := by
  induction n generalizing a with
  | zero => simp [wordLE]
  | succ n ih =>
    have h1 := ih (a + 1)
    have h2 := (m a).toNat_lt
    simp only [wordLE, Nat.pow_succ]
    omega

theorem word_lt (m : Mem) (a : Nat) : word m a < 2 ^ 64 := by
  have := wordLE_lt m a 8
  simpa [word] using this

private theorem wordLE_eq_zero {m : Mem} {a n : Nat} : wordLE m a n = 0 ↔ ∀ i < n, m (a + i) = 0 := by
  induction n generalizing a with
  | zero => simp [wordLE]
  | succ n ih =>
    have hz : (m a).toNat = 0 ↔ m a = 0 := by
      constructor
      · intro h; exact UInt8.toNat_inj.1 h
      · intro h; rw [h]; rfl
    simp only [wordLE, Nat.add_eq_zero_iff, Nat.mul_eq_zero, ih, hz]
    constructor
    · rintro ⟨h0, h | h⟩ i hi
      · omega
      · rcases i with _ | i
        · exact h0
        · rw [show a + (i + 1) = a + 1 + i by omega]; exact h i (by omega)
    · intro h
      refine ⟨h 0 (by omega), Or.inr fun i hi => ?_⟩
      rw [show a + 1 + i = a + (i + 1) by omega]; exact h (i + 1) (by omega)

/-- A word is zero iff all its bytes are. -/
theorem word_eq_zero {m : Mem} {a : Nat} : word m a = 0 ↔ ∀ i < 8, m (a + i) = 0 :=
  wordLE_eq_zero

private theorem wordLE_of_bytes {m : Mem} {a n : Nat} {v : Nat} (hv : v < 256 ^ n)
    (h : ∀ (i : Nat) (hi : i < (bytesLE v n).length), m (a + i) = (bytesLE v n)[i]) : wordLE m a n = v := by
  induction n generalizing a v with
  | zero => simp at hv; simp [wordLE, hv]
  | succ n ih =>
    have h0 : m a = UInt8.ofNat v := h 0 (by simp [bytesLE])
    have hv' : v / 256 < 256 ^ n := by
      rw [Nat.pow_succ] at hv; exact Nat.div_lt_of_lt_mul (by rw [Nat.mul_comm]; exact hv)
    have ih' := ih (a := a + 1) hv' (fun i hi => by
      have := h (i + 1) (by simp [bytesLE]; exact hi)
      rw [show a + 1 + i = a + (i + 1) by omega]
      simpa [bytesLE] using this)
    simp only [wordLE, h0, ih', UInt8.toNat_ofNat']
    omega

theorem word_setWord_same (m : Mem) (a : Nat) {v : Nat} (hv : v < 2 ^ 64) : word (setWord m a v) a = v :=
  wordLE_of_bytes (by simpa using hv) (fun _ hi => setBytes_inside m a _ hi)

theorem word_setWord_apart (m : Mem) {a b : Nat} (v : Nat) (h : a + 8 ≤ b ∨ b + 8 ≤ a) :
    word (setWord m b v) a = word m a :=
  word_congr (fun i hi => setWord_outside m b v (by omega))

private theorem eq_zero_of_mem_bytesLE {n : Nat} {b : UInt8} (h : b ∈ bytesLE 0 n) : b = 0 := by
  induction n with
  | zero => cases h
  | succ n ih =>
    rw [bytesLE, Nat.zero_div] at h
    rcases List.mem_cons.1 h with rfl | h
    · rfl
    · exact ih h

/-- Zero is written over a word that is zero. -/
theorem setWord_of_zero {m : Mem} {a : Nat} (h : word m a = 0) : setWord m a 0 = m := by
  funext x
  by_cases hx : a ≤ x ∧ x < a + 8
  · obtain ⟨i, rfl⟩ : ∃ i, x = a + i := ⟨x - a, by omega⟩
    have hi : i < (bytesLE 0 8).length := by
      rw [length_bytesLE]
      omega
    have hbyte : (bytesLE 0 8)[i] = 0 := eq_zero_of_mem_bytesLE (List.getElem_mem hi)
    rw [setWord, setBytes_inside m a _ hi, word_eq_zero.1 h i (by omega), hbyte]
  · exact setWord_outside m a 0 (by omega)

end ByteMemory
