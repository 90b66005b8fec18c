import KeyValueStore.Memory
import Mathlib.Data.List.TakeWhile

/-!
# C strings in a byte memory

`cString m limit p` is the string from address `p` up to its terminating zero byte, read by bytes in front of `limit`;
it fails where no zero byte is found.  `StringAt m p s` says that the string `s` is stored at `p`, zero byte
included.  `strncpyBytes s n` are the `n` bytes that `strncpy` writes for the source `s`: the bytes of `s` in front of its
first zero byte, filled up with zeros.  Nothing here refers to the program.
-/

namespace ByteMemory

/-- The string from address `p` on, of at most the next `n` bytes. -/
def stringFrom (m : Mem) : Nat → Nat → Option (List UInt8)
  | 0, _ => none
  | n + 1, p => if m p = 0 then some [] else (stringFrom m n (p + 1)).map (m p :: ·)

/-- The string at `p`, read in front of `limit`. -/
def cString (m : Mem) (limit p : Nat) : Option (List UInt8) := stringFrom m (limit - p) p

/-- The bytes of `s` in front of its first zero byte. -/
def cut (s : List UInt8) : List UInt8 := s.takeWhile (· ≠ 0)

/-- The `n` bytes that `strncpy` writes. -/
def strncpyBytes (s : List UInt8) (n : Nat) : List UInt8 :=
  (cut s).take n ++ List.replicate (n - (cut s).length) 0

/-- The string `s` is stored at `p`. -/
structure StringAt (m : Mem) (p : Nat) (s : List UInt8) : Prop where
  no_zero : 0 ∉ s
  bytes : ∀ (i : Nat) (hi : i < s.length), m (p + i) = s[i]
  zero : m (p + s.length) = 0

theorem cut_eq_self {s : List UInt8} (h : 0 ∉ s) : cut s = s := by
  rw [cut, List.takeWhile_eq_self_iff]
  intro x hx
  have hne : x ≠ 0 := fun e => h (e ▸ hx)
  simpa using hne

theorem zero_notMem_cut (s : List UInt8) : 0 ∉ cut s := by
  intro h
  have := List.mem_takeWhile_imp h
  simp at this

theorem length_cut_le (s : List UInt8) : (cut s).length ≤ s.length := (List.takeWhile_sublist _).length_le

theorem strncpyBytes_succ (s : List UInt8) :
    strncpyBytes s (s.length + 1) = cut s ++ 0 :: List.replicate (s.length - (cut s).length) 0 := by
  have := length_cut_le s
  rw [strncpyBytes, List.take_of_length_le (by omega), ← List.replicate_succ]
  congr 2
  omega

theorem length_strncpyBytes (s : List UInt8) : (strncpyBytes s (s.length + 1)).length = s.length + 1 := by
  have := length_cut_le s
  rw [strncpyBytes_succ, List.length_append, List.length_cons, List.length_replicate]
  omega

/-- The bytes that the string and its zero byte occupy are all that matters. -/
theorem StringAt.congr {m m' : Mem} {p : Nat} {s : List UInt8} (h : StringAt m p s)
    (hm : ∀ x, p ≤ x → x ≤ p + s.length → m' x = m x) : StringAt m' p s := by
  refine ⟨h.no_zero, fun i hi => ?_, ?_⟩
  · rw [hm _ (by omega) (by omega), h.bytes i hi]
  · rw [hm _ (by omega) (by omega), h.zero]

/-- Writing a string, its zero byte and anything behind it stores the string. -/
theorem stringAt_setBytes (m : Mem) (p : Nat) {s t : List UInt8} (h : 0 ∉ s) :
    StringAt (setBytes m p (s ++ 0 :: t)) p s := by
  refine ⟨h, fun i hi => ?_, ?_⟩
  · rw [setBytes_inside m p _ (by simp; omega), List.getElem_append_left hi]
  · rw [setBytes_inside m p _ (by simp)]
    simp

private theorem stringFrom_eq_some {m : Mem} {n p : Nat} {s : List UInt8} :
    stringFrom m n p = some s ↔ StringAt m p s ∧ s.length < n := by
  induction n generalizing p s with
  | zero => simp [stringFrom]
  | succ n ih =>
    rw [stringFrom]
    split
    · -- the byte at `p` ends the string
      rename_i hz
      constructor
      · intro h
        obtain rfl := Option.some.inj h
        exact ⟨⟨by simp, by simp, hz⟩, by simp⟩
      · rintro ⟨h, -⟩
        cases s with
        | nil => rfl
        | cons c s =>
          have hc : m (p + 0) = c := h.bytes 0 (by simp)
          exact absurd (hc ▸ hz : c = 0) (fun e => h.no_zero (by simp [e]))
    · -- the byte at `p` belongs to it
      rename_i hz
      constructor
      · intro h
        obtain ⟨t, ht, rfl⟩ := Option.map_eq_some_iff.1 h
        obtain ⟨hat, hlen⟩ := ih.1 ht
        refine ⟨⟨?_, ?_, ?_⟩, by simpa using hlen⟩
        · simp only [List.mem_cons, not_or]
          exact ⟨fun e => hz e.symm, hat.no_zero⟩
        · intro i hi
          cases i with
          | zero => rfl
          | succ i =>
            rw [show p + (i + 1) = p + 1 + i by omega]
            exact hat.bytes i (by simpa using hi)
        · rw [List.length_cons, show p + (t.length + 1) = p + 1 + t.length by omega]
          exact hat.zero
      · rintro ⟨h, hlen⟩
        cases s with
        | nil => exact absurd h.zero hz
        | cons c s =>
          have hc : m p = c := h.bytes 0 (by simp)
          have hat : StringAt m (p + 1) s := by
            refine ⟨fun e => h.no_zero (List.mem_cons_of_mem _ e), fun i hi => ?_, ?_⟩
            · rw [show p + 1 + i = p + (i + 1) by omega]
              exact h.bytes (i + 1) (by simpa using hi)
            · rw [show p + 1 + s.length = p + (c :: s).length by simp; omega]
              exact h.zero
          rw [ih.2 ⟨hat, by simpa using hlen⟩, Option.map_some, hc]

private theorem stringFrom_congr {m m' : Mem} {n p : Nat} (h : ∀ x, p ≤ x → m' x = m x) :
    stringFrom m' n p = stringFrom m n p := by
  induction n generalizing p with
  | zero => rfl
  | succ n ih => rw [stringFrom, stringFrom, h p (Nat.le_refl p), ih fun x hx => h x (by omega)]

/-- Reading depends on the bytes from the address on only. -/
theorem cString_congr {m m' : Mem} {limit p : Nat} (h : ∀ x, p ≤ x → m' x = m x) :
    cString m' limit p = cString m limit p :=
  stringFrom_congr h

/-- Reading gives exactly the string stored there. -/
theorem cString_eq_some {m : Mem} {limit p : Nat} {s : List UInt8} :
    cString m limit p = some s ↔ StringAt m p s ∧ p + s.length < limit := by
  rw [cString, stringFrom_eq_some]
  constructor
  · rintro ⟨h, hlt⟩; exact ⟨h, by omega⟩
  · rintro ⟨h, hlt⟩; exact ⟨h, by omega⟩

end ByteMemory
