import Mathlib

/-!
# Numbers of 24 significant bits

The operations of `Float32.Model`, the model of the format `binary32` that Lean has, on positive numbers.  A number is
`Representable` if 24 bits are enough for it, and an operation rounds its exact result to a representable number that is
nearest to it (`Rounds`).  The conversion of an integer, the sum, the quotient and the square root are such operations
(`ofInt_rounds`, `add_rounds`, `div_rounds`, `sqrt_rounds`), and `ceil` is exact (`ceil_value`).  Nothing here refers to the
program.
-/

namespace Binary32

open Float.Model UnpackedFloat

/-- 24 bits are enough for the number, whatever its exponent. -/
def Representable (x : ℝ) : Prop := ∃ (m : ℕ) (e : ℤ), m ≤ 2 ^ 24 ∧ x = m * 2 ^ e

/-- No representable number is closer to `x` than `v`. -/
def Rounds (x v : ℝ) : Prop := ∀ r, Representable r → |x - v| ≤ |x - r|

theorem representable_natCast {n : ℕ} (h : n ≤ 2 ^ 24) : Representable n := ⟨n, 0, h, by simp⟩

theorem representable_zpow (e : ℤ) : Representable (2 ^ e) := ⟨1, e, by norm_num, by simp⟩

/-- A power of two does not change the significant bits. -/
theorem Representable.mul_zpow {x : ℝ} (h : Representable x) (k : ℤ) : Representable (x * 2 ^ k) := by
  obtain ⟨m, e, hm, rfl⟩ := h
  exact ⟨m, e + k, hm, by rw [zpow_add₀ two_ne_zero, mul_assoc]⟩

/-- A representable number is not rounded. -/
theorem Rounds.eq_of_representable {x v : ℝ} (h : Rounds x v) (hx : Representable x) : v = x := by
  have hle := h x hx
  rw [sub_self, abs_zero, abs_nonpos_iff, sub_eq_zero] at hle
  exact hle.symm

/-- Rounding does not get past a representable number. -/
theorem Rounds.le_of_le {x v r : ℝ} (h : Rounds x v) (hr : Representable r) (hrx : r ≤ x) : r ≤ v := by
  by_contra hlt
  have hle := h r hr
  rw [abs_of_nonneg (by linarith), abs_of_nonneg (by linarith)] at hle
  linarith

theorem Rounds.ge_of_ge {x v r : ℝ} (h : Rounds x v) (hr : Representable r) (hxr : x ≤ r) : v ≤ r := by
  by_contra hlt
  have hle := h r hr
  rw [abs_of_nonpos (by linarith), abs_of_nonpos (by linarith)] at hle
  linarith

/-- Rounding keeps the order. -/
theorem Rounds.mono {x y v w : ℝ} (hx : Rounds x v) (hy : Rounds y w) (hv : Representable v) (hw : Representable w)
    (h : x < y) : v ≤ w := by
  by_contra hlt
  -- both numbers would be on the wrong side of the middle
  have h₁ := sq_le_sq.2 (hx w hw)
  have h₂ := sq_le_sq.2 (hy v hv)
  have hpos : 0 < (v - w) * (y - x) := mul_pos (by linarith) (by linarith)
  linarith

/-- Rounding changes a number by at most half of its 24th bit. -/
theorem Rounds.error {x v : ℝ} (h : Rounds x v) (hx : 0 < x) : |x - v| ≤ x * 2 ^ (-24 : ℤ) := by
  obtain ⟨t, hlo, hhi⟩ : ∃ t : ℤ, 2 ^ 23 * 2 ^ t ≤ x ∧ x < 2 ^ 24 * 2 ^ t := by
    have hlog := Int.zpow_log_le_self Nat.one_lt_two hx
    have hlog' := Int.lt_zpow_succ_log_self Nat.one_lt_two x
    rw [Nat.cast_ofNat] at hlog hlog'
    refine ⟨Int.log 2 x - 23, ?_, ?_⟩
    · rwa [← zpow_natCast, ← zpow_add₀ two_ne_zero, show ((23 : ℕ) : ℤ) + (Int.log 2 x - 23) = Int.log 2 x by omega]
    · rwa [← zpow_natCast, ← zpow_add₀ two_ne_zero, show ((24 : ℕ) : ℤ) + (Int.log 2 x - 23) = Int.log 2 x + 1 by omega]
  have ht : (0 : ℝ) < 2 ^ t := zpow_pos two_pos t
  -- the nearest multiple of the last bit
  have hle : (⌊x / 2 ^ t + 1 / 2⌋₊ : ℝ) ≤ x / 2 ^ t + 1 / 2 := Nat.floor_le (by positivity)
  have hlt : x / 2 ^ t + 1 / 2 < ⌊x / 2 ^ t + 1 / 2⌋₊ + 1 := Nat.lt_floor_add_one _
  have hn : ⌊x / 2 ^ t + 1 / 2⌋₊ ≤ 2 ^ 24 := by
    have : x / 2 ^ t < 2 ^ 24 := (div_lt_iff₀ ht).2 hhi
    have hlt : (⌊x / 2 ^ t + 1 / 2⌋₊ : ℝ) < (2 ^ 24 + 1 : ℕ) := by
      push_cast
      linarith
    exact Nat.lt_succ_iff.1 (by exact_mod_cast hlt)
  generalize ⌊x / 2 ^ t + 1 / 2⌋₊ = n at hle hlt hn
  have hnear : |x - n * 2 ^ t| ≤ 2 ^ t / 2 := by
    have hx : x = x / 2 ^ t * 2 ^ t := (div_mul_cancel₀ x ht.ne').symm
    generalize x / 2 ^ t = y at hx hle hlt
    rw [hx, ← sub_mul, abs_mul, abs_of_pos ht]
    have : |y - n| ≤ 1 / 2 := abs_le.2 ⟨by linarith, by linarith⟩
    nlinarith
  have hhalf : (2 : ℝ) ^ t / 2 = 2 ^ 23 * 2 ^ t * 2 ^ (-24 : ℤ) := by
    norm_num
    ring
  have hpos : (0 : ℝ) < 2 ^ (-24 : ℤ) := by positivity
  calc |x - v| ≤ |x - n * 2 ^ t| := h _ ⟨n, t, hn, rfl⟩
    _ ≤ 2 ^ 23 * 2 ^ t * 2 ^ (-24 : ℤ) := hhalf ▸ hnear
    _ ≤ x * 2 ^ (-24 : ℤ) := by gcongr

/-- From `2 ^ 23 * 2 ^ t` on, the representable numbers are multiples of `2 ^ t`. -/
private theorem Representable.exists_mul {r : ℝ} {t : ℤ} (hr : Representable r) (h : 2 ^ 23 * 2 ^ t ≤ r) :
    ∃ k : ℕ, r = k * 2 ^ t := by
  obtain ⟨m, e, hm, rfl⟩ := hr
  have hpos : (0 : ℝ) < 2 ^ e := zpow_pos two_pos e
  rcases le_or_gt t e with hte | hte
  · refine ⟨m * 2 ^ (e - t).toNat, ?_⟩
    have he : e = ((e - t).toNat : ℤ) + t := by omega
    push_cast
    rw [mul_assoc, ← zpow_natCast (2 : ℝ), ← zpow_add₀ two_ne_zero, ← he]
  · -- only the largest mantissa gets there
    have hle : (m : ℝ) * 2 ^ e ≤ 2 ^ 23 * 2 ^ t := by
      have hm' : (m : ℝ) ≤ 2 ^ 24 := by exact_mod_cast hm
      have hz : (2 : ℝ) ^ (e + 1) ≤ 2 ^ t := zpow_le_zpow_right₀ one_le_two (by omega)
      rw [zpow_add₀ two_ne_zero, zpow_one] at hz
      nlinarith
    exact ⟨2 ^ 23, by push_cast; linarith⟩

/-- The nearer of the two neighbours among the multiples of `2 ^ t`. -/
private theorem rounds_of_neighbour {y : ℝ} {m r : ℕ} (t : ℤ) (hm : 2 ^ 23 ≤ m) (hlo : m ≤ y) (hhi : y < m + 1)
    (hr : r = m ∧ y ≤ m + 1 / 2 ∨ r = m + 1 ∧ m + 1 / 2 ≤ y) : Rounds (y * 2 ^ t) (r * 2 ^ t) := by
  have hpos : (0 : ℝ) < 2 ^ t := zpow_pos two_pos t
  have hm' : (2 : ℝ) ^ 23 ≤ m := by exact_mod_cast hm
  intro z hz
  -- no representable number lies between the neighbours
  have hside : z ≤ m * 2 ^ t ∨ (m + 1) * 2 ^ t ≤ z := by
    rcases le_or_gt (2 ^ 23 * 2 ^ t) z with h | h
    · obtain ⟨k, rfl⟩ := hz.exists_mul h
      rcases le_or_gt k m with hk | hk
      · have hk' : (k : ℝ) ≤ m := by exact_mod_cast hk
        exact Or.inl (mul_le_mul_of_nonneg_right hk' hpos.le)
      · have hk' : (m : ℝ) + 1 ≤ k := by exact_mod_cast hk
        exact Or.inr (mul_le_mul_of_nonneg_right hk' hpos.le)
    · exact Or.inl (le_trans h.le (mul_le_mul_of_nonneg_right hm' hpos.le))
  have hz' : min (y - m) (m + 1 - y) * 2 ^ t ≤ |y * 2 ^ t - z| := by
    rcases hside with h | h
    · refine le_trans (mul_le_mul_of_nonneg_right (min_le_left _ _) hpos.le) (le_trans ?_ (le_abs_self _))
      linarith
    · refine le_trans (mul_le_mul_of_nonneg_right (min_le_right _ _) hpos.le) (le_trans ?_ (neg_le_abs _))
      linarith
  refine le_trans ?_ hz'
  rw [← sub_mul, abs_mul, abs_of_pos hpos]
  refine mul_le_mul_of_nonneg_right ?_ hpos.le
  rcases hr with ⟨rfl, hy⟩ | ⟨rfl, hy⟩
  · rw [abs_of_nonneg (by linarith), le_min_iff]
    constructor <;> linarith
  · push_cast
    rw [abs_of_nonpos (by linarith), le_min_iff]
    constructor <;> linarith

/-! ### Rounding a mantissa -/

/-- What a mantissa with its residual bits says about a number. -/
structure Locates (em : ExtendedMantissa) (y : ℝ) : Prop where
  le : em.mantissa ≤ y
  lt : y < em.mantissa + 1
  round : em.roundBit = true ↔ em.mantissa + 1 / 2 ≤ y
  sticky : em.stickyBit = false ↔ y = em.mantissa ∨ y = em.mantissa + 1 / 2

private theorem locates_exact (m : ℕ) : Locates (.ofMantissaAndAccuracy m .exact) m := by
  constructor <;> simp [ExtendedMantissa.ofMantissaAndAccuracy]

private theorem locates_lt {m : ℕ} {y : ℝ} (h : m < y) (h' : y < m + 1 / 2) :
    Locates (.ofMantissaAndAccuracy m (.inexact .lt)) y := by
  have hround : ¬ (m : ℝ) + 1 / 2 ≤ y := not_le_of_gt h'
  have hsticky : ¬ (y = m ∨ y = m + 1 / 2) := not_or.2 ⟨h.ne', h'.ne⟩
  have hlt : y < m + 1 := by linarith
  exact ⟨h.le, hlt, iff_of_false nofun hround, iff_of_false nofun hsticky⟩

private theorem locates_eq (m : ℕ) : Locates (.ofMantissaAndAccuracy m (.inexact .eq)) (m + 1 / 2) := by
  have hle : (m : ℝ) ≤ m + 1 / 2 := by linarith
  have hlt : (m : ℝ) + 1 / 2 < m + 1 := by linarith
  exact ⟨hle, hlt, iff_of_true rfl le_rfl, iff_of_true rfl (Or.inr rfl)⟩

private theorem locates_gt {m : ℕ} {y : ℝ} (h : m + 1 / 2 < y) (h' : y < m + 1) :
    Locates (.ofMantissaAndAccuracy m (.inexact .gt)) y := by
  have hle : (m : ℝ) ≤ y := by linarith
  have hsticky : ¬ (y = m ∨ y = m + 1 / 2) := not_or.2 ⟨by linarith, h.ne'⟩
  exact ⟨hle, h', iff_of_true rfl h.le, iff_of_false nofun hsticky⟩

private theorem Locates.halve {em : ExtendedMantissa} {y : ℝ} (h : Locates em y) :
    Locates em.shiftRightOne (y / 2) := by
  have hdiv : (em.mantissa : ℝ) = 2 * (em.mantissa / 2 : ℕ) + (em.mantissa % 2 : ℕ) := by
    exact_mod_cast (Nat.div_add_mod em.mantissa 2).symm
  have hle := h.le
  have hlt := h.lt
  have hsticky : (em.roundBit || em.stickyBit) = false ↔ y = em.mantissa := by
    rw [Bool.or_eq_false_iff, h.sticky, ← Bool.not_eq_true, h.round]
    constructor
    · rintro ⟨hy, he | he⟩
      · exact he
      · exact absurd he.ge hy
    · rintro he
      exact ⟨by linarith, Or.inl he⟩
  rcases Nat.mod_two_eq_zero_or_one em.mantissa with hmod | hmod <;> rw [hmod] at hdiv <;> push_cast at hdiv
  · refine ⟨?_, ?_, ?_, ?_⟩ <;> simp only [ExtendedMantissa.shiftRightOne]
    · linarith
    · linarith
    · rw [hmod]
      exact iff_of_false (by decide) (by linarith)
    · rw [hsticky]
      constructor
      · intro he
        exact Or.inl (by linarith)
      · rintro (he | he) <;> linarith
  · refine ⟨?_, ?_, ?_, ?_⟩ <;> simp only [ExtendedMantissa.shiftRightOne]
    · linarith
    · linarith
    · rw [hmod]
      exact iff_of_true (by decide) (by linarith)
    · rw [hsticky]
      constructor
      · intro he
        exact Or.inr (by linarith)
      · rintro (he | he) <;> linarith

private theorem shiftRight_succ (em : ExtendedMantissa) (k : ℕ) : em >>> (k + 1) = (em >>> k).shiftRightOne := rfl

private theorem Locates.shift {em : ExtendedMantissa} {y : ℝ} (h : Locates em y) (k : ℕ) :
    Locates (em >>> k) (y / 2 ^ k) := by
  induction k with
  | zero =>
    rw [pow_zero, div_one]
    exact h
  | succ k ih =>
    rw [shiftRight_succ, pow_succ, ← div_div]
    exact ih.halve

/-- The rounded mantissa is the nearer neighbour. -/
theorem Locates.rounded {em : ExtendedMantissa} {y : ℝ} (h : Locates em y) :
    em.roundedMantissa = em.mantissa ∧ y ≤ em.mantissa + 1 / 2 ∨
      em.roundedMantissa = em.mantissa + 1 ∧ em.mantissa + 1 / 2 ≤ y := by
  obtain ⟨m, round, sticky⟩ := em
  have hround := h.round
  have hsticky := h.sticky
  dsimp only at hround hsticky
  cases round <;> cases sticky
  · exact Or.inl ⟨rfl, le_of_not_ge fun hy => absurd (hround.2 hy) nofun⟩
  · exact Or.inl ⟨rfl, le_of_not_ge fun hy => absurd (hround.2 hy) nofun⟩
  · -- in the middle the even neighbour is taken
    have hy : y = m + 1 / 2 := (hsticky.1 rfl).resolve_left fun he => by have := hround.1 rfl; linarith
    show m + m % 2 = m ∧ y ≤ m + 1 / 2 ∨ m + m % 2 = m + 1 ∧ m + 1 / 2 ≤ y
    rcases Nat.mod_two_eq_zero_or_one m with hmod | hmod <;> rw [hmod]
    · exact Or.inl ⟨rfl, hy.le⟩
    · exact Or.inr ⟨rfl, hy.ge⟩
  · exact Or.inr ⟨rfl, hround.1 rfl⟩

private theorem shiftRight_mantissa (em : ExtendedMantissa) (k : ℕ) : (em >>> k).mantissa = em.mantissa / 2 ^ k := by
  induction k with
  | zero => exact (Nat.div_one _).symm
  | succ k ih => rw [shiftRight_succ, ExtendedMantissa.shiftRightOne, ih, Nat.div_div_eq_div_mul, pow_succ]

private theorem ofMantissaAndAccuracy_mantissa (m : ℕ) (acc : Accuracy) :
    (ExtendedMantissa.ofMantissaAndAccuracy m acc).mantissa = m := by
  cases acc with
  | exact => rfl
  | inexact o => cases o <;> rfl

private theorem targetExponent_eq {m : ℕ} {e : ℤ} (hm : 2 ^ 23 ≤ m) (he : -149 ≤ e) :
    Format.binary32.targetExponent (totalExponent m e) = e + (m.log2 - 23 : ℕ) := by
  have hlog : 23 ≤ m.log2 := (Nat.le_log2 (by omega)).2 hm
  simp only [Format.targetExponent, totalExponent, Format.mantissaBits, Format.minExponent]
  omega

private theorem shiftToTargetExponent_eq {m : ℕ} {e : ℤ} (hm : 2 ^ 23 ≤ m) (he : -149 ≤ e) (acc : Accuracy) :
    shiftToTargetExponent Format.binary32 m e acc =
      (ExtendedMantissa.ofMantissaAndAccuracy m acc >>> (m.log2 - 23), e + (m.log2 - 23 : ℕ)) := by
  have hk : (e + (m.log2 - 23 : ℕ) - e).toNat = m.log2 - 23 := by omega
  simp only [shiftToTargetExponent, targetExponent_eq hm he, shiftToExponent, hk]

/-- A mantissa that has 24 bits, or that is the power of two behind them, keeps its value. -/
private theorem shiftToTargetExponent_rounded {r : ℕ} {e : ℤ} (hr : 2 ^ 23 ≤ r) (hr' : r ≤ 2 ^ 24) (he : -149 ≤ e) :
    ∃ (m : ℕ) (k : ℕ), (shiftToTargetExponent Format.binary32 r e .exact).1.mantissa = m ∧
      (shiftToTargetExponent Format.binary32 r e .exact).2 = e + k ∧ 2 ^ 23 ≤ m ∧ m < 2 ^ 24 ∧ m * 2 ^ k = r := by
  rw [shiftToTargetExponent_eq hr he]
  dsimp only
  rw [shiftRight_mantissa, ofMantissaAndAccuracy_mantissa]
  rcases eq_or_lt_of_le hr' with rfl | hlt
  · rw [Nat.log2_two_pow]
    exact ⟨2 ^ 23, 1, by norm_num, rfl, le_rfl, by norm_num, by norm_num⟩
  · have hlog : r.log2 = 23 := (Nat.log2_eq_iff (by omega)).2 ⟨hr, hlt⟩
    rw [hlog]
    exact ⟨r, 0, by simp, rfl, hr, hlt, by simp⟩

/-- A positive number of 24 bits in the range of the format. -/
structure Normal (f : Float32.Model) (m : ℕ) (e : ℤ) : Prop where
  unpack : ∃ h : 0 < m, f.unpack = .finite .positive m e h
  le_mantissa : 2 ^ 23 ≤ m
  mantissa_lt : m < 2 ^ 24
  le_exponent : -149 ≤ e
  exponent_le : e ≤ 104

/-- The format has the number as a positive normal one. -/
def HasValue (f : Float32.Model) (v : ℝ) : Prop := ∃ (m : ℕ) (e : ℤ), Normal f m e ∧ v = m * 2 ^ e

private theorem unpack_packComponents {spec : Format} {e : BitVec spec.exponentBits}
    {m : BitVec spec.mantissaBitsWithoutImplicit} (he : e ≠ -1#_) (he' : e ≠ 0#_) :
    UnpackedFloat.unpack spec (packComponents spec .positive e m) =
      .finite .positive (1#1 ++ m).toNat ((e.toNat : ℤ) - (spec.exponentBias + spec.mantissaBitsWithoutImplicit))
        (by simp) := by
  unfold UnpackedFloat.unpack
  simp only [unpackExponent_packComponents, unpackMantissa_packComponents, unpackSign_packComponents, if_neg he, if_neg he']
  rfl

private theorem toNat_implicit {m : ℕ} (hlo : 2 ^ 23 ≤ m) (hhi : m < 2 ^ 24) : (1#1 ++ BitVec.ofNat 23 m).toNat = m := by
  rw [BitVec.toNat_append, ← Nat.shiftLeft_add_eq_or_of_lt (BitVec.isLt _), BitVec.toNat_ofNat, BitVec.toNat_ofNat,
    Nat.shiftLeft_eq]
  omega

private theorem unpack_pack (f : UnpackedFloat) : (Float32.Model.pack f).unpack =
    UnpackedFloat.unpack Format.binary32 (UnpackedFloat.pack Format.binary32 f) := rfl

private theorem pack_eq {m k : ℕ} (hm : 0 < m) (hlog : m.log2 = 23) (hk : k ≤ 254) :
    UnpackedFloat.pack Format.binary32 (.finite .positive m ((k : ℤ) - 150) hm) =
      packComponents Format.binary32 .positive (BitVec.ofNat 8 k) (BitVec.ofNat 23 m) := by
  have hbias : Format.binary32.exponentBias = 127 := by decide
  have he : ((k : ℤ) - 150 + (Format.binary32.exponentBias : ℕ) + (23 : ℕ)).toNat = k := by
    rw [hbias]
    omega
  unfold UnpackedFloat.pack
  rw [he, hlog, if_neg (show ¬ 2 ^ 8 ≤ k + 1 by omega)]
  rfl

private theorem normal_pack {m : ℕ} {e : ℤ} (hm : 0 < m) (hlo : 2 ^ 23 ≤ m) (hhi : m < 2 ^ 24) (he : -149 ≤ e)
    (he' : e ≤ 104) :
    Normal (.pack (.finite .positive m e hm)) m e := by
  have hlog : m.log2 = 23 := (Nat.log2_eq_iff (by omega)).2 ⟨hlo, hhi⟩
  obtain ⟨k, rfl⟩ : ∃ k : ℕ, e = (k : ℤ) - 150 := ⟨(e + 150).toNat, by omega⟩
  refine ⟨⟨hm, ?_⟩, hlo, hhi, he, he'⟩
  have hk : (BitVec.ofNat 8 k).toNat = k := by
    rw [BitVec.toNat_ofNat]
    omega
  have hmax : BitVec.ofNat 8 k ≠ -1#8 := fun h => by
    have h := congrArg BitVec.toNat h
    rw [hk] at h
    have h255 : (-1#8).toNat = 255 := by decide
    omega
  have hzero : BitVec.ofNat 8 k ≠ 0#8 := fun h => by
    have h := congrArg BitVec.toNat h
    rw [hk] at h
    have h0 : (0#8).toNat = 0 := by decide
    omega
  rw [unpack_pack, pack_eq hm hlog (by omega), unpack_packComponents hmax hzero]
  congr 1
  · exact toNat_implicit hlo hhi
  · have hbias : Format.binary32.exponentBias = 127 := by decide
    rw [hbias]
    show ((BitVec.ofNat 8 k).toNat : ℤ) - ((127 : ℕ) + (23 : ℕ)) = k - 150
    omega

/-- A number up to which the format does not overflow. -/
private theorem exponent_le_of_le {m : ℕ} {e : ℤ} (hm : 2 ^ 23 ≤ m) (h : (m : ℝ) * 2 ^ e ≤ 2 ^ (126 : ℤ)) : e ≤ 103 := by
  have hm' : (2 : ℝ) ^ (23 : ℤ) ≤ m := by exact_mod_cast hm
  have hle : (2 : ℝ) ^ (23 + e) ≤ 2 ^ (126 : ℤ) := by
    rw [zpow_add₀ two_ne_zero]
    exact le_trans (mul_le_mul_of_nonneg_right hm' (zpow_pos two_pos e).le) h
  have := (zpow_le_zpow_iff_right₀ one_lt_two).1 hle
  omega

private theorem roundWithAccuracy_rounds {y : ℝ} {m : ℕ} {e : ℤ} {acc : Accuracy} (hm : 2 ^ 23 ≤ m) (he : -149 ≤ e)
    (hy : Locates (.ofMantissaAndAccuracy m acc) y) (hx : y * 2 ^ e ≤ 2 ^ (126 : ℤ)) :
    ∃ v, HasValue (.pack (roundWithAccuracy Format.binary32 .positive m e acc)) v ∧ Rounds (y * 2 ^ e) v := by
  have hlog : 23 ≤ m.log2 := (Nat.le_log2 (by omega)).2 hm
  have hfirst := shiftToTargetExponent_eq hm he acc
  set k := m.log2 - 23 with hk
  set em := ExtendedMantissa.ofMantissaAndAccuracy m acc >>> k with hem
  have hmantissa : em.mantissa = m / 2 ^ k := by
    rw [hem, shiftRight_mantissa, ofMantissaAndAccuracy_mantissa]
  have hlo : 2 ^ 23 ≤ em.mantissa := by
    rw [hmantissa, Nat.le_div_iff_mul_le (Nat.two_pow_pos _), ← pow_add, show 23 + k = m.log2 by omega]
    exact Nat.log2_self_le (by omega)
  have hhi : em.mantissa < 2 ^ 24 := by
    rw [hmantissa, Nat.div_lt_iff_lt_mul (Nat.two_pow_pos _), ← pow_add, show 24 + k = m.log2 + 1 by omega]
    exact Nat.lt_log2_self
  -- the first shift leaves 24 bits, and the others round them
  have hshift : Locates em (y / 2 ^ k) := hy.shift k
  have hrounds := rounds_of_neighbour (e + k) hlo hshift.le hshift.lt hshift.rounded
  have hscale : y / 2 ^ k * 2 ^ (e + k) = y * 2 ^ e := by
    rw [zpow_add₀ two_ne_zero, zpow_natCast]
    field_simp
  rw [hscale] at hrounds
  have hr : 2 ^ 23 ≤ em.roundedMantissa ∧ em.roundedMantissa ≤ 2 ^ 24 := by
    rcases hshift.rounded with ⟨hr, -⟩ | ⟨hr, -⟩ <;> omega
  -- the second shift is for the case that the mantissa has been rounded to a power of two
  obtain ⟨m', k', hm', hk', hlo', hhi', hval⟩ := shiftToTargetExponent_rounded (e := e + k) hr.1 hr.2 (by omega)
  have hvalue : (m' : ℝ) * 2 ^ (e + k + k') = em.roundedMantissa * 2 ^ (e + k) := by
    rw [← hval, zpow_add₀ two_ne_zero (e + k), zpow_natCast]
    push_cast
    ring
  have hresult : roundWithAccuracy Format.binary32 .positive m e acc =
      .finite .positive m' (e + k + k') (by omega) := by
    simp only [roundWithAccuracy, hfirst, hm', hk', dif_neg (show m' ≠ 0 by omega)]
  have hexp : e + k + k' ≤ 103 := by
    apply exponent_le_of_le hlo'
    rw [hvalue]
    exact hrounds.ge_of_ge (representable_zpow 126) hx
  refine ⟨m' * 2 ^ (e + k + k'), ⟨m', _, ?_, rfl⟩, ?_⟩
  · rw [hresult]
    exact normal_pack _ hlo' hhi' (by omega) (by omega)
  · rw [hvalue]
    exact hrounds

/-! ### The operations -/

theorem HasValue.pos {f : Float32.Model} {v : ℝ} (h : HasValue f v) : 0 < v := by
  obtain ⟨m, e, hf, rfl⟩ := h
  obtain ⟨hm, -⟩ := hf.unpack
  exact mul_pos (by exact_mod_cast hm) (zpow_pos two_pos e)

theorem HasValue.unique {f : Float32.Model} {v w : ℝ} (h : HasValue f v) (h' : HasValue f w) : v = w := by
  obtain ⟨m, e, hm, rfl⟩ := h
  obtain ⟨n, d, hn, rfl⟩ := h'
  obtain ⟨_, hmu⟩ := hm.unpack
  obtain ⟨_, hnu⟩ := hn.unpack
  have heq := hmu.symm.trans hnu
  injection heq with _ hmn hed
  rw [hmn, hed]

theorem HasValue.representable {f : Float32.Model} {v : ℝ} (h : HasValue f v) : Representable v := by
  obtain ⟨m, e, hf, rfl⟩ := h
  exact ⟨m, e, hf.mantissa_lt.le, rfl⟩

private theorem round_rounds {m : ℕ} {e : ℤ} (hm : 1 ≤ m) (he : -149 ≤ e) (hle : 2 ^ (-125 : ℤ) ≤ (m * 2 ^ e : ℝ))
    (hle' : (m * 2 ^ e : ℝ) ≤ 2 ^ (126 : ℤ)) :
    ∃ v, HasValue (.pack (UnpackedFloat.round Format.binary32 .positive m e)) v ∧ Rounds (m * 2 ^ e) v := by
  have hlog : -125 ≤ m.log2 + e := by
    have hlt : (m : ℝ) < 2 ^ (m.log2 + 1 : ℤ) := by exact_mod_cast Nat.lt_log2_self
    have hlt' : (2 : ℝ) ^ (-125 : ℤ) < 2 ^ (m.log2 + 1 + e : ℤ) := by
      rw [zpow_add₀ two_ne_zero _ e]
      exact lt_of_le_of_lt hle (mul_lt_mul_of_pos_right hlt (zpow_pos two_pos e))
    have := (zpow_lt_zpow_iff_right₀ one_lt_two).1 hlt'
    omega
  -- the mantissa gets 24 bits
  set k := 23 - m.log2 with hk
  have htarget : Format.binary32.targetExponent (totalExponent m e) = m.log2 + e - 23 := by
    simp only [Format.targetExponent, totalExponent, Format.mantissaBits, Format.minExponent]
    omega
  have hround : UnpackedFloat.round Format.binary32 .positive m e =
      roundWithAccuracy Format.binary32 .positive (m <<< k) (e - k) .exact := by
    have hshift : (e - (m.log2 + e - 23)).toNat = k := by omega
    simp only [UnpackedFloat.round, htarget, decreaseExponent, hshift]
  have hbits : 2 ^ 23 ≤ m <<< k := by
    rw [Nat.shiftLeft_eq]
    calc 2 ^ 23 ≤ 2 ^ (m.log2 + k) := Nat.pow_le_pow_right two_pos (by omega)
      _ = 2 ^ m.log2 * 2 ^ k := pow_add ..
      _ ≤ m * 2 ^ k := Nat.mul_le_mul_right _ (Nat.log2_self_le (by omega))
  have hvalue : ((m <<< k : ℕ) : ℝ) * 2 ^ (e - k) = m * 2 ^ e := by
    rw [Nat.shiftLeft_eq, zpow_sub₀ two_ne_zero, zpow_natCast]
    push_cast
    field_simp
  rw [hround, ← hvalue]
  exact roundWithAccuracy_rounds hbits (by omega) (locates_exact _) (by rw [hvalue]; exact hle')

/-- Conversion of an integer. -/
theorem ofInt_rounds {n : ℕ} (hn : 1 ≤ n) (hn' : n < 2 ^ 64) :
    ∃ v, HasValue (Float32.Model.ofInt n) v ∧ Rounds n v := by
  have hone : (1 : ℝ) ≤ n := by exact_mod_cast hn
  have hmax : (n : ℝ) ≤ 2 ^ 64 := by exact_mod_cast hn'.le
  have hvalue : (n : ℝ) * 2 ^ (0 : ℤ) = n := by simp
  have hround : UnpackedFloat.ofInt Format.binary32 n = UnpackedFloat.round Format.binary32 .positive n 0 := by
    have hcmp : compare (n : ℤ) 0 = .gt := compare_gt_iff_gt.2 (by omega)
    simp only [UnpackedFloat.ofInt, UnpackedFloat.normalize, hcmp, Int.toNat_natCast]
  have h := round_rounds (m := n) (e := 0) hn (by omega) (by rw [hvalue]; norm_num; linarith)
    (by rw [hvalue]; norm_num; linarith)
  rwa [hvalue, ← hround] at h

/-- Up to `2 ^ 24` the conversion is exact. -/
theorem ofInt_exact {n : ℕ} (hn : 1 ≤ n) (hn' : n ≤ 2 ^ 24) : HasValue (Float32.Model.ofInt n) n := by
  obtain ⟨v, hv, hr⟩ := ofInt_rounds hn (by omega)
  rwa [hr.eq_of_representable (representable_natCast hn')] at hv

private theorem log2_eq {f : Float32.Model} {m : ℕ} {e : ℤ} (h : Normal f m e) : m.log2 = 23 :=
  (Nat.log2_eq_iff (by have := h.le_mantissa; omega)).2 ⟨h.le_mantissa, h.mantissa_lt⟩

/-- The remainder says on which side of the middle an exact quotient lies. -/
private theorem locates_div {m n : ℕ} (hn : 0 < n) :
    Locates (.ofMantissaAndAccuracy (m / n) (accuracyOfFraction (m % n) n)) (m / n : ℝ) := by
  have hn' : (0 : ℝ) < n := by exact_mod_cast hn
  have hlt : ((m % n : ℕ) : ℝ) < n := by exact_mod_cast Nat.mod_lt m hn
  have hdiv : (m / n : ℝ) = (m / n : ℕ) + (m % n : ℕ) / n := by
    rw [div_eq_iff hn'.ne', add_mul, div_mul_cancel₀ _ hn'.ne']
    exact_mod_cast (Nat.div_add_mod' m n).symm
  rw [hdiv, accuracyOfFraction]
  split
  · rename_i hmod
    rw [hmod, Nat.cast_zero, zero_div, add_zero]
    exact locates_exact _
  · rename_i hmod
    have hpos : (0 : ℝ) < (m % n : ℕ) / n := div_pos (by exact_mod_cast Nat.pos_of_ne_zero hmod) hn'
    have hone : ((m % n : ℕ) : ℝ) / n < 1 := (div_lt_one hn').2 hlt
    rcases lt_trichotomy (2 * (m % n)) n with h | h | h
    · have hhalf : ((m % n : ℕ) : ℝ) / n < 1 / 2 := by
        rw [div_lt_div_iff₀ hn' two_pos]
        exact_mod_cast (show m % n * 2 < 1 * n by omega)
      rw [compare_lt_iff_lt.2 h]
      exact locates_lt (by linarith) (by linarith)
    · have hhalf : ((m % n : ℕ) : ℝ) / n = 1 / 2 := by
        rw [div_eq_div_iff hn'.ne' two_ne_zero]
        exact_mod_cast (show m % n * 2 = 1 * n by omega)
      rw [compare_eq_iff_eq.2 h, hhalf]
      exact locates_eq _
    · have hhalf : (1 : ℝ) / 2 < (m % n : ℕ) / n := by
        rw [div_lt_div_iff₀ two_pos hn']
        exact_mod_cast (show 1 * n < m % n * 2 by omega)
      rw [compare_gt_iff_gt.2 h]
      exact locates_gt (by linarith) (by linarith)

private theorem div_eq {f g : Float32.Model} {m n : ℕ} {e d : ℤ} (hf : Normal f m e) (hg : Normal g n d)
    (hexp : -125 ≤ e - d) : f / g = .pack (roundWithAccuracy Format.binary32 .positive ((m <<< 24) / n) (e - d - 24)
      (accuracyOfFraction ((m <<< 24) % n) n)) := by
  obtain ⟨hm, hfu⟩ := hf.unpack
  obtain ⟨hn, hgu⟩ := hg.unpack
  have htarget : Format.binary32.targetExponent (totalExponent m e - totalExponent n d) = e - d - 24 := by
    simp only [Format.targetExponent, totalExponent, Format.mantissaBits, Format.minExponent, log2_eq hf, log2_eq hg]
    omega
  have hcore : divCore Format.binary32 m e n d =
      ((m <<< 24) / n, e - d - 24, accuracyOfFraction ((m <<< 24) % n) n) := by
    simp only [divCore, htarget]
    rw [show min (e - d) (e - d - 24) = e - d - 24 by omega, show (e - d - (e - d - 24)).toNat = 24 by omega]
  have hsign : Sign.positive / Sign.positive = Sign.positive := rfl
  show Float32.Model.div f g = _
  simp only [Float32.Model.div, hfu, hgu, UnpackedFloat.div, hcore, hsign]

/-- Division. -/
theorem div_rounds {f g : Float32.Model} {v w : ℝ} (hf : HasValue f v) (hg : HasValue g w) (hle : 2 ^ (-125 : ℤ) ≤ v / w)
    (hle' : v / w ≤ 2 ^ (126 : ℤ)) : ∃ q, HasValue (f / g) q ∧ Rounds (v / w) q := by
  obtain ⟨m, e, hf, rfl⟩ := hf
  obtain ⟨n, d, hg, rfl⟩ := hg
  obtain ⟨hn, -⟩ := hg.unpack
  have hn' : (0 : ℝ) < n := by exact_mod_cast hn
  have hquot : (m * 2 ^ e / (n * 2 ^ d) : ℝ) = ((m <<< 24 : ℕ) : ℝ) / n * 2 ^ (e - d - 24) := by
    rw [mul_div_mul_comm, ← zpow_sub₀ two_ne_zero, zpow_sub₀ two_ne_zero (e - d), Nat.shiftLeft_eq]
    push_cast
    field_simp
    norm_num
  -- the quotient of the mantissas is less than two
  have hexp : -125 ≤ e - d := by
    have hmn : (m : ℝ) / n < 2 := by
      rw [div_lt_iff₀ hn']
      exact_mod_cast (show m < 2 * n by have := hf.mantissa_lt; have := hg.le_mantissa; omega)
    have hlt : (2 : ℝ) ^ (-125 : ℤ) < 2 ^ (e - d + 1) := by
      calc (2 : ℝ) ^ (-125 : ℤ) ≤ m / n * 2 ^ (e - d) := by
            rw [zpow_sub₀ two_ne_zero, div_mul_div_comm]
            exact hle
        _ < 2 * 2 ^ (e - d) := mul_lt_mul_of_pos_right hmn (zpow_pos two_pos _)
        _ = 2 ^ (e - d + 1) := by rw [zpow_add₀ two_ne_zero, zpow_one, mul_comm]
    have := (zpow_lt_zpow_iff_right₀ one_lt_two).1 hlt
    omega
  rw [div_eq hf hg hexp, hquot]
  rw [hquot] at hle'
  refine roundWithAccuracy_rounds ?_ (by omega) (locates_div hn) hle'
  rw [Nat.shiftLeft_eq, Nat.le_div_iff_mul_le hn]
  have := hf.le_mantissa
  have := hg.mantissa_lt
  omega

/-- The remainder says on which side of the middle an exact root lies; it is never in the middle. -/
private theorem locates_sqrt (m : ℕ) :
    Locates (.ofMantissaAndAccuracy m.sqrt (if m - m.sqrt * m.sqrt = 0 then .exact else
      .inexact (if m - m.sqrt * m.sqrt ≤ m.sqrt then .lt else .gt))) √m := by
  have hle := Nat.sqrt_le m
  have hlt := Nat.lt_succ_sqrt m
  have hroot : (0 : ℝ) ≤ m.sqrt := Nat.cast_nonneg _
  split
  · rename_i hrem
    have hm : (m : ℝ) = m.sqrt * m.sqrt := by exact_mod_cast (show m = m.sqrt * m.sqrt by omega)
    have hexact : √m = m.sqrt := by
      rw [hm, Real.sqrt_mul_self hroot]
    rw [hexact]
    exact locates_exact _
  · rename_i hrem
    have hlow : (m.sqrt : ℝ) < √m := by
      apply Real.lt_sqrt_of_sq_lt
      rw [sq]
      exact_mod_cast (show m.sqrt * m.sqrt < m by omega)
    have hhigh : √m < m.sqrt + 1 := by
      rw [Real.sqrt_lt' (by linarith), sq]
      exact_mod_cast hlt
    split
    · rename_i hhalf
      have hm : (m : ℝ) ≤ m.sqrt * m.sqrt + m.sqrt := by exact_mod_cast (show m ≤ m.sqrt * m.sqrt + m.sqrt by omega)
      refine locates_lt hlow ?_
      rw [Real.sqrt_lt' (by linarith)]
      nlinarith
    · rename_i hhalf
      have hm : (m.sqrt * m.sqrt + m.sqrt + 1 : ℝ) ≤ m := by
        exact_mod_cast (show m.sqrt * m.sqrt + m.sqrt + 1 ≤ m by omega)
      refine locates_gt ?_ hhigh
      apply Real.lt_sqrt_of_sq_lt
      nlinarith

private theorem add_rounds {f g : Float32.Model} {v w : ℝ} (hf : HasValue f v) (hg : HasValue g w)
    (hle : v + w ≤ 2 ^ (126 : ℤ)) :
    ∃ u, HasValue (f + g) u ∧ Rounds (v + w) u := by
  obtain ⟨m, e, hf, rfl⟩ := hf
  obtain ⟨n, d, hg, rfl⟩ := hg
  obtain ⟨hm, hfu⟩ := hf.unpack
  obtain ⟨hn, hgu⟩ := hg.unpack
  have h₁ := hf.le_exponent
  have h₂ := hg.le_exponent
  -- both mantissas are taken at the smaller exponent
  set a := min e d with ha
  set sum := m <<< (e - a).toNat + n <<< (d - a).toNat with hsum
  have hadd : f + g = .pack (UnpackedFloat.round Format.binary32 .positive sum a) := by
    have hpos : compare ((m <<< (e - a).toNat : ℕ) + (n <<< (d - a).toNat : ℕ) : ℤ) 0 = .gt := by
      rw [compare_gt_iff_gt, Nat.shiftLeft_eq, Nat.shiftLeft_eq]
      positivity
    show Float32.Model.add f g = _
    simp only [Float32.Model.add, hfu, hgu, UnpackedFloat.add, ← ha, decreaseExponent, Sign.apply, UnpackedFloat.normalize, hpos]
    rw [← Int.natCast_add, Int.toNat_natCast]
  have hshift : ∀ (k : ℕ) (c : ℤ), a ≤ c → ((k <<< (c - a).toNat : ℕ) : ℝ) * 2 ^ a = k * 2 ^ c := by
    intro k c hc
    rw [Nat.shiftLeft_eq]
    push_cast
    rw [← zpow_natCast, mul_assoc, ← zpow_add₀ two_ne_zero, show ((c - a).toNat : ℤ) + a = c by omega]
  have hvalue : ((sum : ℕ) : ℝ) * 2 ^ a = m * 2 ^ e + n * 2 ^ d := by
    rw [hsum, Nat.cast_add, add_mul, hshift m e (by omega), hshift n d (by omega)]
  have hbits : 2 ^ 24 ≤ sum := by
    have hlo := hf.le_mantissa
    have hlo' := hg.le_mantissa
    have hmle : m ≤ m <<< (e - a).toNat := by
      rw [Nat.shiftLeft_eq]
      exact Nat.le_mul_of_pos_right _ (Nat.two_pow_pos _)
    have hnle : n ≤ n <<< (d - a).toNat := by
      rw [Nat.shiftLeft_eq]
      exact Nat.le_mul_of_pos_right _ (Nat.two_pow_pos _)
    omega
  rw [hadd, ← hvalue]
  refine round_rounds (by omega) (by omega) ?_ (by rw [hvalue]; exact hle)
  have hbits' : (2 : ℝ) ^ (24 : ℤ) ≤ sum := by exact_mod_cast hbits
  calc (2 : ℝ) ^ (-125 : ℤ) = 2 ^ (24 : ℤ) * 2 ^ (-149 : ℤ) := by
        rw [← zpow_add₀ two_ne_zero]
        norm_num
    _ ≤ sum * 2 ^ a :=
        mul_le_mul hbits' (zpow_le_zpow_right₀ one_le_two (by omega)) (zpow_pos two_pos _).le (Nat.cast_nonneg _)

/-- The square root. -/
theorem sqrt_rounds {f : Float32.Model} {v : ℝ} (hf : HasValue f v) :
    ∃ w, HasValue f.sqrt w ∧ Rounds (√v) w := by
  obtain ⟨m, e, hf, rfl⟩ := hf
  obtain ⟨hm, hfu⟩ := hf.unpack
  have h₁ := hf.le_exponent
  have h₂ := hf.exponent_le
  -- half of the exponent, and the bits that the mantissa gets for the other half
  set t := (e + 25) / 2 - 24 with ht
  set k := (e - 2 * t).toNat with hk
  have hcore : sqrtCore Format.binary32 m e = ((m <<< k).sqrt, t, if m <<< k - (m <<< k).sqrt * (m <<< k).sqrt = 0 then
      .exact else .inexact (if m <<< k - (m <<< k).sqrt * (m <<< k).sqrt ≤ (m <<< k).sqrt then .lt else .gt)) := by
    have htarget : Format.binary32.targetExponent ((totalExponent m e + 1).ediv 2) = t := by
      simp only [Format.targetExponent, totalExponent, Format.mantissaBits, Format.minExponent, log2_eq hf]
      show max ((((23 : ℕ) : ℤ) + 1 + e + 1) / 2 - _) _ = _
      omega
    have hmin : min (e.ediv 2) t = t := by
      show min (e / 2) t = t
      omega
    simp only [sqrtCore, htarget, hmin, ← hk]
  have hsqrt : f.sqrt = .pack (roundWithAccuracy Format.binary32 .positive (m <<< k).sqrt t
      (if m <<< k - (m <<< k).sqrt * (m <<< k).sqrt = 0 then .exact else
        .inexact (if m <<< k - (m <<< k).sqrt * (m <<< k).sqrt ≤ (m <<< k).sqrt then .lt else .gt))) := by
    rw [Float32.Model.sqrt, hfu, UnpackedFloat.sqrt, hcore]
  have hroot : √(m * 2 ^ e) = √((m <<< k : ℕ) : ℝ) * 2 ^ t := by
    rw [Nat.shiftLeft_eq, Real.sqrt_eq_iff_mul_self_eq (mul_nonneg m.cast_nonneg (zpow_pos two_pos e).le)
      (mul_nonneg (Real.sqrt_nonneg _) (zpow_pos two_pos t).le), mul_mul_mul_comm,
      Real.mul_self_sqrt (Nat.cast_nonneg _), ← zpow_add₀ two_ne_zero]
    push_cast
    rw [← zpow_natCast, mul_assoc, ← zpow_add₀ two_ne_zero]
    congr 2
    omega
  rw [hsqrt, hroot]
  refine roundWithAccuracy_rounds ?_ (by omega) (locates_sqrt _) ?_
  · -- the mantissa has at least 46 bits
    rw [Nat.le_sqrt, Nat.shiftLeft_eq]
    calc 2 ^ 23 * 2 ^ 23 ≤ m * 2 ^ 23 := Nat.mul_le_mul_right _ hf.le_mantissa
      _ ≤ m * 2 ^ k := Nat.mul_le_mul_left _ (Nat.pow_le_pow_right two_pos (by omega))
  · rw [← hroot, Real.sqrt_le_iff]
    refine ⟨(zpow_pos two_pos _).le, ?_⟩
    have hm' : (m : ℝ) ≤ 2 ^ (24 : ℤ) := by exact_mod_cast hf.mantissa_lt.le
    calc (m : ℝ) * 2 ^ e ≤ 2 ^ (24 : ℤ) * 2 ^ (104 : ℤ) :=
          mul_le_mul hm' (zpow_le_zpow_right₀ one_le_two h₂) (zpow_pos two_pos _).le (zpow_pos two_pos _).le
      _ ≤ (2 ^ (126 : ℤ)) ^ 2 := by norm_num

/-- The smallest integer that is not below the number, as the format has it; a number with an exponent that is not negative
is an integer. -/
def ceil (f : Float32.Model) : Float32.Model :=
  match f.unpack with
  | .finite .positive m e _ => if 0 ≤ e then f else .ofNat (m ⌈/⌉ 2 ^ (-e).toNat)
  | .finite .negative m e _ => if 0 ≤ e then f else (Float32.Model.ofNat (m / 2 ^ (-e).toNat)).neg
  | _ => f

/-- `ceil` does not round. -/
theorem ceil_value {f : Float32.Model} {v : ℝ} (hf : HasValue f v) : HasValue (ceil f) ⌈v⌉₊ := by
  obtain ⟨m, e, hf, rfl⟩ := hf
  obtain ⟨hm, hfu⟩ := hf.unpack
  rw [ceil, hfu]
  dsimp only
  by_cases he : 0 ≤ e
  · rw [if_pos he]
    obtain ⟨k, rfl⟩ := Int.eq_ofNat_of_zero_le he
    have hint : (m * 2 ^ (k : ℤ) : ℝ) = (m * 2 ^ k : ℕ) := by push_cast; rw [zpow_natCast]
    refine ⟨m, k, hf, ?_⟩
    rw [hint, Nat.ceil_natCast]
  · rw [if_neg he]
    obtain ⟨k, rfl⟩ : ∃ k : ℕ, e = -(k : ℤ) := ⟨(-e).toNat, by omega⟩
    rw [neg_neg, Int.toNat_natCast]
    have hpow : (0 : ℝ) < 2 ^ k := pow_pos two_pos k
    have hceil : ⌈(m * 2 ^ (-(k : ℤ)) : ℝ)⌉₊ = m ⌈/⌉ 2 ^ k := by
      refine eq_of_forall_ge_iff fun c => ?_
      rw [Nat.ceil_le, ceilDiv_le_iff_le_mul (Nat.two_pow_pos k), zpow_neg, zpow_natCast, ← div_eq_mul_inv,
        div_le_iff₀ hpow, mul_comm]
      norm_cast
    rw [hceil]
    refine ofInt_exact (Nat.one_le_iff_ne_zero.2 fun h => ?_) ?_
    · have := (ceilDiv_le_iff_le_mul (Nat.two_pow_pos k)).1 h.le
      omega
    · rw [ceilDiv_le_iff_le_mul (Nat.two_pow_pos k)]
      exact le_trans hf.mantissa_lt.le (Nat.le_mul_of_pos_left _ (Nat.two_pow_pos k))

private theorem value_lt {m n : ℕ} {e d : ℤ} (hm : m < 2 ^ 24) (hn : 2 ^ 23 ≤ n) (h : e < d) :
    (m : ℝ) * 2 ^ e < n * 2 ^ d := by
  have hm' : (m : ℝ) < 2 ^ 24 := by exact_mod_cast hm
  have hn' : (2 : ℝ) ^ 23 ≤ n := by exact_mod_cast hn
  calc (m : ℝ) * 2 ^ e < 2 ^ 24 * 2 ^ e := mul_lt_mul_of_pos_right hm' (zpow_pos two_pos e)
    _ = 2 ^ 23 * 2 ^ (e + 1) := by
        rw [zpow_add₀ two_ne_zero, zpow_one]
        ring
    _ ≤ 2 ^ 23 * 2 ^ d := mul_le_mul_of_nonneg_left (zpow_le_zpow_right₀ one_le_two (by omega)) (by positivity)
    _ ≤ n * 2 ^ d := mul_le_mul_of_nonneg_right hn' (zpow_pos two_pos d).le

/-- Numbers are compared by their exponents, and then by their mantissas. -/
theorem lt_iff {f g : Float32.Model} {v w : ℝ} (hf : HasValue f v) (hg : HasValue g w) : f < g ↔ v < w := by
  obtain ⟨m, e, hf, rfl⟩ := hf
  obtain ⟨n, d, hg, rfl⟩ := hg
  obtain ⟨hm, hfu⟩ := hf.unpack
  obtain ⟨hn, hgu⟩ := hg.unpack
  have hlt : f < g ↔ e < d ∨ e = d ∧ m < n := by
    show (f.unpack.compare g.unpack == some .lt) = true ↔ _
    rw [hfu, hgu]
    show (some ((compare e d).then (compare m n)) == some .lt) = true ↔ _
    rw [beq_iff_eq, Option.some_inj, Ordering.then_eq_lt, compare_lt_iff_lt, compare_eq_iff_eq, compare_lt_iff_lt]
  rw [hlt]
  rcases lt_trichotomy e d with h | rfl | h
  · simp only [h, true_or, true_iff]
    exact value_lt hf.mantissa_lt hg.le_mantissa h
  · simp only [lt_irrefl, false_or, true_and]
    rw [mul_lt_mul_iff_left₀ (zpow_pos two_pos e), Nat.cast_lt]
  · simp only [not_lt_of_gt h, ne_of_gt h, false_and, or_false, false_iff, not_lt]
    exact (value_lt hg.mantissa_lt hf.le_mantissa h).le

/-- The conversion to an integer drops no digit of an integer. -/
theorem toInt32_natCast {f : Float32.Model} {n : ℕ} (hf : HasValue f n) (hn : n < 2 ^ 31) : f.toInt32.toInt = n := by
  obtain ⟨m, e, hf, hval⟩ := hf
  obtain ⟨hm, hfu⟩ := hf.unpack
  have hround : roundToInt .positive m e = n := by
    show (((⟨m <<< (e - 0).toNat, false, false⟩ : ExtendedMantissa) >>> (0 - (e - ((e - 0).toNat : ℤ))).toNat).mantissa :
      ℤ) = n
    rw [shiftRight_mantissa, Nat.shiftLeft_eq]
    rcases le_or_gt 0 e with he | he
    · obtain ⟨k, rfl⟩ := Int.eq_ofNat_of_zero_le he
      have hm' : n = m * 2 ^ k := by
        rw [zpow_natCast] at hval
        exact_mod_cast hval
      simp [hm']
    · obtain ⟨k, rfl⟩ : ∃ k : ℕ, e = -(k : ℤ) := ⟨(-e).toNat, by omega⟩
      have hm' : m = n * 2 ^ k := by
        rw [zpow_neg, zpow_natCast, ← div_eq_mul_inv, eq_div_iff (by positivity)] at hval
        exact_mod_cast hval.symm
      rw [show (0 - (-(k : ℤ) - ((-(k : ℤ) - 0).toNat : ℤ))).toNat = k by omega, show (-(k : ℤ) - 0).toNat = 0 by omega,
        pow_zero, mul_one, hm', Nat.mul_div_cancel _ (Nat.two_pow_pos k)]
  rw [Float32.Model.toInt32, hfu, UnpackedFloat.toInt32, UnpackedFloat.toInt, hround, Int32.toInt_ofIntClamp]
  · show -2147483648 ≤ (n : ℤ)
    omega
  · show (n : ℤ) ≤ 2147483647
    omega

/-! ### Natural numbers -/

/-- The format has the natural number, zero included. -/
def HasNat (f : Float32.Model) (n : ℕ) : Prop := n = 0 ∧ f = Float32.Model.ofInt 0 ∨ HasValue f n

private theorem hasNat_ofInt {n : ℕ} (h : n ≤ 2 ^ 24) : HasNat (Float32.Model.ofInt n) n := by
  rcases Nat.eq_zero_or_pos n with rfl | hn
  · exact Or.inl ⟨rfl, rfl⟩
  · exact Or.inr (ofInt_exact hn h)

private theorem unpack_zero : (Float32.Model.ofInt 0).unpack = .zero .positive := rfl

private theorem HasValue.pack_unpack {f : Float32.Model} {v : ℝ} (h : HasValue f v) : HasValue (.pack f.unpack) v := by
  obtain ⟨m, e, hf, rfl⟩ := h
  obtain ⟨hm, hfu⟩ := hf.unpack
  rw [hfu]
  exact ⟨m, e, normal_pack hm hf.le_mantissa hf.mantissa_lt hf.le_exponent hf.exponent_le, rfl⟩

/-- Sums of up to 24 bits are exact. -/
theorem HasNat.add {f g : Float32.Model} {a b : ℕ} (hf : HasNat f a) (hg : HasNat g b) (h : a + b ≤ 2 ^ 24) :
    HasNat (f + g) (a + b) := by
  have hadd : f + g = .pack (UnpackedFloat.add Format.binary32 f.unpack g.unpack) := rfl
  rcases hf with ⟨rfl, rfl⟩ | hf
  · rcases hg with ⟨rfl, rfl⟩ | hg
    · exact Or.inl ⟨rfl, rfl⟩
    · right
      obtain ⟨n, d, hn, -⟩ := id hg
      obtain ⟨hpos, hgu⟩ := hn.unpack
      rw [hadd, unpack_zero, Nat.zero_add]
      have hz : UnpackedFloat.add Format.binary32 (.zero .positive) g.unpack = g.unpack := by
        rw [hgu]
        rfl
      rw [hz]
      exact hg.pack_unpack
  · rcases hg with ⟨rfl, rfl⟩ | hg
    · right
      obtain ⟨m, e, hm, -⟩ := id hf
      obtain ⟨hpos, hfu⟩ := hm.unpack
      have hz : UnpackedFloat.add Format.binary32 f.unpack (.zero .positive) = f.unpack := by
        rw [hfu]
        rfl
      rw [hadd, unpack_zero, hz]
      exact hf.pack_unpack
    · have hle : (a : ℝ) + b ≤ 2 ^ 24 := by exact_mod_cast h
      obtain ⟨u, hu, hr⟩ := add_rounds hf hg (by norm_num at hle ⊢; linarith)
      have hsum : u = (a + b : ℕ) := by
        rw [hr.eq_of_representable (by exact_mod_cast representable_natCast h)]
        push_cast
        rfl
      rw [hsum] at hu
      exact Or.inr hu

/-- A running sum of up to 24 bits is exact. -/
theorem HasNat.foldl {f : Float32.Model} {a : ℕ} {l : List ℕ} (hf : HasNat f a) (h : a + l.sum ≤ 2 ^ 24) :
    HasNat (l.foldl (fun f n => f + Float32.Model.ofInt n) f) (a + l.sum) := by
  induction l generalizing f a with
  | nil => exact hf
  | cons n l ih =>
    rw [List.sum_cons, ← Nat.add_assoc] at h ⊢
    exact ih (hf.add (hasNat_ofInt (by omega)) (by omega)) h

/-- Three roundings change a quotient by less than four units. -/
private theorem error_of_quotient {a b v w q : ℝ} (ha : 0 < a) (hb : 0 < b) (hv : Rounds a v) (hw : Rounds b w)
    (hv' : 0 < v) (hw' : 0 < w) (hq : Rounds (v / w) q) : |a / b - q| ≤ a / b * 2 ^ (-22 : ℤ) := by
  have h₁ := abs_le.1 (hv.error ha)
  have h₂ := abs_le.1 (hw.error hb)
  have h₃ := abs_le.1 (hq.error (div_pos hv' hw'))
  have hu : (2 : ℝ) ^ (-24 : ℤ) = 1 / 16777216 := by norm_num
  have hu' : (2 : ℝ) ^ (-22 : ℤ) = 1 / 4194304 := by norm_num
  rw [hu] at h₁ h₂ h₃
  rw [hu']
  have hup : v / w ≤ a / b * (16777217 / 16777215) := by
    rw [div_mul_div_comm, div_le_div_iff₀ hw' (by positivity)]
    calc v * (b * 16777215) ≤ (a * (16777217 / 16777216)) * (b * 16777215) := by
          gcongr
          linarith
      _ = a * 16777217 * (b * (16777215 / 16777216)) := by ring
      _ ≤ a * 16777217 * w := by
          gcongr
          linarith
  have hdown : a / b * (16777215 / 16777217) ≤ v / w := by
    rw [div_mul_div_comm, div_le_div_iff₀ (by positivity) hw']
    calc a * 16777215 * w ≤ a * 16777215 * (b * (16777217 / 16777216)) := by
          gcongr
          linarith
      _ = (a * (16777215 / 16777216)) * (b * 16777217) := by ring
      _ ≤ v * (b * 16777217) := by
          gcongr
          linarith
  have hpos := div_pos ha hb
  rw [abs_le]
  constructor <;> nlinarith

/-- The quotient of numbers in the range of the integers. -/
theorem div_rounds_of_le {f g : Float32.Model} {v w : ℝ} (hf : HasValue f v) (hg : HasValue g w) (hv : 1 ≤ v)
    (hv' : v ≤ 2 ^ 64) (hw : 1 ≤ w) (hw' : w ≤ 2 ^ 64) : ∃ q, HasValue (f / g) q ∧ Rounds (v / w) q := by
  apply div_rounds hf hg
  · rw [le_div_iff₀ (by linarith)]
    calc (2 : ℝ) ^ (-125 : ℤ) * w ≤ 2 ^ (-125 : ℤ) * 2 ^ 64 := by gcongr
      _ ≤ 1 := by norm_num
      _ ≤ v := hv
  · rw [div_le_iff₀ (by linarith)]
    calc v ≤ 2 ^ 64 := hv'
      _ ≤ 2 ^ (126 : ℤ) * 1 := by norm_num
      _ ≤ 2 ^ (126 : ℤ) * w := by gcongr

/-- The quotient of two integers, each of which is rounded before.  It is the rounded quotient if they have 24 bits. -/
theorem ofInt_div_ofInt {a b : ℕ} (ha : 1 ≤ a) (ha' : a < 2 ^ 64) (hb : 1 ≤ b) (hb' : b < 2 ^ 64) :
    ∃ q, HasValue (Float32.Model.ofInt a / Float32.Model.ofInt b) q ∧
      |(a : ℝ) / b - q| ≤ a / b * 2 ^ (-22 : ℤ) ∧ (a ≤ b → q ≤ 1) ∧ (a ≤ 2 ^ 24 → b ≤ 2 ^ 24 → Rounds (a / b) q) := by
  obtain ⟨v, hv, hrv⟩ := ofInt_rounds ha ha'
  obtain ⟨w, hw, hrw⟩ := ofInt_rounds hb hb'
  have hone : Representable 1 := by exact_mod_cast representable_natCast (n := 1) (by norm_num)
  have hmax : Representable (2 ^ 64) := by exact_mod_cast representable_zpow 64
  have hv₁ : 1 ≤ v := hrv.le_of_le hone (by exact_mod_cast ha)
  have hw₁ : 1 ≤ w := hrw.le_of_le hone (by exact_mod_cast hb)
  have hv₂ : v ≤ 2 ^ 64 := hrv.ge_of_ge hmax (by exact_mod_cast ha'.le)
  have hw₂ : w ≤ 2 ^ 64 := hrw.ge_of_ge hmax (by exact_mod_cast hb'.le)
  obtain ⟨q, hq, hrq⟩ := div_rounds_of_le hv hw hv₁ hv₂ hw₁ hw₂
  refine ⟨q, hq, ?_, fun hab => ?_, fun ha hb => ?_⟩
  · exact error_of_quotient (by exact_mod_cast ha) (by exact_mod_cast hb) hrv hrw (by linarith) (by linarith) hrq
  · apply hrq.ge_of_ge hone
    rw [div_le_one (by linarith)]
    rcases hab.eq_or_lt with rfl | hab
    · exact (hv.unique hw).le
    · exact hrv.mono hrw hv.representable hw.representable (by exact_mod_cast hab)
  · rwa [hrv.eq_of_representable (representable_natCast ha), hrw.eq_of_representable (representable_natCast hb)] at hrq

/-- Zero divided by a number. -/
theorem zero_div_value {g : Float32.Model} {w : ℝ} (hg : HasValue g w) :
    Float32.Model.ofInt 0 / g = Float32.Model.ofInt 0 := by
  obtain ⟨n, d, hn, -⟩ := hg
  obtain ⟨hpos, hgu⟩ := hn.unpack
  show Float32.Model.div _ g = _
  rw [Float32.Model.div, unpack_zero, hgu]
  rfl

/-- A number divided by zero is no number. -/
theorem isNaN_zero_div_zero : (Float32.Model.ofInt 0 / Float32.Model.ofInt 0).isNaN = true := by
  rfl

end Binary32
