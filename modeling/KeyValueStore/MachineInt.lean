import Mathlib.Data.Int.Init
import Mathlib.Tactic.Linarith

/-!
# Conversions between machine integers

A value of a machine integer type is the number it stands for, and a conversion to a type of fixed width keeps the number
modulo a power of two: `toInt32` is the representative that a signed type of 32 bits has, `toUInt32` and `toUInt64` are
those of unsigned types.  A number that the type has is kept.  Nothing here refers to the program.
-/

namespace MachineInt

/-- Conversion to a signed integer of 32 bits. -/
def toInt32 (v : Int) : Int := v.bmod (2 ^ 32)

/-- Conversion to an unsigned integer of 32 bits. -/
def toUInt32 (v : Int) : Nat := (v % 2 ^ 32).toNat

/-- Conversion to an unsigned integer of 64 bits. -/
def toUInt64 (v : Int) : Nat := (v % 2 ^ 64).toNat

theorem toInt32_eq_self {v : Int} (h : -2 ^ 31 ≤ v) (h' : v < 2 ^ 31) : toInt32 v = v := by
  rw [toInt32, Int.bmod_def]
  split <;> omega

theorem toUInt32_eq_self {n : Nat} (h : n < 2 ^ 32) : toUInt32 n = n := by
  rw [toUInt32]
  omega

theorem toUInt64_eq_self {n : Nat} (h : n < 2 ^ 64) : toUInt64 n = n := by
  rw [toUInt64]
  omega

/-- The numbers of the lower half of the residues are kept, the others become negative. -/
theorem toInt32_natCast (n : Nat) :
    toInt32 n = if n % 2 ^ 32 < 2 ^ 31 then ((n % 2 ^ 32 : Nat) : Int) else (n % 2 ^ 32 : Nat) - 2 ^ 32 := by
  rw [toInt32, Int.bmod_def]
  split <;> split <;> omega

/-- A negative number becomes a large one. -/
theorem toUInt64_of_neg {v : Int} (h : v < 0) (h' : -2 ^ 63 ≤ v) : 2 ^ 63 ≤ toUInt64 v := by
  rw [toUInt64]
  omega

end MachineInt
