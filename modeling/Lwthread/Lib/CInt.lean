import Mathlib.Algebra.Order.Ring.Int
import Mathlib.Tactic.NormNum

/-!
# C integer conversions on the LP64 model

`int` is 32 bits, `long` and `size_t` are 64. A value that does not fit is reduced to the
congruent value of the target type, which is what the two's complement conversion does; arithmetic
that stays in range is left alone (`int_eq_self`, `long_eq_self`, `size_eq_self`).
-/

namespace CInt

/-- The conversion to `int`. -/
def int (x : Int) : Int := x.bmod (2 ^ 32)

/-- The conversion to `long`. -/
def long (x : Int) : Int := x.bmod (2 ^ 64)

/-- The conversion to `size_t`. -/
def size (x : Int) : Nat := (x % 2 ^ 64).toNat

theorem bmod_eq_self {x : Int} {m : Nat} (h₁ : -(m : Int) ≤ x * 2) (h₂ : x * 2 < m) :
    x.bmod m = x :=
  Int.bmod_eq_of_le_mul_two h₁ h₂

theorem int_eq_self {x : Int} (h₁ : -2 ^ 31 ≤ x) (h₂ : x < 2 ^ 31) : int x = x :=
  bmod_eq_self (by norm_num at *; omega) (by norm_num at *; omega)

theorem long_eq_self {x : Int} (h₁ : -2 ^ 63 ≤ x) (h₂ : x < 2 ^ 63) : long x = x :=
  bmod_eq_self (by norm_num at *; omega) (by norm_num at *; omega)

theorem size_eq_self {x : Int} (h₁ : 0 ≤ x) (h₂ : x < 2 ^ 64) : (size x : Int) = x := by
  unfold size
  rw [Int.emod_eq_of_lt h₁ h₂, Int.toNat_of_nonneg h₁]

/-- The conversion to `int` is the residue in `[-2^31, 2^31)`. -/
theorem int_eq_ite (x : Int) :
    int x = if x % 2 ^ 32 < 2 ^ 31 then x % 2 ^ 32 else x % 2 ^ 32 - 2 ^ 32 := by
  unfold int Int.bmod
  norm_num

end CInt
