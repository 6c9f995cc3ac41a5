import Mathlib.Algebra.Group.Nat.Defs
import Mathlib.Algebra.Ring.Int.Defs

/-!
# The integer types of C

`int` is 32 bits and `long` 64. A value of either is an integer here. A conversion to
`int` keeps the low 32 bits (`toInt`), which is what the compiler does where C leaves the
result to the implementation, and arithmetic on `int` that leaves the range is undefined
(`checked`).
-/

namespace NetCentric

/-- `INT_MAX`. -/
def INT_MAX : ℤ := 2147483647

/-- `INT_MIN`. -/
def INT_MIN : ℤ := -2147483648

/-- The value is an `int`. -/
def FitsInt (x : ℤ) : Prop :=
  INT_MIN ≤ x ∧ x ≤ INT_MAX

instance (x : ℤ) : Decidable (FitsInt x) :=
  inferInstanceAs (Decidable (_ ∧ _))

/-- Conversion to `int` : the low 32 bits, as a signed number. -/
def toInt (x : ℤ) : ℤ :=
  x.bmod (2 ^ 32)

/-- Conversion to `size_t`. -/
def toSize (x : ℤ) : ℕ :=
  (x % 2 ^ 64).toNat

/-- The result of `int` arithmetic, `none` where it overflows. -/
def checked (x : ℤ) : Option ℤ :=
  if FitsInt x then some x else none

/-- Division of two `int`, which rounds towards zero. -/
def divInt (x y : ℤ) : Option ℤ :=
  if y = 0 then none else checked (x.tdiv y)

theorem fitsInt_of_nonneg {x : ℤ} (h : 0 ≤ x) (hmax : x ≤ INT_MAX) : FitsInt x :=
  ⟨Int.le_trans (by decide) h, hmax⟩

theorem fitsInt_natCast {n : ℕ} (hmax : n ≤ INT_MAX) : FitsInt n :=
  fitsInt_of_nonneg (Int.natCast_nonneg n) hmax

theorem fitsInt_toInt (x : ℤ) : FitsInt (toInt x) := by
  have hlow : -(2 ^ 32 / 2 : ℤ) ≤ x.bmod (2 ^ 32) := Int.le_bmod (by decide)
  have hhigh : x.bmod (2 ^ 32) < (2 ^ 32 + 1) / 2 := Int.bmod_lt (by decide)
  rw [FitsInt, INT_MIN, INT_MAX, toInt]
  omega

/-- An `int` keeps its value, and nothing else does. -/
theorem toInt_eq_self_iff {x : ℤ} : toInt x = x ↔ FitsInt x := by
  refine ⟨fun h => h ▸ fitsInt_toInt x, fun h => ?_⟩
  rw [FitsInt, INT_MIN, INT_MAX] at h
  rw [toInt, Int.bmod_eq_of_le] <;> omega

theorem toInt_natCast {n : ℕ} (h : n ≤ INT_MAX) : toInt n = n :=
  toInt_eq_self_iff.2 (fitsInt_natCast h)

/-- A number that is not negative, as far as `size_t` reaches. -/
theorem toSize_natCast {n : ℕ} (h : n < 2 ^ 64) : toSize n = n := by
  rw [toSize]
  omega

theorem checked_of_fits {x : ℤ} (h : FitsInt x) : checked x = some x :=
  if_pos h

@[simp] theorem toInt_toInt_add (x y : ℤ) : toInt (toInt x + y) = toInt (x + y) :=
  Int.bmod_add_bmod

end NetCentric
