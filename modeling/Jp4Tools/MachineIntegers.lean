import Mathlib.Algebra.Order.Ring.Int
import Mathlib.Data.Nat.Init

/-!
# Machine integers

Conversions of two's complement arithmetic. Unsigned values are natural numbers below `2 ^ 32`,
`int` values are integers between `-2 ^ 31` and `2 ^ 31 - 1`, and `long` has 64 bits.
-/

namespace Jp4Tools.MachineIntegers

def u16 (a : ℕ) : ℕ := a % 2 ^ 16

def u32 (a : ℕ) : ℕ := a % 2 ^ 32

/-- The value of a `long` in `unsigned int`. -/
def unsignedOf (a : ℤ) : ℕ := (a % 2 ^ 32).toNat

def i32 (a : ℤ) : ℤ := a.bmod (2 ^ 32)

/-- The operator `>>` of a `long`; it keeps the sign. -/
def shiftLong (x : ℤ) (n : ℕ) : ℤ := x >>> n

def maskLong (x : ℤ) (mask : ℕ) : ℤ := ((x % 2 ^ 64).toNat &&& mask : ℕ)

@[simp] theorem shiftLong_eq (x : ℤ) (n : ℕ) : shiftLong x n = x / 2 ^ n := by
  rw [shiftLong, Int.shiftRight_eq_div_pow, Nat.cast_pow, Nat.cast_ofNat]

theorem u32_of_lt {a : ℕ} (h : a < 2 ^ 32) : u32 a = a := Nat.mod_eq_of_lt h

theorem unsignedOf_natCast {a : ℕ} (h : a < 2 ^ 32) : unsignedOf a = a := by
  rw [unsignedOf, Int.emod_eq_of_lt (Int.natCast_nonneg a) (by omega), Int.toNat_natCast]

theorem i32_of_small {a : ℤ} (h : -2 ^ 31 ≤ a) (h' : a < 2 ^ 31) : i32 a = a :=
  Int.bmod_eq_of_le (by omega) (by omega)

theorem i32_of_large {a : ℕ} (h : 2 ^ 31 ≤ a) (h' : a < 2 ^ 32) : i32 a = a - 2 ^ 32 := by
  rw [i32, Int.bmod_def, Int.emod_eq_of_lt (by omega) (by omega), if_neg (by omega)]
  rfl

theorem i32_lt (a : ℤ) : i32 a < 2 ^ 31 := Int.bmod_lt (by decide)

theorem unsignedOf_i32 (a : ℤ) : unsignedOf (i32 a) = unsignedOf a :=
  congrArg Int.toNat Int.bmod_emod

theorem i32_eq_self_iff {a : ℕ} (h : a < 2 ^ 32) : i32 a = a ↔ a < 2 ^ 31 := by
  constructor
  · intro heq
    by_contra hlarge
    rw [i32_of_large (Nat.le_of_not_lt hlarge) h] at heq
    omega
  · intro hlt
    exact i32_of_small (by omega) (by omega)

theorem i32_eq_add (a : ℤ) : ∃ q : ℤ, i32 a = a + 2 ^ 32 * q := by
  have hdiv := Int.emod_add_mul_ediv a (2 ^ 32)
  rw [i32, Int.bmod_def]
  split_ifs with h
  · refine ⟨-(a / 2 ^ 32), ?_⟩
    push_cast
    omega
  · refine ⟨-(a / 2 ^ 32) - 1, ?_⟩
    push_cast
    omega

theorem maskLong_low (x : ℤ) {k : ℕ} (hk : k ≤ 64) : maskLong x (2 ^ k - 1) = x % 2 ^ k := by
  have hdvd : (2 ^ k : ℤ) ∣ 2 ^ 64 := pow_dvd_pow 2 hk
  have hpos : 0 ≤ x % 2 ^ 64 := Int.emod_nonneg x (by decide)
  rw [maskLong, Nat.and_two_pow_sub_one_eq_mod, Int.natCast_mod, Int.toNat_of_nonneg hpos,
    Nat.cast_pow, Nat.cast_ofNat, Int.emod_emod_of_dvd x hdvd]

/-- The sign of a 32-bit word does not reach a field that is shifted down and masked. -/
theorem maskLong_shift (w : ℕ) {s k : ℕ} (h : s + k ≤ 32) :
    maskLong (shiftLong (i32 w) s) (2 ^ k - 1) = (w / 2 ^ s % 2 ^ k : ℕ) := by
  obtain ⟨q, hq⟩ := i32_eq_add w
  have hsplit : (2 : ℤ) ^ 32 = 2 ^ s * (2 ^ k * 2 ^ (32 - s - k)) := by
    rw [← pow_add, ← pow_add, Nat.sub_sub, Nat.add_comm k, ← Nat.sub_sub,
      Nat.sub_add_cancel (by omega), Nat.add_sub_cancel' (by omega)]
  have hne : (2 : ℤ) ^ s ≠ 0 := pow_ne_zero s (by decide)
  rw [maskLong_low _ (by omega), shiftLong_eq, hq, hsplit, Int.mul_assoc, Int.mul_assoc]
  push_cast
  rw [Int.add_mul_ediv_left _ _ hne, Int.add_mul_emod_self_left]

end Jp4Tools.MachineIntegers
