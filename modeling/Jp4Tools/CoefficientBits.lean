import Jp4Tools.BitStrings
import Jp4Tools.CompressionController
import Jp4Tools.MachineIntegers
import Mathlib.Data.Nat.Size
import Mathlib.Data.Fintype.EquivFin
import Mathlib.Data.List.Nodup

/-!
# Coefficients as bits

A coefficient is coded as the number of bits of its magnitude, followed by that many bits: of the
value itself if it is positive, of the complement of its magnitude if it is negative. `huffExtend`
gets the value back. The coefficients of a block are taken in zigzag order.
-/

namespace Jp4Tools.CoefficientBits
open BitStrings CompressionController MachineIntegers

def dctSize2 : ℕ := 64
def maxCoefBits : ℕ := 10

/-- The place of the DC coefficient is the literal 0. -/
instance neZero_dctSize2 : NeZero 64 := ⟨by decide⟩

/-- The natural-order position of the zigzag positions, with 16 extra entries for safety in the
decoder. -/
def jpegNaturalOrder : List (Fin 64) := [
  0,  1,  8, 16,  9,  2,  3, 10,
  17, 24, 32, 25, 18, 11,  4,  5,
  12, 19, 26, 33, 40, 48, 41, 34,
  27, 20, 13,  6,  7, 14, 21, 28,
  35, 42, 49, 56, 57, 50, 43, 36,
  29, 22, 15, 23, 30, 37, 44, 51,
  58, 59, 52, 45, 38, 31, 39, 46,
  53, 60, 61, 54, 47, 55, 62, 63,
  63, 63, 63, 63, 63, 63, 63, 63,
  63, 63, 63, 63, 63, 63, 63, 63]

def naturalOrder (k : ℕ) : Fin 64 := jpegNaturalOrder.getD k 63

def acCoefs (block : JBlock) : List ℤ := (List.range' 1 63).map (fun k => block (naturalOrder k))

/-- `while (temp) { nbits++; temp >>= 1; }` -/
def dcBits : ℕ → ℕ → ℕ → ℕ
  | 0, _, nbits => nbits
  | fuel + 1, temp, nbits => if temp ≠ 0 then dcBits fuel (temp >>> 1) (nbits + 1) else nbits

/-- `while ((temp >>= 1)) nbits++;` -/
def acBits : ℕ → ℕ → ℕ → ℕ
  | 0, _, nbits => nbits
  | fuel + 1, temp, nbits =>
    if temp >>> 1 ≠ 0 then acBits fuel (temp >>> 1) (nbits + 1) else nbits

/-- What is passed to `emit_bits` for a coefficient: `temp2` as an `unsigned int`. -/
def coefCode (temp : ℤ) : ℕ := unsignedOf (if temp < 0 then temp - 1 else temp)

/-- `HUFF_EXTEND`: entry `s` of `extend_test` is `2 ^ (s - 1)` and of `extend_offset`
`(-1 << s) + 1`, for `s` from 1 to 15; both entries 0 are 0. -/
def extendTest (s : ℕ) : ℤ := if s = 0 then 0 else 2 ^ (s - 1)
def extendOffset (s : ℕ) : ℤ := if s = 0 then 0 else -2 ^ s + 1

def huffExtend (x : ℤ) (s : ℕ) : ℤ := if x < extendTest s then x + extendOffset s else x

theorem naturalOrder_zero : naturalOrder 0 = 0 := by decide

private theorem nodup_naturalOrder : (jpegNaturalOrder.take 64).Nodup := by decide +kernel

theorem naturalOrder_injective {j k : ℕ} (hj : j < 64) (hk : k < 64)
    (h : naturalOrder j = naturalOrder k) : j = k := by
  have hentry : ∀ i < 64, (jpegNaturalOrder.take 64)[i]? = some (naturalOrder i) := by
    intro i hi
    have hlen : i < jpegNaturalOrder.length := Nat.lt_of_lt_of_le hi (by decide)
    rw [List.getElem?_take_of_lt hi, naturalOrder, List.getD_eq_getElem?_getD,
      List.getElem?_eq_getElem hlen, Option.getD_some]
  have hlt : j < (jpegNaturalOrder.take 64).length := hj
  exact (List.getElem?_inj hlt nodup_naturalOrder).mp (by rw [hentry j hj, hentry k hk, h])

theorem exists_naturalOrder (i : Fin 64) : ∃ k, k < 64 ∧ naturalOrder k = i := by
  have hinj : Function.Injective (fun k : Fin 64 => naturalOrder k) := by
    intro j k h
    exact Fin.ext (naturalOrder_injective j.isLt k.isLt h)
  obtain ⟨k, hk⟩ := Finite.injective_iff_surjective.mp hinj i
  exact ⟨k, k.isLt, hk⟩

section Magnitudes

theorem size_half {t : ℕ} (h : t ≠ 0) : t.size = (t >>> 1).size + 1 := by
  have hiff : ∀ n, (t >>> 1).size ≤ n ↔ t.size ≤ n + 1 := by
    intro n
    rw [Nat.size_le, Nat.size_le, Nat.shiftRight_eq_div_pow, Nat.pow_one, Nat.pow_succ]
    omega
  have hpos : 0 < t.size := Nat.size_pos.mpr (Nat.pos_of_ne_zero h)
  have hle := (hiff (t >>> 1).size).mp (Nat.le_refl _)
  have hge := (hiff (t.size - 1)).mpr (by omega)
  omega

/-- Both loops count the bits of the magnitude. -/
theorem dcBits_eq {fuel t : ℕ} (h : t.size ≤ fuel) (nbits : ℕ) :
    dcBits fuel t nbits = nbits + t.size := by
  induction fuel generalizing t nbits with
  | zero => rw [dcBits, Nat.eq_zero_of_le_zero h, Nat.add_zero]
  | succ fuel ih =>
    rw [dcBits]
    split_ifs with hzero
    · have hhalf := size_half hzero
      rw [ih (by omega), hhalf]
      omega
    · rw [not_not.mp hzero, Nat.size_zero, Nat.add_zero]

theorem acBits_eq {fuel t : ℕ} (hpos : t ≠ 0) (h : t.size ≤ fuel + 1) (nbits : ℕ) :
    acBits fuel t (nbits + 1) = nbits + t.size := by
  have hhalf := size_half hpos
  induction fuel generalizing t nbits with
  | zero =>
    rw [acBits]
    omega
  | succ fuel ih =>
    rw [acBits]
    split_ifs with hzero
    · rw [ih hzero (by omega) (nbits + 1) (size_half hzero), hhalf]
      omega
    · rw [hhalf, not_not.mp hzero, Nat.size_zero]

/-- The bits that are emitted for a coefficient give its value back. -/
theorem huffExtend_coefCode {v : ℤ} (hpos : v ≠ 0) (hsize : v.natAbs.size ≤ 32) :
    huffExtend (coefCode v % 2 ^ v.natAbs.size : ℕ) v.natAbs.size = v := by
  have hlt : v.natAbs < 2 ^ v.natAbs.size := Nat.lt_size_self _
  obtain ⟨s, hs⟩ : ∃ s, v.natAbs.size = s + 1 :=
    ⟨v.natAbs.size - 1, by have := Nat.size_pos.mpr (Int.natAbs_pos.mpr hpos); omega⟩
  have hge : 2 ^ s ≤ v.natAbs := by
    rw [← Nat.lt_size, hs]
    exact Nat.lt_succ_self s
  rw [hs] at hlt hsize ⊢
  have hdvd : (2 ^ (s + 1) : ℤ) ∣ 2 ^ 32 := pow_dvd_pow 2 hsize
  have hmod : ((coefCode v % 2 ^ (s + 1) : ℕ) : ℤ) = (if v < 0 then v - 1 else v) % 2 ^ (s + 1) := by
    rw [coefCode, unsignedOf, Int.natCast_mod, Int.toNat_of_nonneg (Int.emod_nonneg _ (by decide)),
      Nat.cast_pow, Nat.cast_ofNat, Int.emod_emod_of_dvd _ hdvd]
  have hpow : (2 : ℤ) ^ (s + 1) = 2 * 2 ^ s := by rw [pow_succ, mul_comm]
  have hge' : (2 : ℤ) ^ s ≤ v.natAbs := by exact_mod_cast hge
  have hlt' : (v.natAbs : ℤ) < 2 * 2 ^ s := by rw [← hpow]; exact_mod_cast hlt
  rw [huffExtend, extendTest, extendOffset, if_neg (Nat.succ_ne_zero s), if_neg (Nat.succ_ne_zero s),
    Nat.add_sub_cancel, hmod, hpow]
  split_ifs with hneg hbelow hbelow
  · have hshift : (v - 1) % (2 * 2 ^ s) = v - 1 + 2 * 2 ^ s := by
      rw [← Int.add_emod_right, Int.emod_eq_of_lt (by omega) (by omega)]
    rw [hshift]
    omega
  · have hshift : (v - 1) % (2 * 2 ^ s) = v - 1 + 2 * 2 ^ s := by
      rw [← Int.add_emod_right, Int.emod_eq_of_lt (by omega) (by omega)]
    rw [hshift] at hbelow
    omega
  · rw [Int.emod_eq_of_lt (by omega) (by omega)] at hbelow
    omega
  · rw [Int.emod_eq_of_lt (by omega) (by omega)]

end Magnitudes

end Jp4Tools.CoefficientBits
