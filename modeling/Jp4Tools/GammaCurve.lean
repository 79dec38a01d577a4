import Jp4Tools.Gamma
import Mathlib.Order.Interval.Set.Defs

/-!
# The gamma table in machine arithmetic

The first loop of `Gamma::reverseTable` multiplies the curve by the scale in an `int`, and clamps
the quotient to 16 bits afterwards. The product of the last entry fits an `int` up to the scale
`0x8000`, which stands for 32.0. The default scale of a frame without MakerNote is twice as large.
-/

namespace Jp4Tools.GammaCurve
open MachineIntegers Gamma

/-- The product `ig * (int) gamma_scale` for entry `i`, before it is brought into an `int`. -/
def scaledLevel (P : PowerFunction) (gamma gammaScale black : ℚ) (i : ℕ) : ℤ :=
  truncate (1 / 2 + 65535 * P.pow (curveArgument black i) (clampGamma gamma)) * truncate gammaScale

structure ValidCurve (P : PowerFunction) (beyond : ℕ → ℤ) (gamma gammaScale black : ℚ) : Prop where
  products : ∀ i ≤ 256, -2 ^ 31 ≤ scaledLevel P gamma gammaScale black i ∧
    scaledLevel P gamma gammaScale black i < 2 ^ 31
  mono : MonotoneOn (gtable P beyond gamma gammaScale black) (Set.Iic 256)
  zero : gtable P beyond gamma gammaScale black 0 = 0
  entries : ∀ i ≤ 256, 0 ≤ gtable P beyond gamma gammaScale black i ∧
    gtable P beyond gamma gammaScale black i ≤ 0xffff

def arguments (gamma : ℚ) (gammaScale : Fin (2 ^ 16)) (b : Fin (2 ^ 8)) : GammaArguments where
  gamma
  gammaScale
  black := (b : ℕ) / 256
  gammaScale_le := Nat.le_of_lt_succ gammaScale.isLt
  black_lt := by
    rw [div_lt_one (by norm_num)]
    exact_mod_cast b.isLt

section Curve
variable {P : PowerFunction} {a : GammaArguments}

theorem curveArgument_mono {black : ℚ} (hblack : black < 1) : Monotone (curveArgument black) := by
  intro i j hij
  have hden : 0 < 1 / (256 - black * 256) := by
    rw [one_div_pos]
    linarith
  have hcast : (i : ℚ) ≤ j := by exact_mod_cast hij
  have hle : 1 / (256 - black * 256) * (i - black * 256) ≤ 1 / (256 - black * 256) * (j - black * 256) :=
    mul_le_mul_of_nonneg_left (by linarith) hden.le
  simp only [curveArgument]
  split_ifs <;> linarith

theorem curveArgument_dark {black : ℚ} (hblack : black < 1) {i : ℕ} (hi : i ≤ black * 256) :
    curveArgument black i = 0 := by
  have hden : 0 < 1 / (256 - black * 256) := by
    rw [one_div_pos]
    linarith
  have hle : 1 / (256 - black * 256) * (i - black * 256) ≤ 0 :=
    mul_nonpos_of_nonneg_of_nonpos hden.le (by linarith)
  simp only [curveArgument]
  split_ifs with hneg
  · rfl
  · exact le_antisymm hle (not_lt.mp hneg)

theorem curveLevel_mono : MonotoneOn (curveLevel P a) (Set.Iic 256) := by
  intro i hi j hj hij
  have hargs := curveArgument_mono a.black_lt hij
  have hpow := P.mono _ (clampGamma_pos a.gamma) _ _ (curveArgument_mem a.black_lt hi).1 hargs
    (curveArgument_mem a.black_lt hj).2
  apply Int.floor_le_floor
  linarith

theorem curveLevel_dark {i : ℕ} (hi : i ≤ a.black * 256) : curveLevel P a i = 0 := by
  rw [curveLevel, curveArgument_dark a.black_lt hi, P.zero _ (clampGamma_pos a.gamma), Int.floor_eq_iff]
  constructor <;> norm_num

theorem scaledLevel_eq {i : ℕ} (hi : i ≤ 256) :
    scaledLevel P a.gamma a.gammaScale a.black i = curveLevel P a i * a.gammaScale := by
  obtain ⟨hx, hx'⟩ := curveArgument_mem a.black_lt hi
  obtain ⟨hlow, -⟩ := P.pow_mem (clampGamma_pos a.gamma) hx hx'
  have hpos : 0 ≤ 1 / 2 + 65535 * P.pow (curveArgument a.black i) (clampGamma a.gamma) := by linarith
  rw [scaledLevel, truncate_natCast, truncate, if_pos hpos]
  rfl

/-- The last product decides whether all of them fit an `int`. -/
theorem scaledLevel_lt_iff : (∀ i ≤ 256, -2 ^ 31 ≤ scaledLevel P a.gamma a.gammaScale a.black i ∧
    scaledLevel P a.gamma a.gammaScale a.black i < 2 ^ 31) ↔ a.gammaScale ≤ 0x8000 := by
  constructor
  · intro h
    have hlast := (h 256 le_rfl).2
    rw [scaledLevel_eq le_rfl, curveLevel_last] at hlast
    omega
  · intro h i hi
    obtain ⟨hlow, hhigh⟩ := curveLevel_mem (P := P) (a := a) hi
    have hpos : 0 ≤ curveLevel P a i * a.gammaScale := mul_nonneg hlow (Int.natCast_nonneg _)
    have hle : curveLevel P a i * a.gammaScale ≤ 65535 * a.gammaScale :=
      mul_le_mul_of_nonneg_right hhigh (Int.natCast_nonneg _)
    rw [scaledLevel_eq hi]
    constructor <;> omega

theorem gtable_eq (h : a.gammaScale ≤ 0x8000) (beyond : ℕ → ℤ) {i : ℕ} (hi : i ≤ 256) :
    gtable P beyond a.gamma a.gammaScale a.black i =
      min (curveLevel P a i * a.gammaScale / 0x400) 0xffff := by
  have hfits := (scaledLevel_lt_iff (P := P)).mpr h i hi
  have hpos : 0 ≤ curveLevel P a i * a.gammaScale :=
    mul_nonneg (curveLevel_mem hi).1 (Int.natCast_nonneg _)
  rw [scaledLevel_eq hi] at hfits
  rw [gtable, if_pos (by omega), gtableEntry_eq hi, i32, Int.bmod_eq_of_le (by omega) (by omega),
    Int.tdiv_eq_ediv_of_nonneg hpos]

theorem gtable_mono (h : a.gammaScale ≤ 0x8000) (beyond : ℕ → ℤ) :
    MonotoneOn (gtable P beyond a.gamma a.gammaScale a.black) (Set.Iic 256) := by
  intro i hi j hj hij
  have hprod : curveLevel P a i * a.gammaScale ≤ curveLevel P a j * a.gammaScale :=
    mul_le_mul_of_nonneg_right (curveLevel_mono hi hj hij) (Int.natCast_nonneg _)
  rw [gtable_eq h beyond hi, gtable_eq h beyond hj]
  exact min_le_min_right _ (Int.ediv_le_ediv (by norm_num) hprod)

theorem gtable_dark (h : a.gammaScale ≤ 0x8000) (beyond : ℕ → ℤ) {i : ℕ} (hi : i ≤ 256)
    (hdark : i ≤ a.black * 256) : gtable P beyond a.gamma a.gammaScale a.black i = 0 := by
  rw [gtable_eq h beyond hi, curveLevel_dark hdark, zero_mul]
  rfl

theorem gtable_last (h : a.gammaScale ≤ 0x8000) (beyond : ℕ → ℤ) :
    gtable P beyond a.gamma a.gammaScale a.black 256 =
      min (65535 * (a.gammaScale : ℤ) / 0x400) 0xffff := by
  rw [gtable_eq h beyond le_rfl, curveLevel_last]

theorem gtable_mem (h : a.gammaScale ≤ 0x8000) (beyond : ℕ → ℤ) {i : ℕ} (hi : i ≤ 256) :
    0 ≤ gtable P beyond a.gamma a.gammaScale a.black i ∧
      gtable P beyond a.gamma a.gammaScale a.black i ≤ 0xffff := by
  have hpos : 0 ≤ curveLevel P a i * a.gammaScale :=
    mul_nonneg (curveLevel_mem hi).1 (Int.natCast_nonneg _)
  rw [gtable_eq h beyond hi]
  omega

end Curve

/-- The first loop builds a valid curve exactly up to the scale 32.0. -/
theorem gtable_valid_iff (P : PowerFunction) (beyond : ℕ → ℤ) (gamma : ℚ) (gammaScale : Fin (2 ^ 16))
    (b : Fin (2 ^ 8)) :
    ValidCurve P beyond gamma (gammaScale : ℕ) ((b : ℕ) / 256) ↔ (gammaScale : ℕ) ≤ 0x8000 := by
  have hproducts := scaledLevel_lt_iff (P := P) (a := arguments gamma gammaScale b)
  constructor
  · intro h
    exact hproducts.mp h.products
  · intro h
    have hdark : ((0 : ℕ) : ℚ) ≤ (arguments gamma gammaScale b).black * 256 := by
      simp only [arguments]
      positivity
    exact {
      products := hproducts.mpr h
      mono := gtable_mono (a := arguments gamma gammaScale b) h beyond
      zero := gtable_dark (a := arguments gamma gammaScale b) h beyond (Nat.zero_le _) hdark
      entries := fun i hi => gtable_mem (a := arguments gamma gammaScale b) h beyond hi }

/-- With gamma 1 and the scale of a frame without MakerNote the last product overflows. -/
theorem default_scale_invalid : ¬ ∀ (P : PowerFunction) (beyond : ℕ → ℤ) (gamma : ℚ)
    (gammaScale : Fin (2 ^ 16)) (b : Fin (2 ^ 8)),
    ValidCurve P beyond gamma (gammaScale : ℕ) ((b : ℕ) / 256) := by
  intro h
  have hvalid := h linearPower (fun _ => 0) 1 0xffff 10
  have hscale := (scaledLevel_lt_iff (P := linearPower) (a := arguments 1 0xffff 10)).mp hvalid.products
  exact absurd hscale (by decide)

end Jp4Tools.GammaCurve
