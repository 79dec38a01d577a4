import Jp4Tools.CountedLoops
import Jp4Tools.CursorScan
import Jp4Tools.Jp4Object
import Mathlib.Data.Int.ConditionallyCompleteOrder
import Mathlib.Data.Rat.Floor
import Mathlib.Tactic.Linarith
import Mathlib.Tactic.Positivity

/-!
# The linearization table

`Gamma::reverseTable` first recomputes the gamma table of the camera, with 257 entries, and then
fills the 256 entries of the linearization table by a scan of it. The cursor of the scan persists,
and its guard reads the table before it compares the cursor with 256. Rational numbers stand for
`double`s, and `int` products wrap around.
-/

namespace Jp4Tools.Gamma
open CountedLoops CursorScan MachineIntegers MakerNote Jp4Object

/-- The function `pow` on the unit interval, for positive exponents. -/
structure PowerFunction where
  pow : ℚ → ℚ → ℚ
  zero : ∀ γ, 0 < γ → pow 0 γ = 0
  one : ∀ γ, 0 < γ → pow 1 γ = 1
  mono : ∀ γ, 0 < γ → ∀ x y, 0 ≤ x → x ≤ y → y ≤ 1 → pow x γ ≤ pow y γ

def truncate (x : ℚ) : ℤ := if 0 ≤ x then ⌊x⌋ else ⌈x⌉

def clampGamma (gamma : ℚ) : ℚ :=
  let gamma := if gamma < 13 / 100 then 13 / 100 else gamma
  if gamma > 10 then 10 else gamma

def curveArgument (black : ℚ) (i : ℕ) : ℚ :=
  let black256 := black * 256
  let k := 1 / (256 - black256)
  let x := k * (i - black256)
  if x < 0 then 0 else x

def gtableEntry (P : PowerFunction) (gamma gammaScale black : ℚ) (i : ℕ) : ℤ :=
  let ig := truncate (1 / 2 + 65535 * P.pow (curveArgument black i) (clampGamma gamma))
  let ig := (i32 (ig * truncate gammaScale)).tdiv 0x400
  if ig > 0xffff then 0xffff else ig

/-- The memory that `gtable` points at. Behind the 257 entries lies something else. -/
def gtable (P : PowerFunction) (beyond : ℕ → ℤ) (gamma gammaScale black : ℚ) (i : ℕ) : ℤ :=
  if i < 257 then gtableEntry P gamma gammaScale black i else beyond i

def outValue (i : ℕ) : ℕ := u16 (128 + i <<< 8)

/-- What round `i` assigns to `rgTable[i]`, before the conversion to `unsigned short`. -/
def rgValue (gtable : ℕ → ℤ) (i indx : ℕ) : ℚ :=
  if indx ≥ 256 then 65535 / 256
  else if gtable (indx + 1) = gtable indx then i
  else 256 * (indx + 1 * ((outValue i : ℤ) - gtable indx : ℤ) / (gtable (indx + 1) - gtable indx : ℤ))

def rgReads (gtable : ℕ → ℤ) (indx : ℕ) : List ℕ :=
  if indx ≥ 256 then []
  else if gtable (indx + 1) = gtable indx then [indx + 1, indx]
  else [indx + 1, indx, indx, indx + 1, indx]

structure Round where
  index : ℕ
  value : ℤ
  reads : List ℕ

structure ScanState where
  i : ℕ
  indx : ℕ

def nextState (gtable : ℕ → ℤ) (s : ScanState) : ScanState where
  i := s.i + 1
  indx := advance gtable 256 (outValue s.i : ℤ) s.indx

def fillRound (gtable : ℕ → ℤ) (s : ScanState) : List Round :=
  let indx := advance gtable 256 (outValue s.i : ℤ) s.indx
  [{ index := s.i
     value := truncate (rgValue gtable s.i indx)
     reads := guardReads gtable 256 (outValue s.i : ℤ) s.indx ++ rgReads gtable indx }]

def fillTable (gtable : ℕ → ℤ) : List Round :=
  forLoop (fun s => decide (s.i < 256)) (nextState gtable) (fillRound gtable) 256 ⟨0, 0⟩

def reverseTable (P : PowerFunction) (beyond : ℕ → ℤ) (gamma gammaScale black : ℚ) : List Round :=
  fillTable (gtable P beyond gamma gammaScale black)

/-- Arguments as `readMakerNote` stores them: a scale of 16 bits and a black level below white. -/
structure GammaArguments where
  gamma : ℚ
  gammaScale : ℕ
  black : ℚ
  gammaScale_le : gammaScale ≤ 0xffff
  black_lt : black < 1

section Stored
variable {stack : ℕ → ℤ} {data : List UInt8}

theorem readFields_gamma (stack : ℕ → ℤ) (h : 8 ≤ data.length / 4) (m : ElphelMakerNote) (i : Fin 4) :
    ∃ w : ℤ, w < 2 ^ 31 ∧
      (readFields stack data m).gammaScale i = maskLong w 0xffff ∧
      (readFields stack data m).black i = (shiftLong w 24 : ℚ) / 256 := by
  have hword : (i : ℕ) + 4 < data.length / 4 := by omega
  let makerNote := fun i => if i < data.length / 4 then getLong (data.drop (i * 4)) else stack i
  have hchannels : (readFields stack data m).gammaScale i = (readChannels makerNote m).gammaScale i ∧
      (readFields stack data m).black i = (readChannels makerNote m).black i := by
    simp only [readFields]
    split_ifs <;> exact ⟨rfl, rfl⟩
  have hread : makerNote (i + 4) = getLong (data.drop ((i + 4) * 4)) := if_pos hword
  refine ⟨makerNote (i + 4), ?_, hchannels.1, hchannels.2⟩
  rw [hread, getLong, i32]
  exact Int.bmod_lt (by decide)

theorem stored_arguments (h : 8 ≤ data.length / 4) (m : ElphelMakerNote) (i : Fin 4) :
    ∃ a : GammaArguments, (readFields stack data m).gamma i = a.gamma ∧
      (readFields stack data m).gammaScale i = a.gammaScale ∧
      (readFields stack data m).black i = a.black := by
  obtain ⟨w, hw, hscale, hblack⟩ := readFields_gamma stack h m i
  have hmask : maskLong w 0xffff = w % 2 ^ 16 := maskLong_low w (k := 16) (by decide)
  have hpos : 0 ≤ w % 2 ^ 16 := Int.emod_nonneg w (by decide)
  have hlow : w % 2 ^ 16 < 2 ^ 16 := Int.emod_lt_of_pos w (by decide)
  have hhigh : shiftLong w 24 < 256 := by
    rw [shiftLong_eq]
    omega
  refine ⟨⟨_, (w % 2 ^ 16).toNat, _, by omega, ?_⟩, rfl, ?_, hblack⟩
  · rw [div_lt_one (by norm_num)]
    exact_mod_cast hhigh
  · rw [hscale, hmask]
    exact_mod_cast (Int.toNat_of_nonneg hpos).symm

theorem default_arguments (m : ElphelMakerNote) (i : Fin 4) :
    ∃ a : GammaArguments, (defaultMakerNote m).gamma i = a.gamma ∧
      (defaultMakerNote m).gammaScale i = a.gammaScale ∧ (defaultMakerNote m).black i = a.black :=
  ⟨⟨57 / 100, 0xffff, 10 / 256, le_rfl, by norm_num⟩, rfl, by norm_num [defaultMakerNote], rfl⟩

end Stored

section Scan
variable (gtable : ℕ → ℤ)

theorem outValue_eq {i : ℕ} (hi : i < 256) : outValue i = 128 + 256 * i := by
  rw [outValue, Nat.shiftLeft_eq, u16, Nat.mod_eq_of_lt (by omega)]
  omega

def query (i : ℕ) : ℤ := 128 + 256 * i

theorem query_mono : Monotone query := by
  intro i j hij
  simp only [query]
  omega

def stateAt (i : ℕ) : ScanState := ⟨i, cursorAt gtable 256 query i⟩

theorem fillTable_eq : fillTable gtable =
    (List.range 256).flatMap (fun i => fillRound gtable (stateAt gtable i)) := by
  apply forLoop_eq_flatMap _ (nextState gtable) (fillRound gtable) (stateAt gtable) 256 256
  · intro i hi
    simp only [nextState, stateAt, cursorAt, outValue_eq hi, query, Nat.cast_add, Nat.cast_mul,
      Nat.cast_ofNat]
  · intro i hi
    exact decide_eq_true hi
  · rfl
  · exact le_rfl

/-- A round stays inside the table exactly when the cursor has not used the table up. -/
theorem fillRound_reads_iff {i : ℕ} (hi : i < 256) :
    (∀ round ∈ fillRound gtable (stateAt gtable i), ∀ r ∈ round.reads, r ≤ 256) ↔
      cursorAt gtable 256 query (i + 1) < 256 := by
  have hcursor : advance gtable 256 (outValue i : ℤ) (cursorAt gtable 256 query i) =
      cursorAt gtable 256 query (i + 1) := by
    simp only [cursorAt, outValue_eq hi, query, Nat.cast_add, Nat.cast_mul, Nat.cast_ofNat]
  have hguard : (∀ r ∈ guardReads gtable 256 (outValue i : ℤ) (cursorAt gtable 256 query i), r ≤ 256) ↔
      cursorAt gtable 256 query (i + 1) + 1 ≤ 256 := by
    rw [← hcursor]
    exact guardReads_le_iff
  simp only [fillRound, stateAt, hcursor, List.mem_singleton, forall_eq, List.mem_append, or_imp, forall_and]
  rw [hguard]
  constructor
  · intro h
    exact h.1
  · intro h
    refine ⟨h, ?_⟩
    intro r hr
    simp only [rgReads, if_neg (not_le.mpr h)] at hr
    split_ifs at hr <;> simp at hr <;> omega

/-- The scan stays inside the table exactly when some entry reaches the last `outValue`. -/
theorem fillTable_reads_iff :
    (∀ round ∈ fillTable gtable, ∀ r ∈ round.reads, r ≤ 256) ↔
      ∃ j < 256, 65408 ≤ gtable (j + 1) := by
  have hlast : query 255 = 65408 := rfl
  rw [← hlast, ← cursorAt_lt_iff query_mono 255, fillTable_eq]
  constructor
  · intro h
    apply (fillRound_reads_iff gtable (i := 255) (by decide)).mp
    intro round hround
    apply h
    exact List.mem_flatMap.mpr ⟨255, by simp, hround⟩
  · intro h round hround
    obtain ⟨i, hi, hround⟩ := List.mem_flatMap.mp hround
    have hi : i < 256 := List.mem_range.mp hi
    have hmono : cursorAt gtable 256 query (i + 1) ≤ cursorAt gtable 256 query 256 :=
      cursorAt_mono (by omega)
    exact (fillRound_reads_iff gtable hi).mpr (hmono.trans_lt h) round hround

end Scan

section Curve
variable (P : PowerFunction)

theorem PowerFunction.pow_mem {x γ : ℚ} (hγ : 0 < γ) (hx : 0 ≤ x) (hx' : x ≤ 1) :
    0 ≤ P.pow x γ ∧ P.pow x γ ≤ 1 := by
  have hlow := P.mono γ hγ 0 x le_rfl hx hx'
  have hhigh := P.mono γ hγ x 1 hx hx' le_rfl
  rw [P.zero γ hγ] at hlow
  rw [P.one γ hγ] at hhigh
  exact ⟨hlow, hhigh⟩

theorem clampGamma_pos (gamma : ℚ) : 0 < clampGamma gamma := by
  simp only [clampGamma]
  split_ifs <;> linarith

theorem curveArgument_mem {black : ℚ} (hblack : black < 1) {i : ℕ} (hi : i ≤ 256) :
    0 ≤ curveArgument black i ∧ curveArgument black i ≤ 1 := by
  have hden : 0 < 256 - black * 256 := by linarith
  have hle : (i : ℚ) ≤ 256 := by exact_mod_cast hi
  have hfrac : 1 / (256 - black * 256) * (i - black * 256) ≤ 1 := by
    rw [one_div_mul_eq_div, div_le_one hden]
    linarith
  simp only [curveArgument]
  split_ifs with hneg
  · exact ⟨le_rfl, zero_le_one⟩
  · exact ⟨not_lt.mp hneg, hfrac⟩

theorem curveArgument_last {black : ℚ} (hblack : black < 1) : curveArgument black 256 = 1 := by
  have hden : 256 - black * 256 ≠ 0 := by
    intro h
    linarith
  have hfrac : 1 / (256 - black * 256) * ((256 : ℕ) - black * 256) = 1 := one_div_mul_cancel hden
  simp only [curveArgument, hfrac]
  norm_num

theorem truncate_natCast (n : ℕ) : truncate n = n := by
  rw [truncate, if_pos (Nat.cast_nonneg n), Int.floor_natCast]

/-- The curve of the camera at entry `i`, in 16 bits and before the scale is applied. -/
def curveLevel (a : GammaArguments) (i : ℕ) : ℤ :=
  ⌊1 / 2 + 65535 * P.pow (curveArgument a.black i) (clampGamma a.gamma)⌋

variable {P} {a : GammaArguments}

theorem curveLevel_mem {i : ℕ} (hi : i ≤ 256) :
    0 ≤ curveLevel P a i ∧ curveLevel P a i ≤ 65535 := by
  obtain ⟨hx, hx'⟩ := curveArgument_mem a.black_lt hi
  obtain ⟨hlow, hhigh⟩ := P.pow_mem (clampGamma_pos a.gamma) hx hx'
  constructor
  · exact Int.floor_nonneg.mpr (by linarith)
  · rw [curveLevel, ← Int.lt_add_one_iff, Int.floor_lt]
    push_cast
    linarith

theorem curveLevel_last : curveLevel P a 256 = 65535 := by
  rw [curveLevel, curveArgument_last a.black_lt, P.one _ (clampGamma_pos a.gamma),
    Int.floor_eq_iff]
  constructor <;> norm_num

/-- A table entry, with the product as it comes out of the `int` multiplication. -/
theorem gtableEntry_eq {i : ℕ} (hi : i ≤ 256) :
    gtableEntry P a.gamma a.gammaScale a.black i =
      min ((i32 (curveLevel P a i * a.gammaScale)).tdiv 0x400) 0xffff := by
  obtain ⟨hx, hx'⟩ := curveArgument_mem a.black_lt hi
  obtain ⟨hlow, -⟩ := P.pow_mem (clampGamma_pos a.gamma) hx hx'
  have hpos : 0 ≤ 1 / 2 + 65535 * P.pow (curveArgument a.black i) (clampGamma a.gamma) := by linarith
  have hlevel : truncate (1 / 2 + 65535 * P.pow (curveArgument a.black i) (clampGamma a.gamma)) =
      curveLevel P a i := if_pos hpos
  simp only [gtableEntry, hlevel, truncate_natCast]
  split_ifs with h
  · exact (min_eq_right (le_of_lt h)).symm
  · exact (min_eq_left (not_lt.mp h)).symm

theorem scaled_ge_iff {p : ℕ} (hp : p < 2 ^ 32) :
    65408 ≤ min ((i32 p).tdiv 0x400) 0xffff ↔ 65408 * 1024 ≤ p ∧ p < 2 ^ 31 := by
  rw [le_min_iff]
  rcases lt_or_ge p (2 ^ 31) with h | h
  · rw [i32_of_small (by omega) (by omega), Int.tdiv_eq_ediv_of_nonneg (Int.natCast_nonneg p)]
    omega
  · have hpos : 0 ≤ (2 ^ 32 - p : ℤ).tdiv 0x400 := Int.tdiv_nonneg (by omega) (by decide)
    rw [i32_of_large h hp, ← neg_sub, Int.neg_tdiv]
    omega

theorem gtableEntry_ge_iff {i : ℕ} (hi : i ≤ 256) :
    65408 ≤ gtableEntry P a.gamma a.gammaScale a.black i ↔
      65408 * 1024 ≤ curveLevel P a i * a.gammaScale ∧ curveLevel P a i * a.gammaScale < 2 ^ 31 := by
  obtain ⟨hlow, hhigh⟩ := curveLevel_mem (P := P) (a := a) hi
  obtain ⟨level, hlevel⟩ := Int.eq_ofNat_of_zero_le hlow
  have hle : level * a.gammaScale ≤ 65535 * 0xffff :=
    Nat.mul_le_mul (by omega) a.gammaScale_le
  have hp : level * a.gammaScale < 2 ^ 32 := by omega
  rw [gtableEntry_eq hi, hlevel]
  have h := scaled_ge_iff hp
  push_cast at h ⊢
  exact_mod_cast h

end Curve

/-- The reads stay inside the table exactly when the scale is between 1023 and 32768, or it is
larger and the product of scale and curve still falls just below the overflow somewhere. -/
theorem reverseTable_reads_iff (P : PowerFunction) (beyond : ℕ → ℤ) (a : GammaArguments) :
    (∀ round ∈ reverseTable P beyond a.gamma a.gammaScale a.black, ∀ r ∈ round.reads, r ≤ 256) ↔
      (1023 ≤ a.gammaScale ∧ a.gammaScale ≤ 32768) ∨
      (32768 < a.gammaScale ∧ ∃ j, 1 ≤ j ∧ j ≤ 256 ∧
        65408 * 1024 ≤ curveLevel P a j * a.gammaScale ∧ curveLevel P a j * a.gammaScale < 2 ^ 31) := by
  have hentry : ∀ j < 256, gtable P beyond a.gamma a.gammaScale a.black (j + 1) =
      gtableEntry P a.gamma a.gammaScale a.black (j + 1) := fun j hj => if_pos (by omega)
  rw [reverseTable, fillTable_reads_iff]
  constructor
  · intro ⟨j, hj, hreach⟩
    rw [hentry j hj, gtableEntry_ge_iff (by omega)] at hreach
    obtain ⟨hlow, hhigh⟩ := curveLevel_mem (P := P) (a := a) (i := j + 1) (by omega)
    rcases lt_or_ge 32768 a.gammaScale with hlarge | hsmall
    · exact Or.inr ⟨hlarge, j + 1, by omega, by omega, hreach⟩
    · refine Or.inl ⟨?_, hsmall⟩
      have hprod : curveLevel P a (j + 1) * a.gammaScale ≤ 65535 * a.gammaScale :=
        Int.mul_le_mul_of_nonneg_right hhigh (Int.natCast_nonneg _)
      omega
  · rintro (⟨hlow, hhigh⟩ | ⟨-, j, hj, hj', hreach⟩)
    · refine ⟨255, by decide, ?_⟩
      rw [hentry 255 (by decide), gtableEntry_ge_iff le_rfl, curveLevel_last]
      omega
    · obtain ⟨j, rfl⟩ := Nat.exists_eq_add_of_le' hj
      refine ⟨j, by omega, ?_⟩
      rw [hentry j (by omega), gtableEntry_ge_iff hj']
      exact hreach

def linearPower : PowerFunction where
  pow := fun x _ => x
  zero := fun _ _ => rfl
  one := fun _ _ => rfl
  mono := fun _ _ _ _ _ h _ => h

/-- With gamma 1, scale 512 and black 0 no entry exceeds 32767, and the scan reads `gtable[257]`. -/
theorem reverseTable_scale_512 : ¬ ∀ (P : PowerFunction) (beyond : ℕ → ℤ) (a : GammaArguments),
    ∀ round ∈ reverseTable P beyond a.gamma a.gammaScale a.black, ∀ r ∈ round.reads, r ≤ 256 := by
  intro h
  let a : GammaArguments := ⟨1, 512, 0, by decide, by norm_num⟩
  have hreads := h linearPower (fun _ => 0) a
  rw [reverseTable, fillTable_reads_iff] at hreads
  obtain ⟨j, hj, hreach⟩ := hreads
  have hentry : gtable linearPower (fun _ => 0) a.gamma a.gammaScale a.black (j + 1) =
      gtableEntry linearPower a.gamma a.gammaScale a.black (j + 1) := if_pos (by omega)
  have hscale : a.gammaScale = 512 := rfl
  obtain ⟨-, hhigh⟩ := curveLevel_mem (P := linearPower) (a := a) (i := j + 1) (by omega)
  rw [hentry, gtableEntry_ge_iff (by omega), hscale] at hreach
  omega

end Jp4Tools.Gamma
