import Mathlib.Algebra.Order.Floor.Semiring
import Mathlib.Data.Nat.Cast.Order.Field
import Mathlib.Order.Interval.Set.Defs
import Mathlib.Tactic.Linarith

/-!
# Piecewise-linear interpolation of a table

The entries of a table are joined by straight segments. The interpolation of a nondecreasing table
is nondecreasing, and on a segment that rises it takes each value in between at a known place.
-/

namespace Jp4Tools.PiecewiseLinear

variable {K : Type*} [Field K] [LinearOrder K] [IsStrictOrderedRing K] [FloorSemiring K]

/-- The function that joins the points `(j, table j)` by straight segments. -/
def interpolate (table : ℕ → K) (x : K) : K :=
  table ⌊x⌋₊ + (x - ⌊x⌋₊) * (table (⌊x⌋₊ + 1) - table ⌊x⌋₊)

/-- The place between `j` and `j + 1` where the segment has the value `v`. -/
def placeOf (table : ℕ → K) (v : K) (j : ℕ) : K :=
  j + (v - table j) / (table (j + 1) - table j)

section Segments
variable (table : ℕ → K)

@[simp] theorem interpolate_natCast (j : ℕ) : interpolate table j = table j := by
  simp [interpolate]

theorem interpolate_segment {x : K} {j : ℕ} (hj : (j : K) ≤ x) (hx : x ≤ j + 1) :
    interpolate table x = table j + (x - j) * (table (j + 1) - table j) := by
  rcases eq_or_lt_of_le hx with hx | hx
  · have hcast : x = ((j + 1 : ℕ) : K) := by
      rw [hx]
      push_cast
      rfl
    rw [hcast, interpolate_natCast]
    push_cast
    rw [add_sub_cancel_left, one_mul, add_sub_cancel]
  · have hfloor : ⌊x⌋₊ = j := by
      rw [Nat.floor_eq_iff (le_trans (Nat.cast_nonneg j) hj)]
      exact ⟨hj, hx⟩
    rw [interpolate, hfloor]

end Segments

section Monotone
variable {table : ℕ → K} {n : ℕ}

theorem le_interpolate (h : MonotoneOn table (Set.Iic n)) {x : K} (hx : 0 ≤ x) (hn : x ≤ n) :
    table ⌊x⌋₊ ≤ interpolate table x := by
  have hfloor : (⌊x⌋₊ : K) ≤ x := Nat.floor_le hx
  rcases eq_or_lt_of_le hn with rfl | hlt
  · simp
  · have hnext : ⌊x⌋₊ + 1 ≤ n := (Nat.floor_lt hx).mpr hlt
    have hrise : table ⌊x⌋₊ ≤ table (⌊x⌋₊ + 1) := h (Set.mem_Iic.mpr (by omega)) hnext (Nat.le_succ _)
    have hprod := mul_nonneg (sub_nonneg.mpr hfloor) (sub_nonneg.mpr hrise)
    rw [interpolate]
    linarith

theorem interpolate_le (h : MonotoneOn table (Set.Iic n)) {x : K} (hx : 0 ≤ x) {j : ℕ} (hj : x ≤ j)
    (hn : j ≤ n) : interpolate table x ≤ table j := by
  rcases eq_or_lt_of_le hj with rfl | hlt
  · simp
  · have hnext : ⌊x⌋₊ + 1 ≤ j := (Nat.floor_lt hx).mpr hlt
    have hrise : table ⌊x⌋₊ ≤ table (⌊x⌋₊ + 1) :=
      h (Set.mem_Iic.mpr (by omega)) (Set.mem_Iic.mpr (by omega)) (Nat.le_succ _)
    have hend : table (⌊x⌋₊ + 1) ≤ table j := h (Set.mem_Iic.mpr (by omega)) hn hnext
    have hfrac : x - ⌊x⌋₊ ≤ 1 := by linarith [Nat.lt_floor_add_one x]
    have hprod := mul_le_mul_of_nonneg_right hfrac (sub_nonneg.mpr hrise)
    rw [interpolate]
    linarith

theorem interpolate_mono (h : MonotoneOn table (Set.Iic n)) :
    MonotoneOn (interpolate table) (Set.Icc 0 (n : K)) := by
  intro x hx y hy hxy
  have hfloor : ⌊x⌋₊ ≤ ⌊y⌋₊ := Nat.floor_le_floor hxy
  have hyn : ⌊y⌋₊ ≤ n := Nat.floor_le_of_le hy.2
  rcases Nat.eq_or_lt_of_le hfloor with heq | hlt
  · -- On one segment the slope decides.
    rcases eq_or_lt_of_le hy.2 with hend | hlt
    · have hxn : x = n := by
        rw [hend, Nat.floor_natCast] at heq
        have := Nat.floor_le hx.1
        rw [heq] at this
        exact le_antisymm hx.2 this
      rw [hxn, hend]
    · have hnext : ⌊y⌋₊ + 1 ≤ n := (Nat.floor_lt hy.1).mpr hlt
      have hrise : table ⌊y⌋₊ ≤ table (⌊y⌋₊ + 1) := h (Set.mem_Iic.mpr hyn) hnext (Nat.le_succ _)
      have hprod := mul_le_mul_of_nonneg_right (sub_le_sub_right hxy (⌊y⌋₊ : K)) (sub_nonneg.mpr hrise)
      rw [interpolate, interpolate, heq]
      linarith
  · have hx' : x ≤ (⌊y⌋₊ : K) := (Nat.floor_lt hx.1).mp hlt |>.le
    calc interpolate table x ≤ table ⌊y⌋₊ := interpolate_le h hx.1 hx' hyn
      _ ≤ interpolate table y := le_interpolate h hy.1 hy.2

end Monotone

section Place
variable {table : ℕ → K} {v : K} {j : ℕ}

omit [FloorSemiring K] in
theorem placeOf_mem (hlow : table j < v) (hhigh : v ≤ table (j + 1)) :
    (j : K) < placeOf table v j ∧ placeOf table v j ≤ j + 1 := by
  have hrise : 0 < table (j + 1) - table j := by linarith
  have hpos : 0 < (v - table j) / (table (j + 1) - table j) := div_pos (by linarith) hrise
  have hle : (v - table j) / (table (j + 1) - table j) ≤ 1 := by
    rw [div_le_one hrise]
    linarith
  rw [placeOf]
  constructor <;> linarith

omit [FloorSemiring K] in
theorem placeOf_lt_iff (hlow : table j < v) (hhigh : v ≤ table (j + 1)) :
    placeOf table v j < j + 1 ↔ v < table (j + 1) := by
  have hrise : 0 < table (j + 1) - table j := by linarith
  rw [placeOf, add_lt_add_iff_left, div_lt_one hrise]
  constructor <;> intro h <;> linarith

theorem interpolate_placeOf (hlow : table j < v) (hhigh : v ≤ table (j + 1)) :
    interpolate table (placeOf table v j) = v := by
  obtain ⟨hj, hj'⟩ := placeOf_mem hlow hhigh
  have hrise : table (j + 1) - table j ≠ 0 := by
    intro h
    linarith
  rw [interpolate_segment table hj.le hj', placeOf, add_sub_cancel_left, div_mul_cancel₀ _ hrise,
    add_sub_cancel]

end Place

end Jp4Tools.PiecewiseLinear
