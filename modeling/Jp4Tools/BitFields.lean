import Mathlib.Algebra.BigOperators.Group.List.Basic
import Mathlib.Algebra.Order.Ring.Nat
import Mathlib.Data.Nat.Init

/-!
# Words packed from bit fields

A word is given by its fields from the least significant one on. A field is read back by a
shift over the fields below it and a mask of its own width; the other fields do not matter.
-/

namespace Jp4Tools.BitFields

/-- A value together with a number of bits that holds it. -/
structure Field where
  width : ℕ
  value : ℕ
  fits : value < 2 ^ width

def Field.ofFin {k : ℕ} (x : Fin (2 ^ k)) : Field := ⟨k, x, x.isLt⟩

def Field.ofBool (b : Bool) : Field := ⟨1, b.toNat, b.toNat_lt⟩

/-- The word with these fields, the first one in the lowest bits. -/
def pack : List Field → ℕ
  | [] => 0
  | f :: fs => f.value + 2 ^ f.width * pack fs

def totalWidth (fs : List Field) : ℕ := (fs.map Field.width).sum

theorem pack_lt (fs : List Field) : pack fs < 2 ^ totalWidth fs := by
  induction fs with
  | nil => exact Nat.one_pos
  | cons f fs ih =>
    have hf := f.fits
    have hstep := Nat.mul_le_mul_left (2 ^ f.width) (show pack fs + 1 ≤ 2 ^ totalWidth fs from ih)
    rw [Nat.mul_succ] at hstep
    have hpow : 2 ^ totalWidth (f :: fs) = 2 ^ f.width * 2 ^ totalWidth fs := Nat.pow_add 2 _ _
    rw [pack, hpow]
    omega

theorem pack_append_div (fs gs : List Field) :
    pack (fs ++ gs) / 2 ^ totalWidth fs = pack gs := by
  induction fs with
  | nil => exact Nat.div_one _
  | cons f fs ih =>
    have hpow : 2 ^ totalWidth (f :: fs) = 2 ^ f.width * 2 ^ totalWidth fs := Nat.pow_add 2 _ _
    rw [hpow, ← Nat.div_div_eq_div_mul, List.cons_append, pack,
      Nat.add_mul_div_left _ _ (Nat.two_pow_pos f.width), Nat.div_eq_of_lt f.fits, Nat.zero_add, ih]

/-- A field is read back whatever the fields below and above it are. -/
theorem read_field (fs : List Field) (f : Field) (gs : List Field) :
    pack (fs ++ f :: gs) / 2 ^ totalWidth fs % 2 ^ f.width = f.value := by
  rw [pack_append_div, pack, Nat.add_mul_mod_self_left, Nat.mod_eq_of_lt f.fits]

theorem read_last (fs : List Field) (f : Field) :
    pack (fs ++ [f]) / 2 ^ totalWidth fs = f.value := by
  rw [pack_append_div]
  rfl

end Jp4Tools.BitFields
