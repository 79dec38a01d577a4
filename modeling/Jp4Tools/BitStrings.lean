import Mathlib.Data.Nat.Bitwise
import Mathlib.Data.Nat.Notation
import Mathlib.Data.List.Induction
import Mathlib.Tactic.Ring

/-!
# Bit strings

A natural number as a string of a given number of bits, most significant bit first, and the number
that a string of bits stands for. Shifts drop bits or append zeros; a bitwise or joins two words
whose bits do not overlap.
-/

namespace Jp4Tools.BitStrings

/-- The lowest `n` bits of a number, most significant bit first. -/
def bits : ℕ → ℕ → List Bool
  | 0, _ => []
  | n + 1, v => v.testBit n :: bits n v

/-- The number with the given bits, most significant bit first. -/
def number (l : List Bool) : ℕ := l.foldl (fun v b => 2 * v + b.toNat) 0

def zeros (n : ℕ) : List Bool := List.replicate n false

def ones (n : ℕ) : List Bool := List.replicate n true

section Strings

@[simp] theorem bits_zero (v : ℕ) : bits 0 v = [] := rfl

theorem bits_succ (n v : ℕ) : bits (n + 1) v = v.testBit n :: bits n v := rfl

@[simp] theorem length_bits (n v : ℕ) : (bits n v).length = n := by
  induction n with
  | zero => rfl
  | succ n ih => rw [bits_succ, List.length_cons, ih]

@[simp] theorem length_zeros (n : ℕ) : (zeros n).length = n := List.length_replicate

@[simp] theorem length_ones (n : ℕ) : (ones n).length = n := List.length_replicate

theorem bits_congr {n v w : ℕ} (h : ∀ i < n, v.testBit i = w.testBit i) : bits n v = bits n w := by
  induction n with
  | zero => rfl
  | succ n ih =>
    rw [bits_succ, bits_succ, h n (Nat.lt_succ_self n), ih (fun i hi => h i (Nat.lt_succ_of_lt hi))]

theorem bits_mod {n m : ℕ} (h : n ≤ m) (v : ℕ) : bits n (v % 2 ^ m) = bits n v := by
  refine bits_congr (fun i hi => ?_)
  rw [Nat.testBit_mod_two_pow, decide_eq_true (show i < m by omega), Bool.true_and]

theorem bits_add (m n v : ℕ) : bits (m + n) v = bits m (v / 2 ^ n) ++ bits n v := by
  induction m with
  | zero => rw [Nat.zero_add, bits_zero, List.nil_append]
  | succ m ih =>
    rw [Nat.add_right_comm, bits_succ, ih, bits_succ, List.cons_append, Nat.testBit_div_two_pow]

theorem bits_shiftRight (m n v : ℕ) : bits m (v >>> n) ++ bits n v = bits (m + n) v := by
  rw [Nat.shiftRight_eq_div_pow, bits_add]

@[simp] theorem bits_of_zero (n : ℕ) : bits n 0 = zeros n := by
  induction n with
  | zero => rfl
  | succ n ih =>
    rw [bits_succ, ih, Nat.zero_testBit]
    rfl

theorem bits_shiftLeft (m n v : ℕ) : bits (m + n) (v <<< n) = bits m v ++ zeros n := by
  rw [bits_add, Nat.shiftLeft_eq, Nat.mul_div_cancel v (Nat.two_pow_pos n), ← bits_of_zero n,
    ← bits_mod (Nat.le_refl n) (v * 2 ^ n), Nat.mul_mod_left]

theorem bits_mul_add (m n v : ℕ) {w : ℕ} (hw : w < 2 ^ n) :
    bits (m + n) (v * 2 ^ n + w) = bits m v ++ bits n w := by
  have hdiv : (v * 2 ^ n + w) / 2 ^ n = v := by
    rw [Nat.mul_comm, Nat.mul_add_div (Nat.two_pow_pos n), Nat.div_eq_of_lt hw, Nat.add_zero]
  rw [bits_add, hdiv, ← bits_mod (Nat.le_refl n) (v * 2 ^ n + w), Nat.mul_add_mod', Nat.mod_eq_of_lt hw]

theorem bits_or (n v w : ℕ) : bits n (v ||| w) = List.zipWith or (bits n v) (bits n w) := by
  induction n with
  | zero => rfl
  | succ n ih => rw [bits_succ, bits_succ, bits_succ, ih, Nat.testBit_or, List.zipWith_cons_cons]

theorem zipWith_or_zeros {n : ℕ} {l : List Bool} (h : l.length = n) :
    List.zipWith or l (zeros n) = l := by
  induction l generalizing n with
  | nil => rw [List.zipWith_nil_left]
  | cons b l ih =>
    obtain rfl : l.length + 1 = n := h
    change or b false :: List.zipWith or l (zeros l.length) = b :: l
    rw [ih rfl, Bool.or_false]

theorem zeros_zipWith_or {n : ℕ} {l : List Bool} (h : l.length = n) :
    List.zipWith or (zeros n) l = l := by
  induction l generalizing n with
  | nil => rw [List.zipWith_nil_right]
  | cons b l ih =>
    obtain rfl : l.length + 1 = n := h
    change or false b :: List.zipWith or (zeros l.length) l = b :: l
    rw [ih rfl, Bool.false_or]

theorem zeros_add (m n : ℕ) : zeros (m + n) = zeros m ++ zeros n :=
  (List.replicate_append_replicate ..).symm

theorem ones_add (m n : ℕ) : ones (m + n) = ones m ++ ones n :=
  (List.replicate_append_replicate ..).symm

theorem bits_ones (n : ℕ) : bits n (2 ^ n - 1) = ones n := by
  have h : ∀ k ≤ n, bits k (2 ^ n - 1) = ones k := by
    intro k hk
    induction k with
    | zero => rfl
    | succ k ih =>
      rw [bits_succ, ih (by omega), Nat.testBit_two_pow_sub_one, decide_eq_true (show k < n by omega)]
      rfl
  exact h n (Nat.le_refl n)

end Strings

section Numbers

@[simp] theorem number_nil : number [] = 0 := rfl

theorem number_append (l l' : List Bool) :
    number (l ++ l') = number l * 2 ^ l'.length + number l' := by
  induction l' using List.reverseRecOn with
  | nil => simp
  | append_singleton l' b ih =>
    have hstep : ∀ k : List Bool, number (k ++ [b]) = 2 * number k + b.toNat := by
      intro k
      rw [number, List.foldl_append]
      rfl
    rw [← List.append_assoc, hstep, ih, hstep, List.length_append, List.length_singleton, Nat.pow_succ]
    ring

theorem number_singleton (b : Bool) : number [b] = b.toNat := by
  cases b <;> rfl

theorem number_cons (b : Bool) (l : List Bool) :
    number (b :: l) = b.toNat * 2 ^ l.length + number l := by
  rw [← List.singleton_append, number_append, number_singleton]

theorem number_concat (l : List Bool) (b : Bool) : number (l ++ [b]) = 2 * number l + b.toNat := by
  rw [number_append, number_singleton, List.length_singleton, Nat.pow_one, Nat.mul_comm]

theorem number_lt (l : List Bool) : number l < 2 ^ l.length := by
  induction l with
  | nil => exact Nat.one_pos
  | cons b l ih =>
    rw [number_cons, List.length_cons, Nat.pow_succ]
    cases b with
    | false => simp only [Bool.toNat_false]; omega
    | true => simp only [Bool.toNat_true]; omega

/-- The bits of a number stand for that number, and the number of a string has that string. -/
theorem number_bits (n v : ℕ) : number (bits n v) = v % 2 ^ n := by
  induction n with
  | zero => rw [bits_zero, number_nil, Nat.pow_zero, Nat.mod_one]
  | succ n ih =>
    rw [bits_succ, number_cons, length_bits, ih, Nat.mod_pow_succ, Nat.toNat_testBit, Nat.add_comm,
      Nat.mul_comm]

theorem bits_number (l : List Bool) : bits l.length (number l) = l := by
  induction l with
  | nil => rfl
  | cons b l ih =>
    have hb : b.toNat < 2 := Bool.toNat_lt b
    have hsplit := bits_mul_add 1 l.length b.toNat (number_lt l)
    have hone : bits 1 b.toNat = [b] := by cases b <;> rfl
    rw [List.length_cons, number_cons, Nat.add_comm l.length 1, hsplit, ih, hone, List.singleton_append]

theorem bits_number_of_length {n : ℕ} {l : List Bool} (h : l.length = n) : bits n (number l) = l := by
  rw [← h, bits_number]

theorem number_take (l : List Bool) (k : ℕ) :
    number (l.take k) = number l / 2 ^ (l.length - k) := by
  have hsplit : number l = number (l.take k) * 2 ^ (l.length - k) + number (l.drop k) := by
    rw [← List.length_drop, ← number_append, List.take_append_drop]
  have hlt : number (l.drop k) < 2 ^ (l.length - k) := by
    rw [← List.length_drop]
    exact number_lt _
  rw [hsplit, Nat.mul_comm, Nat.mul_add_div (Nat.two_pow_pos _), Nat.div_eq_of_lt hlt, Nat.add_zero]

end Numbers

section Words
variable {m : ℕ} (w : BitVec m)

/-- The lowest `n` bits set. -/
def maskWord (m n : ℕ) : BitVec m := (1#m <<< n) - 1#m

theorem toNat_maskWord {n : ℕ} (h : n < m) : (maskWord m n).toNat = 2 ^ n - 1 := by
  have hpow : 2 ^ n < 2 ^ m := Nat.pow_lt_pow_right (by decide) h
  have hm : 1 < 2 ^ m := Nat.one_lt_two_pow (by omega)
  have hone : (1#m).toNat = 1 := by rw [BitVec.toNat_ofNat, Nat.mod_eq_of_lt hm]
  have hpos := Nat.two_pow_pos n
  have hle : 1#m ≤ 1#m <<< n := by
    rw [BitVec.le_def, BitVec.toNat_shiftLeft, hone, Nat.shiftLeft_eq, Nat.one_mul, Nat.mod_eq_of_lt hpow]
    exact hpos
  rw [maskWord, BitVec.toNat_sub_of_le hle, BitVec.toNat_shiftLeft, hone, Nat.shiftLeft_eq, Nat.one_mul,
    Nat.mod_eq_of_lt hpow]

theorem toNat_and_maskWord {n : ℕ} (h : n < m) : (w &&& maskWord m n).toNat = w.toNat % 2 ^ n := by
  rw [BitVec.toNat_and, toNat_maskWord h, Nat.and_two_pow_sub_one_eq_mod]

theorem bits_and_maskWord {n k : ℕ} (h : n < m) :
    bits (k + n) (w &&& maskWord m n).toNat = zeros k ++ bits n w.toNat := by
  rw [toNat_and_maskWord w h, bits_add, bits_mod (Nat.le_refl n), Nat.div_eq_of_lt
    (Nat.mod_lt _ (Nat.two_pow_pos n)), bits_of_zero]

theorem bits_wordShiftLeft {n k : ℕ} (h : n + k ≤ m) :
    bits (n + k) (w <<< k).toNat = bits n w.toNat ++ zeros k := by
  rw [BitVec.toNat_shiftLeft, bits_mod h, bits_shiftLeft]

theorem sshiftRight_mod {n k : ℕ} (h : k + n ≤ m) :
    (w.sshiftRight k).toNat % 2 ^ n = w.toNat / 2 ^ k % 2 ^ n := by
  refine Nat.eq_of_testBit_eq (fun i => ?_)
  rw [Nat.testBit_mod_two_pow, Nat.testBit_mod_two_pow, Nat.testBit_div_two_pow]
  by_cases hi : i < n
  · rw [BitVec.testBit_toNat, BitVec.testBit_toNat, BitVec.getLsbD_sshiftRight,
      if_pos (show k + i < m by omega), decide_eq_false (show ¬ m ≤ i by omega), Bool.not_false,
      Bool.true_and, Nat.add_comm]
  · rw [decide_eq_false hi, Bool.false_and, Bool.false_and]

theorem bits_sshiftRight {n k : ℕ} (h : k + n ≤ m) :
    bits n (w.sshiftRight k).toNat = bits n (w.toNat >>> k) := by
  rw [← bits_mod (Nat.le_refl n), sshiftRight_mod w h, bits_mod (Nat.le_refl n), Nat.shiftRight_eq_div_pow]

end Words

end Jp4Tools.BitStrings
