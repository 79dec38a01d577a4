import Jp4Tools.MachineIntegers
import Mathlib.Data.List.Basic

/-!
# Formatted names

The part of `snprintf` that builds the file names: `%s`, `%%` and a zero-padded `%d`. A format
may itself come out of `snprintf`, and then have any conversion. What the others print is left open,
but not that some of them go through a pointer: `%s` reads and `%n` writes. An integer argument is a
register of 64 bits, of which `%d` reads the lower half.
-/

namespace Jp4Tools.Printf
open MachineIntegers

inductive Argument where
  | string (s : List Char)
  | integer (x : ℤ)

def decimal (n : ℕ) : List Char := Nat.toDigits 10 n

def parseDecimal (word : List Char) : Option ℕ :=
  if word ≠ [] ∧ word.all Char.isDigit = true then some (Nat.ofDigitChars 10 word 0) else none

def zeroPadded (width : ℕ) (x : ℤ) : List Char :=
  let digits := decimal x.natAbs
  if x < 0 then '-' :: (List.replicate (width - 1 - digits.length) '0' ++ digits)
  else List.replicate (width - digits.length) '0' ++ digits

/-- What `%d` prints, of an argument that it takes for an `int`. -/
def printInt (x : ℤ) : List Char := zeroPadded 0 (i32 x)

/-- The text of a format. From the first other conversion on, or one without its argument, `other`
gives what comes of the rest of the format. -/
def printf (other : List Char → List Char) : List Char → List Argument → List Char
  | [], _ => []
  | '%' :: '%' :: fmt, args => '%' :: printf other fmt args
  | '%' :: 's' :: fmt, .string s :: args => s ++ printf other fmt args
  | '%' :: '0' :: width :: 'd' :: fmt, .integer x :: args =>
    if width.isDigit then zeroPadded (width.toNat - '0'.toNat) (i32 x) ++ printf other fmt args
    else other ('0' :: width :: 'd' :: fmt)
  | '%' :: fmt, _ => other fmt
  | c :: fmt, args => c :: printf other fmt args

/-- What may stand between a percent sign and the character that says what is converted: flags,
positions, widths, precisions and lengths. -/
def isModifier (c : Char) : Bool := c.isDigit || "#- +'I*$.hlqjzZtL".toList.contains c

/-- Some conversion goes through a pointer; `inside` is set behind the percent sign of one. -/
def hasPointer (inside : Bool) : List Char → Bool
  | [] => false
  | c :: fmt =>
    if !inside then hasPointer (c = '%') fmt
    else if isModifier c then hasPointer true fmt
    else c = 's' || c = 'S' || c = 'n' || hasPointer false fmt

/-- With these arguments, some conversion takes for a pointer what is none. Only `%s` is given
strings here; the arguments are not counted behind a conversion that is left open. -/
def strays : List Char → List Argument → Bool
  | [], _ => false
  | '%' :: '%' :: fmt, args => strays fmt args
  | '%' :: 's' :: fmt, .string _ :: args => strays fmt args
  | '%' :: '0' :: width :: 'd' :: fmt, .integer _ :: args =>
    if width.isDigit then strays fmt args else hasPointer true ('0' :: width :: 'd' :: fmt)
  | '%' :: fmt, _ => hasPointer true fmt
  | _ :: fmt, args => strays fmt args

def snprintf (other : List Char → List Char) (size : ℕ) (fmt : List Char) (args : List Argument) :
    List Char :=
  (printf other fmt args).take (size - 1)

section Numbers
variable {width : ℕ}

theorem isDigit_of_mem_decimal {n : ℕ} {c : Char} (h : c ∈ decimal n) : c.isDigit = true :=
  Nat.isDigit_of_mem_toDigits (by omega) (by omega) h

theorem decimal_ne_nil (n : ℕ) : decimal n ≠ [] := Nat.toDigits_ne_nil

theorem parseDecimal_decimal (n : ℕ) : parseDecimal (decimal n) = some n := by
  rw [parseDecimal, if_pos ⟨decimal_ne_nil n, List.all_eq_true.mpr (fun c hc => isDigit_of_mem_decimal hc)⟩, decimal,
    Nat.ofDigitChars_ten_toDigits]

def paddedDigits (width n : ℕ) : List Char :=
  List.replicate (width - (decimal n).length) '0' ++ decimal n

theorem zeroPadded_natCast (width n : ℕ) : zeroPadded width n = paddedDigits width n := by
  rw [zeroPadded, if_neg (by omega), Int.natAbs_natCast]
  rfl

theorem zeroPadded_neg {x : ℤ} (h : x < 0) :
    zeroPadded width x = '-' :: paddedDigits (width - 1) x.natAbs := by
  rw [zeroPadded, if_pos h]
  rfl

theorem isDigit_of_mem_paddedDigits {n : ℕ} {c : Char} (h : c ∈ paddedDigits width n) :
    c.isDigit = true := by
  rcases List.mem_append.mp h with h | h
  · rw [List.eq_of_mem_replicate h]
    rfl
  · exact isDigit_of_mem_decimal h

/-- Zeros in front do not change what the digits say. -/
theorem paddedDigits_injective : Function.Injective (paddedDigits width) := by
  have hread : ∀ n, Nat.ofDigitChars 10 (paddedDigits width n) 0 = n := by
    intro n
    rw [paddedDigits, Nat.ofDigitChars_append, Nat.ofDigitChars_replicate_zero, Nat.mul_zero, decimal,
      Nat.ofDigitChars_ten_toDigits]
  intro m n h
  rw [← hread m, h, hread]

theorem zeroPadded_injective : Function.Injective (zeroPadded width) := by
  have hsign : ∀ (x : ℤ) (n : ℕ), x < 0 → zeroPadded width x ≠ zeroPadded width n := by
    intro x n hx h
    have hmem : '-' ∈ paddedDigits width n := by
      rw [← zeroPadded_natCast, ← h, zeroPadded_neg hx]
      exact List.mem_cons_self
    exact absurd (isDigit_of_mem_paddedDigits hmem) (by decide)
  intro x y h
  rcases lt_or_ge x 0 with hx | hx
  · rcases lt_or_ge y 0 with hy | hy
    · rw [zeroPadded_neg hx, zeroPadded_neg hy] at h
      have habs := paddedDigits_injective (List.cons_inj_right _ |>.mp h)
      omega
    · obtain ⟨n, rfl⟩ := Int.eq_ofNat_of_zero_le hy
      exact absurd h (hsign x n hx)
  · obtain ⟨m, rfl⟩ := Int.eq_ofNat_of_zero_le hx
    rcases lt_or_ge y 0 with hy | hy
    · exact absurd h.symm (hsign y m hy)
    · obtain ⟨n, rfl⟩ := Int.eq_ofNat_of_zero_le hy
      rw [zeroPadded_natCast, zeroPadded_natCast] at h
      exact congrArg Nat.cast (paddedDigits_injective h)

theorem mem_zeroPadded {x : ℤ} {c : Char} (h : c ∈ zeroPadded width x) : c = '-' ∨ c.isDigit = true := by
  rcases lt_or_ge x 0 with hx | hx
  · rw [zeroPadded_neg hx] at h
    exact (List.mem_cons.mp h).imp_right isDigit_of_mem_paddedDigits
  · obtain ⟨n, rfl⟩ := Int.eq_ofNat_of_zero_le hx
    exact Or.inr (isDigit_of_mem_paddedDigits (zeroPadded_natCast width n ▸ h))

theorem zeroPadded_ne_nil (width : ℕ) (x : ℤ) : zeroPadded width x ≠ [] := by
  rw [zeroPadded]
  split_ifs
  · exact List.cons_ne_nil _ _
  · exact List.append_ne_nil_of_right_ne_nil _ (decimal_ne_nil _)

theorem takeWhile_zeroPadded (width : ℕ) (x : ℤ) (rest : List Char) :
    (zeroPadded width x ++ '.' :: rest).takeWhile (fun c => decide (c ≠ '.')) = zeroPadded width x := by
  have hall : ∀ c ∈ zeroPadded width x, decide (c ≠ '.') = true := by
    intro c hc
    rw [decide_eq_true_eq]
    rintro rfl
    rcases mem_zeroPadded hc with h | h
    · exact absurd h (by decide)
    · exact absurd h (by decide)
  rw [List.takeWhile_append_of_pos hall, List.takeWhile_cons_of_neg (by decide), List.append_nil]

theorem printInt_natCast {n : ℕ} (h : n < 2 ^ 31) : printInt n = decimal n := by
  rw [printInt, i32_of_small (by omega) (by omega), zeroPadded_natCast, paddedDigits, Nat.zero_sub,
    List.replicate_zero, List.nil_append]

end Numbers

section Formats
variable {other : List Char → List Char}

theorem printf_cons {c : Char} (hc : c ≠ '%') (fmt : List Char) (args : List Argument) :
    printf other (c :: fmt) args = c :: printf other fmt args := by
  rw [printf] <;> simp [hc]

theorem printf_append {text : List Char} (h : '%' ∉ text) (fmt : List Char)
    (args : List Argument) : printf other (text ++ fmt) args = text ++ printf other fmt args := by
  induction text with
  | nil => rfl
  | cons c text ih =>
    have hc : c ≠ '%' := fun hc => h (hc ▸ List.mem_cons_self)
    have htail := ih (fun hmem => h (List.mem_cons_of_mem c hmem))
    rw [List.cons_append, List.cons_append, printf_cons hc, htail]

theorem printf_text {text : List Char} (h : '%' ∉ text) (args : List Argument) :
    printf other text args = text := by
  have happend : printf other (text ++ []) args = text ++ printf other [] args := printf_append h [] args
  rwa [List.append_nil, printf, List.append_nil] at happend

theorem snprintf_of_length_lt {size : ℕ} {fmt : List Char} {args : List Argument}
    (h : (printf other fmt args).length < size) :
    snprintf other size fmt args = printf other fmt args :=
  List.take_of_length_le (by omega)

end Formats

section Pointers

end Pointers

end Jp4Tools.Printf
