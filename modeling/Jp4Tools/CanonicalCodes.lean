import Jp4Tools.BitStrings
import Mathlib.Algebra.BigOperators.Ring.Finset

/-!
# Canonical prefix codes

A canonical code is given by the number of codewords of each length. The codewords of one length
are consecutive numbers, and they go on where the shorter codewords stop. As long as each length
has room for its codewords no codeword is a prefix of another, and comparing the first `l` bits of
a string with the last codeword of length `l`, for growing `l`, finds the codeword the string
begins with.
-/

namespace Jp4Tools.CanonicalCodes
open BitStrings

/-- The number of the first codeword of a length. -/
def firstCode (counts : ℕ → ℕ) : ℕ → ℕ
  | 0 => 0
  | l + 1 => 2 * (firstCode counts l + counts l)

/-- One past the last codeword of a length. -/
def pastCode (counts : ℕ → ℕ) (l : ℕ) : ℕ := firstCode counts l + counts l

def shorter (counts : ℕ → ℕ) : ℕ → ℕ
  | 0 => 0
  | l + 1 => shorter counts l + counts l

/-- Every length up to `n` has room for its codewords. -/
def Legal (counts : ℕ → ℕ) (n : ℕ) : Prop := ∀ l ≤ n, pastCode counts l ≤ 2 ^ l

/-- A codeword: its length, and its place among the codewords of that length. -/
@[ext] structure Slot (counts : ℕ → ℕ) (n : ℕ) where
  len : ℕ
  rank : ℕ
  len_le : len ≤ n
  rank_lt : rank < counts len

variable {counts : ℕ → ℕ} {n : ℕ}

namespace Slot

/-- The codeword as a number, as a string of bits, and its place among all codewords. -/
def code (s : Slot counts n) : ℕ := firstCode counts s.len + s.rank

def word (s : Slot counts n) : List Bool := bits s.len s.code

def index (s : Slot counts n) : ℕ := shorter counts s.len + s.rank

end Slot

section Order

theorem firstCode_succ (counts : ℕ → ℕ) (l : ℕ) :
    firstCode counts (l + 1) = 2 * pastCode counts l := rfl

theorem firstCode_le_pastCode (counts : ℕ → ℕ) (l : ℕ) : firstCode counts l ≤ pastCode counts l :=
  Nat.le_add_right _ _

/-- Longer codewords continue strings that no shorter codeword takes. -/
theorem pastCode_mul_le (counts : ℕ → ℕ) {l m : ℕ} (h : l < m) :
    pastCode counts l * 2 ^ (m - l) ≤ firstCode counts m := by
  induction m with
  | zero => exact absurd h (Nat.not_lt_zero l)
  | succ m ih =>
    rw [firstCode_succ]
    rcases Nat.lt_succ_iff_lt_or_eq.mp h with hlt | rfl
    · have hstep := Nat.mul_le_mul_left 2 (ih hlt)
      have hpast := Nat.mul_le_mul_left 2 (firstCode_le_pastCode counts m)
      have hpow : 2 ^ (m + 1 - l) = 2 * 2 ^ (m - l) := by
        rw [Nat.succ_sub (Nat.le_of_lt hlt), Nat.pow_succ, Nat.mul_comm]
      rw [hpow, Nat.mul_left_comm]
      exact Nat.le_trans hstep hpast
    · rw [Nat.succ_sub (Nat.le_refl l), Nat.sub_self, Nat.pow_one, Nat.mul_comm]

theorem pastCode_lt_of_lt {l : ℕ} (hl : l ≤ n) (h : pastCode counts n < 2 ^ n) :
    pastCode counts l < 2 ^ l := by
  rcases Nat.lt_or_eq_of_le hl with hlt | rfl
  · have hscaled : pastCode counts l * 2 ^ (n - l) < 2 ^ l * 2 ^ (n - l) := by
      rw [← Nat.pow_add, Nat.add_sub_cancel' hl]
      exact Nat.lt_of_le_of_lt (pastCode_mul_le counts hlt)
        (Nat.lt_of_le_of_lt (firstCode_le_pastCode counts n) h)
    exact Nat.lt_of_mul_lt_mul_right hscaled
  · exact h

theorem legal_of_lt (h : pastCode counts n < 2 ^ n) : Legal counts n :=
  fun _ hl => Nat.le_of_lt (pastCode_lt_of_lt hl h)

/-- The room that the codewords take, measured at the length `l`. -/
theorem pastCode_eq_sum (counts : ℕ → ℕ) (l : ℕ) :
    pastCode counts l = ∑ k ∈ Finset.range (l + 1), counts k * 2 ^ (l - k) := by
  induction l with
  | zero => simp [pastCode, firstCode]
  | succ l ih =>
    have hdouble : ∀ k ∈ Finset.range (l + 1),
        counts k * 2 ^ (l + 1 - k) = 2 * (counts k * 2 ^ (l - k)) := by
      intro k hk
      have hle : k ≤ l := Nat.lt_succ_iff.mp (Finset.mem_range.mp hk)
      rw [Nat.succ_sub hle, Nat.pow_succ]
      ring
    rw [pastCode, firstCode_succ, ih, Finset.sum_range_succ (n := l + 1), Nat.sub_self, Nat.pow_zero,
      Nat.mul_one, Finset.sum_congr rfl hdouble, Finset.mul_sum]

theorem shorter_mono (counts : ℕ → ℕ) {l m : ℕ} (h : l ≤ m) : shorter counts l ≤ shorter counts m := by
  induction h with
  | refl => exact Nat.le_refl _
  | step _ ih => exact Nat.le_trans ih (Nat.le_add_right _ _)

theorem shorter_eq_sum (counts : ℕ → ℕ) (l : ℕ) :
    shorter counts l = ∑ k ∈ Finset.range l, counts k := by
  induction l with
  | zero => rfl
  | succ l ih => rw [shorter, ih, Finset.sum_range_succ]

end Order

section Slots
variable (s t : Slot counts n)

theorem Slot.firstCode_le_code : firstCode counts s.len ≤ s.code := Nat.le_add_right _ _

theorem Slot.code_lt_past : s.code < pastCode counts s.len := Nat.add_lt_add_left s.rank_lt _

@[simp] theorem Slot.length_word : s.word.length = s.len := length_bits _ _

theorem Slot.number_word (h : Legal counts n) : number s.word = s.code := by
  rw [Slot.word, number_bits, Nat.mod_eq_of_lt (Nat.lt_of_lt_of_le s.code_lt_past (h _ s.len_le))]

/-- The beginning of a codeword is past all codewords of its length. -/
theorem Slot.pastCode_le_div {k : ℕ} (hk : k < s.len) :
    pastCode counts k ≤ s.code / 2 ^ (s.len - k) := by
  rw [Nat.le_div_iff_mul_le (Nat.two_pow_pos _)]
  exact Nat.le_trans (pastCode_mul_le counts hk) s.firstCode_le_code

theorem Slot.pastCode_le_take (h : Legal counts n) {k : ℕ} (hk : k < s.len) :
    pastCode counts k ≤ number (s.word.take k) := by
  rw [number_take, s.number_word h, Slot.length_word]
  exact s.pastCode_le_div hk

/-- No codeword is a prefix of another. -/
theorem Slot.eq_of_isPrefix (h : Legal counts n) (hpre : s.word <+: t.word) : s = t := by
  obtain ⟨rest, hrest⟩ := hpre
  have hlen : s.len ≤ t.len := by
    rw [← s.length_word, ← t.length_word, ← hrest, List.length_append]
    exact Nat.le_add_right _ _
  have htake : t.word.take s.len = s.word := by
    rw [← hrest, ← s.length_word, List.take_left]
  have hlt := s.code_lt_past
  rw [← s.number_word h, ← htake] at hlt
  rcases Nat.lt_or_eq_of_le hlen with hshort | heq
  · exact absurd hlt (Nat.not_lt.mpr (t.pastCode_le_take h hshort))
  · have hcode : s.code = t.code := by
      rw [← s.number_word h, ← t.number_word h, ← htake, heq, ← t.length_word, List.take_length]
    have hrank : s.rank = t.rank := by
      rw [Slot.code, Slot.code, heq] at hcode
      exact Nat.add_left_cancel hcode
    exact Slot.ext heq hrank

theorem Slot.index_lt : s.index < shorter counts (n + 1) :=
  Nat.lt_of_lt_of_le (Nat.add_lt_add_left s.rank_lt _) (shorter_mono counts (Nat.succ_le_succ s.len_le))

theorem Slot.index_injective (h : s.index = t.index) : s = t := by
  have hlt : ∀ u v : Slot counts n, u.len < v.len → u.index < v.index := by
    intro u v huv
    have hmono := shorter_mono counts (show u.len + 1 ≤ v.len from huv)
    have hu : u.index < shorter counts (u.len + 1) := Nat.add_lt_add_left u.rank_lt _
    exact Nat.lt_of_lt_of_le hu (Nat.le_trans hmono (Nat.le_add_right _ _))
  rcases Nat.lt_trichotomy s.len t.len with hst | heq | hts
  · exact absurd h (Nat.ne_of_lt (hlt s t hst))
  · rw [Slot.index, Slot.index, heq] at h
    exact Slot.ext heq (Nat.add_left_cancel h)
  · exact absurd h.symm (Nat.ne_of_lt (hlt t s hts))

theorem exists_slot {i : ℕ} (h : i < shorter counts (n + 1)) : ∃ s : Slot counts n, s.index = i := by
  have hfind : ∀ m ≤ n + 1, i < shorter counts m → ∃ s : Slot counts n, s.index = i := by
    intro m hm hi
    induction m with
    | zero => exact absurd hi (Nat.not_lt_zero i)
    | succ m ih =>
      by_cases hshort : i < shorter counts m
      · exact ih (Nat.le_of_succ_le hm) hshort
      · rw [Nat.not_lt] at hshort
        have hrank : i - shorter counts m < counts m := by
          rw [shorter] at hi
          omega
        exact ⟨⟨m, i - shorter counts m, Nat.le_of_succ_le_succ hm, hrank⟩, Nat.add_sub_cancel' hshort⟩
  exact hfind (n + 1) (Nat.le_refl _) h

end Slots

section Enumeration
variable {α : Type*}

/-- Lists with as many entries as there are codewords of each length, one after the other. -/
def byLength (f : ℕ → List α) (m : ℕ) : List α := (List.range m).flatMap f

theorem byLength_succ (f : ℕ → List α) (m : ℕ) : byLength f (m + 1) = byLength f m ++ f m := by
  rw [byLength, List.range_succ, List.flatMap_append, List.flatMap_singleton, byLength]

variable {f : ℕ → List α}

theorem length_byLength (hf : ∀ l, (f l).length = counts l) (m : ℕ) :
    (byLength f m).length = shorter counts m := by
  induction m with
  | zero => rfl
  | succ m ih => rw [byLength_succ, List.length_append, ih, hf, shorter]

/-- The entry at the place of a codeword is the one with its rank among those of its length. -/
theorem getElem?_byLength (hf : ∀ l, (f l).length = counts l) {l j m : ℕ} (hl : l < m)
    (hj : j < counts l) : (byLength f m)[shorter counts l + j]? = (f l)[j]? := by
  induction m with
  | zero => exact absurd hl (Nat.not_lt_zero l)
  | succ m ih =>
    have hlen := length_byLength hf m
    rw [byLength_succ]
    rcases Nat.lt_succ_iff_lt_or_eq.mp hl with hlt | rfl
    · have hmono := shorter_mono counts (show l + 1 ≤ m from hlt)
      rw [shorter] at hmono
      rw [List.getElem?_append_left (by omega), ih hlt]
    · rw [List.getElem?_append_right (by omega), hlen, Nat.add_sub_cancel_left]

theorem Slot.getElem?_byLength (s : Slot counts n) (hf : ∀ l, (f l).length = counts l) :
    (byLength f (n + 1))[s.index]? = (f s.len)[s.rank]? :=
  CanonicalCodes.getElem?_byLength hf (Nat.lt_succ_of_le s.len_le) s.rank_lt

end Enumeration

section Search

/-- A string whose first bits are past the codewords of every length below `l`. -/
def Escapes (counts : ℕ → ℕ) (l : ℕ) (w : List Bool) : Prop :=
  ∀ k < l, pastCode counts k ≤ number (w.take k)

theorem escapes_succ {l : ℕ} {w : List Bool} (h : Escapes counts l w)
    (hl : pastCode counts l ≤ number (w.take l)) : Escapes counts (l + 1) w := by
  intro k hk
  rcases Nat.lt_succ_iff_lt_or_eq.mp hk with hlt | rfl
  · exact h k hlt
  · exact hl

theorem firstCode_le_of_escapes {l : ℕ} {w : List Bool} (h : Escapes counts l w) (hl : l ≤ w.length) :
    firstCode counts l ≤ number (w.take l) := by
  cases l with
  | zero => exact Nat.zero_le _
  | succ l =>
    have hlast := h l (Nat.lt_succ_self l)
    have hsplit : w.take (l + 1) = w.take l ++ [w[l]] := (List.take_append_getElem hl).symm
    rw [firstCode_succ, hsplit, number_concat]
    omega

/-- Where the search stops, the string begins with a codeword. -/
theorem slot_of_escapes {l : ℕ} (hl : l ≤ n) {w : List Bool} (hw : l ≤ w.length)
    (h : Escapes counts l w) (hstop : number (w.take l) < pastCode counts l) :
    ∃ s : Slot counts n, s.len = l ∧ s.word = w.take l ∧ s.code = number (w.take l) := by
  have hfirst := firstCode_le_of_escapes h hw
  have hrank : number (w.take l) - firstCode counts l < counts l := by
    rw [pastCode] at hstop
    omega
  have hcode : firstCode counts l + (number (w.take l) - firstCode counts l) = number (w.take l) :=
    Nat.add_sub_cancel' hfirst
  refine ⟨⟨l, number (w.take l) - firstCode counts l, hl, hrank⟩, rfl, ?_, hcode⟩
  rw [Slot.word, Slot.code, hcode]
  exact bits_number_of_length (by rw [List.length_take, Nat.min_eq_left hw])

end Search

end Jp4Tools.CanonicalCodes
