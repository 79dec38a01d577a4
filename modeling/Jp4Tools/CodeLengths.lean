import Jp4Tools.CanonicalCodes
import Mathlib.Algebra.BigOperators.Field
import Mathlib.Algebra.Order.BigOperators.Group.Finset
import Mathlib.Algebra.Order.Field.Basic
import Mathlib.Algebra.Field.Rat
import Mathlib.Tactic.Ring
import Mathlib.Tactic.FieldSimp
import Mathlib.Data.Finset.Max
import Mathlib.Logic.Equiv.Basic
import Mathlib.Tactic.Linarith

/-!
# Lengths of codewords

The leaves of a binary tree have Kraft sum 1, and joining two such trees under a new root gives one
again. As counts of codewords, a complete code fills the code space: `pastCode counts n = 2 ^ n`.
Its longest codewords come in pairs, which can be moved to shorter lengths without a gap.
-/

namespace Jp4Tools.CodeLengths
open CanonicalCodes

variable {α : Type*}

section Kraft
variable {length length' : α → ℕ} {symbols symbols' : Finset α}

/-- The Kraft sum of the codeword lengths of some symbols. -/
def kraft (length : α → ℕ) (symbols : Finset α) : ℚ := ∑ s ∈ symbols, (1 / 2 : ℚ) ^ length s

theorem kraft_congr (h : ∀ s ∈ symbols, length s = length' s) : kraft length symbols = kraft length' symbols :=
  Finset.sum_congr rfl (fun s hs => by rw [h s hs])

theorem weight_pos (length : α → ℕ) (s : α) : (0 : ℚ) < (1 / 2) ^ length s :=
  pow_pos (by norm_num) _

theorem kraft_succ (h : ∀ s ∈ symbols, length' s = length s + 1) :
    kraft length' symbols = kraft length symbols / 2 := by
  rw [kraft, kraft, Finset.sum_div]
  refine Finset.sum_congr rfl (fun s hs => ?_)
  rw [h s hs, pow_succ]
  ring

variable [DecidableEq α]

theorem kraft_insert {s : α} (hs : s ∉ symbols) (length : α → ℕ) :
    kraft length (insert s symbols) = (1 / 2 : ℚ) ^ length s + kraft length symbols :=
  Finset.sum_insert hs

theorem kraft_union (h : Disjoint symbols symbols') (length : α → ℕ) :
    kraft length (symbols ∪ symbols') = kraft length symbols + kraft length symbols' :=
  Finset.sum_union h

theorem length_ne_zero {s t : α} (hle : kraft length symbols ≤ 1) (hs : s ∈ symbols) (ht : t ∈ symbols)
    (hne : s ≠ t) : length s ≠ 0 := by
  intro hzero
  have hpair : kraft length {s, t} ≤ kraft length symbols := by
    refine Finset.sum_le_sum_of_subset_of_nonneg ?_ (fun r _ _ => le_of_lt (weight_pos length r))
    intro r hr
    rcases Finset.mem_insert.mp hr with rfl | hr
    · exact hs
    · rw [Finset.mem_singleton.mp hr]
      exact ht
  have hsum : kraft length {s, t} = 1 + (1 / 2 : ℚ) ^ length t := by
    rw [kraft_insert (by rw [Finset.mem_singleton]; exact hne), kraft, Finset.sum_singleton, hzero, pow_zero]
  have hpos := weight_pos length t
  linarith

end Kraft

section Counts
variable {counts : ℕ → ℕ}

theorem pastCode_add (counts counts' : ℕ → ℕ) (n : ℕ) :
    pastCode (fun k => counts k + counts' k) n = pastCode counts n + pastCode counts' n := by
  rw [pastCode_eq_sum, pastCode_eq_sum, pastCode_eq_sum, ← Finset.sum_add_distrib]
  exact Finset.sum_congr rfl (fun k _ => Nat.add_mul _ _ _)

theorem pastCode_single (l : ℕ) {n : ℕ} (h : l ≤ n) :
    pastCode (fun k => if k = l then 1 else 0) n = 2 ^ (n - l) := by
  rw [pastCode_eq_sum, Finset.sum_eq_single l]
  · rw [if_pos rfl, Nat.one_mul]
  · intro k _ hk
    rw [if_neg hk, Nat.zero_mul]
  · intro hl
    exact absurd (Finset.mem_range.mpr (Nat.lt_succ_of_le h)) hl

theorem pastCode_le {counts' : ℕ → ℕ} {n : ℕ} (h : ∀ k, counts k ≤ counts' k) : pastCode counts n ≤ pastCode counts' n := by
  rw [pastCode_eq_sum, pastCode_eq_sum]
  exact Finset.sum_le_sum (fun k _ => Nat.mul_le_mul_right _ (h k))

theorem shorter_add (counts counts' : ℕ → ℕ) (n : ℕ) :
    shorter (fun k => counts k + counts' k) n = shorter counts n + shorter counts' n := by
  rw [shorter_eq_sum, shorter_eq_sum, shorter_eq_sum, Finset.sum_add_distrib]

theorem shorter_single (l : ℕ) {n : ℕ} (h : l < n) : shorter (fun k => if k = l then 1 else 0) n = 1 := by
  rw [shorter_eq_sum, Finset.sum_ite_eq' (Finset.range n) l, if_pos (Finset.mem_range.mpr h)]

theorem shorter_of_zero {n m : ℕ} (hzero : ∀ k, n ≤ k → counts k = 0) (h : n ≤ m) :
    shorter counts m = shorter counts n := by
  induction m, h using Nat.le_induction with
  | base => rfl
  | succ m hm ih => rw [shorter, ih, hzero m hm, Nat.add_zero]

theorem three_le_shorter (counts : ℕ → ℕ) {a b c n : ℕ} (hab : a ≠ b) (hac : a ≠ c) (hbc : b ≠ c) (ha : a < n)
    (hb : b < n) (hc : c < n) : counts a + counts b + counts c ≤ shorter counts n := by
  have hsum : ∑ k ∈ {a, b, c}, counts k = counts a + counts b + counts c := by
    rw [Finset.sum_insert, Finset.sum_insert, Finset.sum_singleton, Nat.add_assoc]
    · rw [Finset.mem_singleton]
      exact hbc
    · rw [Finset.mem_insert, Finset.mem_singleton, not_or]
      exact ⟨hab, hac⟩
  rw [← hsum, shorter_eq_sum]
  refine Finset.sum_le_sum_of_subset (fun k hk => ?_)
  rw [Finset.mem_range]
  rw [Finset.mem_insert, Finset.mem_insert, Finset.mem_singleton] at hk
  rcases hk with rfl | rfl | rfl <;> assumption

variable [DecidableEq α] {length : α → ℕ} {symbols : Finset α}

def countsOf (length : α → ℕ) (symbols : Finset α) (k : ℕ) : ℕ := {s ∈ symbols | length s = k}.card

theorem countsOf_insert {s : α} (hs : s ∉ symbols) (length : α → ℕ) :
    countsOf length (insert s symbols) =
      fun k => countsOf length symbols k + if k = length s then 1 else 0 := by
  funext k
  rw [countsOf, Finset.filter_insert]
  by_cases h : length s = k
  · rw [if_pos h, if_pos h.symm, Finset.card_insert_of_notMem (fun hmem => hs (Finset.mem_filter.mp hmem).1)]
    rfl
  · rw [if_neg h, if_neg (Ne.symm h)]
    rfl

theorem shorter_countsOf_filter (length : α → ℕ) (n : ℕ) (symbols : Finset α) :
    shorter (countsOf length symbols) n = {s ∈ symbols | length s < n}.card := by
  induction n with
  | zero =>
    have hempty : {s ∈ symbols | length s < 0} = ∅ :=
      Finset.filter_eq_empty_iff.mpr (fun s _ => Nat.not_lt_zero (length s))
    rw [hempty]
    rfl
  | succ n ih =>
    have hsplit : {s ∈ symbols | length s < n + 1} = {s ∈ symbols | length s < n} ∪ {s ∈ symbols | length s = n} := by
      rw [← Finset.filter_or]
      exact Finset.filter_congr (fun s _ => Nat.lt_succ_iff_lt_or_eq)
    have hdisjoint : Disjoint {s ∈ symbols | length s < n} {s ∈ symbols | length s = n} :=
      Finset.disjoint_filter.mpr (fun s _ hlt heq => Nat.ne_of_lt hlt heq)
    rw [shorter, ih, hsplit, Finset.card_union_of_disjoint hdisjoint]
    rfl

theorem shorter_countsOf {n : ℕ} (h : ∀ s ∈ symbols, length s < n) :
    shorter (countsOf length symbols) n = symbols.card := by
  rw [shorter_countsOf_filter, Finset.filter_true_of_mem h]

/-- The code space that some symbols take is their Kraft sum. -/
theorem pastCode_countsOf {n : ℕ} (h : ∀ s ∈ symbols, length s ≤ n) :
    (pastCode (countsOf length symbols) n : ℚ) = kraft length symbols * 2 ^ n := by
  induction symbols using Finset.induction with
  | empty =>
    have hzero : pastCode (countsOf length (∅ : Finset α)) n = 0 := by
      rw [pastCode_eq_sum]
      exact Finset.sum_eq_zero (fun k _ => Nat.zero_mul _)
    rw [hzero, kraft, Finset.sum_empty, zero_mul, Nat.cast_zero]
  | insert s symbols hs ih =>
    have hle : length s ≤ n := h s (Finset.mem_insert_self s _)
    have hscale : ((2 ^ (n - length s) : ℕ) : ℚ) = (1 / 2) ^ length s * 2 ^ n := by
      obtain ⟨d, rfl⟩ := Nat.exists_eq_add_of_le hle
      rw [Nat.add_sub_cancel_left, Nat.cast_pow, pow_add, ← mul_assoc, ← mul_pow]
      norm_num
    rw [countsOf_insert hs, pastCode_add (countsOf length symbols), pastCode_single _ hle, Nat.cast_add,
      ih (fun r hr => h r (Finset.mem_insert_of_mem hr)), hscale, kraft_insert hs]
    ring

end Counts

section Complete
variable {counts counts' : ℕ → ℕ} {n : ℕ}

/-- The codewords of up to `n` bits fill the code space. -/
def Complete (counts : ℕ → ℕ) (n : ℕ) : Prop := pastCode counts n = 2 ^ n

theorem Complete.two_le (h : Complete counts (n + 1)) (hpos : counts (n + 1) ≠ 0) : 2 ≤ counts (n + 1) := by
  rw [Complete, pastCode, firstCode_succ, Nat.pow_succ] at h
  omega

/-- A length that is not used can be left out. -/
theorem Complete.drop (h : Complete counts (n + 1)) (hzero : counts (n + 1) = 0) : Complete counts n := by
  rw [Complete, pastCode, firstCode_succ, Nat.pow_succ, hzero] at h
  rw [Complete]
  omega

theorem Complete.exists_used (h : Complete counts n) : ∃ k ≤ n, counts k ≠ 0 := by
  by_contra hnone
  have hzero : pastCode counts n = 0 := by
    rw [pastCode_eq_sum]
    refine Finset.sum_eq_zero (fun k hk => ?_)
    have hk : counts k = 0 := by
      by_contra hne
      exact hnone ⟨k, Nat.lt_succ_iff.mp (Finset.mem_range.mp hk), hne⟩
    rw [hk, Nat.zero_mul]
  rw [Complete, hzero] at h
  exact absurd h (Nat.ne_of_lt (Nat.two_pow_pos n))

/-- With few codewords some are at least two bits shorter than the longest. -/
theorem Complete.exists_shorter (h : Complete counts (n + 2)) (hfew : shorter counts (n + 3) < 2 ^ (n + 1)) :
    ∃ k ≤ n, counts k ≠ 0 := by
  by_contra hnone
  have hzero : pastCode counts n = 0 := by
    rw [pastCode_eq_sum]
    refine Finset.sum_eq_zero (fun k hk => ?_)
    have hk : counts k = 0 := by
      by_contra hne
      exact hnone ⟨k, Nat.lt_succ_iff.mp (Finset.mem_range.mp hk), hne⟩
    rw [hk, Nat.zero_mul]
  rw [Complete, pastCode, firstCode_succ, pastCode, firstCode_succ, hzero, Nat.pow_succ] at h
  rw [shorter, shorter] at hfew
  omega

/-- A pair of the longest codewords is removed; one codeword takes the place of the pair's common
beginning, the other shares the place of a shorter codeword with it. -/
def Moved (counts counts' : ℕ → ℕ) (n j : ℕ) : Prop :=
  ∀ k, counts' k + ((if k = n then 1 else 0) + (if k = n then 1 else 0) + if k = j then 1 else 0) =
    counts k + ((if k = n - 1 then 1 else 0) + ((if k = j + 1 then 1 else 0) + if k = j + 1 then 1 else 0))

theorem Moved.pastCode_eq {j : ℕ} (h : Moved counts counts' n j) (hj : j + 1 < n) :
    pastCode counts' n = pastCode counts n := by
  have hsum := congrArg (fun f => pastCode f n) (funext h)
  have hpow : 2 ^ (n - j) = 2 ^ (n - (j + 1)) + 2 ^ (n - (j + 1)) := by
    rw [← Nat.two_mul, ← Nat.pow_succ']
    congr 1
    omega
  have hone : 2 ^ (n - (n - 1)) = 2 := by
    have hlen : n - (n - 1) = 1 := by omega
    rw [hlen, Nat.pow_one]
  simp only [pastCode_add counts', pastCode_add counts, pastCode_add, pastCode_single n (Nat.le_refl n),
    pastCode_single j (show j ≤ n by omega), pastCode_single (n - 1) (Nat.sub_le n 1),
    pastCode_single (j + 1) (show j + 1 ≤ n by omega), Nat.sub_self, Nat.pow_zero, hpow, hone] at hsum
  omega

theorem Moved.shorter_eq {j m : ℕ} (h : Moved counts counts' n j) (hj : j + 1 < n) (hn : n < m) :
    shorter counts' m = shorter counts m := by
  have hsum := congrArg (fun f => shorter f m) (funext h)
  simp only [shorter_add counts', shorter_add counts, shorter_add, shorter_single n hn,
    shorter_single j (show j < m by omega), shorter_single (n - 1) (show n - 1 < m by omega),
    shorter_single (j + 1) (show j + 1 < m by omega)] at hsum
  omega

/-- One codeword less leaves a gap. -/
theorem Complete.room {l : ℕ} (h : Complete counts n) (hl : l ≤ n)
    (hless : ∀ k, counts' k + (if k = l then 1 else 0) = counts k) :
    pastCode counts' n < 2 ^ n ∧ ∀ m, l < m → shorter counts' m + 1 = shorter counts m := by
  have hpast := congrArg (fun f => pastCode f n) (funext hless)
  have hpos := Nat.two_pow_pos (n - l)
  constructor
  · simp only [pastCode_add counts', pastCode_single l hl] at hpast
    rw [Complete] at h
    have hcounts : pastCode (fun k => counts k) n = 2 ^ n := h
    omega
  · intro m hm
    have hcount := congrArg (fun f => shorter f m) (funext hless)
    simp only [shorter_add counts', shorter_single l hm] at hcount
    exact hcount

end Complete

section Cost
variable {weight weight' length length' : α → ℕ} {symbols : Finset α} {a b : α}

/-- The number of bits that codewords of the lengths take for symbols that occur so often. -/
def cost (weight length : α → ℕ) (symbols : Finset α) : ℕ := ∑ s ∈ symbols, weight s * length s

theorem cost_congr (h : ∀ s ∈ symbols, weight s = weight' s) :
    cost weight length symbols = cost weight' length symbols :=
  Finset.sum_congr rfl (fun s hs => by rw [h s hs])

variable [DecidableEq α]

theorem cost_erase (ha : a ∈ symbols) (weight length : α → ℕ) :
    cost weight length symbols = weight a * length a + cost weight length (symbols.erase a) :=
  (Finset.add_sum_erase symbols _ ha).symm

theorem kraft_erase (ha : a ∈ symbols) (length : α → ℕ) :
    kraft length symbols = (1 / 2 : ℚ) ^ length a + kraft length (symbols.erase a) :=
  (Finset.add_sum_erase symbols _ ha).symm

theorem cost_update (ha : a ∉ symbols) (weight length : α → ℕ) (w l : ℕ) :
    cost (Function.update weight a w) (Function.update length a l) symbols = cost weight length symbols := by
  refine Finset.sum_congr rfl (fun s hs => ?_)
  have hne : s ≠ a := by
    rintro rfl
    exact ha hs
  rw [Function.update_of_ne hne, Function.update_of_ne hne]

theorem kraft_update (ha : a ∉ symbols) (length : α → ℕ) (l : ℕ) :
    kraft (Function.update length a l) symbols = kraft length symbols := by
  refine kraft_congr (fun s hs => Function.update_of_ne ?_ _ _)
  rintro rfl
  exact ha hs

/-- Two symbols can exchange their codewords; it pays when the rarer one had the shorter codeword. -/
theorem exchange (ha : a ∈ symbols) (hb : b ∈ symbols) (hweight : weight a ≤ weight b) (hlen : length a ≤ length b) :
    kraft (length ∘ Equiv.swap a b) symbols = kraft length symbols ∧
      cost weight (length ∘ Equiv.swap a b) symbols ≤ cost weight length symbols := by
  by_cases hab : a = b
  · subst hab
    rw [Equiv.swap_self]
    exact ⟨rfl, Nat.le_refl _⟩
  · have hb' : b ∈ symbols.erase a := Finset.mem_erase.mpr ⟨Ne.symm hab, hb⟩
    have hrest : ∀ s ∈ (symbols.erase a).erase b, (length ∘ Equiv.swap a b) s = length s := by
      intro s hs
      rw [Finset.mem_erase, Finset.mem_erase] at hs
      exact congrArg length (Equiv.swap_apply_of_ne_of_ne hs.2.1 hs.1)
    have hswapa : (length ∘ Equiv.swap a b) a = length b := congrArg length (Equiv.swap_apply_left a b)
    have hswapb : (length ∘ Equiv.swap a b) b = length a := congrArg length (Equiv.swap_apply_right a b)
    constructor
    · rw [kraft_erase ha, kraft_erase hb', kraft_erase ha length, kraft_erase hb' length, kraft_congr hrest, hswapa,
        hswapb]
      ring
    · have hcost : cost weight (length ∘ Equiv.swap a b) ((symbols.erase a).erase b) =
          cost weight length ((symbols.erase a).erase b) :=
        Finset.sum_congr rfl (fun s hs => by rw [hrest s hs])
      rw [cost_erase ha, cost_erase hb', cost_erase ha weight length, cost_erase hb' weight length, hcost, hswapa, hswapb]
      obtain ⟨d, hd⟩ := Nat.exists_eq_add_of_le hweight
      obtain ⟨e, he⟩ := Nat.exists_eq_add_of_le hlen
      rw [hd, he]
      nlinarith [Nat.zero_le (d * e)]

theorem exchange_max {x : α} (hx : ∀ d ∈ symbols, length d ≤ length x) (ha : a ∈ symbols) :
    ∀ d ∈ symbols, (length ∘ Equiv.swap a x) d ≤ (length ∘ Equiv.swap a x) a := by
  intro d hd
  have htop : (length ∘ Equiv.swap a x) a = length x := congrArg length (Equiv.swap_apply_left a x)
  rw [htop, Function.comp_apply, Equiv.swap_apply_def]
  split_ifs
  · exact Nat.le_refl _
  · exact hx a ha
  · exact hx d hd

/-- The two rarest symbols can have the longest codewords. -/
theorem exists_longest (hle : kraft length symbols ≤ 1) (ha : a ∈ symbols) (hb : b ∈ symbols) (hab : a ≠ b)
    (hleast₁ : weight a ≤ weight b) (hleast₂ : ∀ d ∈ symbols, d ≠ a → weight b ≤ weight d) :
    ∃ length' : α → ℕ, kraft length' symbols ≤ 1 ∧ cost weight length' symbols ≤ cost weight length symbols ∧
      length' b ≤ length' a ∧ ∀ d ∈ symbols.erase a, length' d ≤ length' b := by
  have hleast : ∀ d ∈ symbols, weight a ≤ weight d := by
    intro d hd
    by_cases hda : d = a
    · rw [hda]
    · exact Nat.le_trans hleast₁ (hleast₂ d hd hda)
  obtain ⟨x, hx, hmaxx⟩ := Finset.exists_max_image symbols length ⟨a, ha⟩
  obtain ⟨hkraft₁, hcost₁⟩ := exchange ha hx (hleast x hx) (hmaxx a ha)
  have hmax₁ := exchange_max hmaxx ha
  generalize length ∘ Equiv.swap a x = length₁ at hkraft₁ hcost₁ hmax₁
  have hb' : b ∈ symbols.erase a := Finset.mem_erase.mpr ⟨hab.symm, hb⟩
  obtain ⟨y, hy', hmaxy⟩ := Finset.exists_max_image (symbols.erase a) length₁ ⟨b, hb'⟩
  obtain ⟨hya, hy⟩ := Finset.mem_erase.mp hy'
  obtain ⟨hkraft₂, hcost₂⟩ := exchange hb hy (hleast₂ y hy hya) (hmaxy b hb')
  refine ⟨length₁ ∘ Equiv.swap b y, ?_, Nat.le_trans hcost₂ hcost₁, ?_, exchange_max hmaxy hb'⟩
  · rw [hkraft₂, hkraft₁]
    exact hle
  · have htop : (length₁ ∘ Equiv.swap b y) b = length₁ y := congrArg length₁ (Equiv.swap_apply_left b y)
    have hkept : (length₁ ∘ Equiv.swap b y) a = length₁ a :=
      congrArg length₁ (Equiv.swap_apply_of_ne_of_ne hab hya.symm)
    rw [htop, hkept]
    exact hmax₁ y hy

theorem kraft_shorten (hle : kraft length symbols ≤ 1) (ha : a ∈ symbols) {l : ℕ}
    (hmax : ∀ d ∈ symbols.erase a, length d ≤ l) : kraft (Function.update length a l) symbols ≤ 1 := by
  have hnot : a ∉ symbols.erase a := fun hmem => (Finset.mem_erase.mp hmem).1 rfl
  have hpast := pastCode_countsOf hmax
  have hpos := weight_pos length a
  have hscale : (0 : ℚ) < 2 ^ l := by positivity
  rw [kraft_erase ha] at hle
  rw [kraft_erase ha, Function.update_self, kraft_update hnot]
  -- the other codewords take a whole number of places, and not all of them
  have hroom : pastCode (countsOf length (symbols.erase a)) l < 2 ^ l := by
    have hlt : (pastCode (countsOf length (symbols.erase a)) l : ℚ) < 2 ^ l := by
      rw [hpast]
      have hone : kraft length (symbols.erase a) < 1 := by linarith
      exact (mul_lt_iff_lt_one_left hscale).mpr hone
    exact_mod_cast hlt
  have hfit : (pastCode (countsOf length (symbols.erase a)) l : ℚ) + 1 ≤ 2 ^ l := by exact_mod_cast hroom
  rw [hpast] at hfit
  have hunit : (1 / 2 : ℚ) ^ l * 2 ^ l = 1 := by
    rw [← mul_pow]
    norm_num
  refine le_of_mul_le_mul_right ?_ hscale
  rw [add_mul, hunit, one_mul]
  linarith

/-- When two symbols are merged into one with both weights, any code gives a code of the rest that
saves the bits that tell the two apart. -/
theorem exists_merged (hle : kraft length symbols ≤ 1) (ha : a ∈ symbols) (hb : b ∈ symbols) (hab : a ≠ b)
    (hleast₁ : weight a ≤ weight b) (hleast₂ : ∀ d ∈ symbols, d ≠ a → weight b ≤ weight d) :
    ∃ length' : α → ℕ, kraft length' (symbols.erase b) ≤ 1 ∧
      cost (Function.update weight a (weight a + weight b)) length' (symbols.erase b) + (weight a + weight b) ≤
        cost weight length symbols := by
  obtain ⟨length₂, hkraft₂, hcost₂, hba, hmax⟩ := exists_longest hle ha hb hab hleast₁ hleast₂
  have ha' : a ∈ symbols.erase b := Finset.mem_erase.mpr ⟨hab, ha⟩
  have hb' : b ∈ symbols.erase a := Finset.mem_erase.mpr ⟨hab.symm, hb⟩
  have hnot : a ∉ (symbols.erase b).erase a := fun hmem => (Finset.mem_erase.mp hmem).1 rfl
  have hcomm : (symbols.erase a).erase b = (symbols.erase b).erase a := Finset.erase_right_comm
  have hkraft₃ := kraft_shorten hkraft₂ ha hmax
  obtain ⟨l, hl⟩ : ∃ l, length₂ b = l + 1 := by
    refine Nat.exists_eq_succ_of_ne_zero ?_
    have hne := length_ne_zero hkraft₃ hb ha hab.symm
    rwa [Function.update_of_ne hab.symm] at hne
  refine ⟨Function.update length₂ a l, ?_, ?_⟩
  · rw [kraft_erase ha, kraft_erase hb', hcomm, kraft_update hnot, Function.update_self,
      Function.update_of_ne hab.symm, hl, pow_succ] at hkraft₃
    rw [kraft_erase ha', kraft_update hnot, Function.update_self]
    linarith
  · rw [cost_erase ha, cost_erase hb', hcomm] at hcost₂
    rw [cost_erase ha', cost_update hnot, Function.update_self, Function.update_self]
    rw [hl] at hcost₂ hba
    have hmul := Nat.mul_le_mul_left (weight a) hba
    have hexpand : (weight a + weight b) * l + (weight a + weight b) = weight a * (l + 1) + weight b * (l + 1) := by
      ring
    omega

end Cost

end Jp4Tools.CodeLengths
