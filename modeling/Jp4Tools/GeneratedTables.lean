import Jp4Tools.OptimalTables

/-!
# Generated Huffman tables

The code lengths of the tree are counted, the counts are changed until no codeword is longer than
16 bits, and one codeword is given up. What is left is a table that the encoder and the decoder
accept, with a codeword for every symbol that occurs and for no other.
-/

namespace Jp4Tools.GeneratedTables
open CanonicalCodes CodeLengths HuffmanTables OptimalTables

section Counting
variable {codesize : ℕ → ℕ}

/-- The counts of the code lengths as numbers. -/
def num (bits : ℕ → UInt8) (k : ℕ) : ℕ := (bits k).toNat

theorem num_eq_zero {bits : ℕ → UInt8} {k : ℕ} : num bits k = 0 ↔ bits k = 0 := by
  rw [num, ← UInt8.toNat_inj]
  rfl

def coded (codesize : ℕ → ℕ) (n : ℕ) : Finset ℕ := {i ∈ Finset.range n | codesize i ≠ 0}

theorem coded_succ_of_zero {n : ℕ} (h : codesize n = 0) : coded codesize (n + 1) = coded codesize n := by
  rw [coded, Finset.range_add_one, Finset.filter_insert, if_neg (not_not_intro h)]
  rfl

theorem coded_succ {n : ℕ} (h : codesize n ≠ 0) :
    coded codesize (n + 1) = insert n (coded codesize n) ∧ n ∉ coded codesize n := by
  constructor
  · rw [coded, Finset.range_add_one, Finset.filter_insert, if_pos h]
    rfl
  · intro hmem
    exact Finset.notMem_range_self (Finset.mem_filter.mp hmem).1

theorem countLengths_upto {n : ℕ} (hle : ∀ i < n, codesize i ≤ maxClen) (hfew : (coded codesize n).card ≤ 255) :
    ∃ bits, (List.range n).foldlM (countLength codesize) (fun _ => 0) = .ok bits ∧
      num bits = countsOf codesize (coded codesize n) := by
  induction n with
  | zero => exact ⟨_, rfl, rfl⟩
  | succ n ih =>
    have hbelow : ∀ i < n, codesize i ≤ maxClen := fun i hi => hle i (Nat.lt_succ_of_lt hi)
    rw [List.range_succ]
    by_cases hzero : codesize n = 0
    · rw [coded_succ_of_zero hzero] at hfew ⊢
      obtain ⟨bits, hok, hnum⟩ := ih hbelow hfew
      refine ⟨bits, ?_, hnum⟩
      rw [List.foldlM_append, hok]
      change (countLength codesize bits n >>= pure) = _
      rw [bind_pure, countLength, if_pos hzero]
    · obtain ⟨hinsert, hnew⟩ := coded_succ hzero
      rw [hinsert] at hfew ⊢
      rw [Finset.card_insert_of_notMem hnew] at hfew
      obtain ⟨bits, hok, hnum⟩ := ih hbelow (Nat.le_of_succ_le hfew)
      refine ⟨Function.update bits (codesize n) (bits (codesize n) + 1), ?_, ?_⟩
      · rw [List.foldlM_append, hok]
        change (countLength codesize bits n >>= pure) = _
        rw [bind_pure, countLength, if_neg hzero, if_neg (Nat.not_lt.mpr (hle n (Nat.lt_succ_self n)))]
      · rw [countsOf_insert hnew, ← hnum]
        funext k
        rw [num]
        by_cases hk : k = codesize n
        · subst hk
          have hroom : (bits (codesize n)).toNat ≤ (coded codesize n).card :=
            (congrFun hnum (codesize n)).le.trans (Finset.card_filter_le _ _)
          rw [Function.update_self, UInt8.toNat_add, if_pos rfl, num]
          exact Nat.mod_eq_of_lt (Nat.lt_succ_of_le (Nat.le_trans (Nat.succ_le_succ hroom) hfew))
        · rw [Function.update_of_ne hk, if_neg hk, num, Nat.add_zero]

theorem countLengths_cases (n : ℕ) :
    (∃ bits, (List.range n).foldlM (countLength codesize) (fun _ => 0) = .ok bits ∧
      ∀ i < n, codesize i ≤ maxClen) ∨
    (List.range n).foldlM (countLength codesize) (fun _ => 0) = .error .clenOverflow ∧
      ∃ i < n, maxClen < codesize i := by
  induction n with
  | zero => exact .inl ⟨_, rfl, fun i hi => absurd hi (Nat.not_lt_zero i)⟩
  | succ n ih =>
    rw [List.range_succ, List.foldlM_append]
    rcases ih with ⟨bits, hok, hle⟩ | ⟨herror, i, hi, hlong⟩
    · rw [hok]
      change (∃ bits', (countLength codesize bits n >>= pure) = _ ∧ _) ∨ (countLength codesize bits n >>= pure) = _ ∧ _
      rw [bind_pure, countLength]
      have hstep : codesize n ≤ maxClen → ∀ i < n + 1, codesize i ≤ maxClen := by
        intro hn i hi
        rcases Nat.lt_succ_iff_lt_or_eq.mp hi with hlt | rfl
        · exact hle i hlt
        · exact hn
      split_ifs with hzero hlong
      · exact .inl ⟨bits, rfl, hstep (hzero.le.trans (Nat.zero_le _))⟩
      · exact .inr ⟨rfl, n, Nat.lt_succ_self n, hlong⟩
      · exact .inl ⟨_, rfl, hstep (Nat.le_of_not_lt hlong)⟩
    · rw [herror]
      exact .inr ⟨rfl, i, Nat.lt_succ_of_lt hi, hlong⟩

end Counting

section Limiting
variable {bits : ℕ → UInt8} {i j m n : ℕ}

theorem exists_lastUsed (h : ∃ k ≤ n, bits k ≠ 0) :
    ∃ j ≤ n, lastUsed bits n = some j ∧ bits j ≠ 0 ∧ ∀ k, j < k → k ≤ n → bits k = 0 := by
  induction n with
  | zero =>
    obtain ⟨k, hk, hne⟩ := h
    obtain rfl := Nat.le_zero.mp hk
    exact ⟨0, Nat.le_refl 0, if_neg hne, hne, fun k hk hle => absurd hk (Nat.not_lt.mpr hle)⟩
  | succ n ih =>
    by_cases hzero : bits (n + 1) = 0
    · obtain ⟨k, hk, hne⟩ := h
      have hkn : k ≤ n := by
        rcases Nat.le_succ_iff.mp hk with hle | rfl
        · exact hle
        · exact absurd hzero hne
      obtain ⟨j, hj, hlast, hused, habove⟩ := ih ⟨k, hkn, hne⟩
      refine ⟨j, Nat.le_succ_of_le hj, (if_pos hzero).trans hlast, hused, fun k hk hle => ?_⟩
      rcases Nat.le_succ_iff.mp hle with hle | rfl
      · exact habove k hk hle
      · exact hzero
    · exact ⟨n + 1, Nat.le_refl _, if_neg hzero, hzero, fun k hk hle => absurd hk (Nat.not_lt.mpr hle)⟩

theorem movePair_moved (hi : i ≤ maxClen) (hj : j + 1 < i) (htwo : 2 ≤ num bits i) (hused : bits j ≠ 0)
    (hfew : shorter (num bits) (maxClen + 1) ≤ 255) : Moved (num bits) (num (movePair bits i j)) i j := by
  have hroom := three_le_shorter (num bits) (a := i) (b := i - 1) (c := j) (n := maxClen + 1) (by omega) (by omega) (by omega)
    (by omega) (by omega) (by omega)
  have hroom' := three_le_shorter (num bits) (a := i) (b := j + 1) (c := j) (n := maxClen + 1) (by omega) (by omega) (by omega)
    (by omega) (by omega) (by omega)
  have hpos : num bits j ≠ 0 := fun hzero => hused (num_eq_zero.mp hzero)
  have htwo' : (2 : UInt8).toNat = 2 := rfl
  have hone' : (1 : UInt8).toNat = 1 := rfl
  intro k
  rw [num, movePair]
  by_cases hk : k = j
  · subst hk
    have hne : k ≠ k + 1 := (Nat.succ_ne_self k).symm
    have hne' : k ≠ i - 1 := by omega
    have hne'' : k ≠ i := by omega
    rw [Function.update_self, Function.update_of_ne hne, Function.update_of_ne hne', Function.update_of_ne hne'',
      if_pos rfl, if_neg hne, if_neg hne', if_neg hne'', UInt8.toNat_sub, hone']
    simp only [num] at *
    omega
  · rw [Function.update_of_ne hk, if_neg hk]
    by_cases hk₁ : k = j + 1
    · subst hk₁
      have hne : j + 1 ≠ i := by omega
      rw [Function.update_self, if_pos rfl, if_neg hne, UInt8.toNat_add, htwo']
      by_cases hpre : j + 1 = i - 1
      · rw [if_pos hpre, hpre, Function.update_self, Function.update_of_ne (by omega), UInt8.toNat_add, hone']
        rw [hpre] at hroom'
        simp only [num] at *
        omega
      · rw [if_neg hpre, Function.update_of_ne hpre, Function.update_of_ne hne]
        simp only [num] at *
        omega
    · rw [Function.update_of_ne hk₁, if_neg hk₁]
      by_cases hk₂ : k = i - 1
      · subst hk₂
        have hne : i - 1 ≠ i := by omega
        rw [Function.update_self, Function.update_of_ne hne, if_pos rfl, if_neg hne, UInt8.toNat_add, hone']
        simp only [num] at *
        omega
      · rw [Function.update_of_ne hk₂, if_neg hk₂]
        by_cases hk₃ : k = i
        · subst hk₃
          rw [Function.update_self, if_pos rfl, UInt8.toNat_sub, htwo']
          simp only [num] at *
          omega
        · rw [Function.update_of_ne hk₃, if_neg hk₃]
          rfl

/-- The state of the limiting: the code leaves no gap, and no length is above `i`. -/
structure Limited (m i : ℕ) (bits : ℕ → UInt8) : Prop where
  complete : Complete (num bits) i
  above : ∀ k, i < k → bits k = 0
  front : bits 0 = 0
  amount : shorter (num bits) (maxClen + 1) = m

/-- A pair of the longest codewords can be moved, and there are two less of them then. -/
theorem Limited.movePair (h : Limited m i bits) (hm : m ≤ 255) (h16 : 16 < i) (hi : i ≤ maxClen) (hne : bits i ≠ 0) :
    ∃ j, lastUsed bits (i - 2) = some j ∧ Limited m i (movePair bits i j) ∧
      num (OptimalTables.movePair bits i j) i + 2 = num bits i := by
  obtain ⟨d, rfl⟩ : ∃ d, i = d + 2 := ⟨i - 2, by omega⟩
  have hfew : shorter (num bits) (d + 3) < 2 ^ (d + 1) := by
    have hle := shorter_mono (num bits) (show d + 3 ≤ maxClen + 1 by omega)
    have hpow : 2 ^ 8 ≤ 2 ^ (d + 1) := Nat.pow_le_pow_right (by decide) (by omega)
    rw [h.amount] at hle
    omega
  have hexists : ∃ k ≤ d, bits k ≠ 0 := by
    obtain ⟨k, hk, hused⟩ := h.complete.exists_shorter hfew
    exact ⟨k, hk, fun hzero => hused (num_eq_zero.mpr hzero)⟩
  obtain ⟨j, hj, hlast, hused, -⟩ := exists_lastUsed hexists
  have htwo : 2 ≤ num bits (d + 2) := h.complete.two_le (fun hzero => hne (num_eq_zero.mp hzero))
  have hj' : j + 1 < d + 2 := by omega
  have hmoved := movePair_moved hi hj' htwo hused (h.amount.le.trans hm)
  have hjpos : j ≠ 0 := by
    rintro rfl
    exact hused h.front
  refine ⟨j, hlast, ⟨?_, ?_, ?_, ?_⟩, ?_⟩
  · rw [Complete, hmoved.pastCode_eq hj']
    exact h.complete
  · intro k hk
    have hzero := num_eq_zero.mpr (h.above k hk)
    have hcount := hmoved k
    rw [if_neg (by omega), if_neg (by omega), if_neg (by omega), if_neg (by omega), hzero] at hcount
    exact num_eq_zero.mp hcount
  · have hzero := num_eq_zero.mpr h.front
    have hcount := hmoved 0
    rw [if_neg (by omega), if_neg (by omega), if_neg (by omega), if_neg (by omega), hzero] at hcount
    exact num_eq_zero.mp hcount
  · rw [hmoved.shorter_eq hj' (Nat.lt_succ_of_le hi)]
    exact h.amount
  · have hcount := hmoved (d + 2)
    rw [if_pos rfl, if_neg (by omega), if_neg (by omega), if_neg (by omega)] at hcount
    omega

theorem Limited.emptyLength (h : Limited m (i + 1) bits) (hm : m ≤ 255) (h16 : 16 ≤ i) (hi : i < maxClen) {fuel : ℕ}
    (hfuel : num bits (i + 1) < 2 * fuel) :
    ∃ bits', emptyLength (i + 1) fuel bits = some bits' ∧ Limited m i bits' := by
  induction fuel generalizing bits with
  | zero => exact absurd hfuel (Nat.not_lt_zero _)
  | succ fuel ih =>
    rw [OptimalTables.emptyLength]
    by_cases hzero : bits (i + 1) = 0
    · refine ⟨bits, if_pos hzero, ⟨h.complete.drop (num_eq_zero.mpr hzero), fun k hk => ?_, h.front, h.amount⟩⟩
      rcases Nat.lt_or_eq_of_le (Nat.succ_le_of_lt hk) with hlt | rfl
      · exact h.above k hlt
      · exact hzero
    · obtain ⟨j, hlast, hmoved, hcount⟩ := h.movePair hm (Nat.lt_succ_of_le h16) hi hzero
      rw [if_neg hzero, hlast]
      exact ih hmoved (by omega)

theorem Limited.limitLengths (h : Limited m maxClen bits) (hm : m ≤ 255) :
    ∃ bits', limitLengths bits = some bits' ∧ Limited m 16 bits' := by
  have hdown : ∀ d ≤ 16, ∀ bits, Limited m (16 + d) bits →
      ∃ bits', (List.range' 17 d).foldrM (fun i bits => OptimalTables.emptyLength i 129 bits) bits = some bits' ∧
        Limited m 16 bits' := by
    intro d hd
    induction d with
    | zero => exact fun bits h => ⟨bits, rfl, h⟩
    | succ d ih =>
      intro bits h
      have hcount : num bits (16 + d + 1) < 2 * 129 := Nat.lt_trans (UInt8.toNat_lt _) (by decide)
      have hlast : Limited m (16 + d + 1) bits := h
      obtain ⟨bits₁, hempty, h₁⟩ := hlast.emptyLength hm (show 16 ≤ 16 + d by omega) (show 16 + d < 32 by omega) hcount
      obtain ⟨bits', hrest, h'⟩ := ih (Nat.le_of_succ_le hd) bits₁ h₁
      refine ⟨bits', ?_, h'⟩
      have hconcat : List.range' 17 (d + 1) = List.range' 17 d ++ [16 + d + 1] := by
        rw [List.range'_concat]
        congr 2
        omega
      rw [hconcat, List.foldrM_append]
      change (OptimalTables.emptyLength (16 + d + 1) 129 bits >>= pure) >>= _ = _
      rw [bind_pure, hempty]
      exact hrest
  exact hdown 16 (Nat.le_refl 16) bits h

/-- Without the pseudo-symbol the code has a gap. -/
theorem Limited.removePseudo (h : Limited m 16 bits) :
    ∃ bits' l, removePseudo bits = some bits' ∧ 1 ≤ l ∧ l ≤ 16 ∧ num bits l ≠ 0 ∧ (∀ k, l < k → num bits k = 0) ∧
      ∀ k, num bits' k + (if k = l then 1 else 0) = num bits k := by
  obtain ⟨k, hk, hused⟩ := h.complete.exists_used
  obtain ⟨l, hl, hlast, hne, habove⟩ := exists_lastUsed ⟨k, hk, fun hzero => hused (num_eq_zero.mpr hzero)⟩
  have hlpos : l ≠ 0 := by
    rintro rfl
    exact hne h.front
  have hnum : num bits l ≠ 0 := fun hzero => hne (num_eq_zero.mp hzero)
  refine ⟨Function.update bits l (bits l - 1), l, ?_, Nat.one_le_iff_ne_zero.mpr hlpos, hl, hnum, ?_, ?_⟩
  · rw [OptimalTables.removePseudo, hlast]
    rfl
  · intro k hk
    rw [num_eq_zero]
    by_cases hle : k ≤ 16
    · exact habove k hk hle
    · exact h.above k (Nat.lt_of_not_le hle)
  · intro k
    rw [num]
    by_cases hk : k = l
    · subst hk
      have hone : (1 : UInt8).toNat = 1 := rfl
      have hlt := UInt8.toNat_lt (bits k)
      rw [Function.update_self, if_pos rfl, UInt8.toNat_sub, hone]
      simp only [num] at *
      omega
    · rw [Function.update_of_ne hk, if_neg hk, Nat.add_zero, num]

end Limiting

section Symbols
variable {codesize : ℕ → ℕ}

theorem mem_symbolsBySize {j : ℕ} :
    j ∈ symbolsBySize codesize ↔ j < 256 ∧ 1 ≤ codesize j ∧ codesize j ≤ maxClen := by
  rw [symbolsBySize, List.mem_flatMap]
  constructor
  · rintro ⟨i, hi, hj⟩
    rw [List.mem_filter, List.mem_range, decide_eq_true_eq] at hj
    rw [List.mem_range'_1, ← hj.2] at hi
    exact ⟨hj.1, hi.1, by omega⟩
  · rintro ⟨hj, hpos, hle⟩
    refine ⟨codesize j, List.mem_range'_1.mpr ⟨hpos, by omega⟩, ?_⟩
    rw [List.mem_filter, List.mem_range, decide_eq_true_eq]
    exact ⟨hj, rfl⟩

theorem nodup_symbolsBySize (codesize : ℕ → ℕ) : (symbolsBySize codesize).Nodup := by
  rw [symbolsBySize, List.nodup_flatMap]
  refine ⟨fun i _ => List.nodup_range.filter _, ?_⟩
  have hnodup : (List.range' 1 maxClen).Nodup := List.nodup_range'
  refine List.Pairwise.imp ?_ hnodup
  intro i k hne j hi hk
  rw [List.mem_filter, decide_eq_true_eq] at hi hk
  exact hne (hi.2.symm.trans hk.2)

theorem toFinset_symbolsBySize (hle : ∀ i < 257, codesize i ≤ maxClen) :
    (symbolsBySize codesize).toFinset = coded codesize 256 := by
  ext j
  rw [List.mem_toFinset, mem_symbolsBySize, coded, Finset.mem_filter, Finset.mem_range]
  constructor
  · exact fun h => ⟨h.1, Nat.one_le_iff_ne_zero.mp h.2.1⟩
  · exact fun h => ⟨h.1, Nat.one_le_iff_ne_zero.mpr h.2, hle j (Nat.lt_succ_of_lt h.1)⟩

theorem sorted_symbolsBySize (codesize : ℕ → ℕ) :
    (symbolsBySize codesize).Pairwise (fun i j => codesize i ≤ codesize j) := by
  rw [symbolsBySize, List.pairwise_flatMap]
  have hsize : ∀ i j, j ∈ (List.range 256).filter (fun j => codesize j = i) → codesize j = i := by
    intro i j hj
    rw [List.mem_filter, decide_eq_true_eq] at hj
    exact hj.2
  constructor
  · intro i _
    refine List.pairwise_of_forall_mem_list (fun j hj k hk => ?_)
    rw [hsize i j hj, hsize i k hk]
  · refine List.Pairwise.imp ?_ List.pairwise_lt_range'
    intro i k hik j hj r hr
    rw [hsize i j hj, hsize k r hr]
    exact Nat.le_of_lt hik

theorem index_lt_card {p : ℕ} (hp : p < (symbolsBySize codesize).length) :
    p < {i ∈ (symbolsBySize codesize).toFinset | codesize i < codesize (symbolsBySize codesize)[p] + 1}.card := by
  have hsorted := List.pairwise_iff_getElem.mp (sorted_symbolsBySize codesize)
  have hnodup := nodup_symbolsBySize codesize
  generalize symbolsBySize codesize = symbols at *
  have hsub : (symbols.take (p + 1)).toFinset ⊆ {i ∈ symbols.toFinset | codesize i < codesize symbols[p] + 1} := by
    intro i hi
    obtain ⟨q, hq, rfl⟩ := List.mem_take_iff_getElem.mp (List.mem_toFinset.mp hi)
    rw [Finset.mem_filter, List.mem_toFinset]
    refine ⟨List.getElem_mem _, Nat.lt_succ_of_le ?_⟩
    rcases Nat.lt_or_eq_of_le (show q ≤ p by omega) with hlt | rfl
    · exact hsorted q p (by omega) hp hlt
    · exact Nat.le_refl _
  have hcard := Finset.card_le_card hsub
  rw [List.toFinset_card_of_nodup (hnodup.sublist (List.take_sublist _ _)), List.length_take] at hcard
  omega

end Symbols

section Generated
variable {freq codesize : ℕ → ℕ}

/-- A table that codes exactly the symbols that occur, each with one codeword. -/
structure Codes (freq : ℕ → ℕ) (htbl : JHuffTbl) : Prop where
  valid : Valid htbl
  counted : ∀ s : Codeword htbl, s.symbol < 256 ∧ freq s.symbol ≠ 0
  injective : ∀ s t : Codeword htbl, s.symbol = t.symbol → s = t
  covers : ∀ i < 256, freq i ≠ 0 → ∃ s : Codeword htbl, s.symbol = i

theorem coded_eq_used (h : Lengths freq codesize) (hmore : 1 < (used freq).card) :
    coded codesize 257 = used freq := by
  ext s
  rw [coded, Finset.mem_filter]
  constructor
  · rintro ⟨-, hne⟩
    by_contra hunused
    exact hne (h.unused s hunused)
  · intro hs
    obtain ⟨r, hr, hne⟩ := Finset.exists_mem_ne hmore s
    exact ⟨Finset.mem_range.mpr (mem_used.mp hs).1, length_ne_zero h.whole.le hs hr hne.symm⟩

theorem limited_of_lengths (h : Lengths freq codesize) (hmore : 1 < (used freq).card)
    (hle : ∀ i < 257, codesize i ≤ maxClen) {bits : ℕ → UInt8} (hbits : num bits = countsOf codesize (used freq)) :
    Limited (used freq).card maxClen bits := by
  have hused : ∀ s ∈ used freq, codesize s ≤ maxClen := fun s hs => hle s (mem_used.mp hs).1
  constructor
  case complete =>
    have hpast := pastCode_countsOf hused
    rw [h.whole, one_mul] at hpast
    rw [Complete, hbits]
    exact_mod_cast hpast
  case above =>
    intro k hk
    rw [← num_eq_zero, hbits, countsOf, Finset.card_eq_zero, Finset.filter_eq_empty_iff]
    rintro s hs rfl
    exact absurd (hused s hs) (Nat.not_le.mpr hk)
  case front =>
    rw [← num_eq_zero, hbits, countsOf, Finset.card_eq_zero, Finset.filter_eq_empty_iff]
    intro s hs
    rw [← coded_eq_used h hmore] at hs
    exact (Finset.mem_filter.mp hs).2
  case amount =>
    rw [hbits]
    exact shorter_countsOf (fun s hs => Nat.lt_succ_of_le (hused s hs))

theorem counts_fillTable {bits : ℕ → UInt8} (hfront : num bits 0 = 0) (habove : ∀ k, 16 < k → num bits k = 0)
    (htbl : JHuffTbl) (symbols : List ℕ) : counts (fillTable htbl bits symbols) = num bits := by
  funext k
  rw [counts, fillTable]
  dsimp only
  by_cases hk : 1 ≤ k ∧ k ≤ 16
  · rw [if_pos hk, if_pos hk.2, num]
  · rw [if_neg hk]
    by_cases hzero : k = 0
    · rw [hzero, hfront]
    · rw [habove k (by omega)]

theorem symbol_fillTable {htbl : JHuffTbl} {bits : ℕ → UInt8} {symbols : List ℕ} (hsymbols : ∀ j ∈ symbols, j < 256)
    (s : Codeword (fillTable htbl bits symbols)) (hs : s.index < symbols.length) : s.symbol = symbols[s.index] := by
  change (if h : s.index < symbols.length then UInt8.ofNat symbols[s.index] else htbl.huffval s.index).toNat = _
  rw [dif_pos hs]
  exact UInt8.toNat_ofNat_of_lt' (hsymbols _ (List.getElem_mem hs))

/-- A table of as many codewords as there are symbols codes the symbols. -/
theorem codes_fillTable {htbl : JHuffTbl} {bits : ℕ → UInt8} {symbols : List ℕ}
    (hvalid : Valid (fillTable htbl bits symbols)) (hnodup : symbols.Nodup)
    (hmem : ∀ j, j ∈ symbols ↔ j < 256 ∧ freq j ≠ 0)
    (hlen : shorter (counts (fillTable htbl bits symbols)) 17 = symbols.length) :
    Codes freq (fillTable htbl bits symbols) := by
  have hbyte : ∀ j ∈ symbols, j < 256 := fun j hj => ((hmem j).mp hj).1
  have hindex : ∀ s : Codeword (fillTable htbl bits symbols), s.index < symbols.length := by
    intro s
    rw [← hlen]
    exact s.index_lt
  have hsymbol := fun s => symbol_fillTable hbyte s (hindex s)
  refine ⟨hvalid, ?_, ?_, ?_⟩
  · intro s
    rw [hsymbol s]
    exact (hmem _).mp (List.getElem_mem (hindex s))
  · intro s t heq
    rw [hsymbol s, hsymbol t] at heq
    exact Slot.index_injective s t (hnodup.getElem_inj_iff.mp heq)
  · intro i hi hne
    obtain ⟨p, hp, rfl⟩ := List.getElem_of_mem ((hmem i).mpr ⟨hi, hne⟩)
    rw [← hlen] at hp
    obtain ⟨s, hs⟩ := exists_slot hp
    refine ⟨s, (hsymbol s).trans ?_⟩
    simp only [hs]

def occurring (freq : ℕ → ℕ) : Finset ℕ := {i ∈ Finset.range 256 | freq i ≠ 0}

theorem mem_occurring {i : ℕ} : i ∈ occurring freq ↔ i < 256 ∧ freq i ≠ 0 := by
  rw [occurring, Finset.mem_filter, Finset.mem_range]

theorem used_start (freq : ℕ → ℕ) :
    used (Function.update freq 256 1) = insert 256 (occurring freq) ∧ 256 ∉ occurring freq := by
  constructor
  · ext i
    rw [mem_used, Finset.mem_insert, mem_occurring]
    by_cases hi : i = 256
    · subst hi
      rw [Function.update_self]
      exact ⟨fun _ => .inl rfl, fun _ => ⟨Nat.lt_succ_self 256, one_ne_zero⟩⟩
    · rw [Function.update_of_ne hi]
      exact ⟨fun h => .inr ⟨by omega, h.2⟩, fun h => ⟨by omega, (h.resolve_left hi).2⟩⟩
  · intro hmem
    exact Nat.lt_irrefl 256 (mem_occurring.mp hmem).1

/-- What the steps of the table's making give: the lengths are counted, limited to 16, and one of
the largest length `l` is taken away; the real symbols are listed. -/
structure Made (freq : ℕ → ℕ) (t : Trees) (bits bits₁ bits₂ : ℕ → UInt8) (l : ℕ) : Prop where
  merged : mergeAll 257 (startTrees freq) = t
  lengths : Lengths (Function.update freq 256 1) t.codesize
  countedLengths : countLengths t.codesize = .ok bits
  counted : num bits = countsOf t.codesize (insert 256 (occurring freq))
  limitedLengths : limitLengths bits = some bits₁
  limited : Limited ((occurring freq).card + 1) 16 bits₁
  removed : removePseudo bits₁ = some bits₂
  le : l ≤ 16
  longest : ∀ k, l < k → num bits₁ k = 0
  less : ∀ k, num bits₂ k + (if k = l then 1 else 0) = num bits₁ k
  bounded : ∀ i < 257, t.codesize i ≤ maxClen
  listed : (symbolsBySize t.codesize).toFinset = occurring freq

variable {t : Trees} {bits bits₁ bits₂ : ℕ → UInt8} {l : ℕ}

theorem Made.result (h : Made freq t bits bits₁ bits₂ l) (htbl : JHuffTbl) : jpegGenOptimalTable htbl freq =
    .ok (some (fillTable htbl bits₂ (symbolsBySize t.codesize), t.freq)) := by
  rw [jpegGenOptimalTable, h.merged]
  change (countLengths t.codesize).bind _ = _
  rw [h.countedLengths]
  change Except.ok _ = _
  rw [h.limitedLengths]
  change Except.ok ((removePseudo bits₁).map _) = _
  rw [h.removed]
  rfl

theorem Made.counts_eq (h : Made freq t bits bits₁ bits₂ l) (htbl : JHuffTbl) :
    counts (fillTable htbl bits₂ (symbolsBySize t.codesize)) = num bits₂ := by
  refine counts_fillTable ?_ (fun k hk => ?_) htbl _
  · have hzero := h.less 0
    rw [num_eq_zero.mpr h.limited.front] at hzero
    omega
  · have hzero := h.less k
    rw [num_eq_zero.mpr (h.limited.above k hk)] at hzero
    omega

/-- The codewords that are left are as many as the real symbols. -/
theorem Made.shorter_eq (h : Made freq t bits bits₁ bits₂ l) :
    shorter (num bits₂) 17 = (occurring freq).card ∧ (symbolsBySize t.codesize).length = (occurring freq).card := by
  have hshort : shorter (num bits₁) 17 = (occurring freq).card + 1 := by
    rw [← h.limited.amount]
    refine (shorter_of_zero (fun k hk => ?_) (by decide)).symm
    exact num_eq_zero.mpr (h.limited.above k hk)
  have hone := (h.limited.complete.room h.le h.less).2 17 (Nat.lt_succ_of_le h.le)
  rw [hshort] at hone
  refine ⟨Nat.succ.inj hone, ?_⟩
  rw [← h.listed, List.toFinset_card_of_nodup (nodup_symbolsBySize t.codesize)]

theorem Made.index_lt (h : Made freq t bits bits₁ bits₂ l) {htbl : JHuffTbl}
    (s : Codeword (fillTable htbl bits₂ (symbolsBySize t.codesize))) : s.index < (symbolsBySize t.codesize).length := by
  rw [h.shorter_eq.2, ← h.shorter_eq.1, ← h.counts_eq htbl]
  exact s.index_lt

theorem Made.codes (h : Made freq t bits bits₁ bits₂ l) (hfew : (occurring freq).card ≤ 254) (htbl : JHuffTbl) :
    Codes freq (fillTable htbl bits₂ (symbolsBySize t.codesize)) := by
  refine codes_fillTable ⟨?_, ?_⟩ (nodup_symbolsBySize t.codesize) ?_ ?_
  · rw [h.counts_eq, h.shorter_eq.1]
    exact Nat.le_trans hfew (by decide)
  · rw [h.counts_eq]
    exact (h.limited.complete.room h.le h.less).1
  · intro j
    rw [← List.mem_toFinset, h.listed, mem_occurring]
  · rw [h.counts_eq, h.shorter_eq.1, h.shorter_eq.2]

/-- For few symbols the table is made, unless a code is too long in the first place, which takes
many symbols of very different counts. -/
theorem generate_cases (htotal : total freq ≤ 1000000000) (hsome : (occurring freq).Nonempty)
    (hfew : (occurring freq).card ≤ 254) : (∃ t bits bits₁ bits₂ l, Made freq t bits bits₁ bits₂ l) ∨
      (∀ htbl, jpegGenOptimalTable htbl freq = .error .clenOverflow) ∧ Nat.fib 35 ≤ total freq := by
  have hlengths := lengths_mergeAll htotal
  obtain ⟨hused, hpseudo⟩ := used_start freq
  have hcard := Finset.card_insert_of_notMem hpseudo
  have hmore : 1 < (used (Function.update freq 256 1)).card := by
    rw [hused, hcard]
    exact Nat.succ_lt_succ (Finset.card_pos.mpr hsome)
  have hcoded := coded_eq_used hlengths hmore
  generalize hrun : mergeAll 257 (startTrees freq) = t at *
  rcases @countLengths_cases t.codesize 257 with ⟨bits, hok, hle⟩ | ⟨herror, i, hi, hlong⟩
  · left
    have hfewCoded : (coded t.codesize 257).card ≤ 255 := by
      rw [hcoded, hused, hcard]
      exact Nat.succ_le_succ hfew
    obtain ⟨bits', hok', hnum⟩ := countLengths_upto hle hfewCoded
    obtain rfl := Except.ok.inj (hok'.symm.trans hok)
    rw [hcoded] at hnum hfewCoded
    obtain ⟨bits₁, hlimit, hlimited₁⟩ := (limited_of_lengths hlengths hmore hle hnum).limitLengths hfewCoded
    obtain ⟨bits₂, l, hremove, hlpos, hl, -, hlongest, hless⟩ := hlimited₁.removePseudo
    rw [hused] at hnum
    rw [hused, hcard] at hlimited₁
    refine ⟨t, bits', bits₁, bits₂, l, hrun, hlengths, hok, hnum, hlimit, hlimited₁, hremove, hl, hlongest, hless,
      hle, ?_⟩
    rw [toFinset_symbolsBySize hle]
    ext j
    have hj := Finset.ext_iff.mp (hcoded.trans hused) j
    rw [coded, Finset.mem_filter, Finset.mem_range, Finset.mem_insert] at hj
    rw [coded, Finset.mem_filter, Finset.mem_range]
    constructor
    · rintro ⟨hlt, hne⟩
      exact (hj.mp ⟨Nat.lt_succ_of_lt hlt, hne⟩).resolve_left (Nat.ne_of_lt hlt)
    · exact fun hocc => ⟨(mem_occurring.mp hocc).1, (hj.mpr (.inr hocc)).2⟩
  · right
    refine ⟨fun htbl => ?_, ?_⟩
    · rw [jpegGenOptimalTable, hrun]
      change (countLengths t.codesize).bind _ = _
      rw [countLengths, herror]
      rfl
    · have hmem : i ∈ used (Function.update freq 256 1) := by
        by_contra hunused
        rw [hlengths.unused i hunused] at hlong
        exact Nat.not_lt_zero _ hlong
      have hheight := hlengths.height i hmem
      rw [sum_startFreq] at hheight
      exact Nat.le_trans (Nat.fib_mono (Nat.add_le_add_right (Nat.succ_le_of_lt hlong) 2)) hheight

/-- Such a table is one that the encoder accepts, and it gives codes to the symbols that occur. -/
theorem Codes.makeC {htbl : JHuffTbl} (h : Codes freq htbl) {isDC : Bool} {tbls : TablePtrs} {tblno : ℕ}
    (hfind : findTable tbls tblno = .ok htbl) (hclass : ∀ i < 256, freq i ≠ 0 → i ≤ maxSymbol isDC) :
    ∃ dtbl, jpegMakeCDerivedTbl isDC tbls tblno = .ok dtbl ∧ EncodingTable htbl dtbl ∧
      ∀ i, dtbl.ehufsi i ≠ 0 ↔ i < 256 ∧ freq i ≠ 0 := by
  have hdistinct : DistinctSymbols htbl isDC :=
    ⟨fun s => hclass s.symbol (h.counted s).1 (h.counted s).2, h.injective⟩
  obtain ⟨dtbl, hmake, htable⟩ := makeC_of_valid hfind h.valid hdistinct
  refine ⟨dtbl, hmake, htable, fun i => ?_⟩
  constructor
  · intro hne
    obtain ⟨s, rfl⟩ := htable.source i hne
    exact h.counted s
  · rintro ⟨hi, hne⟩
    obtain ⟨s, rfl⟩ := h.covers i hi hne
    rw [htable.size s]
    exact Nat.one_le_iff_ne_zero.mp (len_pos s)

end Generated

section Least
variable {freq : ℕ → ℕ} {t : Trees}

theorem limitLengths_self {bits : ℕ → UInt8} (h : ∀ k, 16 < k → bits k = 0) : limitLengths bits = some bits := by
  have hdown : ∀ d, (List.range' 17 d).foldrM (fun i bits => emptyLength i 129 bits) bits = some bits := by
    intro d
    induction d with
    | zero => rfl
    | succ d ih =>
      have hempty : emptyLength (17 + d) 129 bits = some bits := if_pos (h (17 + d) (by omega))
      rw [List.range'_concat, List.foldrM_append, Nat.one_mul]
      change (emptyLength (17 + d) 129 bits >>= pure) >>= _ = _
      rw [bind_pure, hempty]
      exact ih
  exact hdown 16

theorem Made.len_le {bits bits₁ bits₂ : ℕ → UInt8} {l : ℕ} (h : Made freq t bits bits₁ bits₂ l)
    (hshort : ∀ i < 257, t.codesize i ≤ 16) {htbl : JHuffTbl}
    (s : Codeword (fillTable htbl bits₂ (symbolsBySize t.codesize))) : s.len ≤ t.codesize s.symbol := by
  have hpseudo := (used_start freq).2
  have hsame : bits₁ = bits := by
    have hself : limitLengths bits = some bits := by
      refine limitLengths_self (fun k hk => ?_)
      rw [← num_eq_zero, h.counted, countsOf, Finset.card_eq_zero, Finset.filter_eq_empty_iff]
      rintro i hi rfl
      have hi' : i < 257 := by
        rcases Finset.mem_insert.mp hi with rfl | hocc
        · exact Nat.lt_succ_self 256
        · exact Nat.lt_succ_of_lt (mem_occurring.mp hocc).1
      exact absurd (hshort i hi') (Nat.not_le.mpr hk)
    exact Option.some.inj (h.limitedLengths.symm.trans hself)
  have hsymbol := symbol_fillTable (fun _ hj => (mem_symbolsBySize.mp hj).1) s (h.index_lt s)
  have hplace := index_lt_card (h.index_lt s)
  rw [h.listed, ← hsymbol] at hplace
  generalize t.codesize s.symbol = k at hplace ⊢
  by_contra hlong
  -- the codewords of up to `k` bits are all in front of `s`, and are too few for the symbols
  have hfront : shorter (num bits₂) (k + 1) ≤ s.index := by
    rw [← h.counts_eq htbl]
    exact Nat.le_trans (shorter_mono _ (Nat.lt_of_not_le hlong)) (Nat.le_add_right _ _)
  have hall := shorter_countsOf_filter t.codesize (k + 1) (insert 256 (occurring freq))
  rw [← h.counted, ← hsame, Finset.filter_insert] at hall
  by_cases hlk : l ≤ k
  · have hless := (h.limited.complete.room h.le h.less).2 (k + 1) (Nat.lt_succ_of_le hlk)
    have hpseudoLen : t.codesize 256 < k + 1 := by
      by_contra hbeyond
      have hzero := h.longest (t.codesize 256) (by omega)
      rw [hsame, h.counted, countsOf, Finset.card_eq_zero, Finset.filter_eq_empty_iff] at hzero
      exact hzero (Finset.mem_insert_self 256 _) rfl
    rw [if_pos hpseudoLen, Finset.card_insert_of_notMem (fun hmem => hpseudo (Finset.mem_filter.mp hmem).1)] at hall
    omega
  · have heq : shorter (num bits₂) (k + 1) = shorter (num bits₁) (k + 1) := by
      rw [shorter_eq_sum, shorter_eq_sum]
      refine Finset.sum_congr rfl (fun i hi => ?_)
      have hi := h.less i
      rw [if_neg (by rw [Finset.mem_range] at *; omega)] at hi
      exact hi
    have hmono : {i ∈ occurring freq | t.codesize i < k + 1}.card ≤ shorter (num bits₁) (k + 1) := by
      rw [hall]
      refine Finset.card_le_card ?_
      split_ifs
      · exact Finset.subset_insert _ _
      · exact Finset.Subset.refl _
    omega

/-- The symbols that an accepted table codes, and a codeword of 16 bits, have room together. -/
theorem kraft_ehufsi_le {htbl : JHuffTbl} {dtbl : CDerivedTbl} (hvalid : Valid htbl) (h : EncodingTable htbl dtbl)
    {symbols : Finset ℕ} (hcoded : ∀ i ∈ symbols, dtbl.ehufsi i ≠ 0) :
    kraft dtbl.ehufsi symbols + (1 / 2) ^ 16 ≤ 1 := by
  have hcodeword : ∀ i ∈ symbols, ∃ s : Codeword htbl, s.symbol = i ∧ dtbl.ehufsi i = s.len := by
    intro i hi
    obtain ⟨s, hs⟩ := h.source i (hcoded i hi)
    refine ⟨s, hs, ?_⟩
    rw [← hs]
    exact h.size s
  have hle : ∀ i ∈ symbols, dtbl.ehufsi i ≤ 16 := by
    intro i hi
    obtain ⟨s, -, hlen⟩ := hcodeword i hi
    rw [hlen]
    exact s.len_le
  have hcounts : ∀ k, countsOf dtbl.ehufsi symbols k ≤ counts htbl k := by
    intro k
    -- the ranks of the codewords of length `k` tell the symbols apart
    by_cases hk : k ≤ 16
    · have hsub : {i ∈ symbols | dtbl.ehufsi i = k} ⊆
          Finset.univ.image (fun r : Fin (counts htbl k) => Codeword.symbol ⟨k, r, hk, r.isLt⟩) := by
        intro i hi
        obtain ⟨hi, hik⟩ := Finset.mem_filter.mp hi
        obtain ⟨s, hs, hlen⟩ := hcodeword i hi
        have hsk : s.len = k := hlen.symm.trans hik
        have hrank := s.rank_lt
        rw [hsk] at hrank
        refine Finset.mem_image.mpr ⟨⟨s.rank, hrank⟩, Finset.mem_univ _, ?_⟩
        rw [← hs]
        exact congrArg Codeword.symbol (Slot.ext hsk.symm rfl)
      have hcard := Nat.le_trans (Finset.card_le_card hsub) Finset.card_image_le
      rwa [Finset.card_univ, Fintype.card_fin] at hcard
    · have hempty : {i ∈ symbols | dtbl.ehufsi i = k} = ∅ := by
        refine Finset.filter_eq_empty_iff.mpr (fun i hi hik => hk ?_)
        rw [← hik]
        exact hle i hi
      rw [countsOf, hempty]
      exact Nat.zero_le _
  have hpast := pastCode_countsOf hle
  have hroom : (pastCode (countsOf dtbl.ehufsi symbols) 16 : ℚ) + 1 ≤ 2 ^ 16 := by
    exact_mod_cast Nat.lt_of_le_of_lt (pastCode_le hcounts) hvalid.room
  rw [hpast] at hroom
  linarith

theorem cost_occurring (freq length : ℕ → ℕ) :
    ∑ i ∈ Finset.range 256, freq i * length i = cost freq length (occurring freq) := by
  rw [cost, occurring, Finset.sum_filter]
  refine Finset.sum_congr rfl (fun i _ => ?_)
  split_ifs with hne
  · rfl
  · rw [not_not.mp hne, Nat.zero_mul]

theorem cost_start (freq length : ℕ → ℕ) :
    cost (Function.update freq 256 1) length (used (Function.update freq 256 1)) =
      length 256 + cost freq length (occurring freq) := by
  obtain ⟨hused, hpseudo⟩ := used_start freq
  have hreal : ∀ i ∈ occurring freq, Function.update freq 256 1 i = freq i := by
    intro i hi
    refine Function.update_of_ne ?_ _ _
    rintro rfl
    exact hpseudo hi
  rw [hused, cost, Finset.sum_insert hpseudo, Function.update_self, Nat.one_mul]
  exact congrArg (length 256 + ·) (cost_congr hreal)

section Results
variable {htbl htbl' : JHuffTbl} {left : ℕ → ℕ}

/-- The table for the counts of at most 254 symbols is accepted by the encoder and by the decoder,
and it codes exactly the symbols that occur. Only for very many symbols a code can be too long. -/
theorem jpegGenOptimalTable_accepted (htbl : JHuffTbl) (htotal : total freq ≤ 1000000000)
    (hsome : ∃ i < 256, freq i ≠ 0) (hfew : {i ∈ Finset.range 256 | freq i ≠ 0}.card ≤ 254) :
    (∃ htbl' left, jpegGenOptimalTable htbl freq = .ok (some (htbl', left)) ∧
      ∀ isDC tbls tblno, findTable tbls tblno = .ok htbl' → (∀ i < 256, freq i ≠ 0 → i ≤ maxSymbol isDC) →
        ∃ ctbl dtbl, jpegMakeCDerivedTbl isDC tbls tblno = .ok ctbl ∧ jpegMakeDDerivedTbl isDC tbls tblno = .ok dtbl ∧
          ∀ i, ctbl.ehufsi i ≠ 0 ↔ i < 256 ∧ freq i ≠ 0) ∨
    (jpegGenOptimalTable htbl freq = .error .clenOverflow ∧ Nat.fib 35 ≤ total freq) := by
  have hnonempty : (occurring freq).Nonempty := by
    obtain ⟨i, hi, hne⟩ := hsome
    exact ⟨i, mem_occurring.mpr ⟨hi, hne⟩⟩
  rcases generate_cases htotal hnonempty hfew with ⟨t, bits, bits₁, bits₂, l, hmade⟩ | ⟨herror, hmany⟩
  · refine .inl ⟨_, _, hmade.result htbl, ?_⟩
    intro isDC tbls tblno hfind hclass
    obtain ⟨ctbl, hmake, -, hcodes⟩ := (hmade.codes hfew htbl).makeC hfind hclass
    obtain ⟨-, dtbl, hmake', -⟩ := makeD_of_makeC hmake
    exact ⟨ctbl, dtbl, hmake, hmake', hcodes⟩
  · exact .inr ⟨herror htbl, hmany⟩

/-- Five blocks without a difference. -/
def fiveZeros (i : ℕ) : ℕ := if i = 0 then 5 else 0

theorem total_fiveZeros : total fiveZeros = 6 := by
  rw [total]
  simp only [fiveZeros]
  rw [Finset.sum_ite_eq' (Finset.range 256) 0, if_pos (Finset.mem_range.mpr (Nat.succ_pos 255))]

theorem few_fiveZeros : {i ∈ Finset.range 256 | fiveZeros i ≠ 0}.card ≤ 254 := by
  have hsub : {i ∈ Finset.range 256 | fiveZeros i ≠ 0} ⊆ {0} := by
    intro i hi
    rw [Finset.mem_singleton]
    by_contra hne
    exact (Finset.mem_filter.mp hi).2 (if_neg hne)
  exact Nat.le_trans (Finset.card_le_card hsub) (by decide)

theorem total_fiveZeros_lt : total fiveZeros < Nat.fib 19 := by
  rw [total_fiveZeros]
  exact Nat.lt_of_lt_of_le (by decide : 6 < Nat.fib 6) (Nat.fib_mono (by decide))

theorem jpegGenOptimalTable_accepted_fiveZeros :
    ∃ htbl' left, jpegGenOptimalTable oneSymbolTable fiveZeros = .ok (some (htbl', left)) := by
  rcases jpegGenOptimalTable_accepted oneSymbolTable (total_fiveZeros.le.trans (by decide))
    ⟨0, Nat.succ_pos 255, by decide⟩ few_fiveZeros with ⟨htbl', left, hok, -⟩ | ⟨-, hmany⟩
  · exact ⟨htbl', left, hok⟩
  · have hle := Nat.le_trans (@Nat.fib_mono 19 35 (by decide)) hmany
    exact absurd total_fiveZeros_lt (Nat.not_lt.mpr hle)

/-- Where the tree is not too deep, no table that the encoder accepts codes the symbols that occur
with sixteen bits less. -/
theorem jpegGenOptimalTable_least (htotal : total freq ≤ 1000000000)
    (hfew : {i ∈ Finset.range 256 | freq i ≠ 0}.card ≤ 254)
    (hshort : ∀ i < 257, (mergeAll 257 (startTrees freq)).codesize i ≤ 16)
    (hgen : jpegGenOptimalTable htbl freq = .ok (some (htbl', left))) {isDC isDC' : Bool} {tbls tbls' : TablePtrs}
    {tblno tblno' : ℕ} {dtbl dtbl' : CDerivedTbl} (hfind : findTable tbls tblno = .ok htbl')
    (hmake : jpegMakeCDerivedTbl isDC tbls tblno = .ok dtbl)
    (hmake' : jpegMakeCDerivedTbl isDC' tbls' tblno' = .ok dtbl')
    (hcoded : ∀ i < 256, freq i ≠ 0 → dtbl'.ehufsi i ≠ 0) :
    ∑ i ∈ Finset.range 256, freq i * dtbl.ehufsi i ≤ ∑ i ∈ Finset.range 256, freq i * dtbl'.ehufsi i + 15 := by
  rw [cost_occurring, cost_occurring]
  rcases (occurring freq).eq_empty_or_nonempty with hempty | hnonempty
  · rw [hempty]
    exact Nat.zero_le _
  · obtain ⟨hused, hpseudo⟩ := used_start freq
    have hmem : ∀ i ∈ occurring freq, i ≠ 256 := fun i hi heq => hpseudo (heq.subst hi)
    -- any other table has room for a pseudo-symbol of sixteen bits
    obtain ⟨htbl₂, -, hvalid₂, -, htable₂⟩ := makeC_sound hmake'
    have hroom := @kraft_ehufsi_le htbl₂ dtbl' hvalid₂ htable₂ (occurring freq)
      (fun i hi => hcoded i (mem_occurring.mp hi).1 (mem_occurring.mp hi).2)
    have hlegal : kraft (Function.update dtbl'.ehufsi 256 16) (used (Function.update freq 256 1)) ≤ 1 := by
      rw [hused, kraft_insert hpseudo, kraft_update hpseudo, Function.update_self]
      linarith
    have hbest := cost_mergeAll_le htotal hlegal
    rw [cost_start, cost_start, Function.update_self] at hbest
    have hother : cost freq (Function.update dtbl'.ehufsi 256 16) (occurring freq) = cost freq dtbl'.ehufsi (occurring freq) :=
      Finset.sum_congr rfl (fun i hi => by rw [Function.update_of_ne (hmem i hi)])
    have hpos : (mergeAll 257 (startTrees freq)).codesize 256 ≠ 0 := by
      obtain ⟨i, hi⟩ := hnonempty
      have hwhole := (lengths_mergeAll htotal).whole.le
      rw [hused] at hwhole
      exact length_ne_zero hwhole (Finset.mem_insert_self 256 _) (Finset.mem_insert_of_mem hi) (hmem i hi).symm
    have htable : cost freq dtbl.ehufsi (occurring freq) ≤
        cost freq (mergeAll 257 (startTrees freq)).codesize (occurring freq) := by
      rcases generate_cases htotal hnonempty hfew with ⟨t, bits, bits₁, bits₂, l, hmade⟩ | ⟨herror, -⟩
      · have hresult := hgen.symm.trans (hmade.result htbl)
        obtain rfl : htbl' = _ := congrArg Prod.fst (Option.some.inj (Except.ok.inj hresult))
        obtain ⟨htbl₁, hfind₁, -, -, htable₁⟩ := makeC_sound hmake
        obtain rfl := Except.ok.inj (hfind₁.symm.trans hfind)
        refine Finset.sum_le_sum (fun i hi => Nat.mul_le_mul_left _ ?_)
        obtain ⟨s, rfl⟩ := (hmade.codes hfew htbl).covers i (mem_occurring.mp hi).1 (mem_occurring.mp hi).2
        rw [htable₁.size s, hmade.merged]
        rw [hmade.merged] at hshort
        exact hmade.len_le hshort s
      · rw [herror htbl] at hgen
        exact absurd hgen (by simp)
    rw [hother] at hbest
    omega

theorem jpegGenOptimalTable_least_fiveZeros : ∃ htbl' dtbl dtbl',
    jpegMakeCDerivedTbl true (fun _ => some htbl') 0 = .ok dtbl ∧
    jpegMakeCDerivedTbl true (fun _ => some oneSymbolTable) 0 = .ok dtbl' ∧
    ∑ i ∈ Finset.range 256, fiveZeros i * dtbl.ehufsi i ≤
      ∑ i ∈ Finset.range 256, fiveZeros i * dtbl'.ehufsi i + 15 := by
  have htotal : total fiveZeros ≤ 1000000000 := total_fiveZeros.le.trans (by decide)
  have hzero : ∀ i < 256, fiveZeros i ≠ 0 → i = 0 := by
    intro i _ hi
    by_contra hne
    exact hi (if_neg hne)
  have hnonempty : (occurring fiveZeros).Nonempty := ⟨0, mem_occurring.mpr ⟨Nat.succ_pos 255, by decide⟩⟩
  rcases generate_cases htotal hnonempty few_fiveZeros with ⟨t, bits, bits₁, bits₂, l, hmade⟩ | ⟨-, hmany⟩
  · have hgen := hmade.result oneSymbolTable
    obtain ⟨dtbl, hmake, -, hcodes⟩ := @Codes.makeC fiveZeros _ (hmade.codes few_fiveZeros oneSymbolTable) true
      (fun _ => some (fillTable oneSymbolTable bits₂ (symbolsBySize t.codesize))) 0 rfl
      (fun i hi hne => (hzero i hi hne).le.trans (Nat.zero_le _))
    obtain ⟨dtbl', hmake', hsize⟩ : ∃ dtbl', jpegMakeCDerivedTbl true (fun _ => some oneSymbolTable) 0 = .ok dtbl' ∧
        dtbl'.ehufsi 0 ≠ 0 := ⟨_, rfl, by decide⟩
    refine ⟨_, dtbl, dtbl', hmake, hmake', ?_⟩
    refine jpegGenOptimalTable_least htotal few_fiveZeros ?_ hgen rfl hmake hmake' ?_
    · exact fun i _ => (lengths_mergeAll htotal).le_of_total total_fiveZeros_lt i
    · intro i hi hne
      rw [hzero i hi hne]
      exact hsize
  · have hle := Nat.le_trans (@Nat.fib_mono 19 35 (by decide)) hmany
    exact absurd total_fiveZeros_lt (Nat.not_lt.mpr hle)

end Results

end Least

end Jp4Tools.GeneratedTables
