import Jp4Tools.CodeLengths
import Jp4Tools.HuffmanTables
import Mathlib.Data.Nat.Fib.Basic

/-!
# Optimal Huffman tables

`jpegGenOptimalTable` makes a table for the counts of the symbols of a scan. It merges the two
smallest counts until one is left, counts the codewords of each length, shortens the ones that are
longer than 16 bits, and takes one codeword away, which leaves the codeword of all ones unused.
-/

namespace Jp4Tools.OptimalTables
open CanonicalCodes CodeLengths HuffmanTables

def maxClen : ℕ := 32

/-- The counts of the symbols 0 to 256, their code lengths, and the next symbol in the current
branch of the tree, of which `none` is −1. -/
structure Trees where
  freq : ℕ → ℕ
  codesize : ℕ → ℕ
  others : ℕ → Option ℕ

section Source

def pickStep (freq : ℕ → ℕ) (skip : Option ℕ) (s : ℕ × Option ℕ) (i : ℕ) : ℕ × Option ℕ :=
  if freq i ≠ 0 ∧ freq i ≤ s.1 ∧ some i ≠ skip then (freq i, some i) else s

/-- The symbol of the smallest nonzero count, the largest in case of ties, that is not `skip`. -/
def smallest (freq : ℕ → ℕ) (skip : Option ℕ) : Option ℕ :=
  ((List.range 257).foldl (pickStep freq skip) (1000000000, none)).2

/-- Increments the code length of everything in the branch of `c`, and finds its end. A branch has
at most 257 symbols. -/
def lengthen (others : ℕ → Option ℕ) : ℕ → (ℕ → ℕ) → ℕ → (ℕ → ℕ) × ℕ
  | 0, codesize, c => (codesize, c)
  | fuel + 1, codesize, c =>
    match others c with
    | none => (Function.update codesize c (codesize c + 1), c)
    | some c' => lengthen others fuel (Function.update codesize c (codesize c + 1)) c'

def Trees.merge (t : Trees) (c1 c2 : ℕ) : Trees :=
  let first := lengthen t.others 257 t.codesize c1
  let others := Function.update t.others first.2 (some c2)
  { freq := Function.update (Function.update t.freq c1 (t.freq c1 + t.freq c2)) c2 0
    codesize := (lengthen others 257 first.1 c2).1
    others := others }

/-- Merges until one count is left. Each time there is one less. -/
def mergeAll : ℕ → Trees → Trees
  | 0, t => t
  | fuel + 1, t =>
    match smallest t.freq none with
    | none => t
    | some c1 =>
      match smallest t.freq (some c1) with
      | none => t
      | some c2 => mergeAll fuel (t.merge c1 c2)

/-- The arrays before the first merge. The pseudo-symbol 256 has a nonzero count. -/
def startTrees (freq : ℕ → ℕ) : Trees where
  freq := Function.update freq 256 1
  codesize _ := 0
  others _ := none

def countLength (codesize : ℕ → ℕ) (bits : ℕ → UInt8) (i : ℕ) : Except HuffError (ℕ → UInt8) :=
  if codesize i = 0 then .ok bits
  else if maxClen < codesize i then .error .clenOverflow
  else .ok (Function.update bits (codesize i) (bits (codesize i) + 1))

def countLengths (codesize : ℕ → ℕ) : Except HuffError (ℕ → UInt8) :=
  (List.range 257).foldlM (countLength codesize) (fun _ => 0)

/-- The largest length up to `j` that is in use; `none` is a read in front of the array. -/
def lastUsed (bits : ℕ → UInt8) : ℕ → Option ℕ
  | 0 => if bits 0 = 0 then none else some 0
  | j + 1 => if bits (j + 1) = 0 then lastUsed bits j else some (j + 1)

/-- Removes two symbols of the length `i`: one goes to the next shorter length, the other shares
the codeword of a symbol of the length `j`. -/
def movePair (bits : ℕ → UInt8) (i j : ℕ) : ℕ → UInt8 :=
  let bits := Function.update bits i (bits i - 2)
  let bits := Function.update bits (i - 1) (bits (i - 1) + 1)
  let bits := Function.update bits (j + 1) (bits (j + 1) + 2)
  Function.update bits j (bits j - 1)

/-- Empties the length `i`. There are never more than 256 symbols of a length. -/
def emptyLength (i : ℕ) : ℕ → (ℕ → UInt8) → Option (ℕ → UInt8)
  | 0, _ => none
  | fuel + 1, bits =>
    if bits i = 0 then some bits
    else (lastUsed bits (i - 2)).bind (fun j => emptyLength i fuel (movePair bits i j))

def limitLengths (bits : ℕ → UInt8) : Option (ℕ → UInt8) :=
  (List.range' 17 (maxClen - 16)).foldrM (fun i bits => emptyLength i 129 bits) bits

def removePseudo (bits : ℕ → UInt8) : Option (ℕ → UInt8) :=
  (lastUsed bits 16).map (fun i => Function.update bits i (bits i - 1))

def symbolsBySize (codesize : ℕ → ℕ) : List ℕ :=
  (List.range' 1 maxClen).flatMap (fun i => (List.range 256).filter (fun j => codesize j = i))

def fillTable (htbl : JHuffTbl) (bits : ℕ → UInt8) (symbols : List ℕ) : JHuffTbl where
  bits k := if k ≤ 16 then bits k else htbl.bits k
  huffval p := if h : p < symbols.length then UInt8.ofNat symbols[p] else htbl.huffval p
  sentTable := false

/-- The table for the counts, and what is left of the counts. It is `none` where the search for a
length that is in use runs in front of the array. -/
def jpegGenOptimalTable (htbl : JHuffTbl) (freq : ℕ → ℕ) :
    Except HuffError (Option (JHuffTbl × (ℕ → ℕ))) := do
  let t := mergeAll 257 (startTrees freq)
  let bits ← countLengths t.codesize
  .ok (((limitLengths bits).bind removePseudo).map
    (fun bits => (fillTable htbl bits (symbolsBySize t.codesize), t.freq)))

end Source

section Smallest
variable {freq : ℕ → ℕ} {skip : Option ℕ}

def Candidate (freq : ℕ → ℕ) (skip : Option ℕ) (i : ℕ) : Prop := freq i ≠ 0 ∧ some i ≠ skip

structure Searched (freq : ℕ → ℕ) (skip : Option ℕ) (n : ℕ) (s : ℕ × Option ℕ) : Prop where
  nothing : s.2 = none → s.1 = 1000000000 ∧ ∀ i < n, ¬ Candidate freq skip i
  found : ∀ c, s.2 = some c → c < n ∧ Candidate freq skip c ∧ s.1 = freq c
  least : ∀ i < n, Candidate freq skip i → s.1 ≤ freq i

theorem Searched.pickStep {n : ℕ} {s : ℕ × Option ℕ} (h : Searched freq skip n s)
    (hfreq : freq n ≤ 1000000000) : Searched freq skip (n + 1) (pickStep freq skip s n) := by
  rw [OptimalTables.pickStep]
  split_ifs with hpick
  · obtain ⟨hne, hle, hskip⟩ := hpick
    constructor
    case nothing => exact fun hnone => absurd hnone (Option.some_ne_none n)
    case found =>
      intro c hc
      obtain rfl := Option.some.inj hc
      exact ⟨Nat.lt_succ_self n, ⟨hne, hskip⟩, rfl⟩
    case least =>
      intro i hi hcand
      rcases Nat.lt_succ_iff_lt_or_eq.mp hi with hlt | rfl
      · exact Nat.le_trans hle (h.least i hlt hcand)
      · exact Nat.le_refl _
  · constructor
    case nothing =>
      intro hnone
      obtain ⟨hv, hbelow⟩ := h.nothing hnone
      refine ⟨hv, fun i hi hcand => ?_⟩
      rcases Nat.lt_succ_iff_lt_or_eq.mp hi with hlt | rfl
      · exact hbelow i hlt hcand
      · exact hpick ⟨hcand.1, by rw [hv]; exact hfreq, hcand.2⟩
    case found =>
      intro c hc
      obtain ⟨hlt, hcand, hv⟩ := h.found c hc
      exact ⟨Nat.lt_succ_of_lt hlt, hcand, hv⟩
    case least =>
      intro i hi hcand
      rcases Nat.lt_succ_iff_lt_or_eq.mp hi with hlt | rfl
      · exact h.least i hlt hcand
      · by_contra hbelow
        exact hpick ⟨hcand.1, Nat.le_of_lt (Nat.lt_of_not_le hbelow), hcand.2⟩

theorem searched (hfreq : ∀ i < 257, freq i ≤ 1000000000) {n : ℕ} (hn : n ≤ 257) :
    Searched freq skip n ((List.range n).foldl (pickStep freq skip) (1000000000, none)) := by
  induction n with
  | zero =>
    exact ⟨fun _ => ⟨rfl, fun i hi => absurd hi (Nat.not_lt_zero i)⟩,
      fun c hc => absurd hc (Option.some_ne_none c).symm, fun i hi => absurd hi (Nat.not_lt_zero i)⟩
  | succ n ih =>
    rw [List.range_succ, List.foldl_append]
    exact (ih (Nat.le_of_succ_le hn)).pickStep (hfreq n hn)

theorem smallest_none (hfreq : ∀ i < 257, freq i ≤ 1000000000) (h : smallest freq skip = none) :
    ∀ i < 257, freq i ≠ 0 → some i = skip := by
  intro i hi hne
  by_contra hskip
  exact ((searched hfreq (Nat.le_refl _)).nothing h).2 i hi ⟨hne, hskip⟩

theorem smallest_some (hfreq : ∀ i < 257, freq i ≤ 1000000000) {c : ℕ} (h : smallest freq skip = some c) :
    c < 257 ∧ freq c ≠ 0 ∧ some c ≠ skip ∧ ∀ i < 257, freq i ≠ 0 → some i ≠ skip → freq c ≤ freq i := by
  have hsearched := @searched freq skip hfreq _ (Nat.le_refl _)
  obtain ⟨hlt, hcand, hv⟩ := hsearched.found c h
  refine ⟨hlt, hcand.1, hcand.2, fun i hi hne hskip => ?_⟩
  have hleast := hsearched.least i hi ⟨hne, hskip⟩
  rw [hv] at hleast
  exact hleast

end Smallest

section Branches
variable {others : ℕ → Option ℕ}

def Linked (others : ℕ → Option ℕ) : List ℕ → Prop
  | [] => True
  | c :: branch => others c = branch.head? ∧ Linked others branch

theorem Linked.congr {others' : ℕ → Option ℕ} {branch : List ℕ} (h : Linked others branch)
    (heq : ∀ c ∈ branch, others' c = others c) : Linked others' branch := by
  induction branch with
  | nil => trivial
  | cons c branch ih =>
    exact ⟨(heq c List.mem_cons_self).trans h.1, ih h.2 (fun d hd => heq d (List.mem_cons_of_mem c hd))⟩

/-- The walk lengthens exactly the symbols of the branch, and stops at the last one. -/
theorem lengthen_eq {c : ℕ} {branch : List ℕ} (h : Linked others (c :: branch)) (hnodup : (c :: branch).Nodup)
    {fuel : ℕ} (hfuel : branch.length < fuel) (codesize : ℕ → ℕ) : lengthen others fuel codesize c =
      (fun s => codesize s + if s ∈ c :: branch then 1 else 0, (c :: branch).getLast (List.cons_ne_nil c branch)) := by
  induction branch generalizing c fuel codesize with
  | nil =>
    obtain ⟨fuel, rfl⟩ := Nat.exists_eq_add_of_lt hfuel
    have hend : others c = none := h.1
    rw [lengthen, hend]
    refine Prod.ext (funext fun s => ?_) rfl
    by_cases hs : s = c
    · subst hs
      simp
    · simp [hs]
  | cons d branch ih =>
    obtain ⟨fuel, rfl⟩ : ∃ k, fuel = k + 1 := ⟨fuel - 1, by omega⟩
    have hnext : others c = some d := h.1
    rw [lengthen, hnext]
    dsimp only
    rw [ih h.2 (List.nodup_cons.mp hnodup).2 (Nat.lt_of_succ_lt_succ hfuel)]
    refine Prod.ext (funext fun s => ?_) rfl
    have hnot : c ∉ d :: branch := (List.nodup_cons.mp hnodup).1
    by_cases hs : s = c
    · subst hs
      simp only [Function.update_self, if_neg hnot, List.mem_cons_self, if_true, Nat.add_zero]
    · simp only [Function.update_of_ne hs, List.mem_cons (a := s) (b := c), hs, false_or]

theorem Linked.append {c c' : ℕ} {branch branch' : List ℕ} (h : Linked others (c :: branch))
    (h' : Linked others (c' :: branch')) (hnodup : ((c :: branch) ++ c' :: branch').Nodup) :
    Linked (Function.update others ((c :: branch).getLast (List.cons_ne_nil c branch)) (some c'))
      ((c :: branch) ++ c' :: branch') := by
  induction branch generalizing c with
  | nil =>
    have hnot : c ∉ c' :: branch' := (List.nodup_cons.mp hnodup).1
    refine ⟨Function.update_self c _ _, h'.congr (fun d hd => Function.update_of_ne ?_ _ _)⟩
    rintro rfl
    exact hnot hd
  | cons d branch ih =>
    have hrest := ih h.2 (List.nodup_cons.mp hnodup).2
    have hlast : (c :: d :: branch).getLast (List.cons_ne_nil c _) = (d :: branch).getLast (List.cons_ne_nil d _) :=
      List.getLast_cons (List.cons_ne_nil d branch)
    have hne : c ≠ (d :: branch).getLast (List.cons_ne_nil d _) := by
      intro heq
      refine (List.nodup_cons.mp hnodup).1 (List.mem_append_left _ ?_)
      rw [heq]
      exact List.getLast_mem _
    rw [hlast]
    exact ⟨(Function.update_of_ne hne _ _).trans h.1, hrest⟩

end Branches

section Forests

/-- The symbols with a nonzero count; in the course of the merging, the roots of the trees. -/
def used (freq : ℕ → ℕ) : Finset ℕ := {i ∈ Finset.range 257 | freq i ≠ 0}

theorem mem_used {freq : ℕ → ℕ} {i : ℕ} : i ∈ used freq ↔ i < 257 ∧ freq i ≠ 0 := by
  rw [used, Finset.mem_filter, Finset.mem_range]

/-- The branches are trees over the symbols of `freq`, each with its symbols' counts at the root.
A deep tree has large counts, and so have the trees that were not merged before it. -/
structure Forest (freq : ℕ → ℕ) (t : Trees) (branch : ℕ → List ℕ) : Prop where
  linked : ∀ c ∈ used t.freq, ∃ rest, branch c = c :: rest ∧ Linked t.others (c :: rest)
  nodup : ∀ c ∈ used t.freq, (branch c).Nodup
  disjoint : ∀ c ∈ used t.freq, ∀ d ∈ used t.freq, c ≠ d → (branch c).Disjoint (branch d)
  mem : ∀ s, s ∈ used freq ↔ ∃ c ∈ used t.freq, s ∈ branch c
  unused : ∀ s, s ∉ used freq → t.codesize s = 0
  total : ∑ i ∈ Finset.range 257, t.freq i = ∑ i ∈ Finset.range 257, freq i
  whole : ∀ c ∈ used t.freq, kraft t.codesize (branch c).toFinset = 1
  height : ∀ c ∈ used t.freq, ∀ s ∈ branch c, Nat.fib (t.codesize s + 2) ≤ t.freq c
  beside : ∀ c ∈ used t.freq, ∀ d ∈ used t.freq, d ≠ c → ∀ s ∈ branch c, Nat.fib (t.codesize s + 1) ≤ t.freq d

theorem forest_start (freq : ℕ → ℕ) :
    Forest (Function.update freq 256 1) (startTrees freq) (fun c => [c]) where
  linked := fun c _ => ⟨[], rfl, rfl, trivial⟩
  nodup := fun c _ => List.nodup_singleton c
  disjoint := by
    intro c _ d _ hne s hc hd
    rw [List.mem_singleton] at hc hd
    exact hne (hc.symm.trans hd)
  mem := by
    intro s
    constructor
    · exact fun hs => ⟨s, hs, List.mem_singleton_self s⟩
    · rintro ⟨c, hc, hs⟩
      rw [List.mem_singleton.mp hs]
      exact hc
  unused := fun _ _ => rfl
  total := rfl
  whole := by
    intro c _
    change ∑ s ∈ insert c ∅, (1 / 2 : ℚ) ^ 0 = 1
    simp
  height := fun c hc s _ => Nat.one_le_iff_ne_zero.mpr (mem_used.mp hc).2
  beside := fun c _ d hd _ s _ => Nat.one_le_iff_ne_zero.mpr (mem_used.mp hd).2

variable {freq : ℕ → ℕ} {t : Trees} {branch : ℕ → List ℕ} {c₁ c₂ : ℕ}

theorem Forest.lt (h : Forest freq t branch) {c s : ℕ} (hc : c ∈ used t.freq) (hs : s ∈ branch c) : s < 257 :=
  (mem_used.mp ((h.mem s).mpr ⟨c, hc, hs⟩)).1

theorem Forest.length_le (h : Forest freq t branch) {c : ℕ} (hc : c ∈ used t.freq) : (branch c).length ≤ 257 := by
  have hsub : branch c ⊆ List.range 257 := fun s hs => List.mem_range.mpr (h.lt hc hs)
  have hle := (List.subperm_of_subset (h.nodup c hc) hsub).length_le
  rwa [List.length_range] at hle

theorem Forest.freq_le (h : Forest freq t branch) {i : ℕ} (hi : i < 257) :
    t.freq i ≤ ∑ i ∈ Finset.range 257, freq i := by
  rw [← h.total]
  exact Finset.single_le_sum (fun _ _ => Nat.zero_le _) (Finset.mem_range.mpr hi)

theorem Forest.merge_eq (h : Forest freq t branch) (h₁ : c₁ ∈ used t.freq) (h₂ : c₂ ∈ used t.freq) (hne : c₁ ≠ c₂) :
    ∃ others', t.merge c₁ c₂ =
        { freq := Function.update (Function.update t.freq c₁ (t.freq c₁ + t.freq c₂)) c₂ 0
          codesize := fun s => t.codesize s + if s ∈ branch c₁ ++ branch c₂ then 1 else 0
          others := others' } ∧
      Linked others' (branch c₁ ++ branch c₂) ∧ ∀ s, s ∉ branch c₁ → others' s = t.others s := by
  have hdisjoint := h.disjoint c₁ h₁ c₂ h₂ hne
  have hnodup₁ := h.nodup c₁ h₁
  have hnodup₂ := h.nodup c₂ h₂
  have hlen₁ := h.length_le h₁
  have hlen₂ := h.length_le h₂
  obtain ⟨rest₁, heq₁, hlinked₁⟩ := h.linked c₁ h₁
  obtain ⟨rest₂, heq₂, hlinked₂⟩ := h.linked c₂ h₂
  rw [heq₁] at hdisjoint hnodup₁ hlen₁
  rw [heq₂] at hdisjoint hnodup₂ hlen₂
  rw [heq₁, heq₂, Trees.merge, lengthen_eq hlinked₁ hnodup₁ hlen₁]
  dsimp only
  have hlast := List.getLast_mem (List.cons_ne_nil c₁ rest₁)
  have hframe : ∀ s, s ∉ c₁ :: rest₁ →
      Function.update t.others ((c₁ :: rest₁).getLast (List.cons_ne_nil c₁ rest₁)) (some c₂) s = t.others s := by
    intro s hs
    refine Function.update_of_ne ?_ _ _
    rintro rfl
    exact hs hlast
  have hlinked₂' := hlinked₂.congr (fun s hs => hframe s (fun hs₁ => hdisjoint hs₁ hs))
  refine ⟨_, ?_, hlinked₁.append hlinked₂ (List.nodup_append'.mpr ⟨hnodup₁, hnodup₂, hdisjoint⟩), hframe⟩
  rw [lengthen_eq hlinked₂' hnodup₂ hlen₂]
  congr 1
  funext s
  dsimp only
  rw [Nat.add_assoc]
  congr 1
  by_cases hs₁ : s ∈ c₁ :: rest₁
  · rw [if_pos hs₁, if_neg (fun hs₂ => hdisjoint hs₁ hs₂), if_pos (List.mem_append_left _ hs₁)]
  · by_cases hs₂ : s ∈ c₂ :: rest₂
    · rw [if_neg hs₁, if_pos hs₂, if_pos (List.mem_append_right _ hs₂)]
    · rw [if_neg hs₁, if_neg hs₂, if_neg (by rw [List.mem_append]; exact not_or.mpr ⟨hs₁, hs₂⟩)]

theorem freq_merge_self (t : Trees) (hne : c₁ ≠ c₂) : (t.merge c₁ c₂).freq c₁ = t.freq c₁ + t.freq c₂ :=
  (Function.update_of_ne hne _ _).trans (Function.update_self c₁ _ _)

theorem freq_merge_other (t : Trees) {d : ℕ} (h₁ : d ≠ c₁) (h₂ : d ≠ c₂) : (t.merge c₁ c₂).freq d = t.freq d :=
  (Function.update_of_ne h₂ _ _).trans (Function.update_of_ne h₁ _ _)

theorem used_merge (h₁ : c₁ ∈ used t.freq) (hne : c₁ ≠ c₂) :
    used (t.merge c₁ c₂).freq = (used t.freq).erase c₂ := by
  ext d
  rw [Finset.mem_erase, mem_used, mem_used]
  by_cases hd₂ : d = c₂
  · have hzero : (t.merge c₁ c₂).freq d = 0 := by
      rw [hd₂]
      exact Function.update_self c₂ _ _
    rw [hzero]
    exact ⟨fun h => absurd rfl h.2, fun h => absurd hd₂ h.1⟩
  · by_cases hd₁ : d = c₁
    · have hpos := (mem_used.mp h₁).2
      rw [hd₁, freq_merge_self t hne]
      exact ⟨fun h => ⟨hne, h.1, hpos⟩, fun h => ⟨h.2.1, by omega⟩⟩
    · rw [freq_merge_other t hd₁ hd₂]
      exact ⟨fun h => ⟨hd₂, h⟩, fun h => h.2⟩

theorem used_merge_cases (h₁ : c₁ ∈ used t.freq) (hne : c₁ ≠ c₂) {d : ℕ} (hd : d ∈ used (t.merge c₁ c₂).freq) :
    d = c₁ ∨ d ∈ used t.freq ∧ d ≠ c₁ ∧ d ≠ c₂ := by
  rw [used_merge h₁ hne, Finset.mem_erase] at hd
  by_cases hd₁ : d = c₁
  · exact .inl hd₁
  · exact .inr ⟨hd.2, hd₁, hd.1⟩

def joinBranches (branch : ℕ → List ℕ) (c₁ c₂ : ℕ) : ℕ → List ℕ :=
  Function.update branch c₁ (branch c₁ ++ branch c₂)

theorem joinBranches_self (branch : ℕ → List ℕ) (c₁ c₂ : ℕ) :
    joinBranches branch c₁ c₂ c₁ = branch c₁ ++ branch c₂ := Function.update_self c₁ _ _

theorem joinBranches_other {d : ℕ} (h : d ≠ c₁) : joinBranches branch c₁ c₂ d = branch d :=
  Function.update_of_ne h _ _

/-- A tree that a merge leaves alone shares no symbol with the merged one. -/
theorem Forest.apart (h : Forest freq t branch) (h₁ : c₁ ∈ used t.freq) (h₂ : c₂ ∈ used t.freq) {d : ℕ}
    (hd : d ∈ used t.freq) (hd₁ : d ≠ c₁) (hd₂ : d ≠ c₂) : (branch d).Disjoint (branch c₁ ++ branch c₂) := by
  rw [List.disjoint_append_right]
  exact ⟨h.disjoint d hd c₁ h₁ hd₁, h.disjoint d hd c₂ h₂ hd₂⟩

theorem Forest.codesize_deeper (h : Forest freq t branch) (h₁ : c₁ ∈ used t.freq) (h₂ : c₂ ∈ used t.freq)
    (hne : c₁ ≠ c₂) {s : ℕ} (hs : s ∈ branch c₁ ++ branch c₂) :
    (t.merge c₁ c₂).codesize s = t.codesize s + 1 := by
  obtain ⟨others', heq, -, -⟩ := h.merge_eq h₁ h₂ hne
  rw [heq]
  exact congrArg (t.codesize s + ·) (if_pos hs)

theorem Forest.codesize_level (h : Forest freq t branch) (h₁ : c₁ ∈ used t.freq) (h₂ : c₂ ∈ used t.freq)
    (hne : c₁ ≠ c₂) {s : ℕ} (hs : s ∉ branch c₁ ++ branch c₂) :
    (t.merge c₁ c₂).codesize s = t.codesize s := by
  obtain ⟨others', heq, -, -⟩ := h.merge_eq h₁ h₂ hne
  rw [heq]
  exact congrArg (t.codesize s + ·) (if_neg hs)

theorem Forest.linked_merge (h : Forest freq t branch) (h₁ : c₁ ∈ used t.freq) (h₂ : c₂ ∈ used t.freq)
    (hne : c₁ ≠ c₂) : ∀ d ∈ used (t.merge c₁ c₂).freq,
      ∃ rest, joinBranches branch c₁ c₂ d = d :: rest ∧ Linked (t.merge c₁ c₂).others (d :: rest) := by
  obtain ⟨others', heq, hlinked, hframe⟩ := h.merge_eq h₁ h₂ hne
  intro d hd
  rcases used_merge_cases h₁ hne hd with rfl | ⟨hd, hd₁, -⟩
  · obtain ⟨rest, hrest, -⟩ := h.linked d h₁
    refine ⟨rest ++ branch c₂, by rw [joinBranches_self, hrest]; rfl, ?_⟩
    rw [hrest] at hlinked
    rw [heq]
    exact hlinked
  · obtain ⟨rest, hrest, hlink⟩ := h.linked d hd
    refine ⟨rest, (joinBranches_other hd₁).trans hrest, ?_⟩
    rw [heq]
    refine hlink.congr (fun s hs => hframe s (fun hs₁ => ?_))
    rw [← hrest] at hs
    exact h.disjoint d hd c₁ h₁ hd₁ hs hs₁

theorem Forest.nodup_merge (h : Forest freq t branch) (h₁ : c₁ ∈ used t.freq) (h₂ : c₂ ∈ used t.freq)
    (hne : c₁ ≠ c₂) : ∀ d ∈ used (t.merge c₁ c₂).freq, (joinBranches branch c₁ c₂ d).Nodup := by
  intro d hd
  rcases used_merge_cases h₁ hne hd with rfl | ⟨hd, hd₁, -⟩
  · rw [joinBranches_self]
    exact List.nodup_append'.mpr ⟨h.nodup d h₁, h.nodup c₂ h₂, h.disjoint d h₁ c₂ h₂ hne⟩
  · rw [joinBranches_other hd₁]
    exact h.nodup d hd

theorem Forest.disjoint_merge (h : Forest freq t branch) (h₁ : c₁ ∈ used t.freq) (h₂ : c₂ ∈ used t.freq)
    (hne : c₁ ≠ c₂) : ∀ d ∈ used (t.merge c₁ c₂).freq, ∀ e ∈ used (t.merge c₁ c₂).freq, d ≠ e →
      (joinBranches branch c₁ c₂ d).Disjoint (joinBranches branch c₁ c₂ e) := by
  intro d hd e he hde
  rcases used_merge_cases h₁ hne hd with rfl | ⟨hused, hd₁, hd₂⟩
  · rcases used_merge_cases h₁ hne he with rfl | ⟨heused, he₁, he₂⟩
    · exact absurd rfl hde
    · rw [joinBranches_self, joinBranches_other he₁]
      exact (h.apart h₁ h₂ heused he₁ he₂).symm
  · rw [joinBranches_other hd₁]
    rcases used_merge_cases h₁ hne he with rfl | ⟨heused, he₁, -⟩
    · rw [joinBranches_self]
      exact h.apart h₁ h₂ hused hd₁ hd₂
    · rw [joinBranches_other he₁]
      exact h.disjoint d hused e heused hde

theorem Forest.mem_merge (h : Forest freq t branch) (h₁ : c₁ ∈ used t.freq) (h₂ : c₂ ∈ used t.freq)
    (hne : c₁ ≠ c₂) (s : ℕ) :
    s ∈ used freq ↔ ∃ d ∈ used (t.merge c₁ c₂).freq, s ∈ joinBranches branch c₁ c₂ d := by
  rw [h.mem s]
  constructor
  · rintro ⟨c, hc, hs⟩
    by_cases hmerged : c = c₁ ∨ c = c₂
    · refine ⟨c₁, ?_, ?_⟩
      · rw [used_merge h₁ hne]
        exact Finset.mem_erase.mpr ⟨hne, h₁⟩
      · rw [joinBranches_self, List.mem_append]
        rcases hmerged with rfl | rfl
        · exact .inl hs
        · exact .inr hs
    · rw [not_or] at hmerged
      refine ⟨c, ?_, ?_⟩
      · rw [used_merge h₁ hne]
        exact Finset.mem_erase.mpr ⟨hmerged.2, hc⟩
      · rw [joinBranches_other hmerged.1]
        exact hs
  · rintro ⟨d, hd, hs⟩
    rcases used_merge_cases h₁ hne hd with rfl | ⟨hd, hd₁, -⟩
    · rw [joinBranches_self, List.mem_append] at hs
      rcases hs with hs | hs
      · exact ⟨d, h₁, hs⟩
      · exact ⟨c₂, h₂, hs⟩
    · rw [joinBranches_other hd₁] at hs
      exact ⟨d, hd, hs⟩

theorem total_merge (h₁ : c₁ ∈ used t.freq) (h₂ : c₂ ∈ used t.freq) (hne : c₁ ≠ c₂) :
    ∑ i ∈ Finset.range 257, (t.merge c₁ c₂).freq i = ∑ i ∈ Finset.range 257, t.freq i := by
  have hmem₁ : c₁ ∈ Finset.range 257 := Finset.mem_range.mpr (mem_used.mp h₁).1
  have hmem₂ : c₂ ∈ (Finset.range 257).erase c₁ :=
    Finset.mem_erase.mpr ⟨hne.symm, Finset.mem_range.mpr (mem_used.mp h₂).1⟩
  have hzero : (t.merge c₁ c₂).freq c₂ = 0 := Function.update_self c₂ _ _
  rw [← Finset.add_sum_erase _ _ hmem₁, ← Finset.add_sum_erase _ t.freq hmem₁, ← Finset.add_sum_erase _ _ hmem₂,
    ← Finset.add_sum_erase _ t.freq hmem₂, freq_merge_self t hne, hzero, Nat.zero_add, Nat.add_assoc]
  congr 2
  refine Finset.sum_congr rfl (fun d hd => ?_)
  obtain ⟨hd₂, hd⟩ := Finset.mem_erase.mp hd
  exact freq_merge_other t (Finset.mem_erase.mp hd).1 hd₂

theorem Forest.whole_merge (h : Forest freq t branch) (h₁ : c₁ ∈ used t.freq) (h₂ : c₂ ∈ used t.freq)
    (hne : c₁ ≠ c₂) : ∀ d ∈ used (t.merge c₁ c₂).freq,
      kraft (t.merge c₁ c₂).codesize (joinBranches branch c₁ c₂ d).toFinset = 1 := by
  intro d hd
  rcases used_merge_cases h₁ hne hd with rfl | ⟨hd, hd₁, hd₂⟩
  · have hdisj : Disjoint (branch d).toFinset (branch c₂).toFinset :=
      List.disjoint_toFinset_iff_disjoint.mpr (h.disjoint d h₁ c₂ h₂ hne)
    have hdeeper : ∀ s ∈ (branch d ++ branch c₂).toFinset, (t.merge d c₂).codesize s = t.codesize s + 1 :=
      fun s hs => h.codesize_deeper h₁ h₂ hne (List.mem_toFinset.mp hs)
    rw [joinBranches_self, kraft_succ hdeeper, List.toFinset_append, kraft_union hdisj, h.whole d h₁, h.whole c₂ h₂]
    norm_num
  · have hlevel : ∀ s ∈ (branch d).toFinset, (t.merge c₁ c₂).codesize s = t.codesize s :=
      fun s hs => h.codesize_level h₁ h₂ hne (h.apart h₁ h₂ hd hd₁ hd₂ (List.mem_toFinset.mp hs))
    rw [joinBranches_other hd₁, kraft_congr hlevel]
    exact h.whole d hd

/-- A tree that gets one bit deeper has at its root the counts of both trees. -/
theorem Forest.height_merge (h : Forest freq t branch) (h₁ : c₁ ∈ used t.freq) (h₂ : c₂ ∈ used t.freq)
    (hne : c₁ ≠ c₂) : ∀ d ∈ used (t.merge c₁ c₂).freq, ∀ s ∈ joinBranches branch c₁ c₂ d,
      Nat.fib ((t.merge c₁ c₂).codesize s + 2) ≤ (t.merge c₁ c₂).freq d := by
  intro d hd s hs
  rcases used_merge_cases h₁ hne hd with rfl | ⟨hd, hd₁, hd₂⟩
  · rw [joinBranches_self] at hs
    rw [h.codesize_deeper h₁ h₂ hne hs, freq_merge_self t hne, Nat.fib_add_two]
    rcases List.mem_append.mp hs with hs | hs
    · rw [Nat.add_comm]
      exact Nat.add_le_add (h.height d h₁ s hs) (h.beside d h₁ c₂ h₂ hne.symm s hs)
    · exact Nat.add_le_add (h.beside c₂ h₂ d h₁ hne s hs) (h.height c₂ h₂ s hs)
  · rw [joinBranches_other hd₁] at hs
    rw [h.codesize_level h₁ h₂ hne (h.apart h₁ h₂ hd hd₁ hd₂ hs), freq_merge_other t hd₁ hd₂]
    exact h.height d hd s hs

/-- The counts of the other trees are at least those of the two that were the smallest. -/
theorem Forest.beside_merge (h : Forest freq t branch) (h₁ : c₁ ∈ used t.freq) (h₂ : c₂ ∈ used t.freq)
    (hne : c₁ ≠ c₂) (hleast₁ : t.freq c₁ ≤ t.freq c₂) (hleast₂ : ∀ d ∈ used t.freq, d ≠ c₁ → t.freq c₂ ≤ t.freq d) :
    ∀ d ∈ used (t.merge c₁ c₂).freq, ∀ e ∈ used (t.merge c₁ c₂).freq, e ≠ d → ∀ s ∈ joinBranches branch c₁ c₂ d,
      Nat.fib ((t.merge c₁ c₂).codesize s + 1) ≤ (t.merge c₁ c₂).freq e := by
  intro d hd e he hed s hs
  rcases used_merge_cases h₁ hne hd with rfl | ⟨hused, hd₁, hd₂⟩
  · rcases used_merge_cases h₁ hne he with rfl | ⟨heused, he₁, he₂⟩
    · exact absurd rfl hed
    · rw [joinBranches_self] at hs
      rw [h.codesize_deeper h₁ h₂ hne hs, freq_merge_other t he₁ he₂]
      have hup := hleast₂ e heused he₁
      rcases List.mem_append.mp hs with hs | hs
      · exact Nat.le_trans (h.height d h₁ s hs) (Nat.le_trans hleast₁ hup)
      · exact Nat.le_trans (h.height c₂ h₂ s hs) hup
  · rw [joinBranches_other hd₁] at hs
    rw [h.codesize_level h₁ h₂ hne (h.apart h₁ h₂ hused hd₁ hd₂ hs)]
    rcases used_merge_cases h₁ hne he with rfl | ⟨heused, he₁, he₂⟩
    · rw [freq_merge_self t hne]
      exact Nat.le_trans (h.beside d hused e h₁ hed s hs) (Nat.le_add_right _ _)
    · rw [freq_merge_other t he₁ he₂]
      exact h.beside d hused e heused hed s hs

theorem Forest.merge (h : Forest freq t branch) (h₁ : c₁ ∈ used t.freq) (h₂ : c₂ ∈ used t.freq) (hne : c₁ ≠ c₂)
    (hleast₁ : t.freq c₁ ≤ t.freq c₂) (hleast₂ : ∀ d ∈ used t.freq, d ≠ c₁ → t.freq c₂ ≤ t.freq d) :
    Forest freq (t.merge c₁ c₂) (joinBranches branch c₁ c₂) where
  linked := h.linked_merge h₁ h₂ hne
  nodup := h.nodup_merge h₁ h₂ hne
  disjoint := h.disjoint_merge h₁ h₂ hne
  mem := h.mem_merge h₁ h₂ hne
  unused := by
    intro s hs
    rw [h.codesize_level h₁ h₂ hne, h.unused s hs]
    intro hmem
    rcases List.mem_append.mp hmem with hmem | hmem
    · exact hs ((h.mem s).mpr ⟨c₁, h₁, hmem⟩)
    · exact hs ((h.mem s).mpr ⟨c₂, h₂, hmem⟩)
  total := (total_merge h₁ h₂ hne).trans h.total
  whole := h.whole_merge h₁ h₂ hne
  height := h.height_merge h₁ h₂ hne
  beside := h.beside_merge h₁ h₂ hne hleast₁ hleast₂

/-- What holds of all merges of the two smallest counts holds at the end, where one count is left. -/
theorem mergeAll_induction {P : Trees → Prop}
    (hmerge : ∀ t c₁ c₂, P t → c₁ ∈ used t.freq → c₂ ∈ used t.freq → c₁ ≠ c₂ → t.freq c₁ ≤ t.freq c₂ →
      (∀ d ∈ used t.freq, d ≠ c₁ → t.freq c₂ ≤ t.freq d) → P (t.merge c₁ c₂))
    (hbound : ∀ t, P t → ∀ i < 257, t.freq i ≤ 1000000000) {fuel : ℕ} (hfuel : (used t.freq).card ≤ fuel)
    (h : P t) : P (mergeAll fuel t) ∧ (used (mergeAll fuel t).freq).card ≤ 1 := by
  induction fuel generalizing t with
  | zero => exact ⟨h, Nat.le_trans hfuel (Nat.zero_le 1)⟩
  | succ fuel ih =>
    have hfreq := hbound t h
    rw [mergeAll]
    cases hc₁ : smallest t.freq none with
    | none =>
      refine ⟨h, ?_⟩
      have hempty : used t.freq = ∅ := by
        refine Finset.eq_empty_of_forall_notMem (fun i hi => ?_)
        exact absurd (smallest_none hfreq hc₁ i (mem_used.mp hi).1 (mem_used.mp hi).2) (Option.some_ne_none i)
      dsimp only
      rw [hempty]
      exact Nat.zero_le 1
    | some c₁ =>
      obtain ⟨hlt₁, hne₁, -, hleast₁⟩ := smallest_some hfreq hc₁
      dsimp only
      cases hc₂ : smallest t.freq (some c₁) with
      | none =>
        refine ⟨h, Finset.card_le_one.mpr ?_⟩
        have hall : ∀ d ∈ used t.freq, d = c₁ := fun d hd =>
          Option.some.inj (smallest_none hfreq hc₂ d (mem_used.mp hd).1 (mem_used.mp hd).2)
        exact fun c hc d hd => (hall c hc).trans (hall d hd).symm
      | some c₂ =>
        obtain ⟨hlt₂, hne₂, hskip, hleast₂⟩ := smallest_some hfreq hc₂
        have hne : c₁ ≠ c₂ := fun heq => hskip (congrArg some heq.symm)
        have h₁ : c₁ ∈ used t.freq := mem_used.mpr ⟨hlt₁, hne₁⟩
        have h₂ : c₂ ∈ used t.freq := mem_used.mpr ⟨hlt₂, hne₂⟩
        have hcard := Finset.card_erase_of_mem h₂
        refine ih ?_ (hmerge t c₁ c₂ h h₁ h₂ hne (hleast₁ c₂ hlt₂ hne₂ (Option.some_ne_none c₂)) ?_)
        · rw [used_merge h₁ hne, hcard]
          omega
        · intro d hd hd₁
          refine hleast₂ d (mem_used.mp hd).1 (mem_used.mp hd).2 (fun heq => ?_)
          exact hd₁ (Option.some.inj heq)

/-- The code lengths of the finished tree: a code that leaves no gap, not deep for small counts. -/
structure Lengths (freq codesize : ℕ → ℕ) : Prop where
  unused : ∀ s, s ∉ used freq → codesize s = 0
  whole : kraft codesize (used freq) = 1
  height : ∀ s ∈ used freq, Nat.fib (codesize s + 2) ≤ ∑ i ∈ Finset.range 257, freq i

theorem Forest.lengths (h : Forest freq t branch) (hone : (used t.freq).card ≤ 1) (hne : (used freq).Nonempty) :
    Lengths freq t.codesize := by
  obtain ⟨s₀, hs₀⟩ := hne
  obtain ⟨c, hc, -⟩ := (h.mem s₀).mp hs₀
  have hbranch : (branch c).toFinset = used freq := by
    ext s
    rw [List.mem_toFinset, h.mem s]
    constructor
    · exact fun hs => ⟨c, hc, hs⟩
    · rintro ⟨d, hd, hs⟩
      rw [Finset.card_le_one.mp hone c hc d hd]
      exact hs
  constructor
  case unused => exact h.unused
  case whole =>
    rw [← hbranch]
    exact h.whole c hc
  case height =>
    intro s hs
    rw [← hbranch, List.mem_toFinset] at hs
    exact Nat.le_trans (h.height c hc s hs) (h.freq_le (mem_used.mp hc).1)

def total (freq : ℕ → ℕ) : ℕ := ∑ i ∈ Finset.range 256, freq i + 1

theorem sum_startFreq (freq : ℕ → ℕ) : ∑ i ∈ Finset.range 257, Function.update freq 256 1 i = total freq := by
  have hbelow : ∀ i ∈ Finset.range 256, Function.update freq 256 1 i = freq i := by
    intro i hi
    refine Function.update_of_ne ?_ _ _
    rintro rfl
    exact Nat.lt_irrefl _ (Finset.mem_range.mp hi)
  rw [Finset.sum_range_succ, Function.update_self, total, Finset.sum_congr rfl hbelow]

theorem card_used_le (freq : ℕ → ℕ) : (used freq).card ≤ 257 := by
  have hle := Finset.card_filter_le (Finset.range 257) (fun i => freq i ≠ 0)
  rwa [Finset.card_range] at hle

theorem lengths_mergeAll {freq : ℕ → ℕ} (htotal : total freq ≤ 1000000000) :
    Lengths (Function.update freq 256 1) (mergeAll 257 (startTrees freq)).codesize := by
  have hsum := sum_startFreq freq
  obtain ⟨⟨branch, h⟩, hone⟩ := @mergeAll_induction (startTrees freq)
    (fun t => ∃ branch, Forest (Function.update freq 256 1) t branch)
    (by
      rintro t c₁ c₂ ⟨branch, h⟩ h₁ h₂ hne hleast₁ hleast₂
      exact ⟨_, h.merge h₁ h₂ hne hleast₁ hleast₂⟩)
    (by
      rintro t ⟨branch, h⟩ i hi
      exact Nat.le_trans (h.freq_le hi) (hsum.le.trans htotal))
    257 (card_used_le _) ⟨_, forest_start freq⟩
  have hpseudo : 256 ∈ used (Function.update freq 256 1) := by
    rw [mem_used, Function.update_self]
    exact ⟨Nat.lt_succ_self 256, one_ne_zero⟩
  exact h.lengths hone ⟨256, hpseudo⟩

theorem Lengths.le_of_total {freq codesize : ℕ → ℕ} (h : Lengths (Function.update freq 256 1) codesize) {n : ℕ}
    (hn : total freq < Nat.fib (n + 3)) (i : ℕ) : codesize i ≤ n := by
  by_contra hlong
  have hmem : i ∈ used (Function.update freq 256 1) := by
    by_contra hunused
    rw [h.unused i hunused] at hlong
    exact hlong (Nat.zero_le n)
  have hheight := h.height i hmem
  rw [sum_startFreq] at hheight
  exact Nat.lt_irrefl _ (Nat.lt_of_le_of_lt (Nat.le_trans (Nat.fib_mono (by omega)) hheight) hn)

end Forests

section Optimal
variable {freq : ℕ → ℕ} {t : Trees} {branch : ℕ → List ℕ} {c₁ c₂ : ℕ}

/-- No code needs less bits than the trees and a code for their roots, whatever it is. -/
structure Optimum (freq : ℕ → ℕ) (t : Trees) (branch : ℕ → List ℕ) : Prop where
  weight : ∀ c ∈ used t.freq, t.freq c = ∑ s ∈ (branch c).toFinset, freq s
  best : ∀ length : ℕ → ℕ, kraft length (used freq) ≤ 1 → ∃ length' : ℕ → ℕ, kraft length' (used t.freq) ≤ 1 ∧
    cost t.freq length' (used t.freq) + cost freq t.codesize (used freq) ≤ cost freq length (used freq)

theorem optimum_start (freq : ℕ → ℕ) :
    Optimum (Function.update freq 256 1) (startTrees freq) (fun c => [c]) where
  weight := by
    intro c _
    change _ = ∑ s ∈ insert c ∅, _
    rw [Finset.sum_insert (Finset.notMem_empty c), Finset.sum_empty]
    rfl
  best := by
    intro length hlength
    refine ⟨length, hlength, ?_⟩
    have hzero : cost (Function.update freq 256 1) (startTrees freq).codesize (used (Function.update freq 256 1)) = 0 :=
      Finset.sum_eq_zero (fun s _ => Nat.mul_zero _)
    rw [hzero]
    exact Nat.le_refl _

theorem Optimum.weight_append (h : Optimum freq t branch) (hforest : Forest freq t branch) (h₁ : c₁ ∈ used t.freq)
    (h₂ : c₂ ∈ used t.freq) (hne : c₁ ≠ c₂) :
    ∑ s ∈ (branch c₁ ++ branch c₂).toFinset, freq s = t.freq c₁ + t.freq c₂ := by
  have hdisjoint : Disjoint (branch c₁).toFinset (branch c₂).toFinset :=
    List.disjoint_toFinset_iff_disjoint.mpr (hforest.disjoint c₁ h₁ c₂ h₂ hne)
  rw [List.toFinset_append, Finset.sum_union hdisjoint, h.weight c₁ h₁, h.weight c₂ h₂]

theorem Optimum.cost_merge (h : Optimum freq t branch) (hforest : Forest freq t branch) (h₁ : c₁ ∈ used t.freq)
    (h₂ : c₂ ∈ used t.freq) (hne : c₁ ≠ c₂) : cost freq (t.merge c₁ c₂).codesize (used freq) =
      cost freq t.codesize (used freq) + (t.freq c₁ + t.freq c₂) := by
  obtain ⟨others', heq, -⟩ := hforest.merge_eq h₁ h₂ hne
  have hinter : (branch c₁ ++ branch c₂).toFinset ⊆ used freq := by
    intro s hs
    rw [List.mem_toFinset, List.mem_append] at hs
    rcases hs with hs | hs
    · exact (hforest.mem s).mpr ⟨c₁, h₁, hs⟩
    · exact (hforest.mem s).mpr ⟨c₂, h₂, hs⟩
  rw [heq, ← h.weight_append hforest h₁ h₂ hne, ← Finset.inter_eq_right.mpr hinter, ← Finset.sum_ite_mem, cost, cost,
    ← Finset.sum_add_distrib]
  refine Finset.sum_congr rfl (fun s _ => ?_)
  dsimp only
  rw [Nat.mul_add, mul_ite, Nat.mul_one, Nat.mul_zero]
  congr 1
  exact if_congr List.mem_toFinset.symm rfl rfl

/-- A merge makes the codes of two trees one bit longer, which no code can avoid. -/
theorem Optimum.merge (h : Optimum freq t branch) (hforest : Forest freq t branch) (h₁ : c₁ ∈ used t.freq)
    (h₂ : c₂ ∈ used t.freq) (hne : c₁ ≠ c₂) (hleast₁ : t.freq c₁ ≤ t.freq c₂)
    (hleast₂ : ∀ d ∈ used t.freq, d ≠ c₁ → t.freq c₂ ≤ t.freq d) :
    Optimum freq (t.merge c₁ c₂) (joinBranches branch c₁ c₂) := by
  constructor
  case weight =>
    intro d hd
    rcases used_merge_cases h₁ hne hd with rfl | ⟨hused, hd₁, hd₂⟩
    · rw [freq_merge_self t hne, joinBranches_self, h.weight_append hforest h₁ h₂ hne]
    · rw [freq_merge_other t hd₁ hd₂, joinBranches_other hd₁]
      exact h.weight d hused
  case best =>
    intro length hlength
    obtain ⟨length', hkraft, hcost⟩ := h.best length hlength
    obtain ⟨length'', hkraft', hcost'⟩ := exists_merged hkraft h₁ h₂ hne hleast₁ hleast₂
    have hweight : cost (t.merge c₁ c₂).freq length'' ((used t.freq).erase c₂) =
        cost (Function.update t.freq c₁ (t.freq c₁ + t.freq c₂)) length'' ((used t.freq).erase c₂) :=
      cost_congr (fun s hs => Function.update_of_ne (Finset.mem_erase.mp hs).1 _ _)
    refine ⟨length'', ?_, ?_⟩
    · rw [used_merge h₁ hne]
      exact hkraft'
    · rw [used_merge h₁ hne, hweight, h.cost_merge hforest h₁ h₂ hne]
      omega

/-- The tree that is left gives every symbol a codeword, and no code needs less bits. -/
theorem cost_mergeAll_le {freq : ℕ → ℕ} (htotal : total freq ≤ 1000000000) {length : ℕ → ℕ}
    (hlength : kraft length (used (Function.update freq 256 1)) ≤ 1) :
    cost (Function.update freq 256 1) (mergeAll 257 (startTrees freq)).codesize (used (Function.update freq 256 1)) ≤
      cost (Function.update freq 256 1) length (used (Function.update freq 256 1)) := by
  have hsum := sum_startFreq freq
  obtain ⟨⟨branch, -, h⟩, -⟩ := @mergeAll_induction (startTrees freq)
    (fun t => ∃ branch, Forest (Function.update freq 256 1) t branch ∧ Optimum (Function.update freq 256 1) t branch)
    (by
      rintro t c₁ c₂ ⟨branch, hforest, h⟩ h₁ h₂ hne hleast₁ hleast₂
      exact ⟨_, hforest.merge h₁ h₂ hne hleast₁ hleast₂, h.merge hforest h₁ h₂ hne hleast₁ hleast₂⟩)
    (by
      rintro t ⟨branch, hforest, -⟩ i hi
      exact Nat.le_trans (hforest.freq_le hi) (hsum.le.trans htotal))
    257 (card_used_le _) ⟨_, forest_start freq, optimum_start freq⟩
  obtain ⟨length', -, hcost⟩ := h.best length hlength
  exact Nat.le_trans (Nat.le_add_left _ _) hcost

end Optimal

end Jp4Tools.OptimalTables
