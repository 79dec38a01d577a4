import Jp4Tools.GeneratedTables
import Jp4Tools.RestartIntervals

/-!
# The statistics pass

With `optimize_coding` the MCUs of a scan are coded twice. The first pass, `encodeMcuGather`, only
counts the Huffman symbols, and at its end `finishPassGather` makes a table for each count. The
second pass codes the MCUs with these tables.
-/

namespace Jp4Tools.StatisticsPass
open BitStrings CoefficientBits CompressionController EntropyRoundTrip GeneratedTables HuffmanEncoder HuffmanDecoder
  HuffmanTables OptimalTables RestartIntervals RestartMarkers StdioManagers BitReader

/-- `huff_entropy_encoder` in a pass that gathers statistics. The counts are by table and symbol. -/
structure HuffGatherer where
  lastDcVal : ℕ → ℤ
  restartsToGo : ℕ
  dcCounts : ℕ → ℕ → ℕ
  acCounts : ℕ → ℕ → ℕ

section Source

def countSymbol (counts : ℕ → ℕ) (symbol : ℕ) : ℕ → ℕ :=
  Function.update counts symbol (counts symbol + 1)

/-- `while (r > 15)`: the special codes for runs of 16 zeros. -/
def countRuns : ℕ → ℕ → (ℕ → ℕ) → ℕ × (ℕ → ℕ)
  | 0, r, acCounts => (r, acCounts)
  | fuel + 1, r, acCounts =>
    if 15 < r then countRuns fuel (r - 16) (countSymbol acCounts 0xF0) else (r, acCounts)

/-- One round of the loop over the AC coefficients; `r` is the run length of zeros. -/
def htestCoef (s : ℕ × (ℕ → ℕ)) (temp : ℤ) : Except HuffError (ℕ × (ℕ → ℕ)) :=
  if temp = 0 then .ok (s.1 + 1, s.2)
  else
    let runs := countRuns s.1 s.1 s.2
    let nbits := acBits temp.natAbs temp.natAbs 1
    if maxCoefBits < nbits then .error .badDctCoef
    else .ok (0, countSymbol runs.2 ((runs.1 <<< 4) + nbits))

def htestOneBlock (block : JBlock) (lastDcVal : ℤ) (dcCounts acCounts : ℕ → ℕ) :
    Except HuffError ((ℕ → ℕ) × (ℕ → ℕ)) := do
  let temp := block 0 - lastDcVal
  let nbits := dcBits temp.natAbs temp.natAbs 0
  if maxCoefBits + 1 < nbits then .error .badDctCoef
  else
    let dcCounts := countSymbol dcCounts nbits
    let (r, acCounts) ← (acCoefs block).foldlM htestCoef (0, acCounts)
    .ok (dcCounts, if 0 < r then countSymbol acCounts 0 else acCounts)

def checkTables (cinfo : EntropyScan) (ci : ℕ) : Except HuffError Unit :=
  if numHuffTbls ≤ cinfo.dcTblNo ci then .error (.noHuffTable (cinfo.dcTblNo ci))
  else if numHuffTbls ≤ cinfo.acTblNo ci then .error (.noHuffTable (cinfo.acTblNo ci))
  else .ok ()

def startPassGather (cinfo : EntropyScan) : Except HuffError HuffGatherer := do
  (List.range cinfo.compsInScan).forM (checkTables cinfo)
  .ok {
    lastDcVal := fun _ => 0
    restartsToGo := cinfo.restartInterval
    dcCounts := fun _ _ => 0
    acCounts := fun _ _ => 0 }

/-- Restart intervals in the first pass only reset the predictions. -/
def gatherRestart (cinfo : EntropyScan) (entropy : HuffGatherer) : HuffGatherer :=
  if cinfo.restartInterval ≠ 0 then
    let entropy := if entropy.restartsToGo = 0 then
        { entropy with lastDcVal := fun _ => 0, restartsToGo := cinfo.restartInterval }
      else entropy
    { entropy with restartsToGo := entropy.restartsToGo - 1 }
  else entropy

def gatherBlocks (cinfo : EntropyScan) (mcuData : ℕ → JBlock) :
    ℕ → List ℕ → HuffGatherer → Except HuffError HuffGatherer
  | _, [], entropy => .ok entropy
  | blkn, ci :: membership, entropy => do
    let counts ← htestOneBlock (mcuData blkn) (entropy.lastDcVal ci) (entropy.dcCounts (cinfo.dcTblNo ci))
      (entropy.acCounts (cinfo.acTblNo ci))
    gatherBlocks cinfo mcuData (blkn + 1) membership
      { entropy with
        lastDcVal := Function.update entropy.lastDcVal ci (mcuData blkn 0)
        dcCounts := Function.update entropy.dcCounts (cinfo.dcTblNo ci) counts.1
        acCounts := Function.update entropy.acCounts (cinfo.acTblNo ci) counts.2 }

def encodeMcuGather (cinfo : EntropyScan) (entropy : HuffGatherer) (mcuData : ℕ → JBlock) :
    Except HuffError HuffGatherer :=
  gatherBlocks cinfo mcuData 0 cinfo.mcuMembership (gatherRestart cinfo entropy)

/-- The tables of one class at the end of the pass: which have been made, the pointers, and the
counts, which the making of a table destroys. -/
structure TableClass where
  did : ℕ → Bool
  tbls : TablePtrs
  counts : ℕ → ℕ → ℕ

/-- `jpeg_alloc_huff_table`; `contents` is what the memory happens to hold. -/
def jpegAllocHuffTable (contents : JHuffTbl) : JHuffTbl := { contents with sentTable := false }

/-- Makes a table the first time it is wanted. -/
def generateTable (contents : JHuffTbl) (s : TableClass) (tblno : ℕ) : OptionT (Except HuffError) TableClass :=
  if s.did tblno then return s
  else do
    let (htbl, left) ← OptionT.mk (jpegGenOptimalTable ((s.tbls tblno).getD (jpegAllocHuffTable contents)) (s.counts tblno))
    return {
      did := Function.update s.did tblno true
      tbls := Function.update s.tbls tblno (some htbl)
      counts := Function.update s.counts tblno left }

def generateComponent (cinfo : EntropyScan) (contents : JHuffTbl) (s : TableClass × TableClass) (ci : ℕ) :
    OptionT (Except HuffError) (TableClass × TableClass) := do
  let dc ← generateTable contents s.1 (cinfo.dcTblNo ci)
  let ac ← generateTable contents s.2 (cinfo.acTblNo ci)
  return (dc, ac)

def finishPassGather (cinfo : EntropyScan) (contents : JHuffTbl) (entropy : HuffGatherer) :
    OptionT (Except HuffError) EntropyScan := do
  let (dc, ac) ← (List.range cinfo.compsInScan).foldlM (generateComponent cinfo contents)
    ({ did := fun _ => false, tbls := cinfo.dcHuffTblPtrs, counts := entropy.dcCounts },
     { did := fun _ => false, tbls := cinfo.acHuffTblPtrs, counts := entropy.acCounts })
  return { cinfo with dcHuffTblPtrs := dc.tbls, acHuffTblPtrs := ac.tbls }

def gatherEntropyScan (cinfo : EntropyScan) (contents : JHuffTbl) (mcus : List (ℕ → JBlock)) :
    Except HuffError (Option EntropyScan) := do
  let entropy ← startPassGather cinfo
  let entropy ← mcus.foldlM (encodeMcuGather cinfo) entropy
  (finishPassGather cinfo contents entropy).run

end Source

section Counts

def countAll (counts : ℕ → ℕ) (symbols : List ℕ) : ℕ → ℕ := symbols.foldl countSymbol counts

theorem countAll_append (counts : ℕ → ℕ) (l l' : List ℕ) :
    countAll counts (l ++ l') = countAll (countAll counts l) l' := List.foldl_append

/-- What has been counted is added to the counts. -/
theorem countAll_eq (counts : ℕ → ℕ) (symbols : List ℕ) (s : ℕ) :
    countAll counts symbols s = counts s + symbols.count s := by
  induction symbols generalizing counts with
  | nil => rfl
  | cons c symbols ih =>
    have hcount := @List.count_cons _ _ s c symbols
    rw [hcount]
    refine (ih (countSymbol counts c)).trans ?_
    rw [countSymbol]
    by_cases hs : s = c
    · rw [hs, Function.update_self, beq_self_eq_true, if_pos rfl]
      omega
    · rw [Function.update_of_ne hs, if_neg (by rw [beq_iff_eq]; exact Ne.symm hs)]
      omega

theorem countRuns_eq {fuel r : ℕ} (h : r / 16 ≤ fuel) (counts : ℕ → ℕ) :
    countRuns fuel r counts = (r % 16, countAll counts (List.replicate (r / 16) 0xF0)) := by
  induction fuel generalizing r counts with
  | zero =>
    have hzero : r / 16 = 0 := Nat.eq_zero_of_le_zero h
    rw [hzero, countRuns, Nat.mod_eq_of_lt (by omega)]
    rfl
  | succ fuel ih =>
    rw [countRuns]
    split_ifs with hlong
    · have hdiv : r / 16 = (r - 16) / 16 + 1 := by omega
      have hmod : r % 16 = (r - 16) % 16 := by omega
      rw [hdiv, hmod, List.replicate_succ, ih (by omega)]
      rfl
    · have hzero : r / 16 = 0 := by omega
      rw [hzero, Nat.mod_eq_of_lt (by omega)]
      rfl

def acNumbers (r : ℕ) (vs : List ℤ) : List ℕ := (acSymbols r vs).map CodedSymbol.symbol

theorem acBits_natAbs {v : ℤ} (hv : v ≠ 0) : acBits v.natAbs v.natAbs 1 = v.natAbs.size := by
  have hpow : v.natAbs < 2 ^ (v.natAbs + 1) :=
    Nat.lt_trans Nat.lt_two_pow_self (Nat.pow_lt_pow_right (by decide) (Nat.lt_succ_self _))
  have h := acBits_eq (Int.natAbs_ne_zero.mpr hv) (Nat.size_le.mpr hpow) 0
  rwa [Nat.zero_add, Nat.zero_add] at h

theorem htestCoef_ne (r : ℕ) (counts : ℕ → ℕ) {v : ℤ} (hv : v ≠ 0) : htestCoef (r, counts) v =
    if 10 < v.natAbs.size then .error .badDctCoef
    else .ok (0, countAll counts (List.replicate (r / 16) 0xF0 ++ [16 * (r % 16) + v.natAbs.size])) := by
  rw [htestCoef, if_neg hv]
  dsimp only
  rw [countRuns_eq (Nat.div_le_self r 16), acBits_natAbs hv, Nat.shiftLeft_eq, Nat.mul_comm (r % 16) (2 ^ 4),
    countAll_append]
  rfl

/-- The loop over the AC coefficients counts the symbols that the encoder emits. -/
theorem htestCoefs_eq {vs : List ℤ} (hvs : ∀ v ∈ vs, v.natAbs.size ≤ 10) (r : ℕ) (counts : ℕ → ℕ) :
    ∃ s, vs.foldlM htestCoef (r, counts) = .ok s ∧
      (if 0 < s.1 then countSymbol s.2 0 else s.2) = countAll counts (acNumbers r vs) := by
  induction vs generalizing r counts with
  | nil =>
    refine ⟨(r, counts), rfl, ?_⟩
    rw [acNumbers, acSymbols]
    split_ifs <;> rfl
  | cons v vs ih =>
    have hrest : ∀ v ∈ vs, v.natAbs.size ≤ 10 := fun w hw => hvs w (List.mem_cons_of_mem v hw)
    rw [List.foldlM_cons]
    by_cases hv : v = 0
    · obtain ⟨s, hs, hcount⟩ := ih hrest (r + 1) counts
      refine ⟨s, ?_, ?_⟩
      · rw [htestCoef, if_pos hv]
        exact hs
      · rw [hcount, acNumbers, acNumbers, acSymbols, if_pos hv]
    · obtain ⟨s, hs, hcount⟩ := ih hrest 0 (countAll counts (List.replicate (r / 16) 0xF0 ++ [16 * (r % 16) + v.natAbs.size]))
      refine ⟨s, ?_, ?_⟩
      · rw [htestCoef_ne r counts hv, if_neg (Nat.not_lt.mpr (hvs v List.mem_cons_self))]
        exact hs
      · rw [hcount, ← countAll_append, acNumbers, acNumbers, acSymbols, if_neg hv, List.map_append, List.map_cons,
          List.map_replicate, List.append_assoc]
        rfl

theorem htestCoefs_error {vs : List ℤ} (hvs : ¬ ∀ v ∈ vs, v.natAbs.size ≤ 10) (s : ℕ × (ℕ → ℕ)) :
    vs.foldlM htestCoef s = .error .badDctCoef := by
  induction vs generalizing s with
  | nil => exact absurd (fun v hv => absurd hv List.not_mem_nil) hvs
  | cons v vs ih =>
    rw [List.foldlM_cons]
    by_cases hv : v.natAbs.size ≤ 10
    · have hrest : ¬ ∀ v ∈ vs, v.natAbs.size ≤ 10 := by
        intro hall
        refine hvs (fun w hw => ?_)
        rcases List.mem_cons.mp hw with rfl | hmem
        · exact hv
        · exact hall w hmem
      obtain ⟨s', hs'⟩ : ∃ s', htestCoef s v = .ok s' := by
        by_cases hzero : v = 0
        · exact ⟨_, if_pos hzero⟩
        · exact ⟨_, (htestCoef_ne s.1 s.2 hzero).trans (if_neg (Nat.not_lt.mpr hv))⟩
      rw [hs']
      exact ih hrest s'
    · have hzero : v ≠ 0 := by
        rintro rfl
        exact hv (Nat.zero_le _)
      rw [show htestCoef s v = _ from htestCoef_ne s.1 s.2 hzero, if_pos (Nat.lt_of_not_le hv)]
      rfl

/-- A block in range is counted as it would be coded; one that is not is refused. -/
theorem htestOneBlock_cases (block : JBlock) (lastDcVal : ℤ) (dcCounts acCounts : ℕ → ℕ) :
    InRange block lastDcVal ∧ htestOneBlock block lastDcVal dcCounts acCounts =
        .ok (countAll dcCounts [(dcSymbol (block 0 - lastDcVal)).symbol], countAll acCounts (acNumbers 0 (acCoefs block))) ∨
      ¬ InRange block lastDcVal ∧ htestOneBlock block lastDcVal dcCounts acCounts = .error .badDctCoef := by
  have hbits : dcBits (block 0 - lastDcVal).natAbs (block 0 - lastDcVal).natAbs 0 = (block 0 - lastDcVal).natAbs.size := by
    rw [dcBits_eq (Nat.size_le.mpr Nat.lt_two_pow_self), Nat.zero_add]
  rw [htestOneBlock]
  dsimp only
  rw [hbits]
  by_cases hdc : (block 0 - lastDcVal).natAbs.size ≤ 11
  · rw [if_neg (show ¬ maxCoefBits + 1 < _ from Nat.not_lt.mpr hdc)]
    by_cases hac : ∀ v ∈ acCoefs block, v.natAbs.size ≤ 10
    · obtain ⟨s, hs, hcount⟩ := htestCoefs_eq hac 0 acCounts
      refine .inl ⟨⟨hdc, hac⟩, ?_⟩
      rw [hs, ← hcount]
      rfl
    · refine .inr ⟨fun h => hac h.ac, ?_⟩
      rw [htestCoefs_error hac]
      rfl
  · refine .inr ⟨fun h => hdc h.dc, ?_⟩
    exact if_pos (Nat.lt_of_not_le hdc)

theorem le_countAll (counts : ℕ → ℕ) (symbols : List ℕ) (s : ℕ) : counts s ≤ countAll counts symbols s := by
  rw [countAll_eq]
  exact Nat.le_add_right _ _

theorem countAll_ne_zero {counts : ℕ → ℕ} {symbols : List ℕ} {s : ℕ} :
    countAll counts symbols s ≠ 0 ↔ counts s ≠ 0 ∨ s ∈ symbols := by
  have hcount : symbols.count s ≠ 0 ↔ s ∈ symbols := by
    rw [ne_eq, List.count_eq_zero, not_not]
  rw [countAll_eq, ne_eq, Nat.add_eq_zero_iff, not_and_or]
  exact or_congr_right hcount

theorem sum_countAll_le (counts : ℕ → ℕ) (symbols : List ℕ) :
    ∑ i ∈ Finset.range 256, countAll counts symbols i ≤ ∑ i ∈ Finset.range 256, counts i + symbols.length := by
  induction symbols generalizing counts with
  | nil => exact Nat.le_add_right _ 0
  | cons c symbols ih =>
    have hone : ∑ i ∈ Finset.range 256, countSymbol counts c i ≤ ∑ i ∈ Finset.range 256, counts i + 1 := by
      have hadd : ∀ i, countSymbol counts c i = counts i + if i = c then 1 else 0 := by
        intro i
        rw [countSymbol]
        by_cases hi : i = c
        · rw [hi, Function.update_self, if_pos rfl]
        · rw [Function.update_of_ne hi, if_neg hi, Nat.add_zero]
      simp only [hadd, Finset.sum_add_distrib, Finset.sum_ite_eq']
      split_ifs <;> omega
    have hrest := ih (countSymbol counts c)
    rw [List.length_cons]
    exact Nat.le_trans hrest (by omega)

/-- An AC symbol has a run of less than 16 zeros and a size of at most 10 bits. -/
theorem mem_acNumbers {vs : List ℤ} (hvs : ∀ v ∈ vs, v.natAbs.size ≤ 10) {r s : ℕ} (hs : s ∈ acNumbers r vs) :
    s < 256 ∧ s % 16 ≤ 10 := by
  induction vs generalizing r with
  | nil =>
    rw [acNumbers, acSymbols] at hs
    split_ifs at hs with hr
    · rw [List.mem_singleton.mp hs]
      exact ⟨by decide, by decide⟩
    · exact absurd hs List.not_mem_nil
  | cons v vs ih =>
    have hsize := hvs v List.mem_cons_self
    have hrest : ∀ r, s ∈ acNumbers r vs → s < 256 ∧ s % 16 ≤ 10 :=
      fun r => ih (fun w hw => hvs w (List.mem_cons_of_mem v hw))
    rw [acNumbers, acSymbols] at hs
    split_ifs at hs with hv
    · exact hrest _ hs
    · rw [List.map_append, List.map_cons, List.map_replicate, List.mem_append, List.mem_cons] at hs
      rcases hs with hrun | hsymbol | hlater
      · rw [List.eq_of_mem_replicate hrun]
        exact ⟨by decide, by decide⟩
      · rw [hsymbol]
        dsimp only
        omega
      · exact hrest 0 hlater

theorem length_acNumbers_le (r : ℕ) (vs : List ℤ) : (acNumbers r vs).length ≤ r + vs.length := by
  induction vs generalizing r with
  | nil =>
    rw [acNumbers, acSymbols]
    split_ifs with hr
    · exact hr
    · exact Nat.zero_le _
  | cons v vs ih =>
    rw [acNumbers, acSymbols]
    split_ifs with hv
    · have hrest := ih (r + 1)
      rw [acNumbers] at hrest
      rw [List.length_cons]
      omega
    · have hrest := ih 0
      rw [acNumbers] at hrest
      rw [List.map_append, List.map_cons, List.map_replicate, List.length_append, List.length_cons,
        List.length_replicate, List.length_cons]
      omega

theorem acNumbers_ne_nil {r : ℕ} {vs : List ℤ} (h : 0 < r + vs.length) : acNumbers r vs ≠ [] := by
  induction vs generalizing r with
  | nil =>
    have hr : 0 < r := h
    rw [acNumbers, acSymbols, if_pos hr]
    exact List.cons_ne_nil _ _
  | cons v vs ih =>
    rw [acNumbers, acSymbols]
    split_ifs with hv
    · exact ih (by omega)
    · rw [List.map_append]
      exact List.append_ne_nil_of_right_ne_nil _ (List.cons_ne_nil _ _)

end Counts

section Gathering
variable {cinfo : EntropyScan} {g g' : HuffGatherer} {block : JBlock} {ci n : ℕ}

/-- The gatherer after a block of the component `ci` that is in range. -/
def countBlock (cinfo : EntropyScan) (block : JBlock) (ci : ℕ) (g : HuffGatherer) : HuffGatherer :=
  { g with
    lastDcVal := Function.update g.lastDcVal ci (block 0)
    dcCounts := Function.update g.dcCounts (cinfo.dcTblNo ci)
      (countAll (g.dcCounts (cinfo.dcTblNo ci)) [(dcSymbol (block 0 - g.lastDcVal ci)).symbol])
    acCounts := Function.update g.acCounts (cinfo.acTblNo ci)
      (countAll (g.acCounts (cinfo.acTblNo ci)) (acNumbers 0 (acCoefs block))) }

theorem gatherBlocks_cons {mcuData : ℕ → JBlock} {blkn : ℕ} {membership : List ℕ}
    (h : InRange (mcuData blkn) (g.lastDcVal ci)) : gatherBlocks cinfo mcuData blkn (ci :: membership) g =
      gatherBlocks cinfo mcuData (blkn + 1) membership (countBlock cinfo (mcuData blkn) ci g) := by
  rw [gatherBlocks]
  rcases htestOneBlock_cases (mcuData blkn) (g.lastDcVal ci) (g.dcCounts (cinfo.dcTblNo ci))
    (g.acCounts (cinfo.acTblNo ci)) with ⟨-, htest⟩ | ⟨hrange, -⟩
  · rw [htest]
    rfl
  · exact absurd h hrange

theorem inRange_of_gatherBlocks {mcuData : ℕ → JBlock} {blkn : ℕ} {membership : List ℕ}
    (hok : gatherBlocks cinfo mcuData blkn (ci :: membership) g = .ok g') :
    InRange (mcuData blkn) (g.lastDcVal ci) := by
  rw [gatherBlocks] at hok
  rcases htestOneBlock_cases (mcuData blkn) (g.lastDcVal ci) (g.dcCounts (cinfo.dcTblNo ci))
    (g.acCounts (cinfo.acTblNo ci)) with ⟨hrange, -⟩ | ⟨-, htest⟩
  · exact hrange
  · rw [htest] at hok
    exact absurd hok (by simp [bind, Except.bind])

structure Grown (g g' : HuffGatherer) : Prop where
  dc : ∀ t s, g.dcCounts t s ≤ g'.dcCounts t s
  ac : ∀ t s, g.acCounts t s ≤ g'.acCounts t s

theorem Grown.refl (g : HuffGatherer) : Grown g g := ⟨fun _ _ => Nat.le_refl _, fun _ _ => Nat.le_refl _⟩

theorem Grown.trans {g'' : HuffGatherer} (h : Grown g g') (h' : Grown g' g'') : Grown g g'' :=
  ⟨fun t s => Nat.le_trans (h.dc t s) (h'.dc t s), fun t s => Nat.le_trans (h.ac t s) (h'.ac t s)⟩

private theorem le_update_countAll (counts : ℕ → ℕ → ℕ) (t u : ℕ) (symbols : List ℕ) (s : ℕ) :
    counts u s ≤ Function.update counts t (countAll (counts t) symbols) u s := by
  by_cases hu : u = t
  · rw [hu, Function.update_self]
    exact le_countAll _ _ _
  · rw [Function.update_of_ne hu]

theorem grown_countBlock (cinfo : EntropyScan) (block : JBlock) (ci : ℕ) (g : HuffGatherer) :
    Grown g (countBlock cinfo block ci g) :=
  ⟨fun t s => le_update_countAll _ _ t _ s, fun t s => le_update_countAll _ _ t _ s⟩

/-- The counts of `n` blocks. -/
structure Tallied (n : ℕ) (g : HuffGatherer) : Prop where
  dcTotal : ∀ t, ∑ i ∈ Finset.range 256, g.dcCounts t i ≤ n
  acTotal : ∀ t, ∑ i ∈ Finset.range 256, g.acCounts t i ≤ 63 * n
  dcSymbols : ∀ t s, g.dcCounts t s ≠ 0 → s ≤ 11
  acSymbols : ∀ t s, g.acCounts t s ≠ 0 → s < 256 ∧ s % 16 ≤ 10

theorem Tallied.countBlock (h : Tallied n g) (hrange : InRange block (g.lastDcVal ci)) :
    Tallied (n + 1) (countBlock cinfo block ci g) where
  dcTotal := by
    intro t
    by_cases ht : t = cinfo.dcTblNo ci
    · have hsum := sum_countAll_le (g.dcCounts t) [(dcSymbol (block 0 - g.lastDcVal ci)).symbol]
      rw [StatisticsPass.countBlock, ← ht]
      dsimp only
      rw [Function.update_self]
      exact Nat.le_trans hsum (Nat.succ_le_succ (h.dcTotal t))
    · rw [StatisticsPass.countBlock]
      dsimp only
      rw [Function.update_of_ne ht]
      exact Nat.le_succ_of_le (h.dcTotal t)
  acTotal := by
    intro t
    have hbefore := h.acTotal t
    by_cases ht : t = cinfo.acTblNo ci
    · have hsum := sum_countAll_le (g.acCounts t) (acNumbers 0 (acCoefs block))
      have hlength := length_acNumbers_le 0 (acCoefs block)
      rw [acCoefs, List.length_map, List.length_range', Nat.zero_add] at hlength
      rw [StatisticsPass.countBlock, ← ht]
      dsimp only
      rw [Function.update_self]
      exact Nat.le_trans hsum (by rw [acCoefs]; omega)
    · rw [StatisticsPass.countBlock]
      dsimp only
      rw [Function.update_of_ne ht]
      omega
  dcSymbols := by
    intro t s hs
    rw [StatisticsPass.countBlock] at hs
    dsimp only at hs
    by_cases ht : t = cinfo.dcTblNo ci
    · rw [ht, Function.update_self, countAll_ne_zero, List.mem_singleton] at hs
      rcases hs with hbefore | rfl
      · exact h.dcSymbols _ s hbefore
      · exact hrange.dc
    · rw [Function.update_of_ne ht] at hs
      exact h.dcSymbols t s hs
  acSymbols := by
    intro t s hs
    rw [StatisticsPass.countBlock] at hs
    dsimp only at hs
    by_cases ht : t = cinfo.acTblNo ci
    · rw [ht, Function.update_self, countAll_ne_zero] at hs
      rcases hs with hbefore | hsymbol
      · exact h.acSymbols _ s hbefore
      · exact mem_acNumbers hrange.ac hsymbol
    · rw [Function.update_of_ne ht] at hs
      exact h.acSymbols t s hs

/-- Some symbol of either class has been counted for the component. -/
structure Covered (cinfo : EntropyScan) (g : HuffGatherer) (ci : ℕ) : Prop where
  dc : ∃ s, g.dcCounts (cinfo.dcTblNo ci) s ≠ 0
  ac : ∃ s, g.acCounts (cinfo.acTblNo ci) s ≠ 0

theorem Covered.grown (h : Covered cinfo g ci) (hgrown : Grown g g') : Covered cinfo g' ci := by
  obtain ⟨s, hs⟩ := h.dc
  obtain ⟨s', hs'⟩ := h.ac
  have hdc := hgrown.dc (cinfo.dcTblNo ci) s
  have hac := hgrown.ac (cinfo.acTblNo ci) s'
  exact ⟨⟨s, by omega⟩, s', by omega⟩

theorem countBlock_dc (cinfo : EntropyScan) (block : JBlock) (ci : ℕ) (g : HuffGatherer) :
    (countBlock cinfo block ci g).dcCounts (cinfo.dcTblNo ci) (dcSymbol (block 0 - g.lastDcVal ci)).symbol ≠ 0 := by
  rw [countBlock]
  dsimp only
  rw [Function.update_self, countAll_ne_zero]
  exact .inr (List.mem_singleton_self _)

theorem countBlock_ac (cinfo : EntropyScan) {block : JBlock} (ci : ℕ) (g : HuffGatherer) {s : ℕ}
    (hs : s ∈ acNumbers 0 (acCoefs block)) :
    (countBlock cinfo block ci g).acCounts (cinfo.acTblNo ci) s ≠ 0 := by
  rw [countBlock]
  dsimp only
  rw [Function.update_self, countAll_ne_zero]
  exact .inr hs

theorem covered_countBlock (cinfo : EntropyScan) (block : JBlock) (ci : ℕ) (g : HuffGatherer) :
    Covered cinfo (countBlock cinfo block ci g) ci := by
  have hlength : 0 < 0 + (acCoefs block).length := by
    rw [acCoefs, List.length_map, List.length_range']
    decide
  obtain ⟨s, hs⟩ := List.exists_mem_of_ne_nil _ (acNumbers_ne_nil hlength)
  exact ⟨⟨_, countBlock_dc cinfo block ci g⟩, s, countBlock_ac cinfo ci g hs⟩

structure Gathered (cinfo : EntropyScan) (membership : List ℕ) (g g' : HuffGatherer) : Prop where
  grown : Grown g g'
  tallied : ∀ n, Tallied n g → Tallied (n + membership.length) g'
  covered : ∀ ci ∈ membership, Covered cinfo g' ci
  togo : g'.restartsToGo = g.restartsToGo

theorem gatherBlocks_gathered {mcuData : ℕ → JBlock} {blkn : ℕ} {membership : List ℕ}
    (hok : gatherBlocks cinfo mcuData blkn membership g = .ok g') : Gathered cinfo membership g g' := by
  induction membership generalizing blkn g with
  | nil =>
    obtain rfl := Except.ok.inj hok
    exact ⟨Grown.refl _, fun _ h => h, fun _ hci => absurd hci List.not_mem_nil, rfl⟩
  | cons ci membership ih =>
    have hrange := inRange_of_gatherBlocks hok
    rw [gatherBlocks_cons hrange] at hok
    have hlater := ih hok
    constructor
    case grown => exact (grown_countBlock cinfo _ ci g).trans hlater.grown
    case tallied =>
      intro n h
      have hall := hlater.tallied (n + 1) (h.countBlock hrange)
      rwa [Nat.add_assoc, Nat.add_comm 1] at hall
    case covered =>
      intro c hc
      rcases List.mem_cons.mp hc with rfl | hmem
      · exact (covered_countBlock cinfo _ c g).grown hlater.grown
      · exact hlater.covered c hmem
    case togo => exact hlater.togo

theorem gatherRestart_counts (cinfo : EntropyScan) (g : HuffGatherer) :
    (gatherRestart cinfo g).dcCounts = g.dcCounts ∧ (gatherRestart cinfo g).acCounts = g.acCounts := by
  rw [gatherRestart]
  split_ifs <;> exact ⟨rfl, rfl⟩

theorem Grown.of_restart (h : Grown (gatherRestart cinfo g) g') : Grown g g' := by
  obtain ⟨hdc, hac⟩ := gatherRestart_counts cinfo g
  constructor
  · rw [← hdc]
    exact h.dc
  · rw [← hac]
    exact h.ac

theorem Tallied.restart (h : Tallied n g) : Tallied n (gatherRestart cinfo g) := by
  obtain ⟨hdc, hac⟩ := gatherRestart_counts cinfo g
  constructor
  case dcTotal => rw [hdc]; exact h.dcTotal
  case acTotal => rw [hac]; exact h.acTotal
  case dcSymbols => rw [hdc]; exact h.dcSymbols
  case acSymbols => rw [hac]; exact h.acSymbols

structure Collected (cinfo : EntropyScan) (mcus : ℕ) (g g' : HuffGatherer) : Prop where
  grown : Grown g g'
  tallied : ∀ n, Tallied n g → Tallied (n + mcus * cinfo.mcuMembership.length) g'
  covered : 0 < mcus → ∀ ci ∈ cinfo.mcuMembership, Covered cinfo g' ci

theorem collected_of_ok {mcus : List (ℕ → JBlock)} (hok : mcus.foldlM (encodeMcuGather cinfo) g = .ok g') :
    Collected cinfo mcus.length g g' := by
  induction mcus generalizing g with
  | nil =>
    obtain rfl := Except.ok.inj hok
    refine ⟨Grown.refl _, fun n h => ?_, fun hpos => absurd hpos (Nat.lt_irrefl 0)⟩
    rw [List.length_nil, Nat.zero_mul]
    exact h
  | cons mcu mcus ih =>
    rw [List.foldlM_cons] at hok
    obtain ⟨g₁, hmcu, hrest⟩ := except_bind_eq_ok hok
    have hone := gatherBlocks_gathered hmcu
    have hlater := ih hrest
    constructor
    case grown => exact hone.grown.of_restart.trans hlater.grown
    case tallied =>
      intro n h
      have hall := hlater.tallied _ (hone.tallied n h.restart)
      rwa [Nat.add_assoc, Nat.add_comm cinfo.mcuMembership.length, ← Nat.succ_mul] at hall
    case covered => exact fun _ ci hci => (hone.covered ci hci).grown hlater.grown

end Gathering

section Generating

structure Tabular (freq : ℕ → ℕ) : Prop where
  total : total freq ≤ 1000000000
  some : (occurring freq).Nonempty
  few : (occurring freq).card ≤ 254

/-- The computation gives something with the property `P`, or a codeword is too long, and then `Q`. -/
def Makes {α : Type} (Q : Prop) (P : α → Prop) (x : OptionT (Except HuffError) α) : Prop :=
  (∃ a, x.run = .ok (some a) ∧ P a) ∨ x.run = .error .clenOverflow ∧ Q

section Rules
variable {α β : Type} {Q Q' : Prop} {P R : α → Prop} {P' : β → Prop} {x : OptionT (Except HuffError) α}

theorem Makes.pure {a : α} (h : P a) : Makes Q P (pure a) := .inl ⟨a, rfl, h⟩

theorem Makes.imp (h : Makes Q P x) (hQ : Q → Q') (hP : ∀ a, P a → R a) : Makes Q' R x := by
  rcases h with ⟨a, hrun, ha⟩ | ⟨hrun, hlarge⟩
  · exact .inl ⟨a, hrun, hP a ha⟩
  · exact .inr ⟨hrun, hQ hlarge⟩

theorem Makes.bind {f : α → OptionT (Except HuffError) β} (h : Makes Q P x) (hf : ∀ a, P a → Makes Q P' (f a)) :
    Makes Q P' (x >>= f) := by
  rcases h with ⟨a, hrun, ha⟩ | ⟨hrun, hQ⟩
  · have hbind : (x >>= f).run = (f a).run := by
      rw [OptionT.run_bind, hrun]
      rfl
    rw [Makes, hbind]
    exact hf a ha
  · refine .inr ⟨?_, hQ⟩
    rw [OptionT.run_bind, hrun]
    rfl

end Rules

variable {cinfo : EntropyScan} {freqs dcFreqs acFreqs : ℕ → ℕ → ℕ} {s : TableClass} {n : ℕ} (contents : JHuffTbl)

theorem generate_makes {freq : ℕ → ℕ} (h : Tabular freq) (htbl : JHuffTbl) :
    Makes (Nat.fib 35 ≤ total freq) (fun p => Codes freq p.1) (OptionT.mk (jpegGenOptimalTable htbl freq)) := by
  rcases generate_cases h.total h.some h.few with ⟨t, bits, bits₁, bits₂, l, hmade⟩ | ⟨herror, hmany⟩
  · exact .inl ⟨_, hmade.result htbl, hmade.codes h.few htbl⟩
  · exact .inr ⟨herror htbl, hmany⟩

/-- The tables that have been made code what was counted; the other counts are as they were. -/
structure Making (freqs : ℕ → ℕ → ℕ) (s : TableClass) : Prop where
  todo : ∀ t, s.did t = false → s.counts t = freqs t
  done : ∀ t, s.did t = true → ∃ htbl, s.tbls t = some htbl ∧ Codes (freqs t) htbl

theorem generateTable_makes (h : Making freqs s) {tblno : ℕ} (htab : Tabular (freqs tblno)) :
    Makes (Nat.fib 35 ≤ total (freqs tblno))
      (fun s' => Making freqs s' ∧ s'.did tblno = true ∧ ∀ t, s.did t = true → s'.did t = true)
      (generateTable contents s tblno) := by
  rw [generateTable]
  by_cases hdid : s.did tblno = true
  · rw [if_pos hdid]
    exact Makes.pure ⟨h, hdid, fun _ ht => ht⟩
  · rw [if_neg hdid, h.todo tblno (Bool.eq_false_iff.mpr hdid)]
    refine (generate_makes htab _).bind ?_
    rintro ⟨htbl, left⟩ hcodes
    refine Makes.pure ⟨⟨?_, ?_⟩, Function.update_self tblno _ _, ?_⟩
    · intro t ht
      have hne : t ≠ tblno := by
        rintro rfl
        exact absurd ht (by simp)
      dsimp only at ht ⊢
      rw [Function.update_of_ne hne] at ht ⊢
      exact h.todo t ht
    · intro t ht
      dsimp only at ht ⊢
      by_cases hsame : t = tblno
      · rw [hsame, Function.update_self]
        exact ⟨htbl, rfl, hcodes⟩
      · rw [Function.update_of_ne hsame] at ht ⊢
        exact h.done t ht
    · intro t ht
      by_cases hsame : t = tblno
      · rw [hsame]
        exact Function.update_self tblno _ _
      · exact (Function.update_of_ne hsame _ _).trans ht

/-- The tables of the first `n` components have been made. -/
structure Finished (cinfo : EntropyScan) (dcFreqs acFreqs : ℕ → ℕ → ℕ) (n : ℕ) (s : TableClass × TableClass) :
    Prop where
  dc : Making dcFreqs s.1
  ac : Making acFreqs s.2
  didDc : ∀ ci < n, s.1.did (cinfo.dcTblNo ci) = true
  didAc : ∀ ci < n, s.2.did (cinfo.acTblNo ci) = true

def Huge (dcFreqs acFreqs : ℕ → ℕ → ℕ) : Prop := ∃ t, Nat.fib 35 ≤ total (dcFreqs t) ∨ Nat.fib 35 ≤ total (acFreqs t)

theorem generateComponent_makes {s : TableClass × TableClass} (h : Finished cinfo dcFreqs acFreqs n s)
    (hdc : Tabular (dcFreqs (cinfo.dcTblNo n))) (hac : Tabular (acFreqs (cinfo.acTblNo n))) :
    Makes (Huge dcFreqs acFreqs) (Finished cinfo dcFreqs acFreqs (n + 1))
      (generateComponent cinfo contents s n) := by
  rw [generateComponent]
  refine ((generateTable_makes contents h.dc hdc).imp (fun hmany => ⟨_, .inl hmany⟩) (fun _ h => h)).bind ?_
  rintro dc ⟨hmakingDc, hdidDc, hkeptDc⟩
  refine ((generateTable_makes contents h.ac hac).imp (fun hmany => ⟨_, .inr hmany⟩) (fun _ h => h)).bind ?_
  rintro ac ⟨hmakingAc, hdidAc, hkeptAc⟩
  refine Makes.pure ⟨hmakingDc, hmakingAc, ?_, ?_⟩
  · intro ci hci
    rcases Nat.lt_succ_iff_lt_or_eq.mp hci with hlt | rfl
    · exact hkeptDc _ (h.didDc ci hlt)
    · exact hdidDc
  · intro ci hci
    rcases Nat.lt_succ_iff_lt_or_eq.mp hci with hlt | rfl
    · exact hkeptAc _ (h.didAc ci hlt)
    · exact hdidAc

def withTables (cinfo : EntropyScan) (dc ac : TablePtrs) : EntropyScan :=
  { cinfo with dcHuffTblPtrs := dc, acHuffTblPtrs := ac }

/-- The tables code what has been counted for the components of the scan. -/
structure Suitable (cinfo : EntropyScan) (g : HuffGatherer) (dc ac : TablePtrs) : Prop where
  dc : ∀ ci < cinfo.compsInScan, ∃ htbl, dc (cinfo.dcTblNo ci) = some htbl ∧ Codes (g.dcCounts (cinfo.dcTblNo ci)) htbl
  ac : ∀ ci < cinfo.compsInScan, ∃ htbl, ac (cinfo.acTblNo ci) = some htbl ∧ Codes (g.acCounts (cinfo.acTblNo ci)) htbl

theorem finishPassGather_makes {g : HuffGatherer} (hdc : ∀ ci < cinfo.compsInScan, Tabular (g.dcCounts (cinfo.dcTblNo ci)))
    (hac : ∀ ci < cinfo.compsInScan, Tabular (g.acCounts (cinfo.acTblNo ci))) :
    Makes (Huge g.dcCounts g.acCounts) (fun cinfo' => ∃ dc ac, cinfo' = withTables cinfo dc ac ∧ Suitable cinfo g dc ac)
      (finishPassGather cinfo contents g) := by
  have hupto : ∀ n ≤ cinfo.compsInScan, Makes (Huge g.dcCounts g.acCounts) (Finished cinfo g.dcCounts g.acCounts n)
      ((List.range n).foldlM (generateComponent cinfo contents)
        ({ did := fun _ => false, tbls := cinfo.dcHuffTblPtrs, counts := g.dcCounts },
         { did := fun _ => false, tbls := cinfo.acHuffTblPtrs, counts := g.acCounts })) := by
    intro n hn
    induction n with
    | zero =>
      have hstart : ∀ (tbls : TablePtrs) (freqs : ℕ → ℕ → ℕ), Making freqs ⟨fun _ => false, tbls, freqs⟩ :=
        fun tbls freqs => ⟨fun _ _ => rfl, fun _ hdid => absurd hdid Bool.false_ne_true⟩
      exact Makes.pure ⟨hstart _ _, hstart _ _, fun _ hci => absurd hci (Nat.not_lt_zero _),
        fun _ hci => absurd hci (Nat.not_lt_zero _)⟩
    | succ n ih =>
      rw [List.range_succ, List.foldlM_append]
      refine (ih (Nat.le_of_succ_le hn)).bind (fun s h => ?_)
      rw [List.foldlM_cons]
      exact (generateComponent_makes contents h (hdc n hn) (hac n hn)).bind (fun _ h' => Makes.pure h')
  refine (hupto _ (Nat.le_refl _)).bind ?_
  rintro ⟨dc, ac⟩ h
  refine Makes.pure ⟨dc.tbls, ac.tbls, rfl, ?_, ?_⟩
  · exact fun ci hci => h.dc.done _ (h.didDc ci hci)
  · exact fun ci hci => h.ac.done _ (h.didAc ci hci)

end Generating

theorem forM_eq_ok {ε α : Type} {f : α → Except ε Unit} (l : List α) :
    l.forM f = .ok () ↔ ∀ a ∈ l, f a = .ok () := by
  induction l with
  | nil => exact iff_of_true rfl (fun _ ha => absurd ha List.not_mem_nil)
  | cons a l ih =>
    change (f a).bind (fun _ => l.forM f) = _ ↔ _
    rw [List.forall_mem_cons, ← ih]
    constructor
    · intro h
      obtain ⟨_, ha, hl⟩ := except_bind_eq_ok h
      exact ⟨ha, hl⟩
    · rintro ⟨ha, hl⟩
      rw [ha]
      exact hl

section SecondPass
variable {cinfo : EntropyScan} {g g' : HuffGatherer} {n : ℕ}

theorem tabular_of_counts {freq : ℕ → ℕ} (hsum : ∑ i ∈ Finset.range 256, freq i ≤ n) (hn : n < 1000000000)
    (hsymbols : ∀ s, freq s ≠ 0 → s < 256 ∧ s % 16 ≤ 11) (hsome : ∃ s, freq s ≠ 0) : Tabular freq where
  total := Nat.succ_le_of_lt (Nat.lt_of_le_of_lt hsum hn)
  some := by
    obtain ⟨s, hs⟩ := hsome
    exact ⟨s, mem_occurring.mpr ⟨(hsymbols s hs).1, hs⟩⟩
  few := by
    have hsub : occurring freq ⊆ Finset.range 252 := by
      intro i hi
      rw [mem_occurring] at hi
      have hi := hsymbols i hi.2
      rw [Finset.mem_range]
      omega
    have hcard := Finset.card_le_card hsub
    rw [Finset.card_range] at hcard
    exact Nat.le_trans hcard (by decide)

/-- The encoder's tables have codes for what has been counted. -/
structure CodesCounts (cinfo : EntropyScan) (g : HuffGatherer) (dcTbls acTbls : ℕ → CDerivedTbl) : Prop where
  dcFit : ∀ ci < cinfo.compsInScan, SizesFit (dcTbls (cinfo.dcTblNo ci))
  acFit : ∀ ci < cinfo.compsInScan, SizesFit (acTbls (cinfo.acTblNo ci))
  dc : ∀ ci < cinfo.compsInScan, ∀ s, g.dcCounts (cinfo.dcTblNo ci) s ≠ 0 → (dcTbls (cinfo.dcTblNo ci)).ehufsi s ≠ 0
  ac : ∀ ci < cinfo.compsInScan, ∀ s, g.acCounts (cinfo.acTblNo ci) s ≠ 0 → (acTbls (cinfo.acTblNo ci)).ehufsi s ≠ 0

variable {dcTbls acTbls : ℕ → CDerivedTbl}

theorem CodesCounts.of_grown (h : CodesCounts cinfo g' dcTbls acTbls) (hgrown : Grown g g') :
    CodesCounts cinfo g dcTbls acTbls where
  dcFit := h.dcFit
  acFit := h.acFit
  dc := by
    intro ci hci s hs
    have hle := hgrown.dc (cinfo.dcTblNo ci) s
    exact h.dc ci hci s (by omega)
  ac := by
    intro ci hci s hs
    have hle := hgrown.ac (cinfo.acTblNo ci) s
    exact h.ac ci hci s (by omega)

theorem CodesCounts.encodable {block : JBlock} {ci : ℕ} (hci : ci < cinfo.compsInScan)
    (h : CodesCounts cinfo (countBlock cinfo block ci g) dcTbls acTbls) (hrange : InRange block (g.lastDcVal ci)) :
    Encodable (dcTbls (cinfo.dcTblNo ci)) (acTbls (cinfo.acTblNo ci)) block (g.lastDcVal ci) where
  range := hrange
  dc := h.dc ci hci _ (countBlock_dc cinfo block ci g)
  ac := fun _ hc => h.ac ci hci _ (countBlock_ac cinfo ci g (List.mem_map_of_mem hc))

/-- The encoder has something in its buffer and the predictions of the gatherer. -/
structure Following (g : HuffGatherer) (state : WorkingState) : Prop where
  emitted : ∃ base l, Emitted base l state
  lastDcVal : state.cur.lastDcVal = g.lastDcVal

theorem encodeBlocks_counted {entropy : HuffEncoder} {dc ac : TablePtrs} {mcuData : ℕ → JBlock} {blkn : ℕ}
    {membership : List ℕ} (hmembership : ∀ ci ∈ membership, ci < cinfo.compsInScan)
    (hok : gatherBlocks cinfo mcuData blkn membership g = .ok g')
    (h : CodesCounts cinfo g' entropy.dcDerivedTbls entropy.acDerivedTbls) {state : WorkingState}
    (hstate : Following g state) :
    ∃ state', encodeBlocks (withTables cinfo dc ac) entropy mcuData blkn membership state = .ok state' ∧
      Following g' state' := by
  induction membership generalizing blkn g state with
  | nil =>
    obtain rfl := Except.ok.inj hok
    exact ⟨state, rfl, hstate⟩
  | cons ci membership ih =>
    have hrange := inRange_of_gatherBlocks hok
    rw [gatherBlocks_cons hrange] at hok
    have hci := hmembership ci List.mem_cons_self
    have hgrown := (gatherBlocks_gathered hok).grown
    have hencodable := (h.of_grown hgrown).encodable hci hrange
    obtain ⟨base, l, hemitted⟩ := hstate.emitted
    obtain ⟨state₁, hone⟩ := encodeOneBlock_exists (h.dcFit ci hci) (h.acFit ci hci) hemitted hencodable
    obtain ⟨-, hemitted₁, hlast⟩ := encodeOneBlock_ok (h.dcFit ci hci) (h.acFit ci hci) hemitted hone
    have hnext : Following (countBlock cinfo (mcuData blkn) ci g)
        { state₁ with cur := { state₁.cur with
          lastDcVal := Function.update state₁.cur.lastDcVal ci (mcuData blkn 0) } } := by
      refine ⟨⟨base, _, hemitted₁.predict _⟩, ?_⟩
      rw [hlast, hstate.lastDcVal]
      rfl
    obtain ⟨state', hlater, hfollowing⟩ :=
      ih (fun c hc => hmembership c (List.mem_cons_of_mem ci hc)) hok hnext
    refine ⟨state', ?_, hfollowing⟩
    rw [encodeBlocks, hstate.lastDcVal]
    change (encodeOneBlock (mcuData blkn) (g.lastDcVal ci) (entropy.dcDerivedTbls (cinfo.dcTblNo ci))
      (entropy.acDerivedTbls (cinfo.acTblNo ci)) state).bind _ = _
    rw [hone]
    exact hlater

/-- Both passes stand before the same MCU of the same restart interval. -/
structure InStep (g : HuffGatherer) (entropy : HuffEncoder) (dest : Destination) : Prop where
  following : Following g ⟨dest, entropy.saved⟩
  togo : entropy.restartsToGo = g.restartsToGo

theorem countRestart_eq {entropy : HuffEncoder} (htogo : entropy.restartsToGo = g.restartsToGo) :
    (countRestart cinfo entropy).restartsToGo = (gatherRestart cinfo g).restartsToGo ∧
      (countRestart cinfo entropy).saved = entropy.saved ∧
      (countRestart cinfo entropy).dcDerivedTbls = entropy.dcDerivedTbls ∧
      (countRestart cinfo entropy).acDerivedTbls = entropy.acDerivedTbls := by
  rw [countRestart, gatherRestart, htogo]
  by_cases hR : cinfo.restartInterval ≠ 0
  · rw [if_pos hR, if_pos hR]
    by_cases hzero : g.restartsToGo = 0
    · rw [if_pos hzero, if_pos hzero]
      exact ⟨rfl, rfl, rfl, rfl⟩
    · rw [if_neg hzero, if_neg hzero]
      exact ⟨congrArg (· - 1) htogo, rfl, rfl, rfl⟩
  · rw [if_neg hR, if_neg hR]
    exact ⟨htogo, rfl, rfl, rfl⟩

/-- The restart marker comes at the MCU where the gatherer resets its predictions. -/
theorem emitRestart_following {entropy : HuffEncoder} {dest : Destination} (hstep : InStep g entropy dest) :
    ∃ state, (if cinfo.restartInterval ≠ 0 ∧ entropy.restartsToGo = 0 then
      emitRestart entropy.nextRestartNum ⟨dest, entropy.saved⟩ else .ok ⟨dest, entropy.saved⟩) = .ok state ∧
        Following (gatherRestart cinfo g) state := by
  obtain ⟨base, l, hemitted⟩ := hstep.following.emitted
  rw [hstep.togo, gatherRestart]
  by_cases hrestart : cinfo.restartInterval ≠ 0 ∧ g.restartsToGo = 0
  · obtain ⟨state, bytes, p, hemit, -, -, hemitted', hlast⟩ := emitRestart_spec hemitted entropy.nextRestartNum
    rw [if_pos hrestart, if_pos hrestart.1, if_pos hrestart.2]
    exact ⟨state, hemit, ⟨_, _, hemitted'⟩, hlast⟩
  · rw [if_neg hrestart]
    refine ⟨_, rfl, ⟨base, l, hemitted⟩, hstep.following.lastDcVal.trans ?_⟩
    by_cases hR : cinfo.restartInterval ≠ 0
    · rw [if_pos hR, if_neg (fun hzero => hrestart ⟨hR, hzero⟩)]
    · rw [if_neg hR]

theorem encodeMcuHuff_counted {entropy : HuffEncoder} {dc ac : TablePtrs} {mcu : ℕ → JBlock} {dest : Destination}
    (hok : encodeMcuGather cinfo g mcu = .ok g')
    (h : CodesCounts cinfo g' entropy.dcDerivedTbls entropy.acDerivedTbls) (hstep : InStep g entropy dest) :
    ∃ entropy' dest', encodeMcuHuff (withTables cinfo dc ac) mcu entropy dest = .ok (entropy', dest') ∧
      InStep g' entropy' dest' ∧ entropy'.dcDerivedTbls = entropy.dcDerivedTbls ∧
      entropy'.acDerivedTbls = entropy.acDerivedTbls := by
  obtain ⟨state, hready, hfollowing⟩ := @emitRestart_following cinfo g entropy dest hstep
  obtain ⟨state', hblocks, hfollowing'⟩ := @encodeBlocks_counted cinfo (gatherRestart cinfo g) g' entropy dc ac mcu 0 _
    cinfo.membership_lt hok h state hfollowing
  obtain ⟨htogo, hsaved, hdc, hac⟩ := @countRestart_eq (withTables cinfo dc ac) g { entropy with saved := state'.cur }
    hstep.togo
  refine ⟨countRestart (withTables cinfo dc ac) { entropy with saved := state'.cur }, state'.dest, ?_, ⟨?_, ?_⟩, hdc, hac⟩
  · change encodeBlocks _ _ _ _ (withTables cinfo dc ac).mcuMembership _ = _ at hblocks
    rw [encodeMcuHuff]
    by_cases hrestart : (withTables cinfo dc ac).restartInterval ≠ 0 ∧ entropy.restartsToGo = 0
    · have hemit := (if_pos hrestart).symm.trans hready
      rw [if_pos hrestart, hemit]
      change (encodeBlocks _ _ _ _ _ state).bind _ = _
      rw [hblocks]
      rfl
    · obtain rfl := Except.ok.inj ((if_neg hrestart).symm.trans hready)
      rw [if_neg hrestart]
      change (encodeBlocks _ _ _ _ _ _).bind _ = _
      rw [hblocks]
      rfl
  · rw [hsaved]
    exact hfollowing'
  · rw [htogo, (gatherBlocks_gathered hok).togo]
    rfl

theorem encodeMcus_counted {dc ac : TablePtrs} {mcus : List (ℕ → JBlock)} {entropy : HuffEncoder} {dest : Destination}
    (hok : mcus.foldlM (encodeMcuGather cinfo) g = .ok g')
    (h : CodesCounts cinfo g' entropy.dcDerivedTbls entropy.acDerivedTbls) (hstep : InStep g entropy dest) :
    ∃ dest', encodeMcus (withTables cinfo dc ac) mcus entropy dest = .ok dest' := by
  induction mcus generalizing g entropy dest with
  | nil =>
    obtain ⟨base, l, hemitted⟩ := hstep.following.emitted
    obtain ⟨state', bytes, p, hflush, -⟩ := flushBits_spec hemitted
    refine ⟨state'.dest, ?_⟩
    rw [encodeMcus, finishPassHuff, hflush]
    rfl
  | cons mcu mcus ih =>
    rw [List.foldlM_cons] at hok
    obtain ⟨g₁, hmcu, hrest⟩ := except_bind_eq_ok hok
    obtain ⟨entropy₁, dest₁, hone, hstep₁, hdc, hac⟩ := @encodeMcuHuff_counted cinfo g g₁ entropy dc ac mcu dest hmcu
      (h.of_grown (collected_of_ok hrest).grown) hstep
    obtain ⟨dest', hlater⟩ := ih hrest (by rw [hdc, hac]; exact h) hstep₁
    refine ⟨dest', ?_⟩
    rw [encodeMcus, hone]
    exact hlater

theorem exists_derivedTable {freq : ℕ → ℕ} {htbl : JHuffTbl} (hcodes : Codes freq htbl) {isDC : Bool} {tbls : TablePtrs}
    {tblno : ℕ} (hnumber : tblno < numHuffTbls) (hptr : tbls tblno = some htbl)
    (hclass : ∀ s, freq s ≠ 0 → s < 256 ∧ s ≤ maxSymbol isDC) :
    ∃ t, jpegMakeCDerivedTbl isDC tbls tblno = .ok t ∧ SizesFit t ∧ ∀ s, freq s ≠ 0 → t.ehufsi s ≠ 0 := by
  have hfind : findTable tbls tblno = .ok htbl := by
    rw [findTable, if_neg (Nat.not_le.mpr hnumber), hptr]
  obtain ⟨t, hmake, htable, hcoded⟩ := hcodes.makeC hfind (fun i _ hi => (hclass i hi).2)
  exact ⟨t, hmake, sizesFit_of_table htable, fun s hs => (hcoded s).mpr ⟨(hclass s hs).1, hs⟩⟩

theorem startPassHuff_suitable {dc ac : TablePtrs} (hnumbers : ∀ ci < cinfo.compsInScan,
      cinfo.dcTblNo ci < numHuffTbls ∧ cinfo.acTblNo ci < numHuffTbls)
    (h : Tallied n g) (hsuitable : Suitable cinfo g dc ac) :
    ∃ entropy, startPassHuff (withTables cinfo dc ac) = .ok entropy ∧ entropy.saved = ⟨0, 0, fun _ => 0⟩ ∧
      entropy.restartsToGo = cinfo.restartInterval ∧
      CodesCounts cinfo g entropy.dcDerivedTbls entropy.acDerivedTbls := by
  have hdc : ∀ ci < cinfo.compsInScan, ∃ t, jpegMakeCDerivedTbl true dc (cinfo.dcTblNo ci) = .ok t ∧ SizesFit t ∧
      ∀ s, g.dcCounts (cinfo.dcTblNo ci) s ≠ 0 → t.ehufsi s ≠ 0 := by
    intro ci hci
    obtain ⟨htbl, hptr, hcodes⟩ := hsuitable.dc ci hci
    refine exists_derivedTable hcodes (hnumbers ci hci).1 hptr (fun s hs => ?_)
    have hle := h.dcSymbols _ s hs
    exact ⟨Nat.lt_of_le_of_lt hle (by decide), Nat.le_trans hle (by decide)⟩
  have hac : ∀ ci < cinfo.compsInScan, ∃ t, jpegMakeCDerivedTbl false ac (cinfo.acTblNo ci) = .ok t ∧ SizesFit t ∧
      ∀ s, g.acCounts (cinfo.acTblNo ci) s ≠ 0 → t.ehufsi s ≠ 0 := by
    intro ci hci
    obtain ⟨htbl, hptr, hcodes⟩ := hsuitable.ac ci hci
    refine exists_derivedTable hcodes (hnumbers ci hci).2 hptr (fun s hs => ?_)
    have hlt := (h.acSymbols _ s hs).1
    exact ⟨hlt, Nat.le_of_lt_succ hlt⟩
  obtain ⟨tbls, htbls⟩ := @exists_derived _
    (fun isDC => jpegMakeCDerivedTbl isDC ((withTables cinfo dc ac).tablePtrs isDC)) (withTables cinfo dc ac)
    { ehufco := fun _ => 0, ehufsi := fun _ => 0 } (by
      intro ci hci
      obtain ⟨t, hmake, -⟩ := hdc ci hci
      obtain ⟨t', hmake', -⟩ := hac ci hci
      exact ⟨⟨t, hmake⟩, t', hmake'⟩)
  have hderived := derived_of_ok htbls
  have hdc' : ∀ ci < cinfo.compsInScan, SizesFit (tbls.1 (cinfo.dcTblNo ci)) ∧
      ∀ s, g.dcCounts (cinfo.dcTblNo ci) s ≠ 0 → (tbls.1 (cinfo.dcTblNo ci)).ehufsi s ≠ 0 := by
    intro ci hci
    obtain ⟨t, hmake, hcoded⟩ := hdc ci hci
    obtain rfl := Except.ok.inj (hmake.symm.trans (hderived.dc ci hci))
    exact hcoded
  have hac' : ∀ ci < cinfo.compsInScan, SizesFit (tbls.2 (cinfo.acTblNo ci)) ∧
      ∀ s, g.acCounts (cinfo.acTblNo ci) s ≠ 0 → (tbls.2 (cinfo.acTblNo ci)).ehufsi s ≠ 0 := by
    intro ci hci
    obtain ⟨t, hmake, hcoded⟩ := hac ci hci
    obtain rfl := Except.ok.inj (hmake.symm.trans (hderived.ac ci hci))
    exact hcoded
  refine ⟨_, by rw [startPassHuff, htbls]; rfl, rfl, rfl, ⟨fun ci hci => (hdc' ci hci).1,
    fun ci hci => (hac' ci hci).1, fun ci hci => (hdc' ci hci).2, fun ci hci => (hac' ci hci).2⟩⟩

theorem startPassGather_ok (hok : startPassGather cinfo = .ok g) :
    (∀ ci < cinfo.compsInScan, cinfo.dcTblNo ci < numHuffTbls ∧ cinfo.acTblNo ci < numHuffTbls) ∧
      g = ⟨fun _ => 0, cinfo.restartInterval, fun _ _ => 0, fun _ _ => 0⟩ := by
  rw [startPassGather] at hok
  obtain ⟨_, hchecked, hstart⟩ := except_bind_eq_ok hok
  refine ⟨fun ci hci => ?_, (Except.ok.inj hstart).symm⟩
  have hcheck := (forM_eq_ok _).mp hchecked ci (List.mem_range.mpr hci)
  rw [checkTables] at hcheck
  split_ifs at hcheck with hdc hac
  exact ⟨Nat.not_le.mp hdc, Nat.not_le.mp hac⟩

theorem tallied_start (R : ℕ) : Tallied 0 ⟨fun _ => 0, R, fun _ _ => 0, fun _ _ => 0⟩ where
  dcTotal _ := (Finset.sum_eq_zero (fun _ _ => rfl)).le
  acTotal _ := (Finset.sum_eq_zero (fun _ _ => rfl)).le
  dcSymbols _ _ h := absurd rfl h
  acSymbols _ _ h := absurd rfl h

theorem finishPassGather_encodes (contents : JHuffTbl) {g₀ : HuffGatherer} {mcus : List (ℕ → JBlock)} (hmcus : mcus ≠ [])
    (hcomps : ∀ ci < cinfo.compsInScan, ci ∈ cinfo.mcuMembership)
    (hmany : 63 * (mcus.length * cinfo.mcuMembership.length) < 1000000000)
    (hstart : startPassGather cinfo = .ok g₀) (hok : mcus.foldlM (encodeMcuGather cinfo) g₀ = .ok g) :
    Makes (Nat.fib 35 ≤ 63 * (mcus.length * cinfo.mcuMembership.length) + 1)
      (fun cinfo' => ∃ dc ac, cinfo' = withTables cinfo dc ac ∧
        ∀ dest, ∃ dest', encodeEntropyScan cinfo' mcus dest = .ok dest') (finishPassGather cinfo contents g) := by
  obtain ⟨hnumbers, rfl⟩ := startPassGather_ok hstart
  have hcollected := collected_of_ok hok
  have htallied := hcollected.tallied 0 (tallied_start _)
  rw [Nat.zero_add] at htallied
  have hcovered : ∀ ci < cinfo.compsInScan, Covered cinfo g ci :=
    fun ci hci => hcollected.covered (List.length_pos_iff.mpr hmcus) ci (hcomps ci hci)
  have hdc : ∀ ci < cinfo.compsInScan, Tabular (g.dcCounts (cinfo.dcTblNo ci)) := by
    intro ci hci
    refine tabular_of_counts (htallied.dcTotal _) (by omega) (fun s hs => ?_) (hcovered ci hci).dc
    have hle := htallied.dcSymbols _ s hs
    omega
  have hac : ∀ ci < cinfo.compsInScan, Tabular (g.acCounts (cinfo.acTblNo ci)) := by
    intro ci hci
    refine tabular_of_counts (htallied.acTotal _) hmany (fun s hs => ?_) (hcovered ci hci).ac
    have hle := htallied.acSymbols _ s hs
    omega
  refine (finishPassGather_makes contents hdc hac).imp ?_ ?_
  · rintro ⟨t, hlarge | hlarge⟩
    · exact Nat.le_trans hlarge (Nat.succ_le_succ (Nat.le_trans (htallied.dcTotal t) (by omega)))
    · exact Nat.le_trans hlarge (Nat.succ_le_succ (htallied.acTotal t))
  · rintro cinfo' ⟨dc, ac, rfl, hsuitable⟩
    refine ⟨dc, ac, rfl, fun dest => ?_⟩
    obtain ⟨entropy, hentropy, hsaved, htogo, hcodes⟩ := startPassHuff_suitable hnumbers htallied hsuitable
    have hemitted : Emitted dest.written [] ⟨dest, ⟨0, 0, fun _ => 0⟩⟩ :=
      ⟨[], [], (List.append_nil _).symm, rfl, ⟨by decide, rfl, bits_of_zero 24⟩⟩
    obtain ⟨dest', hencode⟩ := @encodeMcus_counted cinfo _ g dc ac mcus entropy dest hok hcodes
      ⟨⟨⟨_, _, by rw [hsaved]; exact hemitted⟩, by rw [hsaved]⟩, htogo⟩
    refine ⟨dest', ?_⟩
    rw [encodeEntropyScan, hentropy]
    exact hencode

end SecondPass

section RoundTrip

/-- The DCT coefficients of samples of eight bits have such values. -/
structure EightBit (block : JBlock) : Prop where
  dc : -1024 ≤ block 0 ∧ block 0 < 1024
  ac : ∀ v ∈ acCoefs block, v.natAbs < 1024

variable {cinfo : EntropyScan} {g : HuffGatherer}

theorem EightBit.inRange {block : JBlock} (h : EightBit block) {lastDcVal : ℤ}
    (hlast : -1024 ≤ lastDcVal ∧ lastDcVal < 1024) : InRange block lastDcVal := by
  have hdc := h.dc
  exact ⟨Nat.size_le.mpr (show _ < 2048 by omega), fun v hv => Nat.size_le.mpr (h.ac v hv)⟩

/-- The predictions are such values as well. -/
def Predicting (g : HuffGatherer) : Prop := ∀ ci, -1024 ≤ g.lastDcVal ci ∧ g.lastDcVal ci < 1024

private theorem predicting_zero (_ : ℕ) : -1024 ≤ (0 : ℤ) ∧ (0 : ℤ) < 1024 := by decide

theorem gatherBlocks_exists {mcuData : ℕ → JBlock} (hblocks : ∀ b, EightBit (mcuData b)) (membership : List ℕ) (blkn : ℕ)
    (hg : Predicting g) : ∃ g', gatherBlocks cinfo mcuData blkn membership g = .ok g' ∧ Predicting g' := by
  induction membership generalizing blkn g with
  | nil => exact ⟨g, rfl, hg⟩
  | cons ci membership ih =>
    rw [gatherBlocks_cons ((hblocks blkn).inRange (hg ci))]
    refine ih (blkn + 1) (fun c => ?_)
    rw [countBlock]
    dsimp only
    by_cases hc : c = ci
    · rw [hc, Function.update_self]
      exact (hblocks blkn).dc
    · rw [Function.update_of_ne hc]
      exact hg c

theorem gatherRestart_predicting (hg : Predicting g) : Predicting (gatherRestart cinfo g) := by
  intro ci
  rw [gatherRestart]
  split_ifs
  · exact predicting_zero ci
  · exact hg ci
  · exact hg ci

theorem gatherMcus_exists {mcus : List (ℕ → JBlock)} (hmcus : ∀ mcu ∈ mcus, ∀ b, EightBit (mcu b)) (hg : Predicting g) :
    ∃ g', mcus.foldlM (encodeMcuGather cinfo) g = .ok g' := by
  induction mcus generalizing g with
  | nil => exact ⟨g, rfl⟩
  | cons mcu mcus ih =>
    obtain ⟨g₁, hone, hg₁⟩ := @gatherBlocks_exists cinfo _ mcu (hmcus mcu List.mem_cons_self) cinfo.mcuMembership 0
      (@gatherRestart_predicting cinfo g hg)
    obtain ⟨g', hlater⟩ := ih (fun m hm => hmcus m (List.mem_cons_of_mem mcu hm)) hg₁
    refine ⟨g', ?_⟩
    rw [List.foldlM_cons, encodeMcuGather, hone]
    exact hlater

theorem startPassGather_exists (hnumbers : ∀ ci < cinfo.compsInScan,
    cinfo.dcTblNo ci < numHuffTbls ∧ cinfo.acTblNo ci < numHuffTbls) :
    startPassGather cinfo = .ok ⟨fun _ => 0, cinfo.restartInterval, fun _ _ => 0, fun _ _ => 0⟩ := by
  have hchecked : (List.range cinfo.compsInScan).forM (checkTables cinfo) = .ok () := by
    refine (forM_eq_ok _).mpr (fun ci hci => ?_)
    obtain ⟨hdc, hac⟩ := hnumbers ci (List.mem_range.mp hci)
    rw [checkTables, if_neg (Nat.not_le.mpr hdc), if_neg (Nat.not_le.mpr hac)]
  rw [startPassGather]
  change ((List.range cinfo.compsInScan).forM (checkTables cinfo)).bind _ = _
  rw [hchecked]
  rfl

/-- Both passes succeed with fewer symbols than a codeword of more than 32 bits takes. -/
theorem gatherEntropyScan_exists (contents : JHuffTbl) {mcus : List (ℕ → JBlock)} (hmcus : mcus ≠ [])
    (hcomps : ∀ ci < cinfo.compsInScan, ci ∈ cinfo.mcuMembership)
    (hnumbers : ∀ ci < cinfo.compsInScan, cinfo.dcTblNo ci < numHuffTbls ∧ cinfo.acTblNo ci < numHuffTbls)
    (hblocks : ∀ mcu ∈ mcus, ∀ b, EightBit (mcu b))
    (hfew : 63 * (mcus.length * cinfo.mcuMembership.length) + 1 < Nat.fib 35) :
    ∃ dc ac, gatherEntropyScan cinfo contents mcus = .ok (some (withTables cinfo dc ac)) ∧
      ∀ dest, ∃ dest', encodeEntropyScan (withTables cinfo dc ac) mcus dest = .ok dest' := by
  have hfib : Nat.fib 35 = 9227465 := by decide
  have hstart := startPassGather_exists hnumbers
  obtain ⟨g, hgather⟩ := @gatherMcus_exists cinfo ⟨fun _ => 0, cinfo.restartInterval, fun _ _ => 0, fun _ _ => 0⟩
    mcus hblocks predicting_zero
  rcases finishPassGather_encodes contents hmcus hcomps (by omega) hstart hgather with
    ⟨cinfo', hrun, dc, ac, rfl, hencodes⟩ | ⟨-, hlarge⟩
  · refine ⟨dc, ac, ?_, hencodes⟩
    rw [gatherEntropyScan, hstart]
    change (mcus.foldlM (encodeMcuGather cinfo) _).bind _ = _
    rw [hgather]
    exact hrun
  · exact absurd hlarge (Nat.not_le.mpr hfew)

theorem eightBit_grayMcu (b : ℕ) : EightBit (grayMcu.block b) :=
  show EightBit (grayMcu.block 0) from ⟨by decide, by decide⟩

theorem eightBit_blackMcu (b : ℕ) : EightBit (blackMcu.block b) :=
  show EightBit (blackMcu.block 0) from ⟨by decide, by decide⟩

theorem few_grayScan : 63 * (2 * 1) + 1 < Nat.fib 35 :=
  Nat.lt_of_lt_of_le (by decide : 127 < Nat.fib 12) (Nat.fib_mono (by decide))

/-- When the first pass ends without an error it has made tables with which the second pass codes the
same MCUs. -/
theorem encodeEntropyScan_gathered (contents : JHuffTbl) {mcus : List (ℕ → JBlock)} (hmcus : mcus ≠ [])
    (hcomps : ∀ ci < cinfo.compsInScan, ci ∈ cinfo.mcuMembership)
    (hmany : 63 * (mcus.length * cinfo.mcuMembership.length) < 1000000000) {gathered : Option EntropyScan}
    (hok : gatherEntropyScan cinfo contents mcus = .ok gathered) :
    ∃ dc ac, gathered = some (withTables cinfo dc ac) ∧
      ∀ dest, ∃ dest', encodeEntropyScan (withTables cinfo dc ac) mcus dest = .ok dest' := by
  obtain ⟨g₀, hstart, hrest⟩ := except_bind_eq_ok hok
  obtain ⟨g, hgather, hfinish⟩ := except_bind_eq_ok hrest
  rcases finishPassGather_encodes contents hmcus hcomps hmany hstart hgather with
    ⟨cinfo', hrun, dc, ac, rfl, hencodes⟩ | ⟨herror, -⟩
  · exact ⟨dc, ac, Except.ok.inj (hfinish.symm.trans hrun), hencodes⟩
  · exact absurd (hfinish.symm.trans herror) (by simp)

theorem encodeEntropyScan_gathered_grayScan : ∃ gathered dc ac,
    gatherEntropyScan (grayScan 1).toEntropyScan oneSymbolTable [grayMcu.block, blackMcu.block] = .ok gathered ∧
      gathered = some (withTables (grayScan 1).toEntropyScan dc ac) ∧
      ∀ dest, ∃ dest', encodeEntropyScan (withTables (grayScan 1).toEntropyScan dc ac)
        [grayMcu.block, blackMcu.block] dest = .ok dest' := by
  obtain ⟨_, _, hgather, -⟩ := @gatherEntropyScan_exists (grayScan 1).toEntropyScan oneSymbolTable
    [grayMcu.block, blackMcu.block] (List.cons_ne_nil _ _) (by decide) (by decide)
    (List.forall_mem_cons.mpr ⟨eightBit_grayMcu, List.forall_mem_singleton.mpr eightBit_blackMcu⟩) few_grayScan
  obtain ⟨dc, ac, hsome, hencodes⟩ := encodeEntropyScan_gathered oneSymbolTable (List.cons_ne_nil _ _) (by decide)
    (by decide) hgather
  exact ⟨_, dc, ac, hgather, hsome, hencodes⟩

/-- A scan that is coded in two passes comes back as it was. -/
theorem decodeMcus_gathered (cinfo : DecoderScan) (contents : JHuffTbl) {mcus : List Mcu} (hmcus : mcus ≠ [])
    (hcomps : ∀ ci < cinfo.compsInScan, ci ∈ cinfo.mcuMembership)
    (hnumbers : ∀ ci < cinfo.compsInScan, cinfo.dcTblNo ci < numHuffTbls ∧ cinfo.acTblNo ci < numHuffTbls)
    (hblocks : ∀ mcu ∈ mcus, ∀ b, EightBit (mcu.block b))
    (hfew : 63 * (mcus.length * cinfo.mcuMembership.length) + 1 < Nat.fib 35) (dest : Destination) :
    ∃ cinfo' dest', gatherEntropyScan cinfo.toEntropyScan contents (mcus.map Mcu.block) = .ok (some cinfo') ∧
      encodeEntropyScan cinfo' (mcus.map Mcu.block) dest = .ok dest' ∧
      ∀ (m : Marker) (tail : List UInt8) (source : Source) (warnings : List DecodeWarning),
        dest.written ++ source.unread = dest'.written ++ 0xFF :: m.code :: tail →
          ∃ dec, startPassHuffDecoder { cinfo with toEntropyScan := cinfo' } source warnings = .ok dec ∧
            (decodeMcus { cinfo with toEntropyScan := cinfo' } mcus.length dec).1 =
              mcus.map (wantedMcu { cinfo with toEntropyScan := cinfo' }) := by
  obtain ⟨dc, ac, hgather, hencodes⟩ := @gatherEntropyScan_exists cinfo.toEntropyScan contents (mcus.map Mcu.block)
    (fun h => hmcus (List.map_eq_nil_iff.mp h)) hcomps hnumbers
    (by
      intro mcuData hmem
      obtain ⟨mcu, hmcu, rfl⟩ := List.mem_map.mp hmem
      exact hblocks mcu hmcu)
    (by rw [List.length_map]; exact hfew)
  obtain ⟨dest', hencode⟩ := hencodes dest
  refine ⟨_, dest', hgather, hencode, ?_⟩
  intro m tail source warnings hsource
  obtain ⟨first, rest, hwritten, hrun⟩ := @exists_decoded
    { cinfo with toEntropyScan := withTables cinfo.toEntropyScan dc ac } mcus dest dest' hencode
  rw [hwritten, List.append_assoc, joinIntervals_received] at hsource
  obtain ⟨dec, hstart, -, -, hdecoded⟩ := hrun (fun _ => True) first (rest.map some) m tail source
    warnings (List.append_cancel_left hsource) (List.length_map some) (recoverable_map_some rest) (fun _ _ => rfl)
  exact ⟨dec, hstart, List.ext_getElem? (fun j => hdecoded.blocks j trivial)⟩

theorem decodeMcus_gathered_grayScan : ∃ cinfo' dest',
    gatherEntropyScan (grayScan 1).toEntropyScan oneSymbolTable [grayMcu.block, blackMcu.block] = .ok (some cinfo') ∧
      encodeEntropyScan cinfo' [grayMcu.block, blackMcu.block] (Destination.initDestination []) = .ok dest' ∧
      ∃ dec, startPassHuffDecoder { grayScan 1 with toEntropyScan := cinfo' }
          ⟨dest'.written ++ [0xFF, 0xD9], [], 0⟩ [] = .ok dec ∧
        (decodeMcus { grayScan 1 with toEntropyScan := cinfo' } 2 dec).1 =
          [grayMcu, blackMcu].map (wantedMcu { grayScan 1 with toEntropyScan := cinfo' }) := by
  obtain ⟨cinfo', dest', hgather, hencode, hdecode⟩ := decodeMcus_gathered (grayScan 1) oneSymbolTable
    (List.cons_ne_nil grayMcu [blackMcu]) (by decide) (by decide)
    (List.forall_mem_cons.mpr ⟨eightBit_grayMcu, List.forall_mem_singleton.mpr eightBit_blackMcu⟩) few_grayScan
    (Destination.initDestination [])
  refine ⟨cinfo', dest', hgather, hencode, hdecode endOfImage [] ⟨dest'.written ++ [0xFF, 0xD9], [], 0⟩ [] ?_⟩
  exact congrArg (List.append _) (List.append_nil _)

end RoundTrip

end Jp4Tools.StatisticsPass
