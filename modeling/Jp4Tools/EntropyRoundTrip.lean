import Jp4Tools.HuffmanDecoder
import Jp4Tools.HuffmanEncoder

/-!
# Entropy coding and decoding of blocks

What the Huffman encoder writes the Huffman decoder reads: symbols, the bits of coefficients,
blocks, and the blocks of an MCU. Blocks and coefficients that are not wanted stay zero.
-/

namespace Jp4Tools.EntropyRoundTrip
open BitStrings ByteStuffing CanonicalCodes CoefficientBits CompressionController HuffmanTables
  MachineIntegers StdioManagers BitReader RestartMarkers HuffmanDecoder HuffmanEncoder

/-- The reader has gone on to the bits `rest` of the same segment, without a warning. -/
structure Advanced (r r' : Reader) (rest : List Bool) : Prop where
  remaining : r'.remaining = rest
  ending : r'.ending = r.ending
  insufficient : r'.insufficientData = r.insufficientData
  warnings : r'.warnings = r.warnings

theorem Advanced.refl (r : Reader) : Advanced r r r.remaining := ⟨rfl, rfl, rfl, rfl⟩

theorem Advanced.trans {r r₁ r₂ : Reader} {rest rest' : List Bool} (h : Advanced r r₁ rest)
    (h' : Advanced r₁ r₂ rest') : Advanced r r₂ rest' :=
  ⟨h'.remaining, h'.ending.trans h.ending, h'.insufficient.trans h.insufficient,
    h'.warnings.trans h.warnings⟩

/-- The derived tables of encoder and decoder come from one valid Huffman table. -/
def Matching (ctbl : CDerivedTbl) (dtbl : DDerivedTbl) : Prop :=
  ∃ htbl, Valid htbl ∧ EncodingTable htbl ctbl ∧ DecodingTable htbl dtbl

section Symbols
variable {ctbl : CDerivedTbl} {dtbl : DDerivedTbl}

theorem huffDecode_symbol (h : Matching ctbl dtbl) {sym : ℕ} (hsym : ctbl.ehufsi sym ≠ 0) {r : Reader}
    {rest : List Bool} (hr : r.remaining = bits (ctbl.ehufsi sym) (ctbl.ehufco sym) ++ rest) :
    ∃ r', huffDecode dtbl r = (sym, r') ∧ Advanced r r' rest := by
  obtain ⟨htbl, hvalid, hencoding, hdecoding⟩ := h
  obtain ⟨s, rfl⟩ := hencoding.source sym hsym
  rw [hencoding.size s, hencoding.code s] at hr
  obtain ⟨r', hdecode, hremaining, hending, hinsufficient, hwarnings⟩ :=
    huffDecode_word hdecoding hvalid s hr
  exact ⟨r', hdecode, hremaining, hending, hinsufficient, hwarnings⟩

theorem fetchBits_bits {n v : ℕ} (hn : n ≤ 25) {r : Reader} {rest : List Bool}
    (hr : r.remaining = bits n v ++ rest) :
    ∃ r', fetchBits n r = (v % 2 ^ n, r') ∧ Advanced r r' rest := by
  obtain ⟨w, hlen, hnumber, hreads⟩ := fetchBits_reads hn r
  have hpre := hreads.isPrefix hr (by rw [length_bits, hlen])
  have hw : bits n v = w := List.IsPrefix.eq_of_length hpre (by rw [length_bits, hlen])
  subst hw
  obtain ⟨hremaining, hending, hinsufficient, hwarnings⟩ := hreads.exact hr
  refine ⟨_, ?_, ⟨hremaining, hending, hinsufficient, hwarnings⟩⟩
  rw [← number_bits, ← hnumber]

theorem fetchValue_coef {v : ℤ} (hv : v ≠ 0) (hsize : v.natAbs.size ≤ 16) {r : Reader} {rest : List Bool}
    (hr : r.remaining = bits v.natAbs.size (coefCode v) ++ rest) :
    ∃ r', fetchValue v.natAbs.size r = (v, r') ∧ Advanced r r' rest := by
  obtain ⟨r', hfetch, hadvanced⟩ := fetchBits_bits (by omega) hr
  refine ⟨r', ?_, hadvanced⟩
  rw [fetchValue, hfetch]
  dsimp only
  rw [huffExtend_coefCode hv (by omega)]

theorem size_natAbs_ne_zero {v : ℤ} (hv : v ≠ 0) : v.natAbs.size ≠ 0 := by
  rw [ne_eq, Nat.size_eq_zero, Int.natAbs_eq_zero]
  exact hv

theorem decodeDc_symbol (h : Matching ctbl dtbl) {diff : ℤ} (hsize : diff.natAbs.size ≤ 16)
    (hsym : ctbl.ehufsi (dcSymbol diff).symbol ≠ 0) {r : Reader} {rest : List Bool}
    (hr : r.remaining = codedBits ctbl (dcSymbol diff) ++ rest) :
    ∃ r', decodeDc dtbl r = (diff, r') ∧ Advanced r r' rest := by
  rw [codedBits, List.append_assoc] at hr
  obtain ⟨r₁, hdecode, hadvanced⟩ := huffDecode_symbol h hsym hr
  rw [decodeDc, hdecode]
  dsimp only
  change ∃ r', (if diff.natAbs.size ≠ 0 then fetchValue diff.natAbs.size r₁ else (0, r₁)) = _ ∧ _
  by_cases hzero : diff = 0
  · subst hzero
    exact ⟨r₁, rfl, hadvanced⟩
  · obtain ⟨r', hfetch, hadvanced'⟩ := fetchValue_coef hzero hsize hadvanced.remaining
    rw [if_pos (size_natAbs_ne_zero hzero)]
    exact ⟨r', hfetch, hadvanced.trans hadvanced'⟩

end Symbols

section Blocks
variable {ctbl : CDerivedTbl} {dtbl : DDerivedTbl}

def storeFrom : ℕ → List ℤ → JBlock → JBlock
  | _, [], block => block
  | k, v :: vs, block =>
    storeFrom (k + 1) vs (if v = 0 then block else Function.update block (naturalOrder k) (jcoef v))

theorem decodeAcs_succ (dtbl : DDerivedTbl) (fuel : ℕ) {k : ℕ} (hk : k < 64) (block : JBlock) {r r₁ : Reader}
    {rs : ℕ} (h : huffDecode dtbl r = (rs, r₁)) : decodeAcs dtbl (fuel + 1) k block r =
      if rs % 16 ≠ 0 then
        decodeAcs dtbl fuel (k + rs / 16 + 1)
          (Function.update block (naturalOrder (k + rs / 16)) (jcoef (fetchValue (rs % 16) r₁).1))
          (fetchValue (rs % 16) r₁).2
      else if rs / 16 ≠ 15 then (block, r₁) else decodeAcs dtbl fuel (k + 15 + 1) block r₁ := by
  have hlow : rs &&& 15 = rs % 16 := Nat.and_two_pow_sub_one_eq_mod rs 4
  have hhigh : rs >>> 4 = rs / 16 := Nat.shiftRight_eq_div_pow rs 4
  rw [decodeAcs, if_pos (show k < dctSize2 from hk), h]
  dsimp only
  rw [hlow, hhigh]

/-- The special codes for sixteen zeros each. -/
theorem decodeAcs_runs (h : Matching ctbl dtbl) (n : ℕ) (hcode : n ≠ 0 → ctbl.ehufsi 0xF0 ≠ 0) {fuel k : ℕ}
    (hk : k + 16 * n ≤ 64) (block : JBlock) {r : Reader} {rest : List Bool}
    (hr : r.remaining = (List.replicate n (CodedSymbol.mk 0xF0 0)).flatMap (codedBits ctbl) ++ rest) :
    ∃ r', decodeAcs dtbl (fuel + n) k block r = decodeAcs dtbl fuel (k + 16 * n) block r' ∧
      Advanced r r' rest := by
  induction n generalizing k r with
  | zero =>
    rw [List.replicate_zero, List.flatMap_nil, List.nil_append] at hr
    exact ⟨r, rfl, hr ▸ Advanced.refl r⟩
  | succ n ih =>
    have hspecial := hcode (Nat.succ_ne_zero n)
    rw [List.replicate_succ, List.flatMap_cons, List.append_assoc, codedBits, List.append_assoc] at hr
    obtain ⟨r₁, hdecode, hadvanced⟩ := huffDecode_symbol h hspecial hr
    obtain ⟨r', hrun, hadvanced'⟩ := ih (fun _ => hspecial) (k := k + 16) (by omega) hadvanced.remaining
    refine ⟨r', ?_, hadvanced.trans hadvanced'⟩
    rw [← Nat.add_assoc, decodeAcs_succ dtbl (fuel + n) (by omega) block hdecode, if_neg (by decide),
      if_neg (by decide), hrun, Nat.mul_succ, Nat.add_assoc, Nat.add_comm 16]

/-- The symbol of a coefficient behind less than sixteen zeros, and the bits of the coefficient. -/
theorem decodeAcs_coef (h : Matching ctbl dtbl) {v : ℤ} (hv : v ≠ 0) (hsize : v.natAbs.size ≤ 10) {run : ℕ}
    (hrun : run < 16) (hsym : ctbl.ehufsi (16 * run + v.natAbs.size) ≠ 0) {k : ℕ} (hk : k + run < 64)
    (fuel : ℕ) (block : JBlock) {r : Reader} {rest : List Bool}
    (hr : r.remaining = codedBits ctbl ⟨16 * run + v.natAbs.size, v⟩ ++ rest) :
    ∃ r', decodeAcs dtbl (fuel + 1) k block r = decodeAcs dtbl fuel (k + run + 1)
        (Function.update block (naturalOrder (k + run)) (jcoef v)) r' ∧ Advanced r r' rest := by
  have hlow : (16 * run + v.natAbs.size) % 16 = v.natAbs.size := by omega
  have hhigh : (16 * run + v.natAbs.size) / 16 = run := by omega
  rw [codedBits, List.append_assoc] at hr
  obtain ⟨r₁, hdecode, hadvanced⟩ := huffDecode_symbol h hsym hr
  obtain ⟨r', hfetch, hadvanced'⟩ := fetchValue_coef hv (by omega) hadvanced.remaining
  refine ⟨r', ?_, hadvanced.trans hadvanced'⟩
  rw [decodeAcs_succ dtbl fuel (by omega) block hdecode, hlow, hhigh, if_pos (size_natAbs_ne_zero hv), hfetch]

theorem decodeAcs_symbols (h : Matching ctbl dtbl) {vs : List ℤ} (hsize : ∀ v ∈ vs, v.natAbs.size ≤ 10)
    {run k fuel : ℕ} (hcodes : ∀ c ∈ acSymbols run vs, ctbl.ehufsi c.symbol ≠ 0)
    (hlen : k + run + vs.length = 64) (hfuel : 64 ≤ fuel + k) (block : JBlock) {r : Reader} {rest : List Bool}
    (hr : r.remaining = (acSymbols run vs).flatMap (codedBits ctbl) ++ rest) :
    ∃ r', decodeAcs dtbl fuel k block r = (storeFrom (k + run) vs block, r') ∧ Advanced r r' rest := by
  induction vs generalizing run k fuel block r with
  | nil =>
    rw [acSymbols] at hr hcodes
    rw [List.length_nil, Nat.add_zero] at hlen
    by_cases hrun : 0 < run
    · rw [if_pos hrun, List.flatMap_singleton, codedBits, List.append_assoc] at hr
      rw [if_pos hrun] at hcodes
      obtain ⟨r', hdecode, hadvanced⟩ := huffDecode_symbol h (hcodes _ List.mem_cons_self) hr
      obtain ⟨fuel, rfl⟩ : ∃ f, fuel = f + 1 := ⟨fuel - 1, by omega⟩
      refine ⟨r', ?_, hadvanced⟩
      rw [decodeAcs_succ dtbl fuel (by omega) block hdecode, if_neg (by decide), if_pos (by decide)]
      rfl
    · rw [if_neg hrun, List.flatMap_nil, List.nil_append] at hr
      obtain rfl : k = 64 := by omega
      refine ⟨r, ?_, hr ▸ Advanced.refl r⟩
      cases fuel with
      | zero => rfl
      | succ fuel => rfl
  | cons v vs ih =>
    rw [List.length_cons] at hlen
    have hrest : ∀ v ∈ vs, v.natAbs.size ≤ 10 := fun w hw => hsize w (List.mem_cons_of_mem v hw)
    rw [acSymbols] at hr hcodes
    by_cases hv : v = 0
    · rw [if_pos hv] at hr hcodes
      obtain ⟨r', hdecode, hadvanced⟩ := ih hrest hcodes (by omega) hfuel block hr
      refine ⟨r', ?_, hadvanced⟩
      rw [hdecode, storeFrom, if_pos hv, Nat.add_assoc]
    · rw [if_neg hv] at hr hcodes
      rw [List.flatMap_append, List.append_assoc, List.flatMap_cons, List.append_assoc] at hr
      have hspecial : run / 16 ≠ 0 → ctbl.ehufsi 0xF0 ≠ 0 := fun hsome =>
        hcodes ⟨0xF0, 0⟩ (List.mem_append_left _ (List.mem_replicate.mpr ⟨hsome, rfl⟩))
      have hsym : ctbl.ehufsi (16 * (run % 16) + v.natAbs.size) ≠ 0 :=
        hcodes ⟨16 * (run % 16) + v.natAbs.size, v⟩ (List.mem_append_right _ List.mem_cons_self)
      obtain ⟨fuel, rfl⟩ : ∃ f, fuel = f + 1 + run / 16 := ⟨fuel - 1 - run / 16, by omega⟩
      have hplace : k + 16 * (run / 16) + run % 16 = k + run := by omega
      obtain ⟨r₁, hrun, hadvanced₁⟩ :=
        @decodeAcs_runs ctbl dtbl h (run / 16) hspecial (fuel + 1) k (by omega) block _ _ hr
      obtain ⟨r₂, hcoef, hadvanced₂⟩ := decodeAcs_coef h hv (hsize v List.mem_cons_self)
        (Nat.mod_lt run (by decide)) hsym (k := k + 16 * (run / 16)) (by omega) fuel block hadvanced₁.remaining
      rw [hplace] at hcoef
      obtain ⟨r', hlater, hadvanced₃⟩ := @ih hrest 0 (k + run + 1) fuel
        (fun c hc => hcodes c (List.mem_append_right _ (List.mem_cons_of_mem _ hc))) (by omega) (by omega)
        (Function.update block (naturalOrder (k + run)) (jcoef v)) _ hadvanced₂.remaining
      refine ⟨r', ?_, hadvanced₁.trans (hadvanced₂.trans hadvanced₃)⟩
      rw [hrun, hcoef, hlater, storeFrom, if_neg hv, Nat.add_zero]

theorem storeFrom_natural (vs : List ℤ) {k j : ℕ} (hk : k + vs.length ≤ 64) (hj : j < 64) (block : JBlock) :
    storeFrom k vs block (naturalOrder j) =
      if k ≤ j ∧ j < k + vs.length ∧ vs.getD (j - k) 0 ≠ 0 then jcoef (vs.getD (j - k) 0)
      else block (naturalOrder j) := by
  induction vs generalizing k block with
  | nil =>
    rw [if_neg (by rw [List.length_nil]; omega)]
    rfl
  | cons v vs ih =>
    rw [List.length_cons] at hk ⊢
    rw [storeFrom, ih (by omega)]
    by_cases hhere : j = k
    · subst hhere
      rw [if_neg (by omega), Nat.sub_self, List.getD_cons_zero]
      by_cases hv : v = 0
      · rw [if_pos hv, if_neg (by omega)]
      · rw [if_neg hv, if_pos ⟨Nat.le_refl _, by omega, hv⟩, Function.update_self]
    · have hother : (if v = 0 then block else Function.update block (naturalOrder k) (jcoef v)) (naturalOrder j) =
          block (naturalOrder j) := by
        split_ifs
        · rfl
        · exact Function.update_of_ne
            (fun h => hhere (naturalOrder_injective hj (by omega) h)) _ _
      rw [hother]
      by_cases hlater : k < j
      · obtain ⟨d, hd⟩ : ∃ d, j - k = d + 1 := ⟨j - k - 1, by omega⟩
        have hprev : j - (k + 1) = d := by omega
        rw [hd, hprev, List.getD_cons_succ]
        exact if_congr (by omega) rfl rfl
      · rw [if_neg (by omega), if_neg (by omega)]

def IsShort (v : ℤ) : Prop := -2 ^ 15 ≤ v ∧ v < 2 ^ 15

theorem jcoef_short {v : ℤ} (h : IsShort v) : jcoef v = v := by
  obtain ⟨hlow, hhigh⟩ := h
  exact Int.bmod_eq_of_le (by omega) (by omega)

theorem i32_short {v : ℤ} (h : IsShort v) : i32 v = v := by
  obtain ⟨hlow, hhigh⟩ := h
  exact i32_of_small (by omega) (by omega)

theorem isShort_of_size {v : ℤ} (h : v.natAbs.size ≤ 10) : IsShort v := by
  have hlt := Nat.size_le.mp h
  constructor
  · omega
  · omega

def wantedBlock (dcNeeded acNeeded : Bool) (block : JBlock) : JBlock :=
  fun i => if i = 0 then (if dcNeeded then block 0 else 0) else if acNeeded then block i else 0

theorem storeFrom_acCoefs {block : JBlock} (hac : ∀ v ∈ acCoefs block, v.natAbs.size ≤ 10) (dc : ℤ) :
    storeFrom 1 (acCoefs block) (Function.update (fun _ => 0) 0 dc) =
      fun i => if i = 0 then dc else block i := by
  funext i
  obtain ⟨j, hj, rfl⟩ := exists_naturalOrder i
  have hlen : (acCoefs block).length = 63 := by rw [acCoefs, List.length_map, List.length_range']
  have hzero : naturalOrder j = 0 ↔ j = 0 := by
    constructor
    · intro h
      rw [← naturalOrder_zero] at h
      exact naturalOrder_injective hj (by decide) h
    · rintro rfl
      exact naturalOrder_zero
  rw [storeFrom_natural _ (by rw [hlen]) hj, hlen]
  by_cases hdc : j = 0
  · rw [if_neg (by omega), if_pos (hzero.mpr hdc), hzero.mpr hdc, Function.update_self]
  · have hentry : (acCoefs block).getD (j - 1) 0 = block (naturalOrder j) := by
      rw [acCoefs, List.getD_eq_getElem?_getD, List.getElem?_map, List.getElem?_range' (by omega)]
      have hplace : 1 + 1 * (j - 1) = j := by omega
      rw [hplace]
      rfl
    have hmem : block (naturalOrder j) ∈ acCoefs block := by
      rw [acCoefs, List.mem_map]
      exact ⟨j, List.mem_range'_1.mpr ⟨by omega, by omega⟩, rfl⟩
    rw [if_neg (mt hzero.mp hdc), hentry, Function.update_of_ne (mt hzero.mp hdc)]
    split_ifs with hcase
    · exact jcoef_short (isShort_of_size (hac _ hmem))
    · by_contra hne
      exact hcase ⟨by omega, by omega, fun h => hne h.symm⟩

/-- A block comes back, as far as it is wanted. -/
theorem decodeBlock_encoded {dctbl actbl : CDerivedTbl} {dctbl' actbl' : DDerivedTbl}
    (hdc : Matching dctbl dctbl') (hac : Matching actbl actbl') {block : JBlock} (hshort : IsShort (block 0))
    {lastDcVal lastDcVal' : ℤ} (henc : Encodable dctbl actbl block lastDcVal) (dcNeeded acNeeded : Bool)
    (hlast : dcNeeded = true → lastDcVal' = lastDcVal) {r : Reader} {rest : List Bool}
    (hr : r.remaining = blockBits dctbl actbl block lastDcVal ++ rest) :
    ∃ r', decodeBlock dcNeeded acNeeded dctbl' actbl' lastDcVal' r =
        ⟨wantedBlock dcNeeded acNeeded block, if dcNeeded then block 0 else lastDcVal', r'⟩ ∧
      Advanced r r' rest := by
  rw [blockBits, List.append_assoc] at hr
  obtain ⟨r₁, hdecode, hadvanced₁⟩ := decodeDc_symbol hdc (Nat.le_trans henc.range.dc (by decide)) henc.dc hr
  have hlen : 1 + 0 + (acCoefs block).length = 64 := by rw [acCoefs, List.length_map, List.length_range']
  have hrest : ∀ dc : ℤ, ∃ r', decodeRest acNeeded actbl' (Function.update (fun _ => 0) 0 dc) r₁ =
      ((fun i => if i = 0 then dc else if acNeeded then block i else 0), r') ∧ Advanced r₁ r' rest := by
    intro dc
    obtain ⟨r', hrun, hadvanced⟩ := @decodeAcs_symbols _ _ hac _ henc.range.ac 0 1 64 henc.ac hlen (by decide)
      (Function.update (fun _ => 0) 0 dc) _ _ hadvanced₁.remaining
    rw [Nat.add_zero, storeFrom_acCoefs henc.range.ac] at hrun
    refine ⟨r', ?_, hadvanced⟩
    rw [decodeRest]
    cases acNeeded with
    | true => exact hrun
    | false =>
      rw [if_neg Bool.false_ne_true, skipAcs_eq actbl' dctSize2 1 (Function.update (fun _ => 0) 0 dc)]
      change (_, (decodeAcs actbl' 64 1 _ r₁).2) = _
      rw [hrun]
      refine Prod.ext (funext (fun i => ?_)) rfl
      exact Function.update_apply (fun _ => 0 : JBlock) 0 dc i
  rw [decodeBlock, hdecode]
  dsimp only
  cases dcNeeded with
  | true =>
    have hdcval : i32 (block 0 - lastDcVal + lastDcVal') = block 0 := by
      rw [hlast rfl, Int.sub_add_cancel, i32_short hshort]
    obtain ⟨r', hrun, hadvanced⟩ := hrest (block 0)
    rw [if_pos rfl, hdcval, jcoef_short hshort, hrun]
    exact ⟨r', rfl, hadvanced₁.trans hadvanced⟩
  | false =>
    have hclear : Function.update (fun _ => 0 : JBlock) 0 0 = fun _ => 0 := Function.update_eq_self 0 _
    obtain ⟨r', hrun, hadvanced⟩ := hrest 0
    rw [hclear] at hrun
    rw [if_neg Bool.false_ne_true, hrun]
    exact ⟨r', rfl, hadvanced₁.trans hadvanced⟩

end Blocks

section Mcus

/-- The blocks of an MCU, whose coefficients are of type `short`. -/
structure Mcu where
  block : ℕ → JBlock
  short : ∀ b i, IsShort (block b i)

/-- The DC predictors agree where they are used. -/
def Predicted (cinfo : DecoderScan) (lastDcVal lastDcVal' : ℕ → ℤ) : Prop :=
  ∀ ci, cinfo.dcNeeded ci = true → lastDcVal' ci = lastDcVal ci

structure MatchingTables (cinfo : EntropyScan) (dcTbls acTbls : ℕ → CDerivedTbl)
    (dcTbls' acTbls' : ℕ → DDerivedTbl) : Prop where
  dc : ∀ ci < cinfo.compsInScan, Matching (dcTbls (cinfo.dcTblNo ci)) (dcTbls' (cinfo.dcTblNo ci))
  ac : ∀ ci < cinfo.compsInScan, Matching (acTbls (cinfo.acTblNo ci)) (acTbls' (cinfo.acTblNo ci))

theorem Matching.fits {ctbl : CDerivedTbl} {dtbl : DDerivedTbl} (h : Matching ctbl dtbl) : SizesFit ctbl := by
  obtain ⟨htbl, -, hencoding, -⟩ := h
  exact sizesFit_of_table hencoding

/-- The wanted parts of the blocks of an MCU, from block `blkn` on, stored to `mcuData`. -/
def storeWanted (cinfo : DecoderScan) (block : ℕ → JBlock) : ℕ → List ℕ → (ℕ → JBlock) → ℕ → JBlock
  | _, [], mcuData => mcuData
  | blkn, ci :: membership, mcuData =>
    storeWanted cinfo block (blkn + 1) membership
      (Function.update mcuData blkn (wantedBlock (cinfo.dcNeeded ci) (cinfo.acNeeded ci) (block blkn)))

/-- What the decoder is to make of an MCU. -/
def wantedMcu (cinfo : DecoderScan) (mcu : Mcu) (b : ℕ) : JBlock :=
  (cinfo.mcuMembership[b]?).elim (fun _ => 0)
    (fun ci => wantedBlock (cinfo.dcNeeded ci) (cinfo.acNeeded ci) (mcu.block b))

theorem storeWanted_apply (cinfo : DecoderScan) (block : ℕ → JBlock) (membership : List ℕ) (blkn : ℕ)
    (mcuData : ℕ → JBlock) (b : ℕ) : storeWanted cinfo block blkn membership mcuData b =
      if b < blkn then mcuData b
      else (membership[b - blkn]?).elim (mcuData b)
        (fun ci => wantedBlock (cinfo.dcNeeded ci) (cinfo.acNeeded ci) (block b)) := by
  induction membership generalizing blkn mcuData with
  | nil =>
    rw [List.getElem?_nil]
    exact (ite_self _).symm
  | cons ci membership ih =>
    rw [storeWanted, ih]
    by_cases hbefore : b < blkn
    · rw [if_pos (Nat.lt_succ_of_lt hbefore), if_pos hbefore, Function.update_of_ne (Nat.ne_of_lt hbefore)]
    · rw [if_neg hbefore]
      by_cases hhere : b = blkn
      · subst hhere
        rw [if_pos (Nat.lt_succ_self b), Function.update_self, Nat.sub_self, List.getElem?_cons_zero]
        rfl
      · have hplace : b - blkn = b - (blkn + 1) + 1 := by omega
        rw [if_neg (by omega), Function.update_of_ne hhere, hplace, List.getElem?_cons_succ]

theorem storeWanted_eq (cinfo : DecoderScan) (mcu : Mcu) :
    storeWanted cinfo mcu.block 0 cinfo.mcuMembership zeroMcu = wantedMcu cinfo mcu := by
  funext b
  rw [storeWanted_apply, if_neg (Nat.not_lt_zero b), Nat.sub_zero]
  rfl

variable {cinfo : DecoderScan} {entropy : HuffEncoder}

/-- The blocks of an MCU append bits to the output that come back as the wanted part of the blocks. -/
theorem encodeBlocks_decoded {dcTbls acTbls : ℕ → DDerivedTbl}
    (htables : MatchingTables cinfo.toEntropyScan entropy.dcDerivedTbls entropy.acDerivedTbls dcTbls acTbls)
    (mcu : Mcu) {membership : List ℕ} (hmembership : ∀ ci ∈ membership, ci < cinfo.compsInScan) {blkn : ℕ}
    {base : List UInt8} {l : List Bool} {state state' : WorkingState} (hemitted : Emitted base l state)
    (hok : encodeBlocks cinfo.toEntropyScan entropy mcu.block blkn membership state = .ok state') :
    ∃ w, Emitted base (l ++ w) state' ∧ ∀ (mcuData : ℕ → JBlock) (lastDcVal : ℕ → ℤ) (r : Reader)
      (rest : List Bool), r.remaining = w ++ rest → Predicted cinfo state.cur.lastDcVal lastDcVal →
        ∃ lastDcVal' r', decodeBlocks cinfo dcTbls acTbls blkn membership (mcuData, lastDcVal, r) =
            (storeWanted cinfo mcu.block blkn membership mcuData, lastDcVal', r') ∧
          Advanced r r' rest ∧ Predicted cinfo state'.cur.lastDcVal lastDcVal' := by
  induction membership generalizing blkn l state with
  | nil =>
    obtain rfl : state = state' := Except.ok.inj hok
    refine ⟨[], by rw [List.append_nil]; exact hemitted, fun mcuData lastDcVal r rest hr hpredicted => ?_⟩
    rw [List.nil_append] at hr
    exact ⟨lastDcVal, r, rfl, hr ▸ Advanced.refl r, hpredicted⟩
  | cons ci membership ih =>
    have hci := hmembership ci List.mem_cons_self
    have hdc := htables.dc ci hci
    have hac := htables.ac ci hci
    rw [encodeBlocks] at hok
    obtain ⟨state₁, hone, hlater⟩ := except_bind_eq_ok hok
    obtain ⟨hencodable, hemitted₁, hlast⟩ := encodeOneBlock_ok hdc.fits hac.fits hemitted hone
    obtain ⟨w, hemitted', hdecode⟩ :=
      ih (fun c hc => hmembership c (List.mem_cons_of_mem ci hc)) (hemitted₁.predict _) hlater
    refine ⟨_ ++ w, by rw [← List.append_assoc]; exact hemitted', ?_⟩
    intro mcuData lastDcVal r rest hr hpredicted
    rw [List.append_assoc] at hr
    obtain ⟨r₁, hblock, hadvanced₁⟩ := decodeBlock_encoded hdc hac (mcu.short blkn 0) hencodable
      (cinfo.dcNeeded ci) (cinfo.acNeeded ci) (hpredicted ci) hr
    -- the predictor of the component is the DC coefficient that has just been coded
    have hpredicted₁ : Predicted cinfo (Function.update state₁.cur.lastDcVal ci (mcu.block blkn 0))
        (Function.update lastDcVal ci
          (if cinfo.dcNeeded ci then mcu.block blkn 0 else lastDcVal ci)) := by
      intro c hc
      rw [hlast]
      by_cases hsame : c = ci
      · subst hsame
        rw [Function.update_self, Function.update_self, if_pos hc]
      · rw [Function.update_of_ne hsame, Function.update_of_ne hsame]
        exact hpredicted c hc
    obtain ⟨lastDcVal', r', hrun, hadvanced', hpredicted'⟩ :=
      hdecode _ _ r₁ rest hadvanced₁.remaining hpredicted₁
    refine ⟨lastDcVal', r', ?_, hadvanced₁.trans hadvanced', hpredicted'⟩
    rw [decodeBlocks, hblock]
    exact hrun

end Mcus

end Jp4Tools.EntropyRoundTrip
