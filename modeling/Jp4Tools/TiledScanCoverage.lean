import Jp4Tools.MainController

/-!
# A tiled scan covers its component

The MCUs of a single-component scan tile the component: block `b` of the `n`-th MCU belongs
to block row `v * (n / MCUs_per_row) + b / h` and block column `h * (n % MCUs_per_row) + b % h`.
The controller sends the real blocks of every MCU to these places, whatever the pattern of
suspensions, and skips the dummy blocks.
-/

namespace Jp4Tools.TiledScanCoverage
open CountedLoops WriteLogs JpegFrameSetup CoefficientController MainController

variable {β : Type*}

def blockRow (f : SingleComponentFrame) (n b : ℕ) : ℕ := f.v * (n / f.mcusPerRow) + b / f.h
def blockCol (f : SingleComponentFrame) (n b : ℕ) : ℕ := f.h * (n % f.mcusPerRow) + b % f.h

/-- The block belongs to the component; the others are dummies at the right or bottom edge. -/
def IsReal (f : SingleComponentFrame) (n b : ℕ) : Prop :=
  blockRow f n b < f.heightInBlocks ∧ blockCol f n b < f.widthInBlocks

instance (f : SingleComponentFrame) (n b : ℕ) : Decidable (IsReal f n b) :=
  inferInstanceAs (Decidable (_ ∧ _))

/-- The inverse DCT call that sends block `b` of the `n`-th MCU to its place. -/
def placed (f : SingleComponentFrame) (d : EntropyDecoder β) (n b : ℕ) : IdctCall β where
  mcu := n
  blkn := b
  coefBlock := d.mcu n b
  component := 0
  imcuRow := n / f.mcusPerRow
  outputRow := dctSize * (b / f.h)
  outputCol := dctSize * blockCol f n b

def mcuCalls (f : SingleComponentFrame) (d : EntropyDecoder β) (n : ℕ) : List (IdctCall β) :=
  ((List.range (f.h * f.v)).filter (fun b => IsReal f n b)).map (placed f d n)

section Geometry

theorem lastGroup_pos (blocks : ℕ) {mcuSize : ℕ} (hm : 0 < mcuSize) : 1 ≤ lastGroup blocks mcuSize := by
  unfold lastGroup
  split_ifs <;> omega

theorem lastGroup_le (blocks : ℕ) {mcuSize : ℕ} (hm : 0 < mcuSize) : lastGroup blocks mcuSize ≤ mcuSize := by
  have := Nat.mod_lt blocks hm
  unfold lastGroup
  split_ifs <;> omega

/-- All groups but the last one are full. -/
theorem groups_eq {blocks mcuSize : ℕ} (hm : 0 < mcuSize) (hb : 0 < blocks) :
    blocks = mcuSize * (jdivRoundUp blocks mcuSize - 1) + lastGroup blocks mcuSize := by
  have hdiv := Nat.div_add_mod blocks mcuSize
  have hmod := Nat.mod_lt blocks hm
  by_cases hr : blocks % mcuSize = 0
  · have hq : 1 ≤ blocks / mcuSize := (Nat.one_le_div_iff hm).mpr (Nat.le_of_dvd hb (Nat.dvd_of_mod_eq_zero hr))
    have e : jdivRoundUp blocks mcuSize = blocks / mcuSize := by
      have : blocks + mcuSize - 1 = mcuSize * (blocks / mcuSize) + (mcuSize - 1) := by omega
      rw [jdivRoundUp, this, Nat.mul_add_div hm, Nat.div_eq_of_lt (show mcuSize - 1 < mcuSize by omega),
        Nat.add_zero]
    rw [e, lastGroup, if_pos hr, ← Nat.mul_succ, Nat.succ_eq_add_one, Nat.sub_add_cancel hq]
    omega
  · have e : jdivRoundUp blocks mcuSize = blocks / mcuSize + 1 := by
      have : blocks + mcuSize - 1 =
          mcuSize * (blocks / mcuSize + 1) + (blocks % mcuSize - 1) := by
        rw [Nat.mul_succ]; omega
      rw [jdivRoundUp, this, Nat.mul_add_div hm,
        Nat.div_eq_of_lt (show blocks % mcuSize - 1 < mcuSize by omega), Nat.add_zero]
    rw [e, lastGroup, if_neg hr, Nat.add_sub_cancel]
    omega

/-- Nested rounding up, from samples to blocks and from blocks to MCUs. -/
theorem jdivRoundUp_jdivRoundUp (a : ℕ) {b c : ℕ} (hb : 0 < b) (hc : 0 < c) :
    jdivRoundUp (jdivRoundUp a b) c = jdivRoundUp a (c * b) := by
  have e : a + c * b - 1 = (a + b - 1) + b * (c - 1) := by
    have : b * (c - 1) + b = c * b := by
      rw [← Nat.mul_succ, Nat.succ_eq_add_one, Nat.sub_add_cancel hc, Nat.mul_comm]
    omega
  simp only [jdivRoundUp]
  rw [e, Nat.mul_comm c b, ← Nat.div_div_eq_div_mul, Nat.add_mul_div_left _ _ hb,
    Nat.add_sub_assoc hc]

theorem jdivRoundUp_pos {a b : ℕ} (ha : 0 < a) (hb : 0 < b) : 0 < jdivRoundUp a b :=
  Nat.div_pos (by omega) hb

/-- The useful width of an MCU, or height of an iMCU row, ends at the component's edge. -/
theorem group_inside_iff {blocks mcuSize col x : ℕ} (hm : 0 < mcuSize) (hb : 0 < blocks)
    (hcol : col < jdivRoundUp blocks mcuSize) (hx : x < mcuSize) :
    (col < jdivRoundUp blocks mcuSize - 1 ∨ x < lastGroup blocks mcuSize) ↔
      mcuSize * col + x < blocks := by
  have hgroups := groups_eq hm hb
  have hpos := lastGroup_pos blocks hm
  set k := jdivRoundUp blocks mcuSize
  by_cases hlast : col < k - 1
  · have h := Nat.mul_le_mul_left mcuSize (show col + 1 ≤ k - 1 by omega)
    rw [Nat.mul_succ] at h
    exact iff_of_true (.inl hlast) (by omega)
  · obtain rfl : col = k - 1 := by omega
    rw [or_iff_right hlast]
    omega

variable (f : SingleComponentFrame)

theorem widthInBlocks_pos : 0 < f.widthInBlocks := jdivRoundUp_pos f.width_pos (by decide)
theorem heightInBlocks_pos : 0 < f.heightInBlocks := jdivRoundUp_pos f.height_pos (by decide)

theorem mcusPerRow_eq : f.mcusPerRow = jdivRoundUp f.widthInBlocks f.h :=
  (jdivRoundUp_jdivRoundUp f.width (by decide) f.h_pos).symm

theorem mcuRows_eq : f.mcuRows = jdivRoundUp f.heightInBlocks f.v :=
  (jdivRoundUp_jdivRoundUp f.height (by decide) f.v_pos).symm

theorem mcusPerRow_pos : 0 < f.mcusPerRow := by
  rw [mcusPerRow_eq]
  exact jdivRoundUp_pos (widthInBlocks_pos f) f.h_pos

theorem mcuRows_pos : 0 < f.mcuRows := by
  rw [mcuRows_eq]
  exact jdivRoundUp_pos (heightInBlocks_pos f) f.v_pos

theorem blockRow_lt_iff {n b : ℕ} (hn : n < f.mcuRows * f.mcusPerRow) (hb : b < f.h * f.v) :
    blockRow f n b < f.heightInBlocks ↔
      n / f.mcusPerRow < f.mcuRows - 1 ∨ b / f.h < lastGroup f.heightInBlocks f.v := by
  have hrow : n / f.mcusPerRow < f.mcuRows := Nat.div_lt_of_lt_mul (by rwa [Nat.mul_comm])
  have hy : b / f.h < f.v := Nat.div_lt_of_lt_mul hb
  rw [mcuRows_eq] at hrow ⊢
  exact (group_inside_iff f.v_pos (heightInBlocks_pos f) hrow hy).symm

theorem blockCol_lt_iff (n b : ℕ) :
    blockCol f n b < f.widthInBlocks ↔
      n % f.mcusPerRow < f.mcusPerRow - 1 ∨ b % f.h < lastGroup f.widthInBlocks f.h := by
  have hcol : n % f.mcusPerRow < f.mcusPerRow := Nat.mod_lt _ (mcusPerRow_pos f)
  have hx : b % f.h < f.h := Nat.mod_lt _ f.h_pos
  have h := group_inside_iff f.h_pos (widthInBlocks_pos f) (by rwa [← mcusPerRow_eq]) hx
  rw [← mcusPerRow_eq] at h
  exact h.symm

end Geometry

section OneMcu
variable (f : SingleComponentFrame) (d : EntropyDecoder β)

private theorem idctBlockRow_eq (n imcuRow blkn outputRow startCol usefulWidth : ℕ) :
    idctBlockRow n (d.mcu n) (tiledGeometry f.component) imcuRow blkn outputRow startCol usefulWidth =
      (List.range usefulWidth).map (fun x => ⟨n, blkn + x, d.mcu n (blkn + x), 0, imcuRow, outputRow,
        startCol + dctSize * x⟩) := by
  have h := forLoop_eq_flatMap (fun s : ℕ × ℕ => decide (s.1 < usefulWidth))
    (fun s => (s.1 + 1, s.2 + dctSize))
    (fun s => [(⟨n, blkn + s.1, d.mcu n (blkn + s.1), 0, imcuRow, outputRow, s.2⟩ :
      IdctCall β)])
    (fun t => (t, startCol + dctSize * t)) usefulWidth usefulWidth
    (fun t _ => by simp [Nat.mul_succ, Nat.add_assoc]) (by simp) (by simp) le_rfl
  rw [List.map_eq_flatMap]
  simpa [idctBlockRow, tiledGeometry, SingleComponentFrame.component] using h

def usefulWidth (n : ℕ) : ℕ :=
  if n % f.mcusPerRow < f.mcusPerRow - 1 then f.h else lastGroup f.widthInBlocks f.h

def UsefulRow (n y : ℕ) : Prop :=
  n / f.mcusPerRow < f.mcuRows - 1 ∨ y < lastGroup f.heightInBlocks f.v

instance (n y : ℕ) : Decidable (UsefulRow f n y) := instDecidableOr

theorem usefulWidth_le (n : ℕ) : usefulWidth f n ≤ f.h := by
  rw [usefulWidth]
  split_ifs
  · exact le_rfl
  · exact lastGroup_le _ f.h_pos

/-- The real blocks of an MCU are the first ones of its useful rows. -/
theorem isReal_block {n x y : ℕ} (hn : n < f.mcuRows * f.mcusPerRow) (hy : y < f.v) (hx : x < f.h) :
    IsReal f n (f.h * y + x) ↔ UsefulRow f n y ∧ x < usefulWidth f n := by
  have hlt : f.h * y + x < f.h * f.v := by
    have := Nat.mul_le_mul_left f.h (show y + 1 ≤ f.v from hy)
    rw [Nat.mul_succ] at this
    omega
  rw [IsReal, blockRow_lt_iff f hn hlt, blockCol_lt_iff, cell_div y hx, cell_mod y hx]
  apply and_congr_right
  intro _
  by_cases hcol : n % f.mcusPerRow < f.mcusPerRow - 1 <;> simp [usefulWidth, hcol, hx]

theorem idctComponents_rows (n : ℕ) :
    idctComponents f.scanning n (d.mcu n) (n / f.mcusPerRow) 0 (n % f.mcusPerRow) 0 [0] =
      (List.range f.v).flatMap (fun y =>
        if UsefulRow f n (0 + y) then
          idctBlockRow n (d.mcu n) (tiledGeometry f.component) (n / f.mcusPerRow) (f.h * y)
            (dctSize * y) (n % f.mcusPerRow * (f.h * dctSize)) (usefulWidth f n)
        else []) := by
  have hloop := forLoop_eq_flatMap (fun s : ℕ × ℕ × ℕ => decide (s.1 < f.v))
    (fun s => (s.1 + 1, s.2.1 + f.h, s.2.2 + dctSize))
    (fun s => if UsefulRow f n (0 + s.1) then
        idctBlockRow n (d.mcu n) (tiledGeometry f.component) (n / f.mcusPerRow) s.2.1 s.2.2
          (n % f.mcusPerRow * (f.h * dctSize)) (usefulWidth f n)
      else [])
    (fun t => (t, f.h * t, dctSize * t)) f.v f.v
    (fun t _ => by simp [Nat.mul_succ]) (by simp) (by simp) le_rfl
  exact (List.append_nil _).trans hloop

/-- One round of the MCU loop sends out exactly the real blocks of the MCU. -/
theorem idctComponents_eq {n : ℕ} (hn : n < f.mcuRows * f.mcusPerRow) :
    idctComponents f.scanning n (d.mcu n) (n / f.mcusPerRow) 0 (n % f.mcusPerRow) 0 [0] =
      mcuCalls f d n := by
  rw [idctComponents_rows, mcuCalls, range_mul_eq_flatMap, List.filter_flatMap, List.map_flatMap]
  apply List.flatMap_congr
  intro y hy
  have hreal := fun x hx => isReal_block f (x := x) hn (List.mem_range.mp hy) hx
  rw [Nat.zero_add, List.filter_map, List.map_map]
  by_cases hrow : UsefulRow f n y
  · have hfilter : (List.range f.h).filter ((fun b => decide (IsReal f n b)) ∘ fun x => f.h * y + x) =
        List.range (usefulWidth f n) := by
      rw [← filter_range_lt (usefulWidth_le f n)]
      apply List.filter_congr
      intro x hx
      simpa [hrow] using hreal x (List.mem_range.mp hx)
    rw [if_pos hrow, hfilter, idctBlockRow_eq]
    apply List.map_congr_left
    intro x hx
    have hx : x < f.h := (List.mem_range.mp hx).trans_le (usefulWidth_le f n)
    simp only [placed, Function.comp_apply, blockCol, cell_div y hx, cell_mod y hx]
    congr 1
    ring
  · have hfilter : (List.range f.h).filter ((fun b => decide (IsReal f n b)) ∘ fun x => f.h * y + x) = [] := by
      apply List.filter_eq_nil_iff.mpr
      intro x hx
      simpa [hrow] using hreal x (List.mem_range.mp hx)
    rw [if_neg hrow, hfilter, List.map_nil]

end OneMcu

section Runs
variable {f : SingleComponentFrame} {d : EntropyDecoder β}

/-- The first `col` MCUs of iMCU row `row`, and all MCUs before them, are decoded. -/
structure Progress (f : SingleComponentFrame) (d : EntropyDecoder β) (row col : ℕ)
    (s : DecodeState β) : Prop where
  inputRow : s.inputImcuRow = row
  outputRow : s.outputImcuRow = row
  oneRow : s.mcuRowsPerImcuRow = 1
  decoded : s.mcusDecoded = row * f.mcusPerRow + col
  counted : s.mcusDecoded = (List.range s.decodeCalls).countP d.available
  log : s.idctCalls = (List.range s.mcusDecoded).flatMap (mcuCalls f d)

/-- What holds between two calls of `decompressOnepass` that have not completed the scan. -/
structure ScanInvariant (f : SingleComponentFrame) (d : EntropyDecoder β) (s : DecodeState β) :
    Prop where
  progress : Progress f d s.inputImcuRow s.mcuCtr s
  row_lt : s.inputImcuRow < f.mcuRows
  column_lt : s.mcuCtr < f.mcusPerRow
  vertOffset : s.mcuVertOffset = 0

theorem started_eq (f : SingleComponentFrame) :
    (started f.scanning : DecodeState β) = ⟨0, 0, 0, 0, 1, 0, 0, []⟩ := by
  simp [started, startInputPass, startOutputPass, blank]

theorem scanInvariant_started (f : SingleComponentFrame) (d : EntropyDecoder β) :
    ScanInvariant f d (started f.scanning) := by
  rw [started_eq]
  exact ⟨⟨rfl, rfl, rfl, (Nat.zero_mul _).symm, rfl, rfl⟩, mcuRows_pos f, mcusPerRow_pos f, rfl⟩

private theorem Progress.step {row col : ℕ} {s : DecodeState β} (h : Progress f d row col s)
    (hrow : row < f.mcuRows) (hcol : col < f.mcusPerRow) (ha : d.available s.decodeCalls = true) :
    Progress f d row (col + 1)
      { s with
        decodeCalls := s.decodeCalls + 1
        mcusDecoded := s.mcusDecoded + 1
        idctCalls := s.idctCalls ++ idctComponents f.scanning s.mcusDecoded (d.mcu s.mcusDecoded)
          s.inputImcuRow 0 col 0 [0] } := by
  have hn : s.mcusDecoded < f.mcuRows * f.mcusPerRow := by
    have := Nat.mul_le_mul_right f.mcusPerRow (show row + 1 ≤ f.mcuRows from hrow)
    rw [Nat.succ_mul] at this
    rw [h.decoded]
    omega
  have hdiv : s.mcusDecoded / f.mcusPerRow = row := by
    rw [h.decoded, Nat.mul_comm, cell_div _ hcol]
  have hmod : s.mcusDecoded % f.mcusPerRow = col := by
    rw [h.decoded, Nat.mul_comm, cell_mod _ hcol]
  have hcalls := idctComponents_eq f d hn
  rw [hdiv, hmod] at hcalls
  refine ⟨h.inputRow, h.outputRow, h.oneRow, by simp [h.decoded, Nat.add_assoc], ?_, ?_⟩
  · simp [List.range_succ, List.countP_append, ha, h.counted]
  · simp [List.range_succ, List.flatMap_append, h.log, h.inputRow, hcalls]

private theorem Progress.suspend {row col : ℕ} {s : DecodeState β} (h : Progress f d row col s)
    (ha : d.available s.decodeCalls = false) :
    Progress f d row col
      { s with decodeCalls := s.decodeCalls + 1, mcuVertOffset := 0, mcuCtr := col } := by
  refine ⟨h.inputRow, h.outputRow, h.oneRow, h.decoded, ?_, h.log⟩
  simp [List.range_succ, List.countP_append, ha, h.counted]

/-- The `MCU_col_num` loop either completes the row or remembers where it was suspended. -/
theorem decodeColumns_spec {row : ℕ} (hrow : row < f.mcuRows) (fuel col : ℕ) (s : DecodeState β)
    (h : Progress f d row col s) (hcol : col ≤ f.mcusPerRow) (hfuel : f.mcusPerRow ≤ col + fuel) :
    (∃ s', decodeColumns d f.scanning 0 fuel col s = (true, s') ∧
      Progress f d row f.mcusPerRow s') ∨
    (∃ s', decodeColumns d f.scanning 0 fuel col s = (false, s') ∧
      Progress f d row s'.mcuCtr s' ∧ s'.mcuCtr < f.mcusPerRow ∧ s'.mcuVertOffset = 0 ∧
      ∃ t, d.available t = false) := by
  induction fuel generalizing col s with
  | zero =>
    obtain rfl : col = f.mcusPerRow := by omega
    exact .inl ⟨s, rfl, h⟩
  | succ fuel ih =>
    have hpos := mcusPerRow_pos f
    by_cases hlast : col = f.mcusPerRow
    · have hstop : ¬ col ≤ f.scanning.mcusPerRow - 1 := by
        change ¬ col ≤ f.mcusPerRow - 1
        omega
      exact .inl ⟨s, by rw [decodeColumns, if_neg hstop], hlast ▸ h⟩
    have hgo : col ≤ f.scanning.mcusPerRow - 1 := by
      change col ≤ f.mcusPerRow - 1
      omega
    cases ha : d.available s.decodeCalls with
    | true =>
      rw [decodeColumns, if_pos hgo, if_pos ha]
      exact ih (col + 1) _ (h.step hrow (by omega) ha) (by omega) (by omega)
    | false =>
      rw [decodeColumns, if_pos hgo, if_neg (by simp [ha])]
      exact .inr ⟨_, rfl, h.suspend ha, by dsimp only; omega, rfl, _, ha⟩

/-- With one row of MCUs in an iMCU row, the loop over these rows is that over the columns. -/
private theorem ScanInvariant.decodeRows_eq {s : DecodeState β} (h : ScanInvariant f d s)
    {r : Bool × DecodeState β} (he : decodeColumns d f.scanning 0 f.scanning.mcusPerRow s.mcuCtr s = r) :
    decodeRows d f.scanning s.mcuRowsPerImcuRow s.mcuVertOffset s =
      (r.1, if r.1 then { r.2 with mcuCtr := 0 } else r.2) := by
  rw [h.progress.oneRow, h.vertOffset, decodeRows, if_pos (by rw [h.progress.oneRow]; decide), he]
  rcases r with ⟨completed, s'⟩
  cases completed <;> rfl

theorem decompressOnepass_spec {s : DecodeState β} (h : ScanInvariant f d s) :
    (∃ s', decompressOnepass d f.scanning s = (.suspended, s') ∧ ScanInvariant f d s' ∧
      s'.inputImcuRow = s.inputImcuRow ∧ ∃ t, d.available t = false) ∨
    (∃ s', decompressOnepass d f.scanning s = (.rowCompleted, s') ∧ ScanInvariant f d s' ∧
      s'.inputImcuRow = s.inputImcuRow + 1 ∧ s'.mcuCtr = 0) ∨
    (∃ s', decompressOnepass d f.scanning s = (.scanCompleted, s') ∧
      s.inputImcuRow + 1 = f.mcuRows ∧ Progress f d f.mcuRows 0 s') := by
  have hcols := decodeColumns_spec h.row_lt f.mcusPerRow s.mcuCtr s h.progress h.column_lt.le (by omega)
  rcases hcols with ⟨s', he, hp⟩ | ⟨s', he, hp, hlt, hvert, hsusp⟩
  · have hnext : decompressOnepass d f.scanning s =
        if s'.inputImcuRow + 1 < f.mcuRows then
          (.rowCompleted, { s' with
            mcuCtr := 0
            outputImcuRow := s'.outputImcuRow + 1
            inputImcuRow := s'.inputImcuRow + 1
            mcuRowsPerImcuRow := 1
            mcuVertOffset := 0 })
        else (.scanCompleted, { s' with
            mcuCtr := 0
            outputImcuRow := s'.outputImcuRow + 1
            inputImcuRow := s'.inputImcuRow + 1 }) := by
      rw [decompressOnepass, h.decodeRows_eq he]
      simp only [if_true, startImcuRow_eq]
      rfl
    have hrow := h.row_lt
    have hin := hp.inputRow
    have hdone : s'.mcusDecoded = (s.inputImcuRow + 1) * f.mcusPerRow + 0 := by
      rw [hp.decoded, Nat.succ_mul, Nat.add_zero]
    by_cases hmore : s'.inputImcuRow + 1 < f.mcuRows
    · rw [if_pos hmore] at hnext
      refine .inr (.inl ⟨_, hnext, ⟨⟨rfl, ?_, rfl, ?_, hp.counted, hp.log⟩, hmore,
        mcusPerRow_pos f, rfl⟩, by simp [hin], rfl⟩)
      · simp [hp.outputRow, hin]
      · simpa [hin] using hdone
    · rw [if_neg hmore] at hnext
      have hlast : s.inputImcuRow + 1 = f.mcuRows := by omega
      refine .inr (.inr ⟨_, hnext, hlast, ⟨?_, ?_, hp.oneRow, ?_, hp.counted, hp.log⟩⟩)
      · simp [hin, hlast]
      · simp [hp.outputRow, hlast]
      · simpa [hlast] using hdone
  · refine .inl ⟨s', by rw [decompressOnepass, h.decodeRows_eq he]; rfl, ⟨?_, ?_, hlt, hvert⟩, hp.inputRow, hsusp⟩
    · rw [hp.inputRow]
      exact hp
    · rw [hp.inputRow]
      exact h.row_lt

/-- A completed scan has decoded and sent out every MCU once, in stream order. -/
theorem decodeScan_progress (fuel : ℕ) {s s' : DecodeState β} (h : ScanInvariant f d s)
    (hs : decodeScan d f.scanning fuel s = some s') : Progress f d f.mcuRows 0 s' := by
  induction fuel generalizing s with
  | zero => simp [decodeScan] at hs
  | succ fuel ih =>
    rw [decodeScan] at hs
    rcases decompressOnepass_spec h with ⟨t, ht, hinv, -⟩ | ⟨t, ht, hinv, -⟩ | ⟨t, ht, -, hp⟩ <;>
      simp only [ht] at hs
    · exact ih hinv hs
    · exact ih hinv hs
    · exact Option.some.inj hs ▸ hp

theorem decodeScan_terminates (hd : ∀ t, d.available t = true) (fuel : ℕ) {s : DecodeState β}
    (h : ScanInvariant f d s) (hfuel : f.mcuRows ≤ s.inputImcuRow + fuel) :
    ∃ s', decodeScan d f.scanning fuel s = some s' := by
  induction fuel generalizing s with
  | zero => exact absurd h.row_lt (by omega)
  | succ fuel ih =>
    rw [decodeScan]
    rcases decompressOnepass_spec h with ⟨t, ht, -, -, u, hu⟩ | ⟨t, ht, hinv, hrow, -⟩ | ⟨t, ht, -⟩
    · simp [hd u] at hu
    · simp only [ht]
      exact ih hinv (by omega)
    · exact ⟨t, by simp only [ht]⟩

end Runs

section Coverage
variable (f : SingleComponentFrame) (d : EntropyDecoder β)

/-- The block row and column of the component that a call fills. -/
def imageBlock (f : SingleComponentFrame) (call : IdctCall β) : ℕ × ℕ :=
  (f.v * call.imcuRow + call.outputRow / dctSize, call.outputCol / dctSize)

theorem imageBlock_placed (n b : ℕ) :
    imageBlock f (placed f d n b) = (blockRow f n b, blockCol f n b) := by
  simp [imageBlock, placed, blockRow, dctSize]

/-- The MCU, and the block in it, that a block row and column belong to. -/
def mcuAt (f : SingleComponentFrame) (row col : ℕ) : ℕ := f.mcusPerRow * (row / f.v) + col / f.h
def blknAt (f : SingleComponentFrame) (row col : ℕ) : ℕ := f.h * (row % f.v) + col % f.h

theorem mcuAt_block {n b : ℕ} (hb : b < f.h * f.v) :
    mcuAt f (blockRow f n b) (blockCol f n b) = n := by
  have hy : b / f.h < f.v := Nat.div_lt_of_lt_mul hb
  have hx : b % f.h < f.h := Nat.mod_lt _ f.h_pos
  simp only [mcuAt, blockRow, blockCol, cell_div _ hy, cell_div _ hx]
  exact Nat.div_add_mod n f.mcusPerRow

theorem blknAt_block {n b : ℕ} (hb : b < f.h * f.v) :
    blknAt f (blockRow f n b) (blockCol f n b) = b := by
  have hy : b / f.h < f.v := Nat.div_lt_of_lt_mul hb
  have hx : b % f.h < f.h := Nat.mod_lt _ f.h_pos
  simp only [blknAt, blockRow, blockCol, cell_mod _ hy, cell_mod _ hx]
  exact Nat.div_add_mod b f.h

theorem blknAt_lt (row col : ℕ) : blknAt f row col < f.h * f.v := by
  have hy : row % f.v < f.v := Nat.mod_lt _ f.v_pos
  have hx : col % f.h < f.h := Nat.mod_lt _ f.h_pos
  have := Nat.mul_le_mul_left f.h (show row % f.v + 1 ≤ f.v from hy)
  rw [Nat.mul_succ] at this
  simp only [blknAt]
  omega

variable {f} in
theorem mcuAt_column_lt {col : ℕ} (hcol : col < f.widthInBlocks) : col / f.h < f.mcusPerRow := by
  have h := groups_eq f.h_pos (widthInBlocks_pos f)
  have hle := lastGroup_le f.widthInBlocks f.h_pos
  have hpos := mcusPerRow_pos f
  rw [← mcusPerRow_eq] at h
  refine Nat.div_lt_of_lt_mul ?_
  have : f.h * f.mcusPerRow = f.h * (f.mcusPerRow - 1) + f.h := by
    rw [← Nat.mul_succ, Nat.succ_eq_add_one, Nat.sub_add_cancel hpos]
  omega

variable {f} in
theorem mcuAt_row_lt {row : ℕ} (hrow : row < f.heightInBlocks) : row / f.v < f.mcuRows := by
  have h := groups_eq f.v_pos (heightInBlocks_pos f)
  have hle := lastGroup_le f.heightInBlocks f.v_pos
  have hpos := mcuRows_pos f
  rw [← mcuRows_eq] at h
  refine Nat.div_lt_of_lt_mul ?_
  have : f.v * f.mcuRows = f.v * (f.mcuRows - 1) + f.v := by
    rw [← Nat.mul_succ, Nat.succ_eq_add_one, Nat.sub_add_cancel hpos]
  omega

variable {f} in
theorem block_at_padded (row : ℕ) {col : ℕ} (hcol : col / f.h < f.mcusPerRow) :
    blockRow f (mcuAt f row col) (blknAt f row col) = row ∧
      blockCol f (mcuAt f row col) (blknAt f row col) = col := by
  have hx : col % f.h < f.h := Nat.mod_lt _ f.h_pos
  simp only [blockRow, blockCol, mcuAt, blknAt, cell_div _ hcol, cell_mod _ hcol, cell_div _ hx,
    cell_mod _ hx]
  exact ⟨Nat.div_add_mod row f.v, Nat.div_add_mod col f.h⟩

variable {f} in
theorem block_at (row : ℕ) {col : ℕ} (hcol : col < f.widthInBlocks) :
    blockRow f (mcuAt f row col) (blknAt f row col) = row ∧
      blockCol f (mcuAt f row col) (blknAt f row col) = col :=
  block_at_padded row (mcuAt_column_lt hcol)

variable {f} in
theorem mcuAt_lt {row col : ℕ} (hrow : row < f.heightInBlocks) (hcol : col < f.widthInBlocks) :
    mcuAt f row col < f.mcuRows * f.mcusPerRow := by
  have h := mcuAt_column_lt hcol
  have := Nat.mul_le_mul_left f.mcusPerRow (show row / f.v + 1 ≤ f.mcuRows from mcuAt_row_lt hrow)
  rw [Nat.mul_succ] at this
  rw [mcuAt, Nat.mul_comm f.mcuRows]
  omega

variable {f d}

theorem mem_mcuCalls {n : ℕ} {call : IdctCall β} :
    call ∈ mcuCalls f d n ↔ ∃ b < f.h * f.v, IsReal f n b ∧ call = placed f d n b := by
  simp only [mcuCalls, List.mem_map, List.mem_filter, List.mem_range, decide_eq_true_eq]
  exact ⟨fun ⟨b, ⟨hb, hr⟩, e⟩ => ⟨b, hb, hr, e.symm⟩, fun ⟨b, hb, hr, e⟩ => ⟨b, ⟨hb, hr⟩, e.symm⟩⟩

theorem mem_scanCalls {m : ℕ} {call : IdctCall β} :
    call ∈ (List.range m).flatMap (mcuCalls f d) ↔
      ∃ n < m, ∃ b < f.h * f.v, IsReal f n b ∧ call = placed f d n b := by
  simp only [List.mem_flatMap, List.mem_range, mem_mcuCalls]

theorem nodup_scanCalls (m : ℕ) :
    (((List.range m).flatMap (mcuCalls f d)).map (fun call => (call.mcu, call.blkn))).Nodup := by
  rw [List.map_flatMap]
  refine nodup_flatMap_of_index Prod.fst List.nodup_range (fun n _ => ?_) (fun n _ p hp => ?_)
  · have hinj : Function.Injective (fun b => ((placed f d n b).mcu, (placed f d n b).blkn)) :=
      fun b b' h => congrArg Prod.snd h
    rw [mcuCalls, List.map_map]
    exact (List.nodup_range.filter _).map hinj
  · obtain ⟨call, hcall, rfl⟩ := List.mem_map.mp hp
    obtain ⟨b, -, -, rfl⟩ := mem_mcuCalls.mp hcall
    rfl

theorem nodup_imageBlocks (m : ℕ) :
    (((List.range m).flatMap (mcuCalls f d)).map (imageBlock f)).Nodup := by
  have h := nodup_scanCalls (f := f) (d := d) m
  refine List.Nodup.of_map (fun p => (mcuAt f p.1 p.2, blknAt f p.1 p.2)) ?_
  rw [List.map_map]
  convert h using 1
  refine List.map_congr_left (fun call hcall => ?_)
  obtain ⟨n, -, b, hb, -, rfl⟩ := mem_scanCalls.mp hcall
  simp only [Function.comp_apply, imageBlock_placed, mcuAt_block f hb, blknAt_block f hb]
  rfl

theorem mem_imageBlocks {row col : ℕ} :
    (row, col) ∈ ((List.range (f.mcuRows * f.mcusPerRow)).flatMap (mcuCalls f d)).map (imageBlock f) ↔
      row < f.heightInBlocks ∧ col < f.widthInBlocks := by
  constructor
  · intro h
    obtain ⟨call, hcall, he⟩ := List.mem_map.mp h
    obtain ⟨n, -, b, -, hreal, rfl⟩ := mem_scanCalls.mp hcall
    rw [imageBlock_placed] at he
    exact (Prod.mk.inj he).1 ▸ (Prod.mk.inj he).2 ▸ hreal
  · rintro ⟨hrow, hcol⟩
    have hat := block_at row hcol
    refine List.mem_map.mpr ⟨placed f d (mcuAt f row col) (blknAt f row col), ?_, ?_⟩
    · refine mem_scanCalls.mpr ⟨_, mcuAt_lt hrow hcol, _, blknAt_lt f row col, ?_, rfl⟩
      rw [IsReal, hat.1, hat.2]
      exact ⟨hrow, hcol⟩
    · rw [imageBlock_placed, hat.1, hat.2]

theorem mainBufferSize_scanning (f : SingleComponentFrame) :
    mainBufferSize f.scanning (f.scanning.comp 0) =
      (f.widthInBlocks * dctSize, dctSize * f.v) := by
  change (f.widthInBlocks * dctSize, f.v * dctSize / dctSize * dctSize) = _
  rw [Nat.mul_div_cancel _ (by decide), Nat.mul_comm f.v]

/-- The place of a real block lies inside the workspace of the main controller. -/
theorem placed_inside {n b : ℕ} (hb : b < f.h * f.v) (hreal : IsReal f n b) :
    (placed f d n b).outputCol + dctSize ≤ f.widthInBlocks * dctSize ∧
      (placed f d n b).outputRow + dctSize ≤ dctSize * f.v := by
  have hy : b / f.h < f.v := Nat.div_lt_of_lt_mul hb
  have hcol := hreal.2
  simp only [placed, dctSize]
  omega

end Coverage

/-- For every frame whose MCU is small enough, the setup succeeds and a completed scan makes
exactly one inverse DCT call for each real block of each MCU, to its place, inside the
workspace; a larger MCU is refused without a store past the end of `MCU_membership`. -/
theorem tiled_scan_covers_component (f : SingleComponentFrame) (d : EntropyDecoder β) :
    initialSetup f.header = .ok f.ready ∧
    (f.h * f.v ≤ dMaxBlocksInMcu →
      perScanSetup f.ready = (f.scanning, none) ∧
      mainBufferSize f.scanning (f.scanning.comp 0) = (f.widthInBlocks * dctSize, dctSize * f.v) ∧
      ((∀ t, d.available t = true) →
        ∃ s, decodeScan d f.scanning f.mcuRows (started f.scanning) = some s ∧
          s.decodeCalls =
            jdivRoundUp f.width (dctSize * f.h) * jdivRoundUp f.height (dctSize * f.v)) ∧
      ∀ fuel s, decodeScan d f.scanning fuel (started f.scanning) = some s →
        (List.range s.decodeCalls).countP d.available =
          jdivRoundUp f.width (dctSize * f.h) * jdivRoundUp f.height (dctSize * f.v) ∧
        (∀ call, call ∈ s.idctCalls ↔ ∃ n < jdivRoundUp f.width (dctSize * f.h) *
            jdivRoundUp f.height (dctSize * f.v), ∃ b < f.h * f.v,
          IsReal f n b ∧ call = placed f d n b) ∧
        (s.idctCalls.map (fun call => (call.mcu, call.blkn))).Nodup ∧
        (s.idctCalls.map (imageBlock f)).Nodup ∧
        (∀ row col, (row, col) ∈ s.idctCalls.map (imageBlock f) ↔
          row < f.heightInBlocks ∧ col < f.widthInBlocks) ∧
        ∀ call ∈ s.idctCalls,
          call.outputCol + dctSize ≤ f.widthInBlocks * dctSize ∧
          call.outputRow + dctSize ≤ dctSize * f.v) ∧
    (dMaxBlocksInMcu < f.h * f.v →
      perScanSetup f.ready = (f.sized, some .badMcuSize) ∧
      ∀ store ∈ f.sized.mcuMembership, store.1 < dMaxBlocksInMcu) := by
  have hmcus : jdivRoundUp f.width (dctSize * f.h) * jdivRoundUp f.height (dctSize * f.v) =
      f.mcuRows * f.mcusPerRow := by
    rw [Nat.mul_comm dctSize, Nat.mul_comm dctSize, Nat.mul_comm]
    rfl
  rw [hmcus]
  have hstart := scanInvariant_started f d
  refine ⟨initialSetup_header f, fun hf => ⟨perScanSetup_fits f hf, mainBufferSize_scanning f, fun hd => ?_, ?_⟩,
    fun hf => ⟨perScanSetup_tooBig f hf, ?_⟩⟩
  · obtain ⟨s, hs⟩ := decodeScan_terminates hd f.mcuRows hstart (Nat.le_add_left _ _)
    have hp := decodeScan_progress _ hstart hs
    have hall : (List.range s.decodeCalls).countP d.available = s.decodeCalls := by
      rw [List.countP_eq_length.mpr (fun t _ => hd t), List.length_range]
    exact ⟨s, hs, by rw [← hall, ← hp.counted, hp.decoded, Nat.add_zero]⟩
  · intro fuel s hs
    have hp := decodeScan_progress _ hstart hs
    have hlog : s.idctCalls = (List.range (f.mcuRows * f.mcusPerRow)).flatMap (mcuCalls f d) := by
      rw [hp.log, hp.decoded, Nat.add_zero]
    refine ⟨by rw [← hp.counted, hp.decoded, Nat.add_zero], ?_, ?_, ?_, ?_, ?_⟩ <;> rw [hlog]
    · exact fun call => mem_scanCalls
    · exact nodup_scanCalls _
    · exact nodup_imageBlocks _
    · exact fun row col => mem_imageBlocks
    · intro call hcall
      obtain ⟨n, -, b, hb, hreal, rfl⟩ := mem_scanCalls.mp hcall
      exact placed_inside hb hreal
  · simp [SingleComponentFrame.sized, dMaxBlocksInMcu]

end Jp4Tools.TiledScanCoverage
