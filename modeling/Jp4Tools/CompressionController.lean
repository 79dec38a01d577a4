import Jp4Tools.CompressorSetup
import Jp4Tools.TiledScanCoverage

/-!
# The coefficient buffer controller of the compressor

`compressData` transforms one iMCU row and hands its MCUs to the entropy encoder, which may
suspend; the MCU is then transformed again by the next call. The coefficient image stands for
the samples: the forward DCT of a block is the block of the image at its place.
-/

namespace Jp4Tools.CompressionController
open WriteLogs JpegFrameSetup CompressorSetup TiledScanCoverage

/-- A `JBLOCK`: the DC coefficient, then the AC coefficients. -/
abbrev JBlock := Fin 64 → ℤ

/-- The forward DCT of every component, by component, block row and block column. -/
abbrev CoefficientImage := ℕ → ℕ → ℕ → JBlock

/-- The counters of `my_coef_controller`, its `MCU_buffer`, the number of calls of `encode_mcu`,
and the blocks that the entropy encoder has accepted. -/
structure EncodeState where
  imcuRowNum : ℕ
  mcuCtr : ℕ
  mcuVertOffset : ℕ
  mcuRowsPerImcuRow : ℕ
  mcuBuffer : ℕ → JBlock
  encodeCalls : ℕ
  emitted : List JBlock

def startImcuRow (cinfo : JpegCompress) (s : EncodeState) : EncodeState :=
  let compptr := cinfo.comp (cinfo.curCompInfo.headD 0)
  let s := if 1 < cinfo.curCompInfo.length then { s with mcuRowsPerImcuRow := 1 }
    else if s.imcuRowNum < cinfo.totalImcuRows - 1 then
      { s with mcuRowsPerImcuRow := compptr.vSampFactor }
    else { s with mcuRowsPerImcuRow := compptr.lastRowHeight }
  { s with mcuCtr := 0, mcuVertOffset := 0 }

def startPassCoef (cinfo : JpegCompress) (s : EncodeState) : EncodeState :=
  startImcuRow cinfo { s with imcuRowNum := 0 }

/-- `forward_DCT` on `blockcnt` blocks, from the sample position `(ypos, xpos)` of the iMCU row to
`MCU_buffer[blkn]` on. -/
def forwardDct (coefs : CoefficientImage) (compptr : JpegComponentInfo)
    (imcuRow blkn ypos xpos blockcnt : ℕ) (buf : ℕ → JBlock) : ℕ → JBlock :=
  fun b => if blkn ≤ b ∧ b < blkn + blockcnt then
      coefs compptr.componentIndex (imcuRow * compptr.vSampFactor + ypos / dctSize)
        (xpos / dctSize + (b - blkn))
    else buf b

/-- A dummy block repeats the DC coefficient of another block. -/
def dummyBlock (dc : ℤ) : JBlock := fun i => if i = 0 then dc else 0

def padRight (blkn mcuWidth : ℕ) : ℕ → ℕ → (ℕ → JBlock) → ℕ → JBlock
  | 0, _, buf => buf
  | fuel + 1, bi, buf =>
    if bi < mcuWidth then
      padRight blkn mcuWidth fuel (bi + 1)
        (Function.update buf (blkn + bi) (dummyBlock (buf (blkn + bi - 1) 0)))
    else buf

def padBottom (blkn mcuWidth : ℕ) (buf : ℕ → JBlock) : ℕ → JBlock :=
  fun b => if blkn ≤ b ∧ b < blkn + mcuWidth then dummyBlock (buf (blkn - 1) 0) else buf b

/-- The `yindex` loop: the block rows of one component of an MCU. The loop carries `yindex`,
`blkn` and `ypos`. -/
def fillRows (cinfo : JpegCompress) (coefs : CoefficientImage) (compptr : JpegComponentInfo)
    (imcuRow yoffset xpos blockcnt : ℕ) :
    ℕ → ℕ → ℕ → ℕ → (ℕ → JBlock) → ℕ × (ℕ → JBlock)
  | 0, _, blkn, _, buf => (blkn, buf)
  | fuel + 1, yindex, blkn, ypos, buf =>
    if yindex < compptr.mcuHeight then
      let buf :=
        if imcuRow < cinfo.totalImcuRows - 1 ∨ yoffset + yindex < compptr.lastRowHeight then
          padRight blkn compptr.mcuWidth compptr.mcuWidth blockcnt
            (forwardDct coefs compptr imcuRow blkn ypos xpos blockcnt buf)
        else padBottom blkn compptr.mcuWidth buf
      fillRows cinfo coefs compptr imcuRow yoffset xpos blockcnt fuel (yindex + 1)
        (blkn + compptr.mcuWidth) (ypos + dctSize) buf
    else (blkn, buf)

/-- The components of one MCU, transformed into `MCU_buffer`. -/
def fillMcu (cinfo : JpegCompress) (coefs : CoefficientImage) (imcuRow yoffset mcuColNum : ℕ) :
    ℕ → List ℕ → (ℕ → JBlock) → ℕ → JBlock
  | _, [], buf => buf
  | blkn, idx :: scan, buf =>
    let compptr := cinfo.comp idx
    let blockcnt :=
      if mcuColNum < cinfo.mcusPerRow - 1 then compptr.mcuWidth else compptr.lastColWidth
    let (blkn, buf) := fillRows cinfo coefs compptr imcuRow yoffset
      (mcuColNum * compptr.mcuSampleWidth) blockcnt compptr.mcuHeight 0 blkn (yoffset * dctSize) buf
    fillMcu cinfo coefs imcuRow yoffset mcuColNum blkn scan buf

/-- The `MCU_col_num` loop. It gives `false` when the entropy encoder suspends. -/
def compressColumns (accepts : ℕ → Bool) (cinfo : JpegCompress) (coefs : CoefficientImage)
    (yoffset : ℕ) : ℕ → ℕ → EncodeState → Bool × EncodeState
  | 0, _, s => (true, s)
  | fuel + 1, mcuColNum, s =>
    if mcuColNum ≤ cinfo.mcusPerRow - 1 then
      let buf := fillMcu cinfo coefs s.imcuRowNum yoffset mcuColNum 0 cinfo.curCompInfo s.mcuBuffer
      if accepts s.encodeCalls then
        compressColumns accepts cinfo coefs yoffset fuel (mcuColNum + 1)
          { s with
            mcuBuffer := buf
            encodeCalls := s.encodeCalls + 1
            emitted := s.emitted ++ (List.range cinfo.blocksInMcu).map buf }
      else (false,
        { s with
          mcuBuffer := buf
          encodeCalls := s.encodeCalls + 1
          mcuVertOffset := yoffset
          mcuCtr := mcuColNum })
    else (true, s)

/-- The `yoffset` loop over the MCU rows of the iMCU row. -/
def compressRows (accepts : ℕ → Bool) (cinfo : JpegCompress) (coefs : CoefficientImage) :
    ℕ → ℕ → EncodeState → Bool × EncodeState
  | 0, _, s => (true, s)
  | fuel + 1, yoffset, s =>
    if yoffset < s.mcuRowsPerImcuRow then
      match compressColumns accepts cinfo coefs yoffset cinfo.mcusPerRow s.mcuCtr s with
      | (true, s) => compressRows accepts cinfo coefs fuel (yoffset + 1) { s with mcuCtr := 0 }
      | (false, s) => (false, s)
    else (true, s)

def compressData (accepts : ℕ → Bool) (cinfo : JpegCompress) (coefs : CoefficientImage)
    (s : EncodeState) : Bool × EncodeState :=
  match compressRows accepts cinfo coefs s.mcuRowsPerImcuRow s.mcuVertOffset s with
  | (false, s) => (false, s)
  | (true, s) => (true, startImcuRow cinfo { s with imcuRowNum := s.imcuRowNum + 1 })

/-- Calls `compressData` until all iMCU rows are completed, at most `fuel` times. -/
def encodeScan (accepts : ℕ → Bool) (cinfo : JpegCompress) (coefs : CoefficientImage) :
    ℕ → EncodeState → Option EncodeState
  | 0, s => if s.imcuRowNum < cinfo.totalImcuRows then none else some s
  | fuel + 1, s =>
    if s.imcuRowNum < cinfo.totalImcuRows then
      encodeScan accepts cinfo coefs fuel (compressData accepts cinfo coefs s).2
    else some s

def encoding (cinfo : JpegCompress) (mcuBuffer : ℕ → JBlock) : EncodeState :=
  startPassCoef cinfo ⟨0, 0, 0, 0, mcuBuffer, 0, []⟩

section SingleComponent
variable {f : SingleComponentFrame} {coefs : CoefficientImage} {accepts : ℕ → Bool}

/-- The number of block rows in iMCU row `row`. -/
def rowsIn (f : SingleComponentFrame) (row : ℕ) : ℕ :=
  if row < f.mcuRows - 1 then f.v else lastGroup f.heightInBlocks f.v

theorem rowsIn_pos (f : SingleComponentFrame) (row : ℕ) : 0 < rowsIn f row := by
  unfold rowsIn
  split_ifs
  · exact f.v_pos
  · exact lastGroup_pos _ f.v_pos

theorem rowsIn_last (f : SingleComponentFrame) :
    (f.mcuRows - 1) * f.v + rowsIn f (f.mcuRows - 1) = f.heightInBlocks := by
  have h := groups_eq f.v_pos (heightInBlocks_pos f)
  rw [← mcuRows_eq] at h
  rw [rowsIn, if_neg (Nat.lt_irrefl _), Nat.mul_comm, ← h]

theorem startImcuRow_eq (s : EncodeState) : startImcuRow (compressing f) s =
    { s with mcuRowsPerImcuRow := rowsIn f s.imcuRowNum, mcuCtr := 0, mcuVertOffset := 0 } := by
  have htotal : (compressing f).totalImcuRows = f.mcuRows := rfl
  simp only [startImcuRow, rowsIn, htotal]
  by_cases h : s.imcuRowNum < f.mcuRows - 1
  · simp only [h, if_true]
    rfl
  · simp only [h, if_false]
    rfl

theorem fillMcu_eq (coefs : CoefficientImage) {row yoffset : ℕ}
    (hrows : yoffset < rowsIn f row) (col : ℕ) (buf : ℕ → JBlock) :
    fillMcu (compressing f) coefs row yoffset col 0 [0] buf 0 = coefs 0 (row * f.v + yoffset) col := by
  have hreal : row < (compressing f).totalImcuRows - 1 ∨
      yoffset + 0 < (untiledGeometry f.component).lastRowHeight := by
    by_cases hlast : row < f.mcuRows - 1
    · exact .inl hlast
    · rw [rowsIn, if_neg hlast] at hrows
      exact .inr hrows
  have hcomp : (compressing f).comp 0 = untiledGeometry f.component := rfl
  have hone : (untiledGeometry f.component).mcuHeight = 1 := rfl
  have hwide : (untiledGeometry f.component).mcuWidth = 1 := rfl
  have hlast : (untiledGeometry f.component).lastColWidth = 1 := rfl
  have hsample : (untiledGeometry f.component).mcuSampleWidth = dctSize := rfl
  simp only [fillMcu, hcomp, hlast, hone, hwide, hsample, ite_self, fillRows, hreal, if_true, padRight,
    Nat.lt_irrefl, if_false, Nat.one_pos, forwardDct]
  simp [dctSize]
  rfl

/-- The real blocks of the component, row after row. -/
def rasterBlocks (f : SingleComponentFrame) (coefs : CoefficientImage) (n : ℕ) : List JBlock :=
  (List.range n).map (fun i => coefs 0 (i / f.widthInBlocks) (i % f.widthInBlocks))

/-- The blocks before column `col` of row `yoffset` of iMCU row `row` are emitted. -/
structure Emitted (f : SingleComponentFrame) (coefs : CoefficientImage) (row yoffset col : ℕ)
    (s : EncodeState) : Prop where
  atRow : s.imcuRowNum = row
  rowCount : s.mcuRowsPerImcuRow = rowsIn f row
  stream : s.emitted =
    rasterBlocks f coefs ((row * f.v + yoffset) * f.widthInBlocks + col)

/-- What holds between two calls of `compressData`. -/
structure EncodeInvariant (f : SingleComponentFrame) (coefs : CoefficientImage) (s : EncodeState) :
    Prop where
  emitted : Emitted f coefs s.imcuRowNum s.mcuVertOffset s.mcuCtr s
  offset_lt : s.mcuVertOffset < rowsIn f s.imcuRowNum
  column_lt : s.mcuCtr < f.widthInBlocks

theorem encodeInvariant_encoding (f : SingleComponentFrame) (coefs : CoefficientImage)
    (mcuBuffer : ℕ → JBlock) : EncodeInvariant f coefs (encoding (compressing f) mcuBuffer) := by
  rw [encoding, startPassCoef, startImcuRow_eq]
  refine ⟨⟨rfl, rfl, ?_⟩, rowsIn_pos f 0, widthInBlocks_pos f⟩
  simp [rasterBlocks]

private theorem Emitted.step {row yoffset col : ℕ} {s : EncodeState} (h : Emitted f coefs row yoffset col s)
    (hrows : yoffset < rowsIn f row) (hcol : col < f.widthInBlocks) {buf : ℕ → JBlock}
    (hbuf : buf = fillMcu (compressing f) coefs s.imcuRowNum yoffset col 0 [0] s.mcuBuffer) :
    Emitted f coefs row yoffset (col + 1)
      { s with
        mcuBuffer := buf
        encodeCalls := s.encodeCalls + 1
        emitted := s.emitted ++ (List.range 1).map buf } := by
  refine ⟨h.atRow, h.rowCount, ?_⟩
  have hblock := fillMcu_eq coefs hrows col s.mcuBuffer
  have hdiv : ((row * f.v + yoffset) * f.widthInBlocks + col) / f.widthInBlocks = row * f.v + yoffset := by
    rw [Nat.mul_comm, cell_div _ hcol]
  have hmod : ((row * f.v + yoffset) * f.widthInBlocks + col) % f.widthInBlocks = col := by
    rw [Nat.mul_comm, cell_mod _ hcol]
  subst hbuf
  simp only [h.stream, h.atRow, rasterBlocks, List.range_zero, List.map_cons, List.map_nil,
    List.nil_append, hblock, ← Nat.add_assoc, List.range_succ, List.map_append, hdiv, hmod]

theorem compressColumns_spec (accepts : ℕ → Bool) {row yoffset : ℕ} (hrows : yoffset < rowsIn f row) (fuel col : ℕ)
    (s : EncodeState) (h : Emitted f coefs row yoffset col s) (hcol : col ≤ f.widthInBlocks)
    (hfuel : f.widthInBlocks ≤ col + fuel) :
    (∃ s', compressColumns accepts (compressing f) coefs yoffset fuel col s = (true, s') ∧
      Emitted f coefs row yoffset f.widthInBlocks s') ∨
    (∃ s', compressColumns accepts (compressing f) coefs yoffset fuel col s = (false, s') ∧
      Emitted f coefs row yoffset s'.mcuCtr s' ∧ s'.mcuCtr < f.widthInBlocks ∧
      s'.mcuVertOffset = yoffset ∧ ∃ t, accepts t = false) := by
  induction fuel generalizing col s with
  | zero =>
    obtain rfl : col = f.widthInBlocks := by omega
    exact .inl ⟨s, rfl, h⟩
  | succ fuel ih =>
    have hpos := widthInBlocks_pos f
    have hper : (compressing f).mcusPerRow = f.widthInBlocks := rfl
    by_cases hlast : col = f.widthInBlocks
    · exact .inl ⟨s, by rw [compressColumns, hper, if_neg (by omega)], hlast ▸ h⟩
    rw [compressColumns, hper, if_pos (by omega)]
    cases ha : accepts s.encodeCalls with
    | true =>
      simp only [if_true]
      exact ih (col + 1) _ (h.step hrows (by omega) rfl) (by omega) (by omega)
    | false =>
      simp only [Bool.false_eq_true, if_false]
      exact .inr ⟨_, rfl, ⟨h.atRow, h.rowCount, h.stream⟩, by dsimp only; omega, rfl, _, ha⟩

theorem compressRows_spec (accepts : ℕ → Bool) {row : ℕ} (fuel yoffset col : ℕ) (s : EncodeState)
    (h : Emitted f coefs row yoffset col s) (hctr : s.mcuCtr = col) (hcol : col < f.widthInBlocks)
    (hyoffset : yoffset ≤ rowsIn f row) (hend : yoffset = rowsIn f row → col = 0)
    (hfuel : rowsIn f row ≤ yoffset + fuel) :
    (∃ s', compressRows accepts (compressing f) coefs fuel yoffset s = (true, s') ∧
      Emitted f coefs row (rowsIn f row) 0 s') ∨
    (∃ s', compressRows accepts (compressing f) coefs fuel yoffset s = (false, s') ∧
      s'.imcuRowNum = row ∧ EncodeInvariant f coefs s' ∧ ∃ t, accepts t = false) := by
  induction fuel generalizing yoffset col s with
  | zero =>
    obtain rfl : yoffset = rowsIn f row := by omega
    obtain rfl := hend rfl
    exact .inl ⟨s, rfl, h⟩
  | succ fuel ih =>
    by_cases hmore : yoffset < rowsIn f row
    · have hcols := compressColumns_spec accepts hmore f.widthInBlocks col s h hcol.le
        (by omega)
      have hper : (compressing f).mcusPerRow = f.widthInBlocks := rfl
      rw [compressRows, h.rowCount, if_pos hmore, hper, hctr]
      rcases hcols with ⟨s', he, hs'⟩ | ⟨s', he, hs', hlt, hvert, hsusp⟩
      · simp only [he]
        refine ih (yoffset + 1) 0 _ ⟨hs'.atRow, hs'.rowCount, ?_⟩ rfl (widthInBlocks_pos f) hmore
          (fun _ => rfl) (by omega)
        rw [hs'.stream, ← Nat.add_assoc, Nat.succ_mul, Nat.add_zero]
      · simp only [he]
        refine .inr ⟨s', rfl, hs'.atRow, ⟨?_, ?_, hlt⟩, hsusp⟩
        · rw [hs'.atRow, hvert]
          exact hs'
        · rw [hs'.atRow, hvert]
          exact hmore
    · obtain rfl : yoffset = rowsIn f row := by omega
      obtain rfl := hend rfl
      exact .inl ⟨s, by rw [compressRows, h.rowCount, if_neg hmore], h⟩

/-- The scan is at some iMCU row, or all real blocks are emitted. -/
def Encoding (f : SingleComponentFrame) (coefs : CoefficientImage) (s : EncodeState) : Prop :=
  (s.imcuRowNum < f.mcuRows ∧ EncodeInvariant f coefs s) ∨
    (s.imcuRowNum = f.mcuRows ∧
      s.emitted = rasterBlocks f coefs (f.heightInBlocks * f.widthInBlocks))

theorem compressData_spec (accepts : ℕ → Bool) {s : EncodeState} (h : EncodeInvariant f coefs s)
    (hrow : s.imcuRowNum < f.mcuRows) :
    Encoding f coefs (compressData accepts (compressing f) coefs s).2 ∧
      ((∀ t, accepts t = true) →
        (compressData accepts (compressing f) coefs s).2.imcuRowNum = s.imcuRowNum + 1) := by
  have hrows := compressRows_spec accepts s.mcuRowsPerImcuRow s.mcuVertOffset s.mcuCtr s
    h.emitted rfl h.column_lt h.offset_lt.le (fun he => absurd h.offset_lt (by omega))
    (by rw [h.emitted.rowCount]; exact Nat.le_add_left _ _)
  rcases hrows with ⟨s', he, hs'⟩ | ⟨s', he, hsame, hinv, t, ht⟩
  · simp only [compressData, he, startImcuRow_eq]
    refine ⟨?_, fun _ => by simp only [hs'.atRow]⟩
    by_cases hmore : s.imcuRowNum + 1 < f.mcuRows
    · refine .inl ⟨by simpa only [hs'.atRow] using hmore, ⟨rfl, rfl, ?_⟩, rowsIn_pos f _, widthInBlocks_pos f⟩
      have hfull : rowsIn f s.imcuRowNum = f.v := if_pos (by omega)
      simp only [hs'.stream, hs'.atRow, hfull, Nat.succ_mul, Nat.add_zero]
    · obtain hlast : s.imcuRowNum = f.mcuRows - 1 := by omega
      refine .inr ⟨by simp only [hs'.atRow]; omega, ?_⟩
      simp only [hs'.stream, hlast, rowsIn_last, Nat.add_zero]
  · simp only [compressData, he]
    exact ⟨.inl ⟨hsame ▸ hrow, hinv⟩, fun ha => absurd (ha t) (by simp [ht])⟩

/-- Whatever the suspensions, a completed scan has emitted the blocks row after row. -/
theorem encodeScan_emitted (fuel : ℕ) {s s' : EncodeState} (h : Encoding f coefs s)
    (hs : encodeScan accepts (compressing f) coefs fuel s = some s') :
    s'.emitted = rasterBlocks f coefs (f.heightInBlocks * f.widthInBlocks) := by
  have htotal : (compressing f).totalImcuRows = f.mcuRows := rfl
  induction fuel generalizing s with
  | zero =>
    rw [encodeScan, htotal] at hs
    split_ifs at hs with hrow
    obtain rfl := Option.some.inj hs
    exact (h.resolve_left (fun h => hrow h.1)).2
  | succ fuel ih =>
    rw [encodeScan, htotal] at hs
    split_ifs at hs with hrow
    · exact ih (compressData_spec accepts (h.resolve_right (fun h => by omega)).2 hrow).1 hs
    · obtain rfl := Option.some.inj hs
      exact (h.resolve_left (fun h => hrow h.1)).2

theorem encodeScan_terminates (ha : ∀ t, accepts t = true) (fuel : ℕ) {s : EncodeState}
    (h : Encoding f coefs s) (hfuel : f.mcuRows ≤ s.imcuRowNum + fuel) :
    ∃ s', encodeScan accepts (compressing f) coefs fuel s = some s' := by
  have htotal : (compressing f).totalImcuRows = f.mcuRows := rfl
  induction fuel generalizing s with
  | zero => exact ⟨s, by rw [encodeScan, htotal, if_neg (by omega)]⟩
  | succ fuel ih =>
    rw [encodeScan, htotal]
    split_ifs with hrow
    · have hstep := compressData_spec accepts (h.resolve_right (fun h => by omega)).2 hrow
      exact ih hstep.1 (by rw [hstep.2 ha]; omega)
    · exact ⟨s, rfl⟩

end SingleComponent

end Jp4Tools.CompressionController
