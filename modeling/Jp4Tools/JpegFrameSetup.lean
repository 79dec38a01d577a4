import Mathlib.Data.List.Range
import Mathlib.Tactic.Ring

/-!
# Frame and scan setup of the patched decompressor

`initialSetup` and `perScanSetup` compute the geometry of a frame and of a scan. In the
patched library a single-component scan is tiled: its MCU has `h × v` blocks, as in an
interleaved scan. `ERREXIT` leaves the structure as it is at that point, so a failed
setup returns the structure together with the error.
-/

namespace Jp4Tools.JpegFrameSetup

def dctSize : ℕ := 8
def bitsInJsample : ℕ := 8
def jpegMaxDimension : ℕ := 65500
def maxComponents : ℕ := 10
def maxCompsInScan : ℕ := 4
def maxSampFactor : ℕ := 4
def cMaxBlocksInMcu : ℕ := 10
def dMaxBlocksInMcu : ℕ := 10

inductive JpegError where
  | emptyImage
  | widthOverflow
  | imageTooBig (limit : ℕ)
  | badPrecision (precision : ℕ)
  | componentCount (count limit : ℕ)
  | badSampling
  | badMcuSize
  deriving DecidableEq, Repr

def jdivRoundUp (a b : ℕ) : ℕ := (a + b - 1) / b

/-- The part of `jpeg_component_info` that the coefficient controllers read. -/
structure JpegComponentInfo where
  componentIndex : ℕ
  hSampFactor : ℕ
  vSampFactor : ℕ
  widthInBlocks : ℕ := 0
  heightInBlocks : ℕ := 0
  dctScaledSize : ℕ := 0
  componentNeeded : Bool := false
  mcuWidth : ℕ := 0
  mcuHeight : ℕ := 0
  mcuBlocks : ℕ := 0
  mcuSampleWidth : ℕ := 0
  lastColWidth : ℕ := 0
  lastRowHeight : ℕ := 0
  deriving DecidableEq, Repr, Inhabited

/-- What both `jpeg_compress_struct` and `jpeg_decompress_struct` hold about a frame and its
current scan. The scan's components are indices into `compInfo`, and `mcuMembership` is the log
of stores to the array `MCU_membership`. -/
structure ScanLayout where
  imageWidth : ℕ
  imageHeight : ℕ
  compInfo : List JpegComponentInfo
  curCompInfo : List ℕ
  maxHSampFactor : ℕ := 0
  maxVSampFactor : ℕ := 0
  totalImcuRows : ℕ := 0
  mcusPerRow : ℕ := 0
  mcuRowsInScan : ℕ := 0
  blocksInMcu : ℕ := 0
  mcuMembership : List (ℕ × ℕ) := []
  deriving DecidableEq, Repr

structure JpegDecompress extends ScanLayout where
  dataPrecision : ℕ
  progressiveMode : Bool
  minDctScaledSize : ℕ := 0
  hasMultipleScans : Bool := false
  deriving DecidableEq, Repr

/-- The component a pointer of `cur_comp_info` refers to. -/
def ScanLayout.comp (cinfo : ScanLayout) (ci : ℕ) : JpegComponentInfo :=
  cinfo.compInfo.getD ci default

def badSampFactors (c : JpegComponentInfo) : Bool :=
  c.hSampFactor ≤ 0 || maxSampFactor < c.hSampFactor ||
    c.vSampFactor ≤ 0 || maxSampFactor < c.vSampFactor

def componentDimensions (imageWidth imageHeight maxH maxV : ℕ) (c : JpegComponentInfo) :
    JpegComponentInfo :=
  { c with
    dctScaledSize := dctSize
    widthInBlocks := jdivRoundUp (imageWidth * c.hSampFactor) (maxH * dctSize)
    heightInBlocks := jdivRoundUp (imageHeight * c.vSampFactor) (maxV * dctSize)
    componentNeeded := true }

/-- `initial_setup` of jdinput.c. -/
def initialSetup (cinfo : JpegDecompress) : Except JpegError JpegDecompress :=
  if jpegMaxDimension < cinfo.imageHeight ∨ jpegMaxDimension < cinfo.imageWidth then
    .error (.imageTooBig jpegMaxDimension)
  else if cinfo.dataPrecision ≠ bitsInJsample then .error (.badPrecision cinfo.dataPrecision)
  else if maxComponents < cinfo.compInfo.length then
    .error (.componentCount cinfo.compInfo.length maxComponents)
  else if cinfo.compInfo.any badSampFactors then .error .badSampling
  else
    let maxH := cinfo.compInfo.foldl (fun m c => max m c.hSampFactor) 1
    let maxV := cinfo.compInfo.foldl (fun m c => max m c.vSampFactor) 1
    .ok { cinfo with
      maxHSampFactor := maxH
      maxVSampFactor := maxV
      minDctScaledSize := dctSize
      compInfo :=
        cinfo.compInfo.map (componentDimensions cinfo.imageWidth cinfo.imageHeight maxH maxV)
      totalImcuRows := jdivRoundUp cinfo.imageHeight (maxV * dctSize)
      hasMultipleScans :=
        cinfo.curCompInfo.length < cinfo.compInfo.length || cinfo.progressiveMode }

/-- The number of real blocks in the last of the groups of `mcuSize` blocks. -/
def lastGroup (blocks mcuSize : ℕ) : ℕ := if blocks % mcuSize = 0 then mcuSize else blocks % mcuSize

/-- An MCU of the component holds `h_samp_factor × v_samp_factor` of its blocks. -/
def tiledGeometry (c : JpegComponentInfo) : JpegComponentInfo :=
  { c with
    mcuWidth := c.hSampFactor
    mcuHeight := c.vSampFactor
    mcuBlocks := c.hSampFactor * c.vSampFactor
    mcuSampleWidth := c.hSampFactor * c.dctScaledSize
    lastColWidth := lastGroup c.widthInBlocks c.hSampFactor
    lastRowHeight := lastGroup c.heightInBlocks c.vSampFactor }

/-- `while (mcublks-- > 0) MCU_membership[blocks_in_MCU++] = ci` -/
def addMcuBlocks (ci : ℕ) : ℕ → ScanLayout → ScanLayout
  | 0, cinfo => cinfo
  | mcublks + 1, cinfo => addMcuBlocks ci mcublks
      { cinfo with
        mcuMembership := cinfo.mcuMembership ++ [(cinfo.blocksInMcu, ci)]
        blocksInMcu := cinfo.blocksInMcu + 1 }

/-- One component of a scan: its MCU geometry, the check of the MCU size, its blocks. -/
def addComponent (maxBlocksInMcu : ℕ) (cinfo : ScanLayout) (ci idx : ℕ) :
    ScanLayout × Option JpegError :=
  let compptr := tiledGeometry (cinfo.comp idx)
  let cinfo := { cinfo with compInfo := cinfo.compInfo.set idx compptr }
  if maxBlocksInMcu < cinfo.blocksInMcu + compptr.mcuBlocks then (cinfo, some .badMcuSize)
  else (addMcuBlocks ci compptr.mcuBlocks cinfo, none)

def addComponents (maxBlocksInMcu : ℕ) :
    ℕ → List ℕ → ScanLayout → ScanLayout × Option JpegError
  | _, [], cinfo => (cinfo, none)
  | ci, idx :: scan, cinfo => match addComponent maxBlocksInMcu cinfo ci idx with
    | (cinfo, none) => addComponents maxBlocksInMcu (ci + 1) scan cinfo
    | (cinfo, some e) => (cinfo, some e)

/-- The image in MCUs of a scan whose MCUs are tiles of the largest sampling factors. -/
def sizedInMcus (cinfo : ScanLayout) : ScanLayout :=
  { cinfo with
    mcusPerRow := jdivRoundUp cinfo.imageWidth (cinfo.maxHSampFactor * dctSize)
    mcuRowsInScan := jdivRoundUp cinfo.imageHeight (cinfo.maxVSampFactor * dctSize)
    blocksInMcu := 0 }

/-- The interleaved branch of both `per_scan_setup`s. -/
def interleavedSetup (maxBlocksInMcu : ℕ) (cinfo : ScanLayout) : ScanLayout × Option JpegError :=
  let scan := cinfo.curCompInfo
  if scan.length = 0 ∨ maxCompsInScan < scan.length then
    (cinfo, some (.componentCount scan.length maxCompsInScan))
  else addComponents maxBlocksInMcu 0 scan (sizedInMcus cinfo)

/-- `per_scan_setup` of jdinput.c. A single component is tiled; `MCU_membership[0]` is cleared
before the size of its MCU is checked. -/
def perScanSetup (cinfo : JpegDecompress) : JpegDecompress × Option JpegError :=
  let sized := sizedInMcus cinfo.toScanLayout
  let (layout, e) := match cinfo.curCompInfo with
    | [idx] => addComponent dMaxBlocksInMcu
        { sized with mcuMembership := sized.mcuMembership ++ [(0, 0)] } 0 idx
    | _ => interleavedSetup dMaxBlocksInMcu cinfo.toScanLayout
  ({ cinfo with toScanLayout := layout }, e)

@[simp] theorem addMcuBlocks_eq (ci mcublks : ℕ) (cinfo : ScanLayout) :
    addMcuBlocks ci mcublks cinfo = { cinfo with
      mcuMembership := cinfo.mcuMembership ++
        (List.range' cinfo.blocksInMcu mcublks).map (fun b => (b, ci))
      blocksInMcu := cinfo.blocksInMcu + mcublks } := by
  induction mcublks generalizing cinfo with
  | zero => simp [addMcuBlocks]
  | succ k ih => simp [addMcuBlocks, ih, List.range'_succ, Nat.add_assoc, Nat.add_comm 1 k]

structure FrameSize where
  width : ℕ
  height : ℕ
  width_pos : 1 ≤ width
  width_le : width ≤ jpegMaxDimension
  height_pos : 1 ≤ height
  height_le : height ≤ jpegMaxDimension

structure SingleComponentFrame extends FrameSize where
  h : ℕ
  v : ℕ
  h_pos : 1 ≤ h
  h_le : h ≤ maxSampFactor
  v_pos : 1 ≤ v
  v_le : v ≤ maxSampFactor

namespace SingleComponentFrame

variable (f : SingleComponentFrame)

/-- What the SOF and SOS markers of the frame leave in the structure. -/
def header : JpegDecompress where
  imageWidth := f.width
  imageHeight := f.height
  dataPrecision := bitsInJsample
  progressiveMode := false
  compInfo := [{ componentIndex := 0, hSampFactor := f.h, vSampFactor := f.v }]
  curCompInfo := [0]

/-- Blocks across and down the component; no dummy block is counted. -/
def widthInBlocks : ℕ := jdivRoundUp f.width dctSize
def heightInBlocks : ℕ := jdivRoundUp f.height dctSize

def mcusPerRow : ℕ := jdivRoundUp f.width (f.h * dctSize)
def mcuRows : ℕ := jdivRoundUp f.height (f.v * dctSize)

def component : JpegComponentInfo where
  componentIndex := 0
  hSampFactor := f.h
  vSampFactor := f.v
  widthInBlocks := f.widthInBlocks
  heightInBlocks := f.heightInBlocks
  dctScaledSize := dctSize
  componentNeeded := true

def ready : JpegDecompress where
  imageWidth := f.width
  imageHeight := f.height
  dataPrecision := bitsInJsample
  progressiveMode := false
  compInfo := [f.component]
  curCompInfo := [0]
  maxHSampFactor := f.h
  maxVSampFactor := f.v
  minDctScaledSize := dctSize
  totalImcuRows := f.mcuRows
  hasMultipleScans := false

def sized : JpegDecompress :=
  { f.ready with
    compInfo := [tiledGeometry f.component]
    mcusPerRow := f.mcusPerRow
    mcuRowsInScan := f.mcuRows
    mcuMembership := [(0, 0)] }

/-- The structure after both setups, when the MCU is small enough. -/
def scanning : JpegDecompress :=
  { f.sized with
    blocksInMcu := f.h * f.v
    mcuMembership := (0, 0) :: (List.range (f.h * f.v)).map (fun b => (b, 0)) }

end SingleComponentFrame

theorem jdivRoundUp_mul_left (a : ℕ) {b c : ℕ} (hc : 0 < c) :
    jdivRoundUp (a * c) (c * b) = jdivRoundUp a b := by
  rcases Nat.eq_zero_or_pos b with rfl | hb
  · simp [jdivRoundUp]
  rcases Nat.eq_zero_or_pos a with rfl | ha
  · simp only [jdivRoundUp, Nat.zero_mul, Nat.zero_add]
    rw [Nat.div_eq_of_lt (by have := Nat.mul_pos hc hb; omega), Nat.div_eq_of_lt (by omega)]
  have e : a * c + c * b - 1 = c * (a + b - 1) + (c - 1) := by
    have h : c * (a + b) = a * c + c * b := by ring
    have h' : c * (a + b - 1) + c = c * (a + b) := by
      rw [← Nat.mul_succ]
      congr 1
      omega
    omega
  simp only [jdivRoundUp]
  rw [e, ← Nat.div_div_eq_div_mul, Nat.mul_add_div hc,
    Nat.div_eq_of_lt (show c - 1 < c by omega), Nat.add_zero]

theorem badSampFactors_frame (f : SingleComponentFrame) :
    badSampFactors { componentIndex := 0, hSampFactor := f.h, vSampFactor := f.v } = false := by
  have := f.h_pos
  have := f.h_le
  have := f.v_pos
  have := f.v_le
  simp only [badSampFactors, Bool.or_eq_false_iff, decide_eq_false_iff_not]
  omega

theorem initialSetup_header (f : SingleComponentFrame) :
    initialSetup f.header = .ok f.ready := by
  have hh := f.h_pos
  have hv := f.v_pos
  have hw := f.width_le
  have hht := f.height_le
  simp [initialSetup, SingleComponentFrame.header, badSampFactors_frame, hw, hht, maxComponents,
    SingleComponentFrame.ready, SingleComponentFrame.component, SingleComponentFrame.widthInBlocks,
    SingleComponentFrame.heightInBlocks, SingleComponentFrame.mcuRows, componentDimensions,
    jdivRoundUp_mul_left _ hh, jdivRoundUp_mul_left _ hv, hh, hv]

theorem perScanSetup_fits (f : SingleComponentFrame) (hf : f.h * f.v ≤ dMaxBlocksInMcu) :
    perScanSetup f.ready = (f.scanning, none) := by
  have hsize : ¬ dMaxBlocksInMcu < f.h * f.v := Nat.not_lt.mpr hf
  simp [perScanSetup, sizedInMcus, addComponent, SingleComponentFrame.ready, SingleComponentFrame.scanning,
    SingleComponentFrame.sized, ScanLayout.comp, tiledGeometry, SingleComponentFrame.component,
    hsize, SingleComponentFrame.mcusPerRow, SingleComponentFrame.mcuRows, List.range_eq_range']

/-- A larger MCU is refused when only the first entry of `MCU_membership` is set. -/
theorem perScanSetup_tooBig (f : SingleComponentFrame) (hf : dMaxBlocksInMcu < f.h * f.v) :
    perScanSetup f.ready = (f.sized, some .badMcuSize) := by
  simp [perScanSetup, sizedInMcus, addComponent, SingleComponentFrame.ready, SingleComponentFrame.sized,
    ScanLayout.comp, tiledGeometry, SingleComponentFrame.component, hf,
    SingleComponentFrame.mcusPerRow, SingleComponentFrame.mcuRows]

end Jp4Tools.JpegFrameSetup
