import Jp4Tools.JpegFrameSetup
import Jp4Tools.MachineIntegers

/-!
# Frame and scan setup of the compressor

The compressor of the patched library is the original one: the MCU of a single-component scan
is one block, whatever the sampling factors.
-/

namespace Jp4Tools.CompressorSetup
open JpegFrameSetup MachineIntegers

/-- The part of `jpeg_compress_struct` that setup computes. -/
structure JpegCompress extends ScanLayout where
  inputComponents : ℕ
  dataPrecision : ℕ
  restartInRows : ℕ := 0
  restartInterval : ℕ := 0
  deriving DecidableEq, Repr

def initialSetup (cinfo : JpegCompress) : Except JpegError JpegCompress :=
  if cinfo.imageHeight ≤ 0 ∨ cinfo.imageWidth ≤ 0 ∨ cinfo.compInfo.length ≤ 0 ∨
      cinfo.inputComponents ≤ 0 then .error .emptyImage
  else if jpegMaxDimension < cinfo.imageHeight ∨ jpegMaxDimension < cinfo.imageWidth then
    .error (.imageTooBig jpegMaxDimension)
  else if u32 (cinfo.imageWidth * cinfo.inputComponents) ≠ cinfo.imageWidth * cinfo.inputComponents then
    .error .widthOverflow
  else if cinfo.dataPrecision ≠ bitsInJsample then .error (.badPrecision cinfo.dataPrecision)
  else if maxComponents < cinfo.compInfo.length then
    .error (.componentCount cinfo.compInfo.length maxComponents)
  else if cinfo.compInfo.any badSampFactors then .error .badSampling
  else
    let maxH := cinfo.compInfo.foldl (fun m c => max m c.hSampFactor) 1
    let maxV := cinfo.compInfo.foldl (fun m c => max m c.vSampFactor) 1
    .ok { cinfo with
      maxHSampFactor := maxH
      maxVSampFactor := maxV
      compInfo := cinfo.compInfo.mapIdx (fun ci c =>
        componentDimensions cinfo.imageWidth cinfo.imageHeight maxH maxV { c with componentIndex := ci })
      totalImcuRows := jdivRoundUp cinfo.imageHeight (maxV * dctSize) }

def selectScanParameters (cinfo : JpegCompress) : Except JpegError JpegCompress :=
  if maxCompsInScan < cinfo.compInfo.length then
    .error (.componentCount cinfo.compInfo.length maxCompsInScan)
  else .ok { cinfo with curCompInfo := List.range cinfo.compInfo.length }

/-- A noninterleaved scan has one block per MCU. -/
def untiledGeometry (c : JpegComponentInfo) : JpegComponentInfo :=
  { c with
    mcuWidth := 1
    mcuHeight := 1
    mcuBlocks := 1
    mcuSampleWidth := dctSize
    lastColWidth := 1
    lastRowHeight := lastGroup c.heightInBlocks c.vSampFactor }

/-- Restarts are specified in MCU rows and counted in MCUs, with 16 bits. -/
def convertRestart (cinfo : JpegCompress) : JpegCompress :=
  if 0 < cinfo.restartInRows then
    { cinfo with restartInterval := min (cinfo.restartInRows * cinfo.mcusPerRow) 65535 }
  else cinfo

def perScanSetup (cinfo : JpegCompress) : JpegCompress × Option JpegError :=
  match cinfo.curCompInfo with
  | [idx] =>
    let compptr := untiledGeometry (cinfo.comp idx)
    (convertRestart { cinfo with
      compInfo := cinfo.compInfo.set idx compptr
      mcusPerRow := compptr.widthInBlocks
      mcuRowsInScan := compptr.heightInBlocks
      blocksInMcu := 1
      mcuMembership := cinfo.mcuMembership ++ [(0, 0)] }, none)
  | _ => match interleavedSetup cMaxBlocksInMcu cinfo.toScanLayout with
    | (layout, none) => (convertRestart { cinfo with toScanLayout := layout }, none)
    | (layout, some e) => ({ cinfo with toScanLayout := layout }, some e)

section SingleComponent
variable (f : SingleComponentFrame)

def request : JpegCompress where
  imageWidth := f.width
  imageHeight := f.height
  inputComponents := 1
  dataPrecision := bitsInJsample
  compInfo := [{ componentIndex := 0, hSampFactor := f.h, vSampFactor := f.v }]
  curCompInfo := []

def selected : JpegCompress :=
  { request f with
    compInfo := [f.component]
    curCompInfo := [0]
    maxHSampFactor := f.h
    maxVSampFactor := f.v
    totalImcuRows := f.mcuRows }

def compressing : JpegCompress :=
  { selected f with
    compInfo := [untiledGeometry f.component]
    mcusPerRow := f.widthInBlocks
    mcuRowsInScan := f.heightInBlocks
    blocksInMcu := 1
    mcuMembership := [(0, 0)] }

theorem setup_request : (do
    let cinfo ← initialSetup (request f)
    let cinfo ← selectScanParameters cinfo
    pure (perScanSetup cinfo)) = Except.ok (compressing f, none) := by
  have hh := f.h_pos
  have hv := f.v_pos
  have hw := f.width_le
  have hht := f.height_le
  have hwpos := f.width_pos
  have hhpos := f.height_pos
  have hrow : u32 f.width = f.width := by
    simp only [jpegMaxDimension] at hw
    exact u32_of_lt (by omega)
  have hsetup : initialSetup (request f) = .ok { selected f with curCompInfo := [] } := by
    simp [initialSetup, request, badSampFactors_frame, hw, hht, maxComponents, selected, hrow,
      SingleComponentFrame.component, SingleComponentFrame.widthInBlocks,
      SingleComponentFrame.heightInBlocks, SingleComponentFrame.mcuRows, componentDimensions,
      jdivRoundUp_mul_left _ hh, jdivRoundUp_mul_left _ hv, hh, hv, Nat.ne_of_gt hwpos, Nat.ne_of_gt hhpos]
  rw [hsetup]
  rfl

end SingleComponent

end Jp4Tools.CompressorSetup
