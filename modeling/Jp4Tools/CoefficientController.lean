import Jp4Tools.CountedLoops
import Jp4Tools.JpegFrameSetup

/-!
# The coefficient buffer controller of the patched decompressor

`decompressOnepass` emits one iMCU row per call: it fetches the MCUs of the row from the
entropy decoder and sends their real blocks to the inverse DCT. Its effect on the output
buffer is the log of inverse DCT calls. The entropy decoder may suspend; the counters then
say where the next call goes on.
-/

namespace Jp4Tools.CoefficientController
open CountedLoops JpegFrameSetup

/-- The entropy decoder: the blocks of the MCUs in stream order, and whether a call of
`decode_mcu` finds enough data. -/
structure EntropyDecoder (β : Type*) where
  mcu : ℕ → ℕ → β
  available : ℕ → Bool

/-- A call of the inverse DCT. `outputRow` and `outputCol` are the place of its first sample
in the output buffer, which holds the iMCU row `imcuRow`; `mcu` counts the MCUs of the scan. -/
structure IdctCall (β : Type*) where
  mcu : ℕ
  blkn : ℕ
  coefBlock : β
  component : ℕ
  imcuRow : ℕ
  outputRow : ℕ
  outputCol : ℕ

inductive ReturnCode where
  | suspended
  | rowCompleted
  | scanCompleted
  deriving DecidableEq, Repr

/-- The counters of `my_coef_controller` and of the decompressor, the number of calls of
`decode_mcu`, the number of MCUs they delivered, and the inverse DCT calls so far. -/
structure DecodeState (β : Type*) where
  inputImcuRow : ℕ
  outputImcuRow : ℕ
  mcuCtr : ℕ
  mcuVertOffset : ℕ
  mcuRowsPerImcuRow : ℕ
  decodeCalls : ℕ
  mcusDecoded : ℕ
  idctCalls : List (IdctCall β)

variable {β : Type*}

def startImcuRow (cinfo : JpegDecompress) (s : DecodeState β) : DecodeState β :=
  let compptr := cinfo.comp (cinfo.curCompInfo.headD 0)
  let s := if 1 < cinfo.curCompInfo.length then { s with mcuRowsPerImcuRow := 1 }
    else if s.inputImcuRow < cinfo.totalImcuRows - 1 then
      { s with mcuRowsPerImcuRow := compptr.vSampFactor }
    else { s with mcuRowsPerImcuRow := compptr.lastRowHeight }
  -- Elphel JP4: force one row per MCU row
  { s with mcuRowsPerImcuRow := 1, mcuCtr := 0, mcuVertOffset := 0 }

def startInputPass (cinfo : JpegDecompress) (s : DecodeState β) : DecodeState β :=
  startImcuRow cinfo { s with inputImcuRow := 0 }

def startOutputPass (s : DecodeState β) : DecodeState β := { s with outputImcuRow := 0 }

/-- The `xindex` loop: the useful blocks of one block row of an MCU. -/
def idctBlockRow (n : ℕ) (blocks : ℕ → β) (compptr : JpegComponentInfo)
    (imcuRow blkn outputRow startCol usefulWidth : ℕ) : List (IdctCall β) :=
  forLoop (fun s : ℕ × ℕ => decide (s.1 < usefulWidth))
    (fun s => (s.1 + 1, s.2 + compptr.dctScaledSize))
    (fun s => [⟨n, blkn + s.1, blocks (blkn + s.1), compptr.componentIndex, imcuRow,
      outputRow, s.2⟩])
    usefulWidth (0, startCol)

/-- The `yindex` loop: the block rows of one component of an MCU; rows of dummy blocks at the
bottom edge are skipped. The loop carries `yindex`, `blkn` and the row of `output_ptr`. -/
def idctComponent (cinfo : JpegDecompress) (n : ℕ) (blocks : ℕ → β) (compptr : JpegComponentInfo)
    (imcuRow yoffset mcuColNum blkn : ℕ) : List (IdctCall β) :=
  let usefulWidth :=
    if mcuColNum < cinfo.mcusPerRow - 1 then compptr.mcuWidth else compptr.lastColWidth
  let startCol := mcuColNum * compptr.mcuSampleWidth
  forLoop (fun s : ℕ × ℕ × ℕ => decide (s.1 < compptr.mcuHeight))
    (fun s => (s.1 + 1, s.2.1 + compptr.mcuWidth, s.2.2 + compptr.dctScaledSize))
    (fun s => if imcuRow < cinfo.totalImcuRows - 1 ∨ yoffset + s.1 < compptr.lastRowHeight then
        idctBlockRow n blocks compptr imcuRow s.2.1 s.2.2 startCol usefulWidth
      else [])
    compptr.mcuHeight (0, blkn, yoffset * compptr.dctScaledSize)

/-- The components of one MCU; `blkn` runs past the blocks of unneeded components. -/
def idctComponents (cinfo : JpegDecompress) (n : ℕ) (blocks : ℕ → β)
    (imcuRow yoffset mcuColNum : ℕ) : ℕ → List ℕ → List (IdctCall β)
  | _, [] => []
  | blkn, idx :: scan =>
    let compptr := cinfo.comp idx
    if compptr.componentNeeded then
      idctComponent cinfo n blocks compptr imcuRow yoffset mcuColNum blkn ++
        idctComponents cinfo n blocks imcuRow yoffset mcuColNum
          (blkn + compptr.mcuHeight * compptr.mcuWidth) scan
    else idctComponents cinfo n blocks imcuRow yoffset mcuColNum (blkn + compptr.mcuBlocks) scan

/-- The `MCU_col_num` loop. It gives `false` when the entropy decoder suspends. -/
def decodeColumns (d : EntropyDecoder β) (cinfo : JpegDecompress) (yoffset : ℕ) :
    ℕ → ℕ → DecodeState β → Bool × DecodeState β
  | 0, _, s => (true, s)
  | fuel + 1, mcuColNum, s =>
    if mcuColNum ≤ cinfo.mcusPerRow - 1 then
      if d.available s.decodeCalls then
        decodeColumns d cinfo yoffset fuel (mcuColNum + 1)
          { s with
            decodeCalls := s.decodeCalls + 1
            mcusDecoded := s.mcusDecoded + 1
            idctCalls := s.idctCalls ++ idctComponents cinfo s.mcusDecoded (d.mcu s.mcusDecoded)
              s.inputImcuRow yoffset mcuColNum 0 cinfo.curCompInfo }
      else (false,
        { s with
          decodeCalls := s.decodeCalls + 1
          mcuVertOffset := yoffset
          mcuCtr := mcuColNum })
    else (true, s)

def decodeRows (d : EntropyDecoder β) (cinfo : JpegDecompress) :
    ℕ → ℕ → DecodeState β → Bool × DecodeState β
  | 0, _, s => (true, s)
  | fuel + 1, yoffset, s =>
    if yoffset < s.mcuRowsPerImcuRow then
      match decodeColumns d cinfo yoffset cinfo.mcusPerRow s.mcuCtr s with
      | (true, s) => decodeRows d cinfo fuel (yoffset + 1) { s with mcuCtr := 0 }
      | (false, s) => (false, s)
    else (true, s)

def decompressOnepass (d : EntropyDecoder β) (cinfo : JpegDecompress) (s : DecodeState β) :
    ReturnCode × DecodeState β :=
  match decodeRows d cinfo s.mcuRowsPerImcuRow s.mcuVertOffset s with
  | (false, s) => (.suspended, s)
  | (true, s) =>
    let s := { s with
      outputImcuRow := s.outputImcuRow + 1
      inputImcuRow := s.inputImcuRow + 1 }
    if s.inputImcuRow < cinfo.totalImcuRows then (.rowCompleted, startImcuRow cinfo s)
    else (.scanCompleted, s)

def decodeScan (d : EntropyDecoder β) (cinfo : JpegDecompress) :
    ℕ → DecodeState β → Option (DecodeState β)
  | 0, _ => none
  | fuel + 1, s => match decompressOnepass d cinfo s with
    | (.scanCompleted, s) => some s
    | (_, s) => decodeScan d cinfo fuel s

def blank : DecodeState β := ⟨0, 0, 0, 0, 0, 0, 0, []⟩

def started (cinfo : JpegDecompress) : DecodeState β :=
  startOutputPass (startInputPass cinfo blank)

@[simp] theorem startImcuRow_eq (cinfo : JpegDecompress) (s : DecodeState β) :
    startImcuRow cinfo s =
      { s with mcuRowsPerImcuRow := 1, mcuCtr := 0, mcuVertOffset := 0 } := by
  simp only [startImcuRow]
  split_ifs <;> rfl

end Jp4Tools.CoefficientController
