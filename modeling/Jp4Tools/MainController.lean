import Jp4Tools.CoefficientController
import Jp4Tools.WriteLogs

/-!
# From coefficient blocks to scanlines

The main controller keeps one iMCU row of samples, asks the coefficient controller for the
next one when it is used up, and hands the rows to the upsampler. A component of full size is
not resampled, and the conversions to grayscale copy its rows.
-/

namespace Jp4Tools.MainController
open JpegFrameSetup CoefficientController WriteLogs

variable {α β : Type*}

/-- Columns and rows of the workspace that `jinit_d_main_controller` allocates for a component
when no context rows are needed. -/
def mainBufferSize (cinfo : JpegDecompress) (compptr : JpegComponentInfo) : ℕ × ℕ :=
  let rgroup := compptr.vSampFactor * compptr.dctScaledSize / cinfo.minDctScaledSize
  (compptr.widthInBlocks * compptr.dctScaledSize, rgroup * cinfo.minDctScaledSize)

def idctWrites (idct : β → ℕ → ℕ → α) (call : IdctCall β) : List ((ℕ × ℕ) × α) :=
  (List.range dctSize).flatMap (fun u => (List.range dctSize).map (fun w =>
    ((call.outputRow + u, call.outputCol + w), idct call.coefBlock u w)))

def mainBuffer (idct : β → ℕ → ℕ → α) (init : ℕ × ℕ → α) (ci : ℕ) (s : DecodeState β) :
    ℕ × ℕ → α :=
  replay ((s.idctCalls.filter (fun call => call.component = ci)).flatMap (idctWrites idct)) init

/-- The state of the main controller and of the upsampler; `colorBuf` is the row of the
workspace that `color_buf[0]` points at. -/
structure MainState (β : Type*) where
  decode : DecodeState β
  bufferFull : Bool
  rowgroupCtr : ℕ
  nextRowOut : ℕ
  rowsToGo : ℕ
  colorBuf : ℕ
  outputScanline : ℕ

/-- The state after `jpeg_start_decompress`: `start_pass_main` and `start_pass_upsample`. -/
def startDecompress (cinfo : JpegDecompress) : MainState β where
  decode := started cinfo
  bufferFull := false
  rowgroupCtr := 0
  nextRowOut := cinfo.maxVSampFactor
  rowsToGo := cinfo.imageHeight
  colorBuf := 0
  outputScanline := 0

/-- `sep_upsample` for a full-size component 0 with a converter that copies rows: at most
`outRowsAvail` rows of the current row group are emitted. -/
def sepUpsample (cinfo : JpegDecompress) (buffer : ℕ × ℕ → α) (s : MainState β)
    (outRowsAvail : ℕ) : List (ℕ → α) × MainState β :=
  let compptr := cinfo.comp 0
  let rowgroupHeight := compptr.vSampFactor * compptr.dctScaledSize / cinfo.minDctScaledSize
  let s := if cinfo.maxVSampFactor ≤ s.nextRowOut then
      { s with colorBuf := s.rowgroupCtr * rowgroupHeight, nextRowOut := 0 } else s
  let numRows := min (min (cinfo.maxVSampFactor - s.nextRowOut) s.rowsToGo) outRowsAvail
  let rows := (List.range numRows).map (fun i x => buffer (s.colorBuf + s.nextRowOut + i, x))
  let s := { s with rowsToGo := s.rowsToGo - numRows, nextRowOut := s.nextRowOut + numRows }
  if cinfo.maxVSampFactor ≤ s.nextRowOut then (rows, { s with rowgroupCtr := s.rowgroupCtr + 1 })
  else (rows, s)

/-- The first half of `process_data_simple_main`: `false` when the decoder suspends. -/
def fillBuffer (d : EntropyDecoder β) (cinfo : JpegDecompress) (s : MainState β) :
    Bool × MainState β :=
  if s.bufferFull then (true, s)
  else match decompressOnepass d cinfo s.decode with
    | (.suspended, decode) => (false, { s with decode })
    | (_, decode) => (true, { s with decode, bufferFull := true })

def processDataSimpleMain (d : EntropyDecoder β) (idct : β → ℕ → ℕ → α) (init : ℕ × ℕ → α)
    (cinfo : JpegDecompress) (s : MainState β) (outRowsAvail : ℕ) :
    List (ℕ → α) × MainState β :=
  match fillBuffer d cinfo s with
  | (false, s) => ([], s)
  | (true, s) =>
    let (rows, s) := sepUpsample cinfo (mainBuffer idct init 0 s.decode) s outRowsAvail
    if cinfo.minDctScaledSize ≤ s.rowgroupCtr then
      (rows, { s with bufferFull := false, rowgroupCtr := 0 })
    else (rows, s)

def jpegReadScanlines (d : EntropyDecoder β) (idct : β → ℕ → ℕ → α) (init : ℕ × ℕ → α)
    (cinfo : JpegDecompress) (s : MainState β) (maxLines : ℕ) : List (ℕ → α) × MainState β :=
  if cinfo.imageHeight ≤ s.outputScanline then ([], s)
  else
    let (rows, s) := processDataSimpleMain d idct init cinfo s maxLines
    (rows, { s with outputScanline := s.outputScanline + rows.length })

end Jp4Tools.MainController
