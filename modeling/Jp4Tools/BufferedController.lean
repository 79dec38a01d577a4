import Jp4Tools.MainController

/-!
# The full-image coefficient buffer

In the multi-pass modes `consumeData` stores the blocks of a scan in virtual arrays, and
`decompressData` sends the blocks of one iMCU row to the inverse DCT, after it has forced the input
that it needs. The entropy decoder stores nonzero coefficients only, so that the arrays have to be
zero before; a suspended call may have stored a part of them.
-/

namespace Jp4Tools.BufferedController
open CountedLoops WriteLogs JpegFrameSetup CoefficientController MainController

abbrev CoefBlock := ℕ → ℤ

def zeroBlock : CoefBlock := fun _ => 0

/-- The entropy decoder: the coefficients that each block of each MCU gets, in the order of their
stores; whether a call of `decode_mcu` finds enough data; and how many of the stores to each block a
suspended call has made. -/
structure CoefDecoder where
  coefStores : ℕ → ℕ → List (ℕ × ℤ)
  available : ℕ → Bool
  begun : ℕ → ℕ → ℕ

def CoefDecoder.decodedBlock (d : CoefDecoder) (n b : ℕ) : CoefBlock := replay (d.coefStores n b) zeroBlock

def CoefDecoder.onepass (d : CoefDecoder) (available : ℕ → Bool) : EntropyDecoder CoefBlock where
  mcu := d.decodedBlock
  available := available

structure BlockPtr where
  component : ℕ
  row : ℕ
  col : ℕ
  deriving DecidableEq

/-- The state of the controller with the virtual arrays, and the scan numbers of both sides. -/
structure BufferedState extends DecodeState CoefBlock where
  inputScanNumber : ℕ
  outputScanNumber : ℕ
  wholeImage : BlockPtr → CoefBlock

/-- The stores of one MCU to the blocks that `MCU_buffer` points at. -/
def storeBlocks (stores : ℕ → List (ℕ × ℤ)) : ℕ → List BlockPtr → (BlockPtr → CoefBlock) →
    (BlockPtr → CoefBlock)
  | _, [], wholeImage => wholeImage
  | blkn, ptr :: mcuBuffer, wholeImage =>
    storeBlocks stores (blkn + 1) mcuBuffer
      (Function.update wholeImage ptr (replay (stores blkn) (wholeImage ptr)))

def decodeMcu (d : CoefDecoder) (s : BufferedState) (mcuBuffer : List BlockPtr) : Bool × BufferedState :=
  let stores := d.coefStores s.mcusDecoded
  if d.available s.decodeCalls then
    (true,
      { s with
        decodeCalls := s.decodeCalls + 1
        mcusDecoded := s.mcusDecoded + 1
        wholeImage := storeBlocks stores 0 mcuBuffer s.wholeImage })
  else
    (false,
      { s with
        decodeCalls := s.decodeCalls + 1
        wholeImage := storeBlocks (fun b => (stores b).take (d.begun s.decodeCalls b)) 0 mcuBuffer
          s.wholeImage })

def mcuBuffer (cinfo : JpegDecompress) (imcuRow yoffset mcuColNum : ℕ) : List BlockPtr :=
  cinfo.curCompInfo.flatMap fun idx =>
    let compptr := cinfo.comp idx
    let startCol := mcuColNum * compptr.mcuWidth
    forLoop (fun yindex => decide (yindex < compptr.mcuHeight)) (· + 1)
      (fun yindex =>
        forLoop (fun s : ℕ × ℕ => decide (s.1 < compptr.mcuWidth)) (fun s => (s.1 + 1, s.2 + 1))
          (fun s => [⟨compptr.componentIndex, imcuRow * compptr.vSampFactor + (yindex + yoffset), s.2⟩])
          compptr.mcuWidth (0, startCol))
      compptr.mcuHeight 0

/-- The `MCU_col_num` loop of `consume_data`. It gives `false` when the entropy decoder suspends. -/
def consumeColumns (d : CoefDecoder) (cinfo : JpegDecompress) (yoffset : ℕ) :
    ℕ → ℕ → BufferedState → Bool × BufferedState
  | 0, _, s => (true, s)
  | fuel + 1, mcuColNum, s =>
    if mcuColNum < cinfo.mcusPerRow then
      match decodeMcu d s (mcuBuffer cinfo s.inputImcuRow yoffset mcuColNum) with
      | (true, s) => consumeColumns d cinfo yoffset fuel (mcuColNum + 1) s
      | (false, s) => (false, { s with mcuVertOffset := yoffset, mcuCtr := mcuColNum })
    else (true, s)

def consumeRows (d : CoefDecoder) (cinfo : JpegDecompress) :
    ℕ → ℕ → BufferedState → Bool × BufferedState
  | 0, _, s => (true, s)
  | fuel + 1, yoffset, s =>
    if yoffset < s.mcuRowsPerImcuRow then
      match consumeColumns d cinfo yoffset cinfo.mcusPerRow s.mcuCtr s with
      | (true, s) => consumeRows d cinfo fuel (yoffset + 1) { s with mcuCtr := 0 }
      | (false, s) => (false, s)
    else (true, s)

def consumeData (d : CoefDecoder) (cinfo : JpegDecompress) (s : BufferedState) :
    ReturnCode × BufferedState :=
  match consumeRows d cinfo s.mcuRowsPerImcuRow s.mcuVertOffset s with
  | (false, s) => (.suspended, s)
  | (true, s) =>
    let s := { s with inputImcuRow := s.inputImcuRow + 1 }
    if s.inputImcuRow < cinfo.totalImcuRows then
      (.rowCompleted, { s with toDecodeState := startImcuRow cinfo s.toDecodeState })
    else (.scanCompleted, s)

/-- The loop of `decompress_data` that forces some input. While the scan goes on, the input
controller's `consume_input` is `consume_data`. -/
def forceInput (d : CoefDecoder) (cinfo : JpegDecompress) : ℕ → BufferedState → Bool × BufferedState
  | 0, s => (true, s)
  | fuel + 1, s =>
    if s.inputScanNumber < s.outputScanNumber ∨
        s.inputScanNumber = s.outputScanNumber ∧ s.inputImcuRow ≤ s.outputImcuRow then
      match consumeData d cinfo s with
      | (.suspended, s) => (false, s)
      | (_, s) => forceInput d cinfo fuel s
    else (true, s)

/-- The `block_num` loop: the blocks of one row of the virtual array. The output side does not know
the MCUs of the blocks. -/
def emitBlockRow (wholeImage : BlockPtr → CoefBlock) (compptr : JpegComponentInfo)
    (ci imcuRow row outputRow : ℕ) : List (IdctCall CoefBlock) :=
  forLoop (fun s : ℕ × ℕ => decide (s.1 < compptr.widthInBlocks))
    (fun s => (s.1 + 1, s.2 + compptr.dctScaledSize))
    (fun s => [⟨0, 0, wholeImage ⟨ci, row, s.1⟩, ci, imcuRow, outputRow, s.2⟩])
    compptr.widthInBlocks (0, 0)

def emitComponent (cinfo : JpegDecompress) (wholeImage : BlockPtr → CoefBlock)
    (compptr : JpegComponentInfo) (ci imcuRow : ℕ) : List (IdctCall CoefBlock) :=
  let blockRows :=
    if imcuRow < cinfo.totalImcuRows - 1 then compptr.vSampFactor
    else
      let blockRows := compptr.heightInBlocks % compptr.vSampFactor
      if blockRows = 0 then compptr.vSampFactor else blockRows
  forLoop (fun s : ℕ × ℕ => decide (s.1 < blockRows))
    (fun s => (s.1 + 1, s.2 + compptr.dctScaledSize))
    (fun s => emitBlockRow wholeImage compptr ci imcuRow (imcuRow * compptr.vSampFactor + s.1) s.2)
    blockRows (0, 0)

def emitComponents (cinfo : JpegDecompress) (wholeImage : BlockPtr → CoefBlock) (imcuRow : ℕ) :
    ℕ → List JpegComponentInfo → List (IdctCall CoefBlock)
  | _, [] => []
  | ci, compptr :: comps =>
    (if compptr.componentNeeded then emitComponent cinfo wholeImage compptr ci imcuRow else []) ++
      emitComponents cinfo wholeImage imcuRow (ci + 1) comps

def decompressData (d : CoefDecoder) (cinfo : JpegDecompress) (s : BufferedState) :
    ReturnCode × BufferedState :=
  match forceInput d cinfo cinfo.totalImcuRows s with
  | (false, s) => (.suspended, s)
  | (true, s) =>
    let s :=
      { s with
        idctCalls := s.idctCalls ++
          emitComponents cinfo s.wholeImage s.outputImcuRow 0 cinfo.compInfo
        outputImcuRow := s.outputImcuRow + 1 }
    if s.outputImcuRow < cinfo.totalImcuRows then (.rowCompleted, s) else (.scanCompleted, s)

def startedBuffered (cinfo : JpegDecompress) : BufferedState :=
  { started cinfo with
    inputScanNumber := 1
    outputScanNumber := 1
    wholeImage := fun _ => zeroBlock }

inductive ControllerCall where
  | consumeData
  | decompressData
  deriving DecidableEq, Repr

def callController (d : CoefDecoder) (cinfo : JpegDecompress) (s : BufferedState) :
    ControllerCall → BufferedState
  | .consumeData => if s.inputImcuRow < cinfo.totalImcuRows then (consumeData d cinfo s).2 else s
  | .decompressData => if s.outputImcuRow < cinfo.totalImcuRows then (decompressData d cinfo s).2 else s

/-- The application decides when input is consumed and when an iMCU row is asked for. -/
def bufferedRun (d : CoefDecoder) (cinfo : JpegDecompress) (calls : List ControllerCall) : BufferedState :=
  calls.foldl (callController d cinfo) (startedBuffered cinfo)

def outputBuffer {α : Type*} (idct : CoefBlock → ℕ → ℕ → α) (init : ℕ × ℕ → α) (ci k : ℕ)
    (idctCalls : List (IdctCall CoefBlock)) : ℕ × ℕ → α :=
  replay ((idctCalls.filter (fun call => call.component = ci ∧ call.imcuRow = k)).flatMap (idctWrites idct))
    init

section StoreBlocks
variable (stores : ℕ → List (ℕ × ℤ)) {ptr : BlockPtr} {buffer : List BlockPtr}

theorem storeBlocks_of_notMem (hptr : ptr ∉ buffer) (blkn : ℕ) (wholeImage : BlockPtr → CoefBlock) :
    storeBlocks stores blkn buffer wholeImage ptr = wholeImage ptr := by
  induction buffer generalizing blkn wholeImage with
  | nil => rfl
  | cons ptr' buffer ih =>
    obtain ⟨hne, htail⟩ := not_or.mp (fun h => hptr (List.mem_cons.mpr h))
    rw [storeBlocks, ih htail, Function.update_of_ne hne]

theorem storeBlocks_of_getElem? (hnodup : buffer.Nodup) {i : ℕ} (hi : buffer[i]? = some ptr) (blkn : ℕ)
    (wholeImage : BlockPtr → CoefBlock) :
    storeBlocks stores blkn buffer wholeImage ptr = replay (stores (blkn + i)) (wholeImage ptr) := by
  induction buffer generalizing i blkn wholeImage with
  | nil => cases hi
  | cons ptr' buffer ih =>
    obtain ⟨hhead, htail⟩ := List.nodup_cons.mp hnodup
    cases i with
    | zero =>
      obtain rfl : ptr' = ptr := Option.some.inj hi
      rw [storeBlocks, storeBlocks_of_notMem stores hhead, Function.update_self, Nat.add_zero]
    | succ i =>
      have hne : ptr ≠ ptr' := fun h => hhead (h ▸ List.mem_of_getElem? hi)
      rw [storeBlocks, ih htail hi, Function.update_of_ne hne, Nat.add_assoc, Nat.add_comm 1 i]

end StoreBlocks

end Jp4Tools.BufferedController
