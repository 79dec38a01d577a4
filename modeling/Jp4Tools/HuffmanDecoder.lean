import Jp4Tools.CoefficientBits
import Jp4Tools.RestartMarkers

/-!
# The Huffman entropy decoder

`decodeMcu` decodes the blocks of an MCU into blocks that were zero before. Coefficients that
nobody needs are passed over. At the end of a restart interval the decoder goes on behind the next
restart marker; when the data of an interval run out the rest of its MCUs stays zero.
-/

namespace Jp4Tools.HuffmanDecoder
open BitStrings ByteStuffing CoefficientBits CompressionController HuffmanTables MachineIntegers
  StdioManagers BitReader RestartMarkers

/-- What the decoder reads of `cinfo`: the scan as the encoder has it, its parameters, and the use that
is made of the components. -/
structure DecoderScan extends EntropyScan where
  ss : ℕ
  se : ℕ
  ah : ℕ
  al : ℕ
  componentNeeded : ℕ → Bool
  dctScaledSize : ℕ → ℕ

/-- `huff_entropy_decoder`, with the source and the restart fields of the marker reader. -/
structure HuffDecoder where
  reader : Reader
  marker : MarkerState
  lastDcVal : ℕ → ℤ
  restartsToGo : ℕ
  dcDerivedTbls : ℕ → DDerivedTbl
  acDerivedTbls : ℕ → DDerivedTbl

def jcoef (s : ℤ) : ℤ := s.bmod (2 ^ 16)

/-- Whether the coefficients of a component are wanted; a 1/8th-size image needs no ACs. -/
def DecoderScan.dcNeeded (cinfo : DecoderScan) (ci : ℕ) : Bool := cinfo.componentNeeded ci

def DecoderScan.acNeeded (cinfo : DecoderScan) (ci : ℕ) : Bool :=
  cinfo.componentNeeded ci && decide (1 < cinfo.dctScaledSize ci)

def zeroMcu : ℕ → JBlock := fun _ _ => 0

section Blocks

def fetchValue (s : ℕ) (r : Reader) : ℤ × Reader :=
  let (x, r) := fetchBits s r
  (huffExtend x s, r)

def decodeDc (dctbl : DDerivedTbl) (r : Reader) : ℤ × Reader :=
  let (s, r) := huffDecode dctbl r
  if s ≠ 0 then fetchValue s r else (0, r)

/-- `for (k = 1; k < DCTSIZE2; k++)`: the AC coefficients. Every round moves `k` on. -/
def decodeAcs (actbl : DDerivedTbl) : ℕ → ℕ → JBlock → Reader → JBlock × Reader
  | 0, _, block, r => (block, r)
  | fuel + 1, k, block, r =>
    if k < dctSize2 then
      let (rs, r) := huffDecode actbl r
      let run := rs >>> 4
      let s := rs &&& 15
      if s ≠ 0 then
        let k := k + run
        let (value, r) := fetchValue s r
        decodeAcs actbl fuel (k + 1) (Function.update block (naturalOrder k) (jcoef value)) r
      else if run ≠ 15 then (block, r)
      else decodeAcs actbl fuel (k + 15 + 1) block r
    else (block, r)

def skipAcs (actbl : DDerivedTbl) : ℕ → ℕ → Reader → Reader
  | 0, _, r => r
  | fuel + 1, k, r =>
    if k < dctSize2 then
      let (rs, r) := huffDecode actbl r
      let run := rs >>> 4
      let s := rs &&& 15
      if s ≠ 0 then
        let k := k + run
        skipAcs actbl fuel (k + 1) (dropBits s (checkBitBuffer s r))
      else if run ≠ 15 then r
      else skipAcs actbl fuel (k + 15 + 1) r
    else r

structure BlockState where
  block : JBlock
  lastDcVal : ℤ
  reader : Reader

def decodeRest (acNeeded : Bool) (actbl : DDerivedTbl) (block : JBlock) (r : Reader) : JBlock × Reader :=
  if acNeeded then decodeAcs actbl dctSize2 1 block r else (block, skipAcs actbl dctSize2 1 r)

def decodeBlock (dcNeeded acNeeded : Bool) (dctbl actbl : DDerivedTbl) (lastDcVal : ℤ) (r : Reader) :
    BlockState :=
  let (s, r) := decodeDc dctbl r
  if dcNeeded then
    let s := i32 (s + lastDcVal)
    let (block, r) := decodeRest acNeeded actbl (Function.update (fun _ => 0) 0 (jcoef s)) r
    { block := block, lastDcVal := s, reader := r }
  else
    let (block, r) := decodeRest acNeeded actbl (fun _ => 0) r
    { block := block, lastDcVal := lastDcVal, reader := r }

end Blocks

section Scan

/-- The blocks of one MCU, from block `blkn` on, into `mcuData`. -/
def decodeBlocks (cinfo : DecoderScan) (dcTbls acTbls : ℕ → DDerivedTbl) :
    ℕ → List ℕ → (ℕ → JBlock) × (ℕ → ℤ) × Reader → (ℕ → JBlock) × (ℕ → ℤ) × Reader
  | _, [], s => s
  | blkn, ci :: membership, (mcuData, lastDcVal, r) =>
    let b := decodeBlock (cinfo.dcNeeded ci) (cinfo.acNeeded ci) (dcTbls (cinfo.dcTblNo ci))
      (acTbls (cinfo.acTblNo ci)) (lastDcVal ci) r
    decodeBlocks cinfo dcTbls acTbls (blkn + 1) membership
      (Function.update mcuData blkn b.block, Function.update lastDcVal ci b.lastDcVal, b.reader)

def DecoderScan.Sequential (cinfo : DecoderScan) : Prop :=
  cinfo.ss = 0 ∧ cinfo.se = dctSize2 - 1 ∧ cinfo.ah = 0 ∧ cinfo.al = 0

instance (cinfo : DecoderScan) : Decidable cinfo.Sequential := inferInstanceAs (Decidable (_ ∧ _))

/-- Other parameters should be an error, but some files have zeros there. -/
def checkSequential (cinfo : DecoderScan) (warnings : List DecodeWarning) : List DecodeWarning :=
  if cinfo.Sequential then warnings else warnings ++ [.notSequential]

def startPassHuffDecoder (cinfo : DecoderScan) (source : Source) (warnings : List DecodeWarning) :
    Except HuffError HuffDecoder := do
  let tbls ← deriveTables (fun isDC => jpegMakeDDerivedTbl isDC (cinfo.tablePtrs isDC)) cinfo.toEntropyScan
    { maxcode := fun _ => 0, valoffset := fun _ => 0, pub := { bits := fun _ => 0, huffval := fun _ => 0 },
      lookNbits := fun _ => 0, lookSym := fun _ => 0 }
  .ok {
    -- `get_sos` has swallowed the marker and reset the restart number
    reader := {
      source := source
      unreadMarker := 0
      getBuffer := 0
      bitsLeft := 0
      insufficientData := false
      warnings := checkSequential cinfo warnings
      fits := by decide }
    marker := { nextRestartNum := 0, discardedBytes := 0 }
    lastDcVal := fun _ => 0
    restartsToGo := cinfo.restartInterval
    dcDerivedTbls := tbls.1
    acDerivedTbls := tbls.2 }

def processRestart (cinfo : DecoderScan) (entropy : HuffDecoder) : HuffDecoder :=
  let marker := { entropy.marker with
    discardedBytes := entropy.marker.discardedBytes + entropy.reader.bitsLeft / 8 }
  let reader := { entropy.reader with bitsLeft := 0, fits := Nat.zero_le _ }
  let (marker, reader) := readRestartMarker marker reader
  { entropy with
    marker := marker
    reader := if reader.unreadMarker = 0 then { reader with insufficientData := false } else reader
    lastDcVal := fun _ => 0
    restartsToGo := cinfo.restartInterval }

def resume (cinfo : DecoderScan) (entropy : HuffDecoder) : HuffDecoder :=
  if cinfo.restartInterval ≠ 0 ∧ entropy.restartsToGo = 0 then processRestart cinfo entropy else entropy

/-- `restarts_to_go--`, on an `unsigned int`. -/
def countDown (restartsToGo : ℕ) : ℕ := if restartsToGo = 0 then 2 ^ 32 - 1 else restartsToGo - 1

theorem countDown_pos {n : ℕ} (hpos : n ≠ 0) : countDown n = n - 1 := if_neg hpos

/-- The blocks of an MCU, which stay zero when the data of the segment have run out. -/
def decodeData (cinfo : DecoderScan) (entropy : HuffDecoder) : (ℕ → JBlock) × HuffDecoder :=
  if entropy.reader.insufficientData then (zeroMcu, entropy)
  else
    let s := decodeBlocks cinfo entropy.dcDerivedTbls entropy.acDerivedTbls 0 cinfo.mcuMembership
      (zeroMcu, entropy.lastDcVal, entropy.reader)
    (s.1, { entropy with lastDcVal := s.2.1, reader := s.2.2 })

/-- `decode_mcu`. The unsigned restart counter runs on when there are no restart intervals. -/
def decodeMcu (cinfo : DecoderScan) (entropy : HuffDecoder) : (ℕ → JBlock) × HuffDecoder :=
  let s := decodeData cinfo (resume cinfo entropy)
  (s.1, { s.2 with restartsToGo := countDown s.2.restartsToGo })

def decodeMcus (cinfo : DecoderScan) : ℕ → HuffDecoder → List (ℕ → JBlock) × HuffDecoder
  | 0, entropy => ([], entropy)
  | n + 1, entropy =>
    let mcu := decodeMcu cinfo entropy
    let later := decodeMcus cinfo n mcu.2
    (mcu.1 :: later.1, later.2)

end Scan

section AnyData
variable {rel : Reader → Reader → Prop}

theorem decodeDc_kept (h : Kept rel) (dctbl : DDerivedTbl) (r : Reader) : rel r (decodeDc dctbl r).2 := by
  have hsymbol := h.huffDecode dctbl r
  rw [decodeDc]
  dsimp only
  split_ifs with hs
  · exact h.trans hsymbol (h.fetchBits _ _)
  · exact hsymbol

theorem decodeAcs_kept (h : Kept rel) (actbl : DDerivedTbl) (fuel k : ℕ) (block : JBlock) (r : Reader) :
    rel r (decodeAcs actbl fuel k block r).2 := by
  induction fuel generalizing k block r with
  | zero => exact h.refl r
  | succ fuel ih =>
    have hsymbol := h.huffDecode actbl r
    rw [decodeAcs]
    split_ifs with hk
    · dsimp only
      split_ifs with hs hrun
      · exact h.trans hsymbol (h.trans (h.fetchBits _ _) (ih _ _ _))
      · exact hsymbol
      · exact h.trans hsymbol (ih _ _ _)
    · exact h.refl r

theorem skipAcs_eq (actbl : DDerivedTbl) (fuel k : ℕ) (block : JBlock) (r : Reader) :
    skipAcs actbl fuel k r = (decodeAcs actbl fuel k block r).2 := by
  induction fuel generalizing k block r with
  | zero => rfl
  | succ fuel ih =>
    rw [skipAcs, decodeAcs]
    split_ifs with hk
    · dsimp only
      split_ifs with hs hrun
      · exact ih _ _ _
      · rfl
      · exact ih _ _ _
    · rfl

theorem decodeBlock_kept (h : Kept rel) (dcNeeded acNeeded : Bool) (dctbl actbl : DDerivedTbl) (lastDcVal : ℤ)
    (r : Reader) : rel r (decodeBlock dcNeeded acNeeded dctbl actbl lastDcVal r).reader := by
  have hdc := decodeDc_kept h dctbl r
  have hrest : ∀ block r, rel r (decodeRest acNeeded actbl block r).2 := by
    intro block r
    rw [decodeRest]
    split_ifs with hac
    · exact decodeAcs_kept h actbl dctSize2 1 block r
    · rw [skipAcs_eq actbl dctSize2 1 block r]
      exact decodeAcs_kept h actbl dctSize2 1 block r
  rw [decodeBlock]
  dsimp only
  split_ifs with hneeded
  · exact h.trans hdc (hrest _ _)
  · exact h.trans hdc (hrest _ _)

/-- What holds across reading within a segment holds across the blocks of an MCU, whatever the data
are. -/
theorem decodeBlocks_kept (h : Kept rel) (cinfo : DecoderScan) (dcTbls acTbls : ℕ → DDerivedTbl)
    (membership : List ℕ) (blkn : ℕ) (s : (ℕ → JBlock) × (ℕ → ℤ) × Reader) :
    rel s.2.2 (decodeBlocks cinfo dcTbls acTbls blkn membership s).2.2 := by
  induction membership generalizing blkn s with
  | nil => exact h.refl _
  | cons ci membership ih =>
    obtain ⟨mcuData, lastDcVal, r⟩ := s
    have hblock := decodeBlock_kept h (cinfo.dcNeeded ci) (cinfo.acNeeded ci) (dcTbls (cinfo.dcTblNo ci))
      (acTbls (cinfo.acTblNo ci)) (lastDcVal ci) r
    rw [decodeBlocks]
    exact h.trans hblock (ih (blkn + 1) (_, _, BlockState.reader _))

end AnyData

end Jp4Tools.HuffmanDecoder
