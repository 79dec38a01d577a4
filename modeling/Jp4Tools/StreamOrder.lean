import Jp4Tools.CompressionController

/-!
# What the decompressor makes of the compressor's streams

The compressor emits the blocks of a single-component scan row after row; the decompressor
takes them tile after tile. Both orders agree exactly when the tiles are single block rows
that fill the width evenly, or when there is only one column of tiles of full width.
-/

namespace Jp4Tools.StreamOrder
open WriteLogs JpegFrameSetup CoefficientController TiledScanCoverage CompressionController

/-- The blocks that compressing a coefficient image emits, if the scan completes. -/
def encodeImage (f : SingleComponentFrame) (accepts : ℕ → Bool) (coefs : CoefficientImage)
    (mcuBuffer : ℕ → JBlock) (fuel : ℕ) : Option (List JBlock) :=
  match (do
    let cinfo ← CompressorSetup.initialSetup (CompressorSetup.request f)
    let cinfo ← CompressorSetup.selectScanParameters cinfo
    pure (CompressorSetup.perScanSetup cinfo)) with
  | Except.ok (cinfo, none) =>
    (encodeScan accepts cinfo coefs fuel (encoding cinfo mcuBuffer)).map EncodeState.emitted
  | _ => none

/-- A lossless entropy decoder on a sequence of blocks. Past its end it delivers anything. -/
def storedStream (blocksInMcu : ℕ) (stream : List JBlock) (exhausted : ℕ → JBlock) :
    EntropyDecoder JBlock where
  mcu n b := stream.getD (n * blocksInMcu + b) (exhausted (n * blocksInMcu + b))
  available _ := true

def decodeImage (f : SingleComponentFrame) (stream : List JBlock) (exhausted : ℕ → JBlock) :
    Option (List (IdctCall JBlock)) :=
  match initialSetup f.header with
  | .error _ => none
  | .ok cinfo => match perScanSetup cinfo with
    | (_, some _) => none
    | (cinfo, none) => (decodeScan (storedStream cinfo.blocksInMcu stream exhausted) cinfo
        cinfo.totalImcuRows (started cinfo)).map DecodeState.idctCalls

def RoundTrips (f : SingleComponentFrame) : Prop :=
  ∀ accepts coefs mcuBuffer fuel stream exhausted,
    encodeImage f accepts coefs mcuBuffer fuel = some stream →
    ∃ calls, decodeImage f stream exhausted = some calls ∧
      ∀ row < f.heightInBlocks, ∀ col < f.widthInBlocks,
        ∃ call ∈ calls, imageBlock f call = (row, col) ∧ call.coefBlock = coefs 0 row col

/-- The position in the stream from which the decompressor takes a block. -/
def streamIndex (f : SingleComponentFrame) (row col : ℕ) : ℕ :=
  mcuAt f row col * (f.h * f.v) + blknAt f row col

def SameOrder (f : SingleComponentFrame) : Prop :=
  ∀ row < f.heightInBlocks, ∀ col < f.widthInBlocks,
    streamIndex f row col = row * f.widthInBlocks + col

section Pipeline
variable {f : SingleComponentFrame}

theorem encodeImage_eq (accepts : ℕ → Bool) (coefs : CoefficientImage) (mcuBuffer : ℕ → JBlock)
    (fuel : ℕ) : encodeImage f accepts coefs mcuBuffer fuel =
      (encodeScan accepts (CompressorSetup.compressing f) coefs fuel
        (encoding (CompressorSetup.compressing f) mcuBuffer)).map EncodeState.emitted := by
  rw [encodeImage, CompressorSetup.setup_request]

theorem encoding_start (coefs : CoefficientImage) (mcuBuffer : ℕ → JBlock) :
    Encoding f coefs (encoding (CompressorSetup.compressing f) mcuBuffer) := by
  refine .inl ⟨?_, encodeInvariant_encoding f coefs mcuBuffer⟩
  rw [encoding, startPassCoef, CompressionController.startImcuRow_eq]
  exact mcuRows_pos f

theorem encodeImage_some {accepts : ℕ → Bool} {coefs : CoefficientImage} {mcuBuffer : ℕ → JBlock}
    {fuel : ℕ} {stream : List JBlock}
    (h : encodeImage f accepts coefs mcuBuffer fuel = some stream) :
    stream = rasterBlocks f coefs (f.heightInBlocks * f.widthInBlocks) := by
  rw [encodeImage_eq] at h
  obtain ⟨s, hs, rfl⟩ := Option.map_eq_some_iff.mp h
  exact encodeScan_emitted fuel (encoding_start coefs mcuBuffer) hs

theorem encodeImage_completes (coefs : CoefficientImage) (mcuBuffer : ℕ → JBlock) :
    encodeImage f (fun _ => true) coefs mcuBuffer f.mcuRows =
      some (rasterBlocks f coefs (f.heightInBlocks * f.widthInBlocks)) := by
  obtain ⟨s, hs⟩ := encodeScan_terminates (fun _ => rfl) f.mcuRows (encoding_start (f := f) coefs mcuBuffer)
    (Nat.le_add_left _ _)
  have h : encodeImage f (fun _ => true) coefs mcuBuffer f.mcuRows = some s.emitted := by
    rw [encodeImage_eq, hs, Option.map_some]
  rw [h, encodeImage_some h]

theorem decodeImage_fits (hf : f.h * f.v ≤ dMaxBlocksInMcu) (stream : List JBlock)
    (exhausted : ℕ → JBlock) :
    decodeImage f stream exhausted = some ((List.range (f.mcuRows * f.mcusPerRow)).flatMap
      (mcuCalls f (storedStream (f.h * f.v) stream exhausted))) := by
  have hstart := scanInvariant_started f (storedStream (f.h * f.v) stream exhausted)
  obtain ⟨s, hs⟩ := decodeScan_terminates (fun _ => rfl) f.mcuRows hstart (Nat.le_add_left _ _)
  have hp := decodeScan_progress _ hstart hs
  have hscan : decodeImage f stream exhausted = (decodeScan (storedStream (f.h * f.v) stream exhausted)
      f.scanning f.mcuRows (started f.scanning)).map DecodeState.idctCalls := by
    simp only [decodeImage, initialSetup_header, perScanSetup_fits f hf]
    rfl
  rw [hscan, hs, Option.map_some, hp.log, hp.decoded, Nat.add_zero]

theorem decodeImage_tooBig (hf : dMaxBlocksInMcu < f.h * f.v) (stream : List JBlock)
    (exhausted : ℕ → JBlock) : decodeImage f stream exhausted = none := by
  simp only [decodeImage, initialSetup_header, perScanSetup_tooBig f hf]

theorem placed_block_iff (d : EntropyDecoder JBlock) {row col : ℕ} (hrow : row < f.heightInBlocks)
    (hcol : col < f.widthInBlocks) (block : JBlock) :
    (∃ call ∈ (List.range (f.mcuRows * f.mcusPerRow)).flatMap (mcuCalls f d),
      imageBlock f call = (row, col) ∧ call.coefBlock = block) ↔
      d.mcu (mcuAt f row col) (blknAt f row col) = block := by
  constructor
  · rintro ⟨call, hcall, hplace, rfl⟩
    obtain ⟨n, -, b, hb, -, rfl⟩ := mem_scanCalls.mp hcall
    rw [imageBlock_placed] at hplace
    obtain ⟨rfl, rfl⟩ := Prod.mk.inj hplace
    rw [mcuAt_block f hb, blknAt_block f hb, placed]
  · intro h
    have hat := block_at row hcol
    refine ⟨placed f d (mcuAt f row col) (blknAt f row col), ?_, ?_, h⟩
    · refine mem_scanCalls.mpr ⟨_, mcuAt_lt hrow hcol, _, blknAt_lt f row col, ?_, rfl⟩
      rw [IsReal, hat.1, hat.2]
      exact ⟨hrow, hcol⟩
    · rw [imageBlock_placed, hat.1, hat.2]

theorem rasterBlocks_getD (coefs : CoefficientImage) {n i : ℕ} (hi : i < n) (d : JBlock) :
    (rasterBlocks f coefs n).getD i d = coefs 0 (i / f.widthInBlocks) (i % f.widthInBlocks) := by
  simp [rasterBlocks, List.getD_eq_getElem?_getD, hi]

private theorem rasterIndex {row col : ℕ} (hrow : row < f.heightInBlocks) (hcol : col < f.widthInBlocks) :
    row * f.widthInBlocks + col < f.heightInBlocks * f.widthInBlocks ∧
      (row * f.widthInBlocks + col) / f.widthInBlocks = row ∧
      (row * f.widthInBlocks + col) % f.widthInBlocks = col := by
  refine ⟨?_, ?_, ?_⟩
  · have := Nat.mul_le_mul_right f.widthInBlocks (show row + 1 ≤ f.heightInBlocks from hrow)
    rw [Nat.succ_mul] at this
    omega
  · rw [Nat.mul_comm, cell_div _ hcol]
  · rw [Nat.mul_comm, cell_mod _ hcol]

/-- An image whose blocks can be told apart: each DC coefficient is the block's raster position. -/
private def numbered (f : SingleComponentFrame) : CoefficientImage :=
  fun _ row col => dummyBlock (row * f.widthInBlocks + col : ℕ)

theorem roundTrips_iff_sameOrder (f : SingleComponentFrame) :
    RoundTrips f ↔ f.h * f.v ≤ dMaxBlocksInMcu ∧ SameOrder f := by
  constructor
  · intro h
    obtain ⟨calls, hcalls, hblocks⟩ := h (fun _ => true) (numbered f) (fun _ => dummyBlock 0) f.mcuRows _
      (fun _ => dummyBlock (-1)) (encodeImage_completes _ _)
    have hf : f.h * f.v ≤ dMaxBlocksInMcu := by
      by_contra hbig
      rw [decodeImage_tooBig (Nat.not_le.mp hbig)] at hcalls
      exact absurd hcalls (by simp)
    refine ⟨hf, fun row hrow col hcol => ?_⟩
    rw [decodeImage_fits hf] at hcalls
    obtain rfl := Option.some.inj hcalls
    have hblock := (placed_block_iff _ hrow hcol _).mp (hblocks row hrow col hcol)
    by_cases hin : streamIndex f row col < f.heightInBlocks * f.widthInBlocks
    · change (rasterBlocks f (numbered f) _).getD (streamIndex f row col) _ = _ at hblock
      rw [rasterBlocks_getD _ hin] at hblock
      have hdc := congrFun hblock 0
      simp only [numbered, dummyBlock, if_true, Nat.cast_inj] at hdc
      rw [← hdc, Nat.div_add_mod']
    · have hpast : (rasterBlocks f (numbered f) (f.heightInBlocks * f.widthInBlocks)).length ≤
          streamIndex f row col := by
        simpa [rasterBlocks] using hin
      change (rasterBlocks f (numbered f) _).getD (streamIndex f row col) _ = _ at hblock
      rw [List.getD_eq_getElem?_getD, List.getElem?_eq_none hpast, Option.getD_none] at hblock
      have hdc := congrFun hblock 0
      simp only [numbered, dummyBlock, if_true] at hdc
      omega
  · rintro ⟨hf, horder⟩ accepts coefs mcuBuffer fuel stream exhausted hstream
    obtain rfl := encodeImage_some hstream
    refine ⟨_, decodeImage_fits hf _ exhausted, fun row hrow col hcol => ?_⟩
    obtain ⟨hlt, hdiv, hmod⟩ := rasterIndex hrow hcol
    refine (placed_block_iff _ hrow hcol _).mpr ?_
    change (rasterBlocks f coefs _).getD (streamIndex f row col) _ = _
    rw [horder row hrow col hcol, rasterBlocks_getD coefs hlt, hdiv, hmod]

end Pipeline

section Order
variable {f : SingleComponentFrame}

/-- With single block rows in a tile the decompressor's rows are whole numbers of tiles. -/
private theorem streamIndex_flat (hv : f.v = 1) (row col : ℕ) :
    streamIndex f row col = row * (f.mcusPerRow * f.h) + col := by
  have hdiv := Nat.div_add_mod col f.h
  simp only [streamIndex, mcuAt, blknAt, hv, Nat.div_one, Nat.mod_one, Nat.mul_one, Nat.mul_zero,
    Nat.zero_add]
  rw [Nat.add_mul, Nat.add_assoc, Nat.mul_comm (col / f.h), hdiv]
  ring

private theorem streamIndex_narrow (hw : f.widthInBlocks ≤ f.h) {row col : ℕ}
    (hcol : col < f.widthInBlocks) : streamIndex f row col = row * f.h + col := by
  have hone : f.mcusPerRow = 1 := by
    have hpos := mcusPerRow_pos f
    have hle : f.mcusPerRow ≤ 1 := by
      rw [mcusPerRow_eq, jdivRoundUp]
      exact Nat.lt_succ_iff.mp (Nat.div_lt_of_lt_mul (by have := f.h_pos; omega))
    omega
  have hdiv := Nat.div_add_mod row f.v
  have hzero : col / f.h = 0 := Nat.div_eq_of_lt (by omega)
  have hsame : col % f.h = col := Nat.mod_eq_of_lt (by omega)
  simp only [streamIndex, mcuAt, blknAt, hone, hzero, hsame, Nat.one_mul, Nat.add_zero]
  calc row / f.v * (f.h * f.v) + (f.h * (row % f.v) + col)
      = (f.v * (row / f.v) + row % f.v) * f.h + col := by ring
    _ = row * f.h + col := by rw [hdiv]

theorem sameOrder_iff (f : SingleComponentFrame) : SameOrder f ↔
    (f.v = 1 ∨ f.widthInBlocks ≤ f.h) ∧ (f.heightInBlocks = 1 ∨ f.h ∣ f.widthInBlocks) := by
  have hhpos := f.h_pos
  have hvpos := f.v_pos
  have hwpos := widthInBlocks_pos f
  have hrows := heightInBlocks_pos f
  constructor
  · intro h
    have hshape : f.v = 1 ∨ f.widthInBlocks ≤ f.h := by
      by_contra hne
      obtain ⟨hv, hw⟩ := not_or.mp hne
      have hat := h 0 hrows f.h (by omega)
      simp only [streamIndex, mcuAt, blknAt, Nat.zero_div, Nat.zero_mod, Nat.mul_zero, Nat.zero_add,
        Nat.div_self hhpos, Nat.mod_self, Nat.one_mul, Nat.add_zero, Nat.zero_mul] at hat
      exact hv (Nat.eq_of_mul_eq_mul_left hhpos (by rw [hat, Nat.mul_one]))
    refine ⟨hshape, ?_⟩
    by_contra hne
    obtain ⟨hrow, hdvd⟩ := not_or.mp hne
    have hat := h 1 (by omega) 0 hwpos
    rcases hshape with hv | hw
    · rw [streamIndex_flat hv] at hat
      exact hdvd ⟨f.mcusPerRow, by rw [Nat.mul_comm]; omega⟩
    · rw [streamIndex_narrow hw hwpos] at hat
      exact hdvd ⟨1, by omega⟩
  · rintro ⟨hv | hw, hh | ⟨k, hk⟩⟩ row hrow col hcol
    · obtain rfl : row = 0 := by omega
      rw [streamIndex_flat hv, Nat.zero_mul, Nat.zero_mul]
    · have hper : f.mcusPerRow * f.h = f.widthInBlocks := by
        have hexact : jdivRoundUp (f.h * k) f.h = k := by
          rw [jdivRoundUp, Nat.add_sub_assoc hhpos, Nat.mul_add_div hhpos,
            Nat.div_eq_of_lt (by omega), Nat.add_zero]
        rw [mcusPerRow_eq, hk, hexact, Nat.mul_comm]
      rw [streamIndex_flat hv, hper]
    · obtain rfl : row = 0 := by omega
      rw [streamIndex_narrow hw hcol, Nat.zero_mul, Nat.zero_mul]
    · have hone : k = 1 := by
        have hle : f.h * k ≤ f.h * 1 := by omega
        have hpos : 0 < k := Nat.pos_of_ne_zero (fun h0 => by simp [h0] at hk; omega)
        have := Nat.le_of_mul_le_mul_left hle hhpos
        omega
      rw [streamIndex_narrow hw hcol, hk, hone, Nat.mul_one]

theorem widthInBlocks_le_iff (f : SingleComponentFrame) :
    f.widthInBlocks ≤ f.h ↔ f.width ≤ dctSize * f.h := by
  simp only [SingleComponentFrame.widthInBlocks, jdivRoundUp, dctSize]
  omega

theorem heightInBlocks_eq_one_iff (f : SingleComponentFrame) :
    f.heightInBlocks = 1 ↔ f.height ≤ dctSize := by
  have := f.height_pos
  simp only [SingleComponentFrame.heightInBlocks, jdivRoundUp, dctSize]
  omega

end Order

/-- The compressor writes the real blocks row after row. The decompressor restores every image
exactly when it accepts the sampling factors and its tiles, read one after the other, are the block
rows of the component. -/
theorem round_trip_iff (f : SingleComponentFrame) :
    (∀ coefs mcuBuffer, encodeImage f (fun _ => true) coefs mcuBuffer f.mcuRows =
      some (rasterBlocks f coefs (f.heightInBlocks * f.widthInBlocks))) ∧
    (RoundTrips f ↔ f.h * f.v ≤ dMaxBlocksInMcu ∧
      (f.v = 1 ∨ f.width ≤ dctSize * f.h) ∧
      (f.height ≤ dctSize ∨ f.h ∣ jdivRoundUp f.width dctSize)) := by
  refine ⟨encodeImage_completes, ?_⟩
  rw [roundTrips_iff_sameOrder, sameOrder_iff, widthInBlocks_le_iff, heightInBlocks_eq_one_iff]
  rfl

/-- In a frame of two by one tiles of 2 by 2 blocks, the block in row 0 and column 2 is the third
in the stream, but the decompressor takes the fifth. -/
theorem round_trip_fails_32x16 :
    ¬ ∀ f : SingleComponentFrame, f.h * f.v ≤ dMaxBlocksInMcu → RoundTrips f := by
  intro h
  let f : SingleComponentFrame :=
    ⟨⟨32, 16, by decide, by decide, by decide, by decide⟩, 2, 2, by decide, by decide, by decide, by decide⟩
  have horder := ((roundTrips_iff_sameOrder f).mp (h f (by decide))).2
  exact absurd (horder 0 (by decide) 2 (by decide)) (by decide)

end Jp4Tools.StreamOrder
