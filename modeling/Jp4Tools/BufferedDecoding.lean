import Jp4Tools.BufferedController
import Jp4Tools.Scanlines

/-!
# Buffered decoding agrees with one-pass decoding

The pointers of `consumeData` take each MCU to the places of its blocks in the padded component, so
that a place of the virtual array holds the block that one-pass decoding sends there. The emitted
places are those of the real blocks. The inverse DCTs of an iMCU row are the same ones in both modes,
in another order.
-/

namespace Jp4Tools.BufferedDecoding
open CountedLoops WriteLogs JpegFrameSetup CoefficientController MainController TiledScanCoverage
  Scanlines BufferedController

structure SmallMcuFrame extends SingleComponentFrame where
  blocks_le : h * v ≤ dMaxBlocksInMcu

section Pointers
variable (f : SingleComponentFrame)

def blockPtr (n b : ℕ) : BlockPtr := ⟨0, blockRow f n b, blockCol f n b⟩

variable {f}

theorem mcuBuffer_eq (row : ℕ) {col : ℕ} (hcol : col < f.mcusPerRow) :
    mcuBuffer f.scanning row 0 col =
      (List.range (f.h * f.v)).map (blockPtr f (row * f.mcusPerRow + col)) := by
  have hdiv : (row * f.mcusPerRow + col) / f.mcusPerRow = row := by
    rw [Nat.mul_comm, cell_div _ hcol]
  have hmod : (row * f.mcusPerRow + col) % f.mcusPerRow = col := by
    rw [Nat.mul_comm, cell_mod _ hcol]
  have hrows := forLoop_count (n := f.v) (· + 1) (fun _ _ => rfl) (fun yindex =>
    forLoop (fun s : ℕ × ℕ => decide (s.1 < f.h)) (fun s => (s.1 + 1, s.2 + 1))
      (fun s => [(⟨0, row * f.v + (yindex + 0), s.2⟩ : BlockPtr)]) f.h (0, col * f.h))
  have hblocks : ∀ yindex, forLoop (fun s : ℕ × ℕ => decide (s.1 < f.h)) (fun s => (s.1 + 1, s.2 + 1))
      (fun s => [(⟨0, row * f.v + (yindex + 0), s.2⟩ : BlockPtr)]) f.h (0, col * f.h) =
      (List.range f.h).map (fun x => ⟨0, row * f.v + yindex, col * f.h + x⟩) := by
    intro yindex
    rw [List.map_eq_flatMap]
    exact forLoop_eq_flatMap _ _ _ (fun t => (t, col * f.h + t)) f.h f.h (fun _ _ => rfl)
      (fun _ ht => decide_eq_true ht) (decide_eq_false (lt_irrefl f.h)) le_rfl
  refine (List.append_nil _).trans (hrows.trans ?_)
  rw [range_mul_eq_flatMap, List.map_flatMap]
  apply List.flatMap_congr
  intro y _
  rw [hblocks, List.map_map]
  apply List.map_congr_left
  intro x hx
  have hx := List.mem_range.mp hx
  rw [Function.comp_apply, blockPtr, blockRow, blockCol, hdiv, hmod, cell_div y hx, cell_mod y hx,
    Nat.mul_comm f.v, Nat.mul_comm f.h]

theorem nodup_blockPtrs (n : ℕ) : ((List.range (f.h * f.v)).map (blockPtr f n)).Nodup := by
  refine List.Nodup.of_map (fun ptr => blknAt f ptr.row ptr.col) ?_
  rw [List.map_map]
  have hid : (List.range (f.h * f.v)).map ((fun ptr => blknAt f ptr.row ptr.col) ∘ blockPtr f n) =
      List.range (f.h * f.v) := by
    refine (List.map_congr_left ?_).trans (List.map_id _)
    intro b hb
    exact blknAt_block f (List.mem_range.mp hb)
  rw [hid]
  exact List.nodup_range

theorem blockPtr_notMem {n row col : ℕ} (hn : mcuAt f row col ≠ n) :
    (⟨0, row, col⟩ : BlockPtr) ∉ (List.range (f.h * f.v)).map (blockPtr f n) := by
  intro hmem
  obtain ⟨b, hb, hptr⟩ := List.mem_map.mp hmem
  rw [blockPtr, BlockPtr.mk.injEq] at hptr
  obtain ⟨-, rfl, rfl⟩ := hptr
  exact hn (mcuAt_block f (List.mem_range.mp hb))

theorem blockPtr_getElem? (row : ℕ) {col : ℕ} (hcol : col / f.h < f.mcusPerRow) :
    ((List.range (f.h * f.v)).map (blockPtr f (mcuAt f row col)))[blknAt f row col]? =
      some ⟨0, row, col⟩ := by
  have hat := block_at_padded row hcol
  rw [List.getElem?_map, List.getElem?_range (blknAt_lt f row col), Option.map_some, blockPtr, hat.1,
    hat.2]

end Pointers

section Storing
variable {f : SingleComponentFrame} {d : CoefDecoder}

/-- The virtual array when the first `m` MCUs are decoded. The blocks of the others do not show
whether calls for them were suspended. -/
structure Stored (f : SingleComponentFrame) (d : CoefDecoder) (m : ℕ)
    (wholeImage : BlockPtr → CoefBlock) : Prop where
  decoded : ∀ row col, col / f.h < f.mcusPerRow → mcuAt f row col < m →
    wholeImage ⟨0, row, col⟩ = d.decodedBlock (mcuAt f row col) (blknAt f row col)
  pending : ∀ row col, col / f.h < f.mcusPerRow → m ≤ mcuAt f row col →
    replay (d.coefStores (mcuAt f row col) (blknAt f row col)) (wholeImage ⟨0, row, col⟩) =
      d.decodedBlock (mcuAt f row col) (blknAt f row col)

theorem stored_zero (f : SingleComponentFrame) (d : CoefDecoder) : Stored f d 0 (fun _ => zeroBlock) where
  decoded := fun _ _ _ h => absurd h (Nat.not_lt_zero _)
  pending := fun _ _ _ _ => rfl

theorem storeBlocks_at (stores : ℕ → List (ℕ × ℤ)) (n row : ℕ) {col : ℕ}
    (hcol : col / f.h < f.mcusPerRow) (wholeImage : BlockPtr → CoefBlock) :
    storeBlocks stores 0 ((List.range (f.h * f.v)).map (blockPtr f n)) wholeImage ⟨0, row, col⟩ =
      if mcuAt f row col = n then replay (stores (blknAt f row col)) (wholeImage ⟨0, row, col⟩)
      else wholeImage ⟨0, row, col⟩ := by
  split_ifs with hn
  · subst hn
    rw [storeBlocks_of_getElem? stores (nodup_blockPtrs _) (blockPtr_getElem? row hcol), Nat.zero_add]
  · exact storeBlocks_of_notMem stores (blockPtr_notMem hn) 0 wholeImage

/-- A call that is not suspended completes the blocks of its MCU. -/
theorem Stored.step {m : ℕ} {wholeImage : BlockPtr → CoefBlock} (h : Stored f d m wholeImage) :
    Stored f d (m + 1)
      (storeBlocks (d.coefStores m) 0 ((List.range (f.h * f.v)).map (blockPtr f m)) wholeImage) := by
  refine ⟨?_, ?_⟩
  · intro row col hcol hn
    rw [storeBlocks_at _ _ _ hcol]
    split_ifs with hm
    · have hpending := h.pending row col hcol hm.ge
      rwa [hm] at hpending ⊢
    · exact h.decoded row col hcol (by omega)
  · intro row col hcol hn
    rw [storeBlocks_at _ _ _ hcol, if_neg (by omega)]
    exact h.pending row col hcol (by omega)

/-- A suspended call leaves blocks that the next call for the same MCU completes. -/
theorem Stored.suspend {m : ℕ} {wholeImage : BlockPtr → CoefBlock} (h : Stored f d m wholeImage)
    (begun : ℕ → ℕ) :
    Stored f d m (storeBlocks (fun b => (d.coefStores m b).take (begun b)) 0
      ((List.range (f.h * f.v)).map (blockPtr f m)) wholeImage) := by
  refine ⟨?_, ?_⟩
  · intro row col hcol hn
    rw [storeBlocks_at _ _ _ hcol, if_neg (by omega)]
    exact h.decoded row col hcol hn
  · intro row col hcol hn
    rw [storeBlocks_at _ _ _ hcol]
    split_ifs with hm
    · have hpending := h.pending row col hcol hn
      rw [hm] at hpending ⊢
      rw [replay_take, hpending]
    · exact h.pending row col hcol hn

end Storing

section Emission
variable (f : SingleComponentFrame) (d : CoefDecoder)

def rowHeight (k : ℕ) : ℕ := if k < f.mcuRows - 1 then f.v else lastGroup f.heightInBlocks f.v

def emitted (k y x : ℕ) : IdctCall CoefBlock where
  mcu := 0
  blkn := 0
  coefBlock := d.decodedBlock (mcuAt f (f.v * k + y) x) (blknAt f (f.v * k + y) x)
  component := 0
  imcuRow := k
  outputRow := dctSize * y
  outputCol := dctSize * x

def emittedRow (k : ℕ) : List (IdctCall CoefBlock) :=
  (List.range (rowHeight f k)).flatMap (fun y => (List.range f.widthInBlocks).map (emitted f d k y))

variable {f d}

theorem rowHeight_le (k : ℕ) : rowHeight f k ≤ f.v := by
  rw [rowHeight]
  split_ifs
  · exact le_rfl
  · exact lastGroup_le _ f.v_pos

theorem lt_rowHeight_iff {k y : ℕ} (hk : k < f.mcuRows) (hy : y < f.v) :
    y < rowHeight f k ↔ f.v * k + y < f.heightInBlocks := by
  have hrows := mcuRows_eq f
  rw [← group_inside_iff f.v_pos (heightInBlocks_pos f) (by rwa [← hrows]) hy, ← hrows, rowHeight]
  split_ifs with hlast
  · exact iff_of_true hy (Or.inl hlast)
  · rw [or_iff_right hlast]

/-- The places of an iMCU row whose MCUs are decoded hold what is emitted. -/
theorem emitComponents_eq {m k : ℕ} {wholeImage : BlockPtr → CoefBlock} (h : Stored f d m wholeImage)
    (hm : (k + 1) * f.mcusPerRow ≤ m) :
    emitComponents f.scanning wholeImage k 0 f.scanning.compInfo = emittedRow f d k := by
  have hblocks : ∀ row outputRow, emitBlockRow wholeImage (tiledGeometry f.component) 0 k row outputRow =
      (List.range f.widthInBlocks).map (fun x => ⟨0, 0, wholeImage ⟨0, row, x⟩, 0, k, outputRow,
        dctSize * x⟩) := by
    intro row outputRow
    rw [List.map_eq_flatMap]
    exact forLoop_eq_flatMap _ _ _ (fun t => (t, dctSize * t)) f.widthInBlocks f.widthInBlocks
      (fun _ _ => rfl) (fun _ ht => decide_eq_true ht) (decide_eq_false (lt_irrefl _)) le_rfl
  have hrows : emitComponent f.scanning wholeImage (tiledGeometry f.component) 0 k =
      (List.range (rowHeight f k)).flatMap (fun y =>
        emitBlockRow wholeImage (tiledGeometry f.component) 0 k (k * f.v + y) (dctSize * y)) :=
    forLoop_eq_flatMap _ _ _ (fun t => (t, dctSize * t)) (rowHeight f k) (rowHeight f k)
      (fun _ _ => rfl) (fun _ ht => decide_eq_true ht) (decide_eq_false (lt_irrefl _)) le_rfl
  refine (List.append_nil _).trans (hrows.trans ?_)
  rw [emittedRow]
  apply List.flatMap_congr
  intro y hy
  rw [hblocks]
  apply List.map_congr_left
  intro x hx
  have hy : y < f.v := (List.mem_range.mp hy).trans_le (rowHeight_le k)
  have hcol := mcuAt_column_lt (List.mem_range.mp hx)
  have hn : mcuAt f (f.v * k + y) x < m := by
    rw [Nat.succ_mul] at hm
    rw [mcuAt, cell_div _ hy, Nat.mul_comm]
    omega
  rw [emitted, ← h.decoded _ _ hcol hn, Nat.mul_comm k]

end Emission

section Steps
variable {f : SingleComponentFrame} {d : CoefDecoder}

/-- The first `col` MCUs of iMCU row `row`, and all MCUs before them, are stored, and the first `out`
iMCU rows are emitted. -/
structure BufferedProgress (f : SingleComponentFrame) (d : CoefDecoder) (row col out : ℕ)
    (s : BufferedState) : Prop where
  inputRow : s.inputImcuRow = row
  outputRow : s.outputImcuRow = out
  oneRow : s.mcuRowsPerImcuRow = 1
  vertOffset : s.mcuVertOffset = 0
  scans : s.inputScanNumber = s.outputScanNumber
  decoded : s.mcusDecoded = row * f.mcusPerRow + col
  stored : Stored f d s.mcusDecoded s.wholeImage
  log : s.idctCalls = (List.range out).flatMap (emittedRow f d)

structure BufferedInvariant (f : SingleComponentFrame) (d : CoefDecoder) (s : BufferedState) : Prop where
  progress : BufferedProgress f d s.inputImcuRow s.mcuCtr s.outputImcuRow s
  row_le : s.inputImcuRow ≤ f.mcuRows
  column_lt : s.mcuCtr < f.mcusPerRow
  emitted_le : s.outputImcuRow ≤ s.inputImcuRow

theorem bufferedInvariant_started (f : SingleComponentFrame) (d : CoefDecoder) :
    BufferedInvariant f d (startedBuffered f.scanning) := by
  rw [startedBuffered, started_eq]
  exact ⟨⟨rfl, rfl, rfl, rfl, rfl, (Nat.zero_mul _).symm, stored_zero f d, rfl⟩, Nat.zero_le _,
    mcusPerRow_pos f, le_rfl⟩

theorem decodeMcu_spec {row col out : ℕ} {s : BufferedState} (h : BufferedProgress f d row col out s)
    (hcol : col < f.mcusPerRow) :
    (∃ s', decodeMcu d s (mcuBuffer f.scanning s.inputImcuRow 0 col) = (true, s') ∧
      BufferedProgress f d row (col + 1) out s') ∨
    (∃ s', decodeMcu d s (mcuBuffer f.scanning s.inputImcuRow 0 col) = (false, s') ∧
      BufferedProgress f d row col out s' ∧ ∃ t, d.available t = false) := by
  have hbuffer := mcuBuffer_eq (f := f) s.inputImcuRow hcol
  rw [h.inputRow, ← h.decoded] at hbuffer
  rw [h.inputRow, hbuffer]
  cases ha : d.available s.decodeCalls with
  | true =>
    refine Or.inl ⟨_, if_pos ha, ?_⟩
    exact ⟨h.inputRow, h.outputRow, h.oneRow, h.vertOffset, h.scans,
      by simp only [h.decoded, Nat.add_assoc], h.stored.step, h.log⟩
  | false =>
    refine Or.inr ⟨_, if_neg (by simp [ha]), ?_, _, ha⟩
    exact ⟨h.inputRow, h.outputRow, h.oneRow, h.vertOffset, h.scans, h.decoded, h.stored.suspend _, h.log⟩

/-- The `MCU_col_num` loop either completes the row or remembers where it was suspended. -/
theorem consumeColumns_spec {row out : ℕ} (fuel col : ℕ) (s : BufferedState)
    (h : BufferedProgress f d row col out s) (hcol : col ≤ f.mcusPerRow)
    (hfuel : f.mcusPerRow ≤ col + fuel) :
    (∃ s', consumeColumns d f.scanning 0 fuel col s = (true, s') ∧
      BufferedProgress f d row f.mcusPerRow out s') ∨
    (∃ s', consumeColumns d f.scanning 0 fuel col s = (false, s') ∧
      BufferedProgress f d row s'.mcuCtr out s' ∧ s'.mcuCtr < f.mcusPerRow ∧
      ∃ t, d.available t = false) := by
  induction fuel generalizing col s with
  | zero =>
    obtain rfl : col = f.mcusPerRow := by omega
    exact Or.inl ⟨s, rfl, h⟩
  | succ fuel ih =>
    rcases Nat.lt_or_eq_of_le hcol with hlt | rfl
    · have hgo : col < f.scanning.mcusPerRow := hlt
      rw [consumeColumns, if_pos hgo]
      rcases decodeMcu_spec h hlt with ⟨s', he, hp⟩ | ⟨s', he, hp, hsusp⟩
      · rw [he]
        exact ih (col + 1) s' hp hlt (by omega)
      · rw [he]
        refine Or.inr ⟨_, rfl, ?_, hlt, hsusp⟩
        exact ⟨hp.inputRow, hp.outputRow, hp.oneRow, rfl, hp.scans, hp.decoded, hp.stored, hp.log⟩
    · exact Or.inl ⟨s, if_neg (lt_irrefl _), h⟩

theorem consumeData_spec {s : BufferedState} (h : BufferedInvariant f d s)
    (hrow : s.inputImcuRow < f.mcuRows) :
    ∃ code s', consumeData d f.scanning s = (code, s') ∧ BufferedInvariant f d s' ∧
      s'.outputImcuRow = s.outputImcuRow ∧
      ((code = .suspended ∧ ∃ t, d.available t = false) ∨
        (code ≠ .suspended ∧ s'.inputImcuRow = s.inputImcuRow + 1)) := by
  have hemitted := h.emitted_le
  have hrows : ∀ done s', consumeColumns d f.scanning 0 f.mcusPerRow s.mcuCtr s = (done, s') →
      consumeRows d f.scanning s.mcuRowsPerImcuRow s.mcuVertOffset s =
        (done, if done = true then { s' with mcuCtr := 0 } else s') := by
    intro done s' he
    have hcolumns : consumeColumns d f.scanning 0 f.scanning.mcusPerRow s.mcuCtr s = (done, s') := he
    rw [h.progress.oneRow, h.progress.vertOffset, consumeRows, if_pos (by rw [h.progress.oneRow]; decide), hcolumns]
    cases done <;> rfl
  rcases consumeColumns_spec f.mcusPerRow s.mcuCtr s h.progress h.column_lt.le (by omega) with
    ⟨s', he, hp⟩ | ⟨s', he, hp, hlt, hsusp⟩
  · have hin := hp.inputRow
    have hout := hp.outputRow
    have hdecoded : s'.mcusDecoded = (s'.inputImcuRow + 1) * f.mcusPerRow + 0 := by
      rw [hp.decoded, hin, Nat.succ_mul, Nat.add_zero]
    have hlog : s'.idctCalls = (List.range s'.outputImcuRow).flatMap (emittedRow f d) := by
      rw [hout, hp.log]
    simp only [consumeData, hrows true s' he, if_true, startImcuRow_eq]
    split_ifs
    · refine ⟨_, _, rfl, ⟨⟨rfl, rfl, rfl, rfl, hp.scans, hdecoded, hp.stored, hlog⟩, ?_,
        mcusPerRow_pos f, ?_⟩, hout, Or.inr ⟨by decide, ?_⟩⟩ <;> simp only <;> omega
    · refine ⟨_, _, rfl, ⟨⟨rfl, rfl, hp.oneRow, hp.vertOffset, hp.scans, hdecoded, hp.stored, hlog⟩, ?_,
        mcusPerRow_pos f, ?_⟩, hout, Or.inr ⟨by decide, ?_⟩⟩ <;> simp only <;> omega
  · refine ⟨.suspended, s', by simp only [consumeData, hrows false s' he, Bool.false_eq_true, if_false], ⟨?_, ?_, hlt, ?_⟩, hp.outputRow,
      Or.inl ⟨rfl, hsusp⟩⟩
    · rw [hp.inputRow, hp.outputRow]
      exact hp
    · rw [hp.inputRow]
      exact hrow.le
    · rw [hp.inputRow, hp.outputRow]
      exact hemitted

theorem forceInput_spec (fuel : ℕ) {s : BufferedState} (h : BufferedInvariant f d s)
    (hout : s.outputImcuRow < f.mcuRows) (hfuel : s.outputImcuRow < s.inputImcuRow + fuel) :
    ∃ ready s', forceInput d f.scanning fuel s = (ready, s') ∧ BufferedInvariant f d s' ∧
      s'.outputImcuRow = s.outputImcuRow ∧
      ((ready = false ∧ ∃ t, d.available t = false) ∨
        (ready = true ∧ s'.outputImcuRow < s'.inputImcuRow)) := by
  induction fuel generalizing s with
  | zero => exact ⟨true, s, rfl, h, rfl, Or.inr ⟨rfl, by omega⟩⟩
  | succ fuel ih =>
    have hscans := h.progress.scans
    rw [forceInput]
    split_ifs with hbehind
    · obtain ⟨code, s', he, hinv, hsame, hcode⟩ := consumeData_spec h (by omega)
      rw [he]
      rcases hcode with ⟨rfl, hsusp⟩ | ⟨hne, hnext⟩
      · exact ⟨false, s', rfl, hinv, hsame, Or.inl ⟨rfl, hsusp⟩⟩
      · obtain ⟨ready, t, ht, hinv', hsame', hready⟩ := ih hinv (by omega) (by omega)
        refine ⟨ready, t, ?_, hinv', hsame'.trans hsame, hready⟩
        cases code with
        | suspended => exact absurd rfl hne
        | rowCompleted => exact ht
        | scanCompleted => exact ht
    · exact ⟨true, s, rfl, h, rfl, Or.inr ⟨rfl, by omega⟩⟩

theorem decompressData_spec {s : BufferedState} (h : BufferedInvariant f d s)
    (hout : s.outputImcuRow < f.mcuRows) :
    BufferedInvariant f d (decompressData d f.scanning s).2 ∧
      ((∃ t, d.available t = false) ∨
        (decompressData d f.scanning s).2.outputImcuRow = s.outputImcuRow + 1) := by
  obtain ⟨ready, s', he, hinv, hsame, hready⟩ := forceInput_spec f.mcuRows h hout (by omega)
  have hforce : forceInput d f.scanning f.scanning.totalImcuRows s = (ready, s') := he
  rcases hready with ⟨rfl, hsusp⟩ | ⟨rfl, hstored⟩
  · rw [decompressData, hforce]
    exact ⟨hinv, Or.inl hsusp⟩
  · have hp := hinv.progress
    have hm : (s'.outputImcuRow + 1) * f.mcusPerRow ≤ s'.mcusDecoded := by
      rw [hp.decoded]
      exact (Nat.mul_le_mul_right _ hstored).trans (Nat.le_add_right _ _)
    have hlog : s'.idctCalls ++ emitComponents f.scanning s'.wholeImage s'.outputImcuRow 0
        f.scanning.compInfo = (List.range (s'.outputImcuRow + 1)).flatMap (emittedRow f d) := by
      rw [emitComponents_eq hp.stored hm, hp.log, List.range_succ, List.flatMap_append,
        List.flatMap_singleton]
    rw [decompressData, hforce]
    simp only
    split_ifs
    · exact ⟨⟨⟨rfl, rfl, hp.oneRow, hp.vertOffset, hp.scans, hp.decoded, hp.stored, hlog⟩, hinv.row_le,
        hinv.column_lt, hstored⟩, Or.inr (congrArg (· + 1) hsame)⟩
    · exact ⟨⟨⟨rfl, rfl, hp.oneRow, hp.vertOffset, hp.scans, hp.decoded, hp.stored, hlog⟩, hinv.row_le,
        hinv.column_lt, hstored⟩, Or.inr (congrArg (· + 1) hsame)⟩

end Steps

section Run
variable {f : SingleComponentFrame} {d : CoefDecoder}

theorem callController_invariant {s : BufferedState} (h : BufferedInvariant f d s)
    (call : ControllerCall) : BufferedInvariant f d (callController d f.scanning s call) := by
  cases call with
  | consumeData =>
    rw [callController]
    split_ifs with hrow
    · obtain ⟨code, s', he, hinv, -⟩ := consumeData_spec h hrow
      rw [he]
      exact hinv
    · exact h
  | decompressData =>
    rw [callController]
    split_ifs with hout
    · exact (decompressData_spec h hout).1
    · exact h

theorem bufferedRun_append (calls : List ControllerCall) (call : ControllerCall) :
    bufferedRun d f.scanning (calls ++ [call]) =
      callController d f.scanning (bufferedRun d f.scanning calls) call := List.foldl_concat _ _ _ _

theorem bufferedRun_invariant (calls : List ControllerCall) :
    BufferedInvariant f d (bufferedRun d f.scanning calls) := by
  induction calls using List.reverseRecOn with
  | nil => exact bufferedInvariant_started f d
  | append_singleton calls call ih =>
    rw [bufferedRun_append]
    exact callController_invariant ih call

theorem callController_emits (hd : ∀ t, d.available t = true) {s : BufferedState}
    (h : BufferedInvariant f d s) (call : ControllerCall) :
    min f.mcuRows (s.outputImcuRow + if call = .decompressData then 1 else 0) ≤
      (callController d f.scanning s call).outputImcuRow := by
  cases call with
  | consumeData =>
    rw [callController, if_neg (show ¬ ControllerCall.consumeData = .decompressData by decide)]
    split_ifs with hrow
    · obtain ⟨code, s', he, -, hsame, -⟩ := consumeData_spec h hrow
      rw [he, hsame]
      exact min_le_right _ _
    · exact min_le_right _ _
  | decompressData =>
    rw [callController, if_pos rfl]
    split_ifs with hout
    · obtain ⟨t, ht⟩ | hnext := (decompressData_spec h hout).2
      · rw [hd] at ht
        cases ht
      · rw [hnext]
        exact min_le_right _ _
    · exact (min_le_left _ _).trans (not_lt.mp hout)

theorem bufferedRun_completes (hd : ∀ t, d.available t = true) (calls : List ControllerCall) :
    min f.mcuRows (calls.count .decompressData) ≤ (bufferedRun d f.scanning calls).outputImcuRow := by
  induction calls using List.reverseRecOn with
  | nil => exact min_le_right _ _
  | append_singleton calls call ih =>
    have hemits := callController_emits hd (bufferedRun_invariant (f := f) calls) call
    have hcount : (calls ++ [call]).count .decompressData =
        calls.count .decompressData + if call = .decompressData then 1 else 0 := by
      rw [List.count_append, List.count_singleton]
      simp only [beq_iff_eq]
    rw [bufferedRun_append, hcount]
    omega

end Run

section Rows
variable {f : SingleComponentFrame} {d : CoefDecoder} {available : ℕ → Bool}

theorem scanCalls_eq_rows (rows : ℕ) :
    (List.range (rows * f.mcusPerRow)).flatMap (mcuCalls f (d.onepass available)) =
      (List.range rows).flatMap (rowCalls f (d.onepass available)) := by
  induction rows with
  | zero => rw [Nat.zero_mul]; rfl
  | succ rows ih =>
    rw [scanCalls_succ, ih, List.range_succ, List.flatMap_append, List.flatMap_singleton]

theorem filter_rows {calls : ℕ → List (IdctCall CoefBlock)}
    (hcalls : ∀ j, ∀ call ∈ calls j, call.component = 0 ∧ call.imcuRow = j) (rows k : ℕ) :
    ((List.range rows).flatMap calls).filter (fun call => call.component = 0 ∧ call.imcuRow = k) =
      if k < rows then calls k else [] := by
  induction rows with
  | zero => rfl
  | succ rows ih =>
    have hlast : (calls rows).filter (fun call => call.component = 0 ∧ call.imcuRow = k) =
        if k = rows then calls rows else [] := by
      split_ifs with hk
      · apply List.filter_eq_self.mpr
        intro call hcall
        rw [hk]
        exact decide_eq_true (hcalls rows call hcall)
      · apply List.filter_eq_nil_iff.mpr
        intro call hcall htrue
        exact hk ((of_decide_eq_true htrue).2.symm.trans (hcalls rows call hcall).2)
    rw [List.range_succ, List.flatMap_append, List.flatMap_singleton, List.filter_append, ih, hlast]
    rcases lt_trichotomy k rows with hk | rfl | hk
    · rw [if_pos hk, if_neg hk.ne, if_pos (Nat.lt_succ_of_lt hk), List.append_nil]
    · rw [if_neg (lt_irrefl k), if_pos rfl, if_pos (Nat.lt_succ_self k), List.nil_append]
    · rw [if_neg hk.not_gt, if_neg hk.ne', if_neg (by omega), List.append_nil]

theorem mem_emittedRow {k : ℕ} {call : IdctCall CoefBlock} : call ∈ emittedRow f d k ↔
    ∃ y < rowHeight f k, ∃ x < f.widthInBlocks, call = emitted f d k y x := by
  simp only [emittedRow, List.mem_flatMap, List.mem_map, List.mem_range]
  exact ⟨fun ⟨y, hy, x, hx, h⟩ => ⟨y, hy, x, hx, h.symm⟩, fun ⟨y, hy, x, hx, h⟩ => ⟨y, hy, x, hx, h.symm⟩⟩

theorem nodup_emittedRow (k : ℕ) : (emittedRow f d k).Nodup := by
  refine nodup_flatMap_of_index (fun call => call.outputRow / dctSize) List.nodup_range ?_ ?_
  · intro y _
    apply List.nodup_range.map
    intro x x' h
    exact Nat.eq_of_mul_eq_mul_left (by decide) (congrArg IdctCall.outputCol h)
  · intro y _ call hcall
    obtain ⟨x, -, rfl⟩ := List.mem_map.mp hcall
    exact Nat.mul_div_cancel_left y (by decide)

/-- The call without the MCU that the block comes from. -/
def forgetMcu (call : IdctCall CoefBlock) : IdctCall CoefBlock := { call with mcu := 0, blkn := 0 }

theorem forgetMcu_placed {k col b : ℕ} (hcol : col < f.mcusPerRow) (hb : b < f.h * f.v) :
    forgetMcu (placed f (d.onepass available) (k * f.mcusPerRow + col) b) =
      emitted f d k (b / f.h) (blockCol f (k * f.mcusPerRow + col) b) := by
  have hk : (k * f.mcusPerRow + col) / f.mcusPerRow = k := by rw [Nat.mul_comm, cell_div _ hcol]
  obtain ⟨hmcu, hblkn⟩ := placed_of_row (k := k) hcol hb
  simp only [forgetMcu, placed, emitted, hmcu, hblkn, hk, CoefDecoder.onepass]

theorem perm_emittedRow {k : ℕ} (hk : k < f.mcuRows) :
    ((rowCalls f (d.onepass available) k).map forgetMcu).Perm (emittedRow f d k) := by
  have hnodup : ((rowCalls f (d.onepass available) k).map forgetMcu).Nodup := by
    have h := nodup_imageBlocks (f := f) (d := d.onepass available) ((k + 1) * f.mcusPerRow)
    rw [scanCalls_succ, List.map_append] at h
    refine List.Nodup.of_map (imageBlock f) ?_
    rw [List.map_map]
    exact (List.nodup_append.mp h).2.1
  apply (List.perm_ext_iff_of_nodup hnodup (nodup_emittedRow k)).mpr
  intro call
  rw [List.mem_map, mem_emittedRow]
  constructor
  · rintro ⟨call, hcall, rfl⟩
    obtain ⟨col, hcol, b, hb, ⟨hrow, hwidth⟩, rfl⟩ := mem_rowCalls.mp hcall
    have hdiv : (k * f.mcusPerRow + col) / f.mcusPerRow = k := by rw [Nat.mul_comm, cell_div _ hcol]
    rw [blockRow, hdiv] at hrow
    exact ⟨b / f.h, (lt_rowHeight_iff hk (Nat.div_lt_of_lt_mul hb)).mpr hrow, _, hwidth,
      forgetMcu_placed hcol hb⟩
  · rintro ⟨y, hy, x, hx, rfl⟩
    have hyv := hy.trans_le (rowHeight_le k)
    have hcol := mcuAt_column_lt hx
    obtain ⟨hrow, hplace⟩ := block_at (f.v * k + y) hx
    have hn : mcuAt f (f.v * k + y) x = k * f.mcusPerRow + x / f.h := by
      rw [mcuAt, cell_div _ hyv, Nat.mul_comm]
    have hb : blknAt f (f.v * k + y) x / f.h = y := by
      rw [blknAt, cell_div _ (Nat.mod_lt _ f.h_pos), cell_mod _ hyv]
    rw [hn] at hrow hplace
    refine ⟨_, mem_rowCalls.mpr ⟨x / f.h, hcol, _, blknAt_lt f (f.v * k + y) x, ?_, rfl⟩, ?_⟩
    · rw [IsReal, hrow, hplace]
      exact ⟨(lt_rowHeight_iff hk hyv).mp hy, hx⟩
    · rw [forgetMcu_placed hcol (blknAt_lt f _ _), hplace, hb]

variable {α : Type*}

/-- In both modes the inverse DCTs of an iMCU row leave the same samples. -/
theorem outputBuffer_rows (idct : CoefBlock → ℕ → ℕ → α) (init : ℕ × ℕ → α) (k : ℕ) :
    outputBuffer idct init 0 k ((List.range f.mcuRows).flatMap (rowCalls f (d.onepass available))) =
      outputBuffer idct init 0 k ((List.range f.mcuRows).flatMap (emittedRow f d)) := by
  have hrow : ∀ j, ∀ call ∈ rowCalls f (d.onepass available) j, call.component = 0 ∧ call.imcuRow = j := by
    intro j call hcall
    obtain ⟨col, hcol, b, -, -, rfl⟩ := mem_rowCalls.mp hcall
    exact ⟨rfl, by rw [placed, Nat.mul_comm, cell_div _ hcol]⟩
  have hemitted : ∀ j, ∀ call ∈ emittedRow f d j, call.component = 0 ∧ call.imcuRow = j := by
    intro j call hcall
    obtain ⟨y, -, x, -, rfl⟩ := mem_emittedRow.mp hcall
    exact ⟨rfl, rfl⟩
  rw [outputBuffer, outputBuffer, filter_rows hrow, filter_rows hemitted]
  split_ifs with hk
  · have hwrites : (rowCalls f (d.onepass available) k).flatMap (idctWrites idct) =
        ((rowCalls f (d.onepass available) k).map forgetMcu).flatMap (idctWrites idct) := by
      rw [List.flatMap_map]
      rfl
    apply replay_of_perm _ (nodup_rowWrites k)
    rw [hwrites]
    exact (perm_emittedRow hk).flatMap_right _
  · rfl

end Rows

/-- For every frame whose MCU is small enough, both modes emit the same samples in every iMCU row, from
any contents of the output buffer and in whatever order the application calls the controller. Without
suspensions both get to the end of the image. -/
theorem buffered_agrees_onepass {α : Type*} (f : SmallMcuFrame) (d : CoefDecoder)
    (idct : CoefBlock → ℕ → ℕ → α) :
    initialSetup f.header = .ok f.ready ∧ perScanSetup f.ready = (f.scanning, none) ∧
    (∀ available : ℕ → Bool, (∀ t, available t = true) →
      ∃ s, decodeScan (d.onepass available) f.scanning f.mcuRows (started f.scanning) = some s) ∧
    ((∀ t, d.available t = true) → ∀ calls : List ControllerCall,
      f.mcuRows ≤ calls.count .decompressData →
      (bufferedRun d f.scanning calls).outputImcuRow = f.mcuRows) ∧
    ∀ available fuel s calls,
      decodeScan (d.onepass available) f.scanning fuel (started f.scanning) = some s →
      (bufferedRun d f.scanning calls).outputImcuRow = f.mcuRows →
      ∀ k init, outputBuffer idct init 0 k s.idctCalls =
        outputBuffer idct init 0 k (bufferedRun d f.scanning calls).idctCalls := by
  refine ⟨initialSetup_header _, perScanSetup_fits _ f.blocks_le, ?_, ?_, ?_⟩
  · intro available hd
    exact decodeScan_terminates (d := d.onepass available) hd f.mcuRows (scanInvariant_started _ _)
      (Nat.le_add_left _ _)
  · intro hd calls hcalls
    have hcompletes := bufferedRun_completes (f := f.toSingleComponentFrame) hd calls
    have hinv := bufferedRun_invariant (f := f.toSingleComponentFrame) (d := d) calls
    rw [min_eq_left hcalls] at hcompletes
    exact le_antisymm (hinv.emitted_le.trans hinv.row_le) hcompletes
  · intro available fuel s calls hs hcompleted k init
    have hp := decodeScan_progress fuel (scanInvariant_started _ _) hs
    have hlog := (bufferedRun_invariant (f := f.toSingleComponentFrame) (d := d) calls).progress.log
    rw [hp.log, hp.decoded, Nat.add_zero, scanCalls_eq_rows, hlog, hcompleted]
    exact outputBuffer_rows idct init k

end Jp4Tools.BufferedDecoding
