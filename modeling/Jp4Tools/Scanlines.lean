import Jp4Tools.TiledScanCoverage

/-!
# The scanlines of a tiled frame

Whatever number of lines the caller asks for, `jpegReadScanlines` returns the next rows of the
component. The main controller replaces the contents of its workspace when an iMCU row is used
up, so a row must be handed out before the controller decodes past it.
-/

namespace Jp4Tools.Scanlines
open WriteLogs JpegFrameSetup CoefficientController MainController TiledScanCoverage

variable {α β : Type*}

def sampleAt (f : SingleComponentFrame) (d : EntropyDecoder β) (idct : β → ℕ → ℕ → α) (y x : ℕ) : α :=
  idct (d.mcu (mcuAt f (y / dctSize) (x / dctSize)) (blknAt f (y / dctSize) (x / dctSize)))
    (y % dctSize) (x % dctSize)

section Workspace
variable {f : SingleComponentFrame} {d : EntropyDecoder β} {idct : β → ℕ → ℕ → α}

def rowCalls (f : SingleComponentFrame) (d : EntropyDecoder β) (k : ℕ) : List (IdctCall β) :=
  (List.range f.mcusPerRow).flatMap (fun col => mcuCalls f d (k * f.mcusPerRow + col))

theorem scanCalls_succ (k : ℕ) :
    (List.range ((k + 1) * f.mcusPerRow)).flatMap (mcuCalls f d) =
      (List.range (k * f.mcusPerRow)).flatMap (mcuCalls f d) ++ rowCalls f d k := by
  rw [Nat.succ_mul, List.range_add, List.flatMap_append, List.flatMap_map]
  rfl

theorem mem_rowCalls {k : ℕ} {call : IdctCall β} : call ∈ rowCalls f d k ↔
    ∃ col < f.mcusPerRow, ∃ b < f.h * f.v, IsReal f (k * f.mcusPerRow + col) b ∧
      call = placed f d (k * f.mcusPerRow + col) b := by
  simp only [rowCalls, List.mem_flatMap, List.mem_range, mem_mcuCalls]

theorem nodup_rowCalls (k : ℕ) : (rowCalls f d k).Nodup := by
  have h := (nodup_scanCalls (f := f) (d := d) ((k + 1) * f.mcusPerRow)).of_map
  rw [scanCalls_succ] at h
  exact (List.nodup_append.mp h).2.1

theorem mem_idctWrites {call : IdctCall β} {r x : ℕ} {a : α} :
    ((r, x), a) ∈ idctWrites idct call ↔ ∃ u < dctSize, ∃ w < dctSize,
      r = call.outputRow + u ∧ x = call.outputCol + w ∧ a = idct call.coefBlock u w := by
  simp only [idctWrites, List.mem_flatMap, List.mem_map, List.mem_range, Prod.mk.injEq, and_assoc]
  exact ⟨fun ⟨u, hu, w, hw, hr, hx, ha⟩ => ⟨u, hu, w, hw, hr.symm, hx.symm, ha.symm⟩,
    fun ⟨u, hu, w, hw, hr, hx, ha⟩ => ⟨u, hu, w, hw, hr.symm, hx.symm, ha.symm⟩⟩

theorem nodup_idctWrites (call : IdctCall β) : ((idctWrites idct call).map Prod.fst).Nodup := by
  rw [idctWrites, List.map_flatMap]
  refine nodup_flatMap_of_index (fun p => p.1 - call.outputRow) List.nodup_range (fun u _ => ?_)
    (fun u _ p hp => ?_)
  · rw [List.map_map]
    exact List.nodup_range.map (fun w w' h => Nat.add_left_cancel (congrArg Prod.snd h))
  · simp only [List.map_map, List.mem_map] at hp
    obtain ⟨w, -, rfl⟩ := hp
    exact Nat.add_sub_cancel_left _ _

theorem placed_of_row {k col b : ℕ} (hcol : col < f.mcusPerRow) (hb : b < f.h * f.v) :
    mcuAt f (f.v * k + b / f.h) (blockCol f (k * f.mcusPerRow + col) b) = k * f.mcusPerRow + col ∧
      blknAt f (f.v * k + b / f.h) (blockCol f (k * f.mcusPerRow + col) b) = b := by
  have hk : (k * f.mcusPerRow + col) / f.mcusPerRow = k := by
    rw [Nat.mul_comm, cell_div _ hcol]
  have hrow : f.v * k + b / f.h = blockRow f (k * f.mcusPerRow + col) b := by rw [blockRow, hk]
  rw [hrow]
  exact ⟨mcuAt_block f hb, blknAt_block f hb⟩

theorem nodup_rowWrites (k : ℕ) :
    (((rowCalls f d k).flatMap (idctWrites idct)).map Prod.fst).Nodup := by
  rw [List.map_flatMap]
  refine nodup_flatMap_of_index (fun p => placed f d
    (mcuAt f (f.v * k + p.1 / dctSize) (p.2 / dctSize))
    (blknAt f (f.v * k + p.1 / dctSize) (p.2 / dctSize))) (nodup_rowCalls k)
    (fun call _ => nodup_idctWrites call) (fun call hcall p hp => ?_)
  obtain ⟨⟨⟨r, x⟩, a⟩, hw, rfl⟩ := List.mem_map.mp hp
  obtain ⟨col, hcol, b, hb, -, rfl⟩ := mem_rowCalls.mp hcall
  obtain ⟨u, hu, v, hv, rfl, rfl, -⟩ := mem_idctWrites.mp hw
  have hat := placed_of_row (k := k) hcol hb
  simp only [placed, cell_div _ hu, cell_div _ hv, hat.1, hat.2]

/-- After iMCU row `k` the workspace holds its samples, whatever was there before. -/
theorem mainBuffer_row {k r x : ℕ} {s : DecodeState β} (h : Progress f d (k + 1) 0 s)
    (init : ℕ × ℕ → α) (hr : r < dctSize * f.v)
    (hy : f.v * k + r / dctSize < f.heightInBlocks) (hx : x / dctSize < f.widthInBlocks) :
    mainBuffer idct init 0 s (r, x) = sampleAt f d idct (dctSize * (f.v * k) + r) x := by
  have hfilter : s.idctCalls.filter (fun call => call.component = 0) = s.idctCalls := by
    refine List.filter_eq_self.mpr (fun call hcall => ?_)
    rw [h.log] at hcall
    obtain ⟨n, -, b, -, -, rfl⟩ := mem_scanCalls.mp hcall
    exact decide_eq_true rfl
  have hdiv : (dctSize * (f.v * k) + r) / dctSize = f.v * k + r / dctSize := Nat.mul_add_div (by decide) _ _
  have hmod : (dctSize * (f.v * k) + r) % dctSize = r % dctSize := Nat.mul_add_mod _ _ _
  rw [mainBuffer, hfilter, h.log, h.decoded, Nat.add_zero, scanCalls_succ, List.flatMap_append,
    replay_append]
  refine replay_of_mem (nodup_rowWrites k) _ (List.mem_flatMap.mpr ?_)
  have hat := block_at (f.v * k + r / dctSize) hx
  have hcol := mcuAt_column_lt hx
  have hrdiv : r / dctSize < f.v := Nat.div_lt_of_lt_mul hr
  have hn : mcuAt f (f.v * k + r / dctSize) (x / dctSize) =
      k * f.mcusPerRow + x / dctSize / f.h := by
    rw [mcuAt, cell_div _ hrdiv, Nat.mul_comm]
  have hb : blknAt f (f.v * k + r / dctSize) (x / dctSize) / f.h = r / dctSize := by
    rw [blknAt, cell_div _ (Nat.mod_lt _ f.h_pos), cell_mod _ hrdiv]
  refine ⟨placed f d (mcuAt f (f.v * k + r / dctSize) (x / dctSize))
    (blknAt f (f.v * k + r / dctSize) (x / dctSize)), ?_, ?_⟩
  · refine mem_rowCalls.mpr ⟨_, hcol, _, blknAt_lt f _ _, ?_, by rw [hn]⟩
    rw [← hn, IsReal, hat.1, hat.2]
    exact ⟨hy, hx⟩
  · refine mem_idctWrites.mpr ⟨r % dctSize, Nat.mod_lt _ (by decide), x % dctSize,
      Nat.mod_lt _ (by decide), ?_, ?_, ?_⟩
    · rw [placed, hb, Nat.div_add_mod]
    · rw [placed, hat.2, Nat.div_add_mod]
    · rw [sampleAt, hdiv, hmod, placed]

end Workspace

section Reading
variable {f : SingleComponentFrame} {d : EntropyDecoder β}

/-- The first `k` iMCU rows are decoded, and the scan goes on when there are more. -/
def DecodedRows (f : SingleComponentFrame) (d : EntropyDecoder β) (k : ℕ) (s : DecodeState β) : Prop :=
  Progress f d k 0 s ∧ (k < f.mcuRows → ScanInvariant f d s)

theorem decodedRows_started (f : SingleComponentFrame) (d : EntropyDecoder β) :
    DecodedRows f d 0 (started f.scanning) := by
  refine ⟨?_, fun _ => scanInvariant_started f d⟩
  have h := (scanInvariant_started f d).progress
  rw [started_eq] at h ⊢
  exact h

theorem decompressOnepass_nextRow (hd : ∀ t, d.available t = true) {k : ℕ} {s : DecodeState β}
    (h : DecodedRows f d k s) (hk : k < f.mcuRows) :
    ∃ code s', decompressOnepass d f.scanning s = (code, s') ∧ code ≠ .suspended ∧
      DecodedRows f d (k + 1) s' := by
  have hrow := h.1.inputRow
  rcases decompressOnepass_spec (h.2 hk) with ⟨s', -, -, -, t, ht⟩ | ⟨s', he, hinv, hnext, hcol⟩ |
    ⟨s', he, hlast, hp⟩
  · simp [hd t] at ht
  · have hp := hinv.progress
    rw [hnext, hcol, hrow] at hp
    exact ⟨_, s', he, by decide, hp, fun _ => hinv⟩
  · have hlast : k + 1 = f.mcuRows := by rw [← hrow, hlast]
    exact ⟨_, s', he, by decide, hlast ▸ hp, fun h => absurd h (by omega)⟩

/-- `t` rows of row group `g` of iMCU row `k` are handed out, and all rows before them. -/
structure ReadInvariant (f : SingleComponentFrame) (d : EntropyDecoder β) (k g t : ℕ)
    (s : MainState β) : Prop where
  group_lt : g < dctSize
  row_lt : t < f.v
  scanline : s.outputScanline = f.v * (dctSize * k + g) + t
  rowsToGo : s.rowsToGo = f.height - s.outputScanline
  full : s.bufferFull = decide (¬ (g = 0 ∧ t = 0))
  rowgroup : s.rowgroupCtr = g
  nextRow : s.nextRowOut = if t = 0 then f.v else t
  colorBuf : t ≠ 0 → s.colorBuf = g * f.v
  decoded : DecodedRows f d (if g = 0 ∧ t = 0 then k else k + 1) s.decode

theorem readInvariant_startDecompress (f : SingleComponentFrame) (d : EntropyDecoder β) :
    ReadInvariant f d 0 0 0 (startDecompress f.scanning) where
  group_lt := by decide
  row_lt := f.v_pos
  scanline := by simp [startDecompress]
  rowsToGo := rfl
  full := rfl
  rowgroup := rfl
  nextRow := rfl
  colorBuf := fun h => absurd rfl h
  decoded := decodedRows_started f d

theorem fillBuffer_spec (hd : ∀ t, d.available t = true) {k g t : ℕ} {s : MainState β}
    (h : ReadInvariant f d k g t s) (hk : k < f.mcuRows) :
    ∃ decode, fillBuffer d f.scanning s = (true, { s with decode, bufferFull := true }) ∧
      DecodedRows f d (k + 1) decode := by
  have hfull := h.full
  have hdecoded := h.decoded
  by_cases hfirst : g = 0 ∧ t = 0
  · rw [decide_eq_false (not_not.mpr hfirst)] at hfull
    rw [if_pos hfirst] at hdecoded
    obtain ⟨code, decode, he, hne, hnext⟩ := decompressOnepass_nextRow hd hdecoded hk
    refine ⟨decode, ?_, hnext⟩
    cases code with
    | suspended => exact absurd rfl hne
    | rowCompleted => simp [fillBuffer, hfull, he]
    | scanCompleted => simp [fillBuffer, hfull, he]
  · rw [decide_eq_true hfirst] at hfull
    rw [if_neg hfirst] at hdecoded
    refine ⟨s.decode, ?_, hdecoded⟩
    rw [fillBuffer, if_pos hfull]
    cases s
    simp_all

/-- The upsampler hands out what is left of the row group, of the image or of the request. -/
theorem sepUpsample_spec {k g t : ℕ} {s : MainState β} (h : ReadInvariant f d k g t s)
    (decode : DecodeState β) (buffer : ℕ × ℕ → α) (n : ℕ) :
    sepUpsample f.scanning buffer { s with decode, bufferFull := true } n =
      ((List.range (min (min (f.v - t) s.rowsToGo) n)).map (fun i x => buffer (g * f.v + t + i, x)),
        { s with
          decode, bufferFull := true, colorBuf := g * f.v
          rowsToGo := s.rowsToGo - min (min (f.v - t) s.rowsToGo) n
          nextRowOut := t + min (min (f.v - t) s.rowsToGo) n
          rowgroupCtr := if f.v ≤ t + min (min (f.v - t) s.rowsToGo) n then g + 1 else g }) := by
  have hv := f.v_pos
  have hrow := h.row_lt
  have hnext := h.nextRow
  have hgroup := h.rowgroup
  have hmax : f.scanning.maxVSampFactor = f.v := rfl
  have hheight : (f.scanning.comp 0).vSampFactor * (f.scanning.comp 0).dctScaledSize /
      f.scanning.minDctScaledSize = f.v := Nat.mul_div_cancel f.v (show 0 < dctSize by decide)
  by_cases ht : t = 0
  · rw [if_pos ht] at hnext
    subst ht
    simp only [sepUpsample, hheight, hmax, hnext, hgroup, le_refl, if_true, Nat.add_zero, Nat.zero_add]
    split_ifs <;> rfl
  · rw [if_neg ht] at hnext
    have hcolor := h.colorBuf ht
    have hgo : ¬ f.v ≤ t := by omega
    simp only [sepUpsample, hheight, hmax, hnext, hgroup, hcolor, hgo, if_false]
    split_ifs <;> rfl

theorem height_le_mcuRows (f : SingleComponentFrame) : f.height ≤ f.v * (dctSize * f.mcuRows) := by
  have h := Nat.lt_mul_div_succ (f.height + f.v * dctSize - 1) (b := f.v * dctSize)
    (Nat.mul_pos f.v_pos (by decide))
  rw [Nat.mul_succ] at h
  rw [← Nat.mul_assoc]
  simp only [SingleComponentFrame.mcuRows, jdivRoundUp]
  omega

theorem height_le_blocks (f : SingleComponentFrame) : f.height ≤ dctSize * f.heightInBlocks := by
  simp only [SingleComponentFrame.heightInBlocks, jdivRoundUp, dctSize]
  omega

theorem width_le_blocks (f : SingleComponentFrame) : f.width ≤ dctSize * f.widthInBlocks := by
  simp only [SingleComponentFrame.widthInBlocks, jdivRoundUp, dctSize]
  omega

def Reading (f : SingleComponentFrame) (d : EntropyDecoder β) (y : ℕ) (s : MainState β) : Prop :=
  s.outputScanline = y ∧ ∃ k g t, ReadInvariant f d k g t s

theorem reading_startDecompress (f : SingleComponentFrame) (d : EntropyDecoder β) :
    Reading f d 0 (startDecompress f.scanning) :=
  ⟨rfl, 0, 0, 0, readInvariant_startDecompress f d⟩

private theorem ReadInvariant.advance {k g t count : ℕ} {s : MainState β} {decode : DecodeState β}
    (h : ReadInvariant f d k g t s) (hdecode : DecodedRows f d (k + 1) decode) (hcount : 0 < count)
    (hfit : t + count ≤ f.v) (colorBuf : ℕ) (hcolor : colorBuf = g * f.v) :
    ∃ k' g' t', ReadInvariant f d k' g' t'
      { decode, colorBuf
        bufferFull := decide (¬ dctSize ≤ if f.v ≤ t + count then g + 1 else g)
        rowgroupCtr := if dctSize ≤ (if f.v ≤ t + count then g + 1 else g) then 0
          else if f.v ≤ t + count then g + 1 else g
        rowsToGo := s.rowsToGo - count
        nextRowOut := t + count
        outputScanline := s.outputScanline + count } := by
  have hscan := h.scanline
  have hg := h.group_lt
  have hgo : s.rowsToGo - count = f.height - (s.outputScanline + count) := by
    rw [h.rowsToGo, Nat.sub_sub]
  by_cases hgroup : f.v ≤ t + count
  · have hlast : t + count = f.v := le_antisymm hfit hgroup
    simp only [hgroup, if_true]
    by_cases hmore : g + 1 < dctSize
    · refine ⟨k, g + 1, 0, hmore, f.v_pos, ?_, hgo, ?_, ?_, ?_, fun h => absurd rfl h, ?_⟩
      · simp only [← Nat.add_assoc (dctSize * k), Nat.mul_succ]
        omega
      · simp [hmore]
      · simp [hmore]
      · simp [hlast]
      · simpa using hdecode
    · have hdct : g + 1 = dctSize := by omega
      refine ⟨k + 1, 0, 0, by decide, f.v_pos, ?_, hgo, ?_, ?_, ?_, fun h => absurd rfl h, ?_⟩
      · have : f.v * (dctSize * (k + 1) + 0) + 0 = f.v * (dctSize * k + g) + f.v := by
          rw [← Nat.mul_succ, Nat.succ_eq_add_one, Nat.add_assoc, hdct]
          rfl
        simp only [this]
        omega
      · simp [hdct]
      · simp [hdct]
      · simp [hlast]
      · simpa using hdecode
  · have hmore : ¬ dctSize ≤ g := by omega
    have hne : t + count ≠ 0 := by omega
    refine ⟨k, g, t + count, hg, by omega, ?_, hgo, ?_, ?_, ?_, fun _ => hcolor, ?_⟩
    · simp only [hscan, Nat.add_assoc]
    · simp only [hgroup, if_false, hmore, hne, and_false, not_false_iff]
    · simp only [hgroup, if_false, hmore]
    · simp only [hne, if_false]
    · simpa only [hne, and_false, if_false] using hdecode

private theorem mainBuffer_scanline {k g t i x : ℕ} {s : MainState β} {decode : DecodeState β}
    (h : ReadInvariant f d k g t s) (hdecode : DecodedRows f d (k + 1) decode)
    (idct : β → ℕ → ℕ → α) (init : ℕ × ℕ → α) (hi : t + i < f.v) (hy : s.outputScanline + i < f.height)
    (hx : x < f.width) :
    mainBuffer idct init 0 decode (g * f.v + t + i, x) = sampleAt f d idct (s.outputScanline + i) x := by
  have hscan := h.scanline
  have hcoords : f.v * (dctSize * k + g) + t = dctSize * (f.v * k) + (g * f.v + t) := by ring
  have hrow : g * f.v + t + i < dctSize * f.v := by
    have := Nat.mul_le_mul_right f.v (show g + 1 ≤ dctSize from h.group_lt)
    rw [Nat.succ_mul] at this
    omega
  have hlast := height_le_blocks f
  have hblock : f.v * k + (g * f.v + t + i) / dctSize < f.heightInBlocks := by
    have : (dctSize * (f.v * k) + (g * f.v + t + i)) / dctSize < f.heightInBlocks :=
      Nat.div_lt_of_lt_mul (by omega)
    rwa [Nat.mul_add_div (by decide)] at this
  have hcol : x / dctSize < f.widthInBlocks :=
    Nat.div_lt_of_lt_mul (hx.trans_le (width_le_blocks f))
  rw [mainBuffer_row hdecode.1 init hrow hblock hcol, hscan, hcoords, Nat.add_assoc (dctSize * _)]

/-- The main controller hands out `count` rows of the row group, and leaves the iMCU row when they
were its last. -/
private theorem processDataSimpleMain_spec (hd : ∀ t, d.available t = true) {k g t : ℕ}
    {s : MainState β} (h : ReadInvariant f d k g t s) (hk : k < f.mcuRows) (idct : β → ℕ → ℕ → α)
    (init : ℕ × ℕ → α) {n count : ℕ} (hcount : min (min (f.v - t) s.rowsToGo) n = count) :
    ∃ decode, DecodedRows f d (k + 1) decode ∧
      processDataSimpleMain d idct init f.scanning s n =
        ((List.range count).map (fun i x => mainBuffer idct init 0 decode (g * f.v + t + i, x)),
          { decode, colorBuf := g * f.v
            bufferFull := decide (¬ dctSize ≤ if f.v ≤ t + count then g + 1 else g)
            rowgroupCtr := if dctSize ≤ (if f.v ≤ t + count then g + 1 else g) then 0
              else if f.v ≤ t + count then g + 1 else g
            rowsToGo := s.rowsToGo - count
            nextRowOut := t + count
            outputScanline := s.outputScanline }) := by
  obtain ⟨decode, hfill, hdecode⟩ := fillBuffer_spec hd h hk
  have hups := sepUpsample_spec h decode (mainBuffer idct init 0 decode) n
  have hmin : f.scanning.minDctScaledSize = dctSize := rfl
  rw [hcount] at hups
  refine ⟨decode, hdecode, ?_⟩
  simp only [processDataSimpleMain, hfill, hups, hmin]
  by_cases hdone : dctSize ≤ if f.v ≤ t + count then g + 1 else g
  · simp only [hdone, if_true, not_true, decide_false]
  · simp only [hdone, if_false, not_false_iff, decide_true]

/-- A request for `n` scanlines returns some, not too many, and they are the next ones. -/
theorem jpegReadScanlines_spec (hd : ∀ t, d.available t = true) (idct : β → ℕ → ℕ → α)
    (init : ℕ × ℕ → α) {y : ℕ} {s : MainState β} (h : Reading f d y s) (hy : y < f.height) {n : ℕ}
    (hn : 0 < n) :
    ∃ rows s', jpegReadScanlines d idct init f.scanning s n = (rows, s') ∧ 0 < rows.length ∧
      rows.length ≤ n ∧ y + rows.length ≤ f.height ∧ Reading f d (y + rows.length) s' ∧
      ∀ i (hi : i < rows.length) x, x < f.width → rows[i] x = sampleAt f d idct (y + i) x := by
  obtain ⟨rfl, k, g, t, h⟩ := h
  have hscan := h.scanline
  have ht := h.row_lt
  have hgo := h.rowsToGo
  have hk : k < f.mcuRows := by
    have := height_le_mcuRows f
    have hlt : f.v * (dctSize * k) < f.v * (dctSize * f.mcuRows) := by
      rw [Nat.mul_add] at hscan
      omega
    exact Nat.lt_of_mul_lt_mul_left (Nat.lt_of_mul_lt_mul_left hlt)
  obtain ⟨count, hcount⟩ : ∃ count, min (min (f.v - t) s.rowsToGo) n = count := ⟨_, rfl⟩
  obtain ⟨decode, hdecode, hprocess⟩ := processDataSimpleMain_spec hd h hk idct init hcount
  have hpos : 0 < count := by omega
  have hadvance := h.advance hdecode hpos (by omega) (g * f.v) rfl
  have hread : ¬ f.scanning.imageHeight ≤ s.outputScanline := Nat.not_le.mpr hy
  refine ⟨_, _, by rw [jpegReadScanlines, if_neg hread, hprocess], ?_, ?_, ?_, ⟨rfl, ?_⟩, ?_⟩
  · simpa only [List.length_map, List.length_range] using hpos
  · simp only [List.length_map, List.length_range]
    omega
  · simp only [List.length_map, List.length_range]
    omega
  · simpa only [List.length_map, List.length_range] using hadvance
  · intro i hi x hx
    simp only [List.length_map, List.length_range] at hi
    simp only [List.getElem_map, List.getElem_range]
    exact mainBuffer_scanline h hdecode idct init (by omega) (by omega) hx

end Reading

end Jp4Tools.Scanlines
