import Jp4Tools.Deblocking
import Jp4Tools.Scanlines

/-!
# From the JP4 stream to the Bayer mosaic

`JP4::open` reads the frame line by line into `temp` and deblocks it into `_data`. A JP4 frame
has one component with sampling factors 2 and 2, so an MCU is a macroblock of 16 by 16 samples;
each of its four blocks becomes one phase of the Bayer mosaic.
-/

namespace Jp4Tools.BayerPlacement
open CountedLoops WriteLogs MachineIntegers JpegFrameSetup CoefficientController MainController
open TiledScanCoverage Scanlines Deblocking

variable {α β : Type*}

/-- A decoder on a file: `fill_input_buffer` of jdatasrc.c always delivers bytes. -/
def stdioSource (mcu : ℕ → ℕ → β) : EntropyDecoder β := ⟨mcu, fun _ => true⟩

/-- The loop over `line` and `column`, as its stores to `temp`. The scanline buffer keeps its
content when no line is read. -/
def readLines (d : EntropyDecoder β) (idct : β → ℕ → ℕ → α) (init : ℕ × ℕ → α)
    (cinfo : JpegDecompress) : ℕ → ℕ → (ℕ → α) → MainState β → List (ℕ × α)
  | 0, _, _, _ => []
  | fuel + 1, line, buffer, s =>
    if line < cinfo.imageHeight then
      let (rows, s) := jpegReadScanlines d idct init cinfo s 1
      let buffer := rows.headD buffer
      forLoop (fun column => decide (column < cinfo.imageWidth)) (fun column => u32 (column + 1))
        (fun column => [(u32 (line * cinfo.imageWidth + column), buffer column)])
        cinfo.imageWidth 0 ++
      readLines d idct init cinfo fuel (u32 (line + 1)) buffer s
    else []

/-- The memory that `JP4::open` does not initialise before it is written. -/
structure FreshMemory (α : Type*) where
  workspace : ℕ × ℕ → α
  buffer : ℕ → α
  temp : ℕ → α
  data : ℕ → α

/-- The pixel data of `JP4::open`, from the header and the MCUs of the frame. -/
def openData (mcu : ℕ → ℕ → β) (idct : β → ℕ → ℕ → α) (mem : FreshMemory α)
    (header : JpegDecompress) : Except JpegError (ℕ → α) :=
  match initialSetup header with
  | .error e => .error e
  | .ok cinfo => match perScanSetup cinfo with
    | (_, some e) => .error e
    | (cinfo, none) =>
      let temp := replay (readLines (stdioSource mcu) idct mem.workspace cinfo cinfo.imageHeight 0
        mem.buffer (startDecompress cinfo)) mem.temp
      .ok (deblock cinfo.imageWidth cinfo.imageHeight temp mem.data)

section Lines
variable {f : SingleComponentFrame} {d : EntropyDecoder β}

private theorem columns_eq (line : ℕ) (hline : line < f.height) (buffer : ℕ → α) :
    forLoop (fun column => decide (column < f.width)) (fun column => u32 (column + 1))
        (fun column => [(u32 (line * f.width + column), buffer column)]) f.width 0 =
      (List.range f.width).map (fun x => (line * f.width + x, buffer x)) := by
  have hw := f.width_le
  have hh := f.height_le
  simp only [jpegMaxDimension] at hw hh
  have harea : line * f.width ≤ 65500 * 65500 := Nat.mul_le_mul (by omega) hw
  rw [forLoop_count _ (fun column hcolumn => u32_of_lt (by omega)), List.map_eq_flatMap]
  refine List.flatMap_congr (fun x hx => ?_)
  have hx : x < f.width := List.mem_range.mp hx
  rw [u32_of_lt (by omega)]

theorem readLines_eq (hd : ∀ t, d.available t = true) (idct : β → ℕ → ℕ → α) (init : ℕ × ℕ → α)
    (fuel y : ℕ) (buffer : ℕ → α) (s : MainState β) (h : Reading f d y s)
    (hfuel : y + fuel = f.height) :
    readLines d idct init f.scanning fuel y buffer s = (List.range' y fuel).flatMap (fun line =>
      (List.range f.width).map (fun x => (line * f.width + x, sampleAt f d idct line x))) := by
  induction fuel generalizing y buffer s with
  | zero => rfl
  | succ fuel ih =>
    have hy : y < f.height := by omega
    obtain ⟨rows, s', he, hpos, hle, -, hnext, hrows⟩ :=
      jpegReadScanlines_spec hd idct init h hy Nat.one_pos
    obtain ⟨row, rfl⟩ : ∃ row, rows = [row] := List.length_eq_one_iff.mp (by omega)
    have hsucc : u32 (y + 1) = y + 1 := by
      have := f.height_le
      simp only [jpegMaxDimension] at this
      exact u32_of_lt (by omega)
    have hheight : f.scanning.imageHeight = f.height := rfl
    have hwidth : f.scanning.imageWidth = f.width := rfl
    rw [readLines, hheight, hwidth, if_pos hy, he, List.range'_succ, List.flatMap_cons]
    simp only [List.headD_cons]
    rw [columns_eq y hy, hsucc, ih (y + 1) row s' hnext (by omega)]
    congr 1
    refine List.map_congr_left (fun x hx => ?_)
    rw [show row x = sampleAt f d idct y x from hrows 0 hpos x (List.mem_range.mp hx)]

theorem temp_pixel (hd : ∀ t, d.available t = true) (idct : β → ℕ → ℕ → α) (mem : FreshMemory α)
    {x y : ℕ} (hx : x < f.width) (hy : y < f.height) :
    replay (readLines d idct mem.workspace f.scanning f.height 0 mem.buffer
      (startDecompress f.scanning)) mem.temp (y * f.width + x) = sampleAt f d idct y x := by
  rw [readLines_eq hd idct mem.workspace f.height 0 mem.buffer _ (reading_startDecompress f d)
    (Nat.zero_add _), ← List.range_eq_range']
  refine replay_of_mem ?_ mem.temp ?_
  · have hkeys : ((List.range f.height).flatMap (fun line => (List.range f.width).map
        (fun x => (line * f.width + x, sampleAt f d idct line x)))).map Prod.fst =
        List.range (f.width * f.height) := by
      rw [range_mul_eq_flatMap, List.map_flatMap]
      refine List.flatMap_congr (fun line _ => ?_)
      rw [List.map_map]
      exact List.map_congr_left (fun x _ => by rw [Function.comp_apply, Nat.mul_comm])
    rw [hkeys]
    exact List.nodup_range
  · exact List.mem_flatMap.mpr ⟨y, List.mem_range.mpr hy,
      List.mem_map.mpr ⟨x, List.mem_range.mpr hx, rfl⟩⟩

end Lines

/-- The size of a JP4 frame, made of whole macroblocks. -/
structure Jp4Size where
  width : ℕ
  height : ℕ
  width_pos : 0 < width
  height_pos : 0 < height
  width_tiled : 16 ∣ width
  height_tiled : 16 ∣ height

namespace Jp4Size
variable (size : Jp4Size)

def header : JpegDecompress where
  imageWidth := size.width
  imageHeight := size.height
  dataPrecision := bitsInJsample
  progressiveMode := false
  compInfo := [{ componentIndex := 0, hSampFactor := 2, vSampFactor := 2 }]
  curCompInfo := [0]

def Fits : Prop := size.width ≤ jpegMaxDimension ∧ size.height ≤ jpegMaxDimension

def frame (h : size.Fits) : SingleComponentFrame where
  width := size.width
  height := size.height
  width_pos := size.width_pos
  width_le := h.1
  height_pos := size.height_pos
  height_le := h.2
  h := 2
  v := 2
  h_pos := by decide
  h_le := by decide
  v_pos := by decide
  v_le := by decide

theorem openData_refused (mcu : ℕ → ℕ → β) (idct : β → ℕ → ℕ → α) (mem : FreshMemory α)
    (h : ¬ size.Fits) :
    openData mcu idct mem size.header = .error (.imageTooBig jpegMaxDimension) := by
  have hbig : jpegMaxDimension < size.height ∨ jpegMaxDimension < size.width := by
    simp only [Fits] at h
    omega
  simp only [openData, initialSetup, header, hbig, if_true]

variable {size}

theorem openData_frame (mcu : ℕ → ℕ → β) (idct : β → ℕ → ℕ → α) (mem : FreshMemory α)
    (h : size.Fits) :
    openData mcu idct mem size.header = .ok (deblock size.width size.height
      (replay (readLines (stdioSource mcu) idct mem.workspace (size.frame h).scanning size.height 0
        mem.buffer (startDecompress (size.frame h).scanning)) mem.temp) mem.data) := by
  have hsetup : initialSetup size.header = .ok (size.frame h).ready := initialSetup_header (size.frame h)
  have hscan : perScanSetup (size.frame h).ready = ((size.frame h).scanning, none) :=
    perScanSetup_fits _ (show 2 * 2 ≤ 10 by decide)
  simp only [openData, hsetup, hscan]
  rfl

theorem sampleAt_tileSource (h : size.Fits) (d : EntropyDecoder β) (idct : β → ℕ → ℕ → α) (x y : ℕ) :
    sampleAt (size.frame h) d idct (tileSource y) (tileSource x) =
      idct (d.mcu (y / 16 * (size.width / 16) + x / 16) (2 * (y % 2) + x % 2))
        (y % 16 / 2) (x % 16 / 2) := by
  have hmcus : (size.frame h).mcusPerRow = size.width / 16 := by
    obtain ⟨cols, hcols⟩ := size.width_tiled
    simp only [SingleComponentFrame.mcusPerRow, frame, jdivRoundUp, dctSize]
    omega
  have hsource (t : ℕ) : tileSource t / dctSize = 2 * (t / 16) + t % 2 ∧
      tileSource t % dctSize = t % 16 / 2 := by
    have hphase : t % 16 % 2 = t % 2 := by omega
    have hlt : t % 16 / 2 < 8 := by omega
    simp only [tileSource, source16, dctSize, hphase]
    omega
  have hmcu : mcuAt (size.frame h) (2 * (y / 16) + y % 2) (2 * (x / 16) + x % 2) =
      y / 16 * (size.width / 16) + x / 16 := by
    have hhalf (t : ℕ) : (2 * (t / 16) + t % 2) / 2 = t / 16 := by omega
    rw [mcuAt, hmcus, Nat.mul_comm]
    exact congrArg₂ _ (congrArg (· * _) (hhalf y)) (hhalf x)
  have hblkn : blknAt (size.frame h) (2 * (y / 16) + y % 2) (2 * (x / 16) + x % 2) =
      2 * (y % 2) + x % 2 := by
    simp only [blknAt, frame]
    omega
  rw [sampleAt, (hsource y).1, (hsource y).2, (hsource x).1, (hsource x).2, hmcu, hblkn]

end Jp4Size

/-- Every accepted JP4 frame is opened without an access outside the arrays and with one store to
each entry of `_data`. Sample `(u, w)` of block `k` of the `n`-th MCU ends up in the `n`-th
macroblock, at row `2 * u + k / 2` and column `2 * w + k % 2`, so a block is one Bayer phase. -/
theorem bayer_placement (size : Jp4Size) (mcu : ℕ → ℕ → β) (idct : β → ℕ → ℕ → α)
    (mem : FreshMemory α) :
    (¬ size.Fits → openData mcu idct mem size.header = .error (.imageTooBig jpegMaxDimension)) ∧
    (size.Fits → InBounds size.width size.height ∧ AssignedOnce size.width size.height ∧
      ∃ data, openData mcu idct mem size.header = .ok data ∧
        (∀ n < size.width / 16 * (size.height / 16), ∀ k < 4, ∀ u < 8, ∀ w < 8,
          data ((16 * (n / (size.width / 16)) + 2 * u + k / 2) * size.width +
            (16 * (n % (size.width / 16)) + 2 * w + k % 2)) = idct (mcu n k) u w) ∧
        ∀ y < size.height, ∀ x < size.width,
          data (y * size.width + x) =
            idct (mcu (y / 16 * (size.width / 16) + x / 16) (2 * (y % 2) + x % 2))
              (y % 16 / 2) (x % 16 / 2)) := by
  refine ⟨size.openData_refused mcu idct mem, fun hfits => ?_⟩
  have hsafe := deblock_safe_of_tiled (size.frame hfits).toFrameSize size.width_tiled
    size.height_tiled
  have hpixel (y : ℕ) (hy : y < size.height) (x : ℕ) (hx : x < size.width) :
      deblock size.width size.height (replay (readLines (stdioSource mcu) idct mem.workspace
        (size.frame hfits).scanning size.height 0 mem.buffer
        (startDecompress (size.frame hfits).scanning)) mem.temp) mem.data (y * size.width + x) =
      idct (mcu (y / 16 * (size.width / 16) + x / 16) (2 * (y % 2) + x % 2))
        (y % 16 / 2) (x % 16 / 2) := by
    have hdeblock := deblock_pixel (size.frame hfits).toFrameSize size.width_tiled
      size.height_tiled (replay (readLines (stdioSource mcu) idct mem.workspace
        (size.frame hfits).scanning size.height 0 mem.buffer
        (startDecompress (size.frame hfits).scanning)) mem.temp) mem.data hx hy
    refine hdeblock.trans ?_
    have htemp := temp_pixel (f := size.frame hfits) (d := stdioSource mcu) (fun _ => rfl) idct mem
      (tileSource_lt size.width_tiled hx) (tileSource_lt size.height_tiled hy)
    exact htemp.trans (Jp4Size.sampleAt_tileSource hfits _ idct x y)
  refine ⟨hsafe.1, hsafe.2, _, Jp4Size.openData_frame mcu idct mem hfits, ?_, hpixel⟩
  intro n hn k hk u hu w hw
  obtain ⟨cols, hcols⟩ := size.width_tiled
  obtain ⟨rows, hrows⟩ := size.height_tiled
  have hw16 : size.width / 16 = cols := by omega
  have hh16 : size.height / 16 = rows := by omega
  rw [hw16, hh16] at hn
  rw [hw16] at hpixel ⊢
  have hpos : 0 < cols := Nat.pos_of_mul_pos_left (a := 16) (hcols ▸ size.width_pos)
  have hrow : n / cols < rows := Nat.div_lt_of_lt_mul hn
  have hcol : n % cols < cols := Nat.mod_lt n hpos
  have hy : 16 * (n / cols) + 2 * u + k / 2 < size.height := by omega
  have hx : 16 * (n % cols) + 2 * w + k % 2 < size.width := by omega
  have hat := hpixel _ hy _ hx
  have e₁ : (16 * (n / cols) + 2 * u + k / 2) / 16 = n / cols := by omega
  have e₂ : (16 * (n % cols) + 2 * w + k % 2) / 16 = n % cols := by omega
  have e₃ : 2 * ((16 * (n / cols) + 2 * u + k / 2) % 2) + (16 * (n % cols) + 2 * w + k % 2) % 2 = k := by
    omega
  have e₄ : (16 * (n / cols) + 2 * u + k / 2) % 16 / 2 = u := by omega
  have e₅ : (16 * (n % cols) + 2 * w + k % 2) % 16 / 2 = w := by omega
  rw [e₁, e₂, e₃, e₄, e₅, Nat.mul_comm (n / cols), Nat.div_add_mod] at hat
  exact hat

end Jp4Tools.BayerPlacement
