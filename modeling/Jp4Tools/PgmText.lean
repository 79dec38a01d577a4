import Jp4Tools.BayerPlacement
import Jp4Tools.ImageFlips
import Jp4Tools.Printf
import Jp4Tools.Words

/-!
# Plain PGM files

`writePGM` prints the size, the maximum value and the samples as decimal numbers. A reader that
splits the text at white space finds the same numbers again.
-/

namespace Jp4Tools.PgmText
open CountedLoops MachineIntegers JpegFrameSetup Printf Words WriteLogs
open MainController Deblocking BayerPlacement

def writePGM (width height : ℕ) (data : ℕ → ℕ) : List Char :=
  'P' :: '2' :: '\n' :: (printInt width ++ ' ' :: (printInt height ++ '\n' :: (printInt 0xff ++ '\n' ::
    forLoop (fun i => decide (i < height)) (fun i => u32 (i + 1))
      (fun i => forLoop (fun j => decide (j < width)) (fun j => u32 (j + 1))
        (fun j => printInt (data (u32 (i * width + j))) ++ [' ']) width 0 ++ ['\n']) height 0)))

structure Pgm where
  width : ℕ
  height : ℕ
  maxval : ℕ
  samples : List ℕ
  deriving DecidableEq, Repr

def isSpace (c : Char) : Bool := decide (c ∈ [' ', '\t', '\n', '\x0b', '\x0c', '\r'])

/-- The reader of plain PGM files: the magic number, the size, the maximum value, and as many
samples as the size says, separated by white space. -/
def parsePgm (text : List Char) : Option Pgm :=
  match words isSpace text with
  | ['P', '2'] :: width :: height :: maxval :: samples => do
    let width ← parseDecimal width
    let height ← parseDecimal height
    let maxval ← parseDecimal maxval
    let samples ← samples.mapM parseDecimal
    if samples.length = width * height then some { width, height, maxval, samples } else none
  | _ => none

structure GrayImage extends FrameSize where
  data : ℕ → ℕ
  data_le : ∀ p < width * height, data p ≤ 255

section Reading
variable {n : ℕ}

theorem isSpace_of_isDigit {c : Char} (h : c.isDigit = true) : isSpace c = false := by
  have hspace : ∀ c ∈ [' ', '\t', '\n', '\x0b', '\x0c', '\r'], Char.isDigit c = false := sep_of_all (by decide)
  rw [isSpace, decide_eq_false_iff_not]
  intro hmem
  rw [hspace c hmem] at h
  cases h

theorem words_printInt (hn : n < 2 ^ 31) {c : Char} (hc : isSpace c = true) (text : List Char) :
    words isSpace (printInt n ++ c :: text) = decimal n :: words isSpace text := by
  rw [printInt_natCast hn]
  exact words_append_cons (fun c hc => isSpace_of_isDigit (isDigit_of_mem_decimal hc)) (decimal_ne_nil n)
    hc text

end Reading

namespace GrayImage
variable (image : GrayImage)

def samples : List ℕ := (List.range (image.width * image.height)).map image.data

theorem sample_lt {p : ℕ} (hp : p < image.width * image.height) : image.data p < 2 ^ 31 :=
  (image.data_le p hp).trans_lt (by decide)

theorem index_lt {i j : ℕ} (hi : i < image.height) (hj : j < image.width) :
    i * image.width + j < image.width * image.height :=
  @ImageFlips.pixel_lt (ImageFlips.frameSize image.toFrameSize) j i hi hj

theorem row_eq {i : ℕ} (hi : i < image.height) :
    forLoop (fun j => decide (j < image.width)) (fun j => u32 (j + 1))
        (fun j => printInt (image.data (u32 (i * image.width + j))) ++ [' ']) image.width 0 =
      (List.range image.width).flatMap (fun j => printInt (image.data (image.width * i + j)) ++ [' ']) := by
  have hwidth := (ImageFlips.frameSize image.toFrameSize).width_lt
  have harea := (ImageFlips.frameSize image.toFrameSize).area_lt
  simp only [ImageFlips.frameSize] at hwidth harea
  rw [forLoop_count _ (fun j hj => u32_of_lt (by omega))]
  apply List.flatMap_congr
  intro j hj
  have hindex := image.index_lt hi (List.mem_range.mp hj)
  rw [u32_of_lt (by omega), Nat.mul_comm i]

theorem words_row {i : ℕ} (hi : i < image.height) (text : List Char) :
    words isSpace ((List.range image.width).flatMap
        (fun j => printInt (image.data (image.width * i + j)) ++ [' ']) ++ text) =
      (List.range image.width).map (fun j => decimal (image.data (image.width * i + j))) ++
        words isSpace text := by
  rw [List.map_eq_flatMap]
  apply words_flatMap (fun j => [decimal (image.data (image.width * i + j))])
  intro j hj rest
  have hindex := image.index_lt hi (List.mem_range.mp hj)
  rw [Nat.mul_comm] at hindex
  rw [List.append_assoc, List.singleton_append,
    words_printInt (image.sample_lt hindex) (by decide), List.singleton_append]

theorem words_rows :
    words isSpace (forLoop (fun i => decide (i < image.height)) (fun i => u32 (i + 1))
      (fun i => forLoop (fun j => decide (j < image.width)) (fun j => u32 (j + 1))
        (fun j => printInt (image.data (u32 (i * image.width + j))) ++ [' ']) image.width 0 ++ ['\n'])
      image.height 0) = image.samples.map decimal := by
  have hheight := (ImageFlips.frameSize image.toFrameSize).height_lt
  simp only [ImageFlips.frameSize] at hheight
  rw [forLoop_count _ (fun i hi => u32_of_lt (by omega)), ← List.append_nil (List.flatMap _ _),
    words_flatMap (fun i => (List.range image.width).map
      (fun j => decimal (image.data (image.width * i + j)))), words_nil, List.append_nil, samples,
    range_mul_eq_flatMap, List.map_map, List.map_flatMap]
  · apply List.flatMap_congr
    intro i _
    rw [List.map_map]
    rfl
  · intro i hi text
    have hi : i < image.height := List.mem_range.mp hi
    rw [row_eq image hi, List.append_assoc, words_row image hi, List.singleton_append,
      words_cons_sep (by decide)]

theorem words_writePGM : words isSpace (writePGM image.width image.height image.data) =
    ['P', '2'] :: decimal image.width :: decimal image.height :: decimal 0xff ::
      image.samples.map decimal := by
  have hwidth : image.width < 2 ^ 31 := image.width_le.trans_lt (by decide)
  have hheight : image.height < 2 ^ 31 := image.height_le.trans_lt (by decide)
  have hmaxval : 0xff < 2 ^ 31 := by decide
  have hword : ∀ c ∈ ['P', '2'], isSpace c = false := sep_of_all (by decide)
  have hmagic : ∀ text, words isSpace ('P' :: '2' :: '\n' :: text) = ['P', '2'] :: words isSpace text :=
    words_append_cons hword (by decide) (by decide)
  rw [writePGM, hmagic, words_printInt hwidth (by decide), words_printInt hheight (by decide)]
  rw [← Nat.cast_ofNat, words_printInt hmaxval (by decide), words_rows]

theorem mapM_parseDecimal (l : List ℕ) : (l.map decimal).mapM parseDecimal = some l := by
  induction l with
  | nil => rfl
  | cons n l ih =>
    rw [List.map_cons, List.mapM_cons, parseDecimal_decimal, ih]
    rfl

theorem parsePgm_writePGM : parsePgm (writePGM image.width image.height image.data) =
    some { width := image.width, height := image.height, maxval := 255, samples := image.samples } := by
  have hlength : image.samples.length = image.width * image.height := by
    rw [samples, List.length_map, List.length_range]
  simp only [parsePgm, image.words_writePGM, parseDecimal_decimal, mapM_parseDecimal,
    Option.bind_eq_bind, Option.bind_some, hlength, if_true]

theorem samples_le : ∀ sample ∈ image.samples, sample ≤ 255 := by
  intro sample hsample
  obtain ⟨p, hp, rfl⟩ := List.mem_map.mp hsample
  exact image.data_le p (List.mem_range.mp hp)

end GrayImage

/-- `JP4::open` leaves a gray image for a frame made of whole macroblocks, whatever the fresh memory
holds. -/
theorem exists_grayImage {β : Type*} {size : Jp4Size} (h : size.Fits) (mcu : ℕ → ℕ → β)
    {idct : β → ℕ → ℕ → ℕ} (hidct : ∀ block u w, idct block u w ≤ 255) (mem : FreshMemory ℕ) :
    ∃ image : GrayImage, image.width = size.width ∧ image.height = size.height ∧
      openData mcu idct mem size.header = .ok image.data := by
  have hopen := Jp4Size.openData_frame mcu idct mem h
  refine ⟨⟨(size.frame h).toFrameSize, _, ?_⟩, rfl, rfl, hopen⟩
  intro p hp
  obtain ⟨y, hy, x, hx, rfl⟩ :=
    @ImageFlips.exists_pixel (ImageFlips.frameSize (size.frame h).toFrameSize) p hp
  have hdeblock := deblock_pixel (size.frame h).toFrameSize size.width_tiled size.height_tiled
    (replay (readLines (stdioSource mcu) idct mem.workspace (size.frame h).scanning size.height 0
      mem.buffer (startDecompress (size.frame h).scanning)) mem.temp) mem.data hx hy
  have htemp := temp_pixel (f := size.frame h) (d := stdioSource mcu) (fun _ => rfl) idct mem
    (tileSource_lt size.width_tiled hx) (tileSource_lt size.height_tiled hy)
  exact (hdeblock.trans htemp).trans_le (hidct _ _ _)

/-- The text of an image is read back as its size, a maximum value that no sample exceeds, and its
samples row by row. -/
theorem writePGM_reads_back (image : GrayImage) :
    parsePgm (writePGM image.width image.height image.data) =
        some { width := image.width, height := image.height, maxval := 255, samples := image.samples } ∧
      ∀ sample ∈ image.samples, sample ≤ 255 :=
  ⟨image.parsePgm_writePGM, image.samples_le⟩

/-- What `--pgm` makes of a frame that `JP4::open` has read. -/
theorem open_writePGM_reads_back {β : Type*} {size : Jp4Size} (h : size.Fits) (mcu : ℕ → ℕ → β)
    {idct : β → ℕ → ℕ → ℕ} (hidct : ∀ block u w, idct block u w ≤ 255) (mem : FreshMemory ℕ) :
    ∃ data, openData mcu idct mem size.header = .ok data ∧
      parsePgm (writePGM size.width size.height data) =
        some { width := size.width, height := size.height, maxval := 255,
               samples := (List.range (size.width * size.height)).map data } ∧
      ∀ p < size.width * size.height, data p ≤ 255 := by
  obtain ⟨image, hwidth, hheight, hopen⟩ := exists_grayImage h mcu hidct mem
  refine ⟨image.data, hopen, ?_, ?_⟩
  · rw [← hwidth, ← hheight]
    exact image.parsePgm_writePGM
  · rw [← hwidth, ← hheight]
    exact image.data_le

def oneMacroblock : Jp4Size := ⟨16, 16, by decide, by decide, ⟨1, rfl⟩, ⟨1, rfl⟩⟩

/-- Blocks that are numbers, each the value of its samples. -/
theorem open_writePGM_reads_back_oneMacroblock :
    ∃ data, openData (fun _ k => k + 100) (fun block _ _ => min block 255)
        ⟨fun _ => 0, fun _ => 0, fun _ => 0, fun _ => 0⟩ oneMacroblock.header = .ok data ∧
      parsePgm (writePGM 16 16 data) =
        some { width := 16, height := 16, maxval := 255, samples := (List.range (16 * 16)).map data } ∧
      ∀ p < 16 * 16, data p ≤ 255 :=
  @open_writePGM_reads_back ℕ oneMacroblock ⟨by decide, by decide⟩ (fun _ k => k + 100) (fun block _ _ => min block 255)
    (fun block _ _ => Nat.min_le_right block 255) ⟨fun _ => 0, fun _ => 0, fun _ => 0, fun _ => 0⟩

end Jp4Tools.PgmText
