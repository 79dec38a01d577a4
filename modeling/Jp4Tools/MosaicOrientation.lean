import Jp4Tools.MachineIntegers
import Jp4Tools.MakerNote

/-!
# The mosaic and the orientation of a DNG file

`DNGWriter::write` tells the reader of a file which colour each stored sample has, and how the stored
image is turned before it is shown. The camera flips the image when it reads out the sensor, so that
the stored mosaic is flipped as well. Both are chosen such that the mosaic that is shown is that of
the sensor.
-/

namespace Jp4Tools.MosaicOrientation
open MachineIntegers MakerNote

inductive ColorKeyCode where
  | red
  | green
  | blue
  | maxEnum
  deriving DecidableEq, Repr

structure DngOrientation where
  adobe : ℕ
  deriving DecidableEq, Repr

namespace DngOrientation

def normal : DngOrientation := ⟨0⟩
def rotate180 : DngOrientation := ⟨2⟩
def mirror : DngOrientation := ⟨4⟩
def mirror180 : DngOrientation := ⟨6⟩

variable (o : DngOrientation)

def flipD : Bool := o.adobe &&& 1 ≠ 0

def flipH : Bool := if o.adobe &&& 4 ≠ 0 then o.adobe &&& 2 = 0 else o.adobe &&& 2 ≠ 0

def flipV : Bool := if o.adobe &&& 4 ≠ 0 then o.flipD = o.flipH else o.flipD ≠ o.flipH

/-- The row and the column of the stored sample that is shown in row `y` and column `x`. -/
def shown (width height y x : ℕ) : ℕ × ℕ :=
  (if o.flipV then height - 1 - y else y, if o.flipH then width - 1 - x else x)

end DngOrientation

structure DngNegative where
  colorChannels : ℕ
  cfaPlaneColor : ℕ → ColorKeyCode
  cfaPatternSize : ℕ × ℕ
  cfaPattern : ℕ → ℕ → ColorKeyCode
  colorPlanes : ℕ
  cfaLayout : ℕ
  baseOrientation : DngOrientation

namespace DngNegative

def setRGB (negative : DngNegative) : DngNegative :=
  { negative with
    colorChannels := 3
    cfaPlaneColor := fun plane => match plane with
      | 0 => .red
      | 1 => .green
      | 2 => .blue
      | 3 => .maxEnum
      | plane => negative.cfaPlaneColor plane }

def setPattern (upperLeft upperRight lowerLeft lowerRight : ColorKeyCode) (negative : DngNegative) :
    DngNegative :=
  { negative with
    cfaPattern := fun row col => match row, col with
      | 0, 0 => upperLeft
      | 0, 1 => upperRight
      | 1, 0 => lowerLeft
      | 1, 1 => lowerRight
      | row, col => negative.cfaPattern row col }

def setBayerMosaic (phase : ℕ) (negative : DngNegative) : DngNegative :=
  let color0 := negative.cfaPlaneColor 0
  let color1 := negative.cfaPlaneColor 1
  let color2 := negative.cfaPlaneColor 2
  let negative := { negative with cfaPatternSize := (2, 2) }
  let negative := match phase with
    | 0 => negative.setPattern color1 color0 color2 color1
    | 1 => negative.setPattern color0 color1 color1 color2
    | 2 => negative.setPattern color2 color1 color1 color0
    | 3 => negative.setPattern color1 color2 color0 color1
    | _ => negative
  { negative with colorPlanes := 3, cfaLayout := 1 }

def setBaseOrientation (orientation : DngOrientation) (negative : DngNegative) : DngNegative :=
  { negative with baseOrientation := orientation }

def cfaColor (negative : DngNegative) (row col : ℕ) : ColorKeyCode :=
  negative.cfaPattern (row % negative.cfaPatternSize.1) (col % negative.cfaPatternSize.2)

end DngNegative

/-- The part of `DNGWriter::write` on the mosaic. A `bayerShift` of -1 stands for no override. -/
def writeMosaic (makerNote : ElphelMakerNote) (bayerShift : ℤ) (negative : DngNegative) : DngNegative :=
  let negative := negative.setRGB
  let negative := match makerNote.flipHor, makerNote.flipVer with
    | false, false => (negative.setBayerMosaic 0).setBaseOrientation .normal
    | true, false => (negative.setBayerMosaic 1).setBaseOrientation .mirror
    | false, true => (negative.setBayerMosaic 2).setBaseOrientation .mirror180
    | true, true => (negative.setBayerMosaic 3).setBaseOrientation .rotate180
  if bayerShift ≠ -1 then negative.setBayerMosaic (unsignedOf bayerShift) else negative

/-- The colour filter of the sensor, which begins with the rows G R and B G. -/
def sensorColor (y x : ℕ) : ColorKeyCode :=
  match y % 2, x % 2 with
  | 0, 0 => .green
  | 0, _ => .red
  | _, 0 => .blue
  | _, _ => .green

structure EvenFrame where
  width : ℕ
  height : ℕ
  width_even : 2 ∣ width
  height_even : 2 ∣ height

section Mosaic
variable (makerNote : ElphelMakerNote) (negative : DngNegative)

theorem writeMosaic_baseOrientation :
    (writeMosaic makerNote (-1) negative).baseOrientation =
      match makerNote.flipHor, makerNote.flipVer with
      | false, false => DngOrientation.normal
      | true, false => DngOrientation.mirror
      | false, true => DngOrientation.mirror180
      | true, true => DngOrientation.rotate180 := by
  simp only [writeMosaic, ne_eq, not_true_eq_false, if_false]
  cases makerNote.flipHor <;> cases makerNote.flipVer <;> rfl

/-- The orientation undoes the flips of the camera, and exchanges no rows with columns. -/
theorem writeMosaic_flips :
    (writeMosaic makerNote (-1) negative).baseOrientation.flipH = makerNote.flipHor ∧
      (writeMosaic makerNote (-1) negative).baseOrientation.flipV = makerNote.flipVer ∧
      (writeMosaic makerNote (-1) negative).baseOrientation.flipD = false := by
  rw [writeMosaic_baseOrientation]
  cases makerNote.flipHor <;> cases makerNote.flipVer <;> decide

/-- A flip of the camera moves the stored mosaic by one row or column. -/
theorem writeMosaic_cfaColor (row col : ℕ) :
    (writeMosaic makerNote (-1) negative).cfaColor row col =
      sensorColor (if makerNote.flipVer then row + 1 else row)
        (if makerNote.flipHor then col + 1 else col) := by
  have hrow := Nat.mod_two_eq_zero_or_one row
  have hcol := Nat.mod_two_eq_zero_or_one col
  simp only [writeMosaic, sensorColor]
  cases makerNote.flipHor <;> cases makerNote.flipVer <;> rcases hrow with hrow | hrow <;>
    rcases hcol with hcol | hcol <;>
    simp [DngNegative.cfaColor, DngNegative.setBaseOrientation, DngNegative.setBayerMosaic,
      DngNegative.setPattern, DngNegative.setRGB, Nat.add_mod, hrow, hcol]

theorem sensorColor_congr {y y' x x' : ℕ} (hy : y % 2 = y' % 2) (hx : x % 2 = x' % 2) :
    sensorColor y x = sensorColor y' x' := by
  rw [sensorColor, sensorColor, hy, hx]

end Mosaic

/-- Whatever the camera flips, the sample that is shown in a row and a column is one of the stored
image, and its colour is that of the sensor there. -/
theorem mosaic_fits_orientation (frame : EvenFrame) (makerNote : ElphelMakerNote)
    (negative : DngNegative) :
    (writeMosaic makerNote (-1) negative).baseOrientation.flipD = false ∧
      ∀ y < frame.height, ∀ x < frame.width, ∃ row < frame.height, ∃ col < frame.width,
        (writeMosaic makerNote (-1) negative).baseOrientation.shown frame.width frame.height y x =
          (row, col) ∧
        (writeMosaic makerNote (-1) negative).cfaColor row col = sensorColor (y % 2) (x % 2) := by
  obtain ⟨hflipH, hflipV, hflipD⟩ := writeMosaic_flips makerNote negative
  refine ⟨hflipD, ?_⟩
  intro y hy x hx
  have hwidth := frame.width_even
  have hheight := frame.height_even
  refine ⟨if makerNote.flipVer then frame.height - 1 - y else y, ?_,
    if makerNote.flipHor then frame.width - 1 - x else x, ?_, ?_, ?_⟩
  · split_ifs <;> omega
  · split_ifs <;> omega
  · rw [DngOrientation.shown, hflipH, hflipV]
  · -- in a dimension of even length the mirror image of a coordinate has the other parity
    rw [writeMosaic_cfaColor]
    apply sensorColor_congr
    · split_ifs <;> omega
    · split_ifs <;> omega

end Jp4Tools.MosaicOrientation
