import Jp4Tools.ExifEntries
import Mathlib.Logic.Function.Basic

/-!
# The metadata of the DNG

`DNGWriter::write` takes the metadata from the EXIF block: one setter for each field looks for the
entry of a tag and stores what a getter reads from it. The getters do not look at the format of the
entry. Fields of the GPS directory are looked for there, and all others in every directory.
-/

namespace Jp4Tools.DngMetadata
open MachineIntegers ExifEntries

structure DateTime where
  year : ℕ
  month : ℕ
  day : ℕ
  hour : ℕ
  minute : ℕ
  second : ℕ
  deriving DecidableEq

def dateTimeParseU32 (s : List UInt8) : ℕ × List UInt8 :=
  let s := s.dropWhile (fun c => c == 0x20 || c == 0x3a)
  let isDigit := fun c : UInt8 => decide (0x30 ≤ c ∧ c ≤ 0x39)
  ((s.takeWhile isDigit).foldl (fun x c => u32 (x * 10 + (c.toNat - 0x30))) 0, s.dropWhile isDigit)

def DateTime.parse (s : List UInt8) : DateTime :=
  let (year, s) := dateTimeParseU32 s
  let (month, s) := dateTimeParseU32 s
  let (day, s) := dateTimeParseU32 s
  let (hour, s) := dateTimeParseU32 s
  let (minute, s) := dateTimeParseU32 s
  let (second, _) := dateTimeParseU32 s
  { year, month, day, hour, minute, second }

/-- What a field holds. `unset` is the value from before; a fraction has its numerator first. -/
inductive FieldValue where
  | unset
  | number (n : ℕ)
  | fractions (values : List (ℤ × ℤ))
  | text (s : List UInt8)
  | dateTime (dateTime : DateTime) (subseconds : List UInt8)
  | bytes (data : List UInt8)
  deriving DecidableEq

/-- What the getters meet besides the entry: the bytes behind its data, the text that
`exif_entry_get_value` makes of it, what stands in memory at an array of no bytes, and the bytes of a
fresh memory block. -/
structure Surroundings where
  behind : ExifEntry → ℕ → UInt8
  entryValue : ExifEntry → List UInt8
  stray : ExifEntry → List UInt8
  freshBlock : ℕ → UInt8

/-- The ways in which the setters read an entry. -/
inductive Reading where
  | uint32
  | urational
  | srational
  | urationalArray3
  | string
  | makerNote (blockSize : ℕ)

/-- What a setter does with an entry: the positions that it reads in the data, its accesses to the
destination, each with the number of places there, and the value that it stores. -/
structure Outcome where
  reads : List ℕ
  accesses : List (ℕ × ℕ)
  stored : Option FieldValue

/-- The string in the array `value`, which is as long as the data. -/
def getTagString (s : Surroundings) (e : ExifEntry) : List UInt8 :=
  if e.data = [] then s.stray e
  else ((s.entryValue e).take (e.data.length - 1)).takeWhile (fun c => c != 0)

/-- The three fractions are as far apart as the components of the entry. -/
def array3Addresses (e : ExifEntry) : List ℕ := [0, e.format.size, 2 * e.format.size]

def transfer (s : Surroundings) (order : ByteOrder) (e : ExifEntry) : Reading → Outcome
  | .uint32 =>
    { reads := List.range 4, accesses := []
      stored := some (.number (exifGetLong order (e.memory (s.behind e)) 0)) }
  | .urational =>
    { reads := List.range 8, accesses := []
      stored := some (.fractions [exifGetRational order (e.memory (s.behind e)) 0]) }
  | .srational =>
    { reads := List.range 8, accesses := []
      stored := some (.fractions [exifGetSRational order (e.memory (s.behind e)) 0]) }
  | .urationalArray3 =>
    if e.components ≠ 3 then { reads := [], accesses := [], stored := none }
    else
      { reads := (array3Addresses e).flatMap (fun address => (List.range 8).map (fun i => address + i))
        accesses := (List.range 3).map (fun i => (i, 3))
        stored := some (.fractions
          ((array3Addresses e).map (exifGetRational order (e.memory (s.behind e))))) }
  | .string =>
    { reads := []
      accesses := (List.range ((getTagString s e).length + 1)).map (fun i => (i, e.data.length))
      stored := some (.text (getTagString s e)) }
  | .makerNote blockSize =>
    { reads := List.range e.data.length
      accesses := (List.range e.data.length).map (fun i => (i, blockSize))
      stored := some (.bytes ((List.range blockSize).map (e.memory s.freshBlock))) }

/-- The fields of `dng_exif`, and the MakerNote of the negative. A number behind the name is the
position in an array. -/
inductive MetadataField where
  | makerNote | fDateTime | fDateTimeOriginal | fDateTimeDigitized | fImageDescription | fMake
  | fModel | fSoftware | fArtist | fCopyright | fUserComment | fTIFF_EP_StandardID | fExifVersion
  | fFlashPixVersion | fExposureTime | fFNumber | fShutterSpeedValue | fApertureValue
  | fBrightnessValue | fExposureBiasValue | fMaxApertureValue | fFocalLength | fDigitalZoomRatio
  | fExposureIndex | fSubjectDistance | fGamma | fBatteryLevelR | fExposureProgram | fMeteringMode
  | fLightSource | fFlash | fSensingMethod | fColorSpace | fFileSource | fSceneType
  | fCustomRendered | fExposureMode | fWhiteBalance | fSceneCaptureType | fGainControl | fContrast
  | fSaturation | fSharpness | fSubjectDistanceRange | fFocalLengthIn35mmFilm | fISOSpeedRatings0
  | fSubjectAreaCount | fSubjectArea0 | fComponentsConfiguration | fCompresssedBitsPerPixel
  | fPixelXDimension | fPixelYDimension | fFocalPlaneXResolution | fFocalPlaneYResolution
  | fFocalPlaneResolutionUnit | fGPSLatitude | fGPSLongitude | fGPSTimeStamp | fGPSDestLatitude
  | fGPSDestLongitude | fGPSVersionID | fGPSLatitudeRef | fGPSLongitudeRef | fGPSAltitudeRef
  | fGPSAltitude | fGPSSatellites | fGPSStatus | fGPSMeasureMode | fGPSDOP | fGPSSpeedRef
  | fGPSSpeed | fGPSTrackRef | fGPSTrack | fGPSImgDirectionRef | fGPSImgDirection | fGPSMapDatum
  | fGPSDestLatitudeRef | fGPSDestLongitudeRef | fGPSDestBearingRef | fGPSDestBearing
  | fGPSDestDistanceRef | fGPSDestDistance | fGPSProcessingMethod | fGPSAreaInformation
  | fGPSDateStamp | fGPSDifferential | fInteroperabilityIndex | fInteroperabilityVersion
  | fRelatedImageFileFormat | fRelatedImageWidth | fRelatedImageLength
  deriving DecidableEq

/-- How a setter comes to its value: from an entry of any directory or of the GPS directory, from the
presence of an entry, or from the entries of a date and its fraction of a second. -/
inductive Setter where
  | anyIfd (tag : ℕ) (reading : Reading)
  | gpsIfd (tag : ℕ) (reading : Reading)
  | whenPresent (tag value : ℕ)
  | dateTime (tag subsecTag : ℕ)

structure Transfer where
  setter : Setter
  dest : MetadataField

def setDngTagString (tag : ℕ) (dest : MetadataField) : Transfer := ⟨.anyIfd tag .string, dest⟩

def setDngTagUint32 (tag : ℕ) (dest : MetadataField) : Transfer := ⟨.anyIfd tag .uint32, dest⟩

def setDngTagUrational (tag : ℕ) (dest : MetadataField) : Transfer := ⟨.anyIfd tag .urational, dest⟩

def setDngTagSrational (tag : ℕ) (dest : MetadataField) : Transfer := ⟨.anyIfd tag .srational, dest⟩

def setDngTagDtInfo (tag subsecTag : ℕ) (dest : MetadataField) : Transfer :=
  ⟨.dateTime tag subsecTag, dest⟩

def setDngTagGpsUint32 (tag : ℕ) (dest : MetadataField) : Transfer := ⟨.gpsIfd tag .uint32, dest⟩

def setDngTagGpsString (tag : ℕ) (dest : MetadataField) : Transfer := ⟨.gpsIfd tag .string, dest⟩

def setDngTagGpsUrational (tag : ℕ) (dest : MetadataField) : Transfer := ⟨.gpsIfd tag .urational, dest⟩

def setDngTagGpsUrationalArray3 (tag : ℕ) (dest : MetadataField) : Transfer :=
  ⟨.gpsIfd tag .urationalArray3, dest⟩

def pointerSize : ℕ := 8

def makerNoteTransfers : List Transfer := [⟨.anyIfd 0x927c (.makerNote pointerSize), .makerNote⟩]

def exposureTransfers : List Transfer :=
  [ setDngTagDtInfo 0x0132 0x9290 .fDateTime,
    setDngTagDtInfo 0x9003 0x9291 .fDateTimeOriginal,
    setDngTagDtInfo 0x9004 0x9292 .fDateTimeDigitized,
    setDngTagString 0x010e .fImageDescription,
    setDngTagString 0x010f .fMake,
    setDngTagString 0x0110 .fModel,
    setDngTagString 0x0131 .fSoftware,
    setDngTagString 0x013b .fArtist,
    setDngTagString 0x8298 .fCopyright,
    setDngTagString 0x9286 .fUserComment,
    setDngTagUint32 0x9216 .fTIFF_EP_StandardID,
    setDngTagUint32 0x9000 .fExifVersion,
    setDngTagUint32 0xa000 .fFlashPixVersion,
    setDngTagUrational 0x829a .fExposureTime,
    setDngTagUrational 0x829d .fFNumber,
    setDngTagSrational 0x9201 .fShutterSpeedValue,
    setDngTagUrational 0x9202 .fApertureValue,
    setDngTagSrational 0x9203 .fBrightnessValue,
    setDngTagSrational 0x9204 .fExposureBiasValue,
    setDngTagUrational 0x9205 .fMaxApertureValue,
    setDngTagUrational 0x920a .fFocalLength,
    setDngTagUrational 0xa404 .fDigitalZoomRatio,
    setDngTagUrational 0xa215 .fExposureIndex,
    setDngTagUrational 0x9206 .fSubjectDistance,
    setDngTagUrational 0xa500 .fGamma,
    setDngTagUrational 0x828f .fBatteryLevelR,
    setDngTagUint32 0x8822 .fExposureProgram,
    setDngTagUint32 0x9207 .fMeteringMode,
    setDngTagUint32 0x9208 .fLightSource,
    setDngTagUint32 0x9209 .fFlash,
    setDngTagUint32 0xa217 .fSensingMethod,
    setDngTagUint32 0xa001 .fColorSpace,
    setDngTagUint32 0xa300 .fFileSource,
    setDngTagUint32 0xa301 .fSceneType,
    setDngTagUint32 0xa401 .fCustomRendered,
    setDngTagUint32 0xa402 .fExposureMode,
    setDngTagUint32 0xa403 .fWhiteBalance,
    setDngTagUint32 0xa406 .fSceneCaptureType,
    setDngTagUint32 0xa407 .fGainControl,
    setDngTagUint32 0xa408 .fContrast,
    setDngTagUint32 0xa409 .fSaturation,
    setDngTagUint32 0xa40a .fSharpness,
    setDngTagUint32 0xa40c .fSubjectDistanceRange,
    setDngTagUint32 0xa405 .fFocalLengthIn35mmFilm,
    setDngTagUint32 0x8827 .fISOSpeedRatings0 ]

def subjectAreaTransfers : List Transfer :=
  [⟨.whenPresent 0x9214 1, .fSubjectAreaCount⟩, ⟨.anyIfd 0x9214 .uint32, .fSubjectArea0⟩]

def imageTransfers : List Transfer :=
  [ setDngTagUint32 0x9101 .fComponentsConfiguration,
    setDngTagUrational 0x9102 .fCompresssedBitsPerPixel,
    setDngTagUint32 0xa002 .fPixelXDimension,
    setDngTagUint32 0xa003 .fPixelYDimension,
    setDngTagUrational 0xa20e .fFocalPlaneXResolution,
    setDngTagUrational 0xa20f .fFocalPlaneYResolution,
    setDngTagUint32 0xa210 .fFocalPlaneResolutionUnit ]

def gpsTransfers : List Transfer :=
  [ setDngTagGpsUrationalArray3 0x0002 .fGPSLatitude,
    setDngTagGpsUrationalArray3 0x0004 .fGPSLongitude,
    setDngTagGpsUrationalArray3 0x0007 .fGPSTimeStamp,
    setDngTagGpsUrationalArray3 0x0014 .fGPSDestLatitude,
    setDngTagGpsUrationalArray3 0x0016 .fGPSDestLongitude,
    setDngTagGpsUint32 0x0000 .fGPSVersionID,
    setDngTagGpsString 0x0001 .fGPSLatitudeRef,
    setDngTagGpsString 0x0003 .fGPSLongitudeRef,
    setDngTagGpsUint32 0x0005 .fGPSAltitudeRef,
    setDngTagGpsUrational 0x0006 .fGPSAltitude,
    setDngTagGpsString 0x0008 .fGPSSatellites,
    setDngTagGpsString 0x0009 .fGPSStatus,
    setDngTagGpsString 0x000a .fGPSMeasureMode,
    setDngTagGpsUrational 0x000b .fGPSDOP,
    setDngTagGpsString 0x000c .fGPSSpeedRef,
    setDngTagGpsUrational 0x000d .fGPSSpeed,
    setDngTagGpsString 0x000e .fGPSTrackRef,
    setDngTagGpsUrational 0x000f .fGPSTrack,
    setDngTagGpsString 0x0010 .fGPSImgDirectionRef,
    setDngTagGpsUrational 0x0011 .fGPSImgDirection,
    setDngTagGpsString 0x0012 .fGPSMapDatum,
    setDngTagGpsString 0x0013 .fGPSDestLatitudeRef,
    setDngTagGpsString 0x0015 .fGPSDestLongitudeRef,
    setDngTagGpsString 0x0017 .fGPSDestBearingRef,
    setDngTagGpsUrational 0x0018 .fGPSDestBearing,
    setDngTagGpsString 0x0019 .fGPSDestDistanceRef,
    setDngTagGpsUrational 0x001a .fGPSDestDistance,
    setDngTagGpsString 0x001b .fGPSProcessingMethod,
    setDngTagGpsString 0x001c .fGPSAreaInformation,
    setDngTagGpsString 0x001d .fGPSDateStamp,
    setDngTagGpsUint32 0x001e .fGPSDifferential ]

def interoperabilityTransfers : List Transfer :=
  [ setDngTagString 0x0001 .fInteroperabilityIndex,
    setDngTagUint32 0x0002 .fInteroperabilityVersion,
    setDngTagString 0x1000 .fRelatedImageFileFormat,
    setDngTagUint32 0x1001 .fRelatedImageWidth,
    setDngTagUint32 0x1002 .fRelatedImageLength ]

def transfers : List Transfer :=
  makerNoteTransfers ++ exposureTransfers ++ subjectAreaTransfers ++ imageTransfers ++ gpsTransfers ++
    interoperabilityTransfers

def findGpsTag (d : ExifBlock) (tag : ℕ) : Option ExifEntry :=
  d.gpsIfd.foldl (fun found e => if e.tag = tag then some e else found) none

def Setter.value (s : Surroundings) (d : ExifBlock) : Setter → Option FieldValue
  | .anyIfd tag reading => (d.getEntry tag).bind (fun e => (transfer s d.order e reading).stored)
  | .gpsIfd tag reading => (findGpsTag d tag).bind (fun e => (transfer s d.order e reading).stored)
  | .whenPresent tag value => (d.getEntry tag).map (fun _ => .number value)
  | .dateTime tag subsecTag => (d.getEntry tag).map (fun e =>
      .dateTime (DateTime.parse (getTagString s e))
        (((d.getEntry subsecTag).map (getTagString s)).getD []))

def setField (s : Surroundings) (d : ExifBlock) (fields : MetadataField → FieldValue) (t : Transfer) :
    MetadataField → FieldValue :=
  match t.setter.value s d with
  | some value => Function.update fields t.dest value
  | none => fields

def writeMetadata (s : Surroundings) (d : ExifBlock) : MetadataField → FieldValue :=
  transfers.foldl (setField s d) (fun _ => .unset)

section Fields
variable {s : Surroundings} {d : ExifBlock}

theorem setField_other {t : Transfer} {f : MetadataField} (h : f ≠ t.dest)
    (fields : MetadataField → FieldValue) : setField s d fields t f = fields f := by
  cases hvalue : t.setter.value s d with
  | none => simp only [setField, hvalue]
  | some value => simp only [setField, hvalue, Function.update_of_ne h]

theorem setField_dest (t : Transfer) (fields : MetadataField → FieldValue) :
    setField s d fields t t.dest = (t.setter.value s d).getD (fields t.dest) := by
  cases hvalue : t.setter.value s d with
  | none => simp only [setField, hvalue, Option.getD_none]
  | some value => simp only [setField, hvalue, Function.update_self, Option.getD_some]

theorem foldl_setField_other {l : List Transfer} {f : MetadataField} (h : f ∉ l.map Transfer.dest)
    (fields : MetadataField → FieldValue) : l.foldl (setField s d) fields f = fields f := by
  induction l generalizing fields with
  | nil => rfl
  | cons t l ih =>
    rw [List.map_cons, List.mem_cons, not_or] at h
    exact (ih h.2 _).trans (setField_other h.1 fields)

theorem foldl_setField {l : List Transfer} (hnodup : (l.map Transfer.dest).Nodup) {t : Transfer}
    (ht : t ∈ l) (fields : MetadataField → FieldValue) :
    l.foldl (setField s d) fields t.dest = (t.setter.value s d).getD (fields t.dest) := by
  induction l generalizing fields with
  | nil => exact absurd ht List.not_mem_nil
  | cons first l ih =>
    obtain ⟨hfirst, hrest⟩ := List.nodup_cons.mp hnodup
    rcases List.mem_cons.mp ht with rfl | ht
    · exact (foldl_setField_other hfirst _).trans (setField_dest t fields)
    · have hne : t.dest ≠ first.dest := by
        intro heq
        exact hfirst (heq ▸ List.mem_map_of_mem ht)
      have hsame := setField_other (s := s) (d := d) hne fields
      rw [List.foldl_cons, ih hrest ht, hsame]

/-- No two setters share a field. -/
theorem transfers_nodup : (transfers.map Transfer.dest).Nodup := by decide +kernel

theorem writeMetadata_dest {t : Transfer} (ht : t ∈ transfers) :
    writeMetadata s d t.dest = (t.setter.value s d).getD .unset :=
  foldl_setField transfers_nodup ht _

end Fields

end Jp4Tools.DngMetadata
