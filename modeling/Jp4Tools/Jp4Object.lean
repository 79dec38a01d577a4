import Jp4Tools.MakerNote

/-!
# The object `JP4` and its storage

The constructor of `JP4` leaves the members as the storage has them. `JP4::open` sets some of
them from the file; a member that a path through `open` does not set keeps what a previous
frame left there, and may be read by the conversion of this frame.
-/

namespace Jp4Tools.Jp4Object
open MachineIntegers MakerNote

/-- What `JP4` uses of libexif: the parser, which may give a null pointer, and the lookup of the
entry `EXIF_TAG_MAKER_NOTE`. -/
structure ExifLibrary (E : Type*) where
  dataNewFromData : List UInt8 → Option E
  makerNoteEntry : E → Option (List UInt8)

/-- A saved marker. Its length is stored in two bytes, which count themselves. -/
structure App1Segment where
  data : List UInt8
  length_le : data.length ≤ 65533

/-- What the decoder delivers of a file: the header, the saved markers, and the deblocked samples. -/
structure Jp4File where
  imageWidth : ℕ
  imageHeight : ℕ
  markerList : List App1Segment
  data : ℕ → ℕ

/-- The members of `JP4`. A pointer is null or points to the bytes in memory. -/
structure Jp4 (E : Type*) where
  filename : String
  width : ℕ
  height : ℕ
  data : ℕ → ℕ
  makerNote : ElphelMakerNote
  linear : Bool
  rawApp1 : Option (List UInt8)
  rawApp1Length : ℕ
  ed : Option E

variable {E : Type*}

def defaultMakerNote (m : ElphelMakerNote) : ElphelMakerNote :=
  { m with
    gain := fun _ => 2
    gamma := fun _ => 57 / 100
    gammaScale := fun _ => 0xffff
    black := fun _ => 10 / 256
    decimHor := 1
    decimVer := 1
    binHor := 1
    binVer := 1 }

def readMakerNote (lib : ExifLibrary E) (stack : ℕ → ℤ) (s : Jp4 E) : Jp4 E :=
  let s := match s.rawApp1 with
    | some bytes => { s with ed := lib.dataNewFromData (bytes.take s.rawApp1Length) }
    | none => s
  match s.ed with
  | none => s
  | some ed => match lib.makerNoteEntry ed with
    | none => { s with makerNote := defaultMakerNote s.makerNote }
    | some data => { s with makerNote := readFields stack data s.makerNote }

def openFile (lib : ExifLibrary E) (stack : ℕ → ℤ) (filename : String) (file : Jp4File) (s : Jp4 E) :
    Jp4 E :=
  let s := { s with filename }
  let s := match file.markerList with
    | [] => s
    | app1 :: _ =>
      { s with rawApp1 := some app1.data, rawApp1Length := u16 app1.data.length }
  let s := { s with width := file.imageWidth, height := file.imageHeight, data := file.data }
  readMakerNote lib stack s

/-- The members that the writers, `hasTag` and the destructor read. -/
structure LaterReads (E : Type*) where
  rawApp1 : Option (List UInt8)
  rawApp1Length : ℕ
  ed : Option E
  gain : Fin 4 → ℚ
  gamma : Fin 4 → ℚ
  gammaScale : Fin 4 → ℚ
  black : Fin 4 → ℚ
  flipHor : Bool
  flipVer : Bool

def laterReads (s : Jp4 E) : LaterReads E where
  rawApp1 := s.rawApp1
  rawApp1Length := s.rawApp1Length
  ed := s.ed
  gain := s.makerNote.gain
  gamma := s.makerNote.gamma
  gammaScale := s.makerNote.gammaScale
  black := s.makerNote.black
  flipHor := s.makerNote.flipHor
  flipVer := s.makerNote.flipVer

/-- The file brings all the metadata: an APP1 segment that is EXIF data with a MakerNote of at
least twelve words. -/
def BringsMakerNote (lib : ExifLibrary E) (file : Jp4File) : Prop :=
  ∃ app1 ed data, file.markerList.head? = some app1 ∧ lib.dataNewFromData app1.data = some ed ∧
    lib.makerNoteEntry ed = some data ∧ 12 ≤ data.length / 4

def leftover (b : Bool) : Jp4 E where
  filename := ""
  width := 0
  height := 0
  data := fun _ => 0
  makerNote :=
    { gain := fun _ => 0, gamma := fun _ => 0, gammaScale := fun _ => 0, black := fun _ => 0
      woiLeft := 0, woiWidth := 0, woiTop := 0, woiHeight := 0, flipHor := b, flipVer := false
      bayerMode := 0, colorMode := 0, decimHor := 0, decimVer := 0, binHor := 0, binVer := 0
      composite := false, height1 := 0, blank1 := 0, flipH1 := false, flipV1 := false
      height2 := 0, blank2 := 0, flipH2 := false, flipV2 := false, height3 := 0
      flipH3 := false, flipV3 := false }
  linear := false
  rawApp1 := none
  rawApp1Length := 0
  ed := none

section Fields
variable {stack : ℕ → ℤ} {data : List UInt8}

theorem readFields_short (h : ¬ 12 ≤ data.length / 4) (m : ElphelMakerNote) :
    (readFields stack data m).flipHor = m.flipHor := by
  have h14 : ¬ 14 ≤ data.length / 4 := by omega
  simp only [readFields, h, h14, if_false]
  rfl

theorem readFields_long (stack : ℕ → ℤ) (h : 12 ≤ data.length / 4) (m m' : ElphelMakerNote) :
    (readFields stack data m).gain = (readFields stack data m').gain ∧
      (readFields stack data m).gamma = (readFields stack data m').gamma ∧
      (readFields stack data m).gammaScale = (readFields stack data m').gammaScale ∧
      (readFields stack data m).black = (readFields stack data m').black ∧
      (readFields stack data m).flipHor = (readFields stack data m').flipHor ∧
      (readFields stack data m).flipVer = (readFields stack data m').flipVer := by
  simp only [readFields, h, if_true]
  by_cases h14 : 14 ≤ data.length / 4
  · simp only [h14, if_true]
    split_ifs <;> exact ⟨rfl, rfl, rfl, rfl, rfl, rfl⟩
  · simp only [h14, if_false]
    exact ⟨rfl, rfl, rfl, rfl, rfl, rfl⟩

end Fields

section Independence
variable (lib : ExifLibrary E) (stack : ℕ → ℤ) (filename : String) (file : Jp4File)

/-- A file with all the metadata determines every member that is read later. -/
theorem open_of_bringsMakerNote (h : BringsMakerNote lib file) (s s' : Jp4 E) :
    laterReads (openFile lib stack filename file s) =
      laterReads (openFile lib stack filename file s') := by
  obtain ⟨app1, ed, data, hhead, hed, hentry, hlong⟩ := h
  obtain ⟨rest, hmarkers⟩ := List.head?_eq_some_iff.mp hhead
  have hlen : u16 app1.data.length = app1.data.length := by
    have := app1.length_le
    exact Nat.mod_eq_of_lt (by omega)
  obtain ⟨hgain, hgamma, hscale, hblack, hhor, hver⟩ :=
    readFields_long stack hlong s.makerNote s'.makerNote
  simp only [openFile, hmarkers, readMakerNote, hlen, List.take_length, hed, hentry, laterReads, hgain,
    hgamma, hscale, hblack, hhor, hver]

theorem open_leftover (h : ¬ BringsMakerNote lib file) (b : Bool) :
    (openFile lib stack filename file (leftover b)).makerNote.flipHor = b := by
  cases hmarkers : file.markerList with
  | nil =>
    simp only [openFile, hmarkers, readMakerNote, leftover]
  | cons app1 rest =>
    have hlen : u16 app1.data.length = app1.data.length := by
      have := app1.length_le
      exact Nat.mod_eq_of_lt (by omega)
    simp only [openFile, hmarkers, readMakerNote, hlen, List.take_length]
    cases hed : lib.dataNewFromData app1.data with
    | none => rfl
    | some ed =>
      cases hentry : lib.makerNoteEntry ed with
      | none =>
        simp only [hentry]
        rfl
      | some data =>
        simp only [hentry]
        apply readFields_short
        intro hlong
        exact h ⟨app1, ed, data, by rw [hmarkers]; rfl, hed, hentry, hlong⟩

end Independence

/-- The conversion of a frame depends on that frame only, exactly when the frame brings an APP1
segment with a MakerNote of at least twelve words. -/
theorem open_independent_iff (lib : ExifLibrary E) (stack : ℕ → ℤ) (filename : String)
    (file : Jp4File) :
    (∀ s s' : Jp4 E, laterReads (openFile lib stack filename file s) =
      laterReads (openFile lib stack filename file s')) ↔ BringsMakerNote lib file := by
  constructor
  · intro hsame
    by_contra h
    have hflip := congrArg LaterReads.flipHor (hsame (leftover true) (leftover false))
    have htrue := open_leftover lib stack filename file h true
    have hfalse := open_leftover lib stack filename file h false
    exact absurd (htrue.symm.trans (hflip.trans hfalse)) (by decide)
  · intro h
    exact open_of_bringsMakerNote lib stack filename file h

/-- A grayscale file without APP1 segment is converted with the previous frame's `flip_hor`. -/
theorem open_without_app1 : ¬ ∀ (lib : ExifLibrary Unit) (stack : ℕ → ℤ) (filename : String)
    (file : Jp4File) (s s' : Jp4 Unit), laterReads (openFile lib stack filename file s) =
      laterReads (openFile lib stack filename file s') := by
  intro h
  let lib : ExifLibrary Unit := ⟨fun _ => some (), fun _ => none⟩
  let file : Jp4File := ⟨16, 16, [], fun _ => 0⟩
  have hflip := congrArg LaterReads.flipHor
    (h lib (fun _ => 0) "frame.jp4" file (leftover true) (leftover false))
  exact absurd hflip (by decide)

end Jp4Tools.Jp4Object
