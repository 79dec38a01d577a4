import Jp4Tools.MovieFrames
import Jp4Tools.Printf
import Mathlib.Logic.Function.Basic

/-!
# The conversion of a movie

The branch of `main` that converts a movie: the range of frames from the options, the announced
number of frames, and the loop over the iterator. `main` does not look at the result of `next`. A
conversion may end the process, as the error handlers of the libraries do.
-/

namespace Jp4Tools.MovieConversion
open MachineIntegers WhileLoops MovieFrames Printf

structure IntOption where
  value : ℤ
  value_ge : -2 ^ 31 ≤ value
  value_lt : value < 2 ^ 31

inductive OutputFormat where
  | dng
  | pgm
  | jpeg
  deriving DecidableEq

structure Options where
  startFrame : IntOption
  nFrames : IntOption
  countFrame : IntOption
  saveJp4 : Bool
  saves : OutputFormat → Bool
  gui : Bool

structure FileNames where
  jp4 : List Char
  output : OutputFormat → List Char

abbrev FileSystem := List Char → Option (List UInt8)

/-- What the branch meets outside: the movie; what the memory of freed packets holds when round
`k` reads it; whether the `fopen` and the conversions of round `k` succeed; and the files that the
conversions write. -/
structure World where
  movie : Movie
  freed : ℕ → List UInt8
  fopenOk : ℕ → Bool
  convertOk : ℕ → Bool
  convert : OutputFormat → List UInt8 → List UInt8

/-- The calls of `fprintf` on `stdout`, with the numbers that they print. -/
inductive StdoutLine where
  | total (nFrames : ℤ)
  | range (first last nFrames : ℤ) (total : ℕ)
  | frame (frame : ℤ)
  | converting (frame : ℤ)
  | renumbered (frame countFrame : ℤ)
  deriving DecidableEq

/-- What a round of the loop does: the variable `frame`, what `av_read_frame` delivered in this
round, the JP4 file with its bytes, and the files of the other formats. -/
structure FrameRecord where
  frame : ℕ
  returned : Option (List UInt8)
  jp4Filename : List Char
  bytes : List UInt8
  outputs : List (OutputFormat × List Char)
  deriving DecidableEq

/-- The variables of the loop, with the files and the output so far. -/
structure Conversion where
  it : MovieIterator
  out : FrameOut
  countFrame : ℤ
  files : FileSystem
  records : List FrameRecord
  stdout : List StdoutLine

/-- The bytes at `frameData`: the packet, if the iterator still owns it. -/
def frameBytes (w : World) (k : ℕ) (it : MovieIterator) (out : FrameOut) : List UInt8 :=
  match out.data with
  | none => []
  | some call =>
    if it.packet = some call then (w.movie.readFrame call).getD [] else (w.freed k).take out.size

def selectedOutputs (o : Options) (names : FileNames) : List (OutputFormat × List Char) :=
  ([.dng, .pgm, .jpeg].filter o.saves).map (fun f => (f, names.output f))

def writeOutputs (w : World) (bytes : List UInt8) (outputs : List (OutputFormat × List Char))
    (files : FileSystem) : FileSystem :=
  outputs.foldl (fun files output => Function.update files output.2 (some (w.convert output.1 bytes)))
    files

def progressLine (o : Options) (frame : ℕ) (countFrame : ℤ) : StdoutLine :=
  if o.gui then .frame (i32 frame)
  else if (frame : ℤ) = countFrame then .converting (i32 frame)
  else .renumbered (i32 frame) countFrame

/-- The body of the loop; `names` are the names with a given frame count. -/
def convertFrame (w : World) (o : Options) (names : ℤ → FileNames) (c : Conversion) :
    Round Conversion :=
  let k := c.records.length
  let (_, it, out) := next w.movie c.it c.out
  let names := names c.countFrame
  if !w.fopenOk k then .stop { c with it, out }
  else
    let bytes := frameBytes w k it out
    let record :=
      { frame := out.frame, returned := w.movie.readFrame c.it.position, jp4Filename := names.jp4
        bytes, outputs := [] }
    let files := Function.update c.files names.jp4 (some bytes)
    if !w.convertOk k then .stop { c with it, out, files, records := c.records ++ [record] }
    else
      let outputs := selectedOutputs o names
      let files := writeOutputs w bytes outputs files
      let files := if o.saveJp4 then files else Function.update files names.jp4 none
      .next
        { it, out, files
          countFrame := c.countFrame + 1
          records := c.records ++ [{ record with outputs }]
          stdout := c.stdout ++ [progressLine o out.frame c.countFrame] }

/-- The number of frames to convert, as `main` computes it from the first frame. -/
def announcedFrames (total : ℕ) (startFrame nFrames : ℤ) : ℤ :=
  if nFrames ≠ 0 ∧ startFrame + nFrames ≤ u32 (total + 1) then nFrames
  else total - startFrame + 1

/-- The check of the start frame that ends in `exit(1)`. -/
def rejected (movie : Movie) (o : Options) : Prop :=
  o.startFrame.value ≠ 0 ∧ o.startFrame.value > nFrames movie

instance (movie : Movie) (o : Options) : Decidable (rejected movie o) := instDecidableAnd

def firstFrame (o : Options) : ℤ := max 1 o.startFrame.value

def firstNumber (o : Options) : ℤ :=
  if o.countFrame.value ≥ 0 then o.countFrame.value else firstFrame o

def announcement (o : Options) (total : ℕ) (count : ℤ) : StdoutLine :=
  if o.gui then .total count else .range (firstFrame o) (firstFrame o + count - 1) count total

def startConversion (w : World) (o : Options) (files : FileSystem) : Conversion :=
  let total := nFrames w.movie
  let startFrame := firstFrame o
  let nFrames := announcedFrames total startFrame o.nFrames.value
  { it := construct w.movie 0 (unsignedOf startFrame) (unsignedOf (startFrame + nFrames - 1))
    out := { frame := 0, data := none, size := 0 }
    countFrame := firstNumber o
    files
    records := []
    stdout := [announcement o total nFrames] }

def frameLoop (w : World) (o : Options) (names : ℤ → FileNames) (fuel : ℕ) (c : Conversion) :
    Outcome Conversion :=
  whileLoop (fun c => hasNext c.it) (convertFrame w o names) fuel c

structure MovieRun where
  announced : ℤ
  outcome : Outcome Conversion

/-- The branch from the check of the start frame on. -/
def convertMovie (w : World) (o : Options) (names : ℤ → FileNames) (files : FileSystem) (fuel : ℕ) :
    Option MovieRun :=
  if rejected w.movie o then none
  else
    some
      { announced := announcedFrames (nFrames w.movie) (firstFrame o) o.nFrames.value
        outcome := frameLoop w o names fuel (startConversion w o files) }

def frameCount (total : ℕ) (o : Options) : ℤ :=
  if 1 ≤ o.nFrames.value ∧ firstFrame o + o.nFrames.value ≤ total + 1 then o.nFrames.value
  else total - firstFrame o + 1

section Range
variable {movie : Movie} {o : Options}

theorem firstFrame_pos : 1 ≤ firstFrame o := le_max_left _ _

theorem firstFrame_lt : firstFrame o < 2 ^ 31 := max_lt (by decide) o.startFrame.value_lt

theorem firstFrame_le (h : ¬ rejected movie o) : firstFrame o ≤ nFrames movie + 1 := by
  apply max_le
  · omega
  · by_contra hlt
    exact h ⟨by omega, by omega⟩

/-- The range of frames lies in the movie. It is empty in an empty movie only. -/
theorem frameCount_spec {total : ℕ} (h : firstFrame o ≤ total + 1) :
    0 ≤ frameCount total o ∧ firstFrame o + frameCount total o ≤ total + 1 ∧
      (firstFrame o + frameCount total o = 1 → total = 0) := by
  have hpos := firstFrame_pos (o := o)
  simp only [frameCount]
  split_ifs with hn
  · exact ⟨by omega, hn.2, by omega⟩
  · exact ⟨by omega, by omega, by omega⟩

theorem announcedFrames_eq (h : ¬ rejected movie o) (hn : 0 ≤ o.nFrames.value)
    (hmovie : nFrames movie + 1 < 2 ^ 32) :
    announcedFrames (nFrames movie) (firstFrame o) o.nFrames.value = frameCount (nFrames movie) o := by
  have hle := firstFrame_le h
  simp only [announcedFrames, frameCount, u32_of_lt hmovie]
  push_cast
  split_ifs <;> omega

theorem announcedFrames_inside (movie : Movie) (o : Options) :
    firstFrame o + announcedFrames (nFrames movie) (firstFrame o) o.nFrames.value ≤
      nFrames movie + 1 := by
  have hle : u32 (nFrames movie + 1) ≤ nFrames movie + 1 := Nat.mod_le _ _
  simp only [announcedFrames]
  split_ifs <;> omega

end Range

section Rounds
variable {w : World} (o : Options) (names : ℤ → FileNames) {c : Conversion}

theorem frameLoop_done (hnext : hasNext c.it = false) (fuel : ℕ) :
    frameLoop w o names (fuel + 1) c = ⟨c, true, 0⟩ := whileLoop_done (s := c) hnext fuel

theorem frameLoop_one (hnext : hasNext c.it = true) :
    (frameLoop w o names 1 c).state = (convertFrame w o names c).state ∧
      (frameLoop w o names 1 c).rounds = 1 := whileLoop_one (s := c) hnext

theorem convertFrame_unopened (hopen : w.fopenOk c.records.length = false) :
    ∃ c', convertFrame w o names c = .stop c' ∧ c'.records = c.records := by
  refine ⟨{ c with it := (next w.movie c.it c.out).2.1, out := (next w.movie c.it c.out).2.2 }, ?_, rfl⟩
  simp only [convertFrame, hopen, Bool.not_false, if_true]

/-- A round that reads nothing writes a file all the same. -/
theorem convertFrame_unread (hopen : w.fopenOk c.records.length = true)
    (hread : w.movie.readFrame c.it.position = none) :
    ∃ r, (convertFrame w o names c).state.records = c.records ++ [r] ∧ r.returned = none := by
  simp only [convertFrame, hopen, Bool.not_true, hread]
  cases w.convertOk c.records.length with
  | false => exact ⟨_, rfl, rfl⟩
  | true => exact ⟨_, rfl, rfl⟩

theorem convertFrame_records (hopen : w.fopenOk c.records.length = true) :
    ∃ r, (convertFrame w o names c).state.records = c.records ++ [r] := by
  simp only [convertFrame, hopen, Bool.not_true]
  cases w.convertOk c.records.length with
  | false => exact ⟨_, rfl⟩
  | true => exact ⟨_, rfl⟩

variable {bytes : List UInt8}

def packetRecord (names : FileNames) (it : MovieIterator) (bytes : List UInt8)
    (outputs : List (OutputFormat × List Char)) : FrameRecord where
  frame := unsignedOf it.currentFrame
  returned := some bytes
  jp4Filename := names.jp4
  bytes := bytes
  outputs := outputs

def filesAfter (w : World) (o : Options) (names : FileNames) (bytes : List UInt8)
    (files : FileSystem) : FileSystem :=
  let files := writeOutputs w bytes (selectedOutputs o names)
    (Function.update files names.jp4 (some bytes))
  if o.saveJp4 then files else Function.update files names.jp4 none

theorem frameBytes_owned (k call : ℕ) (it : MovieIterator) (frame size : ℕ)
    (hread : w.movie.readFrame call = some bytes) (hit : it.packet = some call) :
    frameBytes w k it ⟨frame, some call, size⟩ = bytes := by
  simp only [frameBytes, hit, if_true, hread, Option.getD_some]

/-- A round in which a conversion ends the process. -/
theorem convertFrame_aborted (hnext : hasNext c.it = true)
    (hopen : w.fopenOk c.records.length = true) (hconvert : w.convertOk c.records.length = false)
    (hread : w.movie.readFrame c.it.position = some bytes) :
    ∃ c', convertFrame w o names c = .stop c' ∧
      c'.records = c.records ++ [packetRecord (names c.countFrame) c.it bytes []] := by
  simp only [convertFrame, next_some hnext hread, hopen, hconvert, hread, Bool.not_true,
    Bool.not_false, frameBytes_owned _ _ _ _ _ hread]
  exact ⟨_, rfl, rfl⟩

theorem convertFrame_next (hnext : hasNext c.it = true)
    (hopen : w.fopenOk c.records.length = true) (hconvert : w.convertOk c.records.length = true)
    (hread : w.movie.readFrame c.it.position = some bytes) :
    ∃ c', convertFrame w o names c = .next c' ∧
      c'.it.endFrame = c.it.endFrame ∧ c'.it.currentFrame = i32 (c.it.currentFrame + 1) ∧
      c'.it.position = c.it.position + 1 ∧ c'.countFrame = c.countFrame + 1 ∧
      c'.files = filesAfter w o (names c.countFrame) bytes c.files ∧
      c'.records = c.records ++
        [packetRecord (names c.countFrame) c.it bytes (selectedOutputs o (names c.countFrame))] ∧
      ∃ line, c'.stdout = c.stdout ++ [line] := by
  simp only [convertFrame, next_some hnext hread, hopen, hconvert, hread, Bool.not_true,
    frameBytes_owned _ _ _ _ _ hread]
  exact ⟨_, rfl, rfl, rfl, rfl, rfl, rfl, rfl, _, rfl⟩

end Rounds

/-- The loop variables before round `t`, as long as all goes well. The current frame wraps around
when the last frame has the largest number of an `int`. -/
structure AtRound (w : World) (o : Options) (t : ℕ) (c : Conversion) : Prop where
  end_eq : c.it.endFrame = firstFrame o + frameCount (nFrames w.movie) o - 1
  currentFrame_eq : c.it.currentFrame = i32 (firstFrame o + t)
  position_eq : c.it.position = (firstFrame o - 1).toNat + t
  length_records : c.records.length = t

section Run
variable {w : World} {o : Options} {names : ℤ → FileNames} {files : FileSystem} {c : Conversion} {t : ℕ}

theorem convertMovie_eq (h : ¬ rejected w.movie o) (fuel : ℕ) : convertMovie w o names files fuel =
    some
      { announced := announcedFrames (nFrames w.movie) (firstFrame o) o.nFrames.value
        outcome := frameLoop w o names fuel (startConversion w o files) } := if_neg h

theorem convertMovie_some {run : MovieRun} {fuel : ℕ}
    (hrun : convertMovie w o names files fuel = some run) :
    ¬ rejected w.movie o ∧
      run.announced = announcedFrames (nFrames w.movie) (firstFrame o) o.nFrames.value ∧
      run.outcome = frameLoop w o names fuel (startConversion w o files) := by
  by_cases h : rejected w.movie o
  · rw [convertMovie, if_pos h] at hrun
    cases hrun
  · rw [convertMovie_eq h] at hrun
    cases hrun
    exact ⟨h, rfl, rfl⟩

/-- In a longer movie the frame count is negative as an `int`, and the loop is over at once. -/
theorem start_long (hmovie : 2 ^ 31 ≤ nFrames w.movie)
    (hcount : 0 ≤ announcedFrames (nFrames w.movie) (firstFrame o) o.nFrames.value)
    (files : FileSystem) : hasNext (startConversion w o files).it = false := by
  have hpos := firstFrame_pos (o := o)
  have hlt := firstFrame_lt (o := o)
  have htotal := nFrames_lt w.movie
  have hinside := announcedFrames_inside w.movie o
  obtain ⟨a, ha⟩ := Int.eq_ofNat_of_zero_le (sub_nonneg.mpr hpos)
  obtain ⟨e, he⟩ : ∃ e : ℕ, firstFrame o +
      announcedFrames (nFrames w.movie) (firstFrame o) o.nFrames.value - 1 = e :=
    Int.eq_ofNat_of_zero_le (by omega)
  have hfirst : firstFrame o = (a + 1 : ℕ) := by omega
  simp only [startConversion, he]
  rw [hfirst, unsignedOf_natCast (by omega), unsignedOf_natCast (by omega)]
  exact construct_long hmovie (by omega) (by omega) 0

/-- In a movie of less than `2 ^ 31` frames the iterator starts on the range asked for. -/
theorem start_atRound (h : ¬ rejected w.movie o) (hn : 0 ≤ o.nFrames.value)
    (hmovie : nFrames w.movie < 2 ^ 31) (files : FileSystem) :
    AtRound w o 0 (startConversion w o files) := by
  have hannounced := announcedFrames_eq h hn (by omega)
  obtain ⟨hcount, hinside, hempty⟩ := frameCount_spec (firstFrame_le h)
  have hlt := firstFrame_lt (o := o)
  obtain ⟨a, ha⟩ := Int.eq_ofNat_of_zero_le (sub_nonneg.mpr (firstFrame_pos (o := o)))
  obtain ⟨e, he⟩ : ∃ e : ℕ, firstFrame o + frameCount (nFrames w.movie) o - 1 = e :=
    Int.eq_ofNat_of_zero_le (by omega)
  have hfirst : firstFrame o = (a + 1 : ℕ) := by omega
  have hit : (startConversion w o files).it =
      { start := (a + 1 : ℕ), endFrame := e, currentFrame := (a + 1 : ℕ), packet := none
        position := 0 + a } := by
    simp only [startConversion, hannounced, he]
    rw [hfirst, unsignedOf_natCast (by omega), unsignedOf_natCast (by omega)]
    exact construct_inside hmovie (by omega) (by omega) (by omega) 0
  have hsmall : i32 (firstFrame o + (0 : ℕ)) = (a + 1 : ℕ) := by
    rw [i32_of_small (by omega) (by omega)]
    omega
  exact
    { end_eq := by rw [hit, he]
      currentFrame_eq := by rw [hit, hsmall]
      position_eq := by
        rw [hit, ha, Int.toNat_natCast]
        exact Nat.zero_add a
      length_records := rfl }

/-- Before a round of the range the current frame has not wrapped around. -/
theorem AtRound.currentFrame_small (hc : AtRound w o t c) (h : ¬ rejected w.movie o)
    (hmovie : nFrames w.movie < 2 ^ 31) (ht : t < frameCount (nFrames w.movie) o) :
    c.it.currentFrame = firstFrame o + t := by
  obtain ⟨-, hinside, -⟩ := frameCount_spec (firstFrame_le h)
  have hpos := firstFrame_pos (o := o)
  rw [hc.currentFrame_eq, i32_of_small (by omega) (by omega)]

theorem AtRound.hasNext_inside (hc : AtRound w o t c) (h : ¬ rejected w.movie o)
    (hmovie : nFrames w.movie < 2 ^ 31) (ht : t < frameCount (nFrames w.movie) o) :
    hasNext c.it = true := by
  apply decide_eq_true
  rw [hc.currentFrame_small h hmovie ht, hc.end_eq]
  omega

/-- After the last frame the loop stops, unless the current frame has wrapped around. -/
theorem AtRound.hasNext_end (hc : AtRound w o t c) (h : ¬ rejected w.movie o)
    (hmovie : nFrames w.movie < 2 ^ 31) (ht : t = frameCount (nFrames w.movie) o) :
    hasNext c.it = decide (firstFrame o + frameCount (nFrames w.movie) o = 2 ^ 31) := by
  obtain ⟨hcount, hinside, -⟩ := frameCount_spec (firstFrame_le h)
  have hpos := firstFrame_pos (o := o)
  rw [hasNext, hc.currentFrame_eq, hc.end_eq, ht]
  by_cases hwrap : firstFrame o + frameCount (nFrames w.movie) o = 2 ^ 31
  · rw [hwrap, show i32 (2 ^ 31) = -2 ^ 31 by decide]
    decide
  · rw [i32_of_small (by omega) (by omega), decide_eq_false hwrap]
    exact decide_eq_false (by omega)

theorem AtRound.step (hc : AtRound w o t c) (names : ℤ → FileNames) (h : ¬ rejected w.movie o)
    (hmovie : nFrames w.movie < 2 ^ 31) (ht : t < frameCount (nFrames w.movie) o)
    {bytes : List UInt8} (hopen : w.fopenOk t = true) (hconvert : w.convertOk t = true)
    (hread : w.movie.readFrame ((firstFrame o - 1).toNat + t) = some bytes) :
    ∃ c', convertFrame w o names c = .next c' ∧ AtRound w o (t + 1) c' ∧
      c'.countFrame = c.countFrame + 1 ∧
      c'.files = filesAfter w o (names c.countFrame) bytes c.files ∧
      c'.records = c.records ++
        [packetRecord (names c.countFrame) c.it bytes (selectedOutputs o (names c.countFrame))] ∧
      ∃ line, c'.stdout = c.stdout ++ [line] := by
  obtain ⟨c', hstep, hend, hcurrent, hposition, hnumber, hfiles, hrecords, hstdout⟩ :=
    convertFrame_next o names (hc.hasNext_inside h hmovie ht)
      (by rwa [hc.length_records]) (by rwa [hc.length_records]) (by rwa [hc.position_eq])
  refine ⟨c', hstep, ?_, hnumber, hfiles, hrecords, hstdout⟩
  exact
    { end_eq := hend.trans hc.end_eq
      currentFrame_eq := by
        rw [hcurrent, hc.currentFrame_small h hmovie ht, Int.add_assoc]
        rfl
      position_eq := by rw [hposition, hc.position_eq, Nat.add_assoc]
      length_records := by rw [hrecords, List.length_append, hc.length_records]; rfl }

end Run

end Jp4Tools.MovieConversion
