import Jp4Tools.FrameNames
import Jp4Tools.PrintCalls

/-!
# The file names of the program

From its arguments `main` builds the prefix of the frame files or the names that belong to a single
frame. The names lie in arrays on the stack; the array of the argument `SOURCE` is changed in place.
Most branches depend on a search in `SOURCE` that was made before.
-/

namespace Jp4Tools.SourcePaths
open MovieConversion FrameNames CStrings PrintCalls

inductive FileKind where
  | jp4
  | output (f : OutputFormat)
  deriving DecidableEq

def FileKind.extension : FileKind → List Char
  | .jp4 => jp4Extension
  | .output f => outputExtension f

def fileKinds : List FileKind := [.jp4, .output .jpeg, .output .dng, .output .pgm]

/-- The arrays of `main`: `jp4FilenameFmt` and `jp4Filename` have siblings of the other kinds. -/
inductive Variable where
  | sourceFilename
  | frameName
  | basenameCopy
  | filenameFmt (k : FileKind)
  | filename (k : FileKind)
  deriving DecidableEq

/-- What the option parser accepts, as far as names depend on it: `SOURCE`, `DEST` if there is a
second argument, and at least one format. -/
structure CommandLine where
  source : List Char
  dest : Option (List Char)
  saveToStdout : Bool
  saveJp4 : Bool
  saves : OutputFormat → Bool
  source_nul : nul ∉ source
  dest_nul : ∀ d ∈ dest, nul ∉ d
  someFormat : saveJp4 = true ∨ ∃ f, saves f = true

/-- A round of the movie loop: the number in the names, and whether the JP4 file can be opened. -/
structure MovieRound where
  countFrame : ℤ
  fopenOk : Bool

/-- What `main` meets outside: the directories, the rounds that the movie gives rise to, none when
it cannot be opened, and what other conversions print. -/
structure PathWorld where
  opendir : List Char → Bool
  mkdir : List Char → Bool
  rounds : List MovieRound
  other : List Char → List Char

def answering (opendir mkdir : Bool) : PathWorld where
  opendir := fun _ => opendir
  mkdir := fun _ => mkdir
  rounds := []
  other := fun _ => []

/-- What becomes of `SOURCE`. The first two end with `exit(1)`. -/
inductive Handling where
  | noDirectory
  | tooManyFormats
  | singleFrame (jp4Filename : List Char) (outputs : List (List Char))
  | movie (frameName : List Char)
  deriving DecidableEq

/-- The arrays before the first statement: `SOURCE` is in memory, and anything else may hold what it
likes. -/
def argumentMemory (c : CommandLine) (leftover : Variable → List Char) : Memory Variable where
  array
    | .sourceFilename =>
      { capacity := c.source.length + 1, cells := c.source ++ nul :: leftover .sourceFilename
        given := c.source.length + 1 }
    | v => { capacity := posixPathMax, cells := leftover v, given := 0 }
  accesses := []

def isJp4 (sourceFilename : List Char) : Bool :=
  strcasestr sourceFilename ".jp4".toList || strcasestr sourceFilename ".jp46".toList

def isStdin (sourceFilename : List Char) : Bool := decide (sourceFilename = ['-'])

/-- `SOURCE` without what follows its last dot, in `frameName`. -/
def copyStem (m : Memory Variable) : Memory Variable :=
  let (source, m) := readText .sourceFilename m
  cutAtLast .frameName '.' (strncpy .frameName source posixPathMax m)

def copyBasename (m : Memory Variable) : List Char × Memory Variable :=
  let (stem, m) := readText .frameName m
  let (copy, m) := readText .basenameCopy (strncpy .basenameCopy stem posixPathMax m)
  (basename copy, m)

/-- The block that uses `SOURCE` without extension as a directory. It returns the directories that it
made, unless it gives up. -/
def deriveFrameName (w : PathWorld) (m : Memory Variable) :
    Option (List (List Char)) × Memory Variable :=
  let (frameFilename, m) := copyBasename (copyStem m)
  let (dir, m) := readText .frameName (strcat .frameName ['/'] m)
  if w.opendir dir then (some [], strcat .frameName frameFilename m)
  else if w.mkdir dir then (some [dir], strcat .frameName frameFilename m)
  else (none, m)

/-- The prefix is taken from `DEST`, is derived from `SOURCE`, or is not set. -/
def setFrameName (w : PathWorld) (c : CommandLine) (source : List Char) (m : Memory Variable) :
    Option (List (List Char)) × Memory Variable :=
  match c.dest with
  | none => if !isJp4 source && !c.saveToStdout then deriveFrameName w m else (some [], m)
  | some dest => (some [], strncpy .frameName dest posixPathMax m)

def filenameFmtCall (k : FileKind) : PrintCall Variable where
  dst := .filenameFmt k
  size := posixPathMax
  fmt := .literal (['%', 's', '-', '%', '%', '0', '6', 'd'] ++ k.extension)
  args := [.string .frameName]

def printFilenameFmts (w : PathWorld) (m : Memory Variable) : Memory Variable :=
  printAll w.other (fileKinds.map filenameFmtCall) m

def selected (c : CommandLine) : List OutputFormat := [.dng, .pgm, .jpeg].filter c.saves

/-- The check that is reported as a conflict with `--stdout`. -/
def manyFormats (c : CommandLine) : Bool :=
  c.saves .dng && c.saves .pgm || c.saves .dng && c.saves .jpeg || c.saves .pgm && c.saves .jpeg

def outputCall (c : CommandLine) (f : OutputFormat) : PrintCall Variable :=
  if c.saveToStdout then
    { dst := .filename (.output f), size := posixPathMax, fmt := .literal "/dev/stdout".toList, args := [] }
  else
    { dst := .filename (.output f), size := posixPathMax
      fmt := .literal (['%', 's'] ++ outputExtension f), args := [.string .sourceFilename] }

def stdinCall : PrintCall Variable where
  dst := .sourceFilename
  size := posixPathMax
  fmt := .literal "/dev/stdin".toList
  args := []

def readOutputs (c : CommandLine) (m : Memory Variable) : List (List Char) × Memory Variable :=
  readTexts ((selected c).map (fun f => .filename (.output f))) m

/-- The names of a single frame, where `SOURCE` is the standard input or not. -/
def nameSingleFrame (w : PathWorld) (c : CommandLine) (stdin : Bool) (m : Memory Variable) :
    Memory Variable :=
  let m := if stdin then stdinCall.run w.other m else m
  let (source, m) := readText .sourceFilename m
  let m := strncpy (.filename .jp4) source posixPathMax m
  let m := cutAtLast .sourceFilename '.' m
  printAll w.other ([.jpeg, .dng, .pgm].map (outputCall c)) m

def singleFrame (w : PathWorld) (c : CommandLine) (stdin : Bool) (m : Memory Variable) :
    Handling × Memory Variable :=
  if manyFormats c then (.tooManyFormats, m)
  else
    let m := nameSingleFrame w c stdin m
    let (jp4Filename, m) := readText (.filename .jp4) m
    let (outputs, m) := readOutputs c m
    (.singleFrame jp4Filename outputs, m)

def filenameCall (countFrame : ℤ) (k : FileKind) : PrintCall Variable where
  dst := .filename k
  size := posixPathMax
  fmt := .array (.filenameFmt k)
  args := [.integer countFrame]

/-- The names of the rounds of the movie loop. `main` returns when a JP4 file cannot be opened. -/
def nameFrames (w : PathWorld) (c : CommandLine) : List MovieRound → Memory Variable → Memory Variable
  | [], m => m
  | round :: rounds, m =>
    let m := printAll w.other (fileKinds.map (filenameCall round.countFrame)) m
    let (_, m) := readText (.filename .jp4) m
    if round.fopenOk then nameFrames w c rounds (readOutputs c m).2 else m

def convertFrames (w : PathWorld) (c : CommandLine) (m : Memory Variable) :
    Handling × Memory Variable :=
  let (_, m) := readText .sourceFilename m
  (.movie (m.array .frameName).text, nameFrames w c w.rounds m)

structure PathRun where
  handling : Handling
  directories : List (List Char)
  memory : Memory Variable

def handleSource (w : PathWorld) (c : CommandLine) (source : List Char) (m : Memory Variable) :
    Handling × Memory Variable :=
  let m := printFilenameFmts w m
  if isJp4 source || isStdin source then singleFrame w c (isStdin source) m
  else convertFrames w c m

def main (w : PathWorld) (c : CommandLine) (leftover : Variable → List Char) : PathRun :=
  let (source, m) := readText .sourceFilename (argumentMemory c leftover)
  match setFrameName w c source m with
  | (none, m) => { handling := .noDirectory, directories := [], memory := m }
  | (some directories, m) =>
    let (handling, memory) := handleSource w c source m
    { handling, directories, memory }

section Derivation
variable {m : Memory Variable} {source stem : List Char} {v : Variable}

theorem copyStem_holds (h : (m.array .sourceFilename).Holds source)
    (hlength : source.length < posixPathMax) :
    ((copyStem m).array .frameName).Holds (beforeLast '.' source) := by
  simp only [copyStem, readText_fst, h.text_eq]
  apply cutAtLast_holds
  exact strncpy_holds h.nul_notMem hlength

theorem copyBasename_other (hv : v ≠ .basenameCopy) : (copyBasename m).2.array v = m.array v := by
  rw [copyBasename, readText_array, strncpy_other hv, readText_array]

theorem copyBasename_fst (h : (m.array .frameName).Holds stem) (hlength : stem.length < posixPathMax) :
    (copyBasename m).1 = basename stem := by
  have hcopy := strncpy_holds (m := (readText .frameName m).2) (v := .basenameCopy) h.nul_notMem hlength
  simp only [copyBasename, readText_fst, h.text_eq, hcopy.text_eq]

def directoryMemory (m : Memory Variable) : Memory Variable :=
  (readText .frameName (strcat .frameName ['/'] (copyBasename (copyStem m)).2)).2

theorem directoryMemory_holds (h : (m.array .sourceFilename).Holds source)
    (hlength : source.length < posixPathMax) :
    ((directoryMemory m).array .frameName).Holds (beforeLast '.' source ++ ['/']) := by
  rw [directoryMemory, readText_array]
  apply strcat_holds
  · rw [copyBasename_other (by decide)]
    exact copyStem_holds h hlength
  · decide

theorem deriveFrameName_eq (w : PathWorld) (h : (m.array .sourceFilename).Holds source)
    (hlength : source.length < posixPathMax) :
    deriveFrameName w m =
      let stem := beforeLast '.' source
      let named := strcat .frameName (basename stem) (directoryMemory m)
      if w.opendir (stem ++ ['/']) then (some [], named)
      else if w.mkdir (stem ++ ['/']) then (some [stem ++ ['/']], named)
      else (none, directoryMemory m) := by
  have hdir : (readText .frameName (strcat .frameName ['/'] (copyBasename (copyStem m)).2)).1 =
      beforeLast '.' source ++ ['/'] := (directoryMemory_holds h hlength).text_eq
  have hbase : (copyBasename (copyStem m)).1 = basename (beforeLast '.' source) := by
    apply copyBasename_fst (copyStem_holds h hlength)
    exact (beforeLast_length_le '.' source).trans_lt hlength
  simp only [deriveFrameName, hdir, hbase]
  rfl

/-- The prefix is set to the directory and the last component. -/
theorem named_holds (h : (m.array .sourceFilename).Holds source) (hlength : source.length < posixPathMax) :
    ((strcat .frameName (basename (beforeLast '.' source)) (directoryMemory m)).array .frameName).Holds
      (beforeLast '.' source ++ '/' :: basename (beforeLast '.' source)) := by
  have hnul : nul ∉ beforeLast '.' source :=
    fun hmem => h.nul_notMem ((beforeLast_isPrefix '.' source).subset hmem)
  have hnamed := strcat_holds (directoryMemory_holds h hlength) (nul_notMem_basename hnul)
  rwa [List.append_assoc, List.singleton_append] at hnamed

end Derivation

section Formats
variable {w : PathWorld} {m : Memory Variable} {v : Variable}

theorem fmts_other (hv : ∀ k, v ≠ .filenameFmt k) : (printFilenameFmts w m).array v = m.array v := by
  apply printAll_other
  rw [List.map_map, List.mem_map]
  rintro ⟨k, -, hk⟩
  exact hv k hk.symm

@[simp] theorem fmts_capacity (v : Variable) :
    ((printFilenameFmts w m).array v).capacity = (m.array v).capacity := printAll_capacity v

end Formats

section SingleFrame
variable {w : PathWorld} {c : CommandLine} {m : Memory Variable} {source : List Char}

@[simp] theorem outputCall_dst (f : OutputFormat) : (outputCall c f).dst = .filename (.output f) := by
  rw [outputCall]
  split_ifs <;> rfl

@[simp] theorem outputCall_size (f : OutputFormat) : (outputCall c f).size = posixPathMax := by
  rw [outputCall]
  split_ifs <;> rfl

theorem eq_of_mem_outputCall_reads {f : OutputFormat} {v : Variable} (h : v ∈ (outputCall c f).reads) :
    v = .sourceFilename := by
  rw [outputCall] at h
  split_ifs at h
  · exact absurd h List.not_mem_nil
  · exact List.mem_singleton.mp h

theorem mem_formats (f : OutputFormat) : f ∈ [OutputFormat.jpeg, .dng, .pgm] := by
  cases f <;> decide

theorem dst_outputCalls :
    ([OutputFormat.jpeg, .dng, .pgm].map (outputCall c)).map PrintCall.dst =
      [.filename (.output .jpeg), .filename (.output .dng), .filename (.output .pgm)] := by
  simp only [List.map_cons, List.map_nil, outputCall_dst]

theorem independent_outputCalls : Independent ([OutputFormat.jpeg, .dng, .pgm].map (outputCall c)) := by
  constructor
  · intro p hp v hv
    obtain ⟨f, -, rfl⟩ := List.mem_map.mp hp
    rw [eq_of_mem_outputCall_reads hv, dst_outputCalls]
    decide
  · rw [dst_outputCalls]
    decide

/-- The text of the array of `SOURCE`, which is replaced when it stands for the standard input. -/
def inputName (stdin : Bool) (source : List Char) : List Char :=
  if stdin then "/dev/stdin".toList else source

def inputMemory (w : PathWorld) (stdin : Bool) (m : Memory Variable) : Memory Variable :=
  if stdin then stdinCall.run w.other m else m

theorem inputMemory_holds (stdin : Bool) (h : (m.array .sourceFilename).Holds source) :
    ((inputMemory w stdin m).array .sourceFilename).Holds (inputName stdin source) := by
  cases stdin with
  | false => exact h
  | true =>
    have hpercent : '%' ∉ "/dev/stdin".toList := by decide
    have htext : stdinCall.text w.other m.array = "/dev/stdin".toList := Printf.printf_text hpercent _
    have hnul : nul ∉ stdinCall.text w.other m.array := by
      rw [htext]
      decide
    have hprint := PrintCall.run_holds hnul
    rwa [htext] at hprint

def cutMemory (w : PathWorld) (stdin : Bool) (m : Memory Variable) : Memory Variable :=
  let (source, m) := readText .sourceFilename (inputMemory w stdin m)
  cutAtLast .sourceFilename '.' (strncpy (.filename .jp4) source posixPathMax m)

theorem cutMemory_eq (stdin : Bool) : cutMemory w stdin m =
    cutAtLast .sourceFilename '.' (strncpy (.filename .jp4)
      (readText .sourceFilename (inputMemory w stdin m)).1 posixPathMax
      (readText .sourceFilename (inputMemory w stdin m)).2) := rfl

theorem nameSingleFrame_eq (stdin : Bool) : nameSingleFrame w c stdin m =
    printAll w.other ([.jpeg, .dng, .pgm].map (outputCall c)) (cutMemory w stdin m) := rfl

theorem cutMemory_jp4 (stdin : Bool) (h : (m.array .sourceFilename).Holds source) :
    (cutMemory w stdin m).array (.filename .jp4) =
      (strncpy (.filename .jp4) (inputName stdin source) posixPathMax
        (readText .sourceFilename (inputMemory w stdin m)).2).array (.filename .jp4) := by
  rw [cutMemory_eq, cutAtLast_other (by decide), readText_fst, (inputMemory_holds stdin h).text_eq]

theorem cutMemory_holds (stdin : Bool) (h : (m.array .sourceFilename).Holds source) :
    ((cutMemory w stdin m).array .sourceFilename).Holds (beforeLast '.' (inputName stdin source)) := by
  rw [cutMemory_eq]
  apply cutAtLast_holds
  rw [strncpy_other (by decide), readText_array]
  exact inputMemory_holds stdin h

theorem nameSingleFrame_jp4 (stdin : Bool) :
    (nameSingleFrame w c stdin m).array (.filename .jp4) = (cutMemory w stdin m).array (.filename .jp4) := by
  rw [nameSingleFrame_eq]
  apply printAll_other
  rw [dst_outputCalls]
  decide

end SingleFrame

section Run

structure Arrays (c : CommandLine) (m : Memory Variable) : Prop where
  capacity : ∀ v, v ≠ .sourceFilename → (m.array v).capacity = posixPathMax
  sourceCapacity : (m.array .sourceFilename).capacity = c.source.length + 1
  source : (m.array .sourceFilename).Holds c.source
  jp4Given : (m.array (.filename .jp4)).given = 0

variable {w : PathWorld} {c : CommandLine} {m : Memory Variable} {leftover : Variable → List Char}

theorem Arrays.of_array_eq {m' : Memory Variable} (h : Arrays c m)
    (hcapacity : ∀ v, (m'.array v).capacity = (m.array v).capacity)
    (hsource : m'.array .sourceFilename = m.array .sourceFilename)
    (hjp4 : m'.array (.filename .jp4) = m.array (.filename .jp4)) : Arrays c m' where
  capacity := by
    intro v hv
    rw [hcapacity, h.capacity v hv]
  sourceCapacity := by rw [hcapacity, h.sourceCapacity]
  source := hsource ▸ h.source
  jp4Given := hjp4 ▸ h.jp4Given

theorem arrays_argumentMemory (c : CommandLine) (leftover : Variable → List Char) :
    Arrays c (argumentMemory c leftover) where
  capacity := by
    intro v hv
    cases v with
    | sourceFilename => exact absurd rfl hv
    | frameName => rfl
    | basenameCopy => rfl
    | filenameFmt k => rfl
    | filename k => rfl
  sourceCapacity := rfl
  source := ⟨c.source_nul, ⟨_, rfl⟩, Nat.lt_succ_self _⟩
  jp4Given := rfl

theorem Arrays.fmts (h : Arrays c m) : Arrays c (printFilenameFmts w m) :=
  h.of_array_eq fmts_capacity (fmts_other (fun _ => by simp)) (fmts_other (fun _ => by simp))

/-- The arrays when `SOURCE` has been searched. -/
def searched (c : CommandLine) (leftover : Variable → List Char) : Memory Variable :=
  (readText .sourceFilename (argumentMemory c leftover)).2

theorem arrays_searched : Arrays c (searched c leftover) :=
  (arrays_argumentMemory c leftover).of_array_eq (fun _ => rfl) rfl rfl

theorem main_eq : main w c leftover =
    match setFrameName w c c.source (searched c leftover) with
    | (none, m) => { handling := .noDirectory, directories := [], memory := m }
    | (some directories, m) =>
      { handling := (handleSource w c c.source m).1, directories
        memory := (handleSource w c c.source m).2 } := by
  have hsource : (readText .sourceFilename (argumentMemory c leftover)).1 = c.source :=
    (arrays_argumentMemory c leftover).source.text_eq
  simp only [main, hsource]
  rfl

theorem setFrameName_derived (hdest : c.dest = none) (hjp4 : isJp4 c.source = false)
    (hstdout : c.saveToStdout = false) :
    setFrameName w c c.source m = deriveFrameName w m := by
  rw [setFrameName, hdest, hjp4, hstdout]
  rfl

end Run

end Jp4Tools.SourcePaths
