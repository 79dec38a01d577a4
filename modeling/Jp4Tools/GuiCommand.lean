import Jp4Tools.GetoptLong
import Jp4Tools.Printf

/-!
# The command of the graphical interface

The window keeps a command line up to date, which `Runtime.exec` later cuts at its white space. The
paths in it have been through a `replaceAll` that looks like an escape of the blanks. What `movie2dng`
then finds in its arguments is compared here with what the user has chosen.
-/

namespace Jp4Tools.GuiCommand
open GetoptLong Printf Words

/-- Where `lastIndexOf` finds a character; none is the index -1. -/
def lastIndexOf (c : Char) : List Char → Option ℕ
  | [] => none
  | x :: s =>
    match lastIndexOf c s with
    | some i => some (i + 1)
    | none => if x = c then some 0 else none

/-- `s.substring(0, end)`, which throws an exception at the index -1. -/
def substring (s : List Char) (stop : Option ℕ) : Option (List Char) := stop.map s.take

/-- What a replacement stands for: a backslash in it makes the next character an ordinary one. -/
def replacementText : List Char → List Char
  | '\\' :: c :: replacement => c :: replacementText replacement
  | c :: replacement => c :: replacementText replacement
  | [] => []

/-- `replaceAll` with a single character as the regular expression. -/
def replaceAll (c : Char) (replacement s : List Char) : List Char :=
  s.flatMap (fun x => if x = c then replacementText replacement else [x])

/-- Where `Runtime.exec` cuts a command. -/
def isDelimiter (c : Char) : Bool := [' ', '\t', '\n', '\r', '\x0c'].contains c

structure IsName (name : List Char) : Prop where
  ne_nil : name ≠ []
  slash : '/' ∉ name
  nul : '\x00' ∉ name

structure Directory where
  components : List (List Char)
  isName : ∀ name ∈ components, IsName name

namespace Directory

/-- The text in front of the slash of an entry. -/
def text (d : Directory) : List Char := d.components.flatMap ('/' :: ·)

def getPath (d : Directory) : List Char := if d.components = [] then ['/'] else d.text

def entry (d : Directory) (name : List Char) : List Char := d.text ++ '/' :: name

end Directory

structure SourceFile where
  directory : Directory
  getName : List Char
  isName : IsName getName

def SourceFile.getPath (file : SourceFile) : List Char := file.directory.entry file.getName

inductive Destination where
  | sameAsSource
  | subfolders
  | differentFolder
  deriving DecidableEq

/-- What the user sets in the window. -/
structure Widgets where
  createDNGs : Bool
  keepJP4s : Bool
  createJPEGs : Bool
  createPGMs : Bool
  /-- The index of the item: the detection, then the four shifts. -/
  bayerShift : Fin 5
  frameLimiterNumber : Bool
  frameLimiterNumberField : List Char
  destination : Destination

structure View extends Widgets where
  sourcePath : List Char
  sourceFilename : List Char
  destinationPath : List Char
  destinationCustomPath : List Char

def selectSource (file : SourceFile) (v : View) : Option View := do
  let sourcePath := replaceAll ' ' "\\ ".toList file.getPath
  let sep := lastIndexOf '/' file.getPath
  let destinationPath ← substring file.getPath sep
  let destinationPath := replaceAll ' ' "\\ ".toList destinationPath
  some { v with sourcePath, sourceFilename := file.getName, destinationPath, destinationCustomPath := destinationPath }

def selectDestination (file : Directory) (v : View) : Option View := do
  -- the same as for a source, although the dialog is for directories
  let sep := lastIndexOf '/' file.getPath
  let destinationCustomPath ← substring file.getPath sep
  some { v with destinationCustomPath }

def flagText (w : Widgets) : List Char :=
  "--gui ".toList
    ++ (if w.createDNGs then "--dng ".toList else [])
    ++ (if w.keepJP4s then "--jp4 ".toList else [])
    ++ (if w.createJPEGs then "--jpeg ".toList else [])
    ++ (if w.createPGMs then "--pgm ".toList else [])
    ++ (if w.bayerShift ≠ 0 then "--shift=".toList ++ decimal (w.bayerShift - 1) ++ " ".toList else [])

def updateCommand (v : View) : Option (List Char) := do
  let commandstring := "movie2dng ".toList ++ flagText v.toWidgets
    ++ (if v.frameLimiterNumber then "--frames ".toList ++ v.frameLimiterNumberField ++ " ".toList else [])
    ++ v.sourcePath ++ " ".toList
  -- the references differ once a source is selected, and no file has an empty name
  if v.sourceFilename ≠ [] then
    let stem ← substring v.sourceFilename (lastIndexOf '.' v.sourceFilename)
    match v.destination with
    | .sameAsSource => some (commandstring ++ v.destinationPath ++ "/".toList ++ stem ++ "_NNNNN".toList)
    | .subfolders =>
      some (commandstring ++ v.destinationPath ++ "/".toList ++ stem ++ "/".toList ++ stem ++ "_NNNNN".toList)
    | .differentFolder => some (commandstring ++ v.destinationCustomPath ++ "/".toList ++ stem ++ "_NNNNN".toList)
  else
    some commandstring

inductive CmdOption where
  | help | version | jp4 | jpeg | dng | pgm | stdout | gui | nFrames | startFrame | countFrame | bayerShift
  | jpegQuality
  deriving DecidableEq

def cmdOptions : OptionTable CmdOption where
  long :=
    [⟨"help".toList, false, .help⟩, ⟨"version".toList, false, .version⟩, ⟨"jp4".toList, false, .jp4⟩,
      ⟨"jpeg".toList, false, .jpeg⟩, ⟨"dng".toList, false, .dng⟩, ⟨"pgm".toList, false, .pgm⟩,
      ⟨"stdout".toList, false, .stdout⟩, ⟨"gui".toList, false, .gui⟩, ⟨"frames".toList, true, .nFrames⟩,
      ⟨"start".toList, true, .startFrame⟩, ⟨"count-start".toList, true, .countFrame⟩,
      ⟨"shift".toList, true, .bayerShift⟩, ⟨"jpeg-quality".toList, true, .jpegQuality⟩]
  short c := if c = 'h' then some .help else if c = 'v' then some .version else none

def flags (w : Widgets) : List (CmdOption × Option (List Char)) :=
  [(.gui, none)]
    ++ (if w.createDNGs then [(.dng, none)] else [])
    ++ (if w.keepJP4s then [(.jp4, none)] else [])
    ++ (if w.createJPEGs then [(.jpeg, none)] else [])
    ++ (if w.createPGMs then [(.pgm, none)] else [])
    ++ (if w.bayerShift ≠ 0 then [(.bayerShift, some (decimal (w.bayerShift - 1)))] else [])

/-- What the user has chosen: a source and then, if at all, a directory for the destination. -/
structure Choice extends Widgets where
  source : SourceFile
  folder : Option Directory

namespace Choice
variable (choice : Choice)

def view : Option View := do
  let v ← selectSource choice.source ⟨choice.toWidgets, [], [], [], []⟩
  match choice.folder with
  | none => some v
  | some folder => selectDestination folder v

/-- What `movie2dng` finds in the arguments behind its name. -/
def parsed : Option (Parsed CmdOption) := do
  let v ← choice.view
  let commandstring ← updateCommand v
  getoptLong cmdOptions (words isDelimiter commandstring).tail

def options : List (CmdOption × Option (List Char)) :=
  flags choice.toWidgets ++ (if choice.frameLimiterNumber then [(.nFrames, some choice.frameLimiterNumberField)] else [])

def stem : List Char :=
  (substring choice.source.getName (lastIndexOf '.' choice.source.getName)).getD choice.source.getName

def destinationPrefix : List Char :=
  let frames := choice.stem ++ "_NNNNN".toList
  match choice.destination with
  | .sameAsSource => choice.source.directory.entry frames
  | .subfolders => choice.source.directory.entry (choice.stem ++ '/' :: frames)
  | .differentFolder => (choice.folder.getD choice.source.directory).entry frames

/-- The command asks for what was chosen. -/
def IsAskedFor : Prop :=
  choice.parsed = some ⟨choice.options, [choice.source.getPath, choice.destinationPrefix]⟩

end Choice

section Texts
variable {c : Char} {s rest : List Char}

theorem lastIndexOf_eq_none (h : c ∉ s) : lastIndexOf c s = none := by
  induction s with
  | nil => rfl
  | cons x s ih =>
    rw [lastIndexOf, ih (fun hs => h (List.mem_cons_of_mem x hs)), if_neg (by rintro rfl; exact h List.mem_cons_self)]

theorem lastIndexOf_append (hrest : c ∉ rest) (s : List Char) : lastIndexOf c (s ++ c :: rest) = some s.length := by
  induction s with
  | nil => simp [lastIndexOf, lastIndexOf_eq_none hrest]
  | cons x s ih => rw [List.cons_append, lastIndexOf, ih, List.length_cons]

theorem substring_append (hrest : c ∉ rest) (s : List Char) :
    substring (s ++ c :: rest) (lastIndexOf c (s ++ c :: rest)) = some s := by
  rw [lastIndexOf_append hrest, substring, Option.map_some, List.take_left]

theorem exists_lastIndexOf (h : c ∈ s) : ∃ i, lastIndexOf c s = some i := by
  induction s with
  | nil => simp at h
  | cons x s ih =>
    cases hs : lastIndexOf c s with
    | some i => exact ⟨i + 1, by rw [lastIndexOf, hs]⟩
    | none =>
      rcases List.mem_cons.mp h with rfl | h
      · exact ⟨0, by rw [lastIndexOf, hs, if_pos rfl]⟩
      · have hnone : c ∉ s := by simpa [hs] using ih
        exact absurd h hnone

theorem replaceAll_blank (s : List Char) : replaceAll ' ' "\\ ".toList s = s := by
  have hchar : ∀ x, (if x = ' ' then replacementText "\\ ".toList else [x]) = [x] := by
    intro x
    split_ifs with hx
    · rw [hx]
      rfl
    · rfl
  rw [replaceAll, funext hchar, List.flatMap_singleton']

end Texts

theorem Directory.exists_entry_eq (d : Directory) (name : List Char) : ∃ rest, d.entry name = '/' :: rest := by
  rw [entry, text]
  cases d.components with
  | nil => exact ⟨name, rfl⟩
  | cons first rest => exact ⟨_, rfl⟩

theorem SourceFile.getPath_ne_nil (file : SourceFile) : file.getPath ≠ [] := by
  obtain ⟨rest, hslash⟩ := file.directory.exists_entry_eq file.getName
  simp [getPath, hslash]

theorem Directory.substring_getPath (d : Directory) :
    substring d.getPath (lastIndexOf '/' d.getPath) = some (d.components.dropLast.flatMap ('/' :: ·)) := by
  rcases List.eq_nil_or_concat d.components with hroot | ⟨init, name, hlast⟩
  · rw [getPath, if_pos hroot, hroot]
    rfl
  · have hslash : '/' ∉ name := (d.isName name (by simp [hlast])).slash
    have hpath : d.getPath = init.flatMap ('/' :: ·) ++ '/' :: name := by simp [getPath, text, hlast]
    rw [hpath, substring_append hslash, hlast]
    simp

section OptionText

/-- The options of the table are found under their own names, which pass through a command. -/
theorem cmdOptions_long : ∀ o ∈ cmdOptions.long, findLong cmdOptions o.name = some o ∧ o.name ≠ [] ∧
    '=' ∉ o.name ∧ ("--".toList ++ o.name).all (fun c => !isDelimiter c) = true := by
  decide

variable {o : LongOption CmdOption}

theorem standsFor_flag (ho : o ∈ cmdOptions.long) (harg : o.hasArg = false) :
    StandsFor cmdOptions isDelimiter ("--".toList ++ o.name ++ " ".toList) [(o.val, none)] := by
  obtain ⟨hfind, hne, hequals, hword⟩ := cmdOptions_long o ho
  refine standsFor_options (sep_of_all hword) (by simp) rfl ?_
  exact (argumentKind_long hne hequals).trans (by simp [longKind, hfind, harg])

theorem standsFor_longValue (ho : o ∈ cmdOptions.long) (harg : o.hasArg = true) {value : List Char}
    (hvalue : ∀ c ∈ value, isDelimiter c = false) :
    StandsFor cmdOptions isDelimiter ("--".toList ++ o.name ++ '=' :: value ++ " ".toList) [(o.val, some value)] := by
  obtain ⟨hfind, hne, hequals, hword⟩ := cmdOptions_long o ho
  refine standsFor_options ?_ (by simp) rfl ?_
  · intro c hc
    rcases List.mem_append.mp hc with hc | hc
    · exact sep_of_all hword c hc
    · rcases List.mem_cons.mp hc with rfl | hc
      · rfl
      · exact hvalue c hc
  · exact (argumentKind_longValue hequals value).trans (by simp [longKind, hfind, harg])

theorem standsFor_separateValue (ho : o ∈ cmdOptions.long) (harg : o.hasArg = true) {value : List Char}
    (hvalue : ∀ c ∈ value, isDelimiter c = false) (hvalueNe : value ≠ []) :
    StandsFor cmdOptions isDelimiter ("--".toList ++ o.name ++ ' ' :: (value ++ " ".toList)) [(o.val, some value)] := by
  obtain ⟨hfind, hne, hequals, hword⟩ := cmdOptions_long o ho
  refine standsFor_value (sep_of_all hword) (by simp) hvalue hvalueNe rfl ?_
  exact (argumentKind_long hne hequals).trans (by simp [longKind, hfind, harg])

theorem isDelimiter_decimal {n : ℕ} : ∀ c ∈ decimal n, isDelimiter c = false := by
  intro c hc
  have hdigit := isDigit_of_mem_decimal hc
  have hnot : ∀ d ∈ [' ', '\t', '\n', '\r', '\x0c'], d.isDigit = false := sep_of_all (by decide)
  by_contra hdelimiter
  have hmem : c ∈ [' ', '\t', '\n', '\r', '\x0c'] :=
    List.contains_iff_mem.mp (Bool.eq_true_of_not_eq_false hdelimiter)
  exact absurd hdigit (by simp [hnot c hmem])

theorem standsFor_flagText (w : Widgets) : StandsFor cmdOptions isDelimiter (flagText w) (flags w) := by
  have hgui := standsFor_flag (o := ⟨"gui".toList, false, .gui⟩) (by decide) rfl
  have hdng := standsFor_flag (o := ⟨"dng".toList, false, .dng⟩) (by decide) rfl
  have hjp4 := standsFor_flag (o := ⟨"jp4".toList, false, .jp4⟩) (by decide) rfl
  have hjpeg := standsFor_flag (o := ⟨"jpeg".toList, false, .jpeg⟩) (by decide) rfl
  have hpgm := standsFor_flag (o := ⟨"pgm".toList, false, .pgm⟩) (by decide) rfl
  have hshift := standsFor_longValue (o := ⟨"shift".toList, true, .bayerShift⟩) (by decide) rfl
    (isDelimiter_decimal (n := w.bayerShift - 1))
  exact ((((StandsFor.append hgui (.ite _ (fun _ => hdng))).append (.ite _ (fun _ => hjp4))).append
    (.ite _ (fun _ => hjpeg))).append (.ite _ (fun _ => hpgm))).append (.ite _ (fun _ => hshift))

end OptionText

namespace Choice
variable {choice : Choice}

def customPath (choice : Choice) : List Char :=
  match choice.folder with
  | none => choice.source.directory.text
  | some folder => folder.components.dropLast.flatMap ('/' :: ·)

def destinationText (choice : Choice) : List Char :=
  let frames := choice.stem ++ "_NNNNN".toList
  match choice.destination with
  | .sameAsSource => choice.source.directory.entry frames
  | .subfolders => choice.source.directory.entry (choice.stem ++ '/' :: frames)
  | .differentFolder => choice.customPath ++ '/' :: frames

def framesText (choice : Choice) : List Char :=
  if choice.frameLimiterNumber then "--frames ".toList ++ choice.frameLimiterNumberField ++ " ".toList else []

theorem view_eq (choice : Choice) :
    choice.view = some ⟨choice.toWidgets, choice.source.getPath, choice.source.getName,
      choice.source.directory.text, choice.customPath⟩ := by
  have hslash := substring_append choice.source.isName.slash choice.source.directory.text
  have hselect : selectSource choice.source ⟨choice.toWidgets, [], [], [], []⟩ =
      some ⟨choice.toWidgets, choice.source.getPath, choice.source.getName, choice.source.directory.text,
        choice.source.directory.text⟩ := by
    simp only [selectSource, replaceAll_blank, SourceFile.getPath, Directory.entry, hslash]
    rfl
  rw [view, hselect, customPath]
  cases choice.folder with
  | none => rfl
  | some folder =>
    simp only [selectDestination, folder.substring_getPath]
    rfl

theorem updateCommand_eq {v : View} (hview : choice.view = some v) (hdot : '.' ∈ choice.source.getName) :
    updateCommand v = some ("movie2dng ".toList ++ (flagText choice.toWidgets ++ (choice.framesText ++
      (choice.source.getPath ++ ' ' :: choice.destinationText)))) := by
  obtain rfl := Option.some.inj (choice.view_eq.symm.trans hview)
  obtain ⟨i, hi⟩ := exists_lastIndexOf hdot
  have hstem : substring choice.source.getName (some i) = some choice.stem := by
    rw [stem, hi]
    rfl
  have hblank : " ".toList = [' '] := rfl
  have hslash : "/".toList = ['/'] := rfl
  simp only [updateCommand, ne_eq, choice.source.isName.ne_nil, not_false_eq_true, if_true, hi, hstem, destinationText,
    framesText, Directory.entry, hslash]
  cases choice.destination <;>
    simp only [hblank, List.append_assoc, List.cons_append, List.nil_append, Option.bind_eq_bind, Option.bind_some]

theorem parsed_eq (hdot : '.' ∈ choice.source.getName) :
    choice.parsed = getoptLong cmdOptions (words isDelimiter (flagText choice.toWidgets ++ (choice.framesText ++
      (choice.source.getPath ++ ' ' :: choice.destinationText)))) := by
  have hprogram : ∀ text, words isDelimiter ("movie2dng ".toList ++ text) =
      "movie2dng".toList :: words isDelimiter text := by
    intro text
    change words isDelimiter ("movie2dng".toList ++ ' ' :: text) = _
    exact words_append_cons (sep_of_all (by decide)) (by decide) rfl text
  simp only [parsed, view_eq, Option.bind_eq_bind, Option.bind_some, updateCommand_eq choice.view_eq hdot, hprogram,
    List.tail_cons]

theorem parsed_eq_none (hdot : '.' ∉ choice.source.getName) : choice.parsed = none := by
  have hsubstring : substring choice.source.getName (lastIndexOf '.' choice.source.getName) = none := by
    rw [lastIndexOf_eq_none hdot]
    rfl
  simp only [parsed, view_eq, Option.bind_eq_bind, Option.bind_some, updateCommand, ne_eq,
    choice.source.isName.ne_nil, not_false_eq_true, if_true, hsubstring, Option.bind_none]

theorem standsFor_framesText (h : choice.frameLimiterNumber = true →
      choice.frameLimiterNumberField ≠ [] ∧ ∀ c ∈ choice.frameLimiterNumberField, isDelimiter c = false) :
    StandsFor cmdOptions isDelimiter choice.framesText
      (if choice.frameLimiterNumber then [(.nFrames, some choice.frameLimiterNumberField)] else []) := by
  refine StandsFor.ite _ (fun hselected => ?_)
  obtain ⟨hne, hfield⟩ := h hselected
  have hframes := standsFor_separateValue (o := ⟨"frames".toList, true, .nFrames⟩) (by decide) rfl hfield hne
  rwa [List.append_assoc]

theorem parsed_of_plain (hdot : '.' ∈ choice.source.getName)
    (hpath : ∀ c ∈ choice.source.getPath, isDelimiter c = false)
    (hframes : choice.frameLimiterNumber = true →
      choice.frameLimiterNumberField ≠ [] ∧ ∀ c ∈ choice.frameLimiterNumberField, isDelimiter c = false) :
    choice.parsed = (getoptLong cmdOptions (words isDelimiter choice.destinationText)).map
      (fun p => (p.addNonOption choice.source.getPath).addOptions choice.options) := by
  obtain ⟨rest, hslash⟩ := choice.source.directory.exists_entry_eq choice.source.getName
  have hkind : argumentKind cmdOptions choice.source.getPath = .nonOption := by
    rw [SourceFile.getPath, hslash]
    exact argumentKind_nonOption (by decide) rest
  have hoptions := (standsFor_flagText choice.toWidgets).append (standsFor_framesText hframes)
  rw [parsed_eq hdot, ← List.append_assoc, hoptions, words_append_cons hpath choice.source.getPath_ne_nil rfl,
    getoptLong_nonOption hkind, Option.map_map]
  rfl

section Asked

/-- Only a path without white space arrives as it is. -/
theorem isDelimiter_getPath (h : choice.IsAskedFor) (hdot : '.' ∈ choice.source.getName) :
    ∀ c ∈ choice.source.getPath, isDelimiter c = false := by
  rw [IsAskedFor, parsed_eq hdot] at h
  exact sep_of_mem_words (mem_of_mem_nonOptions h _ List.mem_cons_self)

theorem isDelimiter_field (h : choice.IsAskedFor) (hdot : '.' ∈ choice.source.getName)
    (hselected : choice.frameLimiterNumber = true) :
    ∀ c ∈ choice.frameLimiterNumberField, isDelimiter c = false := by
  rw [IsAskedFor, parsed_eq hdot] at h
  have hmem : (CmdOption.nFrames, some choice.frameLimiterNumberField) ∈ choice.options := by
    rw [options, if_pos hselected]
    exact List.mem_append_right _ List.mem_cons_self
  obtain ⟨arg, harg, hsuffix⟩ := suffix_of_mem_options h hmem
  exact fun c hc => sep_of_mem_words harg c (hsuffix.subset hc)

/-- Behind an empty field the path is taken for the number of frames. -/
theorem parsed_of_empty_field (hdot : '.' ∈ choice.source.getName)
    (hpath : ∀ c ∈ choice.source.getPath, isDelimiter c = false) (hselected : choice.frameLimiterNumber = true)
    (hempty : choice.frameLimiterNumberField = []) :
    choice.parsed = (getoptLong cmdOptions (words isDelimiter choice.destinationText)).map
      (Parsed.addOptions (flags choice.toWidgets ++ [(.nFrames, some choice.source.getPath)])) := by
  have hframes := standsFor_separateValue (o := ⟨"frames".toList, true, .nFrames⟩) (by decide) rfl hpath
    choice.source.getPath_ne_nil
  have hwords : words isDelimiter (choice.framesText ++ (choice.source.getPath ++ ' ' :: choice.destinationText)) =
      words isDelimiter ("--frames".toList ++ ' ' :: (choice.source.getPath ++ " ".toList) ++ choice.destinationText) := by
    have hword : ∀ text, words isDelimiter ("--frames".toList ++ ' ' :: text) =
        "--frames".toList :: words isDelimiter text := words_append_cons (sep_of_all (by decide)) (by decide) rfl
    rw [framesText, if_pos hselected, hempty]
    change words isDelimiter ("--frames".toList ++ ' ' :: ' ' :: (choice.source.getPath ++ ' ' :: choice.destinationText)) =
      words isDelimiter ("--frames".toList ++ ' ' :: (choice.source.getPath ++ [' '] ++ choice.destinationText))
    rw [hword, hword, words_cons_sep rfl, List.append_assoc, List.singleton_append]
  rw [parsed_eq hdot, standsFor_flagText, hwords, ← standsFor_flagText, ← List.append_assoc]
  exact ((standsFor_flagText choice.toWidgets).append hframes) choice.destinationText

theorem field_ne_nil (h : choice.IsAskedFor) (hdot : '.' ∈ choice.source.getName)
    (hselected : choice.frameLimiterNumber = true) : choice.frameLimiterNumberField ≠ [] := by
  intro hempty
  rw [IsAskedFor, parsed_of_empty_field hdot (isDelimiter_getPath h hdot) hselected hempty] at h
  obtain ⟨p, hp, heq⟩ := Option.map_eq_some_iff.mp h
  have hoptions := congrArg Parsed.options heq
  rw [options, if_pos hselected, hempty] at hoptions
  have hcancel : choice.source.getPath = [] ∧ p.options = [] := by simpa [Parsed.addOptions] using hoptions
  exact choice.source.getPath_ne_nil hcancel.1

/-- The destination is put next to a directory that the user has chosen, not into it. -/
theorem folder_root (h : choice.IsAskedFor) (hdot : '.' ∈ choice.source.getName)
    (hdestination : choice.destination = .differentFolder) : ∀ folder ∈ choice.folder, folder.components = [] := by
  intro folder hfolder
  rw [IsAskedFor, parsed_of_plain hdot (isDelimiter_getPath h hdot)
    (fun hselected => ⟨field_ne_nil h hdot hselected, isDelimiter_field h hdot hselected⟩)] at h
  obtain ⟨p, hp, heq⟩ := Option.map_eq_some_iff.mp h
  have hrest : p.nonOptions = [choice.destinationPrefix] := (List.cons.inj (congrArg Parsed.nonOptions heq)).2
  have hlength := length_le_of_mem_words (mem_of_mem_nonOptions hp choice.destinationPrefix (by simp [hrest]))
  rcases List.eq_nil_or_concat folder.components with hroot | ⟨init, name, hlast⟩
  · exact hroot
  · simp [destinationPrefix, destinationText, customPath, hdestination, Option.mem_def.mp hfolder, Directory.entry,
      Directory.text, hlast] at hlength
    omega

end Asked

theorem destinationText_eq
    (hfolder : choice.destination = .differentFolder → ∀ folder ∈ choice.folder, folder.components = []) :
    choice.destinationText = choice.destinationPrefix := by
  rw [destinationText, destinationPrefix]
  cases hdestination : choice.destination with
  | sameAsSource => rfl
  | subfolders => rfl
  | differentFolder =>
    cases hchosen : choice.folder with
    | none => simp [customPath, hchosen, Directory.entry]
    | some folder => simp [customPath, hchosen, Directory.entry, Directory.text, hfolder hdestination folder hchosen]

theorem mem_stem {c : Char} (hc : c ∈ choice.stem) : c ∈ choice.source.getName := by
  rw [stem, substring] at hc
  cases hi : lastIndexOf '.' choice.source.getName with
  | none => simpa [hi] using hc
  | some i => exact List.mem_of_mem_take (by simpa [hi] using hc)

theorem isDelimiter_destinationPrefix (hpath : ∀ c ∈ choice.source.getPath, isDelimiter c = false)
    (hfolder : choice.destination = .differentFolder → ∀ folder ∈ choice.folder, folder.components = []) :
    ∀ c ∈ choice.destinationPrefix, isDelimiter c = false := by
  have hslash : isDelimiter '/' = false := rfl
  have hentry : ∀ (d : Directory) (name : List Char), (∀ c ∈ d.text, isDelimiter c = false) →
      (∀ c ∈ name, isDelimiter c = false) → ∀ c ∈ d.entry name, isDelimiter c = false := by
    intro d name hd hname
    exact List.forall_mem_append.mpr ⟨hd, List.forall_mem_cons.mpr ⟨hslash, hname⟩⟩
  have htext : ∀ c ∈ choice.source.directory.text, isDelimiter c = false :=
    fun c hc => hpath c (List.mem_append_left _ hc)
  have hstem : ∀ c ∈ choice.stem, isDelimiter c = false :=
    fun c hc => hpath c (List.mem_append_right _ (List.mem_cons_of_mem _ (mem_stem hc)))
  have hframes : ∀ c ∈ choice.stem ++ "_NNNNN".toList, isDelimiter c = false :=
    List.forall_mem_append.mpr ⟨hstem, sep_of_all (by decide)⟩
  rw [destinationPrefix]
  cases hdestination : choice.destination with
  | sameAsSource => exact hentry _ _ htext hframes
  | subfolders =>
    exact hentry _ _ htext (List.forall_mem_append.mpr ⟨hstem, List.forall_mem_cons.mpr ⟨hslash, hframes⟩⟩)
  | differentFolder =>
    refine hentry _ _ ?_ hframes
    cases hchosen : choice.folder with
    | none => exact htext
    | some folder => simp [Directory.text, hfolder hdestination folder hchosen]

theorem exists_destinationPrefix_eq (choice : Choice) : ∃ rest, choice.destinationPrefix = '/' :: rest := by
  rw [destinationPrefix]
  cases choice.destination <;> exact Directory.exists_entry_eq _ _

theorem getoptLong_destinationPrefix (hword : ∀ c ∈ choice.destinationPrefix, isDelimiter c = false) :
    getoptLong cmdOptions (words isDelimiter choice.destinationPrefix) = some ⟨[], [choice.destinationPrefix]⟩ := by
  obtain ⟨rest, hslash⟩ := choice.exists_destinationPrefix_eq
  have hkind : argumentKind cmdOptions choice.destinationPrefix = .nonOption := by
    rw [hslash]
    exact argumentKind_nonOption (by decide) rest
  rw [words_eq_singleton hword (by simp [hslash]), getoptLong_nonOption hkind]
  rfl

end Choice

/-- The command asks for what the user chose exactly when the source has an extension, its path and the
text for the frame limiter have no white space, that text is not empty, and no directory but the root
was chosen as a different folder. -/
theorem command_asks_for_choice_iff (choice : Choice) :
    choice.IsAskedFor ↔
      '.' ∈ choice.source.getName ∧
      (∀ c ∈ choice.source.getPath, isDelimiter c = false) ∧
      (choice.frameLimiterNumber = true →
        choice.frameLimiterNumberField ≠ [] ∧ ∀ c ∈ choice.frameLimiterNumberField, isDelimiter c = false) ∧
      (choice.destination = .differentFolder → ∀ folder ∈ choice.folder, folder.components = []) := by
  constructor
  · intro h
    have hdot : '.' ∈ choice.source.getName := by
      by_contra hdot
      rw [Choice.IsAskedFor, Choice.parsed_eq_none hdot] at h
      simp at h
    exact ⟨hdot, Choice.isDelimiter_getPath h hdot,
      fun hselected => ⟨Choice.field_ne_nil h hdot hselected, Choice.isDelimiter_field h hdot hselected⟩,
      Choice.folder_root h hdot⟩
  · rintro ⟨hdot, hpath, hframes, hfolder⟩
    rw [Choice.IsAskedFor, Choice.parsed_of_plain hdot hpath hframes, Choice.destinationText_eq hfolder,
      Choice.getoptLong_destinationPrefix (Choice.isDelimiter_destinationPrefix hpath hfolder)]
    simp [Parsed.addNonOption, Parsed.addOptions]

/-- A source in a directory with a blank in its name, all else as at the start. -/
def blankInDirectory : Choice where
  createDNGs := true
  keepJP4s := false
  createJPEGs := false
  createPGMs := false
  bayerShift := 0
  frameLimiterNumber := false
  frameLimiterNumberField := []
  destination := .sameAsSource
  source :=
    { directory := { components := ["my movies".toList], isName := by simp; exact ⟨by decide, by decide, by decide⟩ }
      getName := "clip.mov".toList
      isName := ⟨by decide, by decide, by decide⟩ }
  folder := none

theorem blank_splits_path : ¬ blankInDirectory.IsAskedFor := by
  have hparsed : blankInDirectory.parsed = some ⟨blankInDirectory.options,
      ["/my".toList, "movies/clip.mov".toList, "/my".toList, "movies/clip_NNNNN".toList]⟩ := by
    decide
  intro h
  rw [Choice.IsAskedFor, hparsed] at h
  simp at h

end Jp4Tools.GuiCommand
