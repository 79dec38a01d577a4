import Jp4Tools.SourcePaths

/-!
# What `SOURCE` is taken for

Single frames are known by the ending of the last component, the directory of a movie by the path
without that ending. `main` looks for the ending, and for the dot that it cuts at, anywhere in the
path. It does what is documented when nothing in front of the last component misleads it.
-/

namespace Jp4Tools.SourceClassification
open MovieConversion FrameNames CStrings PrintCalls SourcePaths

def lastComponent (path : List Char) : List Char := afterLast '/' path

/-- The path without the extension of its last component, when this has one. -/
def withoutExtension (path : List Char) : List Char :=
  if '.' ∈ lastComponent path then beforeLast '.' path else path

/-- The last component ends in `.jp4` or `.jp46`, up to case. -/
def NamesJp4 (path : List Char) : Prop :=
  ".jp4".toList <:+ (lastComponent path).map Char.toLower ∨
    ".jp46".toList <:+ (lastComponent path).map Char.toLower

def NamesSingleFrame (path : List Char) : Prop := NamesJp4 path ∨ path = ['-']

structure SoleSource extends CommandLine where
  dest_eq : dest = none
  stdout_eq : saveToStdout = false
  length_le : source.length ≤ 100

def IsSingleFrame : Handling → Prop
  | .noDirectory => False
  | .tooManyFormats => True
  | .singleFrame _ _ => True
  | .movie _ => False

/-- The documented handling. A single frame in two formats is refused, and a movie is when its
directory is missing and cannot be made. -/
structure HandledRightly (w : PathWorld) (c : CommandLine) (r : PathRun) : Prop where
  classified : IsSingleFrame r.handling ↔ NamesSingleFrame c.source
  single : NamesSingleFrame c.source → r.directories = [] ∧
    r.handling = if manyFormats c then .tooManyFormats
      else .singleFrame c.source
        ((selected c).map (fun f => withoutExtension c.source ++ outputExtension f))
  movie : ¬ NamesSingleFrame c.source →
    let stem := withoutExtension c.source
    r.handling = .movie (stem ++ '/' :: lastComponent stem) ∨
      (r.handling = .noDirectory ∧ w.opendir (stem ++ ['/']) = false ∧ w.mkdir (stem ++ ['/']) = false)

section Names
variable {path : List Char}

theorem toLower_eq_dot {c : Char} (h : c.toLower = '.') : c = '.' := by
  change (if h : c.val ≥ 'A'.val ∧ c.val ≤ 'Z'.val then _ else c) = '.' at h
  split_ifs at h with hupper
  · have hval := congrArg (fun d : Char => d.val.toNat) h
    have hlow := UInt32.le_iff_toNat_le.mp hupper.1
    have hhigh := UInt32.le_iff_toNat_le.mp hupper.2
    simp only [UInt32.toNat_add] at hval
    simp at hval hlow hhigh
    omega
  · exact h

theorem dot_mem_of_namesJp4 (h : NamesJp4 path) : '.' ∈ lastComponent path := by
  have hmem : '.' ∈ (lastComponent path).map Char.toLower := by
    rcases h with h | h
    · exact h.subset (by decide)
    · exact h.subset (by decide)
  obtain ⟨c, hc, hdot⟩ := List.mem_map.mp hmem
  rwa [toLower_eq_dot hdot] at hc

theorem isJp4_of_namesJp4 (h : NamesJp4 path) : isJp4 path = true := by
  have hsuffix : (lastComponent path).map Char.toLower <:+ path.map Char.toLower :=
    (afterLast_suffix '/' path).map _
  rw [isJp4, Bool.or_eq_true_iff, strcasestr_iff, strcasestr_iff]
  exact h.imp (fun h => (h.trans hsuffix).isInfix) (fun h => (h.trans hsuffix).isInfix)

theorem withoutExtension_of_namesJp4 (h : NamesJp4 path) : withoutExtension path = beforeLast '.' path :=
  if_pos (dot_mem_of_namesJp4 h)

theorem not_isJp4_stdin : isJp4 ['-'] = false := by decide

theorem withoutExtension_eq (h : '.' ∈ lastComponent path ∨ '.' ∉ path) :
    withoutExtension path = beforeLast '.' path := by
  rcases h with h | h
  · exact if_pos h
  · have hlast : '.' ∉ lastComponent path := fun hmem => h ((afterLast_suffix '/' path).subset hmem)
    rw [withoutExtension, if_neg hlast, beforeLast_of_notMem h]

/-- The derived prefix is the documented one when the last dot is in the last component and
something is left of this. -/
theorem prefix_eq_iff (path : List Char) :
    beforeLast '.' path ++ '/' :: basename (beforeLast '.' path) =
        withoutExtension path ++ '/' :: lastComponent (withoutExtension path) ↔
      ('.' ∈ lastComponent path ∨ '.' ∉ path) ∧ lastComponent (withoutExtension path) ≠ [] := by
  by_cases h : '.' ∈ lastComponent path ∨ '.' ∉ path
  · rw [withoutExtension_eq h, List.append_cancel_left_eq, List.cons.injEq, eq_self, true_and,
      and_iff_right h]
    constructor
    · intro heq hnil
      exact basename_ne_nil _ (heq.trans hnil)
    · exact basename_eq
  · obtain ⟨hlast, hmem⟩ := not_or.mp h
    have hwhole : withoutExtension path = path := if_neg hlast
    obtain ⟨front, back, hpath, hback⟩ := exists_last (not_not.mp hmem)
    refine iff_of_false ?_ (fun hright => h hright.1)
    intro heq
    rw [hwhole, hpath, beforeLast_append_cons front hback, List.append_assoc,
      List.append_cancel_left_eq] at heq
    exact absurd (List.cons.inj heq).1 (by decide)

end Names

section SingleFrames
variable {w : PathWorld} {c : CommandLine} {m : Memory Variable} {source : List Char}

theorem extension_length_le (f : OutputFormat) : (outputExtension f).length ≤ 5 := by
  cases f <;> decide

theorem outputCall_text (hstdout : c.saveToStdout = false) (f : OutputFormat)
    (h : (m.array .sourceFilename).Holds source) :
    (outputCall c f).text w.other m.array = source ++ outputExtension f := by
  have hpercent : '%' ∉ outputExtension f := by cases f <;> decide
  rw [outputCall, hstdout]
  simp [PrintCall.text, PrintFormat.text, PrintArgument.value, Printf.printf, h.text_eq,
    Printf.printf_text hpercent]

/-- The outputs of a single frame: the input, and `.dng` and so on in place of what follows the last
dot. -/
theorem singleFrame_handling (hstdout : c.saveToStdout = false) (hmany : manyFormats c = false)
    (h : (m.array .sourceFilename).Holds source) (hlength : source.length ≤ 100) :
    (singleFrame w c false m).1 = .singleFrame source
      ((selected c).map (fun f => beforeLast '.' source ++ outputExtension f)) := by
  have hjp4 : ((nameSingleFrame w c false m).array (.filename .jp4)).text = source := by
    rw [nameSingleFrame_jp4, cutMemory_jp4 false h]
    apply CharArray.Holds.text_eq
    apply strncpy_holds h.nul_notMem
    exact hlength.trans_lt (by decide)
  have houtput : ∀ f, ((nameSingleFrame w c false m).array (.filename (.output f))).text =
      beforeLast '.' source ++ outputExtension f := by
    intro f
    have hcut : ((cutMemory w false m).array .sourceFilename).Holds (beforeLast '.' source) :=
      cutMemory_holds false h
    have htext := outputCall_text (w := w) hstdout f hcut
    have hnul : nul ∉ beforeLast '.' source ++ outputExtension f := by
      rw [List.mem_append, not_or]
      exact ⟨hcut.nul_notMem, by cases f <;> decide⟩
    have hprinted := printAll_holds independent_outputCalls (List.mem_map_of_mem (mem_formats f))
      (htext ▸ hnul)
    have hfits : (beforeLast '.' source ++ outputExtension f).length ≤ posixPathMax - 1 := by
      have hstem := beforeLast_length_le '.' source
      have hextension := extension_length_le f
      rw [List.length_append, posixPathMax]
      omega
    rw [outputCall_dst, outputCall_size, htext, List.take_of_length_le hfits] at hprinted
    exact hprinted.text_eq
  have hhandling : (singleFrame w c false m).1 =
      .singleFrame ((nameSingleFrame w c false m).array (.filename .jp4)).text
        (readOutputs c (readText (.filename .jp4) (nameSingleFrame w c false m)).2).1 := by
    rw [singleFrame, if_neg (by rw [hmany]; decide)]
    rfl
  rw [hhandling, hjp4, readOutputs, readTexts_fst, List.map_map]
  congr 1
  apply List.map_congr_left
  intro f _
  exact houtput f

end SingleFrames

section Runs
variable {w : PathWorld} {s : SoleSource} {leftover : Variable → List Char}

theorem SoleSource.length_lt (s : SoleSource) : s.source.length < posixPathMax :=
  s.length_le.trans_lt (by decide)

theorem main_single (hjp4 : isJp4 s.source = true) (hstdin : s.source ≠ ['-']) (w : PathWorld)
    (leftover : Variable → List Char) :
    (main w s.toCommandLine leftover).directories = [] ∧
      (main w s.toCommandLine leftover).handling =
        if manyFormats s.toCommandLine then .tooManyFormats
        else .singleFrame s.source ((selected s.toCommandLine).map
          (fun f => beforeLast '.' s.source ++ outputExtension f)) := by
  have hset : setFrameName w s.toCommandLine s.source (searched s.toCommandLine leftover) =
      (some [], searched s.toCommandLine leftover) := by
    rw [setFrameName, s.dest_eq, hjp4]
    rfl
  have hno : isStdin s.source = false := decide_eq_false hstdin
  have hhandle : (handleSource w s.toCommandLine s.source (searched s.toCommandLine leftover)).1 =
      (singleFrame w s.toCommandLine false
        (printFilenameFmts w (searched s.toCommandLine leftover))).1 := by
    rw [handleSource, hjp4, hno]
    rfl
  rw [main_eq, hset]
  refine ⟨rfl, ?_⟩
  dsimp only
  rw [hhandle]
  cases hmany : manyFormats s.toCommandLine with
  | true =>
    rw [singleFrame, hmany]
    rfl
  | false => exact singleFrame_handling s.stdout_eq hmany arrays_searched.fmts.source s.length_le

theorem main_derived (hjp4 : isJp4 s.source = false) (w : PathWorld) (leftover : Variable → List Char) :
    let stem := beforeLast '.' s.source
    let named := strcat .frameName (basename stem) (directoryMemory (searched s.toCommandLine leftover))
    main w s.toCommandLine leftover =
      if w.opendir (stem ++ ['/']) then
        { handling := (handleSource w s.toCommandLine s.source named).1, directories := []
          memory := (handleSource w s.toCommandLine s.source named).2 }
      else if w.mkdir (stem ++ ['/']) then
        { handling := (handleSource w s.toCommandLine s.source named).1, directories := [stem ++ ['/']]
          memory := (handleSource w s.toCommandLine s.source named).2 }
      else
        { handling := .noDirectory, directories := []
          memory := directoryMemory (searched s.toCommandLine leftover) } := by
  intro stem named
  rw [main_eq, setFrameName_derived s.dest_eq hjp4 s.stdout_eq,
    deriveFrameName_eq w arrays_searched.source s.length_lt]
  dsimp only
  split_ifs <;> rfl

theorem handleSource_movie (hjp4 : isJp4 s.source = false) (hstdin : s.source ≠ ['-']) (w : PathWorld)
    (leftover : Variable → List Char) :
    (handleSource w s.toCommandLine s.source (strcat .frameName (basename (beforeLast '.' s.source))
      (directoryMemory (searched s.toCommandLine leftover)))).1 =
      .movie (beforeLast '.' s.source ++ '/' :: basename (beforeLast '.' s.source)) := by
  have hno : isStdin s.source = false := decide_eq_false hstdin
  have harrays : Arrays s.toCommandLine (searched s.toCommandLine leftover) := arrays_searched
  have hnamed := named_holds harrays.source s.length_lt
  rw [handleSource, hjp4, hno]
  have hframe : (convertFrames w s.toCommandLine (printFilenameFmts w
      (strcat .frameName (basename (beforeLast '.' s.source))
        (directoryMemory (searched s.toCommandLine leftover))))).1 =
      .movie ((printFilenameFmts w (strcat .frameName (basename (beforeLast '.' s.source))
        (directoryMemory (searched s.toCommandLine leftover)))).array .frameName).text := rfl
  rw [fmts_other (fun _ => by simp), hnamed.text_eq] at hframe
  exact hframe

theorem rightly_of_namesJp4 (h : NamesJp4 s.source) :
    HandledRightly w s.toCommandLine (main w s.toCommandLine leftover) := by
  have hjp4 := isJp4_of_namesJp4 h
  have hstdin : s.source ≠ ['-'] := by
    intro heq
    rw [heq, not_isJp4_stdin] at hjp4
    cases hjp4
  obtain ⟨hdirectories, hhandling⟩ := main_single hjp4 hstdin w leftover
  constructor
  · rw [hhandling]
    refine iff_of_true ?_ (Or.inl h)
    split_ifs <;> trivial
  · intro _
    rw [withoutExtension_of_namesJp4 h]
    exact ⟨hdirectories, hhandling⟩
  · intro hnot
    exact absurd (Or.inl h) hnot

theorem rightly_of_movie (hjp4 : isJp4 s.source = false) (hstdin : s.source ≠ ['-'])
    (hdot : '.' ∈ lastComponent s.source ∨ '.' ∉ s.source)
    (hlast : lastComponent (withoutExtension s.source) ≠ []) :
    HandledRightly w s.toCommandLine (main w s.toCommandLine leftover) := by
  have hnot : ¬ NamesSingleFrame s.source := by
    rintro (h | h)
    · rw [isJp4_of_namesJp4 h] at hjp4
      cases hjp4
    · exact hstdin h
  have hrun := main_derived hjp4 w leftover
  have hmovie := handleSource_movie hjp4 hstdin w leftover
  rw [(prefix_eq_iff s.source).mpr ⟨hdot, hlast⟩] at hmovie
  dsimp only at hrun
  rw [hmovie, ← withoutExtension_eq hdot] at hrun
  rw [hrun]
  split_ifs with hopendir hmkdir
  · exact ⟨iff_of_false id hnot, fun h => absurd h hnot, fun _ => Or.inl rfl⟩
  · exact ⟨iff_of_false id hnot, fun h => absurd h hnot, fun _ => Or.inl rfl⟩
  · exact ⟨iff_of_false id hnot, fun h => absurd h hnot,
      fun _ => Or.inr ⟨rfl, Bool.eq_false_of_not_eq_true hopendir, Bool.eq_false_of_not_eq_true hmkdir⟩⟩

/-- The standard input gets a directory of its own. -/
theorem stdin_directory (h : s.source = ['-']) :
    (main (answering false true) s.toCommandLine leftover).directories = [['-', '/']] := by
  have hjp4 : isJp4 s.source = false := by rw [h, not_isJp4_stdin]
  have hrun := main_derived hjp4 (answering false true) leftover
  dsimp only at hrun
  rw [hrun, h]
  rfl

/-- `SOURCE` is handled as documented exactly when its last component ends in `.jp4` or `.jp46`, or no
`.jp4` is in it, it is not the standard input, its last dot is in the last component, and something
stands in front of this dot. -/
theorem source_handled_iff (s : SoleSource) :
    (∀ w leftover, HandledRightly w s.toCommandLine (main w s.toCommandLine leftover)) ↔
      NamesJp4 s.source ∨
        (isJp4 s.source = false ∧ s.source ≠ ['-'] ∧
          ('.' ∈ lastComponent s.source ∨ '.' ∉ s.source) ∧
          lastComponent (withoutExtension s.source) ≠ []) := by
  constructor
  · intro h
    by_cases hname : NamesJp4 s.source
    · exact Or.inl hname
    · right
      have hstdin : s.source ≠ ['-'] := by
        intro heq
        have hdirectories := ((h (answering false true) (fun _ => [])).single (Or.inr heq)).1
        rw [stdin_directory heq] at hdirectories
        cases hdirectories
      have hnot : ¬ NamesSingleFrame s.source := fun hor => hor.elim hname hstdin
      have hrun := h (answering true true) (fun _ => [])
      cases hjp4 : isJp4 s.source with
      | true =>
        have hhandling := (main_single hjp4 hstdin (answering true true) (fun _ => [])).2
        apply absurd (hrun.classified.mp _) hnot
        rw [hhandling]
        split_ifs <;> trivial
      | false =>
        refine ⟨rfl, hstdin, ?_⟩
        rw [← prefix_eq_iff]
        have hmovie := handleSource_movie hjp4 hstdin (answering true true) (fun _ => [])
        have hderived := main_derived hjp4 (answering true true) (fun _ => [])
        dsimp only at hderived
        have hopen : (answering true true).opendir (beforeLast '.' s.source ++ ['/']) = true := rfl
        rw [if_pos hopen, hmovie] at hderived
        rcases hrun.movie hnot with hhandling | ⟨-, hopendir, -⟩
        · rw [hderived] at hhandling
          exact Handling.movie.inj hhandling
        · cases hopendir
  · rintro (h | ⟨hjp4, hstdin, hdot, hlast⟩) w leftover
    · exact rightly_of_namesJp4 h
    · exact rightly_of_movie hjp4 hstdin hdot hlast

/-- A movie in a directory of single frames is taken for a single frame. -/
theorem movie_in_jp4_directory : ¬ ∀ s : SoleSource, ∀ w leftover,
    HandledRightly w s.toCommandLine (main w s.toCommandLine leftover) := by
  intro h
  let s : SoleSource :=
    { source := "frames.jp4/movie.mov".toList, dest := none, saveToStdout := false, saveJp4 := false
      saves := fun f => decide (f = .dng), source_nul := by decide, dest_nul := by simp
      someFormat := Or.inr ⟨.dng, rfl⟩, dest_eq := rfl, stdout_eq := rfl, length_le := by decide }
  have hnot : ¬ NamesSingleFrame s.source := by
    rintro ((hsuffix | hsuffix) | hstdin)
    · exact absurd hsuffix (by decide)
    · exact absurd hsuffix (by decide)
    · exact absurd hstdin (by decide)
  have hhandling := (main_single (s := s) (by decide) (by decide) (answering true true) (fun _ => [])).2
  apply absurd ((h s (answering true true) (fun _ => [])).classified.mp _) hnot
  rw [hhandling]
  split_ifs <;> trivial

end Runs

end Jp4Tools.SourceClassification
