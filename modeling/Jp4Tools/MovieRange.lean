import Jp4Tools.FrameNames

/-!
# The range of converted frames

A movie of which every packet is read and every frame is converted. A run converts the frames that
the options ask for, under their numbers, as long as the frame count, the current frame and the
numbers stay inside `int`.
-/

namespace Jp4Tools.MovieRange
open MachineIntegers WhileLoops MovieFrames MovieConversion FrameNames Printf

/-- A movie of the given packets, which can all be read, in surroundings where nothing fails. -/
structure Playable (w : World) (packets : List (List UInt8)) : Prop where
  nbFrames : w.movie.nbFrames = packets.length
  readFrame : ∀ i < packets.length, w.movie.readFrame i = packets[i]?
  fopenOk : ∀ k, w.fopenOk k = true
  convertOk : ∀ k, w.convertOk k = true

/-- A movie with options for it: the start frame is in the movie, the number of frames is not
negative, and all the names fit the buffers. -/
structure RangeInput where
  world : World
  packets : List (List UInt8)
  playable : Playable world packets
  options : Options
  outputPrefix : OutputPrefix
  start_le : options.startFrame.value ≤ packets.length
  nFrames_nonneg : 0 ≤ options.nFrames.value
  fits : ∀ k : ℕ, k < frameCount packets.length options →
    (numberedName outputPrefix.frameName (outputExtension .jpeg) (firstNumber options + k)).length <
      posixPathMax

def frameRecord (packets : List (List UInt8)) (o : Options) (names : ℤ → FileNames) (k : ℕ) :
    FrameRecord where
  frame := (firstFrame o).toNat + k
  returned := packets[(firstFrame o - 1).toNat + k]?
  jp4Filename := (names (firstNumber o + k)).jp4
  bytes := packets[(firstFrame o - 1).toNat + k]?.getD []
  outputs := selectedOutputs o (names (firstNumber o + k))

/-- The run announces the frames asked for, and processes exactly these in order, under their
numbers. Afterwards the JP4 files are there if and only if they were asked for. -/
structure ExactRange (i : RangeInput) (run : MovieRun) : Prop where
  announced : run.announced = frameCount i.packets.length i.options
  printed : run.outcome.state.stdout.head? =
    some (announcement i.options (nFrames i.world.movie) (frameCount i.packets.length i.options))
  finished : run.outcome.finished = true
  records : run.outcome.state.records =
    (List.range (frameCount i.packets.length i.options).toNat).map
      (frameRecord i.packets i.options (numberedNames i.outputPrefix.frameName))
  jp4Files : ∀ k : ℕ, k < frameCount i.packets.length i.options →
    (run.outcome.state.files (numberedName i.outputPrefix.frameName jp4Extension
      (firstNumber i.options + k))).isSome = i.options.saveJp4

section Files
variable {w : World} {o : Options} {names : FileNames} {files : FileSystem} {bytes : List UInt8}

theorem writeOutputs_isSome (outputs : List (OutputFormat × List Char)) (files : FileSystem)
    {name : List Char} (h : (files name).isSome = true) :
    (writeOutputs w bytes outputs files name).isSome = true := by
  induction outputs generalizing files with
  | nil => exact h
  | cons output outputs ih =>
    apply ih (Function.update files output.2 (some (w.convert output.1 bytes)))
    by_cases hname : name = output.2
    · rw [hname, Function.update_self]
      rfl
    · rwa [Function.update_of_ne hname]

theorem writeOutputs_of_notMem (outputs : List (OutputFormat × List Char)) (files : FileSystem)
    {name : List Char} (h : ∀ output ∈ outputs, output.2 ≠ name) :
    writeOutputs w bytes outputs files name = files name := by
  induction outputs generalizing files with
  | nil => rfl
  | cons output outputs ih =>
    have hhead : name ≠ output.2 := (h output List.mem_cons_self).symm
    have htail := ih (Function.update files output.2 (some (w.convert output.1 bytes)))
      (fun output' hmem => h output' (List.mem_cons_of_mem output hmem))
    exact htail.trans (Function.update_of_ne hhead _ _)

theorem filesAfter_isSome {name : List Char} (hname : ∀ f, names.output f ≠ name)
    (h : name = names.jp4 ∨ (files name).isSome = o.saveJp4) :
    (filesAfter w o names bytes files name).isSome = o.saveJp4 := by
  have hwritten : ∀ output ∈ selectedOutputs o names, output.2 ≠ name := by
    intro output hmem
    obtain ⟨f, -, rfl⟩ := List.mem_map.mp hmem
    exact hname f
  cases hsave : o.saveJp4 with
  | true =>
    simp only [filesAfter, hsave, if_true]
    apply writeOutputs_isSome
    by_cases heq : name = names.jp4
    · rw [heq, Function.update_self]
      rfl
    · rw [Function.update_of_ne heq, (h.resolve_left heq).trans hsave]
  | false =>
    simp only [filesAfter, hsave]
    by_cases heq : name = names.jp4
    · simp [heq]
    · have hold := (h.resolve_left heq).trans hsave
      simp [Function.update_of_ne heq, writeOutputs_of_notMem _ _ hwritten, hold]

end Files

section Run
variable {w : World} {packets : List (List UInt8)} {o : Options} {names : ℤ → FileNames}
  {files : FileSystem} {m t : ℕ} {c : Conversion}

/-- No name of the range is both that of a JP4 file and that of another output. -/
def NamesApart (o : Options) (names : ℤ → FileNames) (m : ℕ) : Prop :=
  ∀ j < m, ∀ t < m, ∀ f,
    (names (firstNumber o + t)).output f ≠ (names (firstNumber o + j)).jp4

structure RangeRound (w : World) (packets : List (List UInt8)) (o : Options) (names : ℤ → FileNames)
    (m t : ℕ) (c : Conversion) : Prop where
  atRound : AtRound w o t c
  countFrame_eq : c.countFrame = firstNumber o + t
  printed : c.stdout.head? =
    some (announcement o (nFrames w.movie) (frameCount (nFrames w.movie) o))
  records_eq : c.records = (List.range t).map (frameRecord packets o names)
  jp4Files : NamesApart o names m → ∀ j < t,
    (c.files (names (firstNumber o + j)).jp4).isSome = o.saveJp4

theorem start_rangeRound (h : ¬ rejected w.movie o) (hn : 0 ≤ o.nFrames.value)
    (hmovie : nFrames w.movie < 2 ^ 31) :
    RangeRound w packets o names m 0 (startConversion w o files) where
  atRound := start_atRound h hn hmovie files
  countFrame_eq := (Int.add_zero _).symm
  printed := by
    have hannounced := announcedFrames_eq h hn (by omega)
    simp only [startConversion, hannounced, List.head?_cons]
  records_eq := rfl
  jp4Files := by
    intro _ j hj
    omega

theorem RangeRound.step (hc : RangeRound w packets o names m t c) (hw : Playable w packets)
    (h : ¬ rejected w.movie o) (hmovie : nFrames w.movie < 2 ^ 31)
    (hm : frameCount (nFrames w.movie) o = m) (ht : t < m) :
    ∃ c', convertFrame w o names c = .next c' ∧ RangeRound w packets o names m (t + 1) c' := by
  obtain ⟨-, hinside, -⟩ := frameCount_spec (firstFrame_le h)
  have hpos := firstFrame_pos (o := o)
  have hle : nFrames w.movie ≤ packets.length := by
    rw [nFrames, hw.nbFrames]
    exact Nat.mod_le _ _
  have hlen : (firstFrame o - 1).toNat + t < packets.length := by omega
  have hpacket : packets[(firstFrame o - 1).toNat + t]? = some packets[(firstFrame o - 1).toNat + t] :=
    List.getElem?_eq_getElem hlen
  obtain ⟨c', hstep, hc', hnumber, hfiles, hrecords, line, hstdout⟩ :=
    hc.atRound.step names h hmovie (by omega) (hw.fopenOk t) (hw.convertOk t)
      ((hw.readFrame _ hlen).trans hpacket)
  have hcurrent : c.it.currentFrame = ((firstFrame o).toNat + t : ℕ) := by
    rw [hc.atRound.currentFrame_small h hmovie (by omega)]
    omega
  have hframe : unsignedOf c.it.currentFrame = (firstFrame o).toNat + t := by
    rw [hcurrent]
    exact unsignedOf_natCast (by omega)
  refine ⟨c', hstep, ?_⟩
  exact
    { atRound := hc'
      countFrame_eq := by
        rw [hnumber, hc.countFrame_eq, Int.add_assoc]
        rfl
      printed := by rw [hstdout, List.head?_append, hc.printed, Option.some_or]
      records_eq := by
        rw [hrecords, hc.records_eq, List.range_succ, List.map_append]
        simp only [packetRecord, frameRecord, hframe, hc.countFrame_eq, hpacket, List.map_cons,
          List.map_nil, Option.getD_some]
      jp4Files := by
        intro hapart j hj
        rw [hfiles, hc.countFrame_eq]
        apply filesAfter_isSome (hapart j (by omega) t ht)
        rcases Nat.lt_succ_iff_lt_or_eq.mp hj with hj | rfl
        · exact Or.inr (hc.jp4Files hapart j hj)
        · exact Or.inl rfl }

theorem frameLoop_range (names : ℤ → FileNames) (files : FileSystem) (hw : Playable w packets)
    (h : ¬ rejected w.movie o) (hn : 0 ≤ o.nFrames.value) (hmovie : nFrames w.movie < 2 ^ 31)
    (hm : frameCount (nFrames w.movie) o = m) :
    ∃ c, RangeRound w packets o names m m c ∧
      ∀ fuel, frameLoop w o names (m + fuel) (startConversion w o files) =
        (frameLoop w o names fuel c).after m := by
  apply whileLoop_reaches (RangeRound w packets o names m) m (start_rangeRound h hn hmovie)
  intro t ht c hc
  exact ⟨hc.atRound.hasNext_inside h hmovie (by omega), hc.step hw h hmovie hm ht⟩

/-- A round that begins adds a record, and no later round takes it away. -/
theorem records_lt (o : Options) (names : ℤ → FileNames) (hopen : ∀ k, w.fopenOk k = true)
    (hnext : hasNext c.it = true) (fuel : ℕ) :
    c.records.length < (frameLoop w o names (fuel + 1) c).state.records.length := by
  have hround : ∀ c', c.records.length < c'.records.length →
      c.records.length < (convertFrame w o names c').state.records.length := by
    intro c' hlt
    obtain ⟨r, hr⟩ := convertFrame_records o names (hopen c'.records.length)
    rw [hr, List.length_append]
    omega
  obtain ⟨r, hr⟩ := convertFrame_records o names (hopen c.records.length)
  have hfirst : c.records.length < (convertFrame w o names c).state.records.length := by
    rw [hr, List.length_append]
    exact Nat.lt_succ_self _
  cases hbody : convertFrame w o names c with
  | next c' =>
    rw [hbody] at hfirst
    rw [frameLoop, whileLoop_next (s := c) hnext hbody, Outcome.after_state]
    exact whileLoop_invariant (fun c' => c.records.length < c'.records.length) hround fuel c' hfirst
  | stop c' =>
    rw [hbody] at hfirst
    rw [frameLoop, whileLoop_stop (s := c) hnext hbody]
    exact hfirst

end Run

section Input
variable (i : RangeInput) (other : List Char → List Char)

/-- The frame count as the code reads it, the last frame and the last number are inside `int`, and
the range is inside the frame count. The last frame may not be the largest `int`. -/
def WithinInt : Prop :=
  nFrames i.world.movie < 2 ^ 31 ∧
  firstFrame i.options + frameCount i.packets.length i.options ≤ nFrames i.world.movie + 1 ∧
  firstFrame i.options + frameCount i.packets.length i.options < 2 ^ 31 ∧
  firstNumber i.options + frameCount i.packets.length i.options ≤ 2 ^ 31

variable {i other}

theorem nFrames_le : nFrames i.world.movie ≤ i.packets.length := by
  rw [nFrames, i.playable.nbFrames]
  exact Nat.mod_le _ _

theorem firstNumber_mem (o : Options) : 0 ≤ firstNumber o ∧ firstNumber o < 2 ^ 31 := by
  have hlt := firstFrame_lt (o := o)
  have hpos := firstFrame_pos (o := o)
  have hcount := o.countFrame.value_lt
  rw [firstNumber]
  split_ifs <;> omega

theorem firstFrame_le_length : firstFrame i.options ≤ i.packets.length + 1 := by
  have hstart := i.start_le
  exact max_le (by omega) (by omega)

theorem frameCount_pos (h : 0 < i.packets.length) : 0 < frameCount i.packets.length i.options := by
  have hstart := i.start_le
  have hfirst : firstFrame i.options ≤ i.packets.length := max_le (by omega) hstart
  rw [frameCount]
  split_ifs <;> omega

theorem frameCount_eq
    (h : firstFrame i.options + frameCount i.packets.length i.options ≤ nFrames i.world.movie + 1) :
    frameCount (nFrames i.world.movie) i.options = frameCount i.packets.length i.options := by
  have hle := nFrames_le (i := i)
  have hpos := firstFrame_pos (o := i.options)
  simp only [frameCount] at h ⊢
  split_ifs at h ⊢ <;> omega

theorem not_rejected
    (h : firstFrame i.options + frameCount i.packets.length i.options ≤ nFrames i.world.movie + 1) :
    ¬ rejected i.world.movie i.options := by
  rintro ⟨-, hlt⟩
  have hstart := i.start_le
  have hle : i.options.startFrame.value ≤ firstFrame i.options := le_max_right _ _
  have hpos := frameCount_pos (i := i) (by omega)
  omega

theorem filenames_eq (hnumber : firstNumber i.options + frameCount i.packets.length i.options ≤ 2 ^ 31)
    {k : ℕ} (hk : k < frameCount i.packets.length i.options) :
    filenames other i.outputPrefix.frameName (firstNumber i.options + k) =
      numberedNames i.outputPrefix.frameName (firstNumber i.options + k) := by
  obtain ⟨hnonneg, -⟩ := firstNumber_mem i.options
  have hfits := i.fits k hk
  have hname : ∀ extension : List Char, extension.length ≤ 5 → '%' ∉ extension →
      filename other i.outputPrefix.frameName extension (firstNumber i.options + k) =
        numberedName i.outputPrefix.frameName extension (firstNumber i.options + k) := by
    intro extension hlen hpercent
    apply filename_eq i.outputPrefix hlen hpercent (by omega) (by omega)
    apply lt_of_le_of_lt _ hfits
    simp only [numberedName, List.length_append, List.length_cons, outputExtension, List.length_nil]
    omega
  rw [filenames, numberedNames, FileNames.mk.injEq]
  refine ⟨hname _ (by decide) (by decide), ?_⟩
  funext f
  apply hname
  · cases f <;> decide
  · cases f <;> decide

theorem exactRange_of_withinInt (h : WithinInt i) (files : FileSystem) :
    ∃ fuel run, convertMovie i.world i.options (filenames other i.outputPrefix.frameName) files fuel =
      some run ∧ ExactRange i run := by
  obtain ⟨hmovie, hinside, hlast, hnumber⟩ := h
  have hrejected := not_rejected hinside
  have hcount := frameCount_eq hinside
  have hannounced := announcedFrames_eq hrejected i.nFrames_nonneg (by omega)
  obtain ⟨m, hm⟩ := Int.eq_ofNat_of_zero_le (frameCount_spec (firstFrame_le_length (i := i))).1
  obtain ⟨c, hc, hrun⟩ := frameLoop_range (filenames other i.outputPrefix.frameName) files
    i.playable hrejected i.nFrames_nonneg hmovie (hcount.trans hm)
  have hdone : hasNext c.it = false := by
    rw [hc.atRound.hasNext_end hrejected hmovie (hcount.trans hm).symm, hcount]
    exact decide_eq_false (by omega)
  have hloop := hrun 1
  rw [frameLoop_done _ _ hdone] at hloop
  have hnames : ∀ k < m, filenames other i.outputPrefix.frameName (firstNumber i.options + k) =
      numberedNames i.outputPrefix.frameName (firstNumber i.options + k) := by
    intro k hk
    exact filenames_eq hnumber (by omega)
  have hapart : NamesApart i.options (filenames other i.outputPrefix.frameName) m := by
    intro j hj t ht f
    rw [hnames j hj, hnames t ht]
    exact (numberedName_jp4_ne _ _ _ f).symm
  refine ⟨m + 1, _, convertMovie_eq hrejected (m + 1), ?_⟩
  exact
    { announced := hannounced.trans hcount
      printed := by
        rw [hloop, Outcome.after_state, hc.printed, hcount]
      finished := by
        rw [hloop]
        rfl
      records := by
        rw [hloop, Outcome.after_state, hc.records_eq, hm, Int.toNat_natCast]
        apply List.map_congr_left
        intro k hk
        simp only [frameRecord, hnames k (List.mem_range.mp hk)]
      jp4Files := by
        intro k hk
        have hexists := hc.jp4Files hapart k (by omega)
        rw [hnames k (by omega)] at hexists
        rw [hloop]
        exact hexists }

variable {files : FileSystem} {fuel : ℕ} {run : MovieRun}

/-- An exact run is not cut short by a frame count that is negative as an `int`. -/
theorem short_of_exactRange
    (hrun : convertMovie i.world i.options (filenames other i.outputPrefix.frameName) files fuel =
      some run) (h : ExactRange i run) : nFrames i.world.movie < 2 ^ 31 := by
  obtain ⟨-, hannounced, houtcome⟩ := convertMovie_some hrun
  have hle := nFrames_le (i := i)
  obtain ⟨hcount, -, -⟩ := frameCount_spec (firstFrame_le_length (i := i))
  rw [h.announced] at hannounced
  by_contra hlong
  have hdone := start_long (o := i.options) (not_lt.mp hlong) (by omega) files
  have hempty : run.outcome.state.records = [] := by
    rw [houtcome]
    cases fuel with
    | zero => rfl
    | succ fuel =>
      rw [frameLoop_done _ _ hdone]
      rfl
  have hlength := congrArg List.length (hempty.symm.trans h.records)
  rw [List.length_map, List.length_range, List.length_nil] at hlength
  have hpos := frameCount_pos (i := i) (by omega)
  omega

/-- An exact run does not wrap the current frame around: it would go on. -/
theorem last_of_exactRange
    (hrun : convertMovie i.world i.options (filenames other i.outputPrefix.frameName) files fuel =
      some run) (h : ExactRange i run) (hmovie : nFrames i.world.movie < 2 ^ 31) {m : ℕ}
    (hm : frameCount (nFrames i.world.movie) i.options = m)
    (hlength : run.outcome.state.records.length = m) :
    firstFrame i.options + (m : ℤ) ≠ 2 ^ 31 := by
  intro hlast
  obtain ⟨hrejected, -, houtcome⟩ := convertMovie_some hrun
  obtain ⟨c, hc, hreach⟩ := frameLoop_range (filenames other i.outputPrefix.frameName) files
    i.playable hrejected i.nFrames_nonneg hmovie hm
  have hnext : hasNext c.it = true := by
    rw [hc.atRound.hasNext_end hrejected hmovie hm.symm, hm]
    exact decide_eq_true hlast
  have hfinished := h.finished
  rw [houtcome] at hfinished
  have hsame : (frameLoop i.world i.options (filenames other i.outputPrefix.frameName) (fuel + 1)
      c).after m = run.outcome := by
    rw [← hreach, houtcome, Nat.add_left_comm]
    exact whileLoop_add fuel (m + 1) _ hfinished
  have hlt := records_lt i.options (filenames other i.outputPrefix.frameName)
    i.playable.fopenOk hnext fuel
  rw [hc.atRound.length_records, ← Outcome.after_state m, hsame, hlength] at hlt
  exact absurd hlt (lt_irrefl m)

theorem number_of_exactRange
    (hrun : convertMovie i.world i.options (filenames other i.outputPrefix.frameName) files fuel =
      some run) (h : ExactRange i run) (hmovie : nFrames i.world.movie < 2 ^ 31)
    (hcount : frameCount (nFrames i.world.movie) i.options = frameCount i.packets.length i.options)
    (hlast : firstFrame i.options + frameCount i.packets.length i.options ≠ 2 ^ 31) :
    firstNumber i.options + frameCount i.packets.length i.options ≤ 2 ^ 31 := by
  obtain ⟨hrejected, -, houtcome⟩ := convertMovie_some hrun
  obtain ⟨m, hm⟩ := Int.eq_ofNat_of_zero_le (frameCount_spec (firstFrame_le_length (i := i))).1
  obtain ⟨c, hc, hreach⟩ := frameLoop_range (filenames other i.outputPrefix.frameName) files
    i.playable hrejected i.nFrames_nonneg hmovie (hcount.trans hm)
  have hdone : hasNext c.it = false := by
    rw [hc.atRound.hasNext_end hrejected hmovie (hcount.trans hm).symm, hcount]
    exact decide_eq_false hlast
  have hloop := hreach 1
  rw [frameLoop_done _ _ hdone] at hloop
  have hfinished := h.finished
  rw [houtcome] at hfinished
  have hsame := whileLoop_unique hfinished
    (show (frameLoop i.world i.options (filenames other i.outputPrefix.frameName) (m + 1)
      (startConversion i.world i.options files)).finished = true by rw [hloop]; rfl)
  have hrecords : run.outcome.state.records = c.records := by
    rw [houtcome]
    exact congrArg (fun outcome => outcome.state.records) (hsame.trans hloop)
  rw [h.records, hc.records_eq, hm, Int.toNat_natCast, List.map_inj_left] at hrecords
  by_contra hbeyond
  obtain ⟨hnonneg, hlt⟩ := firstNumber_mem i.options
  -- the frame with the first number beyond `int` gets another name
  have hk := hrecords (2 ^ 31 - firstNumber i.options).toNat (List.mem_range.mpr (by omega))
  have hnumber : firstNumber i.options + ((2 ^ 31 - firstNumber i.options).toNat : ℤ) = 2 ^ 31 := by
    omega
  have hname := congrArg FrameRecord.jp4Filename hk
  simp only [frameRecord, hnumber] at hname
  exact filename_ne i.outputPrefix (by decide) (by decide) ⟨_, rfl⟩ le_rfl hname.symm

end Input

/-- A run converts exactly the frames asked for, under their numbers, if and only if the frame count
as the code reads it, the frames and the numbers stay inside `int`. -/
theorem exactRange_iff (i : RangeInput) (other : List Char → List Char) (files : FileSystem) :
    (∃ fuel run, convertMovie i.world i.options (filenames other i.outputPrefix.frameName) files fuel =
      some run ∧ ExactRange i run) ↔ WithinInt i := by
  constructor
  · intro ⟨fuel, run, hrun, h⟩
    obtain ⟨hrejected, hannounced, -⟩ := convertMovie_some hrun
    have hmovie := short_of_exactRange hrun h
    have hcode := announcedFrames_eq hrejected i.nFrames_nonneg (by omega)
    have hcount : frameCount (nFrames i.world.movie) i.options =
        frameCount i.packets.length i.options := by
      rw [← hcode, ← hannounced, h.announced]
    obtain ⟨hnonneg, hinside, -⟩ := frameCount_spec (firstFrame_le hrejected)
    obtain ⟨m, hm⟩ := Int.eq_ofNat_of_zero_le hnonneg
    have hlength : run.outcome.state.records.length = m := by
      rw [h.records, List.length_map, List.length_range, ← hcount, hm, Int.toNat_natCast]
    have hlast := last_of_exactRange hrun h hmovie hm hlength
    rw [← hm, hcount] at hlast
    rw [hcount] at hinside
    exact ⟨hmovie, hinside, by omega, number_of_exactRange hrun h hmovie hcount hlast⟩
  · intro h
    exact exactRange_of_withinInt h files

def largestNumber : RangeInput where
  world :=
    { movie := { nbFrames := 2, readFrame := fun k => [[0xff], [0xd8]][k]? }
      freed := fun _ => []
      fopenOk := fun _ => true
      convertOk := fun _ => true
      convert := fun _ bytes => bytes }
  packets := [[0xff], [0xd8]]
  playable := ⟨rfl, fun _ _ => rfl, fun _ => rfl, fun _ => rfl⟩
  options :=
    { startFrame := ⟨0, by decide, by decide⟩
      nFrames := ⟨0, by decide, by decide⟩
      countFrame := ⟨2147483647, by decide, by decide⟩
      saveJp4 := true
      saves := fun _ => false
      gui := false }
  outputPrefix := ⟨['f', 'r', 'a', 'm', 'e'], by decide, by decide⟩
  start_le := by decide
  nFrames_nonneg := by decide
  fits := by
    intro k hk
    have hcases : k = 0 ∨ k = 1 := by
      have hlt : (k : ℤ) < 2 := hk
      omega
    rcases hcases with rfl | rfl <;> decide

/-- The second of these frames is written to a file with a negative number. -/
theorem largestNumber_not_exact : ¬ ∀ (i : RangeInput) (other : List Char → List Char)
    (files : FileSystem), ∃ fuel run,
      convertMovie i.world i.options (filenames other i.outputPrefix.frameName) files fuel = some run ∧
        ExactRange i run := by
  intro h
  obtain ⟨fuel, run, hrun, hexact⟩ := h largestNumber id (fun _ => none)
  have hnumber := number_of_exactRange hrun hexact (by decide) (by decide) (by decide)
  exact absurd hnumber (by decide)

end Jp4Tools.MovieRange
