import Jp4Tools.LineReaders
import Jp4Tools.MovieConversion

/-!
# The progress that the user interface reads

With `--gui` the converter prints the number of frames, the number of each frame that is done, and an
empty line. The thread of the user interface reads these lines through a buffered reader that it
replaces after eleven lines, so that what the buffer then holds is lost.
-/

namespace Jp4Tools.ProgressLines
open LineReaders Printf MachineIntegers MovieConversion

/-- The numbers that the converter prints: the `long` that announces the frames, and the `int`s of the
frames that are done. -/
structure ProgressReport where
  total : ℤ
  frames : List ℤ
  frames_int : ∀ frame ∈ frames, -2 ^ 31 ≤ frame ∧ frame < 2 ^ 31

def ProgressReport.lines (report : ProgressReport) : List (List Char) :=
  zeroPadded 0 report.total :: (report.frames.map (zeroPadded 0) ++ [[]])

def bufferSize : ℕ := 8192

/-- A report, and the pieces in which its text gets to the refills of the readers. -/
structure Delivery where
  report : ProgressReport
  pieces : List (List Char)
  pieces_ne_nil : ∀ piece ∈ pieces, piece ≠ []
  pieces_le : ∀ piece ∈ pieces, piece.length ≤ bufferSize
  flatten_eq : pieces.flatten = unlines '\n' report.lines

/-- `Integer.parseInt`, for decimal numbers with a minus sign at most. It throws an exception for
anything else, and for a number that is not an `int`. -/
def parseInt (text : List Char) : Option ℤ :=
  match text with
  | '-' :: digits => (parseDecimal digits).bind fun n => if n ≤ 2 ^ 31 then some (-(n : ℤ)) else none
  | digits => (parseDecimal digits).bind fun n => if n < 2 ^ 31 then some (n : ℤ) else none

/-- The members of the view that the thread sets, and the lines that it has added to the log area. -/
structure ProgressView where
  converterFirstline : Bool
  clipFrameCountTotal : ℤ
  clipFrameCountConverted : ℤ
  conversionComplete : Bool
  logArea : List (List Char)

/-- What `run` does with a line. An exception of `parseInt` ends the thread. -/
def handleLine (view : ProgressView) (line : List Char) : Option ProgressView :=
  if view.converterFirstline then
    (parseInt line).map fun n =>
      { view with
        clipFrameCountTotal := n
        converterFirstline := false
        logArea := view.logArea ++ [line] }
  else if line = [] then
    some { view with conversionComplete := true, logArea := view.logArea ++ [line] }
  else
    (parseInt line).map fun n =>
      { view with clipFrameCountConverted := n, logArea := view.logArea ++ [line] }

/-- The inner loop of `run`, at a value of `j`. It gives `false` when an exception ends the thread. -/
def readLines : ℕ → ℕ → Reader Char → ProgressView → Bool × Reader Char × ProgressView
  | 0, _, reader, view => (true, reader, view)
  | fuel + 1, j, reader, view =>
    match readLine '\n' [] reader.buffer reader.pieces with
    | (none, reader) => (true, reader, view)
    | (some line, reader) =>
      match handleLine view line with
      | none => (false, reader, view)
      | some view => if j + 1 > 10 then (true, reader, view) else readLines fuel (j + 1) reader view

structure ProgressThread where
  running : Bool
  pieces : List (List Char)
  view : ProgressView

/-- A round of the outer loop of `run`, with a new reader. -/
def ProgressThread.round (thread : ProgressThread) : ProgressThread :=
  if thread.running then
    let (running, reader, view) := readLines 11 0 ⟨[], thread.pieces⟩ thread.view
    { running, pieces := reader.pieces, view }
  else thread

/-- The view when a conversion is started. The counts are those of the conversion before. -/
def startView (total converted : ℤ) : ProgressView where
  converterFirstline := true
  clipFrameCountTotal := total
  clipFrameCountConverted := converted
  conversionComplete := false
  logArea := []

def Delivery.thread (d : Delivery) (total converted : ℤ) (rounds : ℕ) : ProgressThread :=
  ProgressThread.round^[rounds] { running := true, pieces := d.pieces, view := startView total converted }

def ProgressReport.view (report : ProgressReport) (converted : ℤ) : ProgressView where
  converterFirstline := false
  clipFrameCountTotal := report.total
  clipFrameCountConverted := report.frames.getLastD converted
  conversionComplete := true
  logArea := report.lines

/-- From some round on, the thread has handled all lines, and the view has the values of the report. -/
def Delivery.Arrives (d : Delivery) : Prop :=
  ∀ total converted, ∃ n, ∀ rounds ≥ n, (d.thread total converted rounds).view = d.report.view converted

section Report
variable {report : ProgressReport}

/-- What a conversion with `--gui` has printed is the beginning of a report. -/
theorem exists_report (w : World) (o : Options) (hgui : o.gui = true) (names : ℤ → FileNames)
    (files : FileSystem) (fuel : ℕ) :
    ∃ report : ProgressReport, (frameLoop w o names fuel (startConversion w o files)).state.stdout =
      .total report.total :: report.frames.map .frame := by
  apply WhileLoops.whileLoop_invariant (fun c : Conversion => ∃ report : ProgressReport,
    c.stdout = .total report.total :: report.frames.map .frame)
  · rintro c ⟨report, hreport⟩
    simp only [convertFrame, progressLine, hgui, if_true]
    split
    · exact ⟨report, hreport⟩
    · split
      · exact ⟨report, hreport⟩
      · refine ⟨⟨report.total, report.frames ++ [i32 (MovieFrames.next w.movie c.it c.out).2.2.frame], ?_⟩, ?_⟩
        · intro frame hframe
          rcases List.mem_append.mp hframe with hframe | hframe
          · exact report.frames_int frame hframe
          · rw [List.mem_singleton.mp hframe]
            exact ⟨Int.le_bmod (by decide), i32_lt _⟩
        · simp only [WhileLoops.Round.state, hreport, List.map_append, List.cons_append, List.map_cons,
            List.map_nil]
  · refine ⟨⟨announcedFrames (MovieFrames.nFrames w.movie) (firstFrame o) o.nFrames.value, [], ?_⟩, ?_⟩
    · intro frame hframe
      cases hframe
    · simp only [startConversion, announcement, hgui, if_true, List.map_nil]

theorem paddedDigits_zero (n : ℕ) : paddedDigits 0 n = decimal n := by
  rw [paddedDigits, Nat.zero_sub, List.replicate_zero, List.nil_append]

theorem parseInt_zeroPadded (x : ℤ) :
    parseInt (zeroPadded 0 x) = if -2 ^ 31 ≤ x ∧ x < 2 ^ 31 then some x else none := by
  rcases lt_or_ge x 0 with hx | hx
  · rw [zeroPadded_neg hx, Nat.zero_sub, paddedDigits_zero]
    simp only [parseInt, parseDecimal_decimal, Option.bind_some]
    have habs : -(x.natAbs : ℤ) = x := by omega
    rw [habs]
    split_ifs <;> first | rfl | omega
  · obtain ⟨n, rfl⟩ := Int.eq_ofNat_of_zero_le hx
    rw [zeroPadded_natCast, paddedDigits_zero]
    unfold parseInt
    split
    · rename_i digits hdigits
      have hsign : '-' ∈ decimal n := hdigits ▸ List.mem_cons_self
      exact absurd (isDigit_of_mem_decimal hsign) (by decide)
    · rw [parseDecimal_decimal, Option.bind_some]
      split_ifs <;> first | rfl | omega

theorem newline_notMem {line : List Char} (hline : line ∈ report.lines) : '\n' ∉ line := by
  have hnumber : ∀ x, '\n' ∉ zeroPadded 0 x := by
    intro x hmem
    rcases mem_zeroPadded hmem with h | h
    · exact absurd h (by decide)
    · exact absurd h (by decide)
  rcases List.mem_cons.mp hline with rfl | hline
  · exact hnumber _
  · rcases List.mem_append.mp hline with hline | hline
    · obtain ⟨x, -, rfl⟩ := List.mem_map.mp hline
      exact hnumber x
    · rw [List.mem_singleton.mp hline]
      exact List.not_mem_nil

end Report

section Handling

theorem logArea_handleLine {view view' : ProgressView} {line : List Char}
    (h : handleLine view line = some view') : view'.logArea = view.logArea ++ [line] := by
  rw [handleLine] at h
  split_ifs at h
  · obtain ⟨n, -, rfl⟩ := Option.map_eq_some_iff.mp h
    rfl
  · obtain rfl := Option.some.inj h
    rfl
  · obtain ⟨n, -, rfl⟩ := Option.map_eq_some_iff.mp h
    rfl

def handleLines (view : ProgressView) (lines : List (List Char)) : Option ProgressView :=
  lines.foldlM handleLine view

theorem handleLines_cons (view : ProgressView) (line : List Char) (lines : List (List Char)) :
    handleLines view (line :: lines) = (handleLine view line).bind (handleLines · lines) := rfl

theorem handleLines_append (view : ProgressView) (lines lines' : List (List Char)) :
    handleLines view (lines ++ lines') = (handleLines view lines).bind (handleLines · lines') :=
  List.foldlM_append

theorem logArea_handleLines {view view' : ProgressView} {lines : List (List Char)}
    (h : handleLines view lines = some view') : view'.logArea = view.logArea ++ lines := by
  induction lines generalizing view with
  | nil =>
    obtain rfl := Option.some.inj h
    exact (List.append_nil _).symm
  | cons line lines ih =>
    rw [handleLines_cons] at h
    obtain ⟨next, hnext, h⟩ := Option.bind_eq_some_iff.mp h
    rw [ih h, logArea_handleLine hnext, List.append_assoc]
    rfl

theorem handleLines_frames {frames : List ℤ} (hframes : ∀ frame ∈ frames, -2 ^ 31 ≤ frame ∧ frame < 2 ^ 31)
    {view : ProgressView} (hview : view.converterFirstline = false) :
    handleLines view (frames.map (zeroPadded 0) ++ [[]]) =
      some
        { view with
          clipFrameCountConverted := frames.getLastD view.clipFrameCountConverted
          conversionComplete := true
          logArea := view.logArea ++ (frames.map (zeroPadded 0) ++ [[]]) } := by
  induction frames generalizing view with
  | nil =>
    rw [List.map_nil, List.nil_append, handleLines_cons, handleLine, hview]
    rfl
  | cons frame frames ih =>
    have hline : handleLine view (zeroPadded 0 frame) =
        some { view with clipFrameCountConverted := frame, logArea := view.logArea ++ [zeroPadded 0 frame] } := by
      rw [handleLine, hview, if_neg Bool.false_ne_true, if_neg (zeroPadded_ne_nil 0 frame),
        parseInt_zeroPadded, if_pos (hframes frame List.mem_cons_self)]
      rfl
    rw [List.map_cons, List.cons_append, handleLines_cons, hline, Option.bind_some, List.getLastD_cons]
    refine (ih (fun x hx => hframes x (List.mem_cons_of_mem frame hx)) ?_).trans ?_
    · exact hview
    · simp only [List.append_assoc, List.singleton_append]

theorem handleLines_report {report : ProgressReport} (htotal : -2 ^ 31 ≤ report.total ∧ report.total < 2 ^ 31)
    (total converted : ℤ) :
    handleLines (startView total converted) report.lines = some (report.view converted) := by
  have hfirst : handleLine (startView total converted) (zeroPadded 0 report.total) =
      some
        { startView total converted with
          clipFrameCountTotal := report.total
          converterFirstline := false
          logArea := [zeroPadded 0 report.total] } := by
    rw [handleLine, startView, if_pos rfl, parseInt_zeroPadded, if_pos htotal]
    rfl
  rw [ProgressReport.lines, handleLines_cons, hfirst, Option.bind_some,
    handleLines_frames report.frames_int rfl]
  rfl

theorem parseInt_int {text : List Char} {n : ℤ} (h : parseInt text = some n) : -2 ^ 31 ≤ n ∧ n < 2 ^ 31 := by
  unfold parseInt at h
  split at h
  · obtain ⟨k, -, h⟩ := Option.bind_eq_some_iff.mp h
    split_ifs at h with hk
    obtain rfl := Option.some.inj h
    omega
  · obtain ⟨k, -, h⟩ := Option.bind_eq_some_iff.mp h
    split_ifs at h with hk
    obtain rfl := Option.some.inj h
    omega

/-- The total that is shown is an `int`, as soon as there is one. -/
def TotalInt (view : ProgressView) : Prop :=
  view.converterFirstline = false → -2 ^ 31 ≤ view.clipFrameCountTotal ∧ view.clipFrameCountTotal < 2 ^ 31

theorem TotalInt.handleLine {view view' : ProgressView} {line : List Char} (hview : TotalInt view)
    (h : handleLine view line = some view') : TotalInt view' := by
  rw [ProgressLines.handleLine] at h
  split_ifs at h
  · obtain ⟨n, hn, rfl⟩ := Option.map_eq_some_iff.mp h
    intro _
    exact parseInt_int hn
  · obtain rfl := Option.some.inj h
    exact hview
  · obtain ⟨n, -, rfl⟩ := Option.map_eq_some_iff.mp h
    exact hview

end Handling

section Loops
variable {all : List (List Char)} {m count : ℕ} {reader : Reader Char} {lines : List (List Char)}

theorem TotalInt.readLines {view : ProgressView} (hview : TotalInt view) (fuel j : ℕ)
    (reader : Reader Char) : TotalInt (readLines fuel j reader view).2.2 := by
  induction fuel generalizing j reader view with
  | zero => exact hview
  | succ fuel ih =>
    rw [ProgressLines.readLines]
    split
    · exact hview
    · split
      · exact hview
      · rename_i next hnext
        split_ifs
        · exact hview.handleLine hnext
        · exact ih (hview.handleLine hnext) (j + 1) _

theorem readLines_counts (fuel j : ℕ) (view : ProgressView) (hreader : reader.At all m count)
    (hlines : ∀ line ∈ lines, '\n' ∉ line)
    (htext : reader.buffer ++ reader.pieces.flatten = unlines '\n' lines) :
    ∃ running reader' view' handled m' count', readLines fuel j reader view = (running, reader', view') ∧
      view'.logArea = view.logArea ++ handled ∧ reader'.At all m' count' ∧
      count + (unlines '\n' handled).length ≤ count' := by
  induction fuel generalizing j view reader lines m count with
  | zero => exact ⟨true, reader, view, [], m, count, rfl, (List.append_nil _).symm, hreader, le_rfl⟩
  | succ fuel ih =>
    cases lines with
    | nil =>
      have hend := hreader.at_end htext
      obtain ⟨buffer, pieces⟩ := reader
      obtain ⟨rfl, hpieces⟩ := List.append_eq_nil_iff.mp htext
      refine ⟨true, ⟨[], []⟩, view, [], all.length, count, ?_, (List.append_nil _).symm, hend, le_rfl⟩
      simp only [readLines, readLine_nil hpieces]
    | cons line lines =>
      rw [unlines_cons] at htext
      obtain ⟨reader', m', hread, hrest, hreader', -⟩ :=
        readLine_spec hreader [] (hlines line List.mem_cons_self) htext
      rw [List.nil_append] at hread
      simp only [readLines, hread]
      cases hhandle : handleLine view line with
      | none =>
        refine ⟨false, reader', view, [], m', _, rfl, (List.append_nil _).symm, hreader', ?_⟩
        simp only [unlines, List.flatMap_nil, List.length_nil]
        omega
      | some next =>
        have hlog := logArea_handleLine hhandle
        simp only
        split_ifs
        · refine ⟨true, reader', next, [line], m', _, rfl, hlog, hreader', ?_⟩
          rw [unlines_cons, List.length_append, List.length_cons]
          simp only [unlines, List.flatMap_nil, List.length_nil]
          omega
        · obtain ⟨running, reader'', view', handled, m'', count', hloop, hlog', hreader'', hcount⟩ :=
            ih (j + 1) next hreader' (fun l hl => hlines l (List.mem_cons_of_mem line hl)) hrest
          refine ⟨running, reader'', view', line :: handled, m'', count', hloop, ?_, hreader'', ?_⟩
          · rw [hlog', hlog, List.append_assoc]
            rfl
          · rw [unlines_cons, List.length_append, List.length_cons]
            omega

/-- The inner loop handles eleven lines, if there are as many. -/
theorem readLines_spec (fuel j : ℕ) (hj : j + fuel = 11) {view view' : ProgressView}
    (hreader : reader.At all m count)
    (hbegun : reader.buffer = [] ∨ (all.take (m - 1)).flatten.length < count)
    (hlines : ∀ line ∈ lines, '\n' ∉ line)
    (htext : reader.buffer ++ reader.pieces.flatten = unlines '\n' lines)
    (hview : handleLines view (lines.take fuel) = some view') :
    ∃ reader' m', readLines fuel j reader view = (true, reader', view') ∧
      reader'.buffer ++ reader'.pieces.flatten = unlines '\n' (lines.drop fuel) ∧
      reader'.At all m' (count + (unlines '\n' (lines.take fuel)).length) ∧
      (reader'.buffer = [] ∨
        (all.take (m' - 1)).flatten.length < count + (unlines '\n' (lines.take fuel)).length) := by
  induction fuel generalizing j view reader lines m count with
  | zero =>
    obtain rfl := Option.some.inj hview
    exact ⟨reader, m, rfl, htext, hreader, hbegun⟩
  | succ fuel ih =>
    cases lines with
    | nil =>
      have hend := hreader.at_end htext
      obtain ⟨buffer, pieces⟩ := reader
      obtain ⟨rfl, hpieces⟩ := List.append_eq_nil_iff.mp htext
      obtain rfl := Option.some.inj hview
      exact ⟨⟨[], []⟩, all.length, by simp only [readLines, readLine_nil hpieces], rfl, hend, Or.inl rfl⟩
    | cons line lines =>
      rw [unlines_cons] at htext
      obtain ⟨reader', m', hread, hrest, hreader', hbegun'⟩ :=
        readLine_spec hreader [] (hlines line List.mem_cons_self) htext
      rw [List.nil_append] at hread
      rw [List.take_succ_cons, handleLines_cons] at hview
      obtain ⟨next, hnext, hview⟩ := Option.bind_eq_some_iff.mp hview
      obtain ⟨reader'', m'', hloop, hrest', hreader'', hbegun''⟩ := ih (j + 1) (by omega) hreader'
        (Or.inr hbegun') (fun l hl => hlines l (List.mem_cons_of_mem line hl)) hrest hview
      have hcount : count + line.length + 1 + (unlines '\n' (lines.take fuel)).length =
          count + (unlines '\n' ((line :: lines).take (fuel + 1))).length := by
        rw [List.take_succ_cons, unlines_cons, List.length_append, List.length_cons]
        omega
      rw [hcount] at hreader'' hbegun''
      refine ⟨reader'', m'', ?_, hrest', hreader'', hbegun''⟩
      simp only [readLines, hread, hnext]
      split_ifs with hbreak
      · -- the loop breaks after the eleventh line, where no fuel is left
        obtain rfl : fuel = 0 := by omega
        exact hloop
      · exact hloop

end Loops

section Rounds
variable {d : Delivery} {total converted : ℤ} {rounds : ℕ}

theorem Delivery.thread_succ (d : Delivery) (total converted : ℤ) (rounds : ℕ) :
    d.thread total converted (rounds + 1) = (d.thread total converted rounds).round :=
  Function.iterate_succ_apply' _ _ _

theorem Delivery.exists_lines (d : Delivery) (m : ℕ) :
    ∃ lines, (d.pieces.drop m).flatten = unlines '\n' lines ∧ ∀ line ∈ lines, '\n' ∉ line := by
  apply exists_lines_of_suffix (fun line hline => newline_notMem hline)
  rw [← d.flatten_eq]
  exact ⟨(d.pieces.take m).flatten, by rw [← List.flatten_append, List.take_append_drop]⟩

def Lossy (d : Delivery) (thread : ProgressThread) : Prop :=
  ∃ m, thread.pieces = d.pieces.drop m ∧
    (unlines '\n' thread.view.logArea).length < (d.pieces.take m).flatten.length

theorem Lossy.round {thread : ProgressThread} (h : Lossy d thread) : Lossy d thread.round := by
  obtain ⟨m, hpieces, hlost⟩ := h
  obtain ⟨lines, htext, hlines⟩ := d.exists_lines m
  cases hrunning : thread.running with
  | false =>
    rw [ProgressThread.round, hrunning]
    exact ⟨m, hpieces, hlost⟩
  | true =>
    obtain ⟨running, reader, view, handled, m', count, hloop, hlog, hreader, hcount⟩ :=
      readLines_counts 11 0 thread.view (Reader.at_new d.pieces m) hlines htext
    have hlength := hreader.length_eq
    rw [ProgressThread.round, hrunning, if_pos rfl, hpieces, hloop]
    refine ⟨m', hreader.pieces_eq, ?_⟩
    rw [hlog, unlines_append, List.length_append]
    omega

/-- The thread has handled the first `11 * rounds` lines, and nothing else has left the stream. -/
structure Complete (d : Delivery) (total converted : ℤ) (rounds : ℕ) (thread : ProgressThread) : Prop where
  running : thread.running = true
  view : handleLines (startView total converted) (d.report.lines.take (11 * rounds)) = some thread.view
  text : thread.pieces.flatten = unlines '\n' (d.report.lines.drop (11 * rounds))
  taken : ∃ m, thread.pieces = d.pieces.drop m

theorem complete_zero (d : Delivery) (total converted : ℤ) :
    Complete d total converted 0 (d.thread total converted 0) where
  running := rfl
  view := rfl
  text := d.flatten_eq
  taken := ⟨0, rfl⟩

theorem Complete.flatten_take {thread : ProgressThread} (h : Complete d total converted rounds thread)
    {m : ℕ} (hm : thread.pieces = d.pieces.drop m) :
    (d.pieces.take m).flatten = unlines '\n' (d.report.lines.take (11 * rounds)) := by
  have hall := d.flatten_eq
  rw [← List.take_append_drop m d.pieces, List.flatten_append, ← hm, h.text,
    ← List.take_append_drop (11 * rounds) d.report.lines, unlines_append, List.take_append_drop] at hall
  exact List.append_cancel_right hall

theorem take_succ_rounds (lines : List (List Char)) (rounds : ℕ) :
    lines.take (11 * (rounds + 1)) = lines.take (11 * rounds) ++ (lines.drop (11 * rounds)).take 11 := by
  rw [Nat.mul_succ, List.take_add]

theorem Complete.handleLines_round {thread : ProgressThread} (h : Complete d total converted rounds thread)
    (htotal : -2 ^ 31 ≤ d.report.total ∧ d.report.total < 2 ^ 31) :
    ∃ view, handleLines thread.view ((d.report.lines.drop (11 * rounds)).take 11) = some view := by
  have hall := handleLines_report htotal total converted
  rw [← List.take_append_drop (11 * (rounds + 1)) d.report.lines, handleLines_append] at hall
  obtain ⟨view, hview, -⟩ := Option.bind_eq_some_iff.mp hall
  rw [take_succ_rounds, handleLines_append, h.view, Option.bind_some] at hview
  exact ⟨view, hview⟩

/-- A round handles the next eleven lines, and the next round does not lose anything when the buffer is
empty then. -/
theorem Complete.step {thread : ProgressThread} (h : Complete d total converted rounds thread)
    (htotal : -2 ^ 31 ≤ d.report.total ∧ d.report.total < 2 ^ 31) :
    Complete d total converted (rounds + 1) thread.round ∨
      Lossy d thread.round ∧ ∀ k, (d.pieces.take k).flatten ≠
        unlines '\n' (d.report.lines.take (11 * (rounds + 1))) := by
  obtain ⟨m, hm⟩ := h.taken
  have hcount := congrArg List.length (h.flatten_take hm)
  have hrest : (d.report.lines.drop (11 * rounds)).drop 11 = d.report.lines.drop (11 * (rounds + 1)) := by
    rw [List.drop_drop, Nat.mul_succ]
  obtain ⟨view, hview⟩ := h.handleLines_round htotal
  have hlines : ∀ line ∈ d.report.lines.drop (11 * rounds), '\n' ∉ line := by
    intro line hline
    exact newline_notMem (List.mem_of_mem_drop hline)
  have hnew := Reader.at_new d.pieces m
  rw [← hm] at hnew
  obtain ⟨reader, m', hloop, htext, hreader, hbegun⟩ := readLines_spec 11 0 rfl hnew (Or.inl rfl) hlines
    h.text hview
  have hround : thread.round = { running := true, pieces := reader.pieces, view } := by
    rw [ProgressThread.round, h.running, if_pos rfl, hloop]
  have hposition : (d.pieces.take m).flatten.length +
      (unlines '\n' ((d.report.lines.drop (11 * rounds)).take 11)).length =
      (unlines '\n' (d.report.lines.take (11 * (rounds + 1)))).length := by
    rw [hcount, take_succ_rounds, unlines_append, List.length_append]
  rw [hposition] at hreader hbegun
  rw [hrest] at htext
  have hhandled : handleLines (startView total converted) (d.report.lines.take (11 * (rounds + 1))) =
      some view := by
    rw [take_succ_rounds, handleLines_append, h.view, Option.bind_some, hview]
  by_cases hbuffer : reader.buffer = []
  · left
    rw [hround]
    rw [hbuffer, List.nil_append] at htext
    exact ⟨rfl, hhandled, htext, m', hreader.pieces_eq⟩
  · right
    have hlength := hreader.length_eq
    have hpos := List.length_pos_of_ne_nil hbuffer
    refine ⟨⟨m', by rw [hround]; exact hreader.pieces_eq, ?_⟩, ?_⟩
    · have hlog := logArea_handleLines hhandled
      rw [hround]
      simp only
      rw [hlog, startView, List.nil_append]
      omega
    · intro k hk
      exact hbuffer (hreader.buffer_eq_nil (hbegun.resolve_left hbuffer) (congrArg List.length hk))

theorem totalInt_thread (d : Delivery) (total converted : ℤ) (rounds : ℕ) :
    TotalInt (d.thread total converted rounds).view := by
  induction rounds with
  | zero =>
    intro hfirst
    cases hfirst
  | succ rounds ih =>
    rw [Delivery.thread_succ, ProgressThread.round]
    split_ifs
    · exact ih.readLines 11 0 _
    · exact ih

theorem Delivery.lossy_add (h : Lossy d (d.thread total converted rounds)) (n : ℕ) :
    Lossy d (d.thread total converted (rounds + n)) := by
  induction n with
  | zero => exact h
  | succ n ih =>
    rw [← Nat.add_assoc, Delivery.thread_succ]
    exact ih.round

theorem Delivery.not_lossy {thread : ProgressThread} (hview : thread.view = d.report.view converted) :
    ¬ Lossy d thread := by
  rintro ⟨m, -, hlost⟩
  have hle := length_flatten_take_le d.pieces m
  rw [List.take_length, d.flatten_eq] at hle
  rw [hview] at hlost
  exact absurd hlost (not_lt.mpr hle)

theorem Delivery.complete (d : Delivery) (htotal : -2 ^ 31 ≤ d.report.total ∧ d.report.total < 2 ^ 31)
    (hpieces : ∀ r, ∃ k, (d.pieces.take k).flatten = unlines '\n' (d.report.lines.take (11 * r)))
    (total converted : ℤ) (rounds : ℕ) :
    Complete d total converted rounds (d.thread total converted rounds) := by
  induction rounds with
  | zero => exact complete_zero d total converted
  | succ rounds ih =>
    rw [Delivery.thread_succ]
    rcases ih.step htotal with h | ⟨-, hnone⟩
    · exact h
    · obtain ⟨k, hk⟩ := hpieces (rounds + 1)
      exact absurd hk (hnone k)

theorem Delivery.complete_of_arrives (d : Delivery) (h : d.Arrives) (total converted : ℤ) (rounds : ℕ) :
    (-2 ^ 31 ≤ d.report.total ∧ d.report.total < 2 ^ 31) ∧
      Complete d total converted rounds (d.thread total converted rounds) := by
  obtain ⟨n, hn⟩ := h total converted
  have htotal : -2 ^ 31 ≤ d.report.total ∧ d.report.total < 2 ^ 31 := by
    have hint := totalInt_thread d total converted n
    rw [hn n le_rfl] at hint
    exact hint rfl
  refine ⟨htotal, ?_⟩
  induction rounds with
  | zero => exact complete_zero d total converted
  | succ rounds ih =>
    rcases ih.step htotal with h | ⟨hlossy, -⟩
    · rw [Delivery.thread_succ]
      exact h
    · rw [← Delivery.thread_succ] at hlossy
      exact absurd (Delivery.lossy_add hlossy n) (Delivery.not_lossy (hn (rounds + 1 + n) (by omega)))

end Rounds

/-- All lines arrive exactly when the total is an `int` and each eleventh line ends where a refill of
the reader ends, so that the buffer is empty when the reader is replaced. -/
theorem progress_arrives_iff (d : Delivery) :
    d.Arrives ↔ (-2 ^ 31 ≤ d.report.total ∧ d.report.total < 2 ^ 31) ∧
      ∀ r, ∃ k, (d.pieces.take k).flatten = unlines '\n' (d.report.lines.take (11 * r)) := by
  constructor
  · intro h
    refine ⟨(d.complete_of_arrives h 0 0 0).1, ?_⟩
    intro r
    have hcomplete := (d.complete_of_arrives h 0 0 r).2
    obtain ⟨m, hm⟩ := hcomplete.taken
    exact ⟨m, hcomplete.flatten_take hm⟩
  · rintro ⟨htotal, hpieces⟩ total converted
    refine ⟨d.report.lines.length, ?_⟩
    intro rounds hrounds
    have hview := (d.complete htotal hpieces total converted rounds).view
    rw [List.take_of_length_le (by omega), handleLines_report htotal] at hview
    exact (Option.some.inj hview).symm

def elevenFrames : Delivery :=
  let report : ProgressReport := ⟨11, [1, 2, 3, 4, 5, 6, 7, 8, 9, 10, 11], by decide⟩
  { report
    pieces := [unlines '\n' report.lines]
    pieces_ne_nil := by
      intro piece hpiece
      rw [List.mem_singleton.mp hpiece, ProgressReport.lines, unlines_cons]
      exact List.append_ne_nil_of_right_ne_nil _ (List.cons_ne_nil _ _)
    pieces_le := by
      intro piece hpiece
      rw [List.mem_singleton.mp hpiece]
      decide
    flatten_eq := List.flatten_singleton }

/-- The eleventh frame and the empty line are lost with the first reader. -/
theorem eleven_frames_lost : ¬ ∀ d : Delivery, d.Arrives := by
  intro h
  have hcomplete := (elevenFrames.complete_of_arrives (h elevenFrames) 0 0 1).2
  obtain ⟨m, hm⟩ := hcomplete.taken
  have hlength := congrArg List.length (hcomplete.flatten_take hm)
  cases m with
  | zero => exact absurd hlength (by decide)
  | succ m =>
    have hall : (elevenFrames.pieces.take (m + 1)).flatten = unlines '\n' elevenFrames.report.lines := by
      rw [elevenFrames, List.take_succ_cons, List.take_nil, List.flatten_singleton]
    rw [hall] at hlength
    exact absurd hlength (by decide)

end Jp4Tools.ProgressLines
