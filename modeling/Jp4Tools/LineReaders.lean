import Mathlib.Data.List.Flatten
import Mathlib.Data.List.TakeDrop

/-!
# Reading lines from pieces

A buffered reader gets its text piece by piece, and refills its buffer when no separator is left in
it. The lines it returns do not depend on how the text is cut. What stays in the buffer between two
lines does: nothing, exactly when a piece ends there.
-/

namespace Jp4Tools.LineReaders

variable {α : Type*}

def unlines (sep : α) (lines : List (List α)) : List α := lines.flatMap (· ++ [sep])

@[simp] theorem unlines_cons (sep : α) (line : List α) (lines : List (List α)) :
    unlines sep (line :: lines) = line ++ sep :: unlines sep lines := by
  simp [unlines]

theorem unlines_append (sep : α) (lines lines' : List (List α)) :
    unlines sep (lines ++ lines') = unlines sep lines ++ unlines sep lines' := List.flatMap_append

/-- What is left of a text of lines is one, of which the first line may be torn. -/
theorem exists_lines_of_suffix {sep : α} {lines : List (List α)} {text : List α}
    (hlines : ∀ line ∈ lines, sep ∉ line) (h : text <:+ unlines sep lines) :
    ∃ lines' : List (List α), text = unlines sep lines' ∧ ∀ line ∈ lines', sep ∉ line := by
  induction lines with
  | nil =>
    refine ⟨[], List.suffix_nil.mp h, ?_⟩
    intro line hline
    cases hline
  | cons line lines ih =>
    have htail : ∀ line ∈ lines, sep ∉ line := fun l hl => hlines l (List.mem_cons_of_mem line hl)
    obtain ⟨read, hread⟩ := h
    rw [unlines_cons, List.append_eq_append_iff] at hread
    rcases hread with ⟨torn, hline, rfl⟩ | ⟨read, -, htext⟩
    · refine ⟨torn :: lines, by rw [unlines_cons], ?_⟩
      intro l hl
      rcases List.mem_cons.mp hl with rfl | hl
      · intro hsep
        exact hlines line List.mem_cons_self (hline ▸ List.mem_append_right read hsep)
      · exact htail l hl
    · have hsuffix : text <:+ sep :: unlines sep lines := ⟨read, htext.symm⟩
      rcases List.suffix_cons_iff.mp hsuffix with rfl | hsuffix
      · refine ⟨[] :: lines, by rw [unlines_cons, List.nil_append], ?_⟩
        intro l hl
        rcases List.mem_cons.mp hl with rfl | hl
        · exact List.not_mem_nil
        · exact htail l hl
      · exact ih htail hsuffix

/-- A reader: the unread part of its buffer, and the pieces that the next refills get. -/
structure Reader (α : Type*) where
  buffer : List α
  pieces : List (List α)

/-- The next line, behind what was read of it before, or nothing at the end of the text. A line at the
end may lack its separator. -/
def readLine [DecidableEq α] (sep : α) (read buffer : List α) (pieces : List (List α)) : Option (List α) × Reader α :=
  if sep ∈ buffer then
    (some (read ++ buffer.takeWhile (· ≠ sep)), ⟨(buffer.dropWhile (· ≠ sep)).tail, pieces⟩)
  else
    match pieces with
    | [] => (if read ++ buffer = [] then none else some (read ++ buffer), ⟨[], []⟩)
    | piece :: pieces => readLine sep (read ++ buffer) piece pieces

/-- The reader has taken `m` of the pieces `all` and has read `count` elements of the text. -/
structure Reader.At (all : List (List α)) (m count : ℕ) (r : Reader α) : Prop where
  pieces_eq : r.pieces = all.drop m
  length_eq : count + r.buffer.length = (all.take m).flatten.length
  before_le : (all.take (m - 1)).flatten.length ≤ count

section Positions
variable {sep : α} {all : List (List α)} {m count : ℕ} {r : Reader α} {buffer : List α}

theorem length_flatten_take_mono (all : List (List α)) {k : ℕ} (h : k ≤ m) :
    (all.take k).flatten.length ≤ (all.take m).flatten.length := by
  obtain ⟨taken, htaken⟩ := List.take_prefix_take_left (l := all) h
  rw [← htaken, List.flatten_append, List.length_append]
  exact Nat.le_add_right _ _

theorem length_flatten_take_le (all : List (List α)) (m : ℕ) :
    (all.take m).flatten.length ≤ (all.take all.length).flatten.length := by
  rcases Nat.le_total m all.length with h | h
  · exact length_flatten_take_mono all h
  · have htake : all.take m = all.take all.length := by rw [List.take_of_length_le h, List.take_length]
    exact Nat.le_of_eq (by rw [htake])

theorem Reader.at_new (all : List (List α)) (m : ℕ) :
    Reader.At all m (all.take m).flatten.length ⟨[], all.drop m⟩ where
  pieces_eq := rfl
  length_eq := Nat.add_zero _
  before_le := length_flatten_take_mono all (Nat.sub_le m 1)

theorem Reader.At.buffer_eq_nil (h : r.At all m count) (hbegun : (all.take (m - 1)).flatten.length < count)
    {k : ℕ} (hk : (all.take k).flatten.length = count) : r.buffer = [] := by
  have hlength := h.length_eq
  rcases Nat.lt_or_ge k m with hlt | hge
  · have hbefore := length_flatten_take_mono all (show k ≤ m - 1 by omega)
    omega
  · have hafter := length_flatten_take_mono all hge
    exact List.length_eq_zero_iff.mp (by omega)

theorem Reader.At.refill {piece : List α} {pieces : List (List α)} (h : Reader.At all m count ⟨buffer, piece :: pieces⟩) :
    Reader.At all (m + 1) (count + buffer.length) ⟨piece, pieces⟩ := by
  have hlength : count + buffer.length = (all.take m).flatten.length := h.length_eq
  have hpiece : all[m]? = some piece := by
    rw [← List.head?_drop, ← h.pieces_eq]
    rfl
  have htaken : (all.take (m + 1)).flatten.length = count + buffer.length + piece.length := by
    rw [List.take_add_one, hpiece, List.flatten_append, List.length_append, ← hlength]
    simp only [Option.toList_some, List.flatten_singleton]
  refine ⟨?_, htaken.symm, Nat.le_of_eq hlength.symm⟩
  rw [← List.tail_drop, ← h.pieces_eq]
  rfl

theorem Reader.At.at_end (h : r.At all m count) (htext : r.buffer ++ r.pieces.flatten = []) :
    Reader.At all all.length count ⟨[], []⟩ := by
  obtain ⟨hbuffer, hpieces⟩ := List.append_eq_nil_iff.mp htext
  have hcount : count = (all.take m).flatten.length := by
    have hlength := h.length_eq
    rwa [hbuffer, List.length_nil, Nat.add_zero] at hlength
  have hdrop : (all.drop m).flatten = [] := by rw [← h.pieces_eq, hpieces]
  have hall : (all.take all.length).flatten.length = (all.take m).flatten.length := by
    conv_lhs => rw [List.take_length, ← List.take_append_drop m all, List.flatten_append, hdrop, List.append_nil]
  have hend := Reader.at_new all all.length
  rwa [List.drop_length, hall, ← hcount] at hend

theorem exists_rest_of_line (hsep : sep ∉ buffer) {line rest tail : List α} (htext : buffer ++ tail = line ++ sep :: rest) :
    ∃ line', line = buffer ++ line' ∧ tail = line' ++ sep :: rest := by
  rw [List.append_eq_append_iff] at htext
  rcases htext with hsplit | ⟨unread, rfl, htail⟩
  · exact hsplit
  · cases unread with
    | nil => exact ⟨[], by rw [List.append_nil, List.append_nil], htail.symm⟩
    | cons c unread =>
      rw [List.cons_append, List.cons.injEq] at htail
      exact absurd (List.mem_append_right line (htail.1 ▸ List.mem_cons_self)) hsep

variable [DecidableEq α]

theorem readLine_buffered (hsep : sep ∈ buffer) {line rest tail : List α} (hline : sep ∉ line)
    (htext : buffer ++ tail = line ++ sep :: rest) (read : List α) (pieces : List (List α)) :
    ∃ buffer', readLine sep read buffer pieces = (some (read ++ line), ⟨buffer', pieces⟩) ∧
      buffer' ++ tail = rest ∧ buffer.length = line.length + 1 + buffer'.length := by
  have hwhile : ∀ c ∈ line, decide (c ≠ sep) = true := by
    intro c hc
    rw [decide_eq_true_eq]
    rintro rfl
    exact hline hc
  rcases List.append_eq_append_iff.mp htext with ⟨torn, rfl, -⟩ | ⟨unread, rfl, hrest⟩
  · exact absurd (List.mem_append_left torn hsep) hline
  · cases unread with
    | nil => exact absurd (List.append_nil line ▸ hsep) hline
    | cons c buffer' =>
      rw [List.cons_append, List.cons.injEq] at hrest
      obtain ⟨rfl, hrest⟩ := hrest
      refine ⟨buffer', ?_, hrest.symm, ?_⟩
      · unfold readLine
        rw [if_pos hsep, List.takeWhile_append_of_pos hwhile, List.dropWhile_append_of_pos hwhile,
          List.takeWhile_cons_of_neg (by simp), List.dropWhile_cons_of_neg (by simp), List.append_nil,
          List.tail_cons]
      · rw [List.length_append, List.length_cons]
        omega

theorem readLine_spec_buffered {pieces : List (List α)} (h : Reader.At all m count ⟨buffer, pieces⟩)
    (hsep : sep ∈ buffer) (read : List α) {line rest : List α} (hline : sep ∉ line)
    (htext : buffer ++ pieces.flatten = line ++ sep :: rest) :
    ∃ r' m', readLine sep read buffer pieces = (some (read ++ line), r') ∧
      r'.buffer ++ r'.pieces.flatten = rest ∧ r'.At all m' (count + line.length + 1) ∧
      (all.take (m' - 1)).flatten.length < count + line.length + 1 := by
  have hlength : count + buffer.length = (all.take m).flatten.length := h.length_eq
  have hbefore := h.before_le
  obtain ⟨buffer', hread, hrest, hbuffer⟩ := readLine_buffered hsep hline htext read pieces
  refine ⟨_, m, hread, hrest, ⟨h.pieces_eq, ?_, ?_⟩, ?_⟩
  · simp only
    omega
  · omega
  · omega

/-- The next line is returned, and a piece that the reader has taken for it is begun. -/
theorem readLine_spec {pieces : List (List α)} (h : Reader.At all m count ⟨buffer, pieces⟩)
    (read : List α) {line rest : List α} (hline : sep ∉ line)
    (htext : buffer ++ pieces.flatten = line ++ sep :: rest) :
    ∃ r' m', readLine sep read buffer pieces = (some (read ++ line), r') ∧
      r'.buffer ++ r'.pieces.flatten = rest ∧ r'.At all m' (count + line.length + 1) ∧
      (all.take (m' - 1)).flatten.length < count + line.length + 1 := by
  induction pieces generalizing m count read buffer line with
  | nil =>
    have hbuffer : buffer = line ++ sep :: rest := by rwa [List.flatten_nil, List.append_nil] at htext
    have hsep : sep ∈ buffer := hbuffer ▸ List.mem_append_right line List.mem_cons_self
    exact readLine_spec_buffered h hsep read hline htext
  | cons piece pieces ih =>
    by_cases hsep : sep ∈ buffer
    · exact readLine_spec_buffered h hsep read hline htext
    · rw [List.flatten_cons] at htext
      obtain ⟨line', rfl, htail⟩ := exists_rest_of_line hsep htext
      obtain ⟨r', m', hread, hrest, hat', hbegun⟩ := ih h.refill (read ++ buffer)
        (fun hmem => hline (List.mem_append_right buffer hmem)) htail
      refine ⟨r', m', ?_, hrest, ?_, ?_⟩
      · unfold readLine
        rw [if_neg hsep, ← List.append_assoc]
        exact hread
      · rw [List.length_append, ← Nat.add_assoc]
        exact hat'
      · rw [List.length_append, ← Nat.add_assoc]
        exact hbegun

theorem readLine_nil {pieces : List (List α)} (htext : pieces.flatten = []) :
    readLine sep [] [] pieces = (none, ⟨[], []⟩) := by
  induction pieces with
  | nil => rfl
  | cons piece pieces ih =>
    rw [List.flatten_cons, List.append_eq_nil_iff] at htext
    obtain ⟨rfl, htext⟩ := htext
    unfold readLine
    rw [if_neg List.not_mem_nil]
    exact ih htext

end Positions

end Jp4Tools.LineReaders
