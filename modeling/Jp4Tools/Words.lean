import Mathlib.Data.List.Basic

/-!
# Words between separators

A text is split at separators into its words, the pieces between them that are not empty. A printer
that puts a separator behind each word it writes is read back word by word.
-/

namespace Jp4Tools.Words

variable {α β : Type*} {sep : α → Bool}

def words (sep : α → Bool) (text : List α) : List (List α) :=
  (text.splitOnP sep).filter (fun word => !word.isEmpty)

theorem sep_of_all {text : List α} (h : text.all (fun c => !sep c) = true) : ∀ c ∈ text, sep c = false := by
  intro c hc
  simpa using List.all_eq_true.mp h c hc

@[simp] theorem words_nil : words sep [] = [] := rfl

theorem words_cons_sep {c : α} (hc : sep c = true) (text : List α) : words sep (c :: text) = words sep text := by
  rw [words, List.splitOnP_cons_eq_if_modifyHead, if_pos hc]
  rfl

/-- A word ends at the first separator behind it. -/
theorem words_append_cons {word : List α} (hword : ∀ c ∈ word, sep c = false) (hne : word ≠ []) {c : α}
    (hc : sep c = true) (text : List α) : words sep (word ++ c :: text) = word :: words sep text := by
  rw [words, List.splitOnP_append_cons_of_forall_mem hword c hc, List.filter_cons_of_pos (by simp [hne])]
  rfl

theorem words_eq_singleton {word : List α} (hword : ∀ c ∈ word, sep c = false) (hne : word ≠ []) :
    words sep word = [word] := by
  rw [words, List.splitOnP_eq_singleton hword, List.filter_cons_of_pos (by simp [hne]), List.filter_nil]

/-- What is printed piece by piece is read piece by piece. -/
theorem words_flatMap {print : β → List α} {l : List β} (read : β → List (List α))
    (h : ∀ b ∈ l, ∀ text, words sep (print b ++ text) = read b ++ words sep text) (text : List α) :
    words sep (l.flatMap print ++ text) = l.flatMap read ++ words sep text := by
  induction l with
  | nil => rfl
  | cons b l ih =>
    have htail := ih (fun b' hb' => h b' (List.mem_cons_of_mem b hb'))
    rw [List.flatMap_cons, List.flatMap_cons, List.append_assoc, List.append_assoc,
      h b List.mem_cons_self, htail]

/-- A piece of a longer text is a piece of the text behind the first character, or begins with it. -/
private theorem piece_cases {c : α} {text piece : List α} (h : piece ∈ (c :: text).splitOnP sep) :
    piece = [] ∨ piece ∈ text.splitOnP sep ∨ sep c = false ∧ ∃ first ∈ text.splitOnP sep, piece = c :: first := by
  rw [List.splitOnP_cons_eq_if_modifyHead] at h
  split_ifs at h with hc
  · rcases List.mem_cons.mp h with rfl | h
    · exact Or.inl rfl
    · exact Or.inr (Or.inl h)
  · obtain ⟨first, rest, hsplit⟩ := List.exists_cons_of_ne_nil (List.splitOnP_ne_nil sep text)
    rw [hsplit, List.modifyHead_cons] at h
    rw [hsplit]
    rcases List.mem_cons.mp h with rfl | h
    · exact Or.inr (Or.inr ⟨by simpa using hc, first, List.mem_cons_self, rfl⟩)
    · exact Or.inr (Or.inl (List.mem_cons_of_mem first h))

theorem sep_of_mem_words {text word : List α} (hword : word ∈ words sep text) : ∀ c ∈ word, sep c = false := by
  have hpiece := List.mem_of_mem_filter hword
  clear hword
  induction text generalizing word with
  | nil =>
    rw [List.splitOnP_nil, List.mem_singleton] at hpiece
    simp [hpiece]
  | cons c text ih =>
    rcases piece_cases hpiece with rfl | hpiece | ⟨hc, first, hfirst, rfl⟩
    · simp
    · exact ih hpiece
    · intro c' hc'
      rcases List.mem_cons.mp hc' with rfl | hc'
      · exact hc
      · exact ih hfirst c' hc'

theorem length_le_of_mem_words {text word : List α} (hword : word ∈ words sep text) :
    word.length ≤ text.length := by
  have hpiece := List.mem_of_mem_filter hword
  clear hword
  induction text generalizing word with
  | nil =>
    rw [List.splitOnP_nil, List.mem_singleton] at hpiece
    simp [hpiece]
  | cons c text ih =>
    rcases piece_cases hpiece with rfl | hpiece | ⟨hc, first, hfirst, rfl⟩
    · simp
    · exact Nat.le_succ_of_le (ih hpiece)
    · exact Nat.succ_le_succ (ih hfirst)

end Jp4Tools.Words
