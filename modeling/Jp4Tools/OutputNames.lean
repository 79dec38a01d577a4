import Jp4Tools.FrameNames

/-!
# Output names and the formats they go through

The output prefix is the user's text, and becomes a part of a format. A percent sign in it is taken
for a conversion there: the frame number is used up too early, or the prefix is changed. Without
percent signs a name is the prefix and the number, and no two numbers share a name.
-/

namespace Jp4Tools.OutputNames
open MachineIntegers Printf MovieConversion FrameNames

def extensions : List (List Char) :=
  [jp4Extension, outputExtension .jpeg, outputExtension .dng, outputExtension .pgm]

def frameFiles (names : FileNames) : List (List Char) :=
  [names.jp4, names.output .jpeg, names.output .dng, names.output .pgm]

/-- The conversions that `printf` meets in a format. Of one whose text is left open, only the percent
sign is given. -/
def conversions : List Char → List (List Char)
  | [] => []
  | '%' :: '%' :: fmt => ['%', '%'] :: conversions fmt
  | '%' :: 's' :: fmt => ['%', 's'] :: conversions fmt
  | '%' :: '0' :: width :: 'd' :: fmt =>
    if width.isDigit then ['%', '0', width, 'd'] :: conversions fmt
    else ['%'] :: conversions ('0' :: width :: 'd' :: fmt)
  | '%' :: fmt => ['%'] :: conversions fmt
  | _ :: fmt => conversions fmt

/-- The output prefix of a run that names at least one frame, where the documented names fit the
buffers. -/
structure NamedRun where
  frameName : List Char
  firstNumber : ℕ
  frameCount : ℕ
  frameCount_pos : 0 < frameCount
  fits : ∀ number < firstNumber + frameCount, ∀ extension ∈ extensions,
    (numberedName frameName extension number).length < posixPathMax

/-- Whatever other conversions print, the names of a run are the documented ones, those of two
frames differ, and the formats have the conversion of the frame number and no other. -/
structure NamesDocumented (r : NamedRun) : Prop where
  exact : ∀ other, ∀ number, r.firstNumber ≤ number → number < r.firstNumber + r.frameCount →
    filenames other r.frameName number = numberedNames r.frameName number
  distinct : ∀ other, ∀ number number', r.firstNumber ≤ number → number < number' →
    number' < r.firstNumber + r.frameCount →
    List.Disjoint (frameFiles (filenames other r.frameName number))
      (frameFiles (filenames other r.frameName number'))
  interpreted : ∀ other, ∀ extension ∈ extensions,
    conversions (filenameFmt other r.frameName extension) = [['%', '0', '6', 'd']]

section Formats
variable {other : List Char → List Char}

theorem printf_percent (fmt : List Char) (n : ℤ) :
    (∃ fmt', fmt = '%' :: fmt' ∧
        printf other ('%' :: fmt) [.integer n] = '%' :: printf other fmt' [.integer n]) ∨
      (∃ width fmt', printf other ('%' :: fmt) [.integer n] =
        zeroPadded width (i32 n) ++ printf other fmt' []) ∨
      printf other ('%' :: fmt) [.integer n] = other fmt := by
  rw [printf.eq_def]
  split
  · exact absurd ‹ '%' :: fmt = []› (List.cons_ne_nil _ _)
  · cases ‹ '%' :: fmt = '%' :: '%' :: _›
    exact Or.inl ⟨_, rfl, rfl⟩
  · cases ‹[Argument.integer n] = Argument.string _ :: _›
  · cases ‹ '%' :: fmt = '%' :: '0' :: _ :: 'd' :: _›
    cases ‹[Argument.integer n] = Argument.integer _ :: _›
    split_ifs
    · exact Or.inr (Or.inl ⟨_, _, rfl⟩)
    · exact Or.inr (Or.inr rfl)
  · cases ‹ '%' :: fmt = '%' :: _›
    exact Or.inr (Or.inr rfl)
  · cases ‹ '%' :: fmt = _ :: _›
    exact absurd rfl ‹ '%' = '%' → False›

theorem replicate_percent (k : ℕ) (rest : List Char) :
    List.replicate k '%' ++ '%' :: rest = '%' :: (List.replicate k '%' ++ rest) := by
  induction k with
  | zero => rfl
  | succ k ih => rw [List.replicate_succ, List.cons_append, ih, List.cons_append]

theorem zeroPadded_head_ne {width : ℕ} {x : ℤ} (out rest : List Char) (size : ℕ) :
    (zeroPadded width x ++ out).take (size + 1) ≠ '%' :: rest := by
  intro h
  cases hnumber : zeroPadded width x with
  | nil => exact zeroPadded_ne_nil width x hnumber
  | cons c digits =>
    rw [hnumber, List.cons_append, List.take_succ_cons] at h
    have hmem : c ∈ zeroPadded width x := hnumber ▸ List.mem_cons_self
    rw [(List.cons.inj h).1] at hmem
    rcases mem_zeroPadded hmem with hc | hc
    · exact absurd hc (by decide)
    · exact absurd hc (by decide)

/-- When other conversions print nothing, a percent sign in the prefix spoils the name. In front
of the rest there are `k` percent signs that are still to be matched. -/
theorem take_printf_ne (n : ℤ) (fmt name : List Char) : ∀ (frameName : List Char) (k size : ℕ),
    0 < k ∨ '%' ∈ frameName → k + frameName.length + name.length < size →
    (printf (fun _ => []) (frameName ++ '-' :: fmt) [.integer n]).take size ≠
      List.replicate k '%' ++ (frameName ++ '-' :: name)
  | [], k, size, h, hsize, heq => by
    obtain ⟨k, rfl⟩ : ∃ j, k = j + 1 := ⟨k - 1, by simp at h; omega⟩
    obtain ⟨size, rfl⟩ : ∃ j, size = j + 1 := ⟨size - 1, by omega⟩
    rw [List.nil_append, printf_cons (by decide), List.take_succ_cons, List.replicate_succ,
      List.cons_append] at heq
    exact absurd (List.cons.inj heq).1 (by decide)
  | c :: frameName, k, size, h, hsize, heq => by
    obtain ⟨size, rfl⟩ : ∃ j, size = j + 1 := ⟨size - 1, by omega⟩
    rw [List.length_cons] at hsize
    rw [List.cons_append, List.cons_append] at heq
    by_cases hc : c = '%'
    · subst hc
      rw [replicate_percent] at heq
      rcases @printf_percent (fun _ => []) (frameName ++ '-' :: fmt) n with
        ⟨fmt', htext, hprint⟩ | ⟨width, fmt', hprint⟩ | hprint
      · cases frameName with
        | nil => exact absurd (List.cons.inj htext).1 (by decide)
        | cons d frameName =>
          -- A doubled percent sign is printed once, so that one more is waiting.
          obtain ⟨rfl, rfl⟩ := List.cons.inj htext
          rw [hprint, List.take_succ_cons, List.cons_append, replicate_percent] at heq
          rw [List.length_cons] at hsize
          exact take_printf_ne n fmt name frameName (k + 1) size (Or.inl (Nat.succ_pos k)) (by omega)
            (List.cons.inj heq).2
      · rw [hprint] at heq
        exact zeroPadded_head_ne _ _ size heq
      · rw [hprint, List.take_nil] at heq
        exact List.cons_ne_nil _ _ heq.symm
    · rw [printf_cons hc, List.take_succ_cons] at heq
      cases k with
      | zero =>
        have hmem : '%' ∈ frameName := by
          rcases h with h | h
          · omega
          · exact (List.mem_cons.mp h).resolve_left (fun heq => hc heq.symm)
        exact take_printf_ne n fmt name frameName 0 size (Or.inr hmem) (by omega) (List.cons.inj heq).2
      | succ k =>
        rw [List.replicate_succ, List.cons_append] at heq
        exact hc (List.cons.inj heq).1

theorem conversions_cons {c : Char} (hc : c ≠ '%') (fmt : List Char) :
    conversions (c :: fmt) = conversions fmt := by
  rw [conversions] <;> simp [hc]

theorem conversions_append {text : List Char} (h : '%' ∉ text) (fmt : List Char) :
    conversions (text ++ fmt) = conversions fmt := by
  induction text with
  | nil => rfl
  | cons c text ih =>
    have hc : c ≠ '%' := fun hc => h (hc ▸ List.mem_cons_self)
    have htail := ih (fun hmem => h (List.mem_cons_of_mem c hmem))
    rw [List.cons_append, conversions_cons hc, htail]

end Formats

section Names
variable {other : List Char → List Char} {frameName extension : List Char}

theorem extension_spec (h : extension ∈ extensions) :
    extension.length ≤ 5 ∧ '%' ∉ extension ∧ ∃ rest, extension = '.' :: rest := by
  have hall : ∀ extension ∈ extensions, extension.length ≤ 5 ∧ '%' ∉ extension ∧
      extension = '.' :: extension.tail := by decide
  obtain ⟨hlen, hpercent, hdot⟩ := hall extension h
  exact ⟨hlen, hpercent, _, hdot⟩

theorem filenames_eq_iff (number : ℤ) :
    filenames other frameName number = numberedNames frameName number ↔
      ∀ extension ∈ extensions,
        filename other frameName extension number = numberedName frameName extension number := by
  constructor
  · intro h extension hextension
    have hjp4 := congrArg FileNames.jp4 h
    have houtput := fun f => congrFun (congrArg FileNames.output h) f
    simp only [extensions, List.mem_cons, List.not_mem_nil, or_false] at hextension
    rcases hextension with rfl | rfl | rfl | rfl
    · exact hjp4
    · exact houtput .jpeg
    · exact houtput .dng
    · exact houtput .pgm
  · intro h
    have hjp4 := h jp4Extension (by decide)
    have houtput : ∀ f, filename other frameName (outputExtension f) number =
        numberedName frameName (outputExtension f) number := by
      intro f
      cases f <;> exact h _ (by decide)
    rw [filenames, numberedNames, hjp4]
    exact congrArg (FileNames.mk _) (funext houtput)

theorem numberedName_injective {extension' : List Char} {x y : ℤ} (h : extension ∈ extensions)
    (h' : extension' ∈ extensions)
    (heq : numberedName frameName extension x = numberedName frameName extension' y) : x = y := by
  obtain ⟨-, -, rest, rfl⟩ := extension_spec h
  obtain ⟨-, -, rest', rfl⟩ := extension_spec h'
  have hnumber := (List.cons.inj (List.append_cancel_left heq)).2
  have hdigits := congrArg (fun name => name.takeWhile (fun c => decide (c ≠ '.'))) hnumber
  simp only [takeWhile_zeroPadded] at hdigits
  exact zeroPadded_injective hdigits

theorem mem_frameFiles {name : List Char} {number : ℤ}
    (h : name ∈ frameFiles (numberedNames frameName number)) :
    ∃ extension ∈ extensions, name = numberedName frameName extension number := by
  simp only [frameFiles, numberedNames, List.mem_cons, List.not_mem_nil, or_false] at h
  rcases h with rfl | rfl | rfl | rfl
  · exact ⟨_, by decide, rfl⟩
  · exact ⟨_, by decide, rfl⟩
  · exact ⟨_, by decide, rfl⟩
  · exact ⟨_, by decide, rfl⟩

end Names

section Runs
variable (r : NamedRun)

theorem NamedRun.length_lt : r.frameName.length + 12 < posixPathMax := by
  have hfirst := r.fits r.firstNumber (Nat.lt_add_of_pos_right r.frameCount_pos)
    (outputExtension .jpeg) (by decide)
  have hjpeg : (outputExtension .jpeg).length = 5 := rfl
  have hdigits : 6 ≤ (zeroPadded 6 (r.firstNumber : ℤ)).length := by
    rw [zeroPadded_natCast, paddedDigits, List.length_append, List.length_replicate]
    omega
  rw [numberedName, List.length_append, List.length_cons, List.length_append, hjpeg] at hfirst
  omega

def NamedRun.outputPrefix (h : '%' ∉ r.frameName) : OutputPrefix where
  frameName := r.frameName
  percentFree := h
  length_lt := by
    have := r.length_lt
    omega

theorem NamedRun.exact_of_percentFree (h : '%' ∉ r.frameName)
    (hint : r.firstNumber + r.frameCount ≤ 2 ^ 31) (other : List Char → List Char) (number : ℕ)
    (hnumber : number < r.firstNumber + r.frameCount) :
    filenames other r.frameName number = numberedNames r.frameName number := by
  rw [filenames_eq_iff]
  intro extension hextension
  obtain ⟨hlen, hpercent, -⟩ := extension_spec hextension
  exact filename_eq (r.outputPrefix h) hlen hpercent (Int.natCast_nonneg _) (by omega)
    (r.fits number hnumber extension hextension)

theorem NamedRun.percentFree_of_exact
    (h : filenames (fun _ => []) r.frameName r.firstNumber = numberedNames r.frameName r.firstNumber) :
    '%' ∉ r.frameName := by
  intro hmem
  have hfits := r.length_lt
  have hfirst := r.fits r.firstNumber (Nat.lt_add_of_pos_right r.frameCount_pos) jp4Extension (by decide)
  have hname := (filenames_eq_iff _).mp h jp4Extension (by decide)
  have hjp4 : jp4Extension.length = 4 := rfl
  rw [numberedName, List.length_append, List.length_cons] at hfirst
  rw [filename, filenameFmt_text _ (by decide) (by omega), snprintf] at hname
  exact take_printf_ne _ _ (zeroPadded 6 r.firstNumber ++ jp4Extension) r.frameName 0
    (posixPathMax - 1) (Or.inr hmem) (by omega) hname

end Runs

/-- The names of a run are the documented ones exactly when the prefix has no percent sign and the
numbers are `int`s. -/
theorem names_documented_iff (r : NamedRun) :
    NamesDocumented r ↔ '%' ∉ r.frameName ∧ r.firstNumber + r.frameCount ≤ 2 ^ 31 := by
  have hpos := r.frameCount_pos
  constructor
  · intro h
    have hpercent := r.percentFree_of_exact (h.exact _ r.firstNumber le_rfl (by omega))
    refine ⟨hpercent, ?_⟩
    by_contra hlarge
    have hlast := h.exact (fun _ => []) (r.firstNumber + r.frameCount - 1) (by omega) (by omega)
    have hname := (filenames_eq_iff _).mp hlast jp4Extension (by decide)
    exact filename_ne (r.outputPrefix hpercent) (by decide) (by decide) ⟨_, rfl⟩ (by omega) hname
  · intro ⟨hpercent, hint⟩
    refine ⟨?_, ?_, ?_⟩
    · intro other number _ hnumber
      exact r.exact_of_percentFree hpercent hint other number hnumber
    · intro other number number' _ hlt hnumber' name hname hname'
      rw [r.exact_of_percentFree hpercent hint other number (by omega)] at hname
      rw [r.exact_of_percentFree hpercent hint other number' hnumber'] at hname'
      obtain ⟨extension, hextension, rfl⟩ := mem_frameFiles hname
      obtain ⟨extension', hextension', heq⟩ := mem_frameFiles hname'
      have hnumbers := numberedName_injective hextension hextension' heq
      omega
    · intro other extension hextension
      obtain ⟨hlen, hpercent', -⟩ := extension_spec hextension
      have hfits := r.length_lt
      have hplain : conversions extension = [] := by
        have happend := conversions_append hpercent' []
        rwa [List.append_nil] at happend
      rw [filenameFmt_text other hpercent' (by omega), conversions_append hpercent,
        conversions_cons (by decide), conversions, hplain, if_pos (by decide)]

/-- The prefix of the README's example uses the number up before the name gets to it. -/
theorem readme_name_not_documented : ¬ ∀ r : NamedRun, NamesDocumented r := by
  intro h
  let r : NamedRun :=
    { frameName := "my-dng-frame-%05d".toList
      firstNumber := 1
      frameCount := 1
      frameCount_pos := by decide
      fits := by decide }
  have hexact := (h r).exact (fun _ => []) 1 le_rfl (by decide)
  exact r.percentFree_of_exact hexact (by decide)

end Jp4Tools.OutputNames
