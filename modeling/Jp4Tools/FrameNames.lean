import Jp4Tools.MovieConversion

/-!
# Names of frame files

`main` first prints the output prefix into four formats, and then the frame count into these. The
format reads the frame count, a `long`, with `%06d`.
-/

namespace Jp4Tools.FrameNames
open MachineIntegers Printf MovieConversion

def posixPathMax : ℕ := 256

/-- The array `jp4FilenameFmt`, and its siblings for the other extensions. -/
def filenameFmt (other : List Char → List Char) (frameName extension : List Char) : List Char :=
  snprintf other posixPathMax (['%', 's', '-', '%', '%', '0', '6', 'd'] ++ extension)
    [.string frameName]

def filename (other : List Char → List Char) (frameName extension : List Char) (countFrame : ℤ) :
    List Char :=
  snprintf other posixPathMax (filenameFmt other frameName extension) [.integer countFrame]

def jp4Extension : List Char := ['.', 'j', 'p', '4']

def outputExtension : OutputFormat → List Char
  | .dng => ['.', 'd', 'n', 'g']
  | .pgm => ['.', 'p', 'g', 'm']
  | .jpeg => ['.', 'j', 'p', 'e', 'g']

def filenames (other : List Char → List Char) (frameName : List Char) (countFrame : ℤ) : FileNames where
  jp4 := filename other frameName jp4Extension countFrame
  output := fun f => filename other frameName (outputExtension f) countFrame

/-- The documented name: the prefix, a hyphen, and the number with at least six digits. -/
def numberedName (frameName extension : List Char) (number : ℤ) : List Char :=
  frameName ++ '-' :: (zeroPadded 6 number ++ extension)

def numberedNames (frameName : List Char) (number : ℤ) : FileNames where
  jp4 := numberedName frameName jp4Extension number
  output := fun f => numberedName frameName (outputExtension f) number

/-- A prefix without percent sign whose formats fit the buffers. -/
structure OutputPrefix where
  frameName : List Char
  percentFree : '%' ∉ frameName
  length_lt : frameName.length + 10 < posixPathMax

/-- What is printed of a format: the prefix, whatever it contains, and the conversion of the frame
number. -/
theorem printf_filenameFmt (other : List Char → List Char) (frameName : List Char)
    {extension : List Char} (hpercent : '%' ∉ extension) :
    printf other (['%', 's', '-', '%', '%', '0', '6', 'd'] ++ extension) [.string frameName] =
      frameName ++ ('-' :: '%' :: '0' :: '6' :: 'd' :: extension) := by
  simp [printf, printf_text hpercent]

theorem filenameFmt_text (other : List Char → List Char) {frameName extension : List Char}
    (hpercent : '%' ∉ extension) (hfits : frameName.length + 5 + extension.length < posixPathMax) :
    filenameFmt other frameName extension =
      frameName ++ ('-' :: '%' :: '0' :: '6' :: 'd' :: extension) := by
  have hfmt := printf_filenameFmt other frameName hpercent
  rw [filenameFmt, snprintf_of_length_lt, hfmt]
  rw [hfmt]
  simp only [List.length_append, List.length_cons]
  omega

section Names
variable {other : List Char → List Char} (p : OutputPrefix) {extension : List Char}

theorem filenameFmt_eq (hlen : extension.length ≤ 5) (hpercent : '%' ∉ extension) :
    filenameFmt other p.frameName extension =
      p.frameName ++ ('-' :: '%' :: '0' :: '6' :: 'd' :: extension) := by
  have hfits := p.length_lt
  exact filenameFmt_text other hpercent (by omega)

/-- The names that `main` builds carry the frame count as an `int`, and end with the buffer. -/
theorem filename_eq_take (hlen : extension.length ≤ 5) (hpercent : '%' ∉ extension)
    (countFrame : ℤ) : filename other p.frameName extension countFrame =
      (numberedName p.frameName extension (i32 countFrame)).take 255 := by
  have hname : printf other (p.frameName ++ ('-' :: '%' :: '0' :: '6' :: 'd' :: extension))
      [.integer countFrame] = numberedName p.frameName extension (i32 countFrame) := by
    rw [printf_append p.percentFree, printf_cons (by decide)]
    simp only [printf, printf_text hpercent]
    rfl
  rw [filename, filenameFmt_eq p hlen hpercent, snprintf, hname]
  rfl

theorem filename_eq (hlen : extension.length ≤ 5) (hpercent : '%' ∉ extension) {number : ℤ}
    (hnonneg : 0 ≤ number) (hlt : number < 2 ^ 31)
    (hfits : (numberedName p.frameName extension number).length < posixPathMax) :
    filename other p.frameName extension number = numberedName p.frameName extension number := by
  rw [filename_eq_take p hlen hpercent, i32_of_small (by omega) hlt]
  exact List.take_of_length_le (Nat.le_of_lt_succ hfits)

/-- A number beyond `int` is printed as another number. -/
theorem filename_ne (hlen : extension.length ≤ 5) (hpercent : '%' ∉ extension)
    (hdot : ∃ rest, extension = '.' :: rest) {number : ℤ} (hlarge : 2 ^ 31 ≤ number) :
    filename other p.frameName extension number ≠ numberedName p.frameName extension number := by
  intro heq
  obtain ⟨rest, hrest⟩ := hdot
  rw [filename_eq_take p hlen hpercent] at heq
  -- The documented name is a prefix of the one that is printed, up to the first dot at least.
  have hprefix := List.take_prefix 255 (numberedName p.frameName extension (i32 number))
  rw [heq] at hprefix
  obtain ⟨behind, hbehind⟩ := hprefix
  rw [numberedName, numberedName, List.append_assoc, List.cons_append, List.append_assoc] at hbehind
  have hnumber := (List.cons.inj (List.append_cancel_left hbehind)).2
  rw [hrest, List.cons_append] at hnumber
  have hdigits := congrArg (fun name => name.takeWhile (fun c => decide (c ≠ '.'))) hnumber
  simp only [takeWhile_zeroPadded] at hdigits
  have hint : number = i32 number := zeroPadded_injective hdigits
  have hlt := i32_lt number
  omega

end Names

theorem numberedName_getLast? (frameName : List Char) {extension : List Char} (number : ℤ)
    (h : extension ≠ []) :
    (numberedName frameName extension number).getLast? = extension.getLast? := by
  rw [numberedName, ← List.cons_append, ← List.append_assoc, List.getLast?_append,
    List.getLast?_eq_some_getLast h, Option.some_or]

theorem numberedName_jp4_ne (frameName : List Char) (number number' : ℤ) (f : OutputFormat) :
    numberedName frameName jp4Extension number ≠
      numberedName frameName (outputExtension f) number' := by
  intro h
  have hlast := congrArg List.getLast? h
  have hne : outputExtension f ≠ [] := by cases f <;> decide
  rw [numberedName_getLast? _ _ (by decide), numberedName_getLast? _ _ hne] at hlast
  revert hlast
  cases f <;> decide

end Jp4Tools.FrameNames
