import Mathlib.Data.List.DropRight
import Mathlib.Data.List.Infix
import Mathlib.Data.List.TakeWhile
import Mathlib.Logic.Function.Basic

/-!
# Strings in character arrays

A C string lies in an array and ends with the first NUL character. A `Char` stands for one C char,
so that lengths count bytes. An array has a capacity, and a part that was given a value. The
functions of `<string.h>` and `snprintf` trust the caller: they read on until some NUL character and
write as much as they are told. Their accesses are recorded, and a record is safe when the NUL
character that was read was given, and when what was written fits.
-/

namespace Jp4Tools.CStrings

def nul : Char := Char.ofNat 0

/-- An array: its capacity, the memory from its start on, and how much of that was given a value. -/
structure CharArray where
  capacity : ℕ
  cells : List Char
  given : ℕ

/-- What a function reads that takes the array for a string. -/
def CharArray.text (a : CharArray) : List Char := a.cells.takeWhile (fun c => decide (c ≠ nul))

/-- The end of the string was given. -/
def CharArray.Terminated (a : CharArray) : Prop := nul ∈ a.cells.take a.given

instance (a : CharArray) : Decidable a.Terminated := inferInstanceAs (Decidable (nul ∈ a.cells.take a.given))

/-- The array holds the text, and it was given up to the NUL character behind it. -/
structure CharArray.Holds (a : CharArray) (text : List Char) : Prop where
  nul_notMem : nul ∉ text
  cells_eq : ∃ rest, a.cells = text ++ nul :: rest
  given_lt : text.length < a.given

/-- An access goes to an array, or strays through a number in place of a pointer. -/
inductive Access where
  | read (terminated : Bool)
  | write (stop capacity : ℕ)
  | stray

structure Memory (V : Type*) where
  array : V → CharArray
  accesses : List Access

section Functions
variable {V : Type*} [DecidableEq V]

/-- A string argument: the text that the function sees, and the memory with the access recorded. -/
def readText (v : V) (m : Memory V) : List Char × Memory V :=
  ((m.array v).text,
    { m with accesses := m.accesses ++ [.read (decide (m.array v).Terminated)] })

def readTexts : List V → Memory V → List (List Char) × Memory V
  | [], m => ([], m)
  | v :: vs, m =>
    let (text, m) := readText v m
    let (texts, m) := readTexts vs m
    (text :: texts, m)

def strayIf (strays : Bool) (m : Memory V) : Memory V :=
  { m with accesses := m.accesses ++ if strays then [.stray] else [] }

/-- Consecutive characters are written from position `start` on, at most one behind those given. -/
def writeAt (v : V) (start : ℕ) (chars : List Char) (m : Memory V) : Memory V :=
  let a := m.array v
  { array := Function.update m.array v
      { a with
        cells := a.cells.take start ++ chars ++ a.cells.drop (start + chars.length)
        given := max a.given (start + chars.length) }
    accesses := m.accesses ++ [.write (start + chars.length) a.capacity] }

/-- The function fills the rest of the `n` characters with NUL characters, if there is a rest. -/
def strncpy (dst : V) (src : List Char) (n : ℕ) (m : Memory V) : Memory V :=
  writeAt dst 0 (src.take n ++ List.replicate (n - src.length) nul) m

def strcat (dst : V) (src : List Char) (m : Memory V) : Memory V :=
  let (text, m) := readText dst m
  writeAt dst text.length (src ++ [nul]) m

/-- What `snprintf` does with the text that comes out of the format. -/
def printInto (dst : V) (size : ℕ) (text : List Char) (m : Memory V) : Memory V :=
  writeAt dst 0 (text.take (size - 1) ++ [nul]) m

end Functions

def strrchr (c : Char) : List Char → Option ℕ
  | [] => none
  | d :: text => match strrchr c text with
    | some k => some (k + 1)
    | none => if d = c then some 0 else none

/-- The text in front of the last occurrence of a character, or all of it. -/
def beforeLast (c : Char) (text : List Char) : List Char :=
  match strrchr c text with
  | some k => text.take k
  | none => text

def afterLast (c : Char) (text : List Char) : List Char :=
  match strrchr c text with
  | some k => text.drop (k + 1)
  | none => text

/-- The string is cut by a NUL character at the last occurrence of `c`. -/
def cutAtLast {V : Type*} [DecidableEq V] (v : V) (c : Char) (m : Memory V) : Memory V :=
  let (text, m) := readText v m
  match strrchr c text with
  | some k => writeAt v k [nul] m
  | none => m

/-- The text contains `needle`, which has no capital letters, when case is ignored. -/
def strcasestr (text needle : List Char) : Bool :=
  (text.map Char.toLower).tails.any (fun tail => needle.isPrefixOf tail)

/-- The function `basename` of `<libgen.h>`. -/
def basename (path : List Char) : List Char :=
  if path = [] then ['.']
  else
    let stripped := path.rdropWhile (fun c => decide (c = '/'))
    if stripped = [] then ['/'] else afterLast '/' stripped

section LastOccurrence
variable {c : Char} {text : List Char}

theorem strrchr_eq_none (h : c ∉ text) : strrchr c text = none := by
  induction text with
  | nil => rfl
  | cons d text ih =>
    have htail := ih (fun hmem => h (List.mem_cons_of_mem d hmem))
    have hd : d ≠ c := fun hd => h (hd ▸ List.mem_cons_self)
    rw [strrchr, htail, if_neg hd]

theorem strrchr_append_cons (front : List Char) (h : c ∉ text) :
    strrchr c (front ++ c :: text) = some front.length := by
  induction front with
  | nil =>
    rw [List.nil_append, strrchr, strrchr_eq_none h]
    exact if_pos rfl
  | cons d front ih =>
    rw [List.cons_append, strrchr, ih]
    rfl

theorem exists_last (h : c ∈ text) : ∃ front back, text = front ++ c :: back ∧ c ∉ back := by
  obtain ⟨back, front, hsplit, hback⟩ := List.eq_append_cons_of_mem (List.mem_reverse.mpr h)
  refine ⟨front.reverse, back.reverse, ?_, by rwa [List.mem_reverse]⟩
  have hreverse := congrArg List.reverse hsplit
  rw [List.reverse_reverse, List.reverse_append, List.reverse_cons, List.append_assoc] at hreverse
  exact hreverse

@[simp] theorem beforeLast_append_cons (front : List Char) (h : c ∉ text) :
    beforeLast c (front ++ c :: text) = front := by
  rw [beforeLast, strrchr_append_cons front h]
  exact List.take_left

@[simp] theorem afterLast_append_cons (front : List Char) (h : c ∉ text) :
    afterLast c (front ++ c :: text) = text := by
  rw [afterLast, strrchr_append_cons front h]
  simp only
  rw [← List.drop_drop, List.drop_left]
  rfl

@[simp] theorem beforeLast_of_notMem (h : c ∉ text) : beforeLast c text = text := by
  rw [beforeLast, strrchr_eq_none h]

@[simp] theorem afterLast_of_notMem (h : c ∉ text) : afterLast c text = text := by
  rw [afterLast, strrchr_eq_none h]

theorem beforeLast_isPrefix (c : Char) (text : List Char) : beforeLast c text <+: text := by
  by_cases h : c ∈ text
  · obtain ⟨front, back, rfl, hback⟩ := exists_last h
    rw [beforeLast_append_cons front hback]
    exact List.prefix_append _ _
  · rw [beforeLast_of_notMem h]

theorem beforeLast_length_le (c : Char) (text : List Char) : (beforeLast c text).length ≤ text.length :=
  (beforeLast_isPrefix c text).length_le

end LastOccurrence

theorem strcasestr_iff {text needle : List Char} :
    strcasestr text needle = true ↔ needle <:+: text.map Char.toLower := by
  rw [strcasestr, List.any_eq_true, List.infix_iff_prefix_suffix]
  apply exists_congr
  intro tail
  rw [List.mem_tails, List.isPrefixOf_iff_prefix, and_comm]

section Basename
variable {path : List Char}

theorem afterLast_ne_nil {c : Char} {text : List Char} (hne : text ≠ []) (h : text.getLast hne ≠ c) :
    afterLast c text ≠ [] := by
  by_cases hmem : c ∈ text
  · obtain ⟨front, back, rfl, hback⟩ := exists_last hmem
    rw [afterLast_append_cons front hback]
    rintro rfl
    exact h List.getLast_concat
  · rwa [afterLast_of_notMem hmem]

/-- The last component of a path that does not end with a slash is what stands behind its last slash. -/
theorem basename_eq (h : afterLast '/' path ≠ []) : basename path = afterLast '/' path := by
  have hne : path ≠ [] := by
    rintro rfl
    exact h rfl
  have hlast : path.getLast hne ≠ '/' := by
    intro hslash
    apply h
    rw [← List.dropLast_append_getLast hne, hslash]
    exact afterLast_append_cons _ List.not_mem_nil
  have hstripped : path.rdropWhile (fun c => decide (c = '/')) = path := by
    rw [List.rdropWhile_eq_self_iff]
    intro _
    rwa [decide_eq_true_eq]
  simp only [basename, hstripped, if_neg hne]

theorem basename_ne_nil (path : List Char) : basename path ≠ [] := by
  simp only [basename]
  split_ifs with hne hstripped
  · exact List.cons_ne_nil _ _
  · exact List.cons_ne_nil _ _
  · apply afterLast_ne_nil hstripped
    have hlast := List.rdropWhile_last_not _ _ hstripped
    rwa [decide_eq_true_eq] at hlast

theorem afterLast_suffix (c : Char) (text : List Char) : afterLast c text <:+ text := by
  by_cases h : c ∈ text
  · obtain ⟨front, back, rfl, hback⟩ := exists_last h
    rw [afterLast_append_cons front hback]
    exact ⟨front ++ [c], by simp⟩
  · rw [afterLast_of_notMem h]

theorem nul_notMem_basename (h : nul ∉ path) : nul ∉ basename path := by
  simp only [basename]
  split_ifs
  · decide
  · decide
  · intro hmem
    exact h ((List.rdropWhile_prefix _ _).subset ((afterLast_suffix _ _).subset hmem))

end Basename

section Arrays
variable {a : CharArray} {text : List Char}

theorem CharArray.Holds.text_eq (h : a.Holds text) : a.text = text := by
  obtain ⟨rest, hcells⟩ := h.cells_eq
  have hall : ∀ c ∈ text, decide (c ≠ nul) = true := by
    intro c hc
    rw [decide_eq_true_eq]
    rintro rfl
    exact h.nul_notMem hc
  rw [CharArray.text, hcells, List.takeWhile_append_of_pos hall,
    List.takeWhile_cons_of_neg (by simp), List.append_nil]

theorem CharArray.Holds.terminated (h : a.Holds text) : a.Terminated := by
  obtain ⟨rest, hcells⟩ := h.cells_eq
  rw [CharArray.Terminated, hcells, List.take_append, List.mem_append]
  obtain ⟨k, hk⟩ := Nat.exists_eq_add_of_lt h.given_lt
  refine Or.inr ?_
  rw [hk, Nat.add_assoc, Nat.add_sub_cancel_left, List.take_succ_cons]
  exact List.mem_cons_self

end Arrays

section Memory
variable {V : Type*} [DecidableEq V] {m : Memory V} {v w : V} {text : List Char}

omit [DecidableEq V] in
@[simp] theorem readText_fst : (readText v m).1 = (m.array v).text := rfl

omit [DecidableEq V] in
@[simp] theorem readText_array : (readText v m).2.array = m.array := rfl

@[simp] theorem writeAt_other (h : w ≠ v) (start : ℕ) (chars : List Char) :
    (writeAt v start chars m).array w = m.array w :=
  Function.update_of_ne h _ _

@[simp] theorem writeAt_capacity (start : ℕ) (chars : List Char) (w : V) :
    ((writeAt v start chars m).array w).capacity = (m.array w).capacity := by
  by_cases h : w = v
  · subst h
    simp only [writeAt, Function.update_self]
  · rw [writeAt_other h]

omit [DecidableEq V] in
@[simp] theorem readTexts_array (vs : List V) : (readTexts vs m).2.array = m.array := by
  induction vs generalizing m with
  | nil => rfl
  | cons v vs ih => exact ih

omit [DecidableEq V] in
@[simp] theorem readTexts_fst (vs : List V) :
    (readTexts vs m).1 = vs.map (fun v => (m.array v).text) := by
  induction vs generalizing m with
  | nil => rfl
  | cons v vs ih => exact congrArg _ ih

theorem writeAt_start_holds (h : nul ∉ text) (rest : List Char) :
    ((writeAt v 0 (text ++ nul :: rest) m).array v).Holds text where
  nul_notMem := h
  cells_eq := ⟨rest ++ (m.array v).cells.drop (0 + (text ++ nul :: rest).length), by
    simp only [writeAt, Function.update_self, List.take_zero, List.nil_append, List.append_assoc,
      List.cons_append]⟩
  given_lt := by
    simp only [writeAt, Function.update_self, List.length_append, List.length_cons]
    omega

theorem writeAt_end_holds (h : (m.array v).Holds text) {src : List Char} (hsrc : nul ∉ src) :
    ((writeAt v text.length (src ++ [nul]) m).array v).Holds (text ++ src) where
  nul_notMem := by
    rw [List.mem_append, not_or]
    exact ⟨h.nul_notMem, hsrc⟩
  cells_eq := by
    obtain ⟨rest, hcells⟩ := h.cells_eq
    refine ⟨(m.array v).cells.drop (text.length + (src ++ [nul]).length), ?_⟩
    simp only [writeAt, Function.update_self, hcells, List.take_left, List.append_assoc,
      List.cons_append, List.nil_append]
  given_lt := by
    simp only [writeAt, Function.update_self, List.length_append, List.length_singleton]
    omega

/-- A string is cut where a NUL character is written into it. -/
theorem writeAt_cut_holds (h : (m.array v).Holds text) {k : ℕ} (hk : k ≤ text.length) :
    ((writeAt v k [nul] m).array v).Holds (text.take k) where
  nul_notMem := fun hmem => h.nul_notMem (List.mem_of_mem_take hmem)
  cells_eq := by
    obtain ⟨rest, hcells⟩ := h.cells_eq
    refine ⟨(m.array v).cells.drop (k + [nul].length), ?_⟩
    simp only [writeAt, Function.update_self, hcells, List.take_append_of_le_length hk,
      List.append_assoc, List.cons_append, List.nil_append]
  given_lt := by
    simp only [writeAt, Function.update_self, List.length_take, List.length_singleton]
    omega

@[simp] theorem strncpy_other (h : w ≠ v) (src : List Char) (n : ℕ) :
    (strncpy v src n m).array w = m.array w := writeAt_other h _ _

theorem strncpy_holds {src : List Char} {n : ℕ} (h : nul ∉ src) (hn : src.length < n) :
    ((strncpy v src n m).array v).Holds src := by
  obtain ⟨k, rfl⟩ := Nat.exists_eq_add_of_lt hn
  have hpad : src.length + k + 1 - src.length = k + 1 := by omega
  rw [strncpy, List.take_of_length_le (by omega), hpad, List.replicate_succ]
  exact writeAt_start_holds h _

theorem strcat_holds (h : (m.array v).Holds text) {src : List Char} (hsrc : nul ∉ src) :
    ((strcat v src m).array v).Holds (text ++ src) := by
  have hread : ((readText v m).2.array v).Holds text := h
  have hwrite := writeAt_end_holds hread hsrc
  rwa [← h.text_eq] at hwrite ⊢

@[simp] theorem printInto_other (h : w ≠ v) (size : ℕ) (text : List Char) :
    (printInto v size text m).array w = m.array w := writeAt_other h _ _

@[simp] theorem printInto_capacity (size : ℕ) (text : List Char) (w : V) :
    ((printInto v size text m).array w).capacity = (m.array w).capacity := writeAt_capacity _ _ _

theorem printInto_holds (h : nul ∉ text) (size : ℕ) :
    ((printInto v size text m).array v).Holds (text.take (size - 1)) :=
  writeAt_start_holds (fun hmem => h (List.mem_of_mem_take hmem)) []

@[simp] theorem cutAtLast_other (h : w ≠ v) (c : Char) :
    (cutAtLast v c m).array w = m.array w := by
  simp only [cutAtLast]
  split
  · exact writeAt_other h _ _
  · rfl

theorem cutAtLast_holds (h : (m.array v).Holds text) (c : Char) :
    ((cutAtLast v c m).array v).Holds (beforeLast c text) := by
  simp only [cutAtLast, readText_fst, h.text_eq, beforeLast]
  by_cases hmem : c ∈ text
  · obtain ⟨front, back, rfl, hback⟩ := exists_last hmem
    simp only [strrchr_append_cons front hback]
    apply writeAt_cut_holds h
    rw [List.length_append]
    exact Nat.le_add_right _ _
  · simp only [strrchr_eq_none hmem]
    exact h

end Memory

end Jp4Tools.CStrings
