import Jp4Tools.CountedLoops
import Jp4Tools.MakerNote

/-!
# What readMakerNote reads

`JP4::readMakerNote` loads the entry into an array of `long`s, as many as the entry has complete
words, and takes the fields out of the array. The words 8 to 12 are read behind a test of the
length, the words 0 to 7 are not. The accesses are listed here in the order of the source.
-/

namespace Jp4Tools.MakerNoteReads
open CountedLoops MachineIntegers MakerNote

/-- The data of a MakerNote entry. The member `size` of the entry is an `unsigned int`. -/
structure EntryData where
  bytes : List UInt8
  length_lt : bytes.length < 2 ^ 32

def EntryData.size (e : EntryData) : ℕ := e.bytes.length

def EntryData.makerNoteLength (e : EntryData) : ℕ := e.size / 4

/-- The array `makerNote` after the loop that fills it. `stack` is what lies behind the array. -/
def EntryData.makerNote (stack : ℕ → ℤ) (e : EntryData) (i : ℕ) : ℤ :=
  if i < e.makerNoteLength then getLong (e.bytes.drop (i * 4)) else stack i

def getLongReads (d : ℤ) : List ℤ := [d, d + 1, d + 2, d + 3]

/-- The offsets that the loop over `makerNoteEntry->data + i*4` reads. The product is an `int`. -/
def byteReads (makerNoteLength : ℕ) : List ℤ :=
  forLoop (fun i => decide (i < makerNoteLength)) (fun i => i + 1)
    (fun i => getLongReads (i32 (i * 4 : ℕ))) makerNoteLength 0

def channelReads : List ℕ :=
  forLoop (fun i => decide (i < 4)) (fun i => i + 1) (fun i => [i, i + 4, i + 4, i + 4]) 4 0

def windowReads : List ℕ := [8, 8, 9, 9, 10, 10, 10, 10, 10, 10, 10, 10]

def subFrameReads : List ℕ := [11, 11, 12, 12, 9, 10, 10, 10, 10, 10, 10]

def elementReads (makerNote : ℕ → ℤ) (makerNoteLength : ℕ) : List ℕ :=
  channelReads ++ (if 12 ≤ makerNoteLength then windowReads else []) ++
    if 14 ≤ makerNoteLength then
      10 :: if maskLong (makerNote 10) 0xc0000000 ≠ 0 then subFrameReads else []
    else []

def readArray (makerNote : ℕ → ℤ) (makerNoteLength : ℕ) (m : ElphelMakerNote) : ElphelMakerNote :=
  let m := readChannels makerNote m
  let m := if 12 ≤ makerNoteLength then readWindow makerNote m else m
  if 14 ≤ makerNoteLength then
    let m := { m with composite := decide (maskLong (makerNote 10) 0xc0000000 ≠ 0) }
    if m.composite then readSubFrames makerNote m else m
  else m

structure StaysInside (stack : ℕ → ℤ) (e : EntryData) : Prop where
  bytes : ∀ o ∈ byteReads e.makerNoteLength, 0 ≤ o ∧ o < e.size
  elements : ∀ i ∈ elementReads (e.makerNote stack) e.makerNoteLength, i < e.makerNoteLength

theorem readFields_eq (stack : ℕ → ℤ) (e : EntryData) (m : ElphelMakerNote) :
    readFields stack e.bytes m = readArray (e.makerNote stack) e.makerNoteLength m := rfl

theorem mem_channelReads : ∀ i : Fin 4, (i : ℕ) ∈ channelReads ∧ (i : ℕ) + 4 ∈ channelReads := by decide

theorem channelReads_le : ∀ i ∈ channelReads, i ≤ 7 := by decide

theorem windowReads_le : ∀ i ∈ windowReads, i ≤ 10 := by decide

theorem subFrameReads_le : ∀ i ∈ subFrameReads, i ≤ 12 := by decide

section Elements
variable {makerNote makerNote' : ℕ → ℤ}

theorem readArray_congr {makerNoteLength : ℕ}
    (h : ∀ i ∈ elementReads makerNote makerNoteLength, makerNote i = makerNote' i)
    (m : ElphelMakerNote) :
    readArray makerNote makerNoteLength m = readArray makerNote' makerNoteLength m := by
  have hchannels : ∀ i ∈ channelReads, makerNote i = makerNote' i := by
    intro i hi
    exact h i (List.mem_append_left _ (List.mem_append_left _ hi))
  have hchannel : ∀ i : Fin 4, makerNote i = makerNote' i ∧ makerNote ((i : ℕ) + 4) = makerNote' ((i : ℕ) + 4) := by
    intro i
    exact ⟨hchannels _ (mem_channelReads i).1, hchannels _ (mem_channelReads i).2⟩
  have hread : readChannels makerNote m = readChannels makerNote' m := by
    simp only [readChannels, fun i => (hchannel i).1, fun i => (hchannel i).2]
  have hwindow : 12 ≤ makerNoteLength → ∀ i ∈ windowReads, makerNote i = makerNote' i := by
    intro hlen i hi
    apply h
    rw [elementReads, if_pos hlen]
    exact List.mem_append_left _ (List.mem_append_right _ hi)
  have hsub : 14 ≤ makerNoteLength → maskLong (makerNote 10) 0xc0000000 ≠ 0 →
      ∀ i ∈ subFrameReads, makerNote i = makerNote' i := by
    intro hlen hcomposite i hi
    apply h
    rw [elementReads, if_pos hlen, if_pos hcomposite]
    exact List.mem_append_right _ (List.mem_cons_of_mem _ hi)
  have hwindows : ∀ m, 12 ≤ makerNoteLength → readWindow makerNote m = readWindow makerNote' m := by
    intro m hlen
    simp only [readWindow, hwindow hlen 8 (by decide), hwindow hlen 9 (by decide),
      hwindow hlen 10 (by decide)]
  rw [readArray, readArray, hread]
  by_cases h12 : 12 ≤ makerNoteLength
  · simp only [if_pos h12, hwindows _ h12]
    by_cases h14 : 14 ≤ makerNoteLength
    · simp only [if_pos h14, ← hwindow h12 10 (by decide)]
      by_cases hcomposite : maskLong (makerNote 10) 0xc0000000 ≠ 0
      · simp only [readSubFrames, hsub h14 hcomposite 11 (by decide),
          hsub h14 hcomposite 12 (by decide), hsub h14 hcomposite 9 (by decide),
          hsub h14 hcomposite 10 (by decide)]
      · simp only [decide_eq_false hcomposite]
        rfl
    · simp only [if_neg h14]
  · have h14 : ¬ 14 ≤ makerNoteLength := by omega
    simp only [if_neg h12, if_neg h14]

/-- The unguarded words decide: the others are read behind a sufficient test. -/
theorem elementReads_lt_iff (makerNoteLength : ℕ) :
    (∀ i ∈ elementReads makerNote makerNoteLength, i < makerNoteLength) ↔ 8 ≤ makerNoteLength := by
  constructor
  · intro h
    exact h 7 (List.mem_append_left _ (List.mem_append_left _ (by decide)))
  · intro hlen i hi
    rw [elementReads, List.mem_append, List.mem_append] at hi
    rcases hi with (hi | hi) | hi
    · have hle := channelReads_le i hi
      omega
    · split_ifs at hi with h12
      · have hle := windowReads_le i hi
        omega
      · exact absurd hi List.not_mem_nil
    · split_ifs at hi with h14 hcomposite
      · rcases List.mem_cons.mp hi with rfl | hi
        · omega
        · have hle := subFrameReads_le i hi
          omega
      · rw [List.mem_singleton] at hi
        omega
      · exact absurd hi List.not_mem_nil

end Elements

theorem mem_byteReads {makerNoteLength : ℕ} {o : ℤ} :
    o ∈ byteReads makerNoteLength ↔ ∃ i < makerNoteLength, o ∈ getLongReads (i32 (i * 4 : ℕ)) := by
  have hloop := forLoop_eq_flatMap (fun i => decide (i < makerNoteLength)) (fun i => i + 1)
    (fun i => getLongReads (i32 (i * 4 : ℕ))) id makerNoteLength makerNoteLength (fun _ _ => rfl)
    (fun _ hi => decide_eq_true hi) (decide_eq_false (lt_irrefl _)) le_rfl
  simp only [id_eq] at hloop
  rw [byteReads, hloop]
  simp only [List.mem_flatMap, List.mem_range]

theorem byteReads_mem_iff (e : EntryData) :
    (∀ o ∈ byteReads e.makerNoteLength, 0 ≤ o ∧ o < e.size) ↔ e.makerNoteLength ≤ 2 ^ 29 := by
  have hsize := e.length_lt
  have hlen : e.makerNoteLength * 4 ≤ e.size := Nat.div_mul_le_self _ _
  rw [← EntryData.size] at hsize
  constructor
  · intro h
    by_contra hlarge
    have hwrap : i32 (2 ^ 29 * 4 : ℕ) = -2 ^ 31 := by decide
    have hmem : (-2 ^ 31 : ℤ) ∈ byteReads e.makerNoteLength := by
      rw [mem_byteReads]
      refine ⟨2 ^ 29, not_le.mp hlarge, ?_⟩
      rw [hwrap]
      exact List.mem_cons_self
    exact absurd (h _ hmem).1 (by decide)
  · intro h o ho
    obtain ⟨i, hi, ho⟩ := mem_byteReads.mp ho
    rw [i32_of_small (by omega) (by omega)] at ho
    simp only [getLongReads, List.mem_cons, List.not_mem_nil, or_false] at ho
    omega

/-- A MakerNote that is read inside its bounds determines the fields, whatever lies behind. -/
theorem StaysInside.readFields_eq {stack : ℕ → ℤ} {e : EntryData} (h : StaysInside stack e)
    (stack' : ℕ → ℤ) (m : ElphelMakerNote) : readFields stack e.bytes m = readFields stack' e.bytes m := by
  rw [MakerNoteReads.readFields_eq, MakerNoteReads.readFields_eq]
  apply readArray_congr
  intro i hi
  rw [EntryData.makerNote, EntryData.makerNote, if_pos (h.elements i hi), if_pos (h.elements i hi)]

/-- The MakerNote is read inside its bounds exactly when it has at least eight words, and not more
than the products `i*4` can address. -/
theorem reads_inside_iff (stack : ℕ → ℤ) (e : EntryData) :
    StaysInside stack e ↔ 8 ≤ e.size / 4 ∧ e.size / 4 ≤ 2 ^ 29 := by
  constructor
  · intro h
    exact ⟨(elementReads_lt_iff _).mp h.elements, (byteReads_mem_iff e).mp h.bytes⟩
  · intro ⟨hlow, hhigh⟩
    exact ⟨(byteReads_mem_iff e).mpr hhigh, (elementReads_lt_iff _).mpr hlow⟩

/-- A MakerNote of seven words is left at `makerNote[7]`. -/
theorem seven_words_outside : ¬ ∀ (stack : ℕ → ℤ) (e : EntryData), StaysInside stack e := by
  intro h
  have hinside := h (fun _ => 0) ⟨List.replicate 28 0, by decide⟩
  exact absurd ((elementReads_lt_iff _).mp hinside.elements) (by decide)

end Jp4Tools.MakerNoteReads
