import Jp4Tools.BitFields
import Jp4Tools.MachineIntegers
import Mathlib.Data.Rat.Init
import Mathlib.Tactic.NormNum

/-!
# The Elphel MakerNote

`JP4::readMakerNote` takes the fields out of big-endian 32-bit words, read by `get_long` into
signed `long`s. Most fields are masked; the black levels and the window height are not, and
come out negative when the top bit of their word is set. Rational numbers stand for `double`s;
the division by 100 is meant up to the rounding of its result.
-/

namespace Jp4Tools.MakerNote
open BitFields MachineIntegers

structure ElphelMakerNote where
  gain : Fin 4 → ℚ
  gamma : Fin 4 → ℚ
  gammaScale : Fin 4 → ℚ
  black : Fin 4 → ℚ
  woiLeft : ℤ
  woiWidth : ℤ
  woiTop : ℤ
  woiHeight : ℤ
  flipHor : Bool
  flipVer : Bool
  bayerMode : ℤ
  colorMode : ℤ
  decimHor : ℤ
  decimVer : ℤ
  binHor : ℤ
  binVer : ℤ
  composite : Bool
  height1 : ℤ
  blank1 : ℤ
  flipH1 : Bool
  flipV1 : Bool
  height2 : ℤ
  blank2 : ℤ
  flipH2 : Bool
  flipV2 : Bool
  height3 : ℤ
  flipH3 : Bool
  flipV3 : Bool

/-- `get_long` on the bytes that `d` points at; the shifts and the `|`s are those of `int`. -/
def getLong (d : List UInt8) : ℤ :=
  i32 (((d.getD 0 0).toNat &&& 0xff) <<< 24 ||| ((d.getD 1 0).toNat &&& 0xff) <<< 16 |||
    ((d.getD 2 0).toNat &&& 0xff) <<< 8 ||| ((d.getD 3 0).toNat &&& 0xff) : ℕ)

def readChannels (makerNote : ℕ → ℤ) (m : ElphelMakerNote) : ElphelMakerNote :=
  { m with
    gain := fun i => makerNote i / 65536
    gammaScale := fun i => maskLong (makerNote (i + 4)) 0xffff
    gamma := fun i => maskLong (shiftLong (makerNote (i + 4)) 16) 0xff / 100
    black := fun i => (shiftLong (makerNote (i + 4)) 24) / 256 }

def readWindow (makerNote : ℕ → ℤ) (m : ElphelMakerNote) : ElphelMakerNote :=
  { m with
    woiLeft := maskLong (makerNote 8) 0xffff
    woiWidth := maskLong (shiftLong (makerNote 8) 16) 0xffff
    woiTop := maskLong (makerNote 9) 0xffff
    woiHeight := i32 (shiftLong (makerNote 9) 16)
    flipHor := decide (maskLong (makerNote 10) 0x1 ≠ 0)
    flipVer := decide (maskLong (shiftLong (makerNote 10) 1) 0x1 ≠ 0)
    bayerMode := maskLong (shiftLong (makerNote 10) 2) 0x3
    colorMode := maskLong (shiftLong (makerNote 10) 4) 0x0f
    decimHor := maskLong (shiftLong (makerNote 10) 8) 0x0f
    decimVer := maskLong (shiftLong (makerNote 10) 12) 0x0f
    binHor := maskLong (shiftLong (makerNote 10) 16) 0x0f
    binVer := maskLong (shiftLong (makerNote 10) 20) 0x0f }

def readSubFrames (makerNote : ℕ → ℤ) (m : ElphelMakerNote) : ElphelMakerNote :=
  let height1 := maskLong (makerNote 11) 0xffff
  let blank1 := maskLong (shiftLong (makerNote 11) 16) 0xffff
  let height2 := maskLong (makerNote 12) 0xffff
  let blank2 := maskLong (shiftLong (makerNote 12) 16) 0xffff
  { m with
    height1, blank1, height2, blank2
    height3 := i32 (shiftLong (makerNote 9) 16 - height1 - blank1 - height2 - blank2)
    flipH1 := decide (maskLong (shiftLong (makerNote 10) 24) 1 ≠ 0)
    flipV1 := decide (maskLong (shiftLong (makerNote 10) 25) 1 ≠ 0)
    flipH2 := decide (maskLong (shiftLong (makerNote 10) 26) 1 ≠ 0)
    flipV2 := decide (maskLong (shiftLong (makerNote 10) 27) 1 ≠ 0)
    flipH3 := decide (maskLong (shiftLong (makerNote 10) 28) 1 ≠ 0)
    flipV3 := decide (maskLong (shiftLong (makerNote 10) 29) 1 ≠ 0) }

/-- The fields that `readMakerNote` takes out of the data of the entry. `stack` is what lies
behind the array `makerNote`, which is read there when the entry has less than eight words. -/
def readFields (stack : ℕ → ℤ) (data : List UInt8) (m : ElphelMakerNote) : ElphelMakerNote :=
  let makerNoteLength := data.length / 4
  let makerNote := fun i => if i < makerNoteLength then getLong (data.drop (i * 4)) else stack i
  let m := readChannels makerNote m
  let m := if 12 ≤ makerNoteLength then readWindow makerNote m else m
  if 14 ≤ makerNoteLength then
    let m := { m with composite := decide (maskLong (makerNote 10) 0xc0000000 ≠ 0) }
    if m.composite then readSubFrames makerNote m else m
  else m

/-- The fields as documented, each within its bits. The frame is a composite one when
`compositeMode` is not zero. -/
structure MakerNoteFields where
  gain : Fin 4 → Fin (2 ^ 24)
  gammaScale : Fin 4 → Fin (2 ^ 16)
  gamma : Fin 4 → Fin (2 ^ 8)
  black : Fin 4 → Fin (2 ^ 8)
  woiLeft : Fin (2 ^ 16)
  woiWidth : Fin (2 ^ 16)
  woiTop : Fin (2 ^ 16)
  woiHeight : Fin (2 ^ 16)
  flipHor : Bool
  flipVer : Bool
  bayerMode : Fin (2 ^ 2)
  colorMode : Fin (2 ^ 4)
  decimHor : Fin (2 ^ 4)
  decimVer : Fin (2 ^ 4)
  binHor : Fin (2 ^ 4)
  binVer : Fin (2 ^ 4)
  flipH1 : Bool
  flipV1 : Bool
  flipH2 : Bool
  flipV2 : Bool
  flipH3 : Bool
  flipV3 : Bool
  compositeMode : Fin (2 ^ 2)
  height1 : Fin (2 ^ 16)
  blank1 : Fin (2 ^ 16)
  height2 : Fin (2 ^ 16)
  blank2 : Fin (2 ^ 16)

namespace MakerNoteFields
variable (p : MakerNoteFields)

def gainWord (i : Fin 4) : List Field := [.ofFin (p.gain i)]

def channelWord (i : Fin 4) : List Field :=
  [.ofFin (p.gammaScale i), .ofFin (p.gamma i), .ofFin (p.black i)]

def columnsWord : List Field := [.ofFin p.woiLeft, .ofFin p.woiWidth]

def rowsWord : List Field := [.ofFin p.woiTop, .ofFin p.woiHeight]

def modesWord : List Field :=
  [.ofBool p.flipHor, .ofBool p.flipVer, .ofFin p.bayerMode, .ofFin p.colorMode,
    .ofFin p.decimHor, .ofFin p.decimVer, .ofFin p.binHor, .ofFin p.binVer,
    .ofBool p.flipH1, .ofBool p.flipV1, .ofBool p.flipH2, .ofBool p.flipV2,
    .ofBool p.flipH3, .ofBool p.flipV3, .ofFin p.compositeMode]

def firstWord : List Field := [.ofFin p.height1, .ofFin p.blank1]

def secondWord : List Field := [.ofFin p.height2, .ofFin p.blank2]

/-- The words in the order of the MakerNote, without the unused fourteenth one. -/
def words : List (List Field) :=
  [p.gainWord 0, p.gainWord 1, p.gainWord 2, p.gainWord 3,
    p.channelWord 0, p.channelWord 1, p.channelWord 2, p.channelWord 3,
    p.columnsWord, p.rowsWord, p.modesWord, p.firstWord, p.secondWord]

end MakerNoteFields

def wordBytes (w : ℕ) : List UInt8 :=
  [UInt8.ofNat (w >>> 24), UInt8.ofNat (w >>> 16), UInt8.ofNat (w >>> 8), UInt8.ofNat w]

/-- The packed MakerNote: its fields, an arbitrary fourteenth word, and whatever comes after. -/
def packMakerNote (p : MakerNoteFields) (spare : Fin (2 ^ 32)) (rest : List UInt8) : List UInt8 :=
  (p.words.map pack ++ [(spare : ℕ)]).flatMap wordBytes ++ rest

structure DecodesFrame (p : MakerNoteFields) (m : ElphelMakerNote) : Prop where
  gain : ∀ i, m.gain i = (p.gain i : ℕ) / 65536
  gammaScale : ∀ i, m.gammaScale i = (p.gammaScale i : ℕ)
  gamma : ∀ i, m.gamma i = (p.gamma i : ℕ) / 100
  black : ∀ i, m.black i = (p.black i : ℕ) / 256
  woiLeft : m.woiLeft = (p.woiLeft : ℕ)
  woiWidth : m.woiWidth = (p.woiWidth : ℕ)
  woiTop : m.woiTop = (p.woiTop : ℕ)
  woiHeight : m.woiHeight = (p.woiHeight : ℕ)
  flipHor : m.flipHor = p.flipHor
  flipVer : m.flipVer = p.flipVer
  bayerMode : m.bayerMode = (p.bayerMode : ℕ)
  colorMode : m.colorMode = (p.colorMode : ℕ)
  decimHor : m.decimHor = (p.decimHor : ℕ)
  decimVer : m.decimVer = (p.decimVer : ℕ)
  binHor : m.binHor = (p.binHor : ℕ)
  binVer : m.binVer = (p.binVer : ℕ)
  composite : m.composite = decide ((p.compositeMode : ℕ) ≠ 0)

structure DecodesSubFrames (p : MakerNoteFields) (m : ElphelMakerNote) : Prop where
  height1 : m.height1 = (p.height1 : ℕ)
  blank1 : m.blank1 = (p.blank1 : ℕ)
  height2 : m.height2 = (p.height2 : ℕ)
  blank2 : m.blank2 = (p.blank2 : ℕ)
  height3 : m.height3 =
    (p.woiHeight : ℕ) - (p.height1 : ℕ) - (p.blank1 : ℕ) - (p.height2 : ℕ) - (p.blank2 : ℕ)
  flipH1 : m.flipH1 = p.flipH1
  flipV1 : m.flipV1 = p.flipV1
  flipH2 : m.flipH2 = p.flipH2
  flipV2 : m.flipV2 = p.flipV2
  flipH3 : m.flipH3 = p.flipH3
  flipV3 : m.flipV3 = p.flipV3

def Decodes (p : MakerNoteFields) (m : ElphelMakerNote) : Prop :=
  DecodesFrame p m ∧ (m.composite = true → DecodesSubFrames p m)

section Words

/-- Four bytes, shifted to their places, make up a word. -/
private theorem or_bytes {a b c d : ℕ} (hb : b < 2 ^ 8) (hc : c < 2 ^ 8) (hd : d < 2 ^ 8) :
    a <<< 24 ||| b <<< 16 ||| c <<< 8 ||| d = 2 ^ 24 * a + 2 ^ 16 * b + 2 ^ 8 * c + d := by
  have h8 : c <<< 8 ||| d = c <<< 8 + d := (Nat.shiftLeft_add_eq_or_of_lt hd c).symm
  have hlow : c <<< 8 + d < 2 ^ 16 := by
    rw [Nat.shiftLeft_eq]
    omega
  have h16 : b <<< 16 ||| (c <<< 8 + d) = b <<< 16 + (c <<< 8 + d) :=
    (Nat.shiftLeft_add_eq_or_of_lt hlow b).symm
  have hmid : b <<< 16 + (c <<< 8 + d) < 2 ^ 24 := by
    rw [Nat.shiftLeft_eq]
    omega
  rw [Nat.or_assoc, Nat.or_assoc, h8, h16, ← Nat.shiftLeft_add_eq_or_of_lt hmid a, Nat.shiftLeft_eq,
    Nat.shiftLeft_eq, Nat.shiftLeft_eq]
  omega

/-- `get_long` sign-extends the word that its four bytes form. -/
theorem getLong_wordBytes {w : ℕ} (hw : w < 2 ^ 32) (rest : List UInt8) :
    getLong (wordBytes w ++ rest) = i32 w := by
  have hbyte (n : ℕ) : n % 2 ^ 8 &&& 0xff = n % 2 ^ 8 := by
    rw [show 0xff = 2 ^ 8 - 1 from rfl, Nat.and_two_pow_sub_one_eq_mod, Nat.mod_mod]
  have hlt (n : ℕ) : n % 2 ^ 8 < 2 ^ 8 := Nat.mod_lt n (by decide)
  have hbytes : (w >>> 24 % 2 ^ 8 &&& 0xff) <<< 24 ||| (w >>> 16 % 2 ^ 8 &&& 0xff) <<< 16 |||
      (w >>> 8 % 2 ^ 8 &&& 0xff) <<< 8 ||| (w % 2 ^ 8 &&& 0xff) = w := by
    rw [hbyte, hbyte, hbyte, hbyte, or_bytes (hlt _) (hlt _) (hlt _)]
    simp only [Nat.shiftRight_eq_div_pow]
    omega
  simp only [getLong, wordBytes, List.cons_append, List.nil_append, List.getD_cons_zero,
    List.getD_cons_succ, UInt8.toNat_ofNat']
  exact congrArg (fun n : ℕ => i32 n) hbytes

theorem drop_wordBytes (ws : List ℕ) (rest : List UInt8) {i : ℕ} (hi : i < ws.length) :
    ∃ tail, (ws.flatMap wordBytes ++ rest).drop (i * 4) = wordBytes ws[i] ++ tail := by
  induction ws generalizing i with
  | nil => exact absurd hi (Nat.not_lt_zero i)
  | cons w ws ih =>
    cases i with
    | zero => exact ⟨ws.flatMap wordBytes ++ rest, by simp [wordBytes]⟩
    | succ i =>
      obtain ⟨tail, htail⟩ := ih (Nat.lt_of_succ_lt_succ hi)
      refine ⟨tail, ?_⟩
      have hskip : ((w :: ws).flatMap wordBytes ++ rest).drop ((i + 1) * 4) =
          (ws.flatMap wordBytes ++ rest).drop (i * 4) := by
        rw [Nat.succ_mul, Nat.add_comm, ← List.drop_drop]
        rfl
      rw [hskip, htail]
      rfl

/-- A word of packed fields, as `get_long` reads it from the bytes of all the words. -/
theorem getLong_packed {words : List (List Field)} (hwords : ∀ fs ∈ words, totalWidth fs ≤ 32)
    (more : List ℕ) (rest : List UInt8) {i : ℕ} {fs : List Field} (hfs : words[i]? = some fs) :
    getLong (((words.map pack ++ more).flatMap wordBytes ++ rest).drop (i * 4)) = i32 (pack fs) := by
  have hlen : i < words.length := (List.getElem?_eq_some_iff.mp hfs).1
  have hword : (words.map pack ++ more)[i]? = some (pack fs) := by
    rw [List.getElem?_append_left (by rwa [List.length_map]), List.getElem?_map, hfs, Option.map_some]
  obtain ⟨hi, hword⟩ := List.getElem?_eq_some_iff.mp hword
  obtain ⟨tail, htail⟩ := drop_wordBytes (words.map pack ++ more) rest hi
  have hlt : pack fs < 2 ^ 32 := (pack_lt fs).trans_le
    (Nat.pow_le_pow_right (by decide) (hwords fs (List.mem_of_getElem? hfs)))
  rw [htail, hword, getLong_wordBytes hlt]

/-- The topmost field of a full word, not masked: its top bit counts as a sign. -/
theorem read_signed (fs : List Field) (f : Field) {k : ℕ} (hk : f.width = k + 1)
    (h : totalWidth fs + f.width = 32) :
    shiftLong (i32 (pack (fs ++ [f]))) (totalWidth fs) =
      if f.value < 2 ^ k then (f.value : ℤ) else f.value - 2 ^ (k + 1) := by
  have hlast := read_last fs f
  have hlt : pack (fs ++ [f]) < 2 ^ 32 := by
    have htotal : totalWidth (fs ++ [f]) = 32 := by
      rw [← h]
      simp [totalWidth]
    exact htotal ▸ pack_lt (fs ++ [f])
  have hhalf : 2 ^ 31 = 2 ^ totalWidth fs * 2 ^ k := by
    rw [← pow_add]
    congr 1
    omega
  have hrest := Nat.lt_mul_div_succ (pack (fs ++ [f])) (Nat.two_pow_pos (totalWidth fs))
  have hbelow := Nat.mul_div_le (pack (fs ++ [f])) (2 ^ totalWidth fs)
  rw [hlast] at hrest hbelow
  have hcast : (2 : ℤ) ^ totalWidth fs = (2 ^ totalWidth fs : ℕ) := by push_cast; rfl
  rw [shiftLong_eq, hcast]
  split_ifs with hv
  · have hle := Nat.mul_le_mul_left (2 ^ totalWidth fs) (show f.value + 1 ≤ 2 ^ k from hv)
    rw [i32_of_small (by omega) (by omega), ← Int.natCast_div, hlast]
  · have hle := Nat.mul_le_mul_left (2 ^ totalWidth fs) (Nat.not_lt.mp hv)
    have hfull : (2 : ℤ) ^ 32 = (2 ^ totalWidth fs : ℕ) * 2 ^ (k + 1) := by
      rw [Nat.cast_pow, Nat.cast_ofNat, ← pow_add, ← hk, h]
    rw [i32_of_large (by omega) hlt, hfull, Int.sub_mul_ediv_left _ _
      (Nat.cast_ne_zero.mpr (Nat.two_pow_pos _).ne'), ← Int.natCast_div, hlast]

private theorem and_shiftLeft (n m i : ℕ) : n &&& m <<< i = (n >>> i &&& m) <<< i := by
  apply Nat.eq_of_testBit_eq
  intro j
  by_cases hj : i ≤ j
  · simp [hj]
  · simp [hj]

theorem maskLong_top (x : ℤ) : maskLong x 0xc0000000 = maskLong (shiftLong x 30) 3 * 2 ^ 30 := by
  have hmask (n : ℕ) : n &&& 0xc0000000 = n / 2 ^ 30 % 4 * 2 ^ 30 := by
    have hlow : n >>> 30 &&& 3 = n / 2 ^ 30 % 4 := by
      rw [Nat.shiftRight_eq_div_pow]
      exact Nat.and_two_pow_sub_one_eq_mod _ 2
    calc n &&& 0xc0000000 = n &&& 3 <<< 30 := by rw [show 3 <<< 30 = 0xc0000000 from rfl]
      _ = (n >>> 30 &&& 3) <<< 30 := and_shiftLeft n 3 30
      _ = n / 2 ^ 30 % 4 * 2 ^ 30 := by rw [hlow, Nat.shiftLeft_eq]
  have hlow := maskLong_low (shiftLong x 30) (show 2 ≤ 64 by decide)
  change maskLong (shiftLong x 30) 3 = _ at hlow
  have hn : ((x % 2 ^ 64).toNat : ℤ) = x % 2 ^ 64 := Int.toNat_of_nonneg (Int.emod_nonneg x (by decide))
  rw [hlow, shiftLong_eq, maskLong, hmask]
  generalize (x % 2 ^ 64).toNat = n at hn ⊢
  push_cast
  omega

end Words

section Packed
variable (p : MakerNoteFields)

theorem length_packMakerNote (spare : Fin (2 ^ 32)) (rest : List UInt8) :
    (packMakerNote p spare rest).length = 56 + rest.length := by
  simp [packMakerNote, MakerNoteFields.words, wordBytes]
  omega

theorem totalWidth_words : ∀ fs ∈ p.words, totalWidth fs ≤ 32 := by
  simp [MakerNoteFields.words, MakerNoteFields.gainWord, MakerNoteFields.channelWord,
    MakerNoteFields.columnsWord, MakerNoteFields.rowsWord, MakerNoteFields.modesWord,
    MakerNoteFields.firstWord, MakerNoteFields.secondWord, totalWidth, Field.ofFin, Field.ofBool]

theorem words_gain : ∀ i : Fin 4, p.words[(i : ℕ)]? = some (p.gainWord i)
  | 0 => rfl
  | 1 => rfl
  | 2 => rfl
  | 3 => rfl

theorem words_channel : ∀ i : Fin 4, p.words[(i + 4 : ℕ)]? = some (p.channelWord i)
  | 0 => rfl
  | 1 => rfl
  | 2 => rfl
  | 3 => rfl

/-- The bits below field `j` of the word of flags and modes. -/
theorem modesWord_offset (j : ℕ) {s : ℕ}
    (hs : ([1, 1, 2, 4, 4, 4, 4, 4, 1, 1, 1, 1, 1, 1, 2].take j).sum = s) :
    totalWidth (p.modesWord.take j) = s := by
  rw [totalWidth, List.map_take]
  exact hs

variable {p} {makerNote : ℕ → ℤ}

/-- The words of the array `makerNote` are those of the packed fields. -/
def Reads (p : MakerNoteFields) (makerNote : ℕ → ℤ) : Prop :=
  ∀ i word, p.words[i]? = some word → makerNote i = i32 (pack word)

/-- A masked field comes back, whatever the other fields and the sign of the word. -/
theorem Reads.field (h : Reads p makerNote) (i j : ℕ) (f : Field) {word : List Field}
    (hi : p.words[i]? = some word) (hj : word[j]? = some f) {s mask : ℕ}
    (hs : totalWidth (word.take j) = s) (hmask : 2 ^ f.width - 1 = mask) :
    maskLong (shiftLong (makerNote i) s) mask = f.value := by
  obtain ⟨hlt, rfl⟩ := List.getElem?_eq_some_iff.mp hj
  have hword : word.take j ++ word[j] :: word.drop (j + 1) = word := by
    rw [List.getElem_cons_drop, List.take_append_drop]
  have hfit : s + word[j].width ≤ 32 := by
    have htotal := totalWidth_words p word (List.mem_of_getElem? hi)
    rw [← hword] at htotal
    simp only [totalWidth, List.map_append, List.map_cons, List.sum_append, List.sum_cons] at htotal hs
    omega
  rw [h i word hi, ← hmask, maskLong_shift _ hfit, ← hs]
  have hread := read_field (word.take j) word[j] (word.drop (j + 1))
  rw [hword] at hread
  rw [hread]

theorem Reads.lowest (h : Reads p makerNote) (i : ℕ) (f : Field) {word : List Field}
    (hi : p.words[i]? = some word) (hj : word[0]? = some f) {mask : ℕ} (hmask : 2 ^ f.width - 1 = mask) :
    maskLong (makerNote i) mask = f.value := by
  have hfield := h.field i 0 f hi hj rfl hmask
  rwa [totalWidth, List.take_zero, List.map_nil, List.sum_nil, shiftLong_eq, pow_zero, Int.ediv_one] at hfield

private theorem decide_ne_zero {x : ℤ} {b : Bool} (hx : x = (Field.ofBool b).value) :
    decide (x ≠ 0) = b := by
  cases b with
  | false => exact decide_eq_false (not_not.mpr hx)
  | true => exact decide_eq_true (by rw [hx]; decide)

theorem Reads.flag (h : Reads p makerNote) (i j : ℕ) (b : Bool) {word : List Field}
    (hi : p.words[i]? = some word) (hj : word[j]? = some (.ofBool b)) {s : ℕ}
    (hs : totalWidth (word.take j) = s) :
    decide (maskLong (shiftLong (makerNote i) s) 1 ≠ 0) = b :=
  decide_ne_zero (h.field i j (.ofBool b) hi hj hs rfl)

/-- The gain is small enough for its word to be positive. -/
theorem Reads.gain (h : Reads p makerNote) (i : Fin 4) : makerNote i = (p.gain i : ℕ) := by
  have hpack : pack (p.gainWord i) = (p.gain i : ℕ) := Nat.add_zero _
  have hlt := (p.gain i).isLt
  rw [h i _ (words_gain p i), hpack, i32_of_small (by omega) (by omega)]

/-- The black level is in the topmost bits of its word and is not masked. -/
theorem Reads.black (h : Reads p makerNote) (i : Fin 4) : shiftLong (makerNote (i + 4)) 24 =
    if (p.black i : ℕ) < 2 ^ 7 then ((p.black i : ℕ) : ℤ) else (p.black i : ℕ) - 2 ^ 8 := by
  rw [h _ _ (words_channel p i)]
  exact read_signed [.ofFin (p.gammaScale i), .ofFin (p.gamma i)] (.ofFin (p.black i)) rfl rfl

theorem Reads.woiHeight (h : Reads p makerNote) : shiftLong (makerNote 9) 16 =
    if (p.woiHeight : ℕ) < 2 ^ 15 then ((p.woiHeight : ℕ) : ℤ) else (p.woiHeight : ℕ) - 2 ^ 16 := by
  rw [h 9 p.rowsWord rfl]
  exact read_signed [.ofFin p.woiTop] (.ofFin p.woiHeight) rfl rfl

theorem Reads.composite (h : Reads p makerNote) :
    decide (maskLong (makerNote 10) 0xc0000000 ≠ 0) = decide ((p.compositeMode : ℕ) ≠ 0) := by
  have hbits : maskLong (shiftLong (makerNote 10) 30) 3 = (p.compositeMode : ℕ) :=
    h.field 10 14 (.ofFin p.compositeMode) rfl rfl (modesWord_offset p 14 (by decide)) rfl
  rw [maskLong_top, hbits, decide_eq_decide]
  omega

theorem decodesFrame_read (h : Reads p makerNote) (m : ElphelMakerNote)
    (hblack : ∀ i, (p.black i : ℕ) < 2 ^ 7) (hheight : (p.woiHeight : ℕ) < 2 ^ 15) :
    DecodesFrame p { readWindow makerNote (readChannels makerNote m) with
      composite := decide (maskLong (makerNote 10) 0xc0000000 ≠ 0) } := by
  have hlt := p.woiHeight.isLt
  constructor
  case gain =>
    intro i
    simp only [readWindow, readChannels, h.gain i, Int.cast_natCast]
  case gammaScale =>
    intro i
    have hscale := h.lowest (i + 4) (.ofFin (p.gammaScale i)) (words_channel p i) rfl rfl
    exact congrArg (fun x : ℤ => (x : ℚ)) hscale
  case gamma =>
    intro i
    have hgamma := h.field (i + 4) 1 (.ofFin (p.gamma i)) (words_channel p i) rfl rfl rfl
    exact congrArg (fun x : ℤ => (x : ℚ) / 100) hgamma
  case black =>
    intro i
    have hi := h.black i
    rw [if_pos (hblack i)] at hi
    exact congrArg (fun x : ℤ => (x : ℚ) / 256) hi
  case woiLeft => exact h.lowest 8 (.ofFin p.woiLeft) rfl rfl rfl
  case woiWidth => exact h.field 8 1 (.ofFin p.woiWidth) rfl rfl rfl rfl
  case woiTop => exact h.lowest 9 (.ofFin p.woiTop) rfl rfl rfl
  case woiHeight =>
    simp only [readWindow, h.woiHeight, if_pos hheight]
    exact i32_of_small (by omega) (by omega)
  case flipHor => exact decide_ne_zero (h.lowest 10 (.ofBool p.flipHor) rfl rfl rfl)
  case flipVer => exact h.flag 10 1 p.flipVer rfl rfl (modesWord_offset p 1 (by decide))
  case bayerMode => exact h.field 10 2 (.ofFin p.bayerMode) rfl rfl (modesWord_offset p 2 (by decide)) rfl
  case colorMode => exact h.field 10 3 (.ofFin p.colorMode) rfl rfl (modesWord_offset p 3 (by decide)) rfl
  case decimHor => exact h.field 10 4 (.ofFin p.decimHor) rfl rfl (modesWord_offset p 4 (by decide)) rfl
  case decimVer => exact h.field 10 5 (.ofFin p.decimVer) rfl rfl (modesWord_offset p 5 (by decide)) rfl
  case binHor => exact h.field 10 6 (.ofFin p.binHor) rfl rfl (modesWord_offset p 6 (by decide)) rfl
  case binVer => exact h.field 10 7 (.ofFin p.binVer) rfl rfl (modesWord_offset p 7 (by decide)) rfl
  case composite => exact h.composite

theorem DecodesFrame.subFrames {m : ElphelMakerNote} (h : DecodesFrame p m) :
    DecodesFrame p (readSubFrames makerNote m) :=
  ⟨h.gain, h.gammaScale, h.gamma, h.black, h.woiLeft, h.woiWidth, h.woiTop, h.woiHeight, h.flipHor,
    h.flipVer, h.bayerMode, h.colorMode, h.decimHor, h.decimVer, h.binHor, h.binVer, h.composite⟩

theorem decodesSubFrames_read (h : Reads p makerNote) (m : ElphelMakerNote)
    (hheight : (p.woiHeight : ℕ) < 2 ^ 15) : DecodesSubFrames p (readSubFrames makerNote m) := by
  have hheight1 : maskLong (makerNote 11) 0xffff = (p.height1 : ℕ) :=
    h.lowest 11 (.ofFin p.height1) rfl rfl rfl
  have hblank1 : maskLong (shiftLong (makerNote 11) 16) 0xffff = (p.blank1 : ℕ) :=
    h.field 11 1 (.ofFin p.blank1) rfl rfl rfl rfl
  have hheight2 : maskLong (makerNote 12) 0xffff = (p.height2 : ℕ) :=
    h.lowest 12 (.ofFin p.height2) rfl rfl rfl
  have hblank2 : maskLong (shiftLong (makerNote 12) 16) 0xffff = (p.blank2 : ℕ) :=
    h.field 12 1 (.ofFin p.blank2) rfl rfl rfl rfl
  constructor
  case height1 => exact hheight1
  case blank1 => exact hblank1
  case height2 => exact hheight2
  case blank2 => exact hblank2
  case height3 =>
    have := p.height1.isLt
    have := p.blank1.isLt
    have := p.height2.isLt
    have := p.blank2.isLt
    simp only [readSubFrames, hheight1, hblank1, hheight2, hblank2, h.woiHeight, if_pos hheight]
    exact i32_of_small (by omega) (by omega)
  case flipH1 => exact h.flag 10 8 p.flipH1 rfl rfl (modesWord_offset p 8 (by decide))
  case flipV1 => exact h.flag 10 9 p.flipV1 rfl rfl (modesWord_offset p 9 (by decide))
  case flipH2 => exact h.flag 10 10 p.flipH2 rfl rfl (modesWord_offset p 10 (by decide))
  case flipV2 => exact h.flag 10 11 p.flipV2 rfl rfl (modesWord_offset p 11 (by decide))
  case flipH3 => exact h.flag 10 12 p.flipH3 rfl rfl (modesWord_offset p 12 (by decide))
  case flipV3 => exact h.flag 10 13 p.flipV3 rfl rfl (modesWord_offset p 13 (by decide))

theorem readFields_packed (p : MakerNoteFields) (spare : Fin (2 ^ 32)) (rest : List UInt8)
    (stack : ℕ → ℤ) (m : ElphelMakerNote) :
    ∃ makerNote, Reads p makerNote ∧ readFields stack (packMakerNote p spare rest) m =
      let m := { readWindow makerNote (readChannels makerNote m) with
        composite := decide (maskLong (makerNote 10) 0xc0000000 ≠ 0) }
      if m.composite then readSubFrames makerNote m else m := by
  have hlen : 14 ≤ (packMakerNote p spare rest).length / 4 := by
    rw [length_packMakerNote]
    omega
  refine ⟨fun i => if i < (packMakerNote p spare rest).length / 4 then
    getLong ((packMakerNote p spare rest).drop (i * 4)) else stack i, fun i word hi => ?_, ?_⟩
  · have hlt : i < p.words.length := (List.getElem?_eq_some_iff.mp hi).1
    have hthirteen : p.words.length = 13 := rfl
    simp only [(show i < (packMakerNote p spare rest).length / 4 by omega), if_true]
    exact getLong_packed (totalWidth_words p) [(spare : ℕ)] rest hi
  · simp only [readFields, hlen, if_true, (show 12 ≤ (packMakerNote p spare rest).length / 4 by omega)]

/-- A field that is not masked and has its top bit set comes out negative. -/
theorem black_lt_of_decodes (h : Reads p makerNote) (i : Fin 4)
    (hi : (shiftLong (makerNote (i + 4)) 24 : ℚ) / 256 = (p.black i : ℕ) / 256) :
    (p.black i : ℕ) < 2 ^ 7 := by
  by_contra hlarge
  have hval := h.black i
  rw [if_neg hlarge] at hval
  have hcast : (shiftLong (makerNote (i + 4)) 24 : ℚ) = ((p.black i : ℕ) : ℤ) := by
    have := mul_right_cancel₀ (by norm_num : (256 : ℚ)⁻¹ ≠ 0) (by simpa only [div_eq_mul_inv] using hi)
    exact_mod_cast this
  rw [Int.cast_inj] at hcast
  omega

theorem woiHeight_lt_of_decodes (h : Reads p makerNote)
    (hi : i32 (shiftLong (makerNote 9) 16) = (p.woiHeight : ℕ)) : (p.woiHeight : ℕ) < 2 ^ 15 := by
  by_contra hlarge
  have hlt := p.woiHeight.isLt
  rw [h.woiHeight, if_neg hlarge, i32_of_small (by omega) (by omega)] at hi
  omega

section RoundTrip
variable {p : MakerNoteFields} {spare : Fin (2 ^ 32)} {rest : List UInt8} {stack : ℕ → ℤ}
  {m : ElphelMakerNote}

theorem bounds_of_decodes (hdecodes : Decodes p (readFields stack (packMakerNote p spare rest) m)) :
    (∀ i, (p.black i : ℕ) < 2 ^ 7) ∧ (p.woiHeight : ℕ) < 2 ^ 15 := by
  obtain ⟨makerNote, h, he⟩ := readFields_packed p spare rest stack m
  rw [he] at hdecodes
  have hframe := hdecodes.1
  dsimp only at hframe
  split_ifs at hframe
  · exact ⟨fun i => black_lt_of_decodes h i (hframe.black i), woiHeight_lt_of_decodes h hframe.woiHeight⟩
  · exact ⟨fun i => black_lt_of_decodes h i (hframe.black i), woiHeight_lt_of_decodes h hframe.woiHeight⟩

theorem decodes_of_bounds (hblack : ∀ i, (p.black i : ℕ) < 2 ^ 7) (hheight : (p.woiHeight : ℕ) < 2 ^ 15) :
    Decodes p (readFields stack (packMakerNote p spare rest) m) := by
  obtain ⟨makerNote, h, he⟩ := readFields_packed p spare rest stack m
  have hframe := decodesFrame_read h m hblack hheight
  rw [he]
  dsimp only
  split_ifs with hcomposite
  · exact ⟨hframe.subFrames, fun _ => decodesSubFrames_read h _ hheight⟩
  · exact ⟨hframe, fun hc => absurd hc hcomposite⟩

end RoundTrip

end Packed

/-- `readMakerNote` undoes the packing exactly when the top bits of the black levels and of the
window height are not set. -/
theorem makerNote_round_trip_iff (p : MakerNoteFields) (spare : Fin (2 ^ 32)) (rest : List UInt8)
    (stack : ℕ → ℤ) (m : ElphelMakerNote) :
    Decodes p (readFields stack (packMakerNote p spare rest) m) ↔
      (∀ i, (p.black i : ℕ) < 2 ^ 7) ∧ (p.woiHeight : ℕ) < 2 ^ 15 :=
  ⟨bounds_of_decodes, fun h => decodes_of_bounds h.1 h.2⟩

/-- The black level 200 comes back as a negative number. -/
theorem makerNote_black_200 : ¬ ∀ (p : MakerNoteFields) (spare : Fin (2 ^ 32)) (rest : List UInt8)
    (stack : ℕ → ℤ) (m : ElphelMakerNote),
    Decodes p (readFields stack (packMakerNote p spare rest) m) := by
  intro h
  let p : MakerNoteFields :=
    { gain := fun _ => 0, gammaScale := fun _ => 0, gamma := fun _ => 0, black := fun _ => 200
      woiLeft := 0, woiWidth := 0, woiTop := 0, woiHeight := 0, flipHor := false, flipVer := false
      bayerMode := 0, colorMode := 0, decimHor := 0, decimVer := 0, binHor := 0, binVer := 0
      flipH1 := false, flipV1 := false, flipH2 := false, flipV2 := false, flipH3 := false
      flipV3 := false, compositeMode := 0, height1 := 0, blank1 := 0, height2 := 0, blank2 := 0 }
  let m : ElphelMakerNote :=
    { gain := fun _ => 0, gamma := fun _ => 0, gammaScale := fun _ => 0, black := fun _ => 0
      woiLeft := 0, woiWidth := 0, woiTop := 0, woiHeight := 0, flipHor := false, flipVer := false
      bayerMode := 0, colorMode := 0, decimHor := 0, decimVer := 0, binHor := 0, binVer := 0
      composite := false, height1 := 0, blank1 := 0, flipH1 := false, flipV1 := false
      height2 := 0, blank2 := 0, flipH2 := false, flipV2 := false, height3 := 0
      flipH3 := false, flipV3 := false }
  exact absurd ((bounds_of_decodes (h p 0 [] (fun _ => 0) m)).1 0) (by decide)

end Jp4Tools.MakerNote
