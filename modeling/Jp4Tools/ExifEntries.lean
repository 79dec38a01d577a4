import Jp4Tools.MachineIntegers
import Mathlib.Data.Nat.Digits.Defs

/-!
# EXIF entries

An entry has a format, a number of components, and the bytes of these in the byte order of its
block. The functions of libexif read a number at an address, and do not know the entry it lies in.
A block has five directories; a tag is searched in all of them, by its number.
-/

namespace Jp4Tools.ExifEntries
open MachineIntegers

inductive ByteOrder where
  | motorola
  | intel
  deriving DecidableEq

def decode : ByteOrder → List UInt8 → ℕ
  | .motorola, bytes => Nat.ofDigits 256 (bytes.reverse.map UInt8.toNat)
  | .intel, bytes => Nat.ofDigits 256 (bytes.map UInt8.toNat)

inductive ExifFormat where
  | byte
  | ascii
  | short
  | long
  | rational
  | sbyte
  | undefined
  | sshort
  | slong
  | srational
  | float
  | double
  deriving DecidableEq

def ExifFormat.size : ExifFormat → ℕ
  | .byte => 1
  | .ascii => 1
  | .short => 2
  | .long => 4
  | .rational => 8
  | .sbyte => 1
  | .undefined => 1
  | .sshort => 2
  | .slong => 4
  | .srational => 8
  | .float => 4
  | .double => 8

def ExifFormat.Fractional (f : ExifFormat) : Prop := f = .rational ∨ f = .srational

instance (f : ExifFormat) : Decidable f.Fractional := instDecidableOr

def ExifFormat.Integral (f : ExifFormat) : Prop := f = .byte ∨ f = .short ∨ f = .long

instance (f : ExifFormat) : Decidable f.Integral := instDecidableOr

structure ExifEntry where
  tag : ℕ
  format : ExifFormat
  components : ℕ
  data : List UInt8
  length_data : data.length = components * format.size

section Reading
variable (order : ByteOrder) (memory : ℕ → UInt8) (address : ℕ)

def bytesAt (n : ℕ) : List UInt8 := (List.range n).map (fun i => memory (address + i))

def exifGetLong : ℕ := decode order (bytesAt memory address 4)

def exifGetRational : ℤ × ℤ := (exifGetLong order memory address, exifGetLong order memory (address + 4))

def exifGetSRational : ℤ × ℤ :=
  (i32 (exifGetLong order memory address), i32 (exifGetLong order memory (address + 4)))

end Reading

/-- The memory from the address of the data on, with something behind them. -/
def ExifEntry.memory (e : ExifEntry) (behind : ℕ → UInt8) (i : ℕ) : UInt8 := (e.data[i]?).getD (behind i)

def decodeFraction (order : ByteOrder) (bytes : List UInt8) : ℤ × ℤ :=
  (decode order (bytes.take 4), decode order (bytes.drop 4))

def ExifEntry.component (e : ExifEntry) (i : ℕ) : List UInt8 :=
  (e.data.drop (i * e.format.size)).take e.format.size

/-- The fractions of an entry, without sign. -/
def ExifEntry.fractions (order : ByteOrder) (e : ExifEntry) : List (ℤ × ℤ) :=
  (List.range e.components).map (fun i => decodeFraction order (e.component i))

structure ExifBlock where
  order : ByteOrder
  ifd0 : List ExifEntry
  ifd1 : List ExifEntry
  exifIfd : List ExifEntry
  gpsIfd : List ExifEntry
  interoperabilityIfd : List ExifEntry

/-- The function `exif_data_get_entry`: the first entry with the tag, directory by directory. -/
def ExifBlock.getEntry (d : ExifBlock) (tag : ℕ) : Option ExifEntry :=
  (d.ifd0 ++ d.ifd1 ++ d.exifIfd ++ d.gpsIfd ++ d.interoperabilityIfd).find?
    (fun e => decide (e.tag = tag))

theorem ExifFormat.Fractional.size_eq {f : ExifFormat} (h : f.Fractional) : f.size = 8 := by
  rcases h with rfl | rfl <;> rfl

section Decoding
variable {order : ByteOrder} {bytes : List UInt8} {e : ExifEntry} {behind : ℕ → UInt8}

theorem decode_lt (order : ByteOrder) (bytes : List UInt8) : decode order bytes < 256 ^ bytes.length := by
  have hdigit : ∀ bytes : List UInt8, ∀ d ∈ bytes.map UInt8.toNat, d < 256 := by
    intro bytes d hd
    obtain ⟨b, -, rfl⟩ := List.mem_map.mp hd
    exact b.toNat_lt
  cases order with
  | motorola =>
    have hlt := Nat.ofDigits_lt_base_pow_length (by omega) (hdigit bytes.reverse)
    rwa [List.length_map, List.length_reverse] at hlt
  | intel =>
    have hlt := Nat.ofDigits_lt_base_pow_length (by omega) (hdigit bytes)
    rwa [List.length_map] at hlt

theorem bytesAt_memory {address n : ℕ} (h : address + n ≤ e.data.length) :
    bytesAt (e.memory behind) address n = (e.data.drop address).take n := by
  apply List.ext_getElem
  · rw [bytesAt, List.length_map, List.length_range, List.length_take, List.length_drop]
    omega
  · intro i hi hi'
    rw [bytesAt, List.length_map, List.length_range] at hi
    have hlt : address + i < e.data.length := by omega
    simp only [bytesAt, List.getElem_map, List.getElem_range, ExifEntry.memory, List.getElem_take,
      List.getElem_drop, List.getElem?_eq_getElem hlt, Option.getD_some]

theorem exifGetLong_memory {address : ℕ} (h : address + 4 ≤ e.data.length) :
    exifGetLong order (e.memory behind) address = decode order ((e.data.drop address).take 4) := by
  rw [exifGetLong, bytesAt_memory h]

theorem exifGetRational_memory {address : ℕ} (h : address + 8 ≤ e.data.length) :
    exifGetRational order (e.memory behind) address =
      decodeFraction order ((e.data.drop address).take 8) := by
  rw [exifGetRational, exifGetLong_memory (by omega), exifGetLong_memory (by omega), decodeFraction,
    List.take_take, List.drop_take, List.drop_drop]
  rfl

theorem exifGetSRational_eq (memory : ℕ → UInt8) (address : ℕ) :
    exifGetSRational order memory address =
      Prod.map i32 i32 (exifGetRational order memory address) := rfl

theorem decodeFraction_lt (h : bytes.length ≤ 8) :
    ∃ n d : ℕ, decodeFraction order bytes = ((n : ℤ), (d : ℤ)) ∧ n < 2 ^ 32 ∧ d < 2 ^ 32 := by
  have hfour : ∀ part : List UInt8, part.length ≤ 4 → decode order part < 2 ^ 32 := by
    intro part hpart
    apply (decode_lt order part).trans_le
    exact (Nat.pow_le_pow_right (by omega) hpart).trans_eq rfl
  refine ⟨_, _, rfl, hfour _ (List.length_take_le _ _), hfour _ ?_⟩
  rw [List.length_drop]
  omega

theorem length_fractions : (e.fractions order).length = e.components := by
  rw [ExifEntry.fractions, List.length_map, List.length_range]

theorem fractions_one (h : e.format.Fractional) (hone : e.components = 1) :
    e.fractions order = [decodeFraction order (e.data.take 8)] := by
  simp only [ExifEntry.fractions, hone, List.range_one, List.map_cons, List.map_nil, ExifEntry.component,
    h.size_eq, Nat.zero_mul, List.drop_zero]

end Decoding

end Jp4Tools.ExifEntries
