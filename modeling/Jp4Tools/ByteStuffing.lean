import Jp4Tools.BitStrings

/-!
# Byte stuffing

In entropy-coded data a byte of all ones is followed by a zero byte, so that a byte of all ones
with anything else behind it is a marker. `dataSegment` cuts a file at the first marker and takes the
stuffed zeros out; a file that ends is as good as an end-of-image marker.
-/

namespace Jp4Tools.ByteStuffing
open BitStrings

def toBits (bytes : List UInt8) : List Bool := bytes.flatMap (fun b => bits 8 b.toNat)

def stuffByte (b : UInt8) : List UInt8 := if b = 0xFF then [0xFF, 0] else [b]

def stuff (bytes : List UInt8) : List UInt8 := bytes.flatMap stuffByte

/-- The data before a marker, the marker, and what is behind it. -/
structure Segment where
  data : List UInt8
  marker : UInt8
  rest : List UInt8

def Segment.prepend (b : UInt8) (s : Segment) : Segment := { s with data := b :: s.data }

/-- Reads data; the flag says that a byte of all ones has been read. -/
def segmentFrom : Bool → List UInt8 → Segment
  | _, [] => ⟨[], 0xD9, []⟩
  | false, b :: l => if b = 0xFF then segmentFrom true l else (segmentFrom false l).prepend b
  | true, b :: l =>
    if b = 0xFF then segmentFrom true l
    else if b = 0 then (segmentFrom false l).prepend 0xFF
    else ⟨[], b, l⟩

def dataSegment (l : List UInt8) : Segment := segmentFrom false l

/-- What comes behind bytes of all ones; more of them are padding. -/
def afterOnes : List UInt8 → UInt8 × List UInt8
  | [] => (0xD9, [])
  | b :: l => if b = 0xFF then afterOnes l else (b, l)

theorem toBits_cons (b : UInt8) (l : List UInt8) : toBits (b :: l) = bits 8 b.toNat ++ toBits l :=
  List.flatMap_cons

theorem toBits_append (l l' : List UInt8) : toBits (l ++ l') = toBits l ++ toBits l' :=
  List.flatMap_append

theorem length_toBits (l : List UInt8) : (toBits l).length = 8 * l.length := by
  induction l with
  | nil => rfl
  | cons b l ih => rw [toBits_cons, List.length_append, length_bits, ih, List.length_cons, Nat.mul_succ, Nat.add_comm]

theorem stuff_append (l l' : List UInt8) : stuff (l ++ l') = stuff l ++ stuff l' :=
  List.flatMap_append

theorem stuff_singleton (b : UInt8) : stuff [b] = stuffByte b := List.flatMap_singleton ..

theorem segment_stuffByte (b : UInt8) (l : List UInt8) :
    dataSegment (stuffByte b ++ l) = (dataSegment l).prepend b := by
  by_cases h : b = 0xFF
  · rw [stuffByte, if_pos h, h]
    rfl
  · rw [stuffByte, if_neg h, List.singleton_append, dataSegment, segmentFrom, if_neg h, dataSegment]

theorem segment_stuff (bytes l : List UInt8) :
    dataSegment (stuff bytes ++ l) = { dataSegment l with data := bytes ++ (dataSegment l).data } := by
  induction bytes with
  | nil => rfl
  | cons b bytes ih =>
    have hcons : stuff (b :: bytes) = stuffByte b ++ stuff bytes := List.flatMap_cons
    rw [hcons, List.append_assoc, segment_stuffByte, ih]
    rfl

theorem segment_marker {m : UInt8} (h0 : m ≠ 0) (hff : m ≠ 0xFF) (l : List UInt8) :
    dataSegment (0xFF :: m :: l) = ⟨[], m, l⟩ := by
  rw [dataSegment, segmentFrom, if_pos rfl, segmentFrom, if_neg hff, if_neg h0]

theorem segment_stuff_marker (bytes : List UInt8) {m : UInt8} (h0 : m ≠ 0) (hff : m ≠ 0xFF) (l : List UInt8) :
    dataSegment (stuff bytes ++ 0xFF :: m :: l) = ⟨bytes, m, l⟩ := by
  rw [segment_stuff, segment_marker h0 hff, List.append_nil]

theorem segmentFrom_true (l : List UInt8) : segmentFrom true l =
    if (afterOnes l).1 = 0 then (dataSegment (afterOnes l).2).prepend 0xFF
    else ⟨[], (afterOnes l).1, (afterOnes l).2⟩ := by
  induction l with
  | nil => rfl
  | cons b l ih =>
    by_cases hff : b = 0xFF
    · rw [segmentFrom, afterOnes, if_pos hff, if_pos hff, ih]
    · rw [segmentFrom, afterOnes, if_neg hff, if_neg hff]
      rfl

theorem marker_ne (l : List UInt8) : (dataSegment l).marker ≠ 0 ∧ (dataSegment l).marker ≠ 0xFF := by
  have h : ∀ ff : Bool, (segmentFrom ff l).marker ≠ 0 ∧ (segmentFrom ff l).marker ≠ 0xFF := by
    induction l with
    | nil =>
      intro ff
      cases ff <;> exact ⟨by decide, by decide⟩
    | cons b l ih =>
      intro ff
      cases ff with
      | false =>
        rw [segmentFrom]
        split_ifs with hb
        · exact ih true
        · exact ih false
      | true =>
        rw [segmentFrom]
        split_ifs with hb hzero
        · exact ih true
        · exact ih false
        · exact ⟨hzero, hb⟩
  exact h false

/-- Less than eight bits are left of a segment only when all its bytes have been taken. -/
theorem data_eq_nil_of_short {l : List UInt8} {w : List Bool}
    (h : (w ++ toBits l).length < 8) : l = [] := by
  rw [List.length_append, length_toBits] at h
  exact List.length_eq_zero_iff.mp (by omega)

end Jp4Tools.ByteStuffing
