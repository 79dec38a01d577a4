import Mathlib.Data.List.Basic
import Mathlib.Algebra.Order.Ring.Int

/-!
# Source and destination managers of the JPEG library

The compressor writes single bytes into a buffer of 4096 bytes that is written to the file when it
is full; the decompressor reads from such a buffer, which is filled again when it is empty. At the
end of the file the source goes on with end-of-image markers.
-/

namespace Jp4Tools.StdioManagers

def outputBufSize : ℕ := 4096
def inputBufSize : ℕ := 4096
def jpegEoi : UInt8 := 0xD9

/-- `my_destination_mgr`: the bytes before `next_output_byte`, the room behind them, and what has
been written to the file. -/
structure Destination where
  buffer : List UInt8
  freeInBuffer : ℕ
  outfile : List UInt8
  room : buffer.length + freeInBuffer = outputBufSize
  free_pos : 0 < freeInBuffer

/-- `my_source_mgr` once its first buffer has been read: the unread bytes of the buffer and of the
file, and the number of warnings about the end of the file. -/
structure Source where
  buffer : List UInt8
  infile : List UInt8
  eofWarnings : ℕ := 0

namespace Destination

def written (d : Destination) : List UInt8 := d.outfile ++ d.buffer

def initDestination (outfile : List UInt8) : Destination where
  buffer := []
  freeInBuffer := outputBufSize
  outfile := outfile
  room := rfl
  free_pos := by decide

/-- `emit_byte` and, when the buffer is full, `empty_output_buffer`. -/
def emitByte (d : Destination) (val : UInt8) : Destination :=
  if h : d.freeInBuffer - 1 = 0 then initDestination (d.outfile ++ (d.buffer ++ [val]))
  else { d with
    buffer := d.buffer ++ [val]
    freeInBuffer := d.freeInBuffer - 1
    room := by
      have hroom := d.room
      rw [List.length_append, List.length_singleton]
      omega
    free_pos := Nat.pos_of_ne_zero h }

@[simp] theorem written_init (outfile : List UInt8) : (initDestination outfile).written = outfile :=
  List.append_nil outfile

@[simp] theorem written_emitByte (d : Destination) (val : UInt8) :
    (d.emitByte val).written = d.written ++ [val] := by
  rw [emitByte]
  split_ifs with h
  · rw [written_init, written, List.append_assoc]
  · rw [written, written, List.append_assoc]

end Destination

namespace Source

def unread (s : Source) : List UInt8 := s.buffer ++ s.infile

def fillInputBuffer (s : Source) : Source :=
  if s.infile.take inputBufSize = [] then
    { s with buffer := [0xFF, jpegEoi], eofWarnings := s.eofWarnings + 1 }
  else { s with buffer := s.infile.take inputBufSize, infile := s.infile.drop inputBufSize }

/-- `INPUT_BYTE`: the next byte, from a new buffer if this one is empty. -/
def inputByte (s : Source) : UInt8 × Source :=
  let s := if s.buffer = [] then s.fillInputBuffer else s
  (s.buffer.headD 0, { s with buffer := s.buffer.tail })

/-- The source as a stream of bytes that does not end. -/
def nextByte : List UInt8 → UInt8 × List UInt8
  | [] => (0xFF, [jpegEoi])
  | b :: l => (b, l)

theorem fillInputBuffer_unread {s : Source} (h : s.buffer = []) :
    s.fillInputBuffer.unread = (if s.unread = [] then [0xFF, jpegEoi] else s.unread) ∧
      s.fillInputBuffer.buffer ≠ [] := by
  have htake : s.infile.take inputBufSize = [] ↔ s.infile = [] := by
    rw [List.take_eq_nil_iff]
    exact or_iff_right (by decide)
  simp only [fillInputBuffer, unread, h, List.nil_append]
  split_ifs with hfile hunread hunread
  · simp [hunread]
  · exact absurd (htake.mp hfile) hunread
  · exact absurd (htake.mpr hunread) hfile
  · exact ⟨List.take_append_drop _ _, hfile⟩

/-- Buffering does not show in the bytes that are read. -/
theorem inputByte_unread (s : Source) :
    (s.inputByte.1, s.inputByte.2.unread) = nextByte s.unread := by
  cases hbuffer : s.buffer with
  | cons b l => simp [inputByte, unread, hbuffer, nextByte]
  | nil =>
    obtain ⟨hfill, hne⟩ := fillInputBuffer_unread hbuffer
    have hread : (s.inputByte.1, s.inputByte.2.unread) =
        (s.fillInputBuffer.unread.headD 0, s.fillInputBuffer.unread.tail) := by
      rw [inputByte, if_pos hbuffer, unread]
      cases hb : s.fillInputBuffer.buffer with
      | nil => exact absurd hb hne
      | cons c cs => simp [unread, hb]
    rw [hread, hfill]
    split_ifs with hunread
    · rw [hunread]
      rfl
    · cases hs : s.unread with
      | nil => exact absurd hs hunread
      | cons c cs => rfl

end Source

end Jp4Tools.StdioManagers
