import Jp4Tools.MachineIntegers
import Jp4Tools.WhileLoops

/-!
# The movie iterator

`MovieIterator` keeps the range and the current frame in signed `int`s. Its constructor reads and
drops the packets before the start frame. `next` advances the current frame when `av_read_frame`
succeeds and at no other time.
-/

namespace Jp4Tools.MovieFrames
open MachineIntegers WhileLoops

/-- What the code uses of an open movie: the frame count of its first stream, and what the
successive calls of `av_read_frame` deliver. A failed call delivers nothing. -/
structure Movie where
  nbFrames : ℕ
  readFrame : ℕ → Option (List UInt8)

def nFrames (movie : Movie) : ℕ := u32 movie.nbFrames

/-- The members of `MovieIterator`. The buffer that `packet` owns is named by the call of
`av_read_frame` that allocated it; `position` counts these calls. -/
structure MovieIterator where
  start : ℤ
  endFrame : ℤ
  currentFrame : ℤ
  packet : Option ℕ
  position : ℕ

def beforeStart (start : ℤ) (s : ℤ × ℕ) : Bool := decide (s.1 + 1 < start)

def skipFrame (s : ℤ × ℕ) : Round (ℤ × ℕ) := .next (s.1 + 1, s.2 + 1)

/-- The loop that seeks the start frame, from a current frame of zero. It gives the current frame
and the position afterwards. -/
def skipFrames (start : ℤ) (position : ℕ) : ℤ × ℕ :=
  let skipped := (whileLoop (beforeStart start) skipFrame (start.toNat + 1) (0, position)).state
  (skipped.1 + 1, skipped.2)

/-- The constructor, on a movie of which `position` packets are read. -/
def construct (movie : Movie) (position start endFrame : ℕ) : MovieIterator :=
  let start := i32 start
  let endFrame := i32 endFrame
  let start := if start = 0 then 1 else start
  let endFrame := if endFrame = 0 ∨ endFrame > i32 (nFrames movie) then i32 (nFrames movie) else endFrame
  let skipped := skipFrames start position
  { start, endFrame, currentFrame := skipped.1, packet := none, position := skipped.2 }

def hasNext (it : MovieIterator) : Bool := decide (it.currentFrame ≤ it.endFrame)

/-- The variables that `next` sets through its pointers; `data` is null or points to the buffer of
the packet that the given call of `av_read_frame` delivered. -/
structure FrameOut where
  frame : ℕ
  data : Option ℕ
  size : ℕ

def next (movie : Movie) (it : MovieIterator) (out : FrameOut) : Bool × MovieIterator × FrameOut :=
  if it.currentFrame > it.endFrame then (false, it, out)
  else
    let it := if it.currentFrame > it.start then { it with packet := none } else it
    match movie.readFrame it.position with
    | some bytes =>
      (true,
        { it with
          packet := some it.position
          position := it.position + 1
          currentFrame := i32 (it.currentFrame + 1) },
        { frame := unsignedOf it.currentFrame, data := some it.position, size := bytes.length })
    | none => (false, { it with position := it.position + 1 }, out)

theorem skipFrames_eq (start position : ℕ) :
    skipFrames (start + 1 : ℕ) position = (((start + 1 : ℕ) : ℤ), position + start) := by
  have hstep : ∀ t < start, ∀ s, s = ((t : ℤ), position + t) →
      beforeStart (start + 1 : ℕ) s = true ∧
        ∃ s', skipFrame s = .next s' ∧ s' = (((t + 1 : ℕ) : ℤ), position + (t + 1)) := by
    intro t ht s hs
    subst hs
    refine ⟨decide_eq_true ?_, _, rfl, ?_⟩
    · push_cast
      omega
    · push_cast
      rfl
  obtain ⟨s, rfl, hrun⟩ := whileLoop_reaches (fun t s => s = ((t : ℤ), position + t)) start rfl hstep
  have hdone : beforeStart (start + 1 : ℕ) ((start : ℤ), position + start) = false :=
    decide_eq_false (by push_cast; omega)
  have hfuel : ((start + 1 : ℕ) : ℤ).toNat + 1 = start + (1 + 1) := rfl
  have hzero : ((0 : ℤ), position) = (((0 : ℕ) : ℤ), position + 0) := rfl
  rw [skipFrames, hfuel, hzero, hrun, whileLoop_done hdone, Outcome.after_state]
  push_cast
  rfl

section Construct
variable {movie : Movie} {start endFrame : ℕ}

theorem nFrames_lt (movie : Movie) : nFrames movie < 2 ^ 32 := Nat.mod_lt _ (by decide)

theorem construct_inside (hmovie : nFrames movie < 2 ^ 31) (hstart : start + 1 < 2 ^ 31)
    (hend : endFrame ≤ nFrames movie) (hzero : endFrame = 0 → nFrames movie = 0) (position : ℕ) :
    construct movie position (start + 1) endFrame =
      { start := (start + 1 : ℕ), endFrame := endFrame, currentFrame := (start + 1 : ℕ), packet := none
        position := position + start } := by
  have hs : i32 (start + 1 : ℕ) = (start + 1 : ℕ) := i32_of_small (by omega) (by omega)
  have he : i32 endFrame = endFrame := i32_of_small (by omega) (by omega)
  have hn : i32 (nFrames movie) = nFrames movie := i32_of_small (by omega) (by omega)
  have hclamp : (if (endFrame : ℤ) = 0 ∨ (endFrame : ℤ) > nFrames movie then (nFrames movie : ℤ) else endFrame) =
      endFrame := by
    split_ifs with h
    · omega
    · rfl
  have hne : ((start + 1 : ℕ) : ℤ) ≠ 0 := by omega
  simp only [construct, hs, he, hn, hclamp, if_neg hne, skipFrames_eq]

/-- The frame count of a longer movie is negative as an `int`, and the iterator yields nothing. -/
theorem construct_long (hmovie : 2 ^ 31 ≤ nFrames movie) (hstart : start + 1 < 2 ^ 31)
    (hend : endFrame ≤ nFrames movie) (position : ℕ) :
    hasNext (construct movie position (start + 1) endFrame) = false := by
  have hs : i32 (start + 1 : ℕ) = (start + 1 : ℕ) := i32_of_small (by omega) (by omega)
  have hn : i32 (nFrames movie) = nFrames movie - 2 ^ 32 := i32_of_large hmovie (nFrames_lt movie)
  have hne : ((start + 1 : ℕ) : ℤ) ≠ 0 := by omega
  have hlt := nFrames_lt movie
  have he : i32 endFrame = endFrame ∨ 2 ^ 31 ≤ endFrame ∧ i32 endFrame = endFrame - 2 ^ 32 := by
    rcases Nat.lt_or_ge endFrame (2 ^ 31) with h | h
    · exact Or.inl (i32_of_small (by omega) (by omega))
    · exact Or.inr ⟨h, i32_of_large h (by omega)⟩
  have hclamp : (if i32 endFrame = 0 ∨ i32 endFrame > i32 (nFrames movie) then i32 (nFrames movie)
      else i32 endFrame) < 0 := by
    split_ifs with h <;> omega
  simp only [construct, hs, if_neg hne, skipFrames_eq, hasNext, decide_eq_false_iff_not, not_le]
  omega

end Construct

section Next
variable {movie : Movie} {it : MovieIterator} {out : FrameOut}

theorem next_some (h : hasNext it = true) {bytes : List UInt8}
    (hread : movie.readFrame it.position = some bytes) :
    next movie it out =
      (true,
        { start := it.start, endFrame := it.endFrame, currentFrame := i32 (it.currentFrame + 1)
          packet := some it.position, position := it.position + 1 },
        { frame := unsignedOf it.currentFrame, data := some it.position, size := bytes.length }) := by
  have hle : ¬ it.currentFrame > it.endFrame := not_lt.mpr (of_decide_eq_true h)
  simp only [next, if_neg hle]
  split_ifs <;> simp only [hread]

end Next

end Jp4Tools.MovieFrames
