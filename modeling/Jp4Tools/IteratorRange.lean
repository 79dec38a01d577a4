import Jp4Tools.VideoStream

/-!
# The range of an iterator

A caller of `Movie::iterator` calls `next` as long as `hasNext` holds. The arguments are unsigned and
the members are signed: an end beyond `int` escapes the comparison with the frame count, a start
beyond `int` lies before the first frame, and the current frame wraps around behind the largest `int`.
-/

namespace Jp4Tools.IteratorRange
open MachineIntegers WhileLoops MovieFrames VideoStream

/-- A movie with a single stream, whose packets are its frames, and the arguments of
`Movie::iterator`. -/
structure IteratorCall where
  frames : List (List UInt8)
  start : ℕ
  endFrame : ℕ
  nFrames_lt : frames.length < 2 ^ 31
  start_lt : start < 2 ^ 32
  endFrame_lt : endFrame < 2 ^ 32

namespace IteratorCall

/-- The value of the default arguments, which are declared as -1. -/
def defaultArgument : ℕ := unsignedOf (-1)

variable (a : IteratorCall)

theorem countP_isVideo (frames : List (List UInt8)) :
    (frames.map (Packet.mk 0)).countP Packet.isVideo = frames.length := by
  rw [List.countP_map, List.countP_eq_length.mpr]
  intro frame _
  rfl

def container : Container where
  packets := a.frames.map (Packet.mk 0)
  count_lt := by
    rw [countP_isVideo]
    exact a.nFrames_lt.trans (by decide)

def construction : Calls where
  it := construct a.container.movie 0 a.start a.endFrame
  out := { frame := 0, data := none, size := 0 }
  delivered := []

def iteration (fuel : ℕ) : Outcome Calls :=
  whileLoop (fun s => hasNext s.it) (fun s => .next (callNext a.container.movie s)) fuel a.construction

def firstFrame : ℕ := max 1 a.start

def lastFrame : ℕ :=
  if a.endFrame = 0 ∨ a.endFrame > a.frames.length then a.frames.length else a.endFrame

/-- What `next` is to set for the frames of the range: frame `f` has the packet that the call of
`av_read_frame` with number `f - 1` reads, counted from zero. -/
def rangeFrames : List FrameOut :=
  (List.range' a.firstFrame (a.lastFrame + 1 - a.firstFrame)).map fun f =>
    { frame := f, data := some (f - 1), size := ((a.frames[f - 1]?).map List.length).getD 0 }

/-- The loop ends, and has yielded the frames of the range. -/
def Honours : Prop :=
  ∃ fuel, (a.iteration fuel).finished = true ∧ (a.iteration fuel).state.delivered = a.rangeFrames

section Iteration
variable {a}

theorem nbFrames_container : a.container.nbFrames = a.frames.length := countP_isVideo a.frames

theorem nFrames_container : nFrames a.container.movie = a.frames.length := by
  rw [Container.nFrames_movie, nbFrames_container]

theorem length_packets : a.container.packets.length = a.frames.length := List.length_map _

theorem lastFrame_le : a.lastFrame ≤ a.frames.length := by
  rw [lastFrame]
  split_ifs with h
  · exact le_rfl
  · omega

theorem lastFrame_eq_zero (h : a.lastFrame = 0) : a.frames.length = 0 := by
  rw [lastFrame] at h
  split_ifs at h with hclamp
  · exact h
  · omega

theorem rangeFrames_eq_nil_iff : a.rangeFrames = [] ↔ a.lastFrame < a.firstFrame := by
  rw [rangeFrames, List.map_eq_nil_iff, List.range'_eq_nil_iff]
  omega

/-- A run of the loop is a number of calls of `next`, of which the last ones may be refused. -/
theorem iteration_eq (fuel : ℕ) :
    (a.iteration fuel).state = (callNext a.container.movie)^[fuel] a.construction ∧
      (a.iteration (fuel + 1)).finished =
        !hasNext ((callNext a.container.movie)^[fuel] a.construction).it :=
  whileLoop_iterate (fun _ h => callNext_refused h) fuel a.construction

theorem honours_iff_exists_calls : a.Honours ↔
    ∃ n, hasNext ((callNext a.container.movie)^[n] a.construction).it = false ∧
      ((callNext a.container.movie)^[n] a.construction).delivered = a.rangeFrames := by
  constructor
  · rintro ⟨fuel, hfinished, hdelivered⟩
    cases fuel with
    | zero => exact absurd hfinished Bool.false_ne_true
    | succ fuel =>
      have hlast : hasNext ((callNext a.container.movie)^[fuel] a.construction).it = false := by
        rw [← Bool.not_eq_true']
        exact (iteration_eq fuel).2.symm.trans hfinished
      rw [(iteration_eq (fuel + 1)).1, Function.iterate_succ_apply', callNext_refused hlast]
        at hdelivered
      exact ⟨fuel, hlast, hdelivered⟩
  · rintro ⟨n, hlast, hdelivered⟩
    refine ⟨n + 1, ?_, ?_⟩
    · rw [(iteration_eq n).2, hlast]
      rfl
    · rw [(iteration_eq (n + 1)).1, Function.iterate_succ_apply', callNext_refused hlast, hdelivered]

theorem honours_of_refused (h : hasNext a.construction.it = false) :
    a.Honours ↔ a.lastFrame < a.firstFrame := by
  have hcalls : ∀ n, (callNext a.container.movie)^[n] a.construction = a.construction :=
    Function.iterate_fixed (callNext_refused h)
  rw [honours_iff_exists_calls, ← rangeFrames_eq_nil_iff]
  constructor
  · rintro ⟨n, -, hdelivered⟩
    rw [hcalls] at hdelivered
    exact hdelivered.symm
  · intro hnil
    exact ⟨0, h, hnil.symm⟩

theorem i32_nFrames : i32 (nFrames a.container.movie) = a.frames.length := by
  have hlt := a.nFrames_lt
  rw [nFrames_container]
  exact i32_of_small (by omega) (by omega)

theorem endFrame_of_negative (hend : 2 ^ 31 ≤ a.endFrame) :
    a.construction.it.endFrame = a.endFrame - 2 ^ 32 := by
  have he : i32 a.endFrame = a.endFrame - 2 ^ 32 := i32_of_large hend a.endFrame_lt
  have hlt := a.endFrame_lt
  simp only [construction, construct, i32_nFrames, he]
  rw [if_neg (by omega)]

theorem currentFrame_pos : 1 ≤ a.construction.it.currentFrame := by
  rcases lt_or_ge a.start (2 ^ 31) with hstart | hstart
  · rcases Nat.eq_zero_or_pos a.start with hzero | hpos
    · have hskip := skipFrames_eq 0 0
      simp only [construction, construct, hzero]
      exact le_of_eq (congrArg Prod.fst hskip).symm
    · have hs : i32 a.start = a.start := i32_of_small (by omega) (by omega)
      have hne : (a.start : ℤ) ≠ 0 := by omega
      have hskip := skipFrames_eq (a.start - 1) 0
      rw [Nat.sub_add_cancel hpos] at hskip
      simp only [construction, construct, hs, if_neg hne, hskip]
      omega
  · rw [construction, construct_negative hstart a.start_lt]

theorem refused_of_negative (hend : 2 ^ 31 ≤ a.endFrame) : hasNext a.construction.it = false := by
  have hpos := currentFrame_pos (a := a)
  have hlt := a.endFrame_lt
  rw [hasNext, endFrame_of_negative hend, decide_eq_false_iff_not, not_le]
  omega

theorem construct_eq (hend : a.endFrame < 2 ^ 31) :
    construct a.container.movie 0 a.start a.endFrame =
      construct a.container.movie 0 a.firstFrame a.lastFrame := by
  have hlt := a.nFrames_lt
  have hle := a.lastFrame_le
  have he : i32 a.endFrame = a.endFrame := i32_of_small (by omega) (by omega)
  have hl : i32 a.lastFrame = a.lastFrame := i32_of_small (by omega) (by omega)
  have hclamp : (if (a.endFrame : ℤ) = 0 ∨ (a.endFrame : ℤ) > a.frames.length then
      (a.frames.length : ℤ) else a.endFrame) =
      if (a.lastFrame : ℤ) = 0 ∨ (a.lastFrame : ℤ) > a.frames.length then (a.frames.length : ℤ)
      else a.lastFrame := by
    rw [lastFrame]
    split_ifs <;> omega
  have hfirst : (if i32 a.start = 0 then 1 else i32 a.start) =
      if i32 a.firstFrame = 0 then 1 else i32 a.firstFrame := by
    rcases Nat.eq_zero_or_pos a.start with hzero | hpos
    · rw [firstFrame, hzero]
      rfl
    · rw [firstFrame, max_eq_right hpos]
  simp only [construct, i32_nFrames, he, hl, hclamp, hfirst]

end Iteration

def frameRange : FrameRange where
  container := a.container
  start := a.firstFrame
  endFrame := a.lastFrame
  start_pos := le_max_left _ _
  start_lt := max_lt (by decide) a.start_lt
  endFrame_le := lastFrame_le.trans_eq nbFrames_container.symm

section Inside
variable {a}

theorem calls_frameRange (hend : a.endFrame < 2 ^ 31) (n : ℕ) :
    a.frameRange.calls n = (callNext a.container.movie)^[n] a.construction := by
  rw [construction, construct_eq hend]
  rfl

theorem lastFrame_frameRange : a.frameRange.lastFrame = a.lastFrame := by
  rw [FrameRange.lastFrame]
  split_ifs with h
  · exact nbFrames_container.trans ((lastFrame_eq_zero h).trans h.symm)
  · rfl

theorem frameAt_container {position : ℕ} (h : position + 1 < 2 ^ 31) :
    frameAt a.container position =
      { frame := position + 1, data := some position
        size := ((a.frames[position]?).map List.length).getD 0 } := by
  have hframe : unsignedOf (i32 (position + 1 : ℕ)) = position + 1 := by
    rw [unsignedOf_i32, unsignedOf_natCast (by omega)]
  simp only [frameAt, hframe, container, List.getElem?_map, Option.map_map]
  rfl

theorem map_frameAt_eq : (List.range' (a.firstFrame - 1) (a.lastFrame + 1 - a.firstFrame)).map
    (frameAt a.container) = a.rangeFrames := by
  have hpos : 1 ≤ a.firstFrame := le_max_left _ _
  have hle := a.lastFrame_le
  have hlt := a.nFrames_lt
  obtain ⟨first, hfirst⟩ := Nat.exists_eq_add_of_le hpos
  rw [rangeFrames, hfirst, Nat.add_sub_cancel_left, ← List.map_add_range', List.map_map]
  apply List.map_congr_left
  intro position hposition
  rw [List.mem_range'_1] at hposition
  rw [Function.comp_apply, Nat.add_sub_cancel_left, Nat.add_comm 1]
  exact frameAt_container (by omega)

/-- Inside `int` the range is honoured, unless the current frame cannot get beyond the last frame. -/
theorem honours_inside (hstart : a.start < 2 ^ 31) (hend : a.endFrame < 2 ^ 31) :
    a.Honours ↔ a.lastFrame ≠ 2 ^ 31 - 1 := by
  have hmovie : a.frameRange.container.nbFrames < 2 ^ 31 :=
    nbFrames_container.trans_lt a.nFrames_lt
  have hfirst : a.frameRange.start < 2 ^ 31 := max_lt (by decide) hstart
  rw [honours_iff_exists_calls]
  constructor
  · rintro ⟨n, hnext, -⟩ hwrap
    obtain ⟨hcount, hlast, -⟩ := FrameRange.calls_counting hfirst hmovie n
    rw [calls_frameRange hend] at hcount hlast
    rw [lastFrame_frameRange, hwrap] at hlast
    have hlt := hcount.currentFrame_lt
    rw [hasNext, hlast, decide_eq_false_iff_not] at hnext
    omega
  · intro hwrap
    have hle := a.lastFrame_le
    have hlt := a.nFrames_lt
    have hlength := a.length_packets
    obtain ⟨hcount, hlast, hposition⟩ := FrameRange.calls_counting hfirst hmovie a.lastFrame
    rw [calls_frameRange hend] at hcount hlast hposition
    rw [lastFrame_frameRange, if_neg hwrap] at hposition
    have hposition : ((callNext a.container.movie)^[a.lastFrame] a.construction).it.position =
        max (a.firstFrame - 1) a.lastFrame := by
      rw [hposition]
      exact min_eq_right (max_le (Nat.le_add_right _ _) (Nat.le_add_left _ _))
    refine ⟨a.lastFrame, ?_, ?_⟩
    · have hfirst : a.firstFrame < 2 ^ 31 := hfirst
      have hread : max (a.firstFrame - 1) a.lastFrame ≤
          max a.container.packets.length (a.firstFrame - 1) := by
        rw [hlength]
        exact max_le (le_max_right _ _) (hle.trans (le_max_left _ _))
      have hcurrent := hcount.currentFrame_eq (hposition.trans_le hread)
      rw [hposition, i32_of_small (by omega) (by omega)] at hcurrent
      rw [hasNext, hlast, hcurrent, lastFrame_frameRange, decide_eq_false_iff_not, not_le]
      omega
    · have hpos : 1 ≤ a.firstFrame := le_max_left _ _
      have hrange : min (max (a.firstFrame - 1) a.lastFrame) a.container.packets.length -
          (a.firstFrame - 1) = a.lastFrame + 1 - a.firstFrame := by omega
      rw [hcount.delivered_eq, hposition, ← map_frameAt_eq, ← hrange]
      rfl

end Inside

section Negative
variable {a}

theorem callNext_delivered_ne_nil (c : Container) {s : Calls} (h : s.delivered ≠ []) :
    (callNext c.movie s).delivered ≠ [] := by
  rw [callNext]
  split
  · exact List.append_ne_nil_of_left_ne_nil h _
  · exact h

theorem iterate_delivered_ne_nil {c : Container} {s : Calls} {p : Packet} (hnext : hasNext s.it = true)
    (hread : c.packets[s.it.position]? = some p) (n : ℕ) : ((callNext c.movie)^[n + 1] s).delivered ≠ [] := by
  induction n with
  | zero =>
    rw [Function.iterate_one, callNext_read hnext hread]
    exact List.append_ne_nil_of_right_ne_nil _ (List.cons_ne_nil _ _)
  | succ n ih =>
    rw [Function.iterate_succ_apply']
    exact callNext_delivered_ne_nil c ih

theorem exists_first_packet (h : a.frames.length ≠ 0) : ∃ frame, a.container.packets[0]? = some (Packet.mk 0 frame) := by
  cases hframes : a.frames with
  | nil => exact absurd (congrArg List.length hframes) h
  | cons frame _ => exact ⟨frame, by simp only [container, hframes, List.map_cons, List.getElem?_cons_zero]⟩

theorem construction_of_start (hstart : 2 ^ 31 ≤ a.start) (hend : a.endFrame < 2 ^ 31) :
    a.construction.it =
      { start := a.start - 2 ^ 32, endFrame := a.lastFrame, currentFrame := 1, packet := none
        position := 0 } := by
  have hlt := a.nFrames_lt
  have hle := a.lastFrame_le
  have hfirst : a.firstFrame = a.start := max_eq_right (by omega)
  have hl : i32 a.lastFrame = a.lastFrame := i32_of_small (by omega) (by omega)
  have hclamp : (if (a.lastFrame : ℤ) = 0 ∨ (a.lastFrame : ℤ) > a.frames.length then
      (a.frames.length : ℤ) else a.lastFrame) = a.lastFrame := by
    have hzero := a.lastFrame_eq_zero
    split_ifs <;> omega
  rw [construction, construct_eq hend, hfirst, construct_negative hstart a.start_lt, i32_nFrames, hl, hclamp]

/-- A negative start lies before the first frame, so that a movie with frames yields some. -/
theorem honours_of_start (hstart : 2 ^ 31 ≤ a.start) (hend : a.endFrame < 2 ^ 31) :
    a.Honours ↔ a.frames.length = 0 := by
  have hlt := a.nFrames_lt
  have hle := a.lastFrame_le
  have hfirst : a.firstFrame = a.start := max_eq_right (by omega)
  have hit := construction_of_start hstart hend
  by_cases hmovie : a.frames.length = 0
  · have hnext : hasNext a.construction.it = false := by
      rw [hit, hasNext, decide_eq_false_iff_not, not_le]
      simp only
      omega
    rw [honours_of_refused hnext]
    constructor
    · intro _
      exact hmovie
    · intro _
      omega
  · have hnil : a.rangeFrames = [] := by
      rw [rangeFrames_eq_nil_iff]
      omega
    have hnext : hasNext a.construction.it = true := by
      have hzero := a.lastFrame_eq_zero
      rw [hit, hasNext, decide_eq_true_eq]
      simp only
      omega
    obtain ⟨frame, hframe⟩ := exists_first_packet hmovie
    have hread : a.container.packets[a.construction.it.position]? = some (Packet.mk 0 frame) := by
      rw [hit]
      exact hframe
    rw [honours_iff_exists_calls, hnil]
    constructor
    · rintro ⟨n, hlast, hyields⟩
      cases n with
      | zero =>
        rw [Function.iterate_zero_apply, hnext] at hlast
        cases hlast
      | succ n => exact absurd hyields (iterate_delivered_ne_nil hnext hread n)
    · intro h
      exact absurd h hmovie

end Negative

end IteratorCall

/-- The range is honoured exactly when its frames can be counted in an `int`: an end that is negative
as an `int`, or a last frame that is the largest one, does no harm to an empty range only, and a start
that is negative does none in an empty movie or with a negative end. -/
theorem iterator_honours_iff (a : IteratorCall) :
    a.Honours ↔
      (max 1 a.start ≤ a.frames.length → a.endFrame < 2 ^ 31 ∧
        ¬ (a.frames.length = 2 ^ 31 - 1 ∧ (a.endFrame = 0 ∨ a.endFrame = 2 ^ 31 - 1))) ∧
      (2 ^ 31 ≤ a.start → a.frames.length = 0 ∨ 2 ^ 31 ≤ a.endFrame) := by
  have hlt := a.nFrames_lt
  rcases lt_or_ge a.endFrame (2 ^ 31) with hend | hend
  · rcases lt_or_ge a.start (2 ^ 31) with hstart | hstart
    · rw [IteratorCall.honours_inside hstart hend, IteratorCall.lastFrame]
      split_ifs <;> omega
    · rw [IteratorCall.honours_of_start hstart hend]
      omega
  · rw [IteratorCall.honours_of_refused (IteratorCall.refused_of_negative hend),
      IteratorCall.lastFrame, if_pos (Or.inr (hlt.trans_le hend)), IteratorCall.firstFrame]
    omega

/-- With the default end, the only frame of a movie is not yielded. -/
theorem default_end_yields_nothing : ¬ ∀ a : IteratorCall, a.Honours := by
  intro h
  let a : IteratorCall := ⟨[[7]], 1, IteratorCall.defaultArgument, by decide, by decide, by decide⟩
  have hempty := (IteratorCall.honours_of_refused (a := a) (by decide)).mp (h a)
  exact absurd hempty (by decide)

end Jp4Tools.IteratorRange
