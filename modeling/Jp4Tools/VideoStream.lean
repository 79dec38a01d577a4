import Jp4Tools.MovieFrames
import Mathlib.Data.List.TakeDrop
import Mathlib.Logic.Function.Iterate

/-!
# Movies with several streams

The frame count and the codec of a movie are those of its first stream. `av_read_frame` returns the
packets of all streams in file order, and neither the loop that seeks the start frame nor `next`
looks at the stream of a packet.
-/

namespace Jp4Tools.VideoStream
open MachineIntegers WhileLoops MovieFrames

structure Packet where
  streamIndex : ℕ
  data : List UInt8

def Packet.isVideo (p : Packet) : Bool := p.streamIndex = 0

/-- The packets of all streams in file order, with a count of stream 0 that `nFrames` can hold. -/
structure Container where
  packets : List Packet
  count_lt : packets.countP Packet.isVideo < 2 ^ 32

def Container.nbFrames (c : Container) : ℕ := c.packets.countP Packet.isVideo

def Container.movie (c : Container) : Movie where
  nbFrames := c.nbFrames
  readFrame := fun i => (c.packets[i]?).map Packet.data

/-- The arguments of an iterator over a movie. An `end` of zero stands for the last frame. -/
structure FrameRange where
  container : Container
  start : ℕ
  endFrame : ℕ
  start_pos : 1 ≤ start
  start_lt : start < 2 ^ 32
  endFrame_le : endFrame ≤ container.nbFrames

structure Calls where
  it : MovieIterator
  out : FrameOut
  delivered : List FrameOut

def callNext (movie : Movie) (s : Calls) : Calls :=
  match next movie s.it s.out with
  | (true, it, out) => { it, out, delivered := s.delivered ++ [out] }
  | (false, it, out) => { it, out, delivered := s.delivered }

def FrameRange.calls (r : FrameRange) (n : ℕ) : Calls :=
  (callNext r.container.movie)^[n]
    { it := construct r.container.movie 0 r.start r.endFrame
      out := { frame := 0, data := none, size := 0 }
      delivered := [] }

/-- What a call of `next` sets when it delivers packet number `index` of stream 0, counted from
zero, as frame `frame`. -/
def IsVideoFrame (c : Container) (d : FrameOut) (frame index : ℕ) : Prop :=
  d.frame = frame ∧ ∃ position packet, d.data = some position ∧ c.packets[position]? = some packet ∧
    d.size = packet.data.length ∧ packet.isVideo = true ∧
    (c.packets.take position).countP Packet.isVideo = index

def OnlyVideo (c : Container) (n : ℕ) : Prop := ∀ p ∈ c.packets.take n, p.isVideo = true

/-- However often `next` is called, the frames it delivers are those of stream 0 from the start
frame on, and no packet of another stream is counted. -/
def DeliversVideo (r : FrameRange) : Prop :=
  ∀ n, (∀ k d, (r.calls n).delivered[k]? = some d →
    IsVideoFrame r.container d (r.start + k) (r.start + k - 1)) ∧
    OnlyVideo r.container (r.calls n).it.position

def FrameRange.lastFrame (r : FrameRange) : ℕ :=
  if r.endFrame = 0 then r.container.nbFrames else r.endFrame

/-- How many packets the iterator gets to. At the largest `int` the current frame wraps around, and
the iterator goes on to the end of the file. -/
def FrameRange.packetCount (r : FrameRange) : ℕ :=
  if r.lastFrame = 2 ^ 31 - 1 then r.container.packets.length else max (r.start - 1) r.lastFrame

section Construct
variable {c : Container} {start endFrame : ℕ}

theorem Container.nFrames_movie (c : Container) : nFrames c.movie = c.nbFrames := u32_of_lt c.count_lt

theorem Container.nbFrames_le (c : Container) : c.nbFrames ≤ c.packets.length := List.countP_le_length

theorem construct_zero (movie : Movie) (position start : ℕ) :
    construct movie position start 0 = construct movie position start (nFrames movie) := by
  have hzero : i32 ((0 : ℕ) : ℤ) = 0 := rfl
  have hself : (if i32 (nFrames movie) = 0 ∨ i32 (nFrames movie) > i32 (nFrames movie) then
      i32 (nFrames movie) else i32 (nFrames movie)) = i32 (nFrames movie) := ite_self _
  simp only [construct, hzero, true_or, if_true, hself]

theorem FrameRange.lastFrame_le (r : FrameRange) : r.lastFrame ≤ r.container.nbFrames := by
  rw [FrameRange.lastFrame]
  split_ifs
  · exact le_rfl
  · exact r.endFrame_le

theorem FrameRange.construct_lastFrame (r : FrameRange) :
    construct r.container.movie 0 r.start r.endFrame =
      construct r.container.movie 0 r.start r.lastFrame := by
  rw [FrameRange.lastFrame]
  split_ifs with h
  · rw [h, construct_zero, Container.nFrames_movie]
  · rfl

theorem construct_negative (hstart : 2 ^ 31 ≤ start) (hlt : start < 2 ^ 32) (movie : Movie)
    (endFrame : ℕ) :
    construct movie 0 start endFrame =
      { start := start - 2 ^ 32
        endFrame := if i32 endFrame = 0 ∨ i32 endFrame > i32 (nFrames movie) then i32 (nFrames movie)
          else i32 endFrame
        currentFrame := 1, packet := none, position := 0 } := by
  have hs : i32 start = start - 2 ^ 32 := i32_of_large hstart hlt
  have hne : (start : ℤ) - 2 ^ 32 ≠ 0 := by omega
  have hskip : skipFrames (start - 2 ^ 32) 0 = (1, 0) := by
    have hstop : beforeStart (start - 2 ^ 32) (0, 0) = false := by
      simp only [beforeStart, decide_eq_false_iff_not]
      omega
    simp only [skipFrames, whileLoop_done hstop]
    rfl
  simp only [construct, hs, if_neg hne, hskip]

end Construct

section Step
variable {c : Container} {s : Calls}

theorem callNext_refused (h : hasNext s.it = false) : callNext c.movie s = s := by
  have hgt : s.it.currentFrame > s.it.endFrame := by
    rw [hasNext, decide_eq_false_iff_not, not_le] at h
    exact h
  simp only [callNext, next, if_pos hgt]

theorem callNext_read (h : hasNext s.it = true) {p : Packet}
    (hp : c.packets[s.it.position]? = some p) :
    callNext c.movie s =
      { it := { start := s.it.start, endFrame := s.it.endFrame
                currentFrame := i32 (s.it.currentFrame + 1)
                packet := some s.it.position, position := s.it.position + 1 }
        out := { frame := unsignedOf s.it.currentFrame, data := some s.it.position
                 size := p.data.length }
        delivered := s.delivered ++
          [{ frame := unsignedOf s.it.currentFrame, data := some s.it.position
             size := p.data.length }] } := by
  have hread : c.movie.readFrame s.it.position = some p.data := by
    simp only [Container.movie, hp, Option.map_some]
  simp only [callNext, next_some h hread]

theorem callNext_end (h : hasNext s.it = true) (hp : c.packets[s.it.position]? = none) :
    (callNext c.movie s).delivered = s.delivered ∧
      (callNext c.movie s).it.position = s.it.position + 1 ∧
      (callNext c.movie s).it.endFrame = s.it.endFrame ∧
      (callNext c.movie s).it.currentFrame = s.it.currentFrame := by
  have hle : ¬ s.it.currentFrame > s.it.endFrame := not_lt.mpr (of_decide_eq_true h)
  have hread : c.movie.readFrame s.it.position = none := by
    simp only [Container.movie, hp, Option.map_none]
  simp only [callNext, next, if_neg hle]
  split_ifs <;> simp only [hread, and_self]

end Step

def frameAt (c : Container) (position : ℕ) : FrameOut where
  frame := unsignedOf (i32 (position + 1 : ℕ))
  data := some position
  size := ((c.packets[position]?).map (fun p => p.data.length)).getD 0

/-- The state of an iterator that skipped `skipped` packets, as long as it counts. The current frame
is known until a read fails. -/
structure Counting (c : Container) (skipped : ℕ) (s : Calls) : Prop where
  skipped_le : skipped ≤ s.it.position
  currentFrame_eq : s.it.position ≤ max c.packets.length skipped →
    s.it.currentFrame = i32 (s.it.position + 1 : ℕ)
  currentFrame_lt : s.it.currentFrame < 2 ^ 31
  delivered_eq : s.delivered =
    (List.range' skipped (min s.it.position c.packets.length - skipped)).map (frameAt c)

section Run
variable {c : Container} {skipped : ℕ} {s : Calls}

theorem Counting.step (h : Counting c skipped s) :
    Counting c skipped (callNext c.movie s) ∧
      (callNext c.movie s).it.endFrame = s.it.endFrame ∧
      (callNext c.movie s).it.position =
        if hasNext s.it then s.it.position + 1 else s.it.position := by
  cases hnext : hasNext s.it with
  | false =>
    rw [callNext_refused hnext]
    exact ⟨h, rfl, rfl⟩
  | true =>
    cases hp : c.packets[s.it.position]? with
    | none =>
      obtain ⟨hdelivered, hposition, hend, hcurrent⟩ := callNext_end hnext hp
      have hlen : c.packets.length ≤ s.it.position := List.getElem?_eq_none_iff.mp hp
      have hskipped := h.skipped_le
      refine ⟨⟨by omega, ?_, by rw [hcurrent]; exact h.currentFrame_lt, ?_⟩, hend, hposition⟩
      · intro hle
        omega
      · have hmin : min (s.it.position + 1) c.packets.length = min s.it.position c.packets.length := by
          omega
        rw [hdelivered, hposition, h.delivered_eq, hmin]
    | some p =>
      rw [callNext_read hnext hp]
      have hlt : s.it.position < c.packets.length := (List.getElem?_eq_some_iff.mp hp).1
      have hskipped := h.skipped_le
      have hcurrent := h.currentFrame_eq (by omega)
      refine ⟨⟨by simp only; omega, ?_, i32_lt _, ?_⟩, rfl, rfl⟩
      · intro _
        simp only [hcurrent]
        rw [i32, i32, i32, Int.bmod_add_bmod]
        push_cast
        rfl
      · have hcount : min (s.it.position + 1) c.packets.length - skipped =
            (min s.it.position c.packets.length - skipped) + 1 := by omega
        have hindex : skipped + (min s.it.position c.packets.length - skipped) = s.it.position := by omega
        simp only [hcount, List.range'_concat, List.map_append, ← h.delivered_eq, one_mul, hindex,
          List.map_cons, List.map_nil, frameAt, hp, hcurrent, Option.map_some, Option.getD_some]

theorem OnlyVideo.mono {m n : ℕ} (h : OnlyVideo c n) (hmn : m ≤ n) : OnlyVideo c m := by
  intro p hp
  exact h p ((List.take_prefix_take_left hmn).subset hp)

theorem OnlyVideo.all (h : OnlyVideo c c.packets.length) (n : ℕ) : OnlyVideo c n := by
  intro p hp
  rw [OnlyVideo, List.take_length] at h
  exact h p (List.mem_of_mem_take hp)

theorem OnlyVideo.nbFrames_eq (h : OnlyVideo c c.packets.length) : c.nbFrames = c.packets.length := by
  rw [OnlyVideo, List.take_length] at h
  exact List.countP_eq_length.mpr h

/-- When the first `n` packets belong to stream 0, an earlier packet of the file has the same number
in that stream. -/
theorem OnlyVideo.isVideoFrame {n : ℕ} (h : OnlyVideo c n) {position : ℕ} (hn : position < n)
    (hlen : position < c.packets.length) (hint : position + 1 < 2 ^ 32) :
    IsVideoFrame c (frameAt c position) (position + 1) position := by
  have hp : c.packets[position]? = some c.packets[position] := List.getElem?_eq_getElem hlen
  have hframe : (frameAt c position).frame = position + 1 := by
    simp only [frameAt, unsignedOf_i32]
    exact unsignedOf_natCast hint
  have hbefore : (c.packets.take position).countP Packet.isVideo = position := by
    have hall := List.countP_eq_length.mpr (h.mono hn.le)
    rwa [List.length_take, min_eq_left hlen.le] at hall
  have hsize : (frameAt c position).size = c.packets[position].data.length := by
    rw [frameAt, hp]
    rfl
  have hvideo : c.packets[position].isVideo = true := by
    apply h
    rw [List.mem_take_iff_getElem]
    exact ⟨position, by omega, rfl⟩
  exact ⟨hframe, position, _, rfl, hp, hsize, hvideo, hbefore⟩

theorem Counting.delivered_getElem? (h : Counting c skipped s) {k : ℕ} {d : FrameOut}
    (hd : s.delivered[k]? = some d) :
    d = frameAt c (skipped + k) ∧ skipped + k < s.it.position ∧ skipped + k < c.packets.length := by
  rw [h.delivered_eq, List.getElem?_map, Option.map_eq_some_iff] at hd
  obtain ⟨position, hposition, rfl⟩ := hd
  obtain ⟨hk, hposition⟩ := List.getElem?_eq_some_iff.mp hposition
  rw [List.length_range'] at hk
  rw [List.getElem_range', one_mul] at hposition
  exact ⟨by rw [hposition], by omega, by omega⟩

end Run

section Ranges
variable (r : FrameRange)

theorem FrameRange.calls_zero : r.calls 0 =
    { it := construct r.container.movie 0 r.start r.endFrame
      out := { frame := 0, data := none, size := 0 }
      delivered := [] } := rfl

theorem FrameRange.calls_succ (n : ℕ) : r.calls (n + 1) = callNext r.container.movie (r.calls n) :=
  Function.iterate_succ_apply' _ _ _

variable {r}

theorem FrameRange.calls_counting (hstart : r.start < 2 ^ 31) (hmovie : r.container.nbFrames < 2 ^ 31)
    (n : ℕ) :
    Counting r.container (r.start - 1) (r.calls n) ∧ (r.calls n).it.endFrame = r.lastFrame ∧
      (r.calls n).it.position =
        if r.lastFrame = 2 ^ 31 - 1 then r.start - 1 + n
        else min (r.start - 1 + n) (max (r.start - 1) r.lastFrame) := by
  have hlast := r.lastFrame_le
  have htotal := r.container.nbFrames_le
  have hpos := r.start_pos
  induction n with
  | zero =>
    have hzero : r.lastFrame = 0 → nFrames r.container.movie = 0 := by
      rw [Container.nFrames_movie, FrameRange.lastFrame]
      split_ifs <;> omega
    have hconstruct := @construct_inside _ (r.start - 1) _ (by rwa [Container.nFrames_movie])
      (by omega) (by rwa [Container.nFrames_movie]) hzero 0
    rw [Nat.sub_add_cancel hpos, Nat.zero_add] at hconstruct
    rw [FrameRange.calls_zero, FrameRange.construct_lastFrame, hconstruct]
    refine ⟨⟨le_rfl, ?_, ?_, ?_⟩, rfl, ?_⟩
    · intro _
      simp only [Nat.sub_add_cancel hpos]
      exact (i32_of_small (by omega) (by omega)).symm
    · simp only
      omega
    · have hnone : min (r.start - 1) r.container.packets.length - (r.start - 1) = 0 := by omega
      simp only [hnone, List.range'_zero, List.map_nil]
    · split_ifs <;> simp only <;> omega
  | succ n ih =>
    obtain ⟨hcount, hend, hposition⟩ := ih
    obtain ⟨hcount', hend', hposition'⟩ := hcount.step
    rw [FrameRange.calls_succ]
    refine ⟨hcount', hend'.trans hend, ?_⟩
    rw [hposition', hposition]
    by_cases hwrap : r.lastFrame = 2 ^ 31 - 1
    · have hnext : hasNext (r.calls n).it = true := by
        have hlt := hcount.currentFrame_lt
        rw [hasNext, hend, decide_eq_true_eq]
        omega
      rw [if_pos hnext, if_pos hwrap, if_pos hwrap]
      omega
    · rw [if_neg hwrap] at hposition
      have hcurrent := hcount.currentFrame_eq (by omega)
      rw [i32_of_small (by omega) (by omega)] at hcurrent
      have hnext : hasNext (r.calls n).it = true ↔ (r.calls n).it.position + 1 ≤ r.lastFrame := by
        rw [hasNext, hend, hcurrent, decide_eq_true_eq]
        omega
      rw [if_neg hwrap, if_neg hwrap]
      simp only [hnext]
      split_ifs <;> omega

theorem FrameRange.delivers_iff_counted (hstart : r.start < 2 ^ 31)
    (hmovie : r.container.nbFrames < 2 ^ 31) :
    DeliversVideo r ↔ OnlyVideo r.container r.packetCount := by
  have hlast := r.lastFrame_le
  have hpos := r.start_pos
  constructor
  · intro h
    rw [FrameRange.packetCount]
    split_ifs with hwrap
    · have hall := (h r.container.packets.length).2
      rw [(FrameRange.calls_counting hstart hmovie _).2.2, if_pos hwrap] at hall
      exact hall.mono (Nat.le_add_left _ _)
    · have hall := (h (max (r.start - 1) r.lastFrame)).2
      rw [(FrameRange.calls_counting hstart hmovie _).2.2, if_neg hwrap] at hall
      exact hall.mono (by omega)
  · intro h n
    obtain ⟨hcount, -, hposition⟩ := FrameRange.calls_counting hstart hmovie n
    have hposition : OnlyVideo r.container (r.calls n).it.position ∧ ∀ position,
        position < (r.calls n).it.position → position < r.container.packets.length →
        position < r.packetCount ∧ position + 1 < 2 ^ 32 := by
      rw [FrameRange.packetCount] at h ⊢
      split_ifs at h hposition ⊢ with hwrap
      · have htotal := h.nbFrames_eq
        refine ⟨h.all _, ?_⟩
        intro position _ hlt
        exact ⟨hlt, by omega⟩
      · refine ⟨h.mono (by omega), ?_⟩
        intro position hlt _
        omega
    refine ⟨?_, hposition.1⟩
    intro k d hd
    obtain ⟨rfl, hread, hfile⟩ := hcount.delivered_getElem? hd
    obtain ⟨hlt, hint⟩ := hposition.2 _ hread hfile
    have hframe := h.isVideoFrame hlt hfile hint
    have hnumber : r.start - 1 + k + 1 = r.start + k := by omega
    have hindex : r.start - 1 + k = r.start + k - 1 := by omega
    rw [hnumber] at hframe
    rwa [← hindex]

theorem FrameRange.delivers_iff_skipped {it : MovieIterator} (hnext : hasNext it = false)
    (hit : construct r.container.movie 0 r.start r.endFrame = it) :
    DeliversVideo r ↔ OnlyVideo r.container it.position := by
  have hcalls : ∀ n, r.calls n = r.calls 0 := by
    intro n
    induction n with
    | zero => rfl
    | succ n ih =>
      rw [FrameRange.calls_succ, ih, callNext_refused]
      rwa [FrameRange.calls_zero, hit]
  constructor
  · intro h
    have hzero := (h 0).2
    rwa [FrameRange.calls_zero, hit] at hzero
  · intro h n
    rw [hcalls n, FrameRange.calls_zero, hit]
    refine ⟨?_, h⟩
    intro k d hd
    simp at hd

/-- A frame count that is negative as an `int` leaves only the packets that are skipped. -/
theorem FrameRange.delivers_iff_long (hmovie : 2 ^ 31 ≤ r.container.nbFrames) :
    DeliversVideo r ↔ (r.start < 2 ^ 31 → OnlyVideo r.container (r.start - 1)) := by
  have hpos := r.start_pos
  rcases lt_or_ge r.start (2 ^ 31) with hstart | hstart
  · have hnext := @construct_long _ (r.start - 1) _ (by rwa [Container.nFrames_movie])
      (by omega) (r.endFrame_le.trans_eq r.container.nFrames_movie.symm) 0
    rw [Nat.sub_add_cancel hpos] at hnext
    have hposition : (construct r.container.movie 0 r.start r.endFrame).position = r.start - 1 := by
      have hs : i32 r.start = r.start := i32_of_small (by omega) (by omega)
      have hne : (r.start : ℤ) ≠ 0 := by omega
      have hskip := skipFrames_eq (r.start - 1) 0
      rw [Nat.sub_add_cancel hpos, Nat.zero_add] at hskip
      simp only [construct, hs, if_neg hne, hskip]
    rw [FrameRange.delivers_iff_skipped hnext rfl, hposition]
    constructor
    · intro h _
      exact h
    · intro h
      exact h hstart
  · have hcount := r.container.count_lt
    have hn : i32 r.container.nbFrames = r.container.nbFrames - 2 ^ 32 := i32_of_large hmovie hcount
    rw [← Container.nbFrames] at hcount
    have hnext : hasNext (construct r.container.movie 0 r.start r.endFrame) = false := by
      rw [construct_negative hstart r.start_lt, Container.nFrames_movie, hn, hasNext,
        decide_eq_false_iff_not, not_le]
      simp only
      split_ifs with h <;> omega
    rw [FrameRange.delivers_iff_skipped hnext rfl, construct_negative hstart r.start_lt]
    constructor
    · intro _ h
      omega
    · intro _ p hp
      simp at hp

theorem FrameRange.delivers_iff_negative (hstart : 2 ^ 31 ≤ r.start)
    (hmovie : r.container.nbFrames < 2 ^ 31) : DeliversVideo r ↔ r.container.nbFrames = 0 := by
  have hn : i32 r.container.nbFrames = r.container.nbFrames := i32_of_small (by omega) (by omega)
  have hlast := r.lastFrame_le
  have hend : i32 r.lastFrame = r.lastFrame := i32_of_small (by omega) (by omega)
  have hzero : r.lastFrame = 0 ↔ r.container.nbFrames = 0 := by
    have hle := r.endFrame_le
    rw [FrameRange.lastFrame]
    split_ifs <;> omega
  have hit := construct_negative hstart r.start_lt r.container.movie r.lastFrame
  rw [← FrameRange.construct_lastFrame, Container.nFrames_movie, hn, hend] at hit
  have hclamp : (if (r.lastFrame : ℤ) = 0 ∨ (r.lastFrame : ℤ) > r.container.nbFrames then
      (r.container.nbFrames : ℤ) else r.lastFrame) = r.lastFrame := by
    split_ifs <;> omega
  rw [hclamp] at hit
  constructor
  · intro h
    by_contra hne
    have hnext : hasNext (r.calls 0).it = true := by
      rw [FrameRange.calls_zero, hit, hasNext, decide_eq_true_eq]
      simp only
      omega
    have hfile : 0 < r.container.packets.length := by
      have := r.container.nbFrames_le
      omega
    have hfirst : r.container.packets[(r.calls 0).it.position]? = some r.container.packets[0] := by
      rw [FrameRange.calls_zero, hit]
      exact List.getElem?_eq_getElem hfile
    have hone := (h 1).1 0
    rw [FrameRange.calls_succ, callNext_read hnext hfirst, FrameRange.calls_zero, hit] at hone
    have hframe : unsignedOf 1 = r.start + 0 := (hone _ rfl).1
    have hnumber : unsignedOf 1 = 1 := rfl
    rw [hnumber] at hframe
    omega
  · intro h
    have hnext : hasNext (construct r.container.movie 0 r.start r.endFrame) = false := by
      rw [hit, hasNext, decide_eq_false_iff_not, not_le]
      simp only
      omega
    rw [FrameRange.delivers_iff_skipped hnext rfl, hit]
    intro p hp
    simp at hp

end Ranges

/-- The frames come from the video stream exactly when all packets that the iterator gets to belong
to stream 0. Beyond `int`, only the packets before the start frame are skipped, or nothing at all. -/
theorem delivers_video_iff (r : FrameRange) :
    DeliversVideo r ↔
      if r.container.nbFrames < 2 ^ 31 then
        (r.start < 2 ^ 31 ∧ OnlyVideo r.container r.packetCount) ∨
          (2 ^ 31 ≤ r.start ∧ r.container.nbFrames = 0)
      else r.start < 2 ^ 31 → OnlyVideo r.container (r.start - 1) := by
  split_ifs with hmovie
  · rcases lt_or_ge r.start (2 ^ 31) with hstart | hstart
    · rw [FrameRange.delivers_iff_counted hstart hmovie]
      constructor
      · intro h
        exact Or.inl ⟨hstart, h⟩
      · rintro (⟨-, h⟩ | ⟨h, -⟩)
        · exact h
        · omega
    · rw [FrameRange.delivers_iff_negative hstart hmovie]
      constructor
      · intro h
        exact Or.inr ⟨hstart, h⟩
      · rintro (⟨h, -⟩ | ⟨-, h⟩)
        · omega
        · exact h
  · exact FrameRange.delivers_iff_long (not_lt.mp hmovie)

/-- A sound packet before the only frame is delivered in its place. -/
theorem sound_before_video : ¬ ∀ r : FrameRange, DeliversVideo r := by
  intro h
  let c : Container := ⟨[⟨1, [7]⟩, ⟨0, [8]⟩], by decide⟩
  let r : FrameRange := ⟨c, 1, 1, by decide, by decide, by decide⟩
  have hcounted := (FrameRange.delivers_iff_counted (r := r) (by decide) (by decide)).mp (h r)
  exact absurd (hcounted ⟨1, [7]⟩ (by simp [r, c, FrameRange.packetCount, FrameRange.lastFrame]))
    (by decide)

end Jp4Tools.VideoStream
