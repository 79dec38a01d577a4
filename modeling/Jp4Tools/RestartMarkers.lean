import Jp4Tools.BitReader

/-!
# Markers between data segments

`nextMarker` scans for a marker; it stops where the entropy decoder sees its segment end.
`readRestartMarker` expects one of the markers RST0 to RST7 in turn, and `jpegResyncToRestart` is
what it does when another marker is found.
-/

namespace Jp4Tools.RestartMarkers
open BitStrings ByteStuffing HuffmanTables StdioManagers BitReader

def markerRst0 : ℕ := 0xD0
def markerRst7 : ℕ := 0xD7
def markerSof0 : ℕ := 0xC0

structure MarkerState where
  nextRestartNum : ℕ
  discardedBytes : ℕ

/-- `while (c != 0xFF)`: skips bytes that are not a marker's first. The fuel is more than the bytes
that are left. -/
def skipToOnes : ℕ → UInt8 → Source → ℕ → Source × ℕ
  | 0, _, source, discarded => (source, discarded)
  | fuel + 1, c, source, discarded =>
    if c = 0xFF then (source, discarded)
    else
      let (c, source) := source.inputByte
      skipToOnes fuel c source (discarded + 1)

/-- The outer loop of `next_marker`; a stuffed zero sends it back. -/
def markerLoop : ℕ → Source → ℕ → UInt8 × Source × ℕ
  | 0, source, discarded => (jpegEoi, source, discarded)
  | fuel + 1, source, discarded =>
    let (c, source) := source.inputByte
    let (source, discarded) := skipToOnes (source.unread.length + 2) c source discarded
    let (c, source) := skipOnes (source.unread.length + 2) source
    if c ≠ 0 then (c, source, discarded)
    else markerLoop fuel source (discarded + 2)

def nextMarker (marker : MarkerState) (r : Reader) : MarkerState × Reader :=
  let (c, source, discarded) := markerLoop (r.source.unread.length + 1) r.source marker.discardedBytes
  let r := { r with source := source, unreadMarker := c }
  if discarded ≠ 0 then
    ({ marker with discardedBytes := 0 }, { r with warnings := r.warnings ++ [.extraneousData discarded c] })
  else ({ marker with discardedBytes := discarded }, r)

/-- The action for a marker that is not the expected one: 1 discards it, 2 scans to the next marker,
3 leaves it unread. -/
def resyncAction (marker desired : ℕ) : ℕ :=
  if marker < markerSof0 then 2
  else if marker < markerRst0 ∨ markerRst7 < marker then 3
  else if marker = markerRst0 + ((desired + 1) &&& 7) ∨ marker = markerRst0 + ((desired + 2) &&& 7) then 3
  -- `(desired - 1) & 7` and `(desired - 2) & 7`
  else if marker = markerRst0 + ((desired + 7) &&& 7) ∨ marker = markerRst0 + ((desired + 6) &&& 7) then 2
  else 1

def resyncLoop : ℕ → ℕ → MarkerState → Reader → MarkerState × Reader
  | 0, _, marker, r => (marker, r)
  | fuel + 1, desired, marker, r =>
    let action := resyncAction r.unreadMarker.toNat desired
    if action = 1 then (marker, { r with unreadMarker := 0 })
    else if action = 2 then
      let (marker, r) := nextMarker marker r
      resyncLoop fuel desired marker r
    else (marker, r)

def jpegResyncToRestart (desired : ℕ) (marker : MarkerState) (r : Reader) : MarkerState × Reader :=
  resyncLoop (r.source.unread.length + 2) desired marker
    { r with warnings := r.warnings ++ [.mustResync r.unreadMarker desired] }

def readRestartMarker (marker : MarkerState) (r : Reader) : MarkerState × Reader :=
  let (marker, r) := if r.unreadMarker = 0 then nextMarker marker r else (marker, r)
  let (marker, r) := if r.unreadMarker.toNat = markerRst0 + marker.nextRestartNum then
      (marker, { r with unreadMarker := 0 })
    else jpegResyncToRestart marker.nextRestartNum marker r
  ({ marker with nextRestartNum := (marker.nextRestartNum + 1) &&& 7 }, r)

section Scanning

def inFront (ws : List UInt8) (s : Segment) : Segment := { s with data := ws ++ s.data }

theorem length_afterOnes {l : List UInt8} (h : (afterOnes l).1 = 0) :
    (afterOnes l).2.length < l.length := by
  induction l with
  | nil => exact absurd h (by decide)
  | cons b l ih =>
    rw [afterOnes] at h ⊢
    rw [List.length_cons]
    split_ifs at h ⊢ with hff
    · exact Nat.lt_succ_of_lt (ih h)
    · exact Nat.lt_succ_self _

theorem skipToOnes_spec {fuel : ℕ} (c : UInt8) {source : Source} (h : source.unread.length + 2 ≤ fuel)
    (discarded : ℕ) : ∃ ws source', skipToOnes fuel c source discarded = (source', discarded + ws.length) ∧
      stuff ws = ws ∧
      segmentFrom false (c :: source.unread) = inFront ws (segmentFrom true source'.unread) ∧
      (source'.unread.length ≤ source.unread.length ∨ source'.unread = [jpegEoi]) := by
  induction fuel generalizing c source discarded with
  | zero => omega
  | succ fuel ih =>
    rw [skipToOnes]
    split_ifs with hff
    · refine ⟨[], source, rfl, rfl, ?_, .inl (Nat.le_refl _)⟩
      rw [segmentFrom, if_pos hff]
      rfl
    · have hbyte := source.inputByte_unread
      have hone : stuff [c] = [c] := by rw [stuff_singleton, stuffByte, if_neg hff]
      cases hunread : source.unread with
      | nil =>
        rw [hunread] at hbyte
        obtain ⟨hc, hnext⟩ := Prod.mk.inj hbyte
        obtain ⟨fuel, rfl⟩ : ∃ k, fuel = k + 1 := ⟨fuel - 1, by omega⟩
        refine ⟨[c], source.inputByte.2, ?_, hone, ?_, .inr hnext⟩
        · dsimp only
          rw [hc, skipToOnes, if_pos rfl]
          rfl
        · rw [hnext, segmentFrom, if_neg hff]
          rfl
      | cons b l =>
        rw [hunread] at hbyte h
        obtain ⟨hc, hnext⟩ := Prod.mk.inj hbyte
        rw [List.length_cons] at h
        obtain ⟨ws, source', hrun, hstuff, hsegment, hlength⟩ :=
          @ih b source.inputByte.2 (by rw [hnext]; omega) (discarded + 1)
        rw [hnext] at hsegment hlength
        refine ⟨c :: ws, source', ?_, ?_, ?_, ?_⟩
        · dsimp only
          rw [hc, hrun, List.length_cons]
          congr 1
          omega
        · have hcons : stuff (c :: ws) = stuff [c] ++ stuff ws := stuff_append [c] ws
          rw [hcons, hone, hstuff]
          rfl
        · rw [segmentFrom, if_neg hff, hsegment]
          rfl
        · rw [List.length_cons]
          exact hlength.imp_left (fun hle => Nat.le_succ_of_le hle)

/-- A source is read as if its end were an end-of-image marker. -/
theorem segment_inputByte (source : Source) : dataSegment source.unread =
    segmentFrom false (source.inputByte.1 :: source.inputByte.2.unread) := by
  have hbyte := source.inputByte_unread
  cases hunread : source.unread with
  | nil =>
    rw [hunread] at hbyte
    obtain ⟨hc, hnext⟩ := Prod.mk.inj hbyte
    rw [hc, hnext]
    rfl
  | cons b l =>
    rw [hunread] at hbyte
    obtain ⟨hc, hnext⟩ := Prod.mk.inj hbyte
    rw [hc, hnext]
    rfl

theorem length_inputByte {source : Source} (h : source.unread ≠ []) :
    source.inputByte.2.unread.length < source.unread.length := by
  have hbyte := source.inputByte_unread
  cases hunread : source.unread with
  | nil => exact absurd hunread h
  | cons b l =>
    rw [hunread] at hbyte
    rw [(Prod.mk.inj hbyte).2]
    exact Nat.lt_succ_self _

theorem markerLoop_spec {fuel : ℕ} {source : Source} (h : source.unread.length < fuel) (discarded : ℕ) :
    ∃ source', markerLoop fuel source discarded = ((dataSegment source.unread).marker, source',
        discarded + (stuff (dataSegment source.unread).data).length) ∧
      source'.unread = (dataSegment source.unread).rest := by
  induction fuel generalizing source discarded with
  | zero => exact absurd h (Nat.not_lt_zero _)
  | succ fuel ih =>
    obtain ⟨ws, source₁, hskip, hstuff, hsegment, hlength⟩ := skipToOnes_spec source.inputByte.1
      (Nat.le_refl (source.inputByte.2.unread.length + 2)) discarded
    have hones := skipOnes_spec (Nat.le_refl (source₁.unread.length + 2))
    obtain ⟨hmarker, hrest⟩ := Prod.mk.inj hones
    rw [← segment_inputByte, segmentFrom_true] at hsegment
    rw [markerLoop]
    dsimp only
    rw [hskip]
    dsimp only
    rw [hmarker]
    by_cases hzero : (afterOnes source₁.unread).1 = 0
    · rw [if_pos hzero] at hsegment
      have hne : source₁.unread ≠ [jpegEoi] := by
        intro heoi
        rw [heoi] at hzero
        exact absurd hzero (by decide)
      have hshrink : (skipOnes (source₁.unread.length + 2) source₁).2.unread.length < fuel := by
        have hafter := length_afterOnes hzero
        have hle := hlength.resolve_right hne
        -- at the end of the file there is no data
        have hmore : source.unread ≠ [] := by
          intro hempty
          rw [hempty] at hsegment
          exact absurd (congrArg Segment.data hsegment) (by simp [dataSegment, segmentFrom, inFront, Segment.prepend])
        have hlt := length_inputByte hmore
        rw [hrest]
        omega
      obtain ⟨source', hrun, hunread⟩ := ih hshrink (discarded + ws.length + 2)
      rw [hrest] at hrun hunread
      rw [if_neg (not_not.mpr hzero), hrun, hsegment]
      refine ⟨source', ?_, hunread⟩
      have hcost : stuff (ws ++ 0xFF :: (dataSegment (afterOnes source₁.unread).2).data) =
          ws ++ (0xFF :: 0 :: stuff (dataSegment (afterOnes source₁.unread).2).data) := by
        rw [stuff_append, hstuff]
        rfl
      refine Prod.ext rfl (Prod.ext rfl ?_)
      change discarded + ws.length + 2 + (stuff (dataSegment (afterOnes source₁.unread).2).data).length =
        discarded + (stuff (ws ++ 0xFF :: (dataSegment (afterOnes source₁.unread).2).data)).length
      rw [hcost, List.length_append, List.length_cons, List.length_cons]
      omega
    · rw [if_neg hzero] at hsegment
      rw [if_pos hzero, hsegment]
      refine ⟨_, ?_, hrest⟩
      refine Prod.ext rfl (Prod.ext rfl ?_)
      change _ = discarded + (stuff (ws ++ [])).length
      rw [List.append_nil, hstuff]

/-- The bytes that `next_marker` discards are those of the rest of the segment. -/
def discardedBefore (marker : MarkerState) (r : Reader) : ℕ :=
  marker.discardedBytes + (stuff (dataSegment r.source.unread).data).length

/-- `next_marker` goes to the end of the data segment, and warns if it has discarded anything. -/
theorem nextMarker_spec (marker : MarkerState) (r : Reader) :
    (nextMarker marker r).2.unreadMarker = (dataSegment r.source.unread).marker ∧
      (nextMarker marker r).2.source.unread = (dataSegment r.source.unread).rest ∧
      (nextMarker marker r).1 = { marker with discardedBytes := 0 } ∧
      (nextMarker marker r).2.bitsLeft = r.bitsLeft ∧
      (nextMarker marker r).2.insufficientData = r.insufficientData ∧
      (nextMarker marker r).2.warnings =
        if discardedBefore marker r = 0 then r.warnings
        else r.warnings ++ [.extraneousData (discardedBefore marker r) (dataSegment r.source.unread).marker] := by
  obtain ⟨source', hrun, hunread⟩ :=
    markerLoop_spec (Nat.lt_succ_self r.source.unread.length) marker.discardedBytes
  rw [nextMarker, hrun]
  dsimp only
  by_cases hnone : marker.discardedBytes + (stuff (dataSegment r.source.unread).data).length = 0
  · rw [if_pos (show discardedBefore marker r = 0 from hnone), if_neg (not_not.mpr hnone), hnone]
    exact ⟨rfl, hunread, rfl, rfl, rfl, rfl⟩
  · rw [if_neg (show ¬ discardedBefore marker r = 0 from hnone), if_pos hnone]
    exact ⟨rfl, hunread, rfl, rfl, rfl, rfl⟩

end Scanning

section Restarting

/-- The expected marker is swallowed, whatever is left of the segment in front of it. -/
theorem readRestartMarker_found {marker : MarkerState} {r : Reader}
    (h : r.ending.1.toNat = markerRst0 + marker.nextRestartNum) :
    (readRestartMarker marker r).2.unreadMarker = 0 ∧
      (readRestartMarker marker r).2.source.unread = r.ending.2 ∧
      (readRestartMarker marker r).2.bitsLeft = r.bitsLeft ∧
      (readRestartMarker marker r).2.insufficientData = r.insufficientData ∧
      (readRestartMarker marker r).1.nextRestartNum = (marker.nextRestartNum + 1) &&& 7 ∧
      (marker.discardedBytes = 0 → (r.unreadMarker = 0 → (dataSegment r.source.unread).data = []) →
        (readRestartMarker marker r).2.warnings = r.warnings ∧
          (readRestartMarker marker r).1.discardedBytes = 0) := by
  rw [readRestartMarker]
  by_cases hpending : r.unreadMarker = 0
  · obtain ⟨hmarker, hunread, hstate, hleft, hflag, hwarnings⟩ := nextMarker_spec marker r
    rw [Reader.ending, if_pos hpending] at h ⊢
    have hexpected : (nextMarker marker r).2.unreadMarker.toNat =
        markerRst0 + (nextMarker marker r).1.nextRestartNum := by
      rw [hmarker, hstate]
      exact h
    rw [if_pos hpending]
    dsimp only
    rw [if_pos hexpected]
    refine ⟨rfl, hunread, hleft, hflag, by rw [hstate], fun hcount hdata => ⟨?_, by rw [hstate]⟩⟩
    have hnone : discardedBefore marker r = 0 := by
      rw [discardedBefore, hcount, hdata hpending]
      rfl
    rw [if_pos hnone] at hwarnings
    exact hwarnings
  · rw [Reader.ending, if_neg hpending] at h ⊢
    rw [if_neg hpending]
    dsimp only
    rw [if_pos h]
    exact ⟨rfl, rfl, rfl, rfl, rfl, fun hcount _ => ⟨rfl, hcount⟩⟩

theorem readRestartMarker_left {marker : MarkerState} {r : Reader}
    (hother : r.ending.1.toNat ≠ markerRst0 + marker.nextRestartNum)
    (haction : resyncAction r.ending.1.toNat marker.nextRestartNum = 3) :
    (readRestartMarker marker r).2.unreadMarker ≠ 0 ∧ (readRestartMarker marker r).2.ending = r.ending ∧
      (readRestartMarker marker r).1.nextRestartNum = (marker.nextRestartNum + 1) &&& 7 := by
  obtain ⟨marker₁, r₁, hfirst, hnumber, hmarker, hending⟩ : ∃ marker₁ r₁,
      (if r.unreadMarker = 0 then nextMarker marker r else (marker, r)) = (marker₁, r₁) ∧
        marker₁.nextRestartNum = marker.nextRestartNum ∧ r₁.unreadMarker ≠ 0 ∧ r₁.ending = r.ending := by
    by_cases hpending : r.unreadMarker = 0
    · obtain ⟨hmarker, hunread, hstate, -, -, -⟩ := nextMarker_spec marker r
      have hne : (nextMarker marker r).2.unreadMarker ≠ 0 := by
        rw [hmarker]
        exact (marker_ne _).1
      refine ⟨(nextMarker marker r).1, (nextMarker marker r).2, if_pos hpending, by rw [hstate], hne, ?_⟩
      rw [Reader.ending, if_neg hne, Reader.ending, if_pos hpending, hmarker, hunread]
    · exact ⟨marker, r, if_neg hpending, rfl, hpending, rfl⟩
  have hcode : r₁.unreadMarker.toNat = r.ending.1.toNat := by
    rw [← hending, Reader.ending, if_neg hmarker]
  rw [readRestartMarker, hfirst]
  dsimp only
  rw [hnumber, hcode, if_neg hother, jpegResyncToRestart, resyncLoop]
  dsimp only
  rw [hcode, haction, if_neg (by decide), if_neg (by decide)]
  exact ⟨hmarker, hending, by rw [hnumber]⟩

theorem length_rest (l : List UInt8) :
    (dataSegment l).rest.length < l.length ∨ (dataSegment l).marker = jpegEoi := by
  have h : ∀ ff : Bool, (segmentFrom ff l).rest.length < l.length ∨ (segmentFrom ff l).marker = jpegEoi := by
    induction l with
    | nil =>
      intro ff
      cases ff <;> exact .inr rfl
    | cons b l ih =>
      intro ff
      have hlater : ∀ ff, (segmentFrom ff l).rest.length < (b :: l).length ∨
          (segmentFrom ff l).marker = jpegEoi :=
        fun ff => (ih ff).imp_left Nat.lt_succ_of_lt
      cases ff with
      | false =>
        rw [segmentFrom]
        split_ifs with hb
        · exact hlater true
        · exact hlater false
      | true =>
        rw [segmentFrom]
        split_ifs with hb hzero
        · exact hlater true
        · exact hlater false
        · exact .inl (Nat.lt_succ_self _)
  exact h false

theorem resyncAction_eoi (desired : ℕ) : resyncAction jpegEoi.toNat desired = 3 := by
  rw [resyncAction, if_neg (by decide), if_pos (by decide)]

theorem resyncLoop_spec {fuel desired : ℕ} (marker : MarkerState) {r : Reader}
    (h : r.source.unread.length + 1 < fuel ∨ resyncAction r.unreadMarker.toNat desired ≠ 2 ∧ 0 < fuel) :
    (resyncLoop fuel desired marker r).2.unreadMarker = 0 ∨
      resyncAction (resyncLoop fuel desired marker r).2.unreadMarker.toNat desired = 3 := by
  induction fuel generalizing marker r with
  | zero => omega
  | succ fuel ih =>
    rw [resyncLoop]
    dsimp only
    by_cases hdiscard : resyncAction r.unreadMarker.toNat desired = 1
    · rw [if_pos hdiscard]
      exact .inl rfl
    · rw [if_neg hdiscard]
      by_cases hscan : resyncAction r.unreadMarker.toNat desired = 2
      · obtain ⟨hmarker, hunread, -, -, -, -⟩ := nextMarker_spec marker r
        have hfuel : r.source.unread.length < fuel := by
          rcases h with hlt | ⟨hno, -⟩
          · omega
          · exact absurd hscan hno
        rw [if_pos hscan]
        refine ih _ ?_
        rcases length_rest r.source.unread with hshort | heoi
        · rw [hunread]
          exact .inl (by omega)
        · right
          rw [hmarker, heoi, resyncAction_eoi]
          exact ⟨by decide, by omega⟩
      · have hleave : resyncAction r.unreadMarker.toNat desired = 3 := by
          rw [resyncAction] at hdiscard hscan ⊢
          split_ifs at hdiscard hscan ⊢ <;> simp_all
        rw [if_neg hscan]
        exact .inr hleave

theorem jpegResyncToRestart_spec (desired : ℕ) (marker : MarkerState) (r : Reader) :
    (jpegResyncToRestart desired marker r).2.unreadMarker = 0 ∨
      resyncAction (jpegResyncToRestart desired marker r).2.unreadMarker.toNat desired = 3 := by
  rw [jpegResyncToRestart]
  refine @resyncLoop_spec (r.source.unread.length + 2) desired marker _ (.inl ?_)
  exact Nat.lt_succ_self _

/-- What is pending behind a restart is a marker that the decoder will not read past. -/
theorem readRestartMarker_resync (marker : MarkerState) (r : Reader) :
    (readRestartMarker marker r).2.unreadMarker = 0 ∨
      resyncAction (readRestartMarker marker r).2.unreadMarker.toNat marker.nextRestartNum = 3 := by
  obtain ⟨marker₁, r₁, hnumber, hfirst⟩ : ∃ marker₁ r₁, marker₁.nextRestartNum = marker.nextRestartNum ∧
      (if r.unreadMarker = 0 then nextMarker marker r else (marker, r)) = (marker₁, r₁) := by
    split_ifs
    · refine ⟨(nextMarker marker r).1, (nextMarker marker r).2, ?_, rfl⟩
      rw [(nextMarker_spec marker r).2.2.1]
    · exact ⟨marker, r, rfl, rfl⟩
  have hresync := jpegResyncToRestart_spec marker.nextRestartNum marker₁ r₁
  rw [readRestartMarker, hfirst]
  dsimp only
  rw [hnumber]
  by_cases hexpected : r₁.unreadMarker.toNat = markerRst0 + marker.nextRestartNum
  · rw [if_pos hexpected]
    exact .inl rfl
  · rw [if_neg hexpected]
    exact hresync

theorem nextMarker_count (marker : MarkerState) (r : Reader) :
    (nextMarker marker r).2.warnings.count .hitMarker = r.warnings.count .hitMarker := by
  obtain ⟨-, -, -, -, -, hwarnings⟩ := nextMarker_spec marker r
  rw [hwarnings]
  split_ifs with hnone
  · rfl
  · rw [List.count_append]
    rfl

theorem resyncLoop_count (fuel desired : ℕ) (marker : MarkerState) (r : Reader) :
    (resyncLoop fuel desired marker r).2.warnings.count .hitMarker = r.warnings.count .hitMarker := by
  induction fuel generalizing marker r with
  | zero => rfl
  | succ fuel ih =>
    rw [resyncLoop]
    dsimp only
    split_ifs with hdiscard hscan
    · rfl
    · rw [ih, nextMarker_count]
    · rfl

theorem readRestartMarker_count (marker : MarkerState) (r : Reader) :
    (readRestartMarker marker r).2.warnings.count .hitMarker = r.warnings.count .hitMarker := by
  have hresync : ∀ (desired : ℕ) (marker : MarkerState) (r : Reader),
      (jpegResyncToRestart desired marker r).2.warnings.count .hitMarker = r.warnings.count .hitMarker := by
    intro desired marker r
    rw [jpegResyncToRestart, resyncLoop_count, List.count_append]
    rfl
  rw [readRestartMarker]
  dsimp only
  split_ifs with hnone hfound hfound
  · exact nextMarker_count marker r
  · rw [hresync, nextMarker_count]
  · rfl
  · exact hresync _ _ _

end Restarting

end Jp4Tools.RestartMarkers
