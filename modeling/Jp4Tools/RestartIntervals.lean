import Jp4Tools.EntropyRoundTrip

/-!
# Restart intervals

The encoder writes one data segment for each restart interval, with the markers RST0 to RST7 in
turn between them. The decoder gets every interval from its own segment: whatever is done to the
data of some intervals, the MCUs of the others are decoded as they were encoded.
-/

namespace Jp4Tools.RestartIntervals
open BitStrings ByteStuffing CompressionController HuffmanTables StdioManagers BitReader
  RestartMarkers HuffmanDecoder HuffmanEncoder EntropyRoundTrip

section Segments

/-- The code of a marker that ends a scan, which is not one of those that `jpeg_resync_to_restart` skips. -/
structure Marker where
  code : UInt8
  high : markerSof0 ≤ code.toNat
  not_restart : code.toNat < markerRst0 ∨ markerRst7 < code.toNat
  ne_ones : code ≠ 0xFF

def endOfImage : Marker := ⟨0xD9, by decide, by decide, by decide⟩

theorem Marker.ne_zero (m : Marker) : m.code ≠ 0 := by
  intro hzero
  have hhigh := m.high
  rw [hzero] at hhigh
  exact absurd hhigh (by decide)

/-- Data segments with restart markers between them, of which the first has the number `n`. -/
def joinIntervals : ℕ → List UInt8 → List (List UInt8) → List UInt8
  | _, data, [] => stuff data
  | n, data, next :: rest =>
    stuff data ++ 0xFF :: UInt8.ofNat (jpegRst0 + n) :: joinIntervals ((n + 1) &&& 7) next rest

/-- A segment, with what is behind it: a marker and the bytes behind that. -/
def received (data : List UInt8) (behind : UInt8 × List UInt8) : List UInt8 :=
  stuff data ++ 0xFF :: behind.1 :: behind.2

/-- What is behind a segment when the marker `m` ends the scan and of some of the following intervals
neither the marker nor the data have been received. -/
def behind (m : Marker) (tail : List UInt8) : ℕ → List (Option (List UInt8)) → UInt8 × List UInt8
  | _, [] => (m.code, tail)
  | n, none :: rest => behind m tail ((n + 1) &&& 7) rest
  | n, some next :: rest =>
    (UInt8.ofNat (jpegRst0 + n), received next (behind m tail ((n + 1) &&& 7) rest))

/-- No three successive intervals are lost. -/
def Recoverable (rest : List (Option (List UInt8))) : Prop := ¬ [none, none, none] <:+: rest

theorem joinIntervals_received (m : Marker) (tail : List UInt8) (n : ℕ) (data : List UInt8)
    (rest : List (List UInt8)) : joinIntervals n data rest ++ 0xFF :: m.code :: tail =
      received data (behind m tail n (rest.map some)) := by
  induction rest generalizing n data with
  | nil => rfl
  | cons next rest ih =>
    rw [joinIntervals, List.append_assoc, List.cons_append, List.cons_append, ih]
    rfl

theorem recoverable_map_some (rest : List (List UInt8)) : Recoverable (rest.map some) := by
  intro h
  have hmem : (none : Option (List UInt8)) ∈ rest.map some := h.subset List.mem_cons_self
  obtain ⟨data, -, hdata⟩ := List.mem_map.mp hmem
  exact absurd hdata (Option.some_ne_none data)

theorem and_seven (n : ℕ) : n &&& 7 = n % 8 := Nat.and_two_pow_sub_one_eq_mod n 3

theorem and_seven_lt (n : ℕ) : n &&& 7 < 8 := Nat.lt_succ_of_le Nat.and_le_right

theorem restartCode_toNat {n : ℕ} (h : n < 8) : (UInt8.ofNat (jpegRst0 + n)).toNat = markerRst0 + n := by
  rw [UInt8.toNat_ofNat']
  exact Nat.mod_eq_of_lt (show 0xD0 + n < 2 ^ 8 by omega)

theorem restartCode_ne {n : ℕ} (h : n < 8) :
    UInt8.ofNat (jpegRst0 + n) ≠ 0 ∧ UInt8.ofNat (jpegRst0 + n) ≠ 0xFF := by
  have hcode : (UInt8.ofNat (jpegRst0 + n)).toNat = 0xD0 + n := restartCode_toNat h
  constructor
  · intro hzero
    rw [hzero] at hcode
    exact absurd hcode (by simp; omega)
  · intro hones
    rw [hones] at hcode
    exact absurd hcode (by simp; omega)

theorem restartCode_ne_end {n : ℕ} (h : n < 8) : UInt8.ofNat (jpegRst0 + n) ≠ endOfImage.code := by
  have hcode := restartCode_toNat h
  intro hend
  rw [hend] at hcode
  exact absurd hcode (show ¬ 0xD9 = 0xD0 + n by omega)

theorem behind_ne (m : Marker) (tail : List UInt8) {n : ℕ} (hn : n < 8) (rest : List (Option (List UInt8))) :
    (behind m tail n rest).1 ≠ 0 ∧ (behind m tail n rest).1 ≠ 0xFF := by
  induction rest generalizing n with
  | nil => exact ⟨m.ne_zero, m.ne_ones⟩
  | cons x rest ih =>
    cases x with
    | none => exact ih (and_seven_lt _)
    | some next => exact restartCode_ne hn

theorem segment_received (m : Marker) (tail : List UInt8) {n : ℕ} (hn : n < 8) (data : List UInt8)
    (rest : List (Option (List UInt8))) : dataSegment (received data (behind m tail n rest)) =
      ⟨data, (behind m tail n rest).1, (behind m tail n rest).2⟩ :=
  segment_stuff_marker data (behind_ne m tail hn rest).1 (behind_ne m tail hn rest).2 _

theorem segment_joinIntervals {n : ℕ} (hn : n < 8) (data : List UInt8) (rest : List (List UInt8)) :
    dataSegment (joinIntervals n data rest ++ [0xFF, 0xD9]) =
      ⟨data, (behind endOfImage [] n (rest.map some)).1, (behind endOfImage [] n (rest.map some)).2⟩ := by
  rw [← segment_received endOfImage [] hn data (rest.map some), ← joinIntervals_received]
  rfl

theorem joinIntervals_injective {n : ℕ} (hn : n < 8) {data data' : List UInt8} {rest rest' : List (List UInt8)}
    (h : joinIntervals n data rest = joinIntervals n data' rest') : data = data' ∧ rest = rest' := by
  induction rest generalizing n data data' rest' with
  | nil =>
    have hsegment := segment_joinIntervals hn data []
    rw [h, segment_joinIntervals hn data' rest', Segment.mk.injEq] at hsegment
    obtain ⟨hdata, hmarker, -⟩ := hsegment
    cases rest' with
    | nil => exact ⟨hdata.symm, rfl⟩
    | cons next' rest' => exact absurd hmarker (restartCode_ne_end hn)
  | cons next rest ih =>
    have hsegment := segment_joinIntervals hn data (next :: rest)
    rw [h, segment_joinIntervals hn data' rest', Segment.mk.injEq] at hsegment
    obtain ⟨hdata, hmarker, hbehind⟩ := hsegment
    cases rest' with
    | nil => exact absurd hmarker.symm (restartCode_ne_end hn)
    | cons next' rest' =>
      have hlater : joinIntervals ((n + 1) &&& 7) next rest = joinIntervals ((n + 1) &&& 7) next' rest' := by
        refine (List.append_left_inj [0xFF, 0xD9]).mp ?_
        exact (joinIntervals_received endOfImage [] _ next rest).trans
          (hbehind.symm.trans (joinIntervals_received endOfImage [] _ next' rest').symm)
      obtain ⟨hnext, hrest⟩ := ih (and_seven_lt _) hlater
      exact ⟨hdata.symm, by rw [hnext, hrest]⟩

theorem Marker.resyncAction_eq (m : Marker) (desired : ℕ) : resyncAction m.code.toNat desired = 3 := by
  rw [resyncAction, if_neg (Nat.not_lt.mpr m.high), if_pos m.not_restart]

/-- The marker that is found in place of a lost one is left unread. -/
theorem resyncAction_behind (m : Marker) (tail : List UInt8) {n : ℕ} (hn : n < 8)
    {rest : List (Option (List UInt8))} (hrest : Recoverable (none :: rest)) :
    (behind m tail ((n + 1) &&& 7) rest).1.toNat ≠ markerRst0 + n ∧
      resyncAction (behind m tail ((n + 1) &&& 7) rest).1.toNat n = 3 := by
  have hmarker : m.code.toNat ≠ markerRst0 + n ∧ resyncAction m.code.toNat n = 3 := by
    have hcode := m.not_restart
    have hrst0 : markerRst0 = 0xD0 := rfl
    have hrst7 : markerRst7 = 0xD7 := rfl
    exact ⟨by omega, m.resyncAction_eq n⟩
  have hnext : ∀ k, k < 8 → k ≠ n → (k = (n + 1) &&& 7 ∨ k = (n + 2) &&& 7) →
      (UInt8.ofNat (jpegRst0 + k)).toNat ≠ markerRst0 + n ∧
        resyncAction (UInt8.ofNat (jpegRst0 + k)).toNat n = 3 := by
    intro k hk hne hnear
    rw [restartCode_toNat hk]
    refine ⟨by omega, ?_⟩
    have hsof0 : markerSof0 = 0xC0 := rfl
    have hrst0 : markerRst0 = 0xD0 := rfl
    have hrst7 : markerRst7 = 0xD7 := rfl
    rw [resyncAction, if_neg (by omega), if_neg (by omega), if_pos (by omega)]
  cases rest with
  | nil => exact hmarker
  | cons x rest =>
    cases x with
    | some next =>
      refine hnext _ (and_seven_lt _) ?_ (.inl rfl)
      rw [and_seven]
      omega
    | none =>
      cases rest with
      | nil => exact hmarker
      | cons y rest =>
        cases y with
        | some next =>
          have hsecond : ((n + 1) &&& 7) + 1 &&& 7 = (n + 2) &&& 7 := by
            rw [and_seven, and_seven, and_seven]
            omega
          change (UInt8.ofNat (jpegRst0 + (((n + 1) &&& 7) + 1 &&& 7))).toNat ≠ _ ∧
            resyncAction (UInt8.ofNat (jpegRst0 + (((n + 1) &&& 7) + 1 &&& 7))).toNat n = 3
          rw [hsecond]
          refine hnext _ (and_seven_lt _) ?_ (.inr rfl)
          rw [and_seven]
          omega
        | none => exact absurd ⟨[], rest, rfl⟩ hrest

end Segments

section Restarts
variable {cinfo : DecoderScan} {dec : HuffDecoder}

theorem ending_of_fresh {r : Reader} (hmarker : r.unreadMarker = 0) :
    r.ending = ((dataSegment r.source.unread).marker, (dataSegment r.source.unread).rest) := by
  rw [Reader.ending, if_pos hmarker]

theorem remaining_of_fresh {r : Reader} (hmarker : r.unreadMarker = 0) (hleft : r.bitsLeft = 0) :
    r.remaining = toBits (dataSegment r.source.unread).data := by
  rw [Reader.remaining, if_pos hmarker, hleft]
  rfl

structure Restarted (cinfo : DecoderScan) (dec dec' : HuffDecoder) : Prop where
  remaining : dec'.reader.remaining = toBits (dataSegment dec.reader.ending.2).data
  ending : dec'.reader.ending = ((dataSegment dec.reader.ending.2).marker, (dataSegment dec.reader.ending.2).rest)
  sufficient : dec'.reader.insufficientData = false
  number : dec'.marker.nextRestartNum = (dec.marker.nextRestartNum + 1) &&& 7
  predictors : dec'.lastDcVal = fun _ => 0
  togo : dec'.restartsToGo = cinfo.restartInterval
  dc : dec'.dcDerivedTbls = dec.dcDerivedTbls
  ac : dec'.acDerivedTbls = dec.acDerivedTbls
  quiet : dec.marker.discardedBytes = 0 → dec.reader.remaining.length < 8 →
    dec'.reader.warnings = dec.reader.warnings ∧ dec'.marker.discardedBytes = 0

theorem processRestart_found
    (h : dec.reader.ending.1.toNat = markerRst0 + dec.marker.nextRestartNum) :
    Restarted cinfo dec (processRestart cinfo dec) := by
  have hfound := @readRestartMarker_found
    { dec.marker with discardedBytes := dec.marker.discardedBytes + dec.reader.bitsLeft / 8 }
    { dec.reader with bitsLeft := 0, fits := Nat.zero_le _ } h
  obtain ⟨hmarker, hunread, hleft, hflag, hnumber, hquiet⟩ := hfound
  have hreader : (processRestart cinfo dec).reader = { (readRestartMarker
      { dec.marker with discardedBytes := dec.marker.discardedBytes + dec.reader.bitsLeft / 8 }
      { dec.reader with bitsLeft := 0, fits := Nat.zero_le _ }).2 with insufficientData := false } := by
    rw [processRestart]
    dsimp only
    rw [if_pos hmarker]
  have hsource : (processRestart cinfo dec).reader.source.unread = dec.reader.ending.2 := by
    rw [hreader]
    exact hunread
  have hnone : (processRestart cinfo dec).reader.unreadMarker = 0 := by
    rw [hreader]
    exact hmarker
  have hempty : (processRestart cinfo dec).reader.bitsLeft = 0 := by
    rw [hreader]
    exact hleft
  refine ⟨?_, ?_, ?_, hnumber, rfl, rfl, rfl, rfl, ?_⟩
  · rw [remaining_of_fresh hnone hempty, hsource]
  · rw [ending_of_fresh hnone, hsource]
  · rw [hreader]
  · intro hcount hshort
    have hbits : dec.reader.bitsLeft < 8 := Nat.lt_of_le_of_lt (bitsLeft_le_remaining _) hshort
    have hzero : dec.marker.discardedBytes + dec.reader.bitsLeft / 8 = 0 := by omega
    have hdata : dec.reader.unreadMarker = 0 → (dataSegment dec.reader.source.unread).data = [] := by
      intro hpending
      rw [Reader.remaining, if_pos hpending] at hshort
      exact data_eq_nil_of_short hshort
    obtain ⟨hwarnings, hdiscarded⟩ := hquiet hzero hdata
    refine ⟨?_, hdiscarded⟩
    rw [hreader]
    exact hwarnings

/-- The decoder at a marker in place of the restart marker that was expected: the interval counts as
empty, and the marker stays where it is. -/
structure LeftPending (cinfo : DecoderScan) (dec dec' : HuffDecoder) : Prop where
  ending : dec'.reader.ending = dec.reader.ending
  number : dec'.marker.nextRestartNum = (dec.marker.nextRestartNum + 1) &&& 7
  togo : dec'.restartsToGo = cinfo.restartInterval
  dc : dec'.dcDerivedTbls = dec.dcDerivedTbls
  ac : dec'.acDerivedTbls = dec.acDerivedTbls

theorem processRestart_left (hother : dec.reader.ending.1.toNat ≠ markerRst0 + dec.marker.nextRestartNum)
    (haction : resyncAction dec.reader.ending.1.toNat dec.marker.nextRestartNum = 3) :
    LeftPending cinfo dec (processRestart cinfo dec) := by
  obtain ⟨hmarker, hending, hnumber⟩ := @readRestartMarker_left
    { dec.marker with discardedBytes := dec.marker.discardedBytes + dec.reader.bitsLeft / 8 }
    { dec.reader with bitsLeft := 0, fits := Nat.zero_le _ } hother haction
  refine ⟨?_, hnumber, rfl, rfl, rfl⟩
  rw [processRestart]
  dsimp only
  rw [if_neg hmarker]
  exact hending

structure Stepped (dec dec' : HuffDecoder) : Prop where
  ending : dec'.reader.ending = dec.reader.ending
  marker : dec'.marker = dec.marker
  togo : dec'.restartsToGo = countDown dec.restartsToGo
  dc : dec'.dcDerivedTbls = dec.dcDerivedTbls
  ac : dec'.acDerivedTbls = dec.acDerivedTbls

theorem decodeMcu_stepped (cinfo : DecoderScan) (dec : HuffDecoder) :
    Stepped (resume cinfo dec) (decodeMcu cinfo dec).2 := by
  have hkept := decodeBlocks_kept kept_ending cinfo (resume cinfo dec).dcDerivedTbls
    (resume cinfo dec).acDerivedTbls cinfo.mcuMembership 0
    (zeroMcu, (resume cinfo dec).lastDcVal, (resume cinfo dec).reader)
  rw [decodeMcu, decodeData]
  split_ifs with hinsufficient
  · exact ⟨rfl, rfl, rfl, rfl, rfl⟩
  · exact ⟨hkept, rfl, rfl, rfl, rfl⟩

/-- The decoder has just the bits `l` of its segment in front of it, and the predictors that the encoder
has reached. -/
structure Intact (cinfo : DecoderScan) (lastDcVal : ℕ → ℤ) (dec : HuffDecoder) (l : List Bool) : Prop where
  remaining : dec.reader.remaining = l
  sufficient : dec.reader.insufficientData = false
  predicted : Predicted cinfo lastDcVal dec.lastDcVal

theorem decodeMcu_wanted {mcu : Mcu} {lastDcVal lastDcVal₁ : ℕ → ℤ} {w rest : List Bool}
    (hdecode : ∀ (mcuData : ℕ → JBlock) (lastDcVal' : ℕ → ℤ) (r : Reader) (rest : List Bool),
      r.remaining = w ++ rest → Predicted cinfo lastDcVal lastDcVal' →
        ∃ lastDcVal₁' r₁, decodeBlocks cinfo (resume cinfo dec).dcDerivedTbls (resume cinfo dec).acDerivedTbls 0
            cinfo.mcuMembership (mcuData, lastDcVal', r) =
              (storeWanted cinfo mcu.block 0 cinfo.mcuMembership mcuData, lastDcVal₁', r₁) ∧
          Advanced r r₁ rest ∧ Predicted cinfo lastDcVal₁ lastDcVal₁')
    (hintact : Intact cinfo lastDcVal (resume cinfo dec) (w ++ rest)) :
    (decodeMcu cinfo dec).1 = wantedMcu cinfo mcu ∧ Intact cinfo lastDcVal₁ (decodeMcu cinfo dec).2 rest ∧
      (decodeMcu cinfo dec).2.reader.warnings = (resume cinfo dec).reader.warnings := by
  obtain ⟨lastDcVal₁', r₁, hrun, hadvanced, hpredicted⟩ :=
    hdecode zeroMcu _ _ rest hintact.remaining hintact.predicted
  have hstep : decodeMcu cinfo dec = (wantedMcu cinfo mcu,
      { resume cinfo dec with
        lastDcVal := lastDcVal₁'
        reader := r₁
        restartsToGo := countDown (resume cinfo dec).restartsToGo }) := by
    rw [decodeMcu, decodeData, if_neg (by rw [hintact.sufficient]; exact Bool.false_ne_true), hrun,
      storeWanted_eq]
  rw [hstep]
  exact ⟨rfl, ⟨hadvanced.remaining, hadvanced.insufficient.trans hintact.sufficient, hpredicted⟩,
    hadvanced.warnings⟩

end Restarts

section Runs
variable {cinfo : DecoderScan} {dcTbls acTbls : ℕ → DDerivedTbl}

/-- The decoder stands in the first of some intervals, of which `good` tells whether they are intact:
`togo` MCUs before the restart marker `n`, with the bits `w` of the first interval and the segments
`rest` before it. The other intervals have changed, or they are lost with their markers. -/
structure Standing (cinfo : DecoderScan) (dcTbls acTbls : ℕ → DDerivedTbl) (good : ℕ → Prop) (togo n : ℕ)
    (lastDcVal : ℕ → ℤ) (w : List Bool) (rest : List (List UInt8)) (m : Marker) (tail : List UInt8)
    (dec : HuffDecoder) : Prop where
  dc : dec.dcDerivedTbls = dcTbls
  ac : dec.acDerivedTbls = acTbls
  number : dec.marker.nextRestartNum = n
  togo : cinfo.restartInterval ≠ 0 → dec.restartsToGo = togo
  following : ∃ rest', rest'.length = rest.length ∧ Recoverable rest' ∧
    (∀ i, good (i + 1) → rest'[i]? = (rest.map some)[i]?) ∧ dec.reader.ending = behind m tail n rest'
  intact : good 0 → Intact cinfo lastDcVal dec w

/-- The MCUs of the intact intervals have been decoded; the MCU `j` is in the interval
`(j + restartInterval - togo) / restartInterval`. -/
structure Decoded (cinfo : DecoderScan) (good : ℕ → Prop) (togo : ℕ) (m : Marker) (tail : List UInt8)
    (mcus : List Mcu) (dec : HuffDecoder) : Prop where
  blocks : ∀ j, good ((j + cinfo.restartInterval - togo) / cinfo.restartInterval) →
    (decodeMcus cinfo mcus.length dec).1[j]? = (mcus.map (wantedMcu cinfo))[j]?
  ending : (decodeMcus cinfo mcus.length dec).2.reader.ending = (m.code, tail)
  quiet : (∀ i, good i) → dec.marker.discardedBytes = 0 →
    (decodeMcus cinfo mcus.length dec).2.reader.warnings = dec.reader.warnings ∧
      (decodeMcus cinfo mcus.length dec).2.marker.discardedBytes = 0 ∧
      (decodeMcus cinfo mcus.length dec).2.reader.remaining.length < 8

theorem decodeMcus_succ (cinfo : DecoderScan) (n : ℕ) (dec : HuffDecoder) :
    decodeMcus cinfo (n + 1) dec =
      ((decodeMcu cinfo dec).1 :: (decodeMcus cinfo n (decodeMcu cinfo dec).2).1,
        (decodeMcus cinfo n (decodeMcu cinfo dec).2).2) := by
  rw [decodeMcus]

theorem decoded_nil {good : ℕ → Prop} {togo n p : ℕ} (hp : p < 8) {lastDcVal : ℕ → ℤ} {m : Marker}
    {tail : List UInt8} {dec : HuffDecoder}
    (h : Standing cinfo dcTbls acTbls good togo n lastDcVal (ones p) [] m tail dec) :
    Decoded cinfo good togo m tail [] dec where
  blocks _ _ := rfl
  ending := by
    obtain ⟨rest', hlen, -, -, hending⟩ := h.following
    rw [List.length_eq_zero_iff.mp hlen] at hending
    exact hending
  quiet := by
    intro hgood hcount
    refine ⟨rfl, hcount, ?_⟩
    change dec.reader.remaining.length < 8
    rw [(h.intact (hgood 0)).remaining, length_ones]
    exact hp

theorem interval_within {R togo j : ℕ} (hle : togo ≤ R) (hgo : R ≠ 0 → togo ≠ 0) :
    (0 + R - togo) / R = 0 ∧ (j + 1 + R - togo) / R = (j + R - (togo - 1)) / R := by
  by_cases hR : R = 0
  · rw [hR, Nat.div_zero, Nat.div_zero, Nat.div_zero]
    exact ⟨rfl, rfl⟩
  · have htogo := hgo hR
    have hsame : j + 1 + R - togo = j + R - (togo - 1) := by omega
    exact ⟨Nat.div_eq_of_lt (by omega), by rw [hsame]⟩

theorem interval_next {R j : ℕ} (hR : R ≠ 0) :
    (0 + R - 0) / R = 1 ∧ (j + 1 + R - 0) / R = (j + R - (R - 1)) / R + 1 := by
  have hpos := Nat.pos_of_ne_zero hR
  have hrest : j + R - (R - 1) = j + 1 := by omega
  constructor
  · rw [Nat.zero_add, Nat.sub_zero, Nat.div_self hpos]
  · rw [Nat.sub_zero, hrest, Nat.add_div_right _ hpos]

/-- An MCU within an interval, and the MCUs after it. -/
theorem decoded_within {good : ℕ → Prop} {togo n : ℕ} (hle : togo ≤ cinfo.restartInterval)
    (hgo : cinfo.restartInterval ≠ 0 → togo ≠ 0) {lastDcVal lastDcVal₁ : ℕ → ℤ} {w w' : List Bool}
    {rest : List (List UInt8)} {m : Marker} {tail : List UInt8} {dec : HuffDecoder} {mcu : Mcu} {mcus : List Mcu}
    (hdecode : ∀ (mcuData : ℕ → JBlock) (lastDcVal' : ℕ → ℤ) (r : Reader) (rest : List Bool),
      r.remaining = w ++ rest → Predicted cinfo lastDcVal lastDcVal' →
        ∃ lastDcVal₁' r₁, decodeBlocks cinfo dcTbls acTbls 0 cinfo.mcuMembership (mcuData, lastDcVal', r) =
              (storeWanted cinfo mcu.block 0 cinfo.mcuMembership mcuData, lastDcVal₁', r₁) ∧
          Advanced r r₁ rest ∧ Predicted cinfo lastDcVal₁ lastDcVal₁')
    (h : Standing cinfo dcTbls acTbls good togo n lastDcVal (w ++ w') rest m tail dec)
    (hlater : ∀ dec₁, Standing cinfo dcTbls acTbls good (togo - 1) n lastDcVal₁ w' rest m tail dec₁ →
      Decoded cinfo good (togo - 1) m tail mcus dec₁) :
    Decoded cinfo good togo m tail (mcu :: mcus) dec := by
  have hresume : resume cinfo dec = dec := by
    rw [resume, if_neg]
    rintro ⟨hR, hzero⟩
    rw [h.togo hR] at hzero
    exact hgo hR hzero
  have hstepped := decodeMcu_stepped cinfo dec
  rw [hresume] at hstepped
  have hwanted : good 0 → _ := fun hgood => @decodeMcu_wanted cinfo dec mcu lastDcVal lastDcVal₁ w w'
    (by rw [hresume, h.dc, h.ac]; exact hdecode) (by rw [hresume]; exact h.intact hgood)
  have hstanding : Standing cinfo dcTbls acTbls good (togo - 1) n lastDcVal₁ w' rest m tail
      (decodeMcu cinfo dec).2 := by
    refine ⟨hstepped.dc.trans h.dc, hstepped.ac.trans h.ac, ?_, ?_, ?_, fun hgood => (hwanted hgood).2.1⟩
    · rw [hstepped.marker, h.number]
    · intro hR
      rw [hstepped.togo, h.togo hR, countDown_pos (hgo hR)]
    · rw [hstepped.ending]
      exact h.following
  have hrun := hlater _ hstanding
  refine ⟨?_, ?_, ?_⟩
  · intro j hgood
    rw [List.length_cons, decodeMcus_succ]
    cases j with
    | zero =>
      rw [(interval_within (j := 0) hle hgo).1] at hgood
      rw [(hwanted hgood).1]
      rfl
    | succ j =>
      rw [(interval_within hle hgo).2] at hgood
      exact hrun.blocks j hgood
  · exact hrun.ending
  · intro hgood hcount
    obtain ⟨hwarnings, hdiscarded, hshort⟩ := hrun.quiet hgood (by rw [hstepped.marker]; exact hcount)
    refine ⟨hwarnings.trans ?_, hdiscarded, hshort⟩
    rw [(hwanted (hgood 0)).2.2, hresume]

theorem resumed_next {good : ℕ → Prop} {n : ℕ} (hn : n < 8) (hR : cinfo.restartInterval ≠ 0)
    {lastDcVal : ℕ → ℤ} {w l : List Bool} {next : List UInt8} (hnext : toBits next = l)
    {rest : List (List UInt8)} {m : Marker} {tail : List UInt8} {dec : HuffDecoder}
    (h : Standing cinfo dcTbls acTbls good 0 n lastDcVal w (next :: rest) m tail dec) :
    Standing cinfo dcTbls acTbls (fun i => good (i + 1)) cinfo.restartInterval ((n + 1) &&& 7) (fun _ => 0) l rest
      m tail (resume cinfo dec) := by
  obtain ⟨rest', hlen, hrecoverable, hsame, hending⟩ := h.following
  obtain ⟨x, rest', rfl⟩ : ∃ a l, rest' = a :: l := List.exists_cons_of_length_eq_add_one hlen
  have hresume : resume cinfo dec = processRestart cinfo dec := if_pos ⟨hR, h.togo hR⟩
  have hlater : Recoverable rest' := fun hlost => hrecoverable (List.infix_cons hlost)
  rw [hresume]
  cases x with
  | none =>
    -- the interval is lost: the marker of a later one is found and left unread
    obtain ⟨hother, haction⟩ := resyncAction_behind m tail hn hrecoverable
    have hleft : LeftPending cinfo dec (processRestart cinfo dec) := processRestart_left
      (by rw [hending, h.number]; exact hother) (by rw [hending, h.number]; exact haction)
    refine ⟨hleft.dc.trans h.dc, hleft.ac.trans h.ac, by rw [hleft.number, h.number], fun _ => hleft.togo,
      ⟨rest', Nat.succ.inj hlen, hlater, fun i hgood => hsame (i + 1) hgood, ?_⟩, fun hgood => ?_⟩
    · rw [hleft.ending, hending]
      rfl
    · exact absurd (hsame 0 hgood) (by simp)
  | some next' =>
    have hrestarted : Restarted cinfo dec (processRestart cinfo dec) := processRestart_found (by
      rw [hending, h.number]
      exact restartCode_toNat hn)
    have hremaining := hrestarted.remaining
    have hbehind := hrestarted.ending
    rw [hending, behind, segment_received m tail (and_seven_lt (n + 1))] at hremaining hbehind
    refine ⟨hrestarted.dc.trans h.dc, hrestarted.ac.trans h.ac, by rw [hrestarted.number, h.number],
      fun _ => hrestarted.togo, ⟨rest', Nat.succ.inj hlen, hlater, fun i hgood => hsame (i + 1) hgood, hbehind⟩,
      fun hgood => ?_⟩
    have hfirst : next' = next := Option.some.inj (Option.some.inj (hsame 0 hgood))
    rw [hfirst, hnext] at hremaining
    exact ⟨hremaining, hrestarted.sufficient, fun ci _ => congrFun hrestarted.predictors ci⟩

theorem resumed_quiet {good : ℕ → Prop} {n p : ℕ} (hp : p < 8) (hn : n < 8) (hR : cinfo.restartInterval ≠ 0)
    {lastDcVal : ℕ → ℤ} {next : List UInt8} {rest : List (List UInt8)} {m : Marker} {tail : List UInt8}
    {dec : HuffDecoder} (h : Standing cinfo dcTbls acTbls good 0 n lastDcVal (ones p) (next :: rest) m tail dec)
    (hgood : good 0) (hgood' : good 1) (hcount : dec.marker.discardedBytes = 0) :
    (resume cinfo dec).reader.warnings = dec.reader.warnings ∧
      (resume cinfo dec).marker.discardedBytes = 0 := by
  obtain ⟨rest', hlen, -, hsame, hending⟩ := h.following
  obtain ⟨x, rest', rfl⟩ : ∃ a l, rest' = a :: l := List.exists_cons_of_length_eq_add_one hlen
  have hfirst : x = some next := Option.some.inj (hsame 0 hgood')
  have hresume : resume cinfo dec = processRestart cinfo dec := if_pos ⟨hR, h.togo hR⟩
  have hrestarted : Restarted cinfo dec (processRestart cinfo dec) := processRestart_found (by
    rw [hending, hfirst, h.number]
    exact restartCode_toNat hn)
  rw [hresume]
  refine hrestarted.quiet hcount ?_
  rw [(h.intact hgood).remaining, length_ones]
  exact hp

theorem decoded_next {good : ℕ → Prop} {n p : ℕ} (hp : p < 8) (hn : n < 8) (hR : cinfo.restartInterval ≠ 0)
    {lastDcVal lastDcVal₁ : ℕ → ℤ} {w w' : List Bool} {next : List UInt8} (hnext : toBits next = w ++ w')
    {rest : List (List UInt8)} {m : Marker} {tail : List UInt8} {dec : HuffDecoder} {mcu : Mcu} {mcus : List Mcu}
    (hdecode : ∀ (mcuData : ℕ → JBlock) (lastDcVal' : ℕ → ℤ) (r : Reader) (rest : List Bool),
      r.remaining = w ++ rest → Predicted cinfo (fun _ => 0) lastDcVal' →
        ∃ lastDcVal₁' r₁, decodeBlocks cinfo dcTbls acTbls 0 cinfo.mcuMembership (mcuData, lastDcVal', r) =
              (storeWanted cinfo mcu.block 0 cinfo.mcuMembership mcuData, lastDcVal₁', r₁) ∧
          Advanced r r₁ rest ∧ Predicted cinfo lastDcVal₁ lastDcVal₁')
    (h : Standing cinfo dcTbls acTbls good 0 n lastDcVal (ones p) (next :: rest) m tail dec)
    (hlater : ∀ dec₁, Standing cinfo dcTbls acTbls (fun i => good (i + 1)) (cinfo.restartInterval - 1)
      ((n + 1) &&& 7) lastDcVal₁ w' rest m tail dec₁ →
        Decoded cinfo (fun i => good (i + 1)) (cinfo.restartInterval - 1) m tail mcus dec₁) :
    Decoded cinfo good 0 m tail (mcu :: mcus) dec := by
  have hresumed := resumed_next hn hR hnext h
  have hwanted : good 1 → _ := fun hgood => @decodeMcu_wanted cinfo dec mcu (fun _ => 0) lastDcVal₁ w w'
    (by rw [hresumed.dc, hresumed.ac]; exact hdecode) (hresumed.intact hgood)
  have hstepped := decodeMcu_stepped cinfo dec
  have hstanding : Standing cinfo dcTbls acTbls (fun i => good (i + 1)) (cinfo.restartInterval - 1)
      ((n + 1) &&& 7) lastDcVal₁ w' rest m tail (decodeMcu cinfo dec).2 := by
    refine ⟨hstepped.dc.trans hresumed.dc, hstepped.ac.trans hresumed.ac, ?_, ?_, ?_,
      fun hgood => (hwanted hgood).2.1⟩
    · rw [hstepped.marker, hresumed.number]
    · intro _
      rw [hstepped.togo, hresumed.togo hR, countDown_pos hR]
    · rw [hstepped.ending]
      exact hresumed.following
  have hrun := hlater _ hstanding
  refine ⟨?_, ?_, ?_⟩
  · intro j hgood
    rw [List.length_cons, decodeMcus_succ]
    cases j with
    | zero =>
      rw [(interval_next (j := 0) hR).1] at hgood
      rw [(hwanted hgood).1]
      rfl
    | succ j =>
      rw [(interval_next hR).2] at hgood
      exact hrun.blocks j hgood
  · exact hrun.ending
  · intro hgood hcount
    obtain ⟨hquiet, hnone⟩ := resumed_quiet hp hn hR h (hgood 0) (hgood 1) hcount
    obtain ⟨hwarnings, hdiscarded, hshort⟩ :=
      hrun.quiet (fun i => hgood (i + 1)) (by rw [hstepped.marker]; exact hnone)
    refine ⟨hwarnings.trans ?_, hdiscarded, hshort⟩
    rw [(hwanted (hgood 1)).2.2, hquiet]

/-- The MCU at the beginning of an interval, behind what `emitRestart` leaves. -/
theorem encodeMcuHuff_next {scan : EntropyScan} {block : ℕ → JBlock} {entropy entropy₁ : HuffEncoder}
    {dest dest₁ : Destination} (hR : scan.restartInterval ≠ 0) (htogo : entropy.restartsToGo = 0)
    {state₀ : WorkingState} (hemit : emitRestart entropy.nextRestartNum ⟨dest, entropy.saved⟩ = .ok state₀)
    (hmcu : encodeMcuHuff scan block entropy dest = .ok (entropy₁, dest₁)) :
    ∃ state₁, encodeBlocks scan entropy block 0 scan.mcuMembership state₀ = .ok state₁ ∧
      entropy₁ =
        { entropy with
          saved := state₁.cur
          restartsToGo := scan.restartInterval - 1
          nextRestartNum := (entropy.nextRestartNum + 1) &&& 7 } ∧
      dest₁ = state₁.dest := by
  rw [encodeMcuHuff, if_pos ⟨hR, htogo⟩, hemit] at hmcu
  change (encodeBlocks scan entropy block 0 scan.mcuMembership state₀).bind _ = _ at hmcu
  obtain ⟨state₁, hblocks, hcount⟩ := except_bind_eq_ok hmcu
  obtain ⟨hentropy, hdest⟩ := Prod.mk.inj (Except.ok.inj hcount)
  rw [countRestart, if_pos hR, if_pos htogo] at hentropy
  exact ⟨state₁, hblocks, hentropy.symm, hdest.symm⟩

/-- An MCU within an interval. -/
theorem encodeMcuHuff_within {scan : EntropyScan} {block : ℕ → JBlock} {entropy entropy₁ : HuffEncoder}
    {dest dest₁ : Destination} (hle : entropy.restartsToGo ≤ scan.restartInterval)
    (hgo : scan.restartInterval ≠ 0 → entropy.restartsToGo ≠ 0)
    (hmcu : encodeMcuHuff scan block entropy dest = .ok (entropy₁, dest₁)) :
    ∃ state₁, encodeBlocks scan entropy block 0 scan.mcuMembership ⟨dest, entropy.saved⟩ = .ok state₁ ∧
      entropy₁ = { entropy with saved := state₁.cur, restartsToGo := entropy.restartsToGo - 1 } ∧
      dest₁ = state₁.dest := by
  rw [encodeMcuHuff, if_neg (fun h => hgo h.1 h.2)] at hmcu
  change (encodeBlocks scan entropy block 0 scan.mcuMembership _).bind _ = _ at hmcu
  obtain ⟨state₁, hblocks, hcount⟩ := except_bind_eq_ok hmcu
  obtain ⟨hentropy, hdest⟩ := Prod.mk.inj (Except.ok.inj hcount)
  refine ⟨state₁, hblocks, hentropy.symm.trans ?_, hdest.symm⟩
  rw [countRestart]
  by_cases hR : scan.restartInterval = 0
  · have hzero : entropy.restartsToGo = 0 := by omega
    rw [if_neg (not_not.mpr hR), hzero]
  · rw [if_pos hR, if_neg (hgo hR)]

/-- What the encoder writes from its present interval on. -/
theorem encodeMcus_decoded (mcus : List Mcu) {entropy : HuffEncoder} {dest dest' : Destination}
    (htables : MatchingTables cinfo.toEntropyScan entropy.dcDerivedTbls entropy.acDerivedTbls dcTbls acTbls)
    {base : List UInt8} {l : List Bool} (hemitted : Emitted base l ⟨dest, entropy.saved⟩)
    (hn : entropy.nextRestartNum < 8) (hle : entropy.restartsToGo ≤ cinfo.restartInterval)
    (hok : encodeMcus cinfo.toEntropyScan (mcus.map Mcu.block) entropy dest = .ok dest') :
    ∃ w first rest, toBits first = l ++ w ∧
      dest'.written = base ++ joinIntervals entropy.nextRestartNum first rest ∧
      ∀ good m tail dec, Standing cinfo dcTbls acTbls good entropy.restartsToGo entropy.nextRestartNum
          entropy.saved.lastDcVal w rest m tail dec →
        Decoded cinfo good entropy.restartsToGo m tail mcus dec := by
  induction mcus generalizing entropy dest base l with
  | nil =>
    obtain ⟨state', bytes, p, hflush, hp, hbytes, hwritten, -, -⟩ := flushBits_spec hemitted
    have hdest : dest' = state'.dest := by
      rw [List.map_nil, encodeMcus, finishPassHuff, hflush] at hok
      exact (Except.ok.inj hok).symm
    refine ⟨ones p, bytes, [], hbytes, ?_, fun good m tail dec h => decoded_nil hp h⟩
    rw [hdest, hwritten]
    rfl
  | cons mcu mcus ih =>
    rw [List.map_cons, encodeMcus] at hok
    obtain ⟨⟨entropy₁, dest₁⟩, hmcu, hlater⟩ := except_bind_eq_ok hok
    by_cases hrestart : cinfo.restartInterval ≠ 0 ∧ entropy.restartsToGo = 0
    · -- the interval is flushed; the MCU is the first of the next
      obtain ⟨hR, htogo⟩ := hrestart
      obtain ⟨state₀, bytes, p, hemit, hp, hbytes, hemitted₀, hlast⟩ :=
        emitRestart_spec hemitted entropy.nextRestartNum
      obtain ⟨state₁, hblocks, rfl, rfl⟩ := encodeMcuHuff_next hR htogo hemit hmcu
      obtain ⟨w, hemitted₁, hdecode⟩ := encodeBlocks_decoded htables mcu cinfo.membership_lt hemitted₀ hblocks
      obtain ⟨w', next, rest, hnext, hwritten, hrun⟩ := @ih
        { entropy with
          saved := state₁.cur
          restartsToGo := cinfo.restartInterval - 1
          nextRestartNum := (entropy.nextRestartNum + 1) &&& 7 }
        _ htables _ _ hemitted₁ (and_seven_lt _) (Nat.sub_le _ _) hlater
      refine ⟨ones p, bytes, next :: rest, hbytes, ?_, ?_⟩
      · rw [hwritten, joinIntervals, List.append_assoc, List.append_assoc]
        rfl
      · intro good m tail dec h
        rw [hlast] at hdecode
        rw [htogo] at h ⊢
        exact decoded_next hp hn hR hnext hdecode h (fun dec₁ h₁ => hrun _ m tail dec₁ h₁)
    · have hgo : cinfo.restartInterval ≠ 0 → entropy.restartsToGo ≠ 0 := fun hR hzero => hrestart ⟨hR, hzero⟩
      obtain ⟨state₁, hblocks, rfl, rfl⟩ := encodeMcuHuff_within hle hgo hmcu
      obtain ⟨w, hemitted₁, hdecode⟩ := encodeBlocks_decoded htables mcu cinfo.membership_lt hemitted hblocks
      obtain ⟨w', first, rest, hfirst, hwritten, hrun⟩ := @ih
        { entropy with saved := state₁.cur, restartsToGo := entropy.restartsToGo - 1 }
        _ htables _ _ hemitted₁ hn (Nat.le_trans (Nat.sub_le _ _) hle) hlater
      refine ⟨w ++ w', first, rest, ?_, hwritten, ?_⟩
      · rw [hfirst, List.append_assoc]
      · intro good m tail dec h
        exact decoded_within hle hgo hdecode h (fun dec₁ h₁ => hrun good m tail dec₁ h₁)

end Runs

section Scans

theorem exists_decoderTables {cinfo : EntropyScan} {entropy : HuffEncoder}
    (h : startPassHuff cinfo = .ok entropy) (unallocated : DDerivedTbl) :
    ∃ tbls, deriveTables (fun isDC => jpegMakeDDerivedTbl isDC (cinfo.tablePtrs isDC)) cinfo unallocated = .ok tbls ∧
      MatchingTables cinfo entropy.dcDerivedTbls entropy.acDerivedTbls tbls.1 tbls.2 := by
  obtain ⟨ctbls, hctbls, hentropy⟩ := except_bind_eq_ok h
  have hmade := derived_of_ok hctbls
  have hboth : ∀ ci < cinfo.compsInScan,
      (∃ t, jpegMakeDDerivedTbl true (cinfo.tablePtrs true) (cinfo.dcTblNo ci) = .ok t) ∧
      ∃ t, jpegMakeDDerivedTbl false (cinfo.tablePtrs false) (cinfo.acTblNo ci) = .ok t := by
    intro ci hci
    obtain ⟨_, t, hdc, -⟩ := makeD_of_makeC (hmade.dc ci hci)
    obtain ⟨_, t', hac, -⟩ := makeD_of_makeC (hmade.ac ci hci)
    exact ⟨⟨t, hdc⟩, t', hac⟩
  obtain ⟨tbls, htbls⟩ := @exists_derived _ (fun isDC => jpegMakeDDerivedTbl isDC (cinfo.tablePtrs isDC)) cinfo
    unallocated hboth
  have hderived := derived_of_ok htbls
  have hmatching : ∀ (isDC : Bool) (tblno : ℕ) (ctbl : CDerivedTbl) (dtbl : DDerivedTbl),
      jpegMakeCDerivedTbl isDC (cinfo.tablePtrs isDC) tblno = .ok ctbl →
        jpegMakeDDerivedTbl isDC (cinfo.tablePtrs isDC) tblno = .ok dtbl → Matching ctbl dtbl := by
    intro isDC tblno ctbl dtbl hc hd
    obtain ⟨htbl, dtbl', hd', hvalid, -, hencoding, hdecoding⟩ := makeD_of_makeC hc
    obtain rfl : dtbl = dtbl' := Except.ok.inj (hd.symm.trans hd')
    exact ⟨htbl, hvalid, hencoding, hdecoding⟩
  obtain rfl := Except.ok.inj hentropy
  exact ⟨tbls, htbls, fun ci hci => hmatching true _ _ _ (hmade.dc ci hci) (hderived.dc ci hci),
    fun ci hci => hmatching false _ _ _ (hmade.ac ci hci) (hderived.ac ci hci)⟩

/-- The output of the encoder, and a decoder that has been started on what is left of it. -/
theorem exists_decoded {cinfo : DecoderScan} {mcus : List Mcu} {dest dest' : Destination}
    (hok : encodeEntropyScan cinfo.toEntropyScan (mcus.map Mcu.block) dest = .ok dest') :
    ∃ first rest, dest'.written = dest.written ++ joinIntervals 0 first rest ∧
      ∀ (good : ℕ → Prop) (first' : List UInt8) (rest' : List (Option (List UInt8))) (m : Marker)
        (tail : List UInt8) (source : Source) (warnings : List DecodeWarning),
        source.unread = received first' (behind m tail 0 rest') → rest'.length = rest.length → Recoverable rest' →
          (∀ i, good i → (some first' :: rest')[i]? = ((first :: rest).map some)[i]?) →
            ∃ dec, startPassHuffDecoder cinfo source warnings = .ok dec ∧
              dec.reader.warnings = checkSequential cinfo warnings ∧
              dec.marker.discardedBytes = 0 ∧ Decoded cinfo good cinfo.restartInterval m tail mcus dec := by
  obtain ⟨entropy, hstart, hmcus⟩ := except_bind_eq_ok hok
  obtain ⟨tbls, htbls, htables⟩ := exists_decoderTables hstart
    { maxcode := fun _ => 0, valoffset := fun _ => 0, pub := { bits := fun _ => 0, huffval := fun _ => 0 },
      lookNbits := fun _ => 0, lookSym := fun _ => 0 }
  obtain ⟨ctbls, -, hentropy⟩ := except_bind_eq_ok hstart
  obtain rfl := Except.ok.inj hentropy
  have hemitted : Emitted dest.written [] ⟨dest, ⟨0, 0, fun _ => 0⟩⟩ :=
    ⟨[], [], (List.append_nil _).symm, rfl, ⟨by decide, rfl, bits_of_zero 24⟩⟩
  obtain ⟨w, first, rest, hfirst, hwritten, hrun⟩ :=
    encodeMcus_decoded mcus htables hemitted (show 0 < 8 by decide) (Nat.le_refl _) hmcus
  refine ⟨first, rest, hwritten, ?_⟩
  intro good first' rest' m tail source warnings hsource hlen hrecoverable hsame
  have hsegment := segment_received m tail (show 0 < 8 by decide) first' rest'
  rw [← hsource] at hsegment
  refine ⟨_, by rw [startPassHuffDecoder, htbls]; rfl, rfl, rfl, hrun good m tail _ ?_⟩
  refine ⟨rfl, rfl, rfl, fun _ => rfl, ⟨rest', hlen, hrecoverable, fun i hgood => hsame (i + 1) hgood, ?_⟩,
    fun hgood => ?_⟩
  · rw [ending_of_fresh rfl]
    change ((dataSegment source.unread).marker, (dataSegment source.unread).rest) = _
    rw [hsegment]
  · refine ⟨?_, rfl, fun ci _ => rfl⟩
    rw [remaining_of_fresh rfl rfl]
    change toBits (dataSegment source.unread).data = w
    have hdata : first' = first := Option.some.inj (Option.some.inj (hsame 0 hgood))
    rw [hsegment, hdata, hfirst]
    rfl

/-- A table that gives each of some symbols, at most three, two bits. -/
def twoBitTable (symbols : List UInt8) : JHuffTbl where
  bits l := if l = 2 then UInt8.ofNat symbols.length else 0
  huffval i := symbols.getD i 0

def grayScan (restartInterval : ℕ) : DecoderScan where
  compsInScan := 1
  mcuMembership := [0]
  dcTblNo _ := 0
  acTblNo _ := 0
  dcHuffTblPtrs i := if i = 0 then some (twoBitTable [0, 2]) else none
  acHuffTblPtrs i := if i = 0 then some (twoBitTable [0, 0x11, 0x02]) else none
  restartInterval := restartInterval
  membership_lt := by decide
  ss := 0
  se := 63
  ah := 0
  al := 0
  componentNeeded _ := true
  dctScaledSize _ := 8

def blackMcu : Mcu := ⟨fun _ _ => 0, fun _ _ => ⟨by decide, by decide⟩⟩

/-- The DC coefficient 3, and the AC coefficients -2 and 1 with a zero between them. -/
def grayMcu : Mcu where
  block _ i := if i = 0 then 3 else if i = 1 then -2 else if i = 16 then 1 else 0
  short := by
    intro b i
    split_ifs <;> exact ⟨by decide, by decide⟩

/-- A scan comes back as it was encoded, up to what is not wanted, and without a warning if its
parameters are those of sequential JPEG. -/
theorem decodeMcus_encodeEntropyScan (cinfo : DecoderScan) (mcus : List Mcu) {dest dest' : Destination}
    (hok : encodeEntropyScan cinfo.toEntropyScan (mcus.map Mcu.block) dest = .ok dest') (m : Marker)
    (tail : List UInt8) (source : Source)
    (hsource : dest.written ++ source.unread = dest'.written ++ 0xFF :: m.code :: tail)
    (warnings : List DecodeWarning) :
    ∃ dec, startPassHuffDecoder cinfo source warnings = .ok dec ∧
      (decodeMcus cinfo mcus.length dec).1 = mcus.map (wantedMcu cinfo) ∧
      (decodeMcus cinfo mcus.length dec).2.reader.warnings =
        (if cinfo.Sequential then warnings else warnings ++ [.notSequential]) ∧
      (decodeMcus cinfo mcus.length dec).2.reader.ending = (m.code, tail) ∧
      (decodeMcus cinfo mcus.length dec).2.reader.remaining.length < 8 := by
  obtain ⟨first, rest, hwritten, hrun⟩ := exists_decoded hok
  rw [hwritten, List.append_assoc, joinIntervals_received] at hsource
  obtain ⟨dec, hstart, hwarnings, hcount, hdecoded⟩ := hrun (fun _ => True) first (rest.map some) m tail source
    warnings (List.append_cancel_left hsource) (List.length_map some) (recoverable_map_some rest) (fun i _ => rfl)
  obtain ⟨hquiet, -, hshort⟩ := hdecoded.quiet (fun _ => trivial) hcount
  exact ⟨dec, hstart, List.ext_getElem? (fun j => hdecoded.blocks j trivial), hquiet.trans hwarnings,
    hdecoded.ending, hshort⟩

/-- Two intervals of one MCU each. -/
theorem decodeMcus_grayScan :
    ∃ dec, startPassHuffDecoder (grayScan 1) ⟨[0x79, 0x67, 0xFF, 0xD0, 0x0F, 0xFF, 0xD9], [], 0⟩ [] = .ok dec ∧
      (decodeMcus (grayScan 1) 2 dec).1 = [grayMcu, blackMcu].map (wantedMcu (grayScan 1)) ∧
      (decodeMcus (grayScan 1) 2 dec).2.reader.warnings = [] ∧
      (decodeMcus (grayScan 1) 2 dec).2.reader.ending = (0xD9, []) ∧
      (decodeMcus (grayScan 1) 2 dec).2.reader.remaining.length < 8 :=
  decodeMcus_encodeEntropyScan (grayScan 1) [grayMcu, blackMcu]
    (show encodeEntropyScan _ _ (Destination.initDestination []) =
      .ok ⟨[0x79, 0x67, 0xFF, 0xD0, 0x0F], 4091, [], by decide, by decide⟩ from rfl)
    endOfImage [] ⟨[0x79, 0x67, 0xFF, 0xD0, 0x0F, 0xFF, 0xD9], [], 0⟩ rfl []

/-- The MCUs of an interval whose data are intact are decoded at their places, whatever the data of the
others are, and although up to two successive intervals are lost with their markers. -/
theorem decodeMcus_of_intact (cinfo : DecoderScan) (mcus : List Mcu) {dest dest' : Destination}
    (hok : encodeEntropyScan cinfo.toEntropyScan (mcus.map Mcu.block) dest = .ok dest') :
    ∃ first rest, dest'.written = dest.written ++ joinIntervals 0 first rest ∧
      ∀ (first' : List UInt8) (rest' : List (Option (List UInt8))) (m : Marker) (tail : List UInt8)
        (source : Source) (warnings : List DecodeWarning), rest'.length = rest.length → Recoverable rest' →
        source.unread = received first' (behind m tail 0 rest') →
          ∃ dec, startPassHuffDecoder cinfo source warnings = .ok dec ∧
            (∀ j, (some first' :: rest')[j / cinfo.restartInterval]? =
                ((first :: rest).map some)[j / cinfo.restartInterval]? →
              (decodeMcus cinfo mcus.length dec).1[j]? = (mcus.map (wantedMcu cinfo))[j]?) ∧
            (decodeMcus cinfo mcus.length dec).2.reader.ending = (m.code, tail) := by
  obtain ⟨first, rest, hwritten, hrun⟩ := exists_decoded hok
  refine ⟨first, rest, hwritten, ?_⟩
  intro first' rest' m tail source warnings hlen hrecoverable hsource
  obtain ⟨dec, hstart, -, -, hdecoded⟩ := hrun (fun i => (some first' :: rest')[i]? = ((first :: rest).map some)[i]?)
    first' rest' m tail source warnings hsource hlen hrecoverable (fun _ h => h)
  refine ⟨dec, hstart, fun j hj => hdecoded.blocks j ?_, hdecoded.ending⟩
  rw [Nat.add_sub_cancel]
  exact hj

/-- Of four intervals the second is damaged, and the third is lost with its marker. -/
theorem decodeMcus_of_intact_grayScan :
    ∃ dec, startPassHuffDecoder (grayScan 1)
        ⟨[0x79, 0x67, 0xFF, 0xD0, 0x00, 0xFF, 0xD2, 0x79, 0x67, 0xFF, 0xD9], [], 0⟩ [] = .ok dec ∧
      (decodeMcus (grayScan 1) 4 dec).1[0]? = some (wantedMcu (grayScan 1) grayMcu) ∧
      (decodeMcus (grayScan 1) 4 dec).1[3]? = some (wantedMcu (grayScan 1) grayMcu) ∧
      (decodeMcus (grayScan 1) 4 dec).2.reader.ending = (0xD9, []) := by
  obtain ⟨first, rest, hwritten, hrun⟩ := decodeMcus_of_intact (grayScan 1) [grayMcu, blackMcu, blackMcu, grayMcu]
    (show encodeEntropyScan _ _ (Destination.initDestination []) =
      .ok ⟨[0x79, 0x67, 0xFF, 0xD0, 0x0F, 0xFF, 0xD1, 0x0F, 0xFF, 0xD2, 0x79, 0x67], 4084, [], by decide, by decide⟩
      from rfl)
  obtain ⟨rfl, rfl⟩ : [0x79, 0x67] = first ∧ [[0x0F], [0x0F], [0x79, 0x67]] = rest :=
    joinIntervals_injective (show 0 < 8 by decide) hwritten
  obtain ⟨dec, hstart, hintact, hending⟩ := hrun [0x79, 0x67] [some [0x00], none, some [0x79, 0x67]] endOfImage []
    ⟨[0x79, 0x67, 0xFF, 0xD0, 0x00, 0xFF, 0xD2, 0x79, 0x67, 0xFF, 0xD9], [], 0⟩ [] rfl
    (show ¬ [none, none, none] <:+: [some [0x00], none, some [0x79, 0x67]] by decide) rfl
  exact ⟨dec, hstart, hintact 0 rfl, hintact 3 rfl, hending⟩

theorem resume_endWarnings (cinfo : DecoderScan) (dec : HuffDecoder) :
    (resume cinfo dec).reader.endWarnings ≤ dec.reader.endWarnings +
      if cinfo.restartInterval ≠ 0 ∧ dec.restartsToGo = 0 then 1 else 0 := by
  rw [resume]
  split_ifs with hrestart
  · have hcount := readRestartMarker_count
      { dec.marker with discardedBytes := dec.marker.discardedBytes + dec.reader.bitsLeft / 8 }
      { dec.reader with bitsLeft := 0, fits := Nat.zero_le _ }
    have hwarnings : (processRestart cinfo dec).reader.warnings.count .hitMarker =
        dec.reader.warnings.count .hitMarker := by
      rw [← hcount, processRestart]
      dsimp only
      split_ifs with hmarker
      · rfl
      · rfl
    rw [Reader.endWarnings, Reader.endWarnings, hwarnings]
    split_ifs <;> omega
  · exact Nat.le_refl _

theorem decodeMcu_endWarnings (cinfo : DecoderScan) (dec : HuffDecoder) :
    (decodeMcu cinfo dec).2.reader.endWarnings = (resume cinfo dec).reader.endWarnings := by
  have hkept := decodeBlocks_kept kept_endWarnings cinfo (resume cinfo dec).dcDerivedTbls
    (resume cinfo dec).acDerivedTbls cinfo.mcuMembership 0
    (zeroMcu, (resume cinfo dec).lastDcVal, (resume cinfo dec).reader)
  rw [decodeMcu, decodeData]
  split_ifs with hinsufficient
  · rfl
  · exact hkept

/-- The restart markers that are due within the next `n` MCUs. -/
def restartsDue (R togo n : ℕ) : ℕ := (n + R - 1 - togo) / R

theorem resume_togo (cinfo : DecoderScan) (dec : HuffDecoder) : (resume cinfo dec).restartsToGo =
    if cinfo.restartInterval ≠ 0 ∧ dec.restartsToGo = 0 then cinfo.restartInterval else dec.restartsToGo := by
  rw [resume]
  split_ifs with hrestart
  · rfl
  · rfl

theorem decodeMcus_endWarnings (cinfo : DecoderScan) (n : ℕ) {dec : HuffDecoder}
    (htogo : cinfo.restartInterval ≠ 0 → dec.restartsToGo ≤ cinfo.restartInterval) :
    (decodeMcus cinfo n dec).2.reader.endWarnings ≤
      dec.reader.endWarnings + restartsDue cinfo.restartInterval dec.restartsToGo n := by
  induction n generalizing dec with
  | zero => exact Nat.le_add_right _ _
  | succ n ih =>
    have hmcu := decodeMcu_endWarnings cinfo dec
    have hresume := resume_endWarnings cinfo dec
    have hstep := (decodeMcu_stepped cinfo dec).togo
    rw [resume_togo] at hstep
    rw [decodeMcus_succ]
    change (decodeMcus cinfo n (decodeMcu cinfo dec).2).2.reader.endWarnings ≤ _
    by_cases hR : cinfo.restartInterval = 0
    · have hlater := @ih (decodeMcu cinfo dec).2 (fun h => absurd hR h)
      rw [if_neg (fun h => h.1 hR)] at hresume
      rw [restartsDue, hR, Nat.div_zero] at hlater ⊢
      omega
    · have hle := htogo hR
      have hpos := Nat.pos_of_ne_zero hR
      by_cases hrestart : dec.restartsToGo = 0
      · rw [if_pos ⟨hR, hrestart⟩] at hresume hstep
        rw [countDown_pos hR] at hstep
        have hlater := @ih (decodeMcu cinfo dec).2 (fun _ => by rw [hstep]; exact Nat.sub_le _ _)
        have hdue : n + 1 + cinfo.restartInterval - 1 - 0 = n + cinfo.restartInterval := by omega
        have hnext : n + cinfo.restartInterval - 1 - (cinfo.restartInterval - 1) = n := by omega
        rw [hstep, restartsDue, hnext] at hlater
        rw [hrestart, restartsDue, hdue, Nat.add_div_right _ hpos]
        omega
      · rw [if_neg (fun h => hrestart h.2)] at hresume hstep
        rw [countDown_pos hrestart] at hstep
        have hlater := @ih (decodeMcu cinfo dec).2 (fun _ => by rw [hstep]; omega)
        have hdue : n + 1 + cinfo.restartInterval - 1 - dec.restartsToGo =
            n + cinfo.restartInterval - 1 - (dec.restartsToGo - 1) := by omega
        rw [hstep] at hlater
        rw [restartsDue, hdue]
        rw [restartsDue] at hlater
        omega

theorem count_checkSequential (cinfo : DecoderScan) (warnings : List DecodeWarning) :
    (checkSequential cinfo warnings).count .hitMarker = warnings.count .hitMarker := by
  rw [checkSequential]
  split_ifs with hsequential
  · rfl
  · rw [List.count_append]
    rfl

/-- Whatever the data are, there is at most one warning about their end for each restart interval. -/
theorem hitMarker_le (cinfo : DecoderScan) {source : Source} {warnings : List DecodeWarning} {dec : HuffDecoder}
    (hstart : startPassHuffDecoder cinfo source warnings = .ok dec) (n : ℕ) :
    (decodeMcus cinfo n dec).2.reader.warnings.count .hitMarker ≤
      warnings.count .hitMarker + 1 + (n - 1) / cinfo.restartInterval := by
  obtain ⟨tbls, -, hdec⟩ := except_bind_eq_ok hstart
  obtain rfl := Except.ok.inj hdec
  have hrun := @decodeMcus_endWarnings cinfo n
    { reader := ⟨source, 0, 0, 0, false, checkSequential cinfo warnings, by decide⟩, marker := ⟨0, 0⟩, lastDcVal := fun _ => 0,
      restartsToGo := cinfo.restartInterval, dcDerivedTbls := tbls.1, acDerivedTbls := tbls.2 }
    (fun _ => Nat.le_refl _)
  have hdue : n + cinfo.restartInterval - 1 - cinfo.restartInterval = n - 1 := by omega
  have hcount : ∀ r : Reader, r.warnings.count .hitMarker ≤ r.endWarnings := fun r => Nat.le_add_right _ _
  refine Nat.le_trans (hcount _) (Nat.le_trans hrun ?_)
  rw [restartsDue, hdue, Reader.endWarnings, count_checkSequential]
  exact Nat.le_refl _

theorem hitMarker_le_grayScan : ∃ dec, startPassHuffDecoder (grayScan 1) ⟨[], [], 0⟩ [] = .ok dec ∧
    (decodeMcus (grayScan 1) 5 dec).2.reader.warnings.count .hitMarker ≤
      ([] : List DecodeWarning).count .hitMarker + 1 + (5 - 1) / 1 :=
  ⟨_, rfl, hitMarker_le (grayScan 1) rfl 5⟩

end Scans

end Jp4Tools.RestartIntervals
