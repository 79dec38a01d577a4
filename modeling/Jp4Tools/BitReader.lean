import Jp4Tools.ByteStuffing
import Jp4Tools.HuffmanTables
import Jp4Tools.StdioManagers

/-!
# Reading bits of entropy-coded data

The decoder keeps a word of bits that `jpegFillBitBuffer` fills byte by byte, taking out stuffed
zeros, until it meets a marker; from then on it makes up zero bits when it is asked for more than
there are. `huffDecode` gets a symbol by one table lookup, or bit by bit.
-/

namespace Jp4Tools.BitReader
open BitStrings ByteStuffing CanonicalCodes HuffmanTables StdioManagers

def bitBufSize : ℕ := 32
def minGetBits : ℕ := bitBufSize - 7

inductive DecodeWarning where
  | notSequential
  | hitMarker
  | huffBadCode
  | extraneousData (discardedBytes : ℕ) (marker : UInt8)
  | mustResync (marker : UInt8) (desired : ℕ)
  deriving DecidableEq, Repr

/-- The source, the bit buffer and the number of unused bits in it, with `unread_marker` and
`insufficient_data`; no pending marker is 0. -/
structure Reader where
  source : Source
  unreadMarker : UInt8
  getBuffer : BitVec 64
  bitsLeft : ℕ
  insufficientData : Bool
  warnings : List DecodeWarning
  fits : bitsLeft ≤ bitBufSize

/-- The loop that discards the padding bytes of a marker. Its fuel is more than the bytes that are
left, so that it meets another byte. -/
def skipOnes : ℕ → Source → UInt8 × Source
  | 0, source => (jpegEoi, source)
  | fuel + 1, source =>
    let (c, source) := source.inputByte
    if c = 0xFF then skipOnes fuel source else (c, source)

def Reader.load (r : Reader) (h : r.bitsLeft < minGetBits) (source : Source) (c : UInt8) : Reader :=
  { r with
    source := source
    getBuffer := (r.getBuffer <<< 8) ||| BitVec.ofNat 64 c.toNat
    bitsLeft := r.bitsLeft + 8
    fits := by
      change r.bitsLeft < 25 at h
      change r.bitsLeft + 8 ≤ 32
      omega }

/-- `while (bits_left < MIN_GET_BITS)`; the first component says that a marker was met. -/
def loadBytes : ℕ → Reader → Bool × Reader
  | 0, r => (false, r)
  | fuel + 1, r =>
    if h : r.bitsLeft < minGetBits then
      let (c, source) := r.source.inputByte
      if c = 0xFF then
        let (c, source) := skipOnes (source.unread.length + 2) source
        if c = 0 then loadBytes fuel (r.load h source 0xFF)
        else (true, { r with source := source, unreadMarker := c })
      else loadBytes fuel (r.load h source c)
    else (false, r)

/-- `no_more_bytes`: zeros are stuffed into the data stream, with one warning per data segment. -/
def noMoreBytes (nbits : ℕ) (r : Reader) : Reader :=
  if r.bitsLeft < nbits then
    { r with
      getBuffer := r.getBuffer <<< (minGetBits - r.bitsLeft)
      bitsLeft := minGetBits
      insufficientData := true
      warnings := if r.insufficientData then r.warnings else r.warnings ++ [.hitMarker]
      fits := by decide }
  else r

/-- `jpeg_fill_bit_buffer`. Four bytes fill the buffer. -/
def jpegFillBitBuffer (nbits : ℕ) (r : Reader) : Reader :=
  if r.unreadMarker = 0 then
    match loadBytes 4 r with
    | (true, r) => noMoreBytes nbits r
    | (false, r) => r
  else noMoreBytes nbits r

/-- `CHECK_BIT_BUFFER`, `PEEK_BITS`, `DROP_BITS` and `GET_BITS`. -/
def checkBitBuffer (nbits : ℕ) (r : Reader) : Reader :=
  if r.bitsLeft < nbits then jpegFillBitBuffer nbits r else r

def peekBits (nbits : ℕ) (r : Reader) : ℕ :=
  ((r.getBuffer.sshiftRight (r.bitsLeft - nbits)).setWidth 32 &&& maskWord 32 nbits).toNat

def dropBits (nbits : ℕ) (r : Reader) : Reader :=
  { r with
    bitsLeft := r.bitsLeft - nbits
    fits := Nat.le_trans (Nat.sub_le _ _) r.fits }

def getBits (nbits : ℕ) (r : Reader) : ℕ × Reader := (peekBits nbits r, dropBits nbits r)

def fetchBits (nbits : ℕ) (r : Reader) : ℕ × Reader := getBits nbits (checkBitBuffer nbits r)

/-- `while (code > htbl->maxcode[l])`, which the sentinel `maxcode[17]` ends. -/
def collectBits (htbl : DDerivedTbl) : ℕ → ℕ → ℕ → Reader → ℕ × ℕ × Reader
  | 0, l, code, r => (l, code, r)
  | fuel + 1, l, code, r =>
    if htbl.maxcode l < code then
      let (bit, r) := fetchBits 1 r
      collectBits htbl fuel (l + 1) ((code <<< 1) ||| bit) r
    else (l, code, r)

def jpegHuffDecode (htbl : DDerivedTbl) (minBits : ℕ) (r : Reader) : ℕ × Reader :=
  let (code, r) := fetchBits minBits r
  let (l, code, r) := collectBits htbl 17 minBits code r
  if 16 < l then (0, { r with warnings := r.warnings ++ [.huffBadCode] })
  else ((htbl.pub.huffval (code + htbl.valoffset l).toNat).toNat, r)

def huffDecode (htbl : DDerivedTbl) (r : Reader) : ℕ × Reader :=
  let r := if r.bitsLeft < huffLookahead then jpegFillBitBuffer 0 r else r
  if r.bitsLeft < huffLookahead then jpegHuffDecode htbl 1 r
  else
    let nb := htbl.lookNbits (peekBits huffLookahead r)
    if nb ≠ 0 then (htbl.lookSym (peekBits huffLookahead r), dropBits nb r)
    else jpegHuffDecode htbl (huffLookahead + 1) r

namespace Reader

/-- The bits of the data segment that have not been used, and the marker and the bytes behind it. -/
def remaining (r : Reader) : List Bool := bits r.bitsLeft r.getBuffer.toNat ++
  if r.unreadMarker = 0 then toBits (dataSegment r.source.unread).data else []

def ending (r : Reader) : UInt8 × List UInt8 :=
  if r.unreadMarker = 0 then ((dataSegment r.source.unread).marker, (dataSegment r.source.unread).rest)
  else (r.unreadMarker, r.source.unread)

end Reader

/-- `r'` comes from `r` by reading the bits `w`; zeros are made up only when `w` is longer than what
was there. -/
structure Reads (r : Reader) (w : List Bool) (r' : Reader) : Prop where
  padded : ∃ k, r.remaining ++ zeros k = w ++ r'.remaining ∧ (k ≠ 0 → r'.insufficientData = true)
  ending : r'.ending = r.ending
  keeps : r.insufficientData = true → r'.insufficientData = true
  enough : w.length ≤ r.remaining.length →
    r'.remaining = r.remaining.drop w.length ∧ r'.insufficientData = r.insufficientData ∧
      r'.warnings = r.warnings

section Filling

theorem skipOnes_spec {fuel : ℕ} {source : Source} (h : source.unread.length + 2 ≤ fuel) :
    ((skipOnes fuel source).1, (skipOnes fuel source).2.unread) = afterOnes source.unread := by
  induction fuel generalizing source with
  | zero => omega
  | succ fuel ih =>
    have hbyte := source.inputByte_unread
    rw [skipOnes]
    cases hunread : source.unread with
    | nil =>
      rw [hunread] at hbyte h
      obtain ⟨hc, hnext⟩ := Prod.mk.inj hbyte
      have hmarker := source.inputByte.2.inputByte_unread
      rw [hnext] at hmarker
      obtain ⟨hc', hnext'⟩ := Prod.mk.inj hmarker
      obtain ⟨fuel, rfl⟩ : ∃ k, fuel = k + 1 := ⟨fuel - 1, by rw [List.length_nil] at h; omega⟩
      dsimp only
      rw [hc, if_pos rfl, skipOnes]
      dsimp only
      rw [hc', if_neg (by decide), hnext']
      rfl
    | cons b l =>
      rw [hunread] at hbyte h
      obtain ⟨hc, hnext⟩ := Prod.mk.inj hbyte
      dsimp only
      rw [hc, afterOnes]
      split_ifs with hff
      · rw [← hnext]
        refine ih ?_
        rw [hnext]
        rw [List.length_cons] at h
        omega
      · rw [hnext]

theorem bits_load (r : Reader) (h : r.bitsLeft < minGetBits) (source : Source) (c : UInt8) :
    bits (r.load h source c).bitsLeft (r.load h source c).getBuffer.toNat =
      bits r.bitsLeft r.getBuffer.toNat ++ bits 8 c.toNat := by
  have hlt : r.bitsLeft < 25 := h
  have hold := bits_wordShiftLeft (n := r.bitsLeft) (k := 8) r.getBuffer (by omega)
  have hbyte : c.toNat < 2 ^ 8 := c.toNat_lt
  have hnew : bits (r.bitsLeft + 8) (BitVec.ofNat 64 c.toNat).toNat = zeros r.bitsLeft ++ bits 8 c.toNat := by
    rw [BitVec.toNat_ofNat, bits_mod (by omega), bits_add, Nat.div_eq_of_lt hbyte, bits_of_zero]
  change bits (r.bitsLeft + 8) (r.getBuffer <<< 8 ||| BitVec.ofNat 64 c.toNat).toNat = _
  rw [BitVec.toNat_or, bits_or, hold, hnew,
    List.zipWith_append (by rw [length_bits, length_zeros]), zipWith_or_zeros (length_bits _ _),
    zeros_zipWith_or (length_bits _ _)]

/-- The loop takes data of the segment, or meets its marker. -/
structure Loaded (r : Reader) (hit : Bool) (r' : Reader) : Prop where
  remaining : r'.remaining = r.remaining
  ending : r'.ending = r.ending
  insufficient : r'.insufficientData = r.insufficientData
  warnings : r'.warnings = r.warnings
  marker : r'.unreadMarker = 0 ↔ hit = false

private theorem loaded_marker {r : Reader} (hr : r.unreadMarker = 0) {source : Source} {c : UInt8}
    (hc : c ≠ 0) (hsegment : dataSegment r.source.unread = ⟨[], c, source.unread⟩) :
    Loaded r true { r with source := source, unreadMarker := c } where
  remaining := by
    rw [Reader.remaining, Reader.remaining, if_pos hr, if_neg hc, hsegment]
    rfl
  ending := by
    rw [Reader.ending, Reader.ending, if_pos hr, if_neg hc, hsegment]
  insufficient := rfl
  warnings := rfl
  marker := ⟨fun h => absurd h hc, fun h => absurd h Bool.noConfusion⟩

/-- Loading a byte of the segment leaves its bits as they are. -/
theorem load_segment {r : Reader} (hr : r.unreadMarker = 0) (h : r.bitsLeft < minGetBits) {source : Source}
    {c : UInt8} (hsegment : dataSegment r.source.unread = (dataSegment source.unread).prepend c) :
    (r.load h source c).remaining = r.remaining ∧ (r.load h source c).ending = r.ending := by
  have hr' : (r.load h source c).unreadMarker = 0 := hr
  constructor
  · rw [Reader.remaining, bits_load, Reader.remaining, if_pos hr, hsegment, if_pos hr', Segment.prepend,
      toBits_cons, List.append_assoc]
    rfl
  · rw [Reader.ending, Reader.ending, if_pos hr, hsegment, if_pos hr']
    rfl

theorem loadBytes_spec (fuel : ℕ) {r : Reader} (hr : r.unreadMarker = 0) :
    Loaded r (loadBytes fuel r).1 (loadBytes fuel r).2 ∧
      ((loadBytes fuel r).1 = false → 25 ≤ r.bitsLeft + 8 * fuel → 25 ≤ (loadBytes fuel r).2.bitsLeft) := by
  induction fuel generalizing r with
  | zero => exact ⟨⟨rfl, rfl, rfl, rfl, ⟨fun _ => rfl, fun _ => hr⟩⟩, fun _ h => h⟩
  | succ fuel ih =>
    have hbyte := r.source.inputByte_unread
    have hload : ∀ (h : r.bitsLeft < minGetBits) (source : Source) (c : UInt8),
        dataSegment r.source.unread = (dataSegment source.unread).prepend c →
        Loaded r (loadBytes fuel (r.load h source c)).1 (loadBytes fuel (r.load h source c)).2 ∧
          ((loadBytes fuel (r.load h source c)).1 = false → 25 ≤ r.bitsLeft + 8 * (fuel + 1) →
            25 ≤ (loadBytes fuel (r.load h source c)).2.bitsLeft) := by
      intro h source c hsegment
      obtain ⟨hloaded, hfull⟩ := ih (r := r.load h source c) hr
      obtain ⟨hremaining, hending⟩ := load_segment hr h hsegment
      refine ⟨⟨hloaded.remaining.trans hremaining, hloaded.ending.trans hending, hloaded.insufficient,
        hloaded.warnings, hloaded.marker⟩, ?_⟩
      intro hmiss henough
      refine hfull hmiss ?_
      change 25 ≤ r.bitsLeft + 8 + 8 * fuel
      omega
    rw [loadBytes]
    split_ifs with hroom
    · cases hunread : r.source.unread with
      | nil =>
        rw [hunread] at hbyte
        obtain ⟨hc, hnext⟩ := Prod.mk.inj hbyte
        have hskip := skipOnes_spec (Nat.le_refl (r.source.inputByte.2.unread.length + 2))
        rw [hnext] at hskip
        obtain ⟨hmarker, hrest⟩ := Prod.mk.inj hskip
        dsimp only
        rw [hc, if_pos rfl, hnext, hmarker, if_neg (by decide)]
        refine ⟨loaded_marker hr (by decide) ?_, fun h => absurd h Bool.noConfusion⟩
        rw [hunread, hrest]
        rfl
      | cons b l =>
        rw [hunread] at hbyte
        obtain ⟨hc, hnext⟩ := Prod.mk.inj hbyte
        have hskip := skipOnes_spec (Nat.le_refl (r.source.inputByte.2.unread.length + 2))
        dsimp only
        rw [hc]
        by_cases hff : b = 0xFF
        · rw [hnext] at hskip ⊢
          obtain ⟨hmarker, hrest⟩ := Prod.mk.inj hskip
          have hsegment : dataSegment r.source.unread = segmentFrom true l := by
            rw [hunread, dataSegment, segmentFrom, if_pos hff]
          rw [segmentFrom_true] at hsegment
          rw [if_pos hff, hmarker]
          by_cases hzero : (afterOnes l).1 = 0
          · rw [if_pos hzero]
            rw [if_pos hzero, ← hrest] at hsegment
            exact hload hroom _ _ hsegment
          · rw [if_neg hzero]
            rw [if_neg hzero] at hsegment
            rw [← hrest] at hsegment
            exact ⟨loaded_marker hr hzero hsegment, fun h => absurd h Bool.noConfusion⟩
        · rw [if_neg hff]
          refine hload hroom _ _ ?_
          rw [hunread, hnext, dataSegment, segmentFrom, if_neg hff, dataSegment]
    · exact ⟨⟨rfl, rfl, rfl, rfl, ⟨fun _ => rfl, fun _ => hr⟩⟩, fun _ _ => Nat.not_lt.mp hroom⟩

/-- What `jpeg_fill_bit_buffer` guarantees when it is asked for `nbits`. -/
structure Filled (nbits : ℕ) (r r' : Reader) : Prop where
  padded : ∃ k, r'.remaining = r.remaining ++ zeros k ∧ (k ≠ 0 → r'.insufficientData = true)
  ending : r'.ending = r.ending
  keeps : r.insufficientData = true → r'.insufficientData = true
  depth : nbits ≤ r'.bitsLeft
  enough : nbits ≤ r.remaining.length → r'.remaining = r.remaining ∧
    r'.insufficientData = r.insufficientData ∧ r'.warnings = r.warnings

theorem remaining_of_marker {r : Reader} (h : r.unreadMarker ≠ 0) :
    r.remaining = bits r.bitsLeft r.getBuffer.toNat := by
  rw [Reader.remaining, if_neg h, List.append_nil]

theorem noMoreBytes_filled {nbits : ℕ} (hn : nbits ≤ 25) {r : Reader} (hr : r.unreadMarker ≠ 0) :
    Filled nbits r (noMoreBytes nbits r) := by
  have hremaining := remaining_of_marker hr
  have hlength : r.remaining.length = r.bitsLeft := by rw [hremaining, length_bits]
  rw [noMoreBytes]
  by_cases hshort : r.bitsLeft < nbits
  · have hsum : r.bitsLeft + (minGetBits - r.bitsLeft) = 25 :=
      Nat.add_sub_cancel' (Nat.le_of_lt (Nat.lt_of_lt_of_le hshort hn))
    have hpad := bits_wordShiftLeft (n := r.bitsLeft) (k := minGetBits - r.bitsLeft) r.getBuffer (by omega)
    rw [hsum] at hpad
    rw [if_pos hshort]
    refine ⟨⟨minGetBits - r.bitsLeft, ?_, fun _ => rfl⟩, ?_, fun _ => rfl, hn, fun h => absurd h (by omega)⟩
    · rw [remaining_of_marker (by exact hr), hremaining]
      exact hpad
    · exact (if_neg hr).trans (if_neg hr).symm
  · rw [if_neg hshort]
    exact ⟨⟨0, (List.append_nil _).symm, fun h => absurd rfl h⟩, rfl, fun h => h, Nat.not_lt.mp hshort,
      fun _ => ⟨rfl, rfl, rfl⟩⟩

theorem jpegFillBitBuffer_filled {nbits : ℕ} (hn : nbits ≤ 25) (r : Reader) :
    Filled nbits r (jpegFillBitBuffer nbits r) := by
  rw [jpegFillBitBuffer]
  split_ifs with hr
  · obtain ⟨hloaded, hfull⟩ := loadBytes_spec 4 hr
    cases hresult : loadBytes 4 r with
    | mk hit r' =>
      rw [hresult] at hloaded hfull
      have hremaining := hloaded.remaining
      have hinsufficient := hloaded.insufficient
      have hwarnings := hloaded.warnings
      cases hit with
      | false =>
        refine ⟨⟨0, ?_, fun h => absurd rfl h⟩, hloaded.ending, ?_,
          Nat.le_trans hn (hfull rfl (by omega)), fun _ => ⟨hremaining, hinsufficient, hwarnings⟩⟩
        · rw [hremaining]
          exact (List.append_nil _).symm
        · intro h
          rw [hinsufficient, h]
      | true =>
        have hmarker : r'.unreadMarker ≠ 0 := fun h => Bool.noConfusion (hloaded.marker.mp h)
        have hfilled := noMoreBytes_filled hn hmarker
        have hpadded := hfilled.padded
        have henough := hfilled.enough
        rw [hremaining] at hpadded henough
        rw [hinsufficient, hwarnings] at henough
        refine ⟨hpadded, hfilled.ending.trans hloaded.ending, ?_, hfilled.depth, henough⟩
        intro h
        refine hfilled.keeps ?_
        rw [hinsufficient, h]
  · exact noMoreBytes_filled hn hr

theorem jpegFillBitBuffer_ending (nbits : ℕ) (r : Reader) : (jpegFillBitBuffer nbits r).ending = r.ending := by
  have hpad : ∀ r : Reader, (noMoreBytes nbits r).ending = r.ending := by
    intro r
    by_cases hshort : r.bitsLeft < nbits
    · rw [noMoreBytes, if_pos hshort]
      rfl
    · rw [noMoreBytes, if_neg hshort]
  rw [jpegFillBitBuffer]
  split_ifs with hr
  · obtain ⟨hloaded, -⟩ := loadBytes_spec 4 hr
    cases hresult : loadBytes 4 r with
    | mk hit r' =>
      rw [hresult] at hloaded
      cases hit with
      | false => exact hloaded.ending
      | true => exact (hpad r').trans hloaded.ending
  · exact hpad r

theorem checkBitBuffer_filled {nbits : ℕ} (hn : nbits ≤ 25) (r : Reader) :
    Filled nbits r (checkBitBuffer nbits r) := by
  rw [checkBitBuffer]
  split_ifs with h
  · exact jpegFillBitBuffer_filled hn r
  · exact ⟨⟨0, (List.append_nil _).symm, fun h => absurd rfl h⟩, rfl, fun h => h, Nat.not_lt.mp h,
      fun _ => ⟨rfl, rfl, rfl⟩⟩

end Filling

section Fetching

theorem bitsLeft_le_remaining (r : Reader) : r.bitsLeft ≤ r.remaining.length := by
  rw [Reader.remaining, List.length_append, length_bits]
  exact Nat.le_add_right _ _

theorem peekBits_eq {n : ℕ} (hn : n < 32) {r : Reader} (h : n ≤ r.bitsLeft) :
    peekBits n r = number (r.remaining.take n) := by
  have hfits : r.bitsLeft ≤ 32 := r.fits
  have hsplit := bits_shiftRight n (r.bitsLeft - n) r.getBuffer.toNat
  rw [Nat.add_sub_cancel' h] at hsplit
  have htake : r.remaining.take n = bits n (r.getBuffer.toNat >>> (r.bitsLeft - n)) := by
    rw [Reader.remaining, ← hsplit, List.append_assoc]
    exact List.take_left' (length_bits _ _)
  rw [htake, number_bits, peekBits, toNat_and_maskWord _ hn, BitVec.toNat_setWidth,
    Nat.mod_mod_of_dvd _ (Nat.pow_dvd_pow 2 (Nat.le_of_lt hn)), sshiftRight_mod _ (by omega),
    Nat.shiftRight_eq_div_pow]

theorem dropBits_remaining {n : ℕ} {r : Reader} (h : n ≤ r.bitsLeft) :
    (dropBits n r).remaining = r.remaining.drop n := by
  have hsplit := bits_shiftRight n (r.bitsLeft - n) r.getBuffer.toNat
  rw [Nat.add_sub_cancel' h] at hsplit
  rw [Reader.remaining, Reader.remaining, ← hsplit, List.append_assoc]
  exact (List.drop_left' (length_bits _ _)).symm

theorem dropBits_ending (n : ℕ) (r : Reader) : (dropBits n r).ending = r.ending := rfl

theorem Filled.reads {nbits n : ℕ} (hn : n ≤ nbits) {r r₁ : Reader} (h : Filled nbits r r₁)
    (henough : n ≤ r.remaining.length → nbits ≤ r.remaining.length ∨ r₁.remaining = r.remaining ∧
      r₁.insufficientData = r.insufficientData ∧ r₁.warnings = r.warnings) :
    Reads r (r₁.remaining.take n) (dropBits n r₁) ∧ (r₁.remaining.take n).length = n := by
  have hdepth : n ≤ r₁.bitsLeft := Nat.le_trans hn h.depth
  have hlength : (r₁.remaining.take n).length = n := by
    rw [List.length_take, Nat.min_eq_left (Nat.le_trans hdepth (bitsLeft_le_remaining r₁))]
  obtain ⟨k, hk, hflag⟩ := h.padded
  refine ⟨⟨⟨k, ?_, hflag⟩, (dropBits_ending n r₁).trans h.ending, h.keeps, ?_⟩, hlength⟩
  · rw [dropBits_remaining hdepth, List.take_append_drop, hk]
  · intro hw
    rw [hlength] at hw ⊢
    rw [dropBits_remaining hdepth]
    rcases henough hw with hle | hsame
    · obtain ⟨hremaining, hinsufficient, hwarnings⟩ := h.enough hle
      exact ⟨by rw [hremaining], hinsufficient, hwarnings⟩
    · exact ⟨by rw [hsame.1], hsame.2.1, hsame.2.2⟩

theorem fetchBits_reads {n : ℕ} (hn : n ≤ 25) (r : Reader) :
    ∃ w, w.length = n ∧ (fetchBits n r).1 = number w ∧ Reads r w (fetchBits n r).2 := by
  have hfilled := checkBitBuffer_filled hn r
  obtain ⟨hreads, hlength⟩ := hfilled.reads (Nat.le_refl n) (fun h => .inl h)
  exact ⟨_, hlength, peekBits_eq (by omega) hfilled.depth, hreads⟩

theorem Reads.trans {r r₁ r₂ : Reader} {w w₁ : List Bool} (h : Reads r w r₁) (h₁ : Reads r₁ w₁ r₂) :
    Reads r (w ++ w₁) r₂ := by
  obtain ⟨k, hk, hflag⟩ := h.padded
  obtain ⟨k₁, hk₁, hflag₁⟩ := h₁.padded
  refine ⟨⟨k + k₁, ?_, ?_⟩, h₁.ending.trans h.ending, fun hr => h₁.keeps (h.keeps hr), ?_⟩
  · rw [zeros_add, ← List.append_assoc, hk, List.append_assoc, hk₁, List.append_assoc]
  · intro hpad
    by_cases hzero : k₁ = 0
    · exact h₁.keeps (hflag (by omega))
    · exact hflag₁ hzero
  · intro hw
    rw [List.length_append] at hw
    obtain ⟨hremaining, hinsufficient, hwarnings⟩ := h.enough (by omega)
    obtain ⟨hremaining₁, hinsufficient₁, hwarnings₁⟩ := h₁.enough
      (by rw [hremaining, List.length_drop]; omega)
    refine ⟨?_, hinsufficient₁.trans hinsufficient, hwarnings₁.trans hwarnings⟩
    rw [hremaining₁, hremaining, List.drop_drop, List.length_append]

theorem Reads.isPrefix {r r' : Reader} {w w' rest : List Bool} (h : Reads r w r')
    (hr : r.remaining = w' ++ rest) (hlen : w'.length ≤ w.length) : w' <+: w := by
  obtain ⟨k, hk, -⟩ := h.padded
  rw [hr, List.append_assoc] at hk
  have htake := congrArg (List.take w'.length) hk
  rw [List.take_left, List.take_append_of_le_length hlen] at htake
  exact htake ▸ List.take_prefix _ _

/-- Readers that differ in their buffering only. -/
structure SameData (r r' : Reader) : Prop where
  remaining : r'.remaining = r.remaining
  ending : r'.ending = r.ending
  insufficient : r'.insufficientData = r.insufficientData
  warnings : r'.warnings = r.warnings

theorem Reads.of_same {r r₁ r' : Reader} {w : List Bool} (h : SameData r r₁) (h' : Reads r₁ w r') :
    Reads r w r' := by
  have hpadded := h'.padded
  have henough := h'.enough
  rw [h.remaining] at hpadded henough
  rw [h.insufficient, h.warnings] at henough
  refine ⟨hpadded, h'.ending.trans h.ending, fun hr => h'.keeps ?_, henough⟩
  rw [h.insufficient, hr]

theorem Reads.exact {r r' : Reader} {w rest : List Bool} (h : Reads r w r')
    (hr : r.remaining = w ++ rest) :
    r'.remaining = rest ∧ r'.ending = r.ending ∧ r'.insufficientData = r.insufficientData ∧
      r'.warnings = r.warnings := by
  obtain ⟨hremaining, hinsufficient, hwarnings⟩ := h.enough
    (by rw [hr, List.length_append]; exact Nat.le_add_right _ _)
  rw [hr, List.drop_left] at hremaining
  exact ⟨hremaining, h.ending, hinsufficient, hwarnings⟩

end Fetching

section Decoding
variable {htbl : JHuffTbl} {dtbl : DDerivedTbl}

/-- The result of decoding a symbol: a codeword of the table has been read, or 17 bits that no
codeword begins, which count as the symbol 0. -/
inductive DecodedSymbol (htbl : JHuffTbl) (r : Reader) : ℕ × Reader → Prop where
  | word (s : Codeword htbl) (r' : Reader) (h : Reads r s.word r') : DecodedSymbol htbl r (s.symbol, r')
  | bad (w : List Bool) (r₁ : Reader) (hlen : w.length = 17) (hescapes : Escapes (counts htbl) 17 w)
      (h : Reads r w r₁) :
      DecodedSymbol htbl r (0, { r₁ with warnings := r₁.warnings ++ [.huffBadCode] })

theorem escapes_append {l : ℕ} {w : List Bool} (h : Escapes (counts htbl) l w) (hl : l ≤ w.length + 1)
    (w' : List Bool) : Escapes (counts htbl) l (w ++ w') := by
  intro k hk
  rw [List.take_append_of_le_length (by omega)]
  exact h k hk

/-- The loop stops behind a codeword, or at the sentinel. -/
theorem collectBits_spec (htable : DecodingTable htbl dtbl) {r₀ : Reader} (fuel : ℕ) {w : List Bool}
    {r : Reader} (hreads : Reads r₀ w r) (hpos : 1 ≤ w.length) (hlen : w.length ≤ 17)
    (hfuel : 17 ≤ w.length + fuel) (hescapes : Escapes (counts htbl) w.length w) :
    ∃ w' r', collectBits dtbl fuel w.length (number w) r = (w'.length, number w', r') ∧ Reads r₀ w' r' ∧
      1 ≤ w'.length ∧ w'.length ≤ 17 ∧ Escapes (counts htbl) w'.length w' ∧
      (w'.length ≤ 16 → number w' < pastCode (counts htbl) w'.length) := by
  induction fuel generalizing w r with
  | zero => exact ⟨w, r, rfl, hreads, hpos, hlen, hescapes, fun h => absurd h (by omega)⟩
  | succ fuel ih =>
    have hfirst := firstCode_le_of_escapes hescapes (Nat.le_refl _)
    rw [List.take_length] at hfirst
    rw [collectBits]
    split_ifs with hgo
    · have hshort : w.length ≤ 16 := by
        by_contra hlong
        have h17 : w.length = 17 := by omega
        have hnumber := number_lt w
        rw [h17] at hgo hnumber
        rw [htable.sentinel] at hgo
        omega
      have hpast := (htable.past w.length hpos hshort (number w) hfirst).mp hgo
      obtain ⟨b, hb, hbit, hone⟩ := fetchBits_reads (show 1 ≤ 25 by decide) r
      have hcode : number w <<< 1 ||| (fetchBits 1 r).1 = number (w ++ b) := by
        have hlt := number_lt b
        rw [hb] at hlt
        rw [hbit, ← Nat.shiftLeft_add_eq_or_of_lt hlt, number_append, hb, Nat.shiftLeft_eq]
      have hlength : (w ++ b).length = w.length + 1 := by rw [List.length_append, hb]
      have hnext : Escapes (counts htbl) (w ++ b).length (w ++ b) := by
        rw [hlength]
        refine escapes_append (escapes_succ hescapes ?_) (Nat.le_refl _) b
        rw [List.take_length]
        exact hpast
      obtain ⟨w', r', hrun, hrest⟩ := ih (hreads.trans hone) (by omega) (by omega) (by omega) hnext
      refine ⟨w', r', ?_, hrest⟩
      rw [← hrun, ← hcode, hlength]
    · refine ⟨w, r, rfl, hreads, hpos, hlen, hescapes, fun hshort => ?_⟩
      by_contra hpast
      exact hgo ((htable.past w.length hpos hshort (number w) hfirst).mpr (Nat.not_lt.mp hpast))

theorem jpegHuffDecode_decoded (htable : DecodingTable htbl dtbl) {minBits : ℕ} (hmin : 1 ≤ minBits)
    (hmax : minBits ≤ 16) (r : Reader)
    (hescapes : ∀ w r', w.length = minBits → Reads r w r' → Escapes (counts htbl) minBits w) :
    DecodedSymbol htbl r (jpegHuffDecode dtbl minBits r) := by
  obtain ⟨w, hlen, hcode, hreads⟩ := fetchBits_reads (show minBits ≤ 25 by omega) r
  have hesc := hescapes w _ hlen hreads
  rw [← hlen] at hesc
  obtain ⟨w', r', hrun, hreads', hpos, hlen', hescapes', hstop⟩ :=
    collectBits_spec htable 17 hreads (by omega) (by omega) (by omega) hesc
  have hdecode : jpegHuffDecode dtbl minBits r = if 16 < w'.length then
      (0, { r' with warnings := r'.warnings ++ [.huffBadCode] })
    else ((dtbl.pub.huffval (number w' + dtbl.valoffset w'.length).toNat).toNat, r') := by
    rw [hlen, ← hcode] at hrun
    simp only [jpegHuffDecode, hrun]
  rw [hdecode]
  split_ifs with hbad
  · have h17 : w'.length = 17 := by omega
    rw [h17] at hescapes'
    exact .bad w' r' h17 hescapes' hreads'
  · have hcut := List.take_length (l := w')
    obtain ⟨s, hslen, hword, hscode⟩ := slot_of_escapes (n := 16) (Nat.not_lt.mp hbad) (Nat.le_refl _)
      hescapes' (by rw [hcut]; exact hstop (Nat.not_lt.mp hbad))
    rw [hcut] at hword hscode
    have hoffset := htable.offset s
    rw [hscode, hslen] at hoffset
    have hsymbol : (dtbl.pub.huffval (number w' + dtbl.valoffset w'.length).toNat).toNat =
        Codeword.symbol s := by
      rw [hoffset, Int.toNat_natCast, htable.pub]
      rfl
    rw [hsymbol]
    rw [← hword] at hreads'
    exact .word s r' hreads'

/-- A fill that asks for nothing changes the buffering only. -/
theorem fill_nothing_same (r : Reader) :
    SameData r (if r.bitsLeft < huffLookahead then jpegFillBitBuffer 0 r else r) := by
  split_ifs with hfew
  · have hfilled := jpegFillBitBuffer_filled (Nat.zero_le 25) r
    obtain ⟨hremaining, hinsufficient, hwarnings⟩ := hfilled.enough (Nat.zero_le _)
    exact ⟨hremaining, hfilled.ending, hinsufficient, hwarnings⟩
  · exact ⟨rfl, rfl, rfl, rfl⟩

theorem DecodedSymbol.of_same {r r₁ : Reader} (hr₁ : SameData r r₁) {result : ℕ × Reader}
    (h : DecodedSymbol htbl r₁ result) : DecodedSymbol htbl r result := by
  cases h with
  | word s r' h => exact .word s r' (h.of_same hr₁)
  | bad w r' hlen hescapes h => exact .bad w r' hlen hescapes (h.of_same hr₁)

theorem length_lookahead {r : Reader} (height : 8 ≤ r.bitsLeft) : (r.remaining.take 8).length = 8 := by
  rw [List.length_take, Nat.min_eq_left (Nat.le_trans height (bitsLeft_le_remaining r))]

theorem peekBits_lookahead {r : Reader} (height : 8 ≤ r.bitsLeft) :
    peekBits huffLookahead r = number (r.remaining.take 8) := peekBits_eq (by decide) height

theorem peekBits_lookahead_lt {r : Reader} (height : 8 ≤ r.bitsLeft) : peekBits huffLookahead r < 2 ^ 8 := by
  have hlt := number_lt (r.remaining.take 8)
  rwa [length_lookahead height, ← peekBits_lookahead height] at hlt

/-- Bits that the table knows begin with a codeword. -/
theorem decoded_of_known (htable : DecodingTable htbl dtbl) {r : Reader} (height : 8 ≤ r.bitsLeft)
    (hknown : dtbl.lookNbits (peekBits huffLookahead r) ≠ 0) :
    DecodedSymbol htbl r (dtbl.lookSym (peekBits huffLookahead r),
      dropBits (dtbl.lookNbits (peekBits huffLookahead r)) r) := by
  obtain ⟨s, hs, hcode, hnb, hsym⟩ := htable.known _ (peekBits_lookahead_lt height) hknown
  have htake : number (r.remaining.take s.len) = s.code := by
    have h := number_take (r.remaining.take 8) s.len
    rw [List.take_take, Nat.min_eq_left hs, length_lookahead height, ← peekBits_lookahead height] at h
    rw [h, hcode]
  have hword : r.remaining.take s.len = s.word := by
    rw [Slot.word, ← htake]
    refine (bits_number_of_length ?_).symm
    rw [List.length_take, Nat.min_eq_left]
    exact Nat.le_trans hs (Nat.le_trans height (bitsLeft_le_remaining r))
  rw [hnb, hsym]
  refine .word s _ ?_
  have hfilled : Filled s.len r r := ⟨⟨0, (List.append_nil _).symm, fun h => absurd rfl h⟩, rfl,
    fun h => h, Nat.le_trans hs height, fun _ => ⟨rfl, rfl, rfl⟩⟩
  rw [← hword]
  exact (hfilled.reads (Nat.le_refl _) (fun h => .inl h)).1

/-- Where the table knows nothing, the codeword is longer than the eight bits that were looked up. -/
theorem escapes_of_unknown (htable : DecodingTable htbl dtbl) {r : Reader} (height : 8 ≤ r.bitsLeft)
    (hunknown : dtbl.lookNbits (peekBits huffLookahead r) = 0) {w : List Bool}
    (hpre : r.remaining.take 8 <+: w) : Escapes (counts htbl) 9 w := by
  have hescapes := htable.unknown _ (peekBits_lookahead_lt height) hunknown
  intro k hk
  have hk8 : k ≤ 8 := Nat.lt_succ_iff.mp hk
  have htake : w.take k = (r.remaining.take 8).take k := by
    obtain ⟨rest, hrest⟩ := hpre
    rw [← hrest, List.take_append_of_le_length (by rw [length_lookahead height]; exact hk8)]
  rw [htake, number_take, length_lookahead height, ← peekBits_lookahead height]
  exact hescapes k hk8

/-- The lookahead table and the bit-by-bit loop decode the same code. -/
theorem huffDecode_decoded (htable : DecodingTable htbl dtbl) (r : Reader) :
    DecodedSymbol htbl r (huffDecode dtbl r) := by
  apply DecodedSymbol.of_same (fill_nothing_same r)
  rw [huffDecode]
  generalize (if r.bitsLeft < huffLookahead then jpegFillBitBuffer 0 r else r) = r₁
  dsimp only
  split_ifs with hfew hknown
  · refine jpegHuffDecode_decoded htable (Nat.le_refl 1) (by decide) r₁ (fun w r' hlen _ => ?_)
    intro k hk
    obtain rfl : k = 0 := by omega
    exact Nat.zero_le _
  · exact decoded_of_known htable (Nat.not_lt.mp hfew) hknown
  · have height : 8 ≤ r₁.bitsLeft := Nat.not_lt.mp hfew
    refine jpegHuffDecode_decoded htable (by decide) (by decide) r₁ (fun w r' hlen hreads => ?_)
    -- the nine bits begin with the eight that were looked up
    have hpre : r₁.remaining.take 8 <+: w :=
      hreads.isPrefix (List.take_append_drop 8 _).symm (by rw [length_lookahead height, hlen]; decide)
    exact escapes_of_unknown htable height (not_not.mp hknown) hpre

theorem huffDecode_word (htable : DecodingTable htbl dtbl) (hvalid : Valid htbl) (s : Codeword htbl)
    {r : Reader} {rest : List Bool} (hr : r.remaining = s.word ++ rest) :
    ∃ r', huffDecode dtbl r = (s.symbol, r') ∧ r'.remaining = rest ∧ r'.ending = r.ending ∧
      r'.insufficientData = r.insufficientData ∧ r'.warnings = r.warnings := by
  have hdecoded := huffDecode_decoded htable r
  cases hresult : huffDecode dtbl r with
  | mk v r' =>
    rw [hresult] at hdecoded
    cases hdecoded with
    | word t _ h =>
      have heq : s = t := by
        rcases Nat.le_total s.word.length t.word.length with hle | hle
        · exact s.eq_of_isPrefix t hvalid.legal (h.isPrefix hr hle)
        · obtain ⟨k, hk, -⟩ := h.padded
          rw [hr, List.append_assoc] at hk
          refine (t.eq_of_isPrefix s hvalid.legal ?_).symm
          have htake := congrArg (List.take t.word.length) hk
          rw [List.take_left, List.take_append_of_le_length hle] at htake
          exact htake ▸ List.take_prefix _ _
      subst heq
      exact ⟨r', rfl, h.exact hr⟩
    | bad w r₁ hlen hescapes h =>
      have hshort : s.len ≤ 16 := s.len_le
      have hpre := h.isPrefix hr (by rw [Slot.length_word, hlen]; omega)
      obtain ⟨tail, rfl⟩ := hpre
      have hesc := hescapes s.len (by omega)
      rw [← s.length_word, List.take_left, s.number_word hvalid.legal, Slot.length_word] at hesc
      exact absurd s.code_lt_past (Nat.not_lt.mpr hesc)

/-- With any table that is accepted a symbol is decoded from any data as the code says: a codeword
that the data begin with is the one that is decoded, and no bit behind it is taken. -/
theorem huffDecode_accepted {isDC : Bool} {tbls : TablePtrs} {tblno : ℕ} {dtbl : DDerivedTbl}
    (h : jpegMakeDDerivedTbl isDC tbls tblno = .ok dtbl) :
    ∃ htbl, findTable tbls tblno = .ok htbl ∧ ∀ r, DecodedSymbol htbl r (huffDecode dtbl r) ∧
      ∀ (s : Codeword htbl) (rest : List Bool), r.remaining = s.word ++ rest →
        (huffDecode dtbl r).1 = s.symbol ∧ (huffDecode dtbl r).2.remaining = rest ∧
          (huffDecode dtbl r).2.warnings = r.warnings := by
  obtain ⟨htbl, hfind, hvalid, htable, -⟩ := makeD_sound h
  refine ⟨htbl, hfind, fun r => ⟨huffDecode_decoded htable r, fun s rest hr => ?_⟩⟩
  obtain ⟨r', hdecode, hremaining, -, -, hwarnings⟩ := huffDecode_word htable hvalid s hr
  rw [hdecode]
  exact ⟨rfl, hremaining, hwarnings⟩

theorem huffDecode_accepted_oneSymbol : ∃ dtbl, jpegMakeDDerivedTbl true (fun _ => some oneSymbolTable) 0 = .ok dtbl ∧
    ∃ htbl, findTable (fun _ => some oneSymbolTable) 0 = .ok htbl ∧
      ∀ r, DecodedSymbol htbl r (huffDecode dtbl r) ∧
        ∀ (s : Codeword htbl) (rest : List Bool), r.remaining = s.word ++ rest →
          (huffDecode dtbl r).1 = s.symbol ∧ (huffDecode dtbl r).2.remaining = rest ∧
            (huffDecode dtbl r).2.warnings = r.warnings :=
  ⟨_, rfl, huffDecode_accepted (show jpegMakeDDerivedTbl true (fun _ => some oneSymbolTable) 0 = .ok _ from rfl)⟩

end Decoding

section AnyData

/-- A relation that holds across all that the decoder does to a reader within a data segment. -/
structure Kept (rel : Reader → Reader → Prop) : Prop where
  refl : ∀ r, rel r r
  trans : ∀ {r r₁ r₂}, rel r r₁ → rel r₁ r₂ → rel r r₂
  fill : ∀ nbits r, rel r (jpegFillBitBuffer nbits r)
  drop : ∀ nbits r, rel r (dropBits nbits r)
  badCode : ∀ r : Reader, rel r { r with warnings := r.warnings ++ [.huffBadCode] }

variable {rel : Reader → Reader → Prop}

theorem Kept.fetchBits (h : Kept rel) (n : ℕ) (r : Reader) : rel r (fetchBits n r).2 := by
  refine h.trans ?_ (h.drop n (checkBitBuffer n r))
  rw [checkBitBuffer]
  split_ifs with hfew
  · exact h.fill n r
  · exact h.refl r

theorem Kept.collectBits (h : Kept rel) (dtbl : DDerivedTbl) (fuel l code : ℕ) (r : Reader) :
    rel r (collectBits dtbl fuel l code r).2.2 := by
  induction fuel generalizing l code r with
  | zero => exact h.refl r
  | succ fuel ih =>
    rw [BitReader.collectBits]
    split_ifs with hgo
    · exact h.trans (h.fetchBits 1 r) (ih _ _ _)
    · exact h.refl r

theorem Kept.jpegHuffDecode (h : Kept rel) (dtbl : DDerivedTbl) (minBits : ℕ) (r : Reader) :
    rel r (jpegHuffDecode dtbl minBits r).2 := by
  have hbits := h.trans (h.fetchBits minBits r)
    (h.collectBits dtbl 17 minBits (BitReader.fetchBits minBits r).1 (BitReader.fetchBits minBits r).2)
  rw [BitReader.jpegHuffDecode]
  dsimp only
  split_ifs with hbad
  · exact h.trans hbits (h.badCode _)
  · exact hbits

theorem Kept.huffDecode (h : Kept rel) (dtbl : DDerivedTbl) (r : Reader) : rel r (huffDecode dtbl r).2 := by
  rw [BitReader.huffDecode]
  dsimp only
  split_ifs with hfew hlow hknown hknown
  · exact h.trans (h.fill 0 r) (h.jpegHuffDecode dtbl 1 _)
  · exact h.trans (h.fill 0 r) (h.drop _ _)
  · exact h.trans (h.fill 0 r) (h.jpegHuffDecode dtbl _ _)
  · exact h.drop _ r
  · exact h.jpegHuffDecode dtbl _ r

theorem kept_ending : Kept (fun r r' => r'.ending = r.ending) where
  refl _ := rfl
  trans h h' := h'.trans h
  fill := jpegFillBitBuffer_ending
  drop _ _ := rfl
  badCode _ := rfl

/-- The warnings about a premature end of the data that have been given, and the one that is still to
be expected in this segment. -/
def Reader.endWarnings (r : Reader) : ℕ :=
  r.warnings.count .hitMarker + if r.insufficientData then 0 else 1

theorem noMoreBytes_endWarnings (nbits : ℕ) (r : Reader) :
    (noMoreBytes nbits r).endWarnings = r.endWarnings := by
  by_cases hshort : r.bitsLeft < nbits
  · rw [noMoreBytes, if_pos hshort, Reader.endWarnings, Reader.endWarnings]
    dsimp only
    by_cases hflag : r.insufficientData = true
    · rw [if_pos hflag, if_pos hflag]
      rfl
    · rw [if_neg hflag, if_neg hflag, List.count_append]
      rfl
  · rw [noMoreBytes, if_neg hshort]

theorem kept_endWarnings : Kept (fun r r' => r'.endWarnings = r.endWarnings) where
  refl _ := rfl
  trans h h' := h'.trans h
  fill nbits r := by
    rw [jpegFillBitBuffer]
    split_ifs with hr
    · obtain ⟨hloaded, -⟩ := loadBytes_spec 4 hr
      cases hresult : loadBytes 4 r with
      | mk hit r' =>
        rw [hresult] at hloaded
        have hsame : r'.endWarnings = r.endWarnings := by
          rw [Reader.endWarnings, Reader.endWarnings, hloaded.warnings, hloaded.insufficient]
        cases hit with
        | false => exact hsame
        | true => exact (noMoreBytes_endWarnings nbits r').trans hsame
    · exact noMoreBytes_endWarnings nbits r
  drop _ _ := rfl
  badCode r := by
    rw [Reader.endWarnings, List.count_append]
    rfl

end AnyData

end Jp4Tools.BitReader
