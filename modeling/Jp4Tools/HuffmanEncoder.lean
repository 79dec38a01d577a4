import Jp4Tools.ByteStuffing
import Jp4Tools.CoefficientBits
import Jp4Tools.HuffmanTables
import Jp4Tools.StdioManagers

/-!
# The Huffman entropy encoder

`encodeMcuHuff` turns the blocks of an MCU into bits, which `emitBits` collects in a word and
writes byte by byte. Every restart interval begins at a byte boundary behind a restart marker.
The stdio destination does not suspend, so a call of `emitBits` writes all it has to.
-/

namespace Jp4Tools.HuffmanEncoder
open BitStrings ByteStuffing CoefficientBits CompressionController HuffmanTables MachineIntegers
  StdioManagers

def jpegRst0 : ℕ := 0xD0

structure SavableState where
  putBuffer : BitVec 64
  putBits : ℕ
  lastDcVal : ℕ → ℤ

structure WorkingState where
  dest : Destination
  cur : SavableState

structure HuffEncoder where
  saved : SavableState
  restartsToGo : ℕ
  nextRestartNum : ℕ
  dcDerivedTbls : ℕ → CDerivedTbl
  acDerivedTbls : ℕ → CDerivedTbl

section Bits

/-- `while (put_bits >= 8)`: a byte of all ones is followed by a zero. -/
def emitBytes : ℕ → Destination → BitVec 64 → ℕ → WorkingState → WorkingState
  | 0, dest, putBuffer, putBits, state =>
    { state with dest := dest, cur := { state.cur with putBuffer := putBuffer, putBits := putBits } }
  | fuel + 1, dest, putBuffer, putBits, state =>
    if 8 ≤ putBits then
      let c := UInt8.ofNat (putBuffer.sshiftRight 16 &&& 0xFF#64).toNat
      let dest := dest.emitByte c
      let dest := if c = 0xFF then dest.emitByte 0 else dest
      emitBytes fuel dest (putBuffer <<< 8) (putBits - 8) state
    else
      { state with dest := dest, cur := { state.cur with putBuffer := putBuffer, putBits := putBits } }

/-- `emit_bits`. Only the right 24 bits of `put_buffer` are used. -/
def emitBits (code size : ℕ) (state : WorkingState) : Except HuffError WorkingState :=
  if size = 0 then .error .missingCode
  else
    let putBuffer := BitVec.ofNat 64 code &&& maskWord 64 size
    let putBits := state.cur.putBits + size
    let putBuffer := putBuffer <<< (24 - putBits)
    let putBuffer := putBuffer ||| state.cur.putBuffer
    .ok (emitBytes putBits state.dest putBuffer putBits state)

/-- `flush_bits` fills any partial byte with ones. -/
def flushBits (state : WorkingState) : Except HuffError WorkingState := do
  let state ← emitBits 0x7F 7 state
  .ok { state with cur := { state.cur with putBuffer := 0, putBits := 0 } }

end Bits

section Blocks

/-- `while (r > 15)`: the special codes for runs of 16 zeros. -/
def emitRuns (actbl : CDerivedTbl) : ℕ → ℕ → WorkingState → Except HuffError (ℕ × WorkingState)
  | 0, r, state => .ok (r, state)
  | fuel + 1, r, state =>
    if 15 < r then do
      let state ← emitBits (actbl.ehufco 0xF0) (actbl.ehufsi 0xF0) state
      emitRuns actbl fuel (r - 16) state
    else .ok (r, state)

/-- One round of the loop over the AC coefficients; `r` is the run length of zeros. -/
def encodeCoef (actbl : CDerivedTbl) (s : ℕ × WorkingState) (temp : ℤ) :
    Except HuffError (ℕ × WorkingState) :=
  if temp = 0 then .ok (s.1 + 1, s.2)
  else do
    let (r, state) ← emitRuns actbl s.1 s.1 s.2
    let nbits := acBits temp.natAbs temp.natAbs 1
    if maxCoefBits < nbits then .error .badDctCoef
    else
      let i := (r <<< 4) + nbits
      let state ← emitBits (actbl.ehufco i) (actbl.ehufsi i) state
      let state ← emitBits (coefCode temp) nbits state
      .ok (0, state)

def encodeOneBlock (block : JBlock) (lastDcVal : ℤ) (dctbl actbl : CDerivedTbl) (state : WorkingState) :
    Except HuffError WorkingState := do
  let temp := block 0 - lastDcVal
  let nbits := dcBits temp.natAbs temp.natAbs 0
  if maxCoefBits + 1 < nbits then .error .badDctCoef
  else
    let state ← emitBits (dctbl.ehufco nbits) (dctbl.ehufsi nbits) state
    let state ← if nbits ≠ 0 then emitBits (coefCode temp) nbits state else .ok state
    let (r, state) ← (acCoefs block).foldlM (encodeCoef actbl) (0, state)
    if 0 < r then emitBits (actbl.ehufco 0) (actbl.ehufsi 0) state else .ok state

end Blocks

section Scan

/-- `start_pass_huff` for a pass that is not gathering statistics. -/
def startPassHuff (cinfo : EntropyScan) : Except HuffError HuffEncoder := do
  let tbls ← deriveTables (fun isDC => jpegMakeCDerivedTbl isDC (cinfo.tablePtrs isDC)) cinfo
    { ehufco := fun _ => 0, ehufsi := fun _ => 0 }
  .ok {
    saved := { putBuffer := 0, putBits := 0, lastDcVal := fun _ => 0 }
    restartsToGo := cinfo.restartInterval
    nextRestartNum := 0
    dcDerivedTbls := tbls.1
    acDerivedTbls := tbls.2 }

def emitRestart (restartNum : ℕ) (state : WorkingState) : Except HuffError WorkingState := do
  let state ← flushBits state
  let dest := (state.dest.emitByte 0xFF).emitByte (UInt8.ofNat (jpegRst0 + restartNum))
  .ok { dest := dest, cur := { state.cur with lastDcVal := fun _ => 0 } }

def encodeBlocks (cinfo : EntropyScan) (entropy : HuffEncoder) (mcuData : ℕ → JBlock) :
    ℕ → List ℕ → WorkingState → Except HuffError WorkingState
  | _, [], state => .ok state
  | blkn, ci :: membership, state => do
    let state ← encodeOneBlock (mcuData blkn) (state.cur.lastDcVal ci)
      (entropy.dcDerivedTbls (cinfo.dcTblNo ci)) (entropy.acDerivedTbls (cinfo.acTblNo ci)) state
    encodeBlocks cinfo entropy mcuData (blkn + 1) membership
      { state with cur := { state.cur with
        lastDcVal := Function.update state.cur.lastDcVal ci (mcuData blkn 0) } }

def countRestart (cinfo : EntropyScan) (entropy : HuffEncoder) : HuffEncoder :=
  if cinfo.restartInterval ≠ 0 then
    let entropy := if entropy.restartsToGo = 0 then
        { entropy with
          restartsToGo := cinfo.restartInterval
          nextRestartNum := (entropy.nextRestartNum + 1) &&& 7 }
      else entropy
    { entropy with restartsToGo := entropy.restartsToGo - 1 }
  else entropy

def encodeMcuHuff (cinfo : EntropyScan) (mcuData : ℕ → JBlock) (entropy : HuffEncoder) (dest : Destination) :
    Except HuffError (HuffEncoder × Destination) := do
  let state : WorkingState := { dest := dest, cur := entropy.saved }
  let state ← if cinfo.restartInterval ≠ 0 ∧ entropy.restartsToGo = 0 then
      emitRestart entropy.nextRestartNum state
    else .ok state
  let state ← encodeBlocks cinfo entropy mcuData 0 cinfo.mcuMembership state
  .ok (countRestart cinfo { entropy with saved := state.cur }, state.dest)

def finishPassHuff (entropy : HuffEncoder) (dest : Destination) :
    Except HuffError (HuffEncoder × Destination) := do
  let state ← flushBits { dest := dest, cur := entropy.saved }
  .ok ({ entropy with saved := state.cur }, state.dest)

/-- The MCUs of a scan, one call of `encode_mcu` after the other, and the end of the pass. -/
def encodeMcus (cinfo : EntropyScan) :
    List (ℕ → JBlock) → HuffEncoder → Destination → Except HuffError Destination
  | [], entropy, dest => do
    let (_, dest) ← finishPassHuff entropy dest
    .ok dest
  | mcuData :: mcus, entropy, dest => do
    let (entropy, dest) ← encodeMcuHuff cinfo mcuData entropy dest
    encodeMcus cinfo mcus entropy dest

def encodeEntropyScan (cinfo : EntropyScan) (mcus : List (ℕ → JBlock)) (dest : Destination) :
    Except HuffError Destination := do
  let entropy ← startPassHuff cinfo
  encodeMcus cinfo mcus entropy dest

end Scan

section BitSpec

/-- Less than a byte is pending, left-justified in the right 24 bits of the word. -/
structure Pending (s : SavableState) (r : List Bool) : Prop where
  short : r.length < 8
  count : s.putBits = r.length
  word : bits 24 s.putBuffer.toNat = r ++ zeros (24 - r.length)

/-- Behind `base` the bits `l` have been emitted, as stuffed bytes and pending bits. -/
def Emitted (base : List UInt8) (l : List Bool) (state : WorkingState) : Prop :=
  ∃ bytes r, state.dest.written = base ++ stuff bytes ∧ l = toBits bytes ++ r ∧ Pending state.cur r

theorem Emitted.predict {base : List UInt8} {l : List Bool} {state : WorkingState} (h : Emitted base l state)
    (lastDcVal : ℕ → ℤ) :
    Emitted base l { state with cur := { state.cur with lastDcVal := lastDcVal } } := by
  obtain ⟨bytes, r, hwritten, hl, hpending⟩ := h
  exact ⟨bytes, r, hwritten, hl, ⟨hpending.short, hpending.count, hpending.word⟩⟩

private theorem emitByte_stuff (dest : Destination) (c : UInt8) :
    (if c = 0xFF then (dest.emitByte c).emitByte 0 else dest.emitByte c).written =
      dest.written ++ stuffByte c := by
  rw [stuffByte]
  split_ifs with h
  · rw [Destination.written_emitByte, Destination.written_emitByte, h, List.append_assoc]
    rfl
  · rw [Destination.written_emitByte]

private theorem nextByte_bits (w : BitVec 64) :
    bits 8 (UInt8.ofNat (w.sshiftRight 16 &&& 0xFF#64).toNat).toNat = bits 8 (w.toNat >>> 16) := by
  have hmask : 0xFF#64 = maskWord 64 8 := by decide
  rw [UInt8.toNat_ofNat', bits_mod (Nat.le_refl 8), hmask, toNat_and_maskWord _ (by decide),
    bits_mod (Nat.le_refl 8), bits_sshiftRight w (by decide)]

theorem emitBytes_spec {fuel n : ℕ} {l : List Bool} (hl : l.length = n) (hn : n ≤ 24) (hfuel : n ≤ fuel)
    {w : BitVec 64} (hw : bits 24 w.toNat = l ++ zeros (24 - n)) (dest : Destination) (state : WorkingState) :
    ∃ bytes r, l = toBits bytes ++ r ∧ Pending (emitBytes fuel dest w n state).cur r ∧
      (emitBytes fuel dest w n state).dest.written = dest.written ++ stuff bytes ∧
      (emitBytes fuel dest w n state).cur.lastDcVal = state.cur.lastDcVal := by
  induction fuel generalizing n l w dest with
  | zero =>
    obtain rfl : n = 0 := by omega
    refine ⟨[], l, rfl, ⟨by omega, hl.symm, ?_⟩, (List.append_nil _).symm, rfl⟩
    rw [hl]
    exact hw
  | succ fuel ih =>
    rw [emitBytes]
    split_ifs with hbyte
    · have hsplit : bits 8 (w.toNat >>> 16) ++ bits 16 w.toNat = l.take 8 ++ (l.drop 8 ++ zeros (24 - n)) := by
        rw [bits_shiftRight, hw, ← List.append_assoc, List.take_append_drop]
      obtain ⟨htop, hlow⟩ := List.append_inj hsplit (by rw [length_bits, List.length_take]; omega)
      have hnext : bits 24 (w <<< 8).toNat = l.drop 8 ++ zeros (24 - (n - 8)) := by
        have hpad : 24 - (n - 8) = 24 - n + 8 := by omega
        rw [bits_wordShiftLeft (n := 16) (k := 8) w (by decide), hlow, List.append_assoc, ← zeros_add, hpad]
      obtain ⟨bytes, r, hr, hpending, hwritten, hdc⟩ := ih (n := n - 8) (l := l.drop 8)
        (by rw [List.length_drop, hl]) (by omega) (by omega) hnext
        (if UInt8.ofNat (w.sshiftRight 16 &&& 0xFF#64).toNat = 0xFF then
          (dest.emitByte (UInt8.ofNat (w.sshiftRight 16 &&& 0xFF#64).toNat)).emitByte 0
        else dest.emitByte (UInt8.ofNat (w.sshiftRight 16 &&& 0xFF#64).toNat))
      refine ⟨UInt8.ofNat (w.sshiftRight 16 &&& 0xFF#64).toNat :: bytes, r, ?_, hpending, ?_, hdc⟩
      · rw [toBits_cons, nextByte_bits, htop, List.append_assoc, ← hr, List.take_append_drop]
      · rw [hwritten, emitByte_stuff, List.append_assoc]
        rfl
    · refine ⟨[], l, rfl, ⟨by omega, hl.symm, ?_⟩, (List.append_nil _).symm, rfl⟩
      rw [hl]
      exact hw

/-- `emit_bits` appends bits to what has been emitted. -/
theorem emitBits_spec {base : List UInt8} {l : List Bool} {state : WorkingState}
    (h : Emitted base l state) {code size : ℕ} (hsize : size ≠ 0) (hle : size ≤ 16) :
    ∃ state', emitBits code size state = .ok state' ∧ Emitted base (l ++ bits size code) state' ∧
      state'.cur.lastDcVal = state.cur.lastDcVal := by
  obtain ⟨bytes, r, hwritten, hl, hpending⟩ := h
  have hshort := hpending.short
  have hlen : (r ++ bits size code).length = state.cur.putBits + size := by
    rw [List.length_append, length_bits, hpending.count]
  have hword : bits 24 ((BitVec.ofNat 64 code &&& maskWord 64 size) <<< (24 - (state.cur.putBits + size)) |||
      state.cur.putBuffer).toNat =
        r ++ bits size code ++ zeros (24 - (state.cur.putBits + size)) := by
    have hcode : bits size (BitVec.ofNat 64 code).toNat = bits size code := by
      rw [BitVec.toNat_ofNat, bits_mod (by omega)]
    have hwidth : 24 = r.length + size + (24 - (state.cur.putBits + size)) := by
      rw [hpending.count]
      omega
    have hnew : bits 24 ((BitVec.ofNat 64 code &&& maskWord 64 size) <<<
        (24 - (state.cur.putBits + size))).toNat =
          zeros r.length ++ bits size code ++ zeros (24 - (state.cur.putBits + size)) := by
      rw [← hcode, ← bits_and_maskWord _ (show size < 64 by omega), ← bits_wordShiftLeft _ (by omega), ← hwidth]
    have hold : bits 24 state.cur.putBuffer.toNat =
        r ++ zeros size ++ zeros (24 - (state.cur.putBits + size)) := by
      rw [hpending.word, List.append_assoc, ← zeros_add]
      congr 2
      rw [hpending.count]
      omega
    rw [BitVec.toNat_or, bits_or, hnew, hold]
    rw [List.zipWith_append (by rw [List.length_append, List.length_append, length_bits, length_zeros, length_zeros]),
      List.zipWith_append (length_zeros _), zeros_zipWith_or rfl, zipWith_or_zeros (length_bits _ _),
      zipWith_or_zeros (length_zeros _)]
  obtain ⟨bytes', r', hr', hpending', hwritten', hdc⟩ := emitBytes_spec hlen (by rw [hpending.count]; omega)
    (Nat.le_refl _) hword state.dest state
  refine ⟨_, if_neg hsize, ⟨bytes ++ bytes', r', ?_, ?_, hpending'⟩, hdc⟩
  · rw [hwritten', hwritten, stuff_append, List.append_assoc]
  · rw [hl, List.append_assoc, hr', toBits_append, List.append_assoc]

theorem flushBits_spec {base : List UInt8} {l : List Bool} {state : WorkingState}
    (h : Emitted base l state) :
    ∃ state' bytes p, flushBits state = .ok state' ∧ p < 8 ∧ toBits bytes = l ++ ones p ∧
      state'.dest.written = base ++ stuff bytes ∧ Pending state'.cur [] ∧
      state'.cur.lastDcVal = state.cur.lastDcVal := by
  obtain ⟨state', hemit, ⟨bytes, r, hwritten, hl, hpending⟩, hdc⟩ :=
    @emitBits_spec base l state h 0x7F 7 (by decide) (by decide)
  have hones : bits 7 0x7F = ones 7 := bits_ones 7
  have hshort := hpending.short
  -- the pending bits are ones that were not needed to fill a byte
  have hr : r.length ≤ 7 := by omega
  have hsplit : toBits bytes ++ r = l ++ ones (7 - r.length) ++ ones r.length := by
    rw [List.append_assoc, ← ones_add, Nat.sub_add_cancel hr, ← hones, hl]
  have hlen : (toBits bytes).length = (l ++ ones (7 - r.length)).length := by
    have := congrArg List.length hsplit
    rw [List.length_append, @List.length_append _ _ (ones r.length), length_ones] at this
    omega
  obtain ⟨hbytes, -⟩ := List.append_inj hsplit hlen
  refine ⟨{ state' with cur := { state'.cur with putBuffer := 0, putBits := 0 } }, bytes, 7 - r.length,
    ?_, by omega, hbytes, hwritten, ⟨by decide, rfl, ?_⟩, hdc⟩
  · rw [flushBits, hemit]
    rfl
  · exact bits_of_zero 24

theorem emitRestart_spec {base : List UInt8} {l : List Bool} {state : WorkingState} (h : Emitted base l state)
    (restartNum : ℕ) :
    ∃ state' bytes p, emitRestart restartNum state = .ok state' ∧ p < 8 ∧ toBits bytes = l ++ ones p ∧
      Emitted (base ++ (stuff bytes ++ [0xFF, UInt8.ofNat (jpegRst0 + restartNum)])) [] state' ∧
      state'.cur.lastDcVal = fun _ => 0 := by
  obtain ⟨state', bytes, p, hflush, hp, hbytes, hwritten, hpending, -⟩ := flushBits_spec h
  refine ⟨{ dest := (state'.dest.emitByte 0xFF).emitByte (UInt8.ofNat (jpegRst0 + restartNum)),
            cur := { state'.cur with lastDcVal := fun _ => 0 } }, bytes, p, ?_, hp, hbytes,
    ⟨[], [], ?_, rfl, ⟨hpending.short, hpending.count, hpending.word⟩⟩, rfl⟩
  · rw [emitRestart, hflush]
    rfl
  · have hnil : stuff [] = [] := rfl
    change ((state'.dest.emitByte 0xFF).emitByte _).written = _
    rw [Destination.written_emitByte, Destination.written_emitByte, hwritten, hnil, List.append_nil,
      List.append_assoc, List.append_assoc]
    rfl

end BitSpec

section Symbols

/-- A symbol, and the coefficient whose bits follow it; no bits follow when that is zero. -/
structure CodedSymbol where
  symbol : ℕ
  value : ℤ

def acSymbols : ℕ → List ℤ → List CodedSymbol
  | r, [] => if 0 < r then [⟨0, 0⟩] else []
  | r, v :: vs =>
    if v = 0 then acSymbols (r + 1) vs
    else List.replicate (r / 16) ⟨0xF0, 0⟩ ++ ⟨16 * (r % 16) + v.natAbs.size, v⟩ :: acSymbols 0 vs

def dcSymbol (diff : ℤ) : CodedSymbol := ⟨diff.natAbs.size, diff⟩

def codedBits (tbl : CDerivedTbl) (c : CodedSymbol) : List Bool :=
  bits (tbl.ehufsi c.symbol) (tbl.ehufco c.symbol) ++ bits c.value.natAbs.size (coefCode c.value)

def emitSymbol (tbl : CDerivedTbl) (state : WorkingState) (c : CodedSymbol) :
    Except HuffError WorkingState :=
  (emitBits (tbl.ehufco c.symbol) (tbl.ehufsi c.symbol) state).bind (fun state =>
    if c.value = 0 then .ok state else emitBits (coefCode c.value) c.value.natAbs.size state)

def emitSymbols (tbl : CDerivedTbl) (l : List CodedSymbol) (state : WorkingState) :
    Except HuffError WorkingState := l.foldlM (emitSymbol tbl) state

/-- The coefficients have at most as many bits as the format allows. -/
structure InRange (block : JBlock) (lastDcVal : ℤ) : Prop where
  dc : (block 0 - lastDcVal).natAbs.size ≤ 11
  ac : ∀ v ∈ acCoefs block, v.natAbs.size ≤ 10

theorem except_bind_ok {ε α β : Type} (a : α) (f : α → Except ε β) : (Except.ok a).bind f = f a := rfl

theorem except_bind_assoc {ε α β γ : Type} (e : Except ε α) (f : α → Except ε β) (g : β → Except ε γ) :
    (e.bind f).bind g = e.bind (fun a => (f a).bind g) := by
  cases e <;> rfl

theorem except_bind_eq_ok {ε α β : Type} {e : Except ε α} {f : α → Except ε β} {b : β}
    (h : e.bind f = .ok b) : ∃ a, e = .ok a ∧ f a = .ok b := by
  cases e with
  | error e => exact absurd h (by simp [Except.bind])
  | ok a => exact ⟨a, rfl, h⟩

theorem emitSymbols_cons (tbl : CDerivedTbl) (c : CodedSymbol) (l : List CodedSymbol) (state : WorkingState) :
    emitSymbols tbl (c :: l) state = (emitSymbol tbl state c).bind (emitSymbols tbl l) :=
  List.foldlM_cons

theorem emitSymbols_append (tbl : CDerivedTbl) (l l' : List CodedSymbol) (state : WorkingState) :
    emitSymbols tbl (l ++ l') state = (emitSymbols tbl l state).bind (emitSymbols tbl l') :=
  List.foldlM_append

theorem emitRuns_eq (tbl : CDerivedTbl) {fuel r : ℕ} (h : r / 16 ≤ fuel) (state : WorkingState) :
    emitRuns tbl fuel r state =
      (emitSymbols tbl (List.replicate (r / 16) ⟨0xF0, 0⟩) state).bind (fun state => .ok (r % 16, state)) := by
  induction fuel generalizing r state with
  | zero =>
    have hzero : r / 16 = 0 := Nat.eq_zero_of_le_zero h
    rw [hzero, emitRuns, Nat.mod_eq_of_lt (by omega)]
    rfl
  | succ fuel ih =>
    rw [emitRuns]
    split_ifs with hlong
    · have hdiv : r / 16 = (r - 16) / 16 + 1 := by omega
      have hmod : r % 16 = (r - 16) % 16 := by omega
      rw [hdiv, hmod, List.replicate_succ, emitSymbols_cons, except_bind_assoc, emitSymbol, except_bind_assoc]
      refine congrArg (Except.bind _) (funext (fun state' => ?_))
      exact ih (by omega) state'
    · have hzero : r / 16 = 0 := by omega
      rw [hzero, Nat.mod_eq_of_lt (by omega)]
      rfl

theorem encodeCoef_zero (tbl : CDerivedTbl) (r : ℕ) (state : WorkingState) :
    encodeCoef tbl (r, state) 0 = .ok (r + 1, state) := if_pos rfl

theorem encodeCoef_ne (tbl : CDerivedTbl) (r : ℕ) (state : WorkingState) {v : ℤ} (hv : v ≠ 0)
    (hsize : v.natAbs.size ≤ 10) : encodeCoef tbl (r, state) v =
      (emitSymbols tbl (List.replicate (r / 16) ⟨0xF0, 0⟩ ++
        [⟨16 * (r % 16) + v.natAbs.size, v⟩]) state).bind (fun state => .ok (0, state)) := by
  have hbits : acBits v.natAbs v.natAbs 1 = v.natAbs.size := by
    have hpow : v.natAbs < 2 ^ (v.natAbs + 1) :=
      Nat.lt_trans Nat.lt_two_pow_self (Nat.pow_lt_pow_right (by decide) (Nat.lt_succ_self _))
    have h := acBits_eq (Int.natAbs_ne_zero.mpr hv) (Nat.size_le.mpr hpow) 0
    rw [Nat.zero_add, Nat.zero_add] at h
    exact h
  rw [encodeCoef, if_neg hv]
  change (emitRuns tbl r r state).bind _ = _
  rw [emitRuns_eq tbl (Nat.div_le_self r 16), emitSymbols_append, except_bind_assoc, except_bind_assoc]
  refine congrArg (Except.bind _) (funext (fun state' => ?_))
  rw [except_bind_ok, hbits]
  dsimp only
  rw [if_neg (show ¬ maxCoefBits < v.natAbs.size from Nat.not_lt.mpr hsize)]
  rw [Nat.shiftLeft_eq, Nat.mul_comm (r % 16) (2 ^ 4)]
  change Except.bind _ _ = Except.bind (Except.bind (Except.bind _ _) _) _
  rw [except_bind_assoc, except_bind_assoc]
  refine congrArg (Except.bind _) (funext (fun state'' => ?_))
  rw [if_neg hv]
  cases emitBits (coefCode v) v.natAbs.size state'' <;> rfl

/-- The loop over the AC coefficients emits the symbols of the block. -/
theorem encodeCoefs_eq (tbl : CDerivedTbl) {vs : List ℤ} (hvs : ∀ v ∈ vs, v.natAbs.size ≤ 10) (r : ℕ)
    (state : WorkingState) : (vs.foldlM (encodeCoef tbl) (r, state)).bind (fun s =>
      if 0 < s.1 then emitBits (tbl.ehufco 0) (tbl.ehufsi 0) s.2 else .ok s.2) =
        emitSymbols tbl (acSymbols r vs) state := by
  induction vs generalizing r state with
  | nil =>
    change (if 0 < r then _ else _) = _
    rw [acSymbols]
    split_ifs with hr
    · rw [emitSymbols_cons, emitSymbol, except_bind_assoc]
      cases emitBits (tbl.ehufco 0) (tbl.ehufsi 0) state <;> rfl
    · rfl
  | cons v vs ih =>
    have hrest : ∀ v ∈ vs, v.natAbs.size ≤ 10 := fun w hw => hvs w (List.mem_cons_of_mem v hw)
    rw [List.foldlM_cons]
    change (Except.bind (encodeCoef tbl (r, state) v) _).bind _ = _
    by_cases hv : v = 0
    · rw [hv, encodeCoef_zero, except_bind_ok, acSymbols, if_pos rfl]
      exact ih hrest (r + 1) state
    · have hsplit := List.append_cons (List.replicate (r / 16) (CodedSymbol.mk 0xF0 0))
        ⟨16 * (r % 16) + v.natAbs.size, v⟩ (acSymbols 0 vs)
      rw [encodeCoef_ne tbl r state hv (hvs v List.mem_cons_self), acSymbols, if_neg hv, hsplit,
        emitSymbols_append tbl _ (acSymbols 0 vs), except_bind_assoc, except_bind_assoc]
      exact congrArg (Except.bind _) (funext (fun state' => ih hrest 0 state'))

theorem encodeOneBlock_eq {block : JBlock} {lastDcVal : ℤ} (h : InRange block lastDcVal)
    (dctbl actbl : CDerivedTbl) (state : WorkingState) :
    encodeOneBlock block lastDcVal dctbl actbl state =
      (emitSymbol dctbl state (dcSymbol (block 0 - lastDcVal))).bind
        (emitSymbols actbl (acSymbols 0 (acCoefs block))) := by
  have hbits : dcBits (block 0 - lastDcVal).natAbs (block 0 - lastDcVal).natAbs 0 =
      (block 0 - lastDcVal).natAbs.size := by
    rw [dcBits_eq (Nat.size_le.mpr Nat.lt_two_pow_self), Nat.zero_add]
  have hrange : ¬ maxCoefBits + 1 < (block 0 - lastDcVal).natAbs.size := Nat.not_lt.mpr h.dc
  have hsize : (block 0 - lastDcVal).natAbs.size ≠ 0 ↔ ¬ block 0 - lastDcVal = 0 := by
    rw [ne_eq, Nat.size_eq_zero, Int.natAbs_eq_zero]
  rw [encodeOneBlock]
  dsimp only
  rw [hbits, if_neg hrange, emitSymbol, except_bind_assoc]
  refine congrArg (Except.bind _) (funext (fun state' => ?_))
  have hac : ∀ state, (Except.bind ((acCoefs block).foldlM (encodeCoef actbl) (0, state)) fun s =>
      if 0 < s.1 then emitBits (actbl.ehufco 0) (actbl.ehufsi 0) s.2 else .ok s.2) =
        emitSymbols actbl (acSymbols 0 (acCoefs block)) state := encodeCoefs_eq actbl h.ac 0
  by_cases hzero : block 0 - lastDcVal = 0
  · rw [if_neg (mt hsize.mp (not_not.mpr hzero)), if_pos (show (dcSymbol _).value = 0 from hzero)]
    exact hac state'
  · rw [if_pos (hsize.mpr hzero), if_neg (show ¬ (dcSymbol _).value = 0 from hzero)]
    exact congrArg (Except.bind _) (funext hac)

theorem size_le_of_encodeCoef {tbl : CDerivedTbl} {s s' : ℕ × WorkingState} {v : ℤ}
    (h : encodeCoef tbl s v = .ok s') : v.natAbs.size ≤ 10 := by
  by_cases hv : v = 0
  · rw [hv]
    exact Nat.zero_le 10
  · by_contra hlarge
    have hbits : acBits v.natAbs v.natAbs 1 = v.natAbs.size := by
      have hpow : v.natAbs < 2 ^ (v.natAbs + 1) :=
        Nat.lt_trans Nat.lt_two_pow_self (Nat.pow_lt_pow_right (by decide) (Nat.lt_succ_self _))
      have h := acBits_eq (Int.natAbs_ne_zero.mpr hv) (Nat.size_le.mpr hpow) 0
      rw [Nat.zero_add, Nat.zero_add] at h
      exact h
    rw [encodeCoef, if_neg hv] at h
    obtain ⟨⟨r, state⟩, -, hbody⟩ := except_bind_eq_ok h
    dsimp only at hbody
    rw [hbits, if_pos (show maxCoefBits < _ from Nat.not_le.mp hlarge)] at hbody
    exact absurd hbody (by simp)

theorem inRange_of_ok {block : JBlock} {lastDcVal : ℤ} {dctbl actbl : CDerivedTbl}
    {state state' : WorkingState} (h : encodeOneBlock block lastDcVal dctbl actbl state = .ok state') :
    InRange block lastDcVal := by
  have hfold : ∀ (vs : List ℤ) (s s' : ℕ × WorkingState), vs.foldlM (encodeCoef actbl) s = .ok s' →
      ∀ v ∈ vs, v.natAbs.size ≤ 10 := by
    intro vs
    induction vs with
    | nil => exact fun _ _ _ v hv => absurd hv List.not_mem_nil
    | cons w vs ih =>
      intro s s' hs v hv
      rw [List.foldlM_cons] at hs
      obtain ⟨s₁, hw, hrest⟩ := except_bind_eq_ok hs
      rcases List.mem_cons.mp hv with rfl | hmem
      · exact size_le_of_encodeCoef hw
      · exact ih s₁ s' hrest v hmem
  have hbits : dcBits (block 0 - lastDcVal).natAbs (block 0 - lastDcVal).natAbs 0 =
      (block 0 - lastDcVal).natAbs.size := by
    rw [dcBits_eq (Nat.size_le.mpr Nat.lt_two_pow_self), Nat.zero_add]
  rw [encodeOneBlock] at h
  dsimp only at h
  rw [hbits] at h
  by_cases hdc : maxCoefBits + 1 < (block 0 - lastDcVal).natAbs.size
  · rw [if_pos hdc] at h
    exact absurd h (by simp)
  · rw [if_neg hdc] at h
    obtain ⟨state₁, -, h⟩ := except_bind_eq_ok h
    refine ⟨Nat.not_lt.mp hdc, ?_⟩
    split_ifs at h with hextra
    · obtain ⟨state₂, -, h⟩ := except_bind_eq_ok h
      obtain ⟨s, hs, -⟩ := except_bind_eq_ok h
      exact hfold _ _ _ hs
    · obtain ⟨state₂, -, h⟩ := except_bind_eq_ok (e := .ok state₁) h
      obtain ⟨s, hs, -⟩ := except_bind_eq_ok h
      exact hfold _ _ _ hs

def SizesFit (tbl : CDerivedTbl) : Prop := ∀ sym, tbl.ehufsi sym ≤ 16

theorem sizesFit_of_table {htbl : JHuffTbl} {tbl : CDerivedTbl} (h : EncodingTable htbl tbl) :
    SizesFit tbl := by
  intro sym
  by_cases hsym : tbl.ehufsi sym = 0
  · rw [hsym]
    exact Nat.zero_le 16
  · obtain ⟨s, rfl⟩ := h.source sym hsym
    rw [h.size s]
    exact s.len_le

/-- The symbols that have been emitted had codes, and their bits are in the output. -/
theorem emitSymbol_ok {tbl : CDerivedTbl} (hfit : SizesFit tbl) {base : List UInt8} {l : List Bool}
    {state state' : WorkingState} {c : CodedSymbol} (hc : c.value.natAbs.size ≤ 16)
    (h : Emitted base l state) (hok : emitSymbol tbl state c = .ok state') :
    tbl.ehufsi c.symbol ≠ 0 ∧ Emitted base (l ++ codedBits tbl c) state' ∧
      state'.cur.lastDcVal = state.cur.lastDcVal := by
  obtain ⟨state₁, hcode, hextra⟩ := except_bind_eq_ok hok
  have hsize : tbl.ehufsi c.symbol ≠ 0 := by
    intro hzero
    rw [emitBits, if_pos hzero] at hcode
    exact absurd hcode (by simp)
  obtain ⟨state₁', hemit, hemitted, hdc⟩ :=
    @emitBits_spec base l state h (tbl.ehufco c.symbol) _ hsize (hfit c.symbol)
  rw [hemit, Except.ok.injEq] at hcode
  subst hcode
  refine ⟨hsize, ?_⟩
  rw [codedBits, ← List.append_assoc]
  by_cases hvalue : c.value = 0
  · rw [if_pos hvalue, Except.ok.injEq] at hextra
    subst hextra
    rw [hvalue]
    exact ⟨by simpa using hemitted, hdc⟩
  · rw [if_neg hvalue] at hextra
    have hpos : c.value.natAbs.size ≠ 0 := by
      rw [ne_eq, Nat.size_eq_zero, Int.natAbs_eq_zero]
      exact hvalue
    obtain ⟨state₂, hemit₂, hemitted₂, hdc₂⟩ := @emitBits_spec _ _ _ hemitted (coefCode c.value) _ hpos hc
    rw [hemit₂, Except.ok.injEq] at hextra
    subst hextra
    exact ⟨hemitted₂, hdc₂.trans hdc⟩

theorem emitSymbols_ok {tbl : CDerivedTbl} (hfit : SizesFit tbl) {base : List UInt8}
    {symbols : List CodedSymbol} (hc : ∀ c ∈ symbols, c.value.natAbs.size ≤ 16) {l : List Bool}
    {state state' : WorkingState} (h : Emitted base l state)
    (hok : emitSymbols tbl symbols state = .ok state') :
    (∀ c ∈ symbols, tbl.ehufsi c.symbol ≠ 0) ∧
      Emitted base (l ++ symbols.flatMap (codedBits tbl)) state' ∧
      state'.cur.lastDcVal = state.cur.lastDcVal := by
  induction symbols generalizing l state with
  | nil =>
    obtain rfl : state = state' := Except.ok.inj hok
    exact ⟨fun c hc => absurd hc List.not_mem_nil, by simpa using h, rfl⟩
  | cons c symbols ih =>
    rw [emitSymbols_cons] at hok
    obtain ⟨state₁, hone, hrest⟩ := except_bind_eq_ok hok
    obtain ⟨hcode, hemitted, hdc⟩ := emitSymbol_ok hfit (hc c List.mem_cons_self) h hone
    obtain ⟨hcodes, hall, hdc'⟩ := ih (fun d hd => hc d (List.mem_cons_of_mem c hd)) hemitted hrest
    refine ⟨?_, ?_, hdc'.trans hdc⟩
    · intro d hd
      rcases List.mem_cons.mp hd with rfl | hmem
      · exact hcode
      · exact hcodes d hmem
    · rw [List.flatMap_cons, ← List.append_assoc]
      exact hall

theorem value_of_mem_acSymbols {r : ℕ} {vs : List ℤ} {c : CodedSymbol} (h : c ∈ acSymbols r vs) :
    c.value = 0 ∨ c.value ∈ vs := by
  induction vs generalizing r with
  | nil =>
    rw [acSymbols] at h
    split_ifs at h with hr
    · rw [List.mem_singleton.mp h]
      exact .inl rfl
    · exact absurd h List.not_mem_nil
  | cons v vs ih =>
    rw [acSymbols] at h
    split_ifs at h with hv
    · exact (ih h).imp_right (List.mem_cons_of_mem v)
    · rcases List.mem_append.mp h with hrun | hmem
      · rw [(List.mem_replicate.mp hrun).2]
        exact .inl rfl
      · rcases List.mem_cons.mp hmem with rfl | hlater
        · exact .inr List.mem_cons_self
        · exact (ih hlater).imp_right (List.mem_cons_of_mem v)

theorem InRange.values {block : JBlock} {lastDcVal : ℤ} (h : InRange block lastDcVal) :
    ∀ c ∈ acSymbols 0 (acCoefs block), c.value.natAbs.size ≤ 16 := by
  intro c hc
  rcases value_of_mem_acSymbols hc with hzero | hmem
  · rw [hzero]
    exact Nat.zero_le 16
  · exact Nat.le_trans (h.ac _ hmem) (by decide)

def blockBits (dctbl actbl : CDerivedTbl) (block : JBlock) (lastDcVal : ℤ) : List Bool :=
  codedBits dctbl (dcSymbol (block 0 - lastDcVal)) ++
    (acSymbols 0 (acCoefs block)).flatMap (codedBits actbl)

structure Encodable (dctbl actbl : CDerivedTbl) (block : JBlock) (lastDcVal : ℤ) : Prop where
  range : InRange block lastDcVal
  dc : dctbl.ehufsi (dcSymbol (block 0 - lastDcVal)).symbol ≠ 0
  ac : ∀ c ∈ acSymbols 0 (acCoefs block), actbl.ehufsi c.symbol ≠ 0

theorem encodeOneBlock_ok {dctbl actbl : CDerivedTbl} (hdc : SizesFit dctbl) (hac : SizesFit actbl)
    {base : List UInt8} {l : List Bool} {block : JBlock} {lastDcVal : ℤ} {state state' : WorkingState}
    (h : Emitted base l state) (hok : encodeOneBlock block lastDcVal dctbl actbl state = .ok state') :
    Encodable dctbl actbl block lastDcVal ∧
      Emitted base (l ++ blockBits dctbl actbl block lastDcVal) state' ∧
      state'.cur.lastDcVal = state.cur.lastDcVal := by
  have hrange := inRange_of_ok hok
  rw [encodeOneBlock_eq hrange] at hok
  obtain ⟨state₁, hone, hrest⟩ := except_bind_eq_ok hok
  obtain ⟨hcode, hemitted, hdc₁⟩ := emitSymbol_ok hdc (Nat.le_trans hrange.dc (by decide)) h hone
  obtain ⟨hcodes, hall, hdc₂⟩ := emitSymbols_ok hac hrange.values hemitted hrest
  refine ⟨⟨hrange, hcode, hcodes⟩, ?_, hdc₂.trans hdc₁⟩
  rw [blockBits, ← List.append_assoc]
  exact hall

theorem emitSymbol_exists {tbl : CDerivedTbl} (hfit : SizesFit tbl) {base : List UInt8} {l : List Bool}
    {state : WorkingState} {c : CodedSymbol} (hc : c.value.natAbs.size ≤ 16) (h : Emitted base l state)
    (hcode : tbl.ehufsi c.symbol ≠ 0) : ∃ state', emitSymbol tbl state c = .ok state' ∧
      Emitted base (l ++ codedBits tbl c) state' ∧ state'.cur.lastDcVal = state.cur.lastDcVal := by
  suffices hok : ∃ state', emitSymbol tbl state c = .ok state' by
    obtain ⟨state', hok⟩ := hok
    exact ⟨state', hok, (emitSymbol_ok hfit hc h hok).2⟩
  obtain ⟨state₁, hemit, hemitted, -⟩ := emitBits_spec h hcode (hfit c.symbol)
  rw [emitSymbol, hemit, except_bind_ok]
  by_cases hvalue : c.value = 0
  · exact ⟨state₁, if_pos hvalue⟩
  · have hpos : c.value.natAbs.size ≠ 0 := by
      rw [ne_eq, Nat.size_eq_zero, Int.natAbs_eq_zero]
      exact hvalue
    obtain ⟨state₂, hemit₂, -⟩ := @emitBits_spec _ _ _ hemitted (coefCode c.value) _ hpos hc
    exact ⟨state₂, (if_neg hvalue).trans hemit₂⟩

theorem emitSymbols_exists {tbl : CDerivedTbl} (hfit : SizesFit tbl) {base : List UInt8} {symbols : List CodedSymbol}
    (hc : ∀ c ∈ symbols, c.value.natAbs.size ≤ 16) {l : List Bool} {state : WorkingState} (h : Emitted base l state)
    (hcodes : ∀ c ∈ symbols, tbl.ehufsi c.symbol ≠ 0) : ∃ state', emitSymbols tbl symbols state = .ok state' := by
  induction symbols generalizing l state with
  | nil => exact ⟨state, rfl⟩
  | cons c symbols ih =>
    obtain ⟨state₁, hone, hemitted, -⟩ := emitSymbol_exists hfit (hc c List.mem_cons_self) h (hcodes c List.mem_cons_self)
    rw [emitSymbols_cons, hone]
    exact ih (fun d hd => hc d (List.mem_cons_of_mem c hd)) hemitted (fun d hd => hcodes d (List.mem_cons_of_mem c hd))

theorem encodeOneBlock_exists {dctbl actbl : CDerivedTbl} (hdc : SizesFit dctbl) (hac : SizesFit actbl)
    {base : List UInt8} {l : List Bool} {block : JBlock} {lastDcVal : ℤ} {state : WorkingState}
    (h : Emitted base l state) (hblock : Encodable dctbl actbl block lastDcVal) :
    ∃ state', encodeOneBlock block lastDcVal dctbl actbl state = .ok state' := by
  obtain ⟨state₁, hone, hemitted, -⟩ :=
    emitSymbol_exists hdc (Nat.le_trans hblock.range.dc (by decide)) h hblock.dc
  rw [encodeOneBlock_eq hblock.range, hone]
  exact emitSymbols_exists hac hblock.range.values hemitted hblock.ac

end Symbols

end Jp4Tools.HuffmanEncoder
