import Jp4Tools.Deblocking
import Mathlib.Logic.Equiv.Prod

/-!
# The streaming converter `elphel_dng`

`main` of elphel_dng.c reads the decoded image in groups of 16 scanlines and hands the permuted
rows to `TIFFWriteScanline`. The rows and the columns of a tile are permuted by the rotation
`ROT` of their four index bits. The result is the array that the deblocking loops of
`JP4::open` compute.
-/

namespace Jp4Tools.ElphelDng
open CountedLoops WriteLogs JpegFrameSetup Deblocking

variable {α : Type*}

def rot (x : ℕ) : ℕ := x >>> 1 ||| (x &&& 1) <<< 3

/-- How many of the lines asked for each call of `jpeg_read_scanlines` returns. -/
structure LineReader where
  lines : ℕ → ℕ → ℕ
  lines_pos : ∀ call maxLines, 0 < maxLines → 0 < lines call maxLines
  lines_le : ∀ call maxLines, lines call maxLines ≤ maxLines

/-- The calls made so far, the next scanline of the image, and the rows of `buf`. -/
structure ReadState (α : Type*) where
  calls : ℕ
  scanline : ℕ
  buf : ℕ → ℕ → α

/-- `for (r = 0; r < 16; ) r += jpeg_read_scanlines (&cinfo, buf + r, 16 - r)` -/
def readGroup (reader : LineReader) (samples : ℕ → ℕ → α) : ℕ → ℕ → ReadState α → ReadState α
  | 0, _, s => s
  | fuel + 1, r, s =>
    if r < 16 then
      let n := reader.lines s.calls (16 - r)
      readGroup reader samples fuel (r + n)
        { calls := s.calls + 1
          scanline := s.scanline + n
          buf := fun i => if r ≤ i ∧ i < r + n then samples (s.scanline + (i - r)) else s.buf i }
    else s

/-- The loops over `col` and `c`: the row `out` for row `r` of the group. -/
def outRow (width : ℕ) (buf : ℕ → ℕ → α) (r : ℕ) (out : ℕ → α) : ℕ → α :=
  replay (forLoop (fun col => decide (col < width)) (fun col => col + 16)
    (fun col => forLoop (fun c => decide (c < 16)) (fun c => c + 1)
      (fun c => [(col + c, buf (rot r) (col + rot c))]) 16 0) width 0) out

/-- The second loop over `r`: the calls of `TIFFWriteScanline`, and the buffer `out` after it. -/
def writeGroup (width row : ℕ) (buf : ℕ → ℕ → α) :
    ℕ → ℕ → (ℕ → α) → List (ℕ × (ℕ → α)) × (ℕ → α)
  | 0, _, out => ([], out)
  | fuel + 1, r, out =>
    if r < 16 then
      let out := outRow width buf r out
      let (rows, last) := writeGroup width row buf fuel (r + 1) out
      ((row + r, out) :: rows, last)
    else ([], out)

def streamRows (reader : LineReader) (samples : ℕ → ℕ → α) (width height : ℕ) :
    ℕ → ℕ → ReadState α → (ℕ → α) → List (ℕ × (ℕ → α))
  | 0, _, _, _ => []
  | fuel + 1, row, s, out =>
    if row < height then
      let s := readGroup reader samples 16 0 s
      let (rows, out) := writeGroup width row s.buf 16 0 out
      rows ++ streamRows reader samples width height fuel (row + 16) s out
    else []

/-- The rows of the raw image, or `none` when the dimensions are refused. -/
def elphelDng (reader : LineReader) (samples : ℕ → ℕ → α) (width height : ℕ)
    (buf : ℕ → ℕ → α) (out : ℕ → α) : Option (List (ℕ × (ℕ → α))) :=
  if (width ||| height) &&& 15 ≠ 0 then none
  else some (streamRows reader samples width height height 0 ⟨0, 0, buf⟩ out)

theorem rot_eq : ∀ r < 16, rot r = source16 r := by decide

theorem refused_iff (width height : ℕ) :
    (width ||| height) &&& 15 ≠ 0 ↔ ¬ (16 ∣ width ∧ 16 ∣ height) := by
  have h : (width ||| height) &&& 15 = width % 2 ^ 4 ||| height % 2 ^ 4 := by
    rw [show 15 = 2 ^ 4 - 1 from rfl, Nat.and_two_pow_sub_one_eq_mod, Nat.or_mod_two_pow]
  rw [h, not_iff_not, Nat.or_eq_zero_iff, ← Nat.dvd_iff_mod_eq_zero, ← Nat.dvd_iff_mod_eq_zero]
  exact Iff.rfl

section Group
variable {reader : LineReader} {samples : ℕ → ℕ → α}

private theorem readGroup_from (line fuel r : ℕ) (s : ReadState α) (hr : r ≤ 16)
    (hfuel : 16 ≤ r + fuel) (hline : s.scanline = line + r)
    (hbuf : ∀ i < r, s.buf i = samples (line + i)) :
    (readGroup reader samples fuel r s).scanline = line + 16 ∧
      ∀ i < 16, (readGroup reader samples fuel r s).buf i = samples (line + i) := by
  induction fuel generalizing r s with
  | zero =>
    obtain rfl : r = 16 := by omega
    exact ⟨hline, hbuf⟩
  | succ fuel ih =>
    by_cases hmore : r < 16
    · have hpos := reader.lines_pos s.calls (16 - r) (by omega)
      have hle := reader.lines_le s.calls (16 - r)
      rw [readGroup, if_pos hmore]
      refine ih _ _ (by omega) (by omega) (by dsimp only; omega) (fun i hi => ?_)
      by_cases hnew : r ≤ i
      · simp only [hnew, hi, and_self, if_true]
        congr 1
        omega
      · simp only [hnew, false_and, if_false]
        exact hbuf i (by omega)
    · obtain rfl : r = 16 := by omega
      rw [readGroup, if_neg hmore]
      exact ⟨hline, hbuf⟩

theorem readGroup_spec (reader : LineReader) (samples : ℕ → ℕ → α) (s : ReadState α) :
    (readGroup reader samples 16 0 s).scanline = s.scanline + 16 ∧
      ∀ i < 16, (readGroup reader samples 16 0 s).buf i = samples (s.scanline + i) :=
  readGroup_from s.scanline 16 0 s (by decide) (by decide) rfl (fun _ h => absurd h (by omega))

theorem outRow_apply {width : ℕ} (hw : 16 ∣ width) (buf : ℕ → ℕ → α) {r x : ℕ} (hr : r < 16)
    (out : ℕ → α) (hx : x < width) :
    outRow width buf r out x = buf (source16 r) (tileSource x) := by
  have htile (col : ℕ) : forLoop (fun c => decide (c < 16)) (fun c => c + 1)
      (fun c => [(col + c, buf (rot r) (col + rot c))]) 16 0 =
      (List.range 16).map (fun c => (col + c, buf (rot r) (col + rot c))) := by
    rw [List.map_eq_flatMap]
    exact forLoop_eq_flatMap (fun c => decide (c < 16)) _ _ (fun t => t) 16 16 (by simp)
      (by simp) (by simp) le_rfl
  have hcolumns := forLoop_stride (fun col => col + 16)
    (fun col => (List.range 16).map (fun c => (col + c, buf (rot r) (col + rot c))))
    id (fun X => 16 * X) width 16 width (by decide) (fun _ _ => rfl) (fun X _ => (Nat.mul_succ 16 X).symm)
    le_rfl
  have hlog : outRow width buf r out = replay ((List.range (tiles width)).flatMap (fun X =>
      (List.range 16).map (fun c => (16 * X + c, buf (rot r) (16 * X + rot c))))) out := by
    simp only [outRow, htile]
    exact congrArg (replay · out) hcolumns
  rw [hlog]
  refine replay_of_mem ?_ out ?_
  · have hkeys : ((List.range (tiles width)).flatMap (fun X => (List.range 16).map
        (fun c => (16 * X + c, buf (rot r) (16 * X + rot c))))).map Prod.fst =
        List.range (16 * tiles width) := by
      rw [range_mul_eq_flatMap, List.map_flatMap]
      simp only [List.map_map]
      rfl
    rw [hkeys]
    exact List.nodup_range
  · refine List.mem_flatMap.mpr ⟨x / 16, List.mem_range.mpr (lt_tiles_iff.mpr (by omega)),
      List.mem_map.mpr ⟨x % 16, List.mem_range.mpr (Nat.mod_lt x (by decide)), ?_⟩⟩
    rw [Nat.div_add_mod, rot_eq r hr, rot_eq _ (Nat.mod_lt x (by decide)), tileSource]

/-- The rows of the list are the rows of the image from `row` on, in order. -/
def RowsFrom (width row : ℕ) (image : ℕ → ℕ → α) (n : ℕ) (rows : List (ℕ × (ℕ → α))) : Prop :=
  List.Forall₂ (fun y out => out.1 = y ∧ ∀ x < width, out.2 x = image y x) (List.range' row n) rows

private theorem writeGroup_from {width Y : ℕ} (hw : 16 ∣ width) {buf : ℕ → ℕ → α}
    (hbuf : ∀ i < 16, buf i = samples (16 * Y + i)) (n r : ℕ) (hr : r + n = 16) (out : ℕ → α) :
    RowsFrom width (16 * Y + r) (fun y x => samples (tileSource y) (tileSource x)) n
      (writeGroup width (16 * Y) buf n r out).1 := by
  induction n generalizing r out with
  | zero => exact .nil
  | succ n ih =>
    have hlt : r < 16 := by omega
    rw [writeGroup, if_pos hlt]
    refine .cons ⟨rfl, fun x hx => ?_⟩ (ih (r + 1) (by omega) _)
    simp only [outRow_apply hw buf hlt out hx, hbuf _ (source16_lt hlt), tileSource_add Y hlt]

private theorem streamRows_from {width height : ℕ} (hw : 16 ∣ width) (n fuel Y : ℕ)
    (hn : height = 16 * (Y + n)) (hfuel : n ≤ fuel) (s : ReadState α)
    (hline : s.scanline = 16 * Y) (out : ℕ → α) :
    RowsFrom width (16 * Y) (fun y x => samples (tileSource y) (tileSource x)) (16 * n)
      (streamRows reader samples width height fuel (16 * Y) s out) := by
  induction n generalizing fuel Y s out with
  | zero =>
    have hstop : ¬ 16 * Y < height := by omega
    cases fuel with
    | zero => exact .nil
    | succ fuel =>
      rw [streamRows, if_neg hstop]
      exact .nil
  | succ n ih =>
    obtain ⟨fuel, rfl⟩ : ∃ k, fuel = k + 1 := ⟨fuel - 1, by omega⟩
    obtain ⟨hnext, hbuf⟩ := readGroup_spec reader samples s
    rw [hline] at hnext hbuf
    rw [streamRows, if_pos (by omega), Nat.mul_succ 16 n, Nat.add_comm (16 * n), RowsFrom,
      ← List.range'_append_1]
    exact List.rel_append (writeGroup_from hw hbuf 16 0 rfl out)
      (ih fuel (Y + 1) (by omega) (by omega) _ hnext _)

theorem streamRows_spec (reader : LineReader) (samples : ℕ → ℕ → α) {width height : ℕ}
    (hw : 16 ∣ width) (hh : 16 ∣ height) (buf : ℕ → ℕ → α) (out : ℕ → α) :
    RowsFrom width 0 (fun y x => samples (tileSource y) (tileSource x)) height
      (streamRows reader samples width height height 0 ⟨0, 0, buf⟩ out) := by
  obtain ⟨n, rfl⟩ := hh
  exact streamRows_from hw n (16 * n) 0 (by omega) (by omega) ⟨0, 0, buf⟩ rfl out

end Group

/-- The rows, or columns, of a tile are rearranged by a rotation of their four index bits. -/
def tileLine : Equiv.Perm (Fin 16) where
  toFun i := ⟨source16 i, source16_lt i.isLt⟩
  invFun i := ⟨2 * (i % 8) + i / 8, by omega⟩
  left_inv i := by
    revert i
    decide
  right_inv i := by
    revert i
    decide

def tilePerm : Equiv.Perm (Fin 16 × Fin 16) := Equiv.prodCongr tileLine tileLine

/-- Both converters rearrange the samples within each tile, and in the same way. The streaming
one refuses the dimensions that are not made of whole tiles. -/
theorem converters_agree (size : FrameSize) (reader : LineReader) (samples : ℕ → ℕ → α)
    (temp fresh : ℕ → α) (buf : ℕ → ℕ → α) (out : ℕ → α) :
    (¬ (16 ∣ size.width ∧ 16 ∣ size.height) →
      elphelDng reader samples size.width size.height buf out = none) ∧
    (16 ∣ size.width → 16 ∣ size.height →
      (∀ y < size.height, ∀ x < size.width, temp (y * size.width + x) = samples y x) →
      (∃ rows, elphelDng reader samples size.width size.height buf out = some rows ∧
        List.Forall₂ (fun y row => row.1 = y ∧ ∀ x < size.width,
          row.2 x = deblock size.width size.height temp fresh (y * size.width + x))
          (List.range size.height) rows) ∧
      ∃ σ : Equiv.Perm (Fin 16 × Fin 16), ∀ Y < size.height / 16, ∀ X < size.width / 16,
        ∀ p : Fin 16 × Fin 16,
          deblock size.width size.height temp fresh
              ((16 * Y + p.1) * size.width + (16 * X + p.2)) =
            samples (16 * Y + (σ p).1) (16 * X + (σ p).2)) := by
  refine ⟨fun h => if_pos ((refused_iff _ _).mpr h), fun hw hh htemp => ?_⟩
  have hpixel (y : ℕ) (hy : y < size.height) (x : ℕ) (hx : x < size.width) :
      deblock size.width size.height temp fresh (y * size.width + x) =
        samples (tileSource y) (tileSource x) := by
    rw [deblock_pixel size hw hh temp fresh hx hy,
      htemp _ (tileSource_lt hh hy) _ (tileSource_lt hw hx)]
  refine ⟨⟨_, if_neg (fun h => (refused_iff _ _).mp h ⟨hw, hh⟩), ?_⟩, tilePerm, fun Y hY X hX p => ?_⟩
  · have hrows := streamRows_spec reader samples hw hh buf out
    rw [RowsFrom, ← List.range_eq_range', List.forall₂_iff_get] at hrows
    refine List.forall₂_iff_get.mpr ⟨hrows.1, fun i hi hi' => ?_⟩
    obtain ⟨hrow, hrest⟩ := hrows.2 i hi hi'
    refine ⟨hrow, fun x hx => (hrest x hx).trans (hpixel _ ?_ x hx).symm⟩
    simpa using hi
  · have hrow := p.1.isLt
    have hcol := p.2.isLt
    rw [hpixel _ (by omega) _ (by omega), tileSource_add Y hrow, tileSource_add X hcol]
    rfl

end Jp4Tools.ElphelDng
