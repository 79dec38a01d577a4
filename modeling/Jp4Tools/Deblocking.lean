import Jp4Tools.CountedLoops
import Jp4Tools.JpegFrameSetup
import Jp4Tools.MachineIntegers
import Jp4Tools.WriteLogs

/-!
# The deblocking loops of `JP4::open`

Four nested loops copy the decoded samples from `temp` to `_data`, tile by tile of 16 by 16
samples, and permute the rows and the columns of each tile. All indices are `unsigned int`.
The loops stay inside the two buffers of `width * height` entries exactly when both dimensions
are multiples of the tile size.
-/

namespace Jp4Tools.Deblocking
open CountedLoops JpegFrameSetup MachineIntegers WriteLogs

/-- One assignment `_data[dst] = temp[src]`. -/
structure Access where
  dst : ℕ
  src : ℕ
  deriving DecidableEq, Repr

def index1 : List ℕ := [0, 8, 1, 9, 2, 10, 3, 11, 4, 12, 5, 13, 6, 14, 7, 15]

def index2 (width : ℕ) : List ℕ := index1.map (fun a => u32 (a * width))

/-- The loops over `j` and `i`: one tile, with the running offset `h_of` of its rows. -/
def deblockTile (width x b_of : ℕ) : List Access :=
  forLoop (fun s : ℕ × ℕ => decide (s.1 < 16)) (fun s => (s.1 + 1, u32 (s.2 + width)))
    (fun s => forLoop (fun i => decide (i < 16)) (fun i => i + 1)
      (fun i => [⟨u32 (x + i + s.2 + b_of),
        u32 (x + index1.getD i 0 + (index2 width).getD s.1 0 + b_of)⟩]) 16 0)
    16 (0, 0)

/-- The loops over `y` and `x`, with the running offset `b_of` of the tile rows. -/
def deblockAccesses (width height : ℕ) : List Access :=
  forLoop (fun s : ℕ × ℕ => decide (s.1 < height))
    (fun s => (u32 (s.1 + 16), u32 (s.2 + u32 (width <<< 4))))
    (fun s => forLoop (fun x => decide (x < width)) (fun x => u32 (x + 16))
      (fun x => deblockTile width x s.2) width 0)
    height (0, 0)

def deblock {α : Type*} (width height : ℕ) (temp fresh : ℕ → α) : ℕ → α :=
  replay ((deblockAccesses width height).map (fun a => (a.dst, temp a.src))) fresh

/-- The row, or column, of a tile that `index1` reads for row, or column, `i`. -/
def source16 (i : ℕ) : ℕ := i / 2 + 8 * (i % 2)

theorem index1_eq : ∀ i < 16, index1.getD i 0 = source16 i := by decide

theorem source16_lt {i : ℕ} (h : i < 16) : source16 i < 16 := by
  unfold source16
  omega

/-- The assignment to row `j` and column `i` of the tile in tile row `Y` and tile column `X`. -/
def tileAccess (width Y X j i : ℕ) : Access where
  dst := (16 * Y + j) * width + (16 * X + i)
  src := (16 * Y + source16 j) * width + (16 * X + source16 i)

/-- The number of tiles that a dimension is cut into; the last one may stick out. -/
def tiles (n : ℕ) : ℕ := (n + 16 - 1) / 16

theorem lt_tiles_iff {n t : ℕ} : t < tiles n ↔ 16 * t < n := by
  unfold tiles
  omega

section ClosedForm

private theorem deblockTile_eq {width x Y : ℕ} (hbound : 16 * Y * width + 16 * width + x + 16 ≤ 2 ^ 32) :
    deblockTile width x (16 * Y * width) = (List.range 16).flatMap (fun j =>
      (List.range 16).map (fun i => ⟨(16 * Y + j) * width + (x + i),
        (16 * Y + source16 j) * width + (x + source16 i)⟩)) := by
  have hrow (j : ℕ) (hj : j < 16) : j * width + width ≤ 16 * width := by
    rw [← Nat.succ_mul]
    exact Nat.mul_le_mul_right width hj
  have hstates := forLoop_eq_flatMap (fun s : ℕ × ℕ => decide (s.1 < 16))
    (fun s => (s.1 + 1, u32 (s.2 + width)))
    (fun s => forLoop (fun i => decide (i < 16)) (fun i => i + 1)
      (fun i => [(⟨u32 (x + i + s.2 + 16 * Y * width),
        u32 (x + index1.getD i 0 + (index2 width).getD s.1 0 + 16 * Y * width)⟩ : Access)]) 16 0)
    (fun j => (j, j * width)) 16 16
    (fun j hj => by
      have := hrow j hj
      simp only [Prod.mk.injEq, true_and]
      rw [Nat.succ_mul, u32_of_lt (by omega)])
    (by simp) (by simp) le_rfl
  rw [Nat.zero_mul] at hstates
  refine hstates.trans (List.flatMap_congr (fun j hj => ?_))
  have hj : j < 16 := List.mem_range.mp hj
  have hcolumns := forLoop_eq_flatMap (fun i => decide (i < 16)) (fun i => i + 1)
    (fun i => [(⟨u32 (x + i + j * width + 16 * Y * width),
      u32 (x + index1.getD i 0 + (index2 width).getD j 0 + 16 * Y * width)⟩ : Access)])
    (fun i => i) 16 16 (by simp) (by simp) (by simp) le_rfl
  rw [List.map_eq_flatMap]
  refine hcolumns.trans (List.flatMap_congr (fun i hi => ?_))
  have hi : i < 16 := List.mem_range.mp hi
  have hsrc := hrow (source16 j) (source16_lt hj)
  have hi' := source16_lt hi
  have hindex2 : (index2 width).getD j 0 = source16 j * width := by
    have : (index2 width).getD j 0 = u32 (index1.getD j 0 * width) := by
      have hlen : j < index1.length := hj
      simp [index2, List.getD_eq_getElem?_getD, List.getElem?_eq_getElem hlen]
    rw [this, index1_eq j hj, u32_of_lt (by omega)]
  have hdst := hrow j hj
  rw [index1_eq i hi, hindex2, u32_of_lt (by omega), u32_of_lt (by omega), Nat.add_mul, Nat.add_mul]
  congr 2 <;> omega

/-- For every accepted frame no index wraps around, and the loops make these assignments. -/
theorem deblockAccesses_eq (size : FrameSize) :
    deblockAccesses size.width size.height = (List.range (tiles size.height)).flatMap (fun Y =>
      (List.range (tiles size.width)).flatMap (fun X => (List.range 16).flatMap (fun j =>
        (List.range 16).map (tileAccess size.width Y X j)))) := by
  have hw := size.width_le
  have hh := size.height_le
  simp only [jpegMaxDimension] at hw hh
  have hoffset (t : ℕ) (ht : 16 * t ≤ size.height + 15) :
      16 * t * size.width ≤ 65515 * 65500 := Nat.mul_le_mul (by omega) hw
  have hrows := forLoop_stride (fun s => (u32 (s.1 + 16), u32 (s.2 + u32 (size.width <<< 4))))
    (fun s => forLoop (fun x => decide (x < size.width)) (fun x => u32 (x + 16))
      (fun x => deblockTile size.width x s.2) size.width 0)
    Prod.fst (fun Y => (16 * Y, 16 * Y * size.width)) size.height 16 size.height (by decide)
    (fun _ _ => rfl)
    (fun Y hY => by
      have hY : 16 * Y < size.height := lt_tiles_iff.mp hY
      have := hoffset (Y + 1) (by omega)
      rw [Nat.mul_succ, Nat.add_mul] at this
      rw [Nat.shiftLeft_eq, u32_of_lt (show 16 * Y + 16 < 2 ^ 32 by omega),
        u32_of_lt (show size.width * 2 ^ 4 < 2 ^ 32 by omega)]
      refine Prod.ext (Nat.mul_succ 16 Y).symm ?_
      show u32 (16 * Y * size.width + size.width * 2 ^ 4) = 16 * (Y + 1) * size.width
      rw [Nat.mul_succ, Nat.add_mul, u32_of_lt (by omega)]
      omega)
    le_rfl
  rw [Nat.mul_zero, Nat.zero_mul] at hrows
  refine hrows.trans (List.flatMap_congr (fun Y hY => ?_))
  have hY : 16 * Y < size.height := lt_tiles_iff.mp (List.mem_range.mp hY)
  have hcolumns := forLoop_stride (fun x => u32 (x + 16))
    (fun x => deblockTile size.width x (16 * Y * size.width))
    id (fun X => 16 * X) size.width 16 size.width (by decide) (fun _ _ => rfl)
    (fun X hX => by
      have hX : 16 * X < size.width := lt_tiles_iff.mp hX
      rw [u32_of_lt (by omega), Nat.mul_succ])
    le_rfl
  refine hcolumns.trans (List.flatMap_congr (fun X hX => ?_))
  have hX : 16 * X < size.width := lt_tiles_iff.mp (List.mem_range.mp hX)
  refine deblockTile_eq ?_
  have := hoffset (Y + 1) (by omega)
  rw [Nat.mul_succ, Nat.add_mul] at this
  omega

theorem mem_deblockAccesses (size : FrameSize) {a : Access} :
    a ∈ deblockAccesses size.width size.height ↔ ∃ Y < tiles size.height, ∃ X < tiles size.width,
      ∃ j < 16, ∃ i < 16, a = tileAccess size.width Y X j i := by
  rw [deblockAccesses_eq]
  simp only [List.mem_flatMap, List.mem_map, List.mem_range, eq_comm]

theorem length_deblockAccesses (size : FrameSize) :
    (deblockAccesses size.width size.height).length =
      tiles size.height * (tiles size.width * (16 * 16)) := by
  rw [deblockAccesses_eq]
  rw [length_flatMap_of_const _ _ (tiles size.width * (16 * 16)), List.length_range]
  intro Y _
  rw [length_flatMap_of_const _ _ (16 * 16), List.length_range]
  intro X _
  rw [length_flatMap_of_const _ _ 16, List.length_range]
  simp

end ClosedForm

/-- Every index read from `temp` and written to `_data` is inside the arrays. -/
def InBounds (width height : ℕ) : Prop :=
  ∀ a ∈ deblockAccesses width height,
    a.src < u32 (width * height) ∧ a.dst < u32 (width * height)

/-- Every entry of `_data` is assigned exactly once. -/
def AssignedOnce (width height : ℕ) : Prop :=
  ∀ p < u32 (width * height), ((deblockAccesses width height).map Access.dst).count p = 1

theorem u32_area (size : FrameSize) : u32 (size.width * size.height) = size.width * size.height := by
  have h := Nat.mul_le_mul size.width_le size.height_le
  simp only [jpegMaxDimension] at h
  exact u32_of_lt (by omega)

section Multiples
variable {size : FrameSize}

theorem targets_perm (hw : 16 ∣ size.width) (hh : 16 ∣ size.height) :
    ((deblockAccesses size.width size.height).map Access.dst).Perm
      (List.range (size.width * size.height)) := by
  obtain ⟨cols, hcols⟩ := hw
  obtain ⟨rows, hrows⟩ := hh
  have htw : tiles size.width = cols := by unfold tiles; omega
  have hth : tiles size.height = rows := by unfold tiles; omega
  refine perm_range_of_covers ?_ (fun p hp => ?_)
  · rw [List.length_map, length_deblockAccesses, htw, hth, hcols, hrows]
    ring
  · have hpos := size.width_pos
    have hy : p / size.width < 16 * rows := Nat.div_lt_of_lt_mul (by rwa [← hrows])
    have hx : p % size.width < 16 * cols := hcols ▸ Nat.mod_lt p hpos
    refine List.mem_map.mpr ⟨tileAccess size.width (p / size.width / 16) (p % size.width / 16)
      (p / size.width % 16) (p % size.width % 16), ?_, ?_⟩
    · exact (mem_deblockAccesses _).mpr ⟨_, by omega, _, by omega, _, by omega, _, by omega, rfl⟩
    · simp only [tileAccess, Nat.div_add_mod]
      rw [Nat.mul_comm, Nat.div_add_mod]

theorem access_lt {Y X j i : ℕ} (hw : 16 ∣ size.width) (hh : 16 ∣ size.height)
    (hY : Y < tiles size.height) (hX : X < tiles size.width) (hj : j < 16) (hi : i < 16) :
    (16 * Y + j) * size.width + (16 * X + i) < size.width * size.height := by
  have hrow : 16 * Y + j + 1 ≤ size.height := by
    have := lt_tiles_iff.mp hY
    omega
  have hcol : 16 * X + i < size.width := by
    have := lt_tiles_iff.mp hX
    omega
  have := Nat.mul_le_mul_right size.width hrow
  rw [Nat.succ_mul, Nat.mul_comm size.height] at this
  omega

/-- The row, or column, of `temp` that ends up in row, or column, `y` of `_data`. -/
def tileSource (y : ℕ) : ℕ := 16 * (y / 16) + source16 (y % 16)

theorem tileSource_add (t : ℕ) {i : ℕ} (hi : i < 16) :
    tileSource (16 * t + i) = 16 * t + source16 i := by
  rw [tileSource, cell_div t hi, cell_mod t hi]

theorem tileSource_lt {n y : ℕ} (hn : 16 ∣ n) (hy : y < n) : tileSource y < n := by
  have := source16_lt (Nat.mod_lt y (show 0 < 16 by decide))
  unfold tileSource
  omega

theorem deblock_pixel {α : Type*} (size : FrameSize) (hw : 16 ∣ size.width) (hh : 16 ∣ size.height)
    (temp fresh : ℕ → α) {x y : ℕ} (hx : x < size.width) (hy : y < size.height) :
    deblock size.width size.height temp fresh (y * size.width + x) =
      temp (tileSource y * size.width + tileSource x) := by
  have hkeys : ((deblockAccesses size.width size.height).map
      (fun a => (a.dst, temp a.src))).map Prod.fst = (deblockAccesses size.width size.height).map Access.dst := by
    rw [List.map_map]
    rfl
  refine replay_of_mem ?_ fresh ?_
  · rw [hkeys]
    exact (targets_perm hw hh).nodup_iff.mpr List.nodup_range
  · have hY : y / 16 < tiles size.height := lt_tiles_iff.mpr (by omega)
    have hX : x / 16 < tiles size.width := lt_tiles_iff.mpr (by omega)
    refine List.mem_map.mpr ⟨tileAccess size.width (y / 16) (x / 16) (y % 16) (x % 16),
      (mem_deblockAccesses _).mpr ⟨_, hY, _, hX, _, Nat.mod_lt y (by decide), _,
        Nat.mod_lt x (by decide), rfl⟩, ?_⟩
    simp only [tileAccess, tileSource, Nat.div_add_mod]

end Multiples

theorem last_target_ge {size : FrameSize} (h : ¬ (16 ∣ size.width ∧ 16 ∣ size.height)) :
    size.width * size.height ≤
      (tileAccess size.width (tiles size.height - 1) (tiles size.width - 1) 15 15).dst := by
  have hwpos := size.width_pos
  have hhpos := size.height_pos
  have hth : size.height ≤ 16 * (tiles size.height - 1) + 15 + 1 := by unfold tiles; omega
  have htw : size.width ≤ 16 * (tiles size.width - 1) + 15 + 1 := by unfold tiles; omega
  simp only [tileAccess]
  by_cases hh : 16 ∣ size.height
  · have hw : size.width + 1 ≤ 16 * (tiles size.width - 1) + 15 + 1 := by
      have : ¬ 16 ∣ size.width := fun hw => h ⟨hw, hh⟩
      unfold tiles
      omega
    have := Nat.mul_le_mul_right size.width hth
    rw [Nat.succ_mul, Nat.mul_comm size.height] at this
    omega
  · have hlt : size.height ≤ 16 * (tiles size.height - 1) + 15 := by unfold tiles; omega
    have := Nat.mul_le_mul_right size.width hlt
    rw [Nat.mul_comm size.height] at this
    omega

theorem deblock_safe_of_tiled (size : FrameSize) (hw : 16 ∣ size.width) (hh : 16 ∣ size.height) :
    InBounds size.width size.height ∧ AssignedOnce size.width size.height := by
  simp only [InBounds, AssignedOnce, u32_area]
  refine ⟨fun a ha => ?_, fun p hp => count_eq_one_of_perm_range (targets_perm hw hh) hp⟩
  obtain ⟨Y, hY, X, hX, j, hj, i, hi, rfl⟩ := (mem_deblockAccesses _).mp ha
  exact ⟨access_lt hw hh hY hX (source16_lt hj) (source16_lt hi), access_lt hw hh hY hX hj hi⟩

/-- The loops are in bounds and complete exactly for frames made of whole tiles. -/
theorem deblock_safe_iff (size : FrameSize) :
    InBounds size.width size.height ∧ AssignedOnce size.width size.height ↔
      16 ∣ size.width ∧ 16 ∣ size.height := by
  refine ⟨fun ⟨hbounds, _⟩ => ?_, fun ⟨hw, hh⟩ => deblock_safe_of_tiled size hw hh⟩
  simp only [InBounds, u32_area] at hbounds
  by_contra h
  have hlast (n : ℕ) (hn : 0 < n) : tiles n - 1 < tiles n := by
    unfold tiles
    omega
  have hmem := (mem_deblockAccesses size).mpr ⟨_, hlast _ size.height_pos,
    _, hlast _ size.width_pos, 15, by decide, 15, by decide, rfl⟩
  exact absurd (hbounds _ hmem).2 (Nat.not_lt.mpr (last_target_ge h))

/-- A frame of 8 by 8 samples, the smallest a JPEG block fills, is accepted by the decoder. -/
theorem deblock_unsafe_8x8 :
    ¬ ∀ size : FrameSize, InBounds size.width size.height ∧ AssignedOnce size.width size.height := by
  intro h
  have hbounds := (h ⟨8, 8, by decide, by decide, by decide, by decide⟩).1
  have hmem : (⟨64, 32⟩ : Access) ∈ deblockAccesses 8 8 := by decide
  exact absurd (hbounds _ hmem).2 (by decide)

end Jp4Tools.Deblocking
