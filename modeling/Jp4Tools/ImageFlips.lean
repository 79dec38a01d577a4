import Jp4Tools.CountedLoops
import Jp4Tools.JpegFrameSetup
import Jp4Tools.MachineIntegers
import Jp4Tools.SwapLogs
import Jp4Tools.WriteLogs
import Mathlib.Tactic.Ring

/-!
# Flipping an image in place

`flipX` exchanges the rows of the upper half with those of the lower half, and `flipY` the columns of
the left half with those of the right half. All indices are `unsigned int`. Both loops reflect the
array of samples.
-/

namespace Jp4Tools.ImageFlips
open CountedLoops JpegFrameSetup MachineIntegers SwapLogs WriteLogs

/-- The members `_width` and `_height` of an image. `new unsigned short[width()*height()]` takes the
number of its samples as an `unsigned int`. -/
structure ImageSize where
  width : ℕ
  height : ℕ
  width_lt : width < 2 ^ 32
  height_lt : height < 2 ^ 32
  area_lt : width * height < 2 ^ 32

def frameSize (size : FrameSize) : ImageSize where
  width := size.width
  height := size.height
  width_lt := size.width_le.trans_lt (by decide)
  height_lt := size.height_le.trans_lt (by decide)
  area_lt := (Nat.mul_le_mul size.width_le size.height_le).trans_lt (by decide)

/-- The indices `src` and `dst` that `flipX` exchanges. -/
def flipXPairs (width height : ℕ) : List (ℕ × ℕ) :=
  forLoop (fun y => decide (y < height / 2)) (fun y => u32 (y + 1))
    (fun y => forLoop (fun x => decide (x < width)) (fun x => u32 (x + 1))
      (fun x => [(u32 (y * width + x), u32 (unsignedOf ((height : ℤ) - y - 1) * width + x))]) width 0)
    (height / 2) 0

/-- The indices `src` and `dst` that `flipY` exchanges. -/
def flipYPairs (width height : ℕ) : List (ℕ × ℕ) :=
  forLoop (fun y => decide (y < height)) (fun y => u32 (y + 1))
    (fun y => forLoop (fun x => decide (x < width / 2)) (fun x => u32 (x + 1))
      (fun x => [(u32 (y * width + x), u32 (y * width + unsignedOf ((width : ℤ) - x - 1)))])
      (width / 2) 0)
    height 0

def flipX {α : Type*} (size : ImageSize) (data : ℕ → α) : ℕ → α :=
  exchangeAll (flipXPairs size.width size.height) data

def flipY {α : Type*} (size : ImageSize) (data : ℕ → α) : ℕ → α :=
  exchangeAll (flipYPairs size.width size.height) data

/-- The index of the sample in the mirror image of the row, when the first row becomes the last. -/
def mirrorRows (size : ImageSize) (p : ℕ) : ℕ :=
  if p < size.width * size.height then (size.height - 1 - p / size.width) * size.width + p % size.width
  else p

/-- The index of the sample in the mirror image of the column. -/
def mirrorColumns (size : ImageSize) (p : ℕ) : ℕ :=
  if p < size.width * size.height then p / size.width * size.width + (size.width - 1 - p % size.width)
  else p

section Pixels
variable {size : ImageSize} {x y : ℕ}

theorem pixel_lt (hy : y < size.height) (hx : x < size.width) :
    y * size.width + x < size.width * size.height := by
  have hrow := Nat.mul_le_mul_right size.width (show y + 1 ≤ size.height from hy)
  rw [Nat.succ_mul, Nat.mul_comm size.height] at hrow
  omega

theorem pixel_div (y : ℕ) (hx : x < size.width) : (y * size.width + x) / size.width = y := by
  rw [Nat.mul_comm, cell_div y hx]

theorem pixel_mod (y : ℕ) (hx : x < size.width) : (y * size.width + x) % size.width = x := by
  rw [Nat.mul_comm, cell_mod y hx]

theorem exists_pixel {p : ℕ} (hp : p < size.width * size.height) :
    ∃ y < size.height, ∃ x < size.width, p = y * size.width + x := by
  have hpos : 0 < size.width := Nat.pos_of_mul_pos_right (Nat.zero_lt_of_lt hp)
  refine ⟨p / size.width, Nat.div_lt_of_lt_mul hp, p % size.width, Nat.mod_lt p hpos, ?_⟩
  rw [Nat.mul_comm, Nat.div_add_mod]

theorem mirrorRows_pixel (hy : y < size.height) (hx : x < size.width) :
    mirrorRows size (y * size.width + x) = (size.height - 1 - y) * size.width + x := by
  rw [mirrorRows, if_pos (pixel_lt hy hx), pixel_div y hx, pixel_mod y hx]

theorem mirrorColumns_pixel (hy : y < size.height) (hx : x < size.width) :
    mirrorColumns size (y * size.width + x) = y * size.width + (size.width - 1 - x) := by
  rw [mirrorColumns, if_pos (pixel_lt hy hx), pixel_div y hx, pixel_mod y hx]

theorem mirrorRows_outside {p : ℕ} (hp : ¬ p < size.width * size.height) : mirrorRows size p = p :=
  if_neg hp

theorem mirrorColumns_outside {p : ℕ} (hp : ¬ p < size.width * size.height) :
    mirrorColumns size p = p := if_neg hp

theorem mirrorRows_involutive (size : ImageSize) : Function.Involutive (mirrorRows size) := by
  intro p
  by_cases hp : p < size.width * size.height
  · obtain ⟨y, hy, x, hx, rfl⟩ := exists_pixel hp
    have hback : size.height - 1 - (size.height - 1 - y) = y := by omega
    rw [mirrorRows_pixel hy hx, mirrorRows_pixel (by omega) hx, hback]
  · rw [mirrorRows_outside hp, mirrorRows_outside hp]

theorem mirrorColumns_involutive (size : ImageSize) : Function.Involutive (mirrorColumns size) := by
  intro p
  by_cases hp : p < size.width * size.height
  · obtain ⟨y, hy, x, hx, rfl⟩ := exists_pixel hp
    have hback : size.width - 1 - (size.width - 1 - x) = x := by omega
    rw [mirrorColumns_pixel hy hx, mirrorColumns_pixel hy (by omega), hback]
  · rw [mirrorColumns_outside hp, mirrorColumns_outside hp]

theorem mirror_comm (size : ImageSize) (p : ℕ) :
    mirrorRows size (mirrorColumns size p) = mirrorColumns size (mirrorRows size p) := by
  by_cases hp : p < size.width * size.height
  · obtain ⟨y, hy, x, hx, rfl⟩ := exists_pixel hp
    rw [mirrorColumns_pixel hy hx, mirrorRows_pixel hy hx, mirrorRows_pixel hy (by omega),
      mirrorColumns_pixel (by omega) hx]
  · rw [mirrorColumns_outside hp, mirrorRows_outside hp, mirrorColumns_outside hp]

/-- Both reflections together run through the array backwards. -/
theorem mirror_both {p : ℕ} (hp : p < size.width * size.height) :
    mirrorColumns size (mirrorRows size p) = size.width * size.height - 1 - p := by
  obtain ⟨y, hy, x, hx, rfl⟩ := exists_pixel hp
  obtain ⟨rest, hrest⟩ : ∃ rest, size.height = y + 1 + rest := ⟨size.height - (y + 1), by omega⟩
  have hrows : size.height - 1 - y = rest := by omega
  have harea : size.width * size.height = y * size.width + size.width + rest * size.width := by
    rw [hrest]
    ring
  rw [mirrorRows_pixel hy hx, mirrorColumns_pixel (by omega) hx, hrows]
  omega

end Pixels

section Loops
variable (size : ImageSize)

def upperPixels : List ℕ :=
  (List.range (size.height / 2)).flatMap (fun y =>
    (List.range size.width).map (fun x => y * size.width + x))

def leftPixels : List ℕ :=
  (List.range size.height).flatMap (fun y =>
    (List.range (size.width / 2)).map (fun x => y * size.width + x))

theorem mem_upperPixels {p : ℕ} :
    p ∈ upperPixels size ↔ ∃ y < size.height / 2, ∃ x < size.width, p = y * size.width + x := by
  simp only [upperPixels, List.mem_flatMap, List.mem_map, List.mem_range, eq_comm]

theorem mem_leftPixels {p : ℕ} :
    p ∈ leftPixels size ↔ ∃ y < size.height, ∃ x < size.width / 2, p = y * size.width + x := by
  simp only [leftPixels, List.mem_flatMap, List.mem_map, List.mem_range, eq_comm]

theorem flipXPairs_eq : flipXPairs size.width size.height =
    (upperPixels size).map (fun p => (p, mirrorRows size p)) := by
  have hheight := size.height_lt
  have hwidth := size.width_lt
  rw [flipXPairs, forLoop_count _ (fun i hi => u32_of_lt (by omega)), upperPixels, List.map_flatMap]
  apply List.flatMap_congr
  intro y hy
  have hy : y < size.height / 2 := List.mem_range.mp hy
  rw [forLoop_count _ (fun i hi => u32_of_lt (by omega)), List.map_map, List.map_eq_flatMap]
  apply List.flatMap_congr
  intro x hx
  have hx : x < size.width := List.mem_range.mp hx
  have harea := size.area_lt
  have hsrc : y * size.width + x < size.width * size.height := pixel_lt (by omega) hx
  have hdst : (size.height - 1 - y) * size.width + x < size.width * size.height :=
    pixel_lt (by omega) hx
  have hrow : unsignedOf ((size.height : ℤ) - y - 1) = size.height - 1 - y := by
    have hcast : (size.height : ℤ) - y - 1 = (size.height - 1 - y : ℕ) := by omega
    rw [hcast, unsignedOf_natCast (by omega)]
  rw [Function.comp_apply, mirrorRows_pixel (by omega) hx, hrow, u32_of_lt (by omega),
    u32_of_lt (by omega)]

theorem flipYPairs_eq : flipYPairs size.width size.height =
    (leftPixels size).map (fun p => (p, mirrorColumns size p)) := by
  have hheight := size.height_lt
  have hwidth := size.width_lt
  rw [flipYPairs, forLoop_count _ (fun i hi => u32_of_lt (by omega)), leftPixels, List.map_flatMap]
  apply List.flatMap_congr
  intro y hy
  have hy : y < size.height := List.mem_range.mp hy
  rw [forLoop_count _ (fun i hi => u32_of_lt (by omega)), List.map_map, List.map_eq_flatMap]
  apply List.flatMap_congr
  intro x hx
  have hx : x < size.width / 2 := List.mem_range.mp hx
  have harea := size.area_lt
  have hsrc : y * size.width + x < size.width * size.height := pixel_lt hy (by omega)
  have hdst : y * size.width + (size.width - 1 - x) < size.width * size.height :=
    pixel_lt hy (by omega)
  have hcolumn : unsignedOf ((size.width : ℤ) - x - 1) = size.width - 1 - x := by
    have hcast : (size.width : ℤ) - x - 1 = (size.width - 1 - x : ℕ) := by omega
    rw [hcast, unsignedOf_natCast (by omega)]
  rw [Function.comp_apply, mirrorColumns_pixel hy (by omega), hcolumn, u32_of_lt (by omega),
    u32_of_lt (by omega)]

end Loops

section Flips
variable {α : Type*} (size : ImageSize)

theorem upperPixels_nodup : (upperPixels size).Nodup := by
  apply nodup_flatMap_of_index (fun p => p / size.width) List.nodup_range
  · intro y _
    exact List.nodup_range.map (fun x x' h => Nat.add_left_cancel h)
  · intro y _ p hp
    obtain ⟨x, hx, rfl⟩ := List.mem_map.mp hp
    exact pixel_div y (List.mem_range.mp hx)

theorem leftPixels_nodup : (leftPixels size).Nodup := by
  apply nodup_flatMap_of_index (fun p => p / size.width) List.nodup_range
  · intro y _
    exact List.nodup_range.map (fun x x' h => Nat.add_left_cancel h)
  · intro y _ p hp
    obtain ⟨x, hx, rfl⟩ := List.mem_map.mp hp
    have hx : x < size.width / 2 := List.mem_range.mp hx
    exact pixel_div y (by omega)

/-- The middle row of an odd height is its own mirror image. -/
theorem upperPixels_cover (p : ℕ) (hp : mirrorRows size p ≠ p) :
    p ∈ upperPixels size ∨ mirrorRows size p ∈ upperPixels size := by
  by_cases hinside : p < size.width * size.height
  · obtain ⟨y, hy, x, hx, rfl⟩ := exists_pixel hinside
    rw [mirrorRows_pixel hy hx] at hp ⊢
    rw [mem_upperPixels, mem_upperPixels]
    by_cases hupper : y < size.height / 2
    · exact Or.inl ⟨y, hupper, x, hx, rfl⟩
    · right
      refine ⟨size.height - 1 - y, ?_, x, hx, rfl⟩
      have hne : size.height - 1 - y ≠ y := by
        intro heq
        exact hp (by rw [heq])
      omega
  · exact absurd (mirrorRows_outside hinside) hp

theorem leftPixels_cover (p : ℕ) (hp : mirrorColumns size p ≠ p) :
    p ∈ leftPixels size ∨ mirrorColumns size p ∈ leftPixels size := by
  by_cases hinside : p < size.width * size.height
  · obtain ⟨y, hy, x, hx, rfl⟩ := exists_pixel hinside
    rw [mirrorColumns_pixel hy hx] at hp ⊢
    rw [mem_leftPixels, mem_leftPixels]
    by_cases hleft : x < size.width / 2
    · exact Or.inl ⟨y, hy, x, hleft, rfl⟩
    · right
      exact ⟨y, hy, size.width - 1 - x, by omega, rfl⟩
  · exact absurd (mirrorColumns_outside hinside) hp

/-- No pixel of the upper half is met again as the mirror image of another one. -/
theorem upperPixels_apart : ∀ p ∈ upperPixels size, mirrorRows size p ∉ upperPixels size := by
  intro p hp hmirror
  obtain ⟨y, hy, x, hx, rfl⟩ := (mem_upperPixels size).mp hp
  rw [mirrorRows_pixel (by omega) hx] at hmirror
  obtain ⟨y', hy', x', hx', heq⟩ := (mem_upperPixels size).mp hmirror
  have hrow := congrArg (fun p => p / size.width) heq
  simp only [pixel_div _ hx, pixel_div _ hx'] at hrow
  omega

theorem leftPixels_apart : ∀ p ∈ leftPixels size, mirrorColumns size p ∉ leftPixels size := by
  intro p hp hmirror
  obtain ⟨y, hy, x, hx, rfl⟩ := (mem_leftPixels size).mp hp
  rw [mirrorColumns_pixel hy (by omega)] at hmirror
  obtain ⟨y', hy', x', hx', heq⟩ := (mem_leftPixels size).mp hmirror
  have hcolumn := congrArg (fun p => p % size.width) heq
  simp only [pixel_mod y (show size.width - 1 - x < size.width by omega),
    pixel_mod y' (show x' < size.width by omega)] at hcolumn
  omega

theorem flipX_eq (data : ℕ → α) : flipX size data = data ∘ mirrorRows size := by
  rw [flipX, flipXPairs_eq]
  exact exchangeAll_eq_comp (mirrorRows_involutive size) (upperPixels_nodup size)
    (upperPixels_apart size) (upperPixels_cover size) data

theorem flipY_eq (data : ℕ → α) : flipY size data = data ∘ mirrorColumns size := by
  rw [flipY, flipYPairs_eq]
  exact exchangeAll_eq_comp (mirrorColumns_involutive size) (leftPixels_nodup size)
    (leftPixels_apart size) (leftPixels_cover size) data

theorem flipXPairs_inside {pair : ℕ × ℕ} (h : pair ∈ flipXPairs size.width size.height) :
    pair.1 < size.width * size.height ∧ pair.2 < size.width * size.height := by
  rw [flipXPairs_eq] at h
  obtain ⟨p, hp, rfl⟩ := List.mem_map.mp h
  obtain ⟨y, hy, x, hx, rfl⟩ := (mem_upperPixels size).mp hp
  rw [mirrorRows_pixel (by omega) hx]
  exact ⟨pixel_lt (by omega) hx, pixel_lt (by omega) hx⟩

theorem flipYPairs_inside {pair : ℕ × ℕ} (h : pair ∈ flipYPairs size.width size.height) :
    pair.1 < size.width * size.height ∧ pair.2 < size.width * size.height := by
  rw [flipYPairs_eq] at h
  obtain ⟨p, hp, rfl⟩ := List.mem_map.mp h
  obtain ⟨y, hy, x, hx, rfl⟩ := (mem_leftPixels size).mp hp
  rw [mirrorColumns_pixel hy (by omega)]
  exact ⟨pixel_lt hy (by omega), pixel_lt hy (by omega)⟩

end Flips

/-- Both flips stay inside the array, are the exact mirror images and their own inverses, and commute;
together they reverse the array. -/
theorem flips_mirror {α : Type*} (size : ImageSize) (data : ℕ → α) :
    (∀ pair ∈ flipXPairs size.width size.height ++ flipYPairs size.width size.height,
      pair.1 < size.width * size.height ∧ pair.2 < size.width * size.height) ∧
    (∀ y < size.height, ∀ x < size.width,
      flipX size data (y * size.width + x) = data ((size.height - 1 - y) * size.width + x) ∧
      flipY size data (y * size.width + x) = data (y * size.width + (size.width - 1 - x))) ∧
    flipX size (flipX size data) = data ∧ flipY size (flipY size data) = data ∧
    flipX size (flipY size data) = flipY size (flipX size data) ∧
    ∀ p < size.width * size.height,
      flipX size (flipY size data) p = data (size.width * size.height - 1 - p) := by
  simp only [flipX_eq, flipY_eq]
  refine ⟨?_, ?_, ?_, ?_, ?_, ?_⟩
  · intro pair hpair
    rcases List.mem_append.mp hpair with hpair | hpair
    · exact flipXPairs_inside size hpair
    · exact flipYPairs_inside size hpair
  · intro y hy x hx
    rw [Function.comp_apply, Function.comp_apply, mirrorRows_pixel hy hx, mirrorColumns_pixel hy hx]
    exact ⟨rfl, rfl⟩
  · rw [Function.comp_assoc, (mirrorRows_involutive size).comp_self, Function.comp_id]
  · rw [Function.comp_assoc, (mirrorColumns_involutive size).comp_self, Function.comp_id]
  · funext p
    simp only [Function.comp_apply, mirror_comm]
  · intro p hp
    rw [Function.comp_apply, Function.comp_apply, mirror_both hp]

end Jp4Tools.ImageFlips
