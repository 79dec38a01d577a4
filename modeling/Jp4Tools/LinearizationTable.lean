import Jp4Tools.GammaCurve
import Jp4Tools.PiecewiseLinear

/-!
# The linearization table against the camera's interpolation

The camera interpolates its gamma table between the entries. The second loop of
`Gamma::reverseTable` looks up each code in that interpolation. A code that the table reaches gets
the place of the code, in units of 1/256. A code beyond the last entry gets 65535.0/256 instead,
which is on another scale.
-/

namespace Jp4Tools.LinearizationTable
open CursorScan Gamma GammaCurve PiecewiseLinear

def rgTable (gtable : ℕ → ℤ) : List ℤ := (fillTable gtable).map Round.value

def loopState (gtable : ℕ → ℤ) (rounds : ℕ) : ScanState := (nextState gtable)^[rounds] ⟨0, 0⟩

/-- The condition of the branch `rgTable[i]=i`. -/
def FlatSegment (gtable : ℕ → ℤ) (indx : ℕ) : Prop :=
  indx < 256 ∧ gtable (indx + 1) = gtable indx

def declaredBlack (black : ℚ) : ℚ := black * 65536

/-- A table as the first loop builds it, in a memory that goes on behind it. -/
structure CameraTable where
  gtable : ℕ → ℤ
  mono : MonotoneOn gtable (Set.Iic 256)
  zero : gtable 0 = 0
  last_le : gtable 256 ≤ 0xffff

structure BlackTable extends CameraTable where
  black : ℕ
  black_le : black ≤ 255
  dark : ∀ j ≤ black, gtable j = 0

structure ScaledTable extends CameraTable where
  gammaScale : ℕ
  gammaScale_le : gammaScale ≤ 0x8000
  last_eq : gtable 256 = min 0xffff (65535 * (gammaScale : ℤ) / 0x400)

/-- What the linearization has to be for a declared black level. -/
structure Usable (declared : ℚ) (rgTable : List ℤ) : Prop where
  nondecreasing : rgTable.Pairwise (· ≤ ·)
  fits : ∀ v ∈ rgTable, 0 ≤ v ∧ v ≤ 0xffff
  aboveBlack : ∀ v ∈ rgTable, declared ≤ v

section Rounds
variable (gtable : ℕ → ℤ)

def cursor (i : ℕ) : ℕ := cursorAt gtable 256 query (i + 1)

def entry (i : ℕ) : ℤ := truncate (rgValue gtable i (cursor gtable i))

theorem loopState_eq {rounds : ℕ} (h : rounds ≤ 256) : loopState gtable rounds = stateAt gtable rounds := by
  induction rounds with
  | zero => rfl
  | succ i ih =>
    have hi : i < 256 := h
    rw [loopState, Function.iterate_succ_apply', ← loopState, ih hi.le]
    simp only [nextState, stateAt, cursorAt, outValue_eq hi, query, Nat.cast_add, Nat.cast_mul,
      Nat.cast_ofNat]

theorem rgTable_eq : rgTable gtable = (List.range 256).map (entry gtable) := by
  have hround : ∀ i ∈ List.range 256,
      (fillRound gtable (stateAt gtable i)).map Round.value = [entry gtable i] := by
    intro i hi
    have hcursor : advance gtable 256 (outValue i : ℤ) (cursorAt gtable 256 query i) = cursor gtable i := by
      simp only [cursor, cursorAt, outValue_eq (List.mem_range.mp hi), query, Nat.cast_add,
        Nat.cast_mul, Nat.cast_ofNat]
    simp only [fillRound, stateAt, hcursor, List.map_cons, List.map_nil, entry]
  rw [rgTable, fillTable_eq, List.map_flatMap, List.flatMap_congr hround]
  exact List.flatMap_pure_eq_map _ _

end Rounds

namespace CameraTable
variable (t : CameraTable)

def curve : ℚ → ℚ := interpolate (fun j => (t.gtable j : ℚ))

theorem curve_mono : MonotoneOn t.curve (Set.Icc 0 256) := by
  apply interpolate_mono (n := 256)
  intro i hi j hj hij
  exact Int.cast_le.mpr (t.mono hi hj hij)

/-- The cursor stays in the table for the codes that the table reaches, and for no others. -/
theorem cursor_lt_iff (i : ℕ) : cursor t.gtable i < 256 ↔ query i ≤ t.gtable 256 := by
  rw [cursor, cursorAt_lt_iff query_mono]
  constructor
  · intro ⟨j, hj, hreach⟩
    exact hreach.trans (t.mono (Set.mem_Iic.mpr hj) (Set.mem_Iic.mpr le_rfl) hj)
  · intro h
    exact ⟨255, by omega, h⟩

variable {t} {i : ℕ}

/-- The segment at the cursor rises through the code. It is never flat. -/
theorem cursor_bracket (h : query i ≤ t.gtable 256) :
    t.gtable (cursor t.gtable i) < query i ∧ query i ≤ t.gtable (cursor t.gtable i + 1) := by
  have hlt := (t.cursor_lt_iff i).mpr h
  constructor
  · cases hc : cursor t.gtable i with
    | zero =>
      rw [t.zero, query]
      omega
    | succ j =>
      have hpassed : j < cursorAt t.gtable 256 query (i + 1) := by
        rw [← cursor, hc]
        exact Nat.lt_succ_self j
      exact cursorAt_passed query_mono i hpassed
  · exact advance_stops hlt

/-- Where the interpolation passes through code `i`. -/
def place (t : CameraTable) (i : ℕ) : ℚ :=
  placeOf (fun j => (t.gtable j : ℚ)) (query i) (cursor t.gtable i)

theorem place_mem (h : query i ≤ t.gtable 256) :
    (cursor t.gtable i : ℚ) < t.place i ∧ t.place i ≤ cursor t.gtable i + 1 := by
  obtain ⟨hlow, hhigh⟩ := cursor_bracket h
  exact placeOf_mem (by exact_mod_cast hlow) (by exact_mod_cast hhigh)

theorem place_lt_iff (h : query i ≤ t.gtable 256) :
    t.place i < cursor t.gtable i + 1 ↔ query i < t.gtable (cursor t.gtable i + 1) := by
  obtain ⟨hlow, hhigh⟩ := cursor_bracket h
  rw [place, placeOf_lt_iff (by exact_mod_cast hlow) (by exact_mod_cast hhigh)]
  exact Int.cast_lt

theorem place_mem_Icc (h : query i ≤ t.gtable 256) : t.place i ∈ Set.Icc (0 : ℚ) 256 := by
  obtain ⟨hlow, hhigh⟩ := place_mem h
  have hlt : ((cursor t.gtable i + 1 : ℕ) : ℚ) ≤ 256 := by
    exact_mod_cast (t.cursor_lt_iff i).mpr h
  push_cast at hlt
  exact ⟨(Nat.cast_nonneg _).trans hlow.le, hhigh.trans hlt⟩

theorem curve_place (h : query i ≤ t.gtable 256) : t.curve (t.place i) = query i := by
  obtain ⟨hlow, hhigh⟩ := cursor_bracket h
  exact interpolate_placeOf (by exact_mod_cast hlow) (by exact_mod_cast hhigh)

theorem place_le {j : ℕ} (hij : i ≤ j) (h : query j ≤ t.gtable 256) : t.place i ≤ t.place j := by
  have hi : query i ≤ t.gtable 256 := (query_mono hij).trans h
  by_contra hlt
  have hcurve := t.curve_mono (place_mem_Icc h) (place_mem_Icc hi) (not_le.mp hlt).le
  rw [curve_place h, curve_place hi, Int.cast_le, query, query] at hcurve
  have heq : i = j := by omega
  exact hlt (heq ▸ le_rfl)

/-- The entry of a code that the table reaches is its place, in units of 1/256. -/
theorem entry_reached (h : query i ≤ t.gtable 256) (hi : i < 256) :
    entry t.gtable i = ⌊256 * t.place i⌋ := by
  obtain ⟨hlow, hhigh⟩ := cursor_bracket h
  have hin : ¬ cursor t.gtable i ≥ 256 := not_le.mpr ((t.cursor_lt_iff i).mpr h)
  have hne : t.gtable (cursor t.gtable i + 1) ≠ t.gtable (cursor t.gtable i) := by omega
  have hcode : ((outValue i : ℕ) : ℤ) = query i := by
    rw [outValue_eq hi, query]
    push_cast
    rfl
  have hvalue : rgValue t.gtable i (cursor t.gtable i) = 256 * t.place i := by
    rw [rgValue, if_neg hin, if_neg hne, hcode, place, placeOf]
    push_cast
    rw [one_mul]
  rw [entry, hvalue, truncate, if_pos]
  linarith [(place_mem_Icc h).1]

theorem entry_saturated (h : t.gtable 256 < query i) : entry t.gtable i = 255 := by
  have hout : cursor t.gtable i ≥ 256 := by
    by_contra hlt
    exact absurd ((t.cursor_lt_iff i).mp (not_le.mp hlt)) (not_le.mpr h)
  rw [entry, rgValue, if_pos hout, truncate, if_pos (by norm_num), Int.floor_eq_iff]
  constructor <;> norm_num

theorem entry_lt_iff (h : query i ≤ t.gtable 256) (hi : i < 256) :
    entry t.gtable i ≤ 0xffff ↔ query i < t.gtable 256 ∨ query i ≤ t.gtable 255 := by
  obtain ⟨hlow, hhigh⟩ := cursor_bracket h
  have hmem := place_mem h
  have hlt := (t.cursor_lt_iff i).mpr h
  rw [entry_reached h hi, ← Int.lt_add_one_iff, Int.floor_lt]
  have hscale : 256 * t.place i < ((65535 + 1 : ℤ) : ℚ) ↔ t.place i < 256 := by
    push_cast
    constructor <;> intro h <;> linarith
  rw [show (0xffff : ℤ) = 65535 from rfl, hscale]
  rcases Nat.eq_or_lt_of_le (Nat.le_of_lt_succ hlt) with hc | hc
  · have hcast : ((cursor t.gtable i : ℕ) : ℚ) + 1 = 256 := by
      rw [hc]
      norm_num
    rw [← hcast, place_lt_iff h, hc]
    rw [hc] at hlow
    constructor
    · intro h'
      exact Or.inl h'
    · rintro (h' | h')
      · exact h'
      · omega
  · constructor
    · intro _
      exact Or.inr (hhigh.trans (t.mono (Set.mem_Iic.mpr (by omega)) (Set.mem_Iic.mpr (by omega)) hc))
    · intro _
      have hcast : ((cursor t.gtable i + 1 : ℕ) : ℚ) ≤ 255 := by exact_mod_cast hc
      push_cast at hcast
      linarith [hmem.2]

end CameraTable

theorem query_outValue {i : ℕ} (hi : i < 256) : ((outValue i : ℕ) : ℤ) = query i := by
  rw [outValue_eq hi, query]
  push_cast
  rfl

section Inverse
variable (t : ScaledTable) {i : ℕ}

theorem ScaledTable.query_ne_last : query i ≠ t.gtable 256 := by
  have hscale := t.gammaScale_le
  rw [t.last_eq, query]
  -- A code is a multiple of 128, and the scale times 65535/1024 falls just short of one.
  rcases lt_or_ge (4 * i + 2) t.gammaScale with h | h <;> omega

theorem ScaledTable.entry_mem (h : query i ≤ t.gtable 256) (hi : i < 256) :
    0 ≤ entry t.gtable i ∧ entry t.gtable i ≤ 0xffff := by
  constructor
  · rw [CameraTable.entry_reached h hi]
    apply Int.floor_nonneg.mpr
    linarith [(CameraTable.place_mem_Icc h).1]
  · rw [CameraTable.entry_lt_iff h hi]
    exact Or.inl (lt_of_le_of_ne h t.query_ne_last)

end Inverse

/-- For each code that the table reaches, the entry brackets the place where the camera's
interpolation has that code. -/
theorem rgTable_inverts_curve (t : ScaledTable) :
    (∀ j : ℕ, j < 256 → ∀ x : ℚ, j ≤ x → x ≤ j + 1 →
      t.curve x = t.gtable j + (x - j) * (t.gtable (j + 1) - t.gtable j)) ∧
    ∀ i < 256, (outValue i : ℤ) ≤ t.gtable 256 →
      ¬ FlatSegment t.gtable (loopState t.gtable (i + 1)).indx ∧
      ∃ r : ℤ, (rgTable t.gtable)[i]? = some r ∧ 0 ≤ r ∧ r ≤ 65535 ∧
        t.curve (r / 256) ≤ outValue i ∧ outValue i ≤ t.curve ((r + 1) / 256) := by
  constructor
  · intro j _ x hj hx
    exact interpolate_segment _ hj hx
  intro i hi hreach
  rw [query_outValue hi] at hreach
  obtain ⟨hlow, hhigh⟩ := CameraTable.cursor_bracket hreach
  obtain ⟨hpos, hle⟩ := t.entry_mem hreach hi
  have hplace := CameraTable.place_mem_Icc hreach
  have hcode : ((outValue i : ℕ) : ℚ) = t.curve (t.place i) := by
    rw [CameraTable.curve_place hreach, ← query_outValue hi]
    push_cast
    rfl
  have hentry := CameraTable.entry_reached hreach hi
  have hfloor : (entry t.gtable i : ℚ) ≤ 256 * t.place i := by
    rw [hentry]
    exact Int.floor_le _
  have hnext : 256 * t.place i < entry t.gtable i + 1 := by
    rw [hentry]
    exact Int.lt_floor_add_one _
  have hpos' : (0 : ℚ) ≤ entry t.gtable i := by exact_mod_cast hpos
  have hle' : (entry t.gtable i : ℚ) ≤ 65535 := by exact_mod_cast hle
  refine ⟨?_, entry t.gtable i, ?_, hpos, hle, ?_, ?_⟩
  · intro hflat
    rw [loopState_eq _ hi] at hflat
    have heq : t.gtable (cursor t.gtable i + 1) = t.gtable (cursor t.gtable i) := hflat.2
    omega
  · rw [rgTable_eq, List.getElem?_map, List.getElem?_range hi]
    rfl
  · rw [hcode]
    apply t.curve_mono _ hplace
    · linarith
    · constructor <;> linarith
  · rw [hcode]
    apply t.curve_mono hplace
    · constructor <;> linarith
    · linarith

section Usable
variable {t : BlackTable} {i j : ℕ}

theorem BlackTable.black_le_entry (h : query i ≤ t.gtable 256) (hi : i < 256) :
    256 * (t.black : ℤ) ≤ entry t.gtable i := by
  obtain ⟨-, hhigh⟩ := CameraTable.cursor_bracket h
  have hcursor : t.black ≤ cursor t.gtable i := by
    by_contra hlt
    rw [t.dark _ (not_le.mp hlt), query] at hhigh
    omega
  have hcast : (t.black : ℚ) ≤ cursor t.gtable i := by exact_mod_cast hcursor
  have hmem := CameraTable.place_mem h
  rw [CameraTable.entry_reached h hi, Int.le_floor]
  push_cast
  linarith [hmem.1]

theorem entry_le_entry {t : CameraTable} (hij : i ≤ j) (h : query j ≤ t.gtable 256) (hj : j < 256) :
    entry t.gtable i ≤ entry t.gtable j := by
  rw [CameraTable.entry_reached h hj,
    CameraTable.entry_reached ((query_mono hij).trans h) (by omega)]
  apply Int.floor_le_floor
  linarith [CameraTable.place_le hij h]

theorem entry_le_saturated_iff {t : CameraTable} (h : query i ≤ t.gtable 256) (hi : i < 256) :
    entry t.gtable i ≤ 255 ↔ query i < t.gtable 1 := by
  obtain ⟨hlow, hhigh⟩ := CameraTable.cursor_bracket h
  have hmem := CameraTable.place_mem h
  have hscale : 256 * t.place i < ((255 + 1 : ℤ) : ℚ) ↔ t.place i < 1 := by
    push_cast
    constructor <;> intro h <;> linarith
  rw [CameraTable.entry_reached h hi, ← Int.lt_add_one_iff, Int.floor_lt, hscale]
  have hlt := (t.cursor_lt_iff i).mpr h
  cases hc : cursor t.gtable i with
  | zero =>
    have hplace := CameraTable.place_lt_iff h
    rw [hc, Nat.cast_zero, zero_add] at hplace
    exact hplace
  | succ c =>
    rw [hc] at hmem hlow hlt
    have hcast : (1 : ℚ) ≤ (c + 1 : ℕ) := by exact_mod_cast Nat.succ_le_succ (Nat.zero_le c)
    have hfirst : t.gtable 1 ≤ t.gtable (c + 1) :=
      t.mono (Set.mem_Iic.mpr (by omega)) (Set.mem_Iic.mpr hlt.le) (by omega)
    constructor
    · intro h'
      linarith [hmem.1]
    · intro h'
      omega

theorem usable_iff (declared : ℚ) (gtable : ℕ → ℤ) :
    Usable declared (rgTable gtable) ↔
      (∀ j < 256, ∀ i < j, entry gtable i ≤ entry gtable j) ∧
      ∀ i < 256, (0 ≤ entry gtable i ∧ entry gtable i ≤ 0xffff) ∧ declared ≤ entry gtable i := by
  have hmem : ∀ v, v ∈ rgTable gtable ↔ ∃ i < 256, entry gtable i = v := by
    intro v
    simp only [rgTable_eq, List.mem_map, List.mem_range]
  constructor
  · intro h
    refine ⟨?_, fun i hi => ⟨h.fits _ ((hmem _).mpr ⟨i, hi, rfl⟩),
      h.aboveBlack _ ((hmem _).mpr ⟨i, hi, rfl⟩)⟩⟩
    intro j hj i hij
    have hsorted := h.nondecreasing
    rw [rgTable_eq, List.pairwise_map, List.pairwise_iff_getElem] at hsorted
    have hentries := hsorted i j (by rw [List.length_range]; omega) (by rw [List.length_range]; omega) hij
    rwa [List.getElem_range, List.getElem_range] at hentries
  · intro ⟨hsorted, hentries⟩
    refine ⟨?_, ?_, ?_⟩
    · rw [rgTable_eq, List.pairwise_map, List.pairwise_iff_getElem]
      intro i j hi hj hij
      rw [List.length_range] at hj
      rw [List.getElem_range, List.getElem_range]
      exact hsorted j hj i hij
    · intro v hv
      obtain ⟨i, hi, rfl⟩ := (hmem v).mp hv
      exact (hentries i hi).1
    · intro v hv
      obtain ⟨i, hi, rfl⟩ := (hmem v).mp hv
      exact (hentries i hi).2

theorem usable_of_last (t : BlackTable) (h : 65408 < t.gtable 256 ∨ 65408 ≤ t.gtable 255) :
    Usable (declaredBlack (t.black / 256)) (rgTable t.gtable) := by
  have hmono := t.mono (Set.mem_Iic.mpr (show 255 ≤ 256 by omega)) (Set.mem_Iic.mpr le_rfl) (by omega)
  have hreach : ∀ i < 256, query i ≤ t.gtable 256 := by
    intro i hi
    rw [query]
    omega
  rw [usable_iff]
  constructor
  · intro j hj i hij
    exact entry_le_entry hij.le (hreach j hj) hj
  · intro i hi
    have hblack := BlackTable.black_le_entry (hreach i hi) hi
    have hcast : ((256 * t.black : ℤ) : ℚ) ≤ entry t.gtable i := by exact_mod_cast hblack
    refine ⟨⟨by omega, ?_⟩, ?_⟩
    · rw [CameraTable.entry_lt_iff (hreach i hi) hi, query]
      omega
    · rw [declaredBlack]
      push_cast at hcast
      linarith

theorem usable_of_first (t : BlackTable) (hblack : t.black = 0)
    (h : ∀ i < 256, query i ≤ t.gtable 256 → query i < t.gtable 1) :
    Usable (declaredBlack (t.black / 256)) (rgTable t.gtable) := by
  have hentry : ∀ i < 256, 0 ≤ entry t.gtable i ∧ entry t.gtable i ≤ 255 := by
    intro i hi
    rcases le_or_gt (query i) (t.gtable 256) with hreach | hbeyond
    · have hlow := BlackTable.black_le_entry hreach hi
      exact ⟨by omega, (entry_le_saturated_iff hreach hi).mpr (h i hi hreach)⟩
    · rw [CameraTable.entry_saturated hbeyond]
      omega
  rw [usable_iff]
  constructor
  · intro j hj i hij
    rcases le_or_gt (query j) (t.gtable 256) with hreach | hbeyond
    · exact entry_le_entry hij.le hreach hj
    · rw [CameraTable.entry_saturated hbeyond]
      exact (hentry i (by omega)).2
  · intro i hi
    obtain ⟨hlow, hhigh⟩ := hentry i hi
    have hcast : (0 : ℚ) ≤ entry t.gtable i := by exact_mod_cast hlow
    refine ⟨⟨hlow, by omega⟩, ?_⟩
    simpa only [declaredBlack, hblack, Nat.cast_zero, zero_div, zero_mul] using hcast

theorem reach_of_usable (t : BlackTable)
    (h : Usable (declaredBlack (t.black / 256)) (rgTable t.gtable)) :
    65408 < t.gtable 256 ∨ 65408 ≤ t.gtable 255 ∨
      (t.black = 0 ∧ ∀ i < 256, query i ≤ t.gtable 256 → query i < t.gtable 1) := by
  have hlast : query 255 = 65408 := rfl
  obtain ⟨hsorted, hentries⟩ := (usable_iff _ _).mp h
  rcases le_or_gt (query 255) (t.gtable 256) with hreach | hbeyond
  · have hfits := (CameraTable.entry_lt_iff hreach (by omega)).mp (hentries 255 (by omega)).1.2
    rw [hlast] at hfits
    exact hfits.imp_right Or.inl
  · have hsaturated := CameraTable.entry_saturated hbeyond
    refine Or.inr (Or.inr ⟨?_, ?_⟩)
    · have hblack := (hentries 255 (by omega)).2
      rw [hsaturated, declaredBlack] at hblack
      have hle : (t.black : ℚ) < 1 := by
        push_cast at hblack
        linarith
      have hle : t.black < 1 := by exact_mod_cast hle
      omega
    · intro i hi hcode
      have hne : i ≠ 255 := by
        intro heq
        rw [heq] at hcode
        omega
      rw [← entry_le_saturated_iff hcode hi, ← hsaturated]
      exact hsorted 255 (by omega) i (by omega)

end Usable

/-- The linearization is usable exactly when the table reaches the last code before or beyond its
last entry, or when the black level is 0 and the codes that the table reaches lie before its first
step. -/
theorem rgTable_usable_iff (t : BlackTable) :
    Usable (declaredBlack (t.black / 256)) (rgTable t.gtable) ↔
      65408 < t.gtable 256 ∨ 65408 ≤ t.gtable 255 ∨
      (t.black = 0 ∧ ∀ i < 256, (outValue i : ℤ) ≤ t.gtable 256 → (outValue i : ℤ) < t.gtable 1) := by
  have hquery : (∀ i < 256, (outValue i : ℤ) ≤ t.gtable 256 → (outValue i : ℤ) < t.gtable 1) ↔
      ∀ i < 256, query i ≤ t.gtable 256 → query i < t.gtable 1 := by
    constructor <;> intro h i hi
    · rw [← query_outValue hi]
      exact h i hi
    · rw [query_outValue hi]
      exact h i hi
  rw [hquery]
  constructor
  · exact reach_of_usable t
  · rintro (h | h | ⟨hblack, h⟩)
    · exact usable_of_last t (Or.inl h)
    · exact usable_of_last t (Or.inr h)
    · exact usable_of_first t hblack h

section FirstLoop
variable (P : PowerFunction) (beyond : ℕ → ℤ) (gamma : ℚ) (gammaScale : Fin (2 ^ 16))
  (b : Fin (2 ^ 8))

theorem firstLoop_dark (h : (gammaScale : ℕ) ≤ 0x8000) {j : ℕ} (hj : j ≤ (b : ℕ)) :
    gtable P beyond gamma (gammaScale : ℕ) ((b : ℕ) / 256) j = 0 := by
  have hb := b.isLt
  have hcast : (j : ℚ) ≤ (b : ℕ) := by exact_mod_cast hj
  apply gtable_dark (a := arguments gamma gammaScale b) h beyond (by omega)
  simp only [arguments]
  linarith

/-- What the first loop builds when nothing overflows starts above the black level. -/
def BlackTable.ofFirstLoop (h : (gammaScale : ℕ) ≤ 0x8000) : BlackTable where
  gtable := gtable P beyond gamma (gammaScale : ℕ) ((b : ℕ) / 256)
  mono := gtable_mono (a := arguments gamma gammaScale b) h beyond
  zero := firstLoop_dark P beyond gamma gammaScale b h (Nat.zero_le _)
  last_le := (gtable_mem (a := arguments gamma gammaScale b) h beyond le_rfl).2
  black := b
  black_le := Nat.le_of_lt_succ b.isLt
  dark := fun _ hj => firstLoop_dark P beyond gamma gammaScale b h hj

def ScaledTable.ofFirstLoop (h : (gammaScale : ℕ) ≤ 0x8000) : ScaledTable where
  toCameraTable := (BlackTable.ofFirstLoop P beyond gamma gammaScale b h).toCameraTable
  gammaScale := gammaScale
  gammaScale_le := h
  last_eq := (gtable_last (a := arguments gamma gammaScale b) h beyond).trans (min_comm _ _)

end FirstLoop

/-- With gamma 1, scale 0.5 and black level 10 the last code gets 255, below the declared 2560. -/
theorem half_scale_unusable : ¬ ∀ t : BlackTable,
    Usable (declaredBlack (t.black / 256)) (rgTable t.gtable) := by
  intro h
  have hscale : ((512 : Fin (2 ^ 16)) : ℕ) ≤ 0x8000 := by decide
  let t := BlackTable.ofFirstLoop linearPower (fun _ => 0) 1 512 10 hscale
  have hlast : t.gtable 256 = 32767 := gtable_last (a := arguments 1 512 10) hscale (fun _ => 0)
  have hmono := t.mono (Set.mem_Iic.mpr (show 255 ≤ 256 by omega)) (Set.mem_Iic.mpr le_rfl) (by omega)
  rcases reach_of_usable t (h t) with hreach | hreach | ⟨hblack, -⟩
  · omega
  · omega
  · have hten : t.black = 10 := rfl
    omega

end Jp4Tools.LinearizationTable
