import Jp4Tools.DngMetadata

/-!
# How entries carry over to the DNG

The setters read every entry in the way of their field: four bytes for an integer, eight for a
fraction, and as many bytes as a pointer has for the MakerNote. The value of an entry carries over
when its format happens to be the one that is read.
-/

namespace Jp4Tools.MetadataTransfer
open MachineIntegers ExifEntries DngMetadata

def signed (p : ℤ × ℤ) : ℤ × ℤ := (i32 p.1, i32 p.2)

/-- The value of an entry with a single integer, or with fractions. -/
def encodedValue (order : ByteOrder) (e : ExifEntry) : Option FieldValue :=
  match e.format with
  | .byte | .short | .long => if e.components = 1 then some (.number (decode order e.data)) else none
  | .rational => if e.components = 0 then none else some (.fractions (e.fractions order))
  | .srational => if e.components = 0 then none else some (.fractions ((e.fractions order).map signed))
  | _ => none

def expected (order : ByteOrder) (e : ExifEntry) : Reading → Option FieldValue
  | .makerNote _ => some (.bytes e.data)
  | _ => encodedValue order e

/-- Whatever surrounds the entry, its data are not left, nor is the destination, and its value is
stored. -/
structure CarriesOver (order : ByteOrder) (e : ExifEntry) (r : Reading) : Prop where
  inside : ∀ s, ∀ i ∈ (transfer s order e r).reads, i < e.data.length
  bounded : ∀ s, ∀ a ∈ (transfer s order e r).accesses, a.1 < a.2
  faithful : ∀ s v, expected order e r = some v → (transfer s order e r).stored = some v

/-- An entry whose value the fields are meant for. -/
def HasValue (e : ExifEntry) : Prop :=
  (e.format.Integral ∧ e.components = 1) ∨ (e.format.Fractional ∧ e.components ≠ 0)

def zeroSurroundings : Surroundings where
  behind := fun _ _ => 0
  entryValue := fun _ => []
  stray := fun _ => []
  freshBlock := fun _ => 0

def SignFree (order : ByteOrder) (e : ExifEntry) : Prop :=
  ∀ p ∈ e.fractions order, p.1 < 2 ^ 31 ∧ p.2 < 2 ^ 31

def Suits (order : ByteOrder) (e : ExifEntry) : Reading → Prop
  | .uint32 => 4 ≤ e.data.length ∧ ¬ e.format.Fractional
  | .urational =>
    8 ≤ e.data.length ∧ (e.format.Fractional → e.components = 1) ∧
      (e.format = .srational → SignFree order e)
  | .srational =>
    8 ≤ e.data.length ∧ (e.format.Fractional → e.components = 1) ∧
      (e.format = .rational → SignFree order e)
  | .urationalArray3 =>
    (e.components = 3 → 8 ≤ e.format.size ∧ (e.format = .srational → SignFree order e)) ∧
      (e.components ≠ 3 → ¬ HasValue e)
  | .string => e.data ≠ [] ∧ ¬ HasValue e
  | .makerNote blockSize => e.data.length = blockSize

section Values
variable {order : ByteOrder} {e : ExifEntry} {v : FieldValue}

theorem encodedValue_of_integral (h : e.format.Integral) (hone : e.components = 1) :
    encodedValue order e = some (.number (decode order e.data)) := by
  rcases h with h | h | h <;> simp only [encodedValue, h, if_pos hone]

theorem encodedValue_of_rational (h : e.format = .rational) (hne : e.components ≠ 0) :
    encodedValue order e = some (.fractions (e.fractions order)) := by
  simp only [encodedValue, h, if_neg hne]

theorem encodedValue_of_srational (h : e.format = .srational) (hne : e.components ≠ 0) :
    encodedValue order e = some (.fractions ((e.fractions order).map signed)) := by
  simp only [encodedValue, h, if_neg hne]

theorem encodedValue_eq_none (h : ¬ HasValue e) : encodedValue order e = none := by
  have hintegral : e.format.Integral → e.components ≠ 1 := fun hf hone => h (Or.inl ⟨hf, hone⟩)
  have hfractional : e.format.Fractional → e.components = 0 :=
    fun hf => by_contra (fun hne => h (Or.inr ⟨hf, hne⟩))
  unfold encodedValue
  split
  · next hf => exact if_neg (hintegral (Or.inl hf))
  · next hf => exact if_neg (hintegral (Or.inr (Or.inl hf)))
  · next hf => exact if_neg (hintegral (Or.inr (Or.inr hf)))
  · next hf => exact if_pos (hfractional (Or.inl hf))
  · next hf => exact if_pos (hfractional (Or.inr hf))
  · rfl

theorem exists_encodedValue (h : HasValue e) : ∃ v, encodedValue order e = some v := by
  rcases h with ⟨hf, hone⟩ | ⟨hf | hf, hne⟩
  · exact ⟨_, encodedValue_of_integral hf hone⟩
  · exact ⟨_, encodedValue_of_rational hf hne⟩
  · exact ⟨_, encodedValue_of_srational hf hne⟩

theorem hasValue_of_encodedValue (h : encodedValue order e = some v) : HasValue e := by
  by_contra hno
  rw [encodedValue_eq_none hno] at h
  cases h

theorem size_le_of_integral (h : e.format.Integral) : e.format.size ≤ 4 := by
  rcases h with h | h | h <;> rw [h] <;> decide

theorem components_ne_zero (h : e.data ≠ []) : e.components ≠ 0 := by
  intro hzero
  apply h
  rw [← List.length_eq_zero_iff, e.length_data, hzero, Nat.zero_mul]

theorem forall_lt_range_iff {n length : ℕ} (hpos : 0 < n) :
    (∀ i ∈ List.range n, i < length) ↔ n ≤ length := by
  constructor
  · intro h
    have hlast := h (n - 1) (List.mem_range.mpr (by omega))
    omega
  · intro h i hi
    have hlt := List.mem_range.mp hi
    omega

end Values

section Fractions
variable {order : ByteOrder} {e : ExifEntry}

/-- The sign makes no difference exactly below `2 ^ 31`. -/
theorem map_signed_iff (h : e.format.Fractional) :
    (e.fractions order).map signed = e.fractions order ↔ SignFree order e := by
  have heach : ∀ p ∈ e.fractions order, signed p = p ↔ p.1 < 2 ^ 31 ∧ p.2 < 2 ^ 31 := by
    intro p hp
    obtain ⟨i, -, rfl⟩ := List.mem_map.mp hp
    have hlength : (e.component i).length ≤ 8 := by
      rw [ExifEntry.component, h.size_eq]
      exact List.length_take_le _ _
    obtain ⟨n, d, hfraction, hn, hd⟩ := @decodeFraction_lt order _ hlength
    rw [hfraction, signed, Prod.mk.injEq, i32_eq_self_iff hn, i32_eq_self_iff hd]
    exact and_congr (by omega) (by omega)
  have hid : (e.fractions order).map signed = e.fractions order ↔ ∀ p ∈ e.fractions order, signed p = p := by
    have hmap := @List.map_inj_left _ _ (e.fractions order) signed id
    rwa [List.map_id] at hmap
  exact hid.trans (forall₂_congr heach)

end Fractions

section Readings
variable {order : ByteOrder} {e : ExifEntry}

theorem stored_uint32 (s : Surroundings) (h : 4 ≤ e.data.length) :
    (transfer s order e .uint32).stored = some (.number (decode order (e.data.take 4))) := by
  have hread : exifGetLong order (e.memory (s.behind e)) 0 = decode order ((e.data.drop 0).take 4) :=
    exifGetLong_memory (by omega)
  rw [transfer, hread, List.drop_zero]

theorem getRational_start (s : Surroundings) (h : 8 ≤ e.data.length) :
    exifGetRational order (e.memory (s.behind e)) 0 = decodeFraction order (e.data.take 8) := by
  rw [exifGetRational_memory (by omega), List.drop_zero]

/-- A fraction carries over to no other kind of value. -/
theorem CarriesOver.not_fractional {r : Reading} (h : CarriesOver order e r)
    (hexpected : expected order e r = encodedValue order e) (hne : e.components ≠ 0)
    (hstored : ∀ l, (transfer zeroSurroundings order e r).stored ≠ some (.fractions l)) :
    ¬ e.format.Fractional := by
  rintro (hf | hf)
  · exact hstored _ (h.faithful _ _ (hexpected.trans (encodedValue_of_rational hf hne)))
  · exact hstored _ (h.faithful _ _ (hexpected.trans (encodedValue_of_srational hf hne)))

theorem uint32_iff : CarriesOver order e .uint32 ↔ Suits order e .uint32 := by
  constructor
  · intro h
    have hlength : 4 ≤ e.data.length := (forall_lt_range_iff (by omega)).mp (h.inside zeroSurroundings)
    have hne : e.components ≠ 0 := components_ne_zero (List.ne_nil_of_length_pos (by omega))
    refine ⟨hlength, h.not_fractional rfl hne ?_⟩
    intro l hl
    rw [stored_uint32 _ hlength] at hl
    cases hl
  · rintro ⟨hlength, hfractional⟩
    constructor
    · intro s
      exact (forall_lt_range_iff (by omega)).mpr hlength
    · intro s a ha
      exact absurd ha List.not_mem_nil
    · intro s v hv
      rcases hasValue_of_encodedValue hv with ⟨hf, hone⟩ | ⟨hf, -⟩
      · have hsize := size_le_of_integral hf
        have hdata : e.data.take 4 = e.data := by
          apply List.take_of_length_le
          rw [e.length_data, hone, Nat.one_mul]
          exact hsize
        rw [stored_uint32 s hlength, hdata]
        exact (encodedValue_of_integral hf hone).symm.trans hv
      · exact absurd hf hfractional

/-- A reading of one fraction with eight bytes, which stores it under `g`. -/
structure ReadsFraction (order : ByteOrder) (e : ExifEntry) (r : Reading) (g : ℤ × ℤ → ℤ × ℤ) : Prop
    where
  expected_eq : expected order e r = encodedValue order e
  reads_eq : ∀ s, (transfer s order e r).reads = List.range 8
  accesses_eq : ∀ s, (transfer s order e r).accesses = []
  stored_eq : 8 ≤ e.data.length → ∀ s, (transfer s order e r).stored =
    some (.fractions [g (decodeFraction order (e.data.take 8))])

namespace ReadsFraction
variable {r : Reading} {g : ℤ × ℤ → ℤ × ℤ}

/-- The fraction that is stored is the only one of its entry. -/
theorem stored_one (hf : e.format.Fractional) (hone : e.components = 1) :
    [g (decodeFraction order (e.data.take 8))] = (e.fractions order).map g := by
  rw [fractions_one hf hone]
  rfl

theorem length_le (hr : ReadsFraction order e r g) (h : CarriesOver order e r) : 8 ≤ e.data.length := by
  apply (forall_lt_range_iff (by omega)).mp
  rw [← hr.reads_eq zeroSurroundings]
  exact h.inside zeroSurroundings

theorem value_eq (hr : ReadsFraction order e r g) (h : CarriesOver order e r) {l : List (ℤ × ℤ)}
    (hl : encodedValue order e = some (.fractions l)) :
    [g (decodeFraction order (e.data.take 8))] = l := by
  have hsame := h.faithful zeroSurroundings _ (hr.expected_eq.trans hl)
  rw [hr.stored_eq (hr.length_le h)] at hsame
  exact FieldValue.fractions.inj (Option.some.inj hsame)

theorem components_one (hr : ReadsFraction order e r g) (h : CarriesOver order e r)
    (hf : e.format.Fractional) (hne : e.components ≠ 0) : e.components = 1 := by
  rw [← @length_fractions order e]
  rcases hf with hf | hf
  · rw [← hr.value_eq h (encodedValue_of_rational hf hne)]
    rfl
  · have hlist := congrArg List.length (hr.value_eq h (encodedValue_of_srational hf hne))
    rw [List.length_map] at hlist
    exact hlist.symm

theorem carriesOver (hr : ReadsFraction order e r g) (hlength : 8 ≤ e.data.length)
    (hcomponents : e.format.Fractional → e.components = 1)
    (hrational : e.format = .rational → (e.fractions order).map g = e.fractions order)
    (hsrational : e.format = .srational → (e.fractions order).map g = (e.fractions order).map signed) :
    CarriesOver order e r := by
  constructor
  · intro s
    rw [hr.reads_eq]
    exact (forall_lt_range_iff (by omega)).mpr hlength
  · intro s a ha
    rw [hr.accesses_eq] at ha
    exact absurd ha List.not_mem_nil
  · intro s v hv
    rw [hr.expected_eq] at hv
    rw [hr.stored_eq hlength, ← hv]
    rcases hasValue_of_encodedValue hv with ⟨hf, hunit⟩ | ⟨hf, hne⟩
    · have hsize := size_le_of_integral hf
      rw [e.length_data, hunit] at hlength
      omega
    · rw [stored_one hf (hcomponents hf)]
      rcases hf with hf | hf
      · rw [hrational hf, encodedValue_of_rational hf hne]
      · rw [hsrational hf, encodedValue_of_srational hf hne]

/-- A fraction has to be the only one of its entry. What is stored are the fractions of the entry
under `g`, where the format gives them its own sign. -/
theorem carriesOver_iff (hr : ReadsFraction order e r g) :
    CarriesOver order e r ↔ 8 ≤ e.data.length ∧ (e.format.Fractional → e.components = 1) ∧
      (e.format = .rational → (e.fractions order).map g = e.fractions order) ∧
      (e.format = .srational → (e.fractions order).map g = (e.fractions order).map signed) := by
  constructor
  · intro h
    have hlength := hr.length_le h
    have hne : e.components ≠ 0 := components_ne_zero (List.ne_nil_of_length_pos (by omega))
    have hcomponents : e.format.Fractional → e.components = 1 := fun hf => hr.components_one h hf hne
    refine ⟨hlength, hcomponents, ?_, ?_⟩
    · intro hf
      rw [← stored_one (Or.inl hf) (hcomponents (Or.inl hf))]
      exact hr.value_eq h (encodedValue_of_rational hf hne)
    · intro hf
      rw [← stored_one (Or.inr hf) (hcomponents (Or.inr hf))]
      exact hr.value_eq h (encodedValue_of_srational hf hne)
  · rintro ⟨hlength, hcomponents, hrational, hsrational⟩
    exact hr.carriesOver hlength hcomponents hrational hsrational

end ReadsFraction

theorem urational_iff : CarriesOver order e .urational ↔ Suits order e .urational := by
  have hstored : 8 ≤ e.data.length → ∀ s, (transfer s order e .urational).stored =
      some (.fractions [id (decodeFraction order (e.data.take 8))]) := by
    intro hlength s
    rw [transfer, getRational_start s hlength]
    rfl
  rw [ReadsFraction.carriesOver_iff ⟨rfl, fun _ => rfl, fun _ => rfl, hstored⟩, Suits, List.map_id]
  apply and_congr_right
  intro _
  apply and_congr_right
  intro _
  rw [and_iff_right (fun _ => rfl)]
  apply forall_congr'
  intro hf
  rw [eq_comm, map_signed_iff (Or.inr hf)]

theorem srational_iff : CarriesOver order e .srational ↔ Suits order e .srational := by
  have hstored : 8 ≤ e.data.length → ∀ s, (transfer s order e .srational).stored =
      some (.fractions [signed (decodeFraction order (e.data.take 8))]) := by
    intro hlength s
    rw [transfer, exifGetSRational_eq, getRational_start s hlength]
    rfl
  rw [ReadsFraction.carriesOver_iff ⟨rfl, fun _ => rfl, fun _ => rfl, hstored⟩, Suits]
  apply and_congr_right
  intro _
  apply and_congr_right
  intro _
  rw [and_iff_left (fun _ => rfl)]
  apply forall_congr'
  intro hf
  rw [map_signed_iff (Or.inl hf)]

theorem array3_fractions (s : Surroundings) (hthree : e.components = 3) (hsize : e.format.size = 8) :
    (array3Addresses e).map (exifGetRational order (e.memory (s.behind e))) = e.fractions order := by
  have hlength : e.data.length = 24 := by rw [e.length_data, hthree, hsize]
  have hread : ∀ i < 3, exifGetRational order (e.memory (s.behind e)) (i * 8) =
      decodeFraction order (e.component i) := by
    intro i hi
    rw [exifGetRational_memory (by omega), ExifEntry.component, hsize]
  have haddresses : array3Addresses e = (List.range 3).map (fun i => i * 8) := by
    rw [array3Addresses, hsize]
    rfl
  rw [haddresses, List.map_map, ExifEntry.fractions, hthree]
  apply List.map_congr_left
  intro i hi
  exact hread i (List.mem_range.mp hi)

theorem transfer_array3 (s : Surroundings) (hthree : e.components = 3) :
    transfer s order e .urationalArray3 =
      { reads := (array3Addresses e).flatMap (fun address => (List.range 8).map (fun i => address + i))
        accesses := (List.range 3).map (fun i => (i, 3))
        stored := some (.fractions
          ((array3Addresses e).map (exifGetRational order (e.memory (s.behind e))))) } := by
  rw [transfer, if_neg (not_not.mpr hthree)]

theorem transfer_array3_skipped (s : Surroundings) (hne : e.components ≠ 3) :
    transfer s order e .urationalArray3 = { reads := [], accesses := [], stored := none } := by
  rw [transfer, if_pos hne]

theorem size_le (f : ExifFormat) : f.size ≤ 8 := by
  cases f <;> decide

/-- The last of three fractions ends with the data when the components have eight bytes. -/
theorem array3_inside_iff (hthree : e.components = 3) :
    (∀ s, ∀ i ∈ (transfer s order e .urationalArray3).reads, i < e.data.length) ↔ 8 ≤ e.format.size := by
  have hlength : e.data.length = 3 * e.format.size := by rw [e.length_data, hthree]
  constructor
  · intro h
    have hmem : 2 * e.format.size + 7 ∈ (transfer zeroSurroundings order e .urationalArray3).reads := by
      rw [transfer_array3 _ hthree]
      apply List.mem_flatMap.mpr
      exact ⟨2 * e.format.size, by simp [array3Addresses], List.mem_map_of_mem (List.mem_range.mpr (by omega))⟩
    have hlast := h zeroSurroundings _ hmem
    omega
  · intro hsize s i hi
    rw [transfer_array3 s hthree] at hi
    obtain ⟨address, haddress, hi⟩ := List.mem_flatMap.mp hi
    obtain ⟨j, hj, rfl⟩ := List.mem_map.mp hi
    have hlt := List.mem_range.mp hj
    simp only [array3Addresses, List.mem_cons, List.not_mem_nil, or_false] at haddress
    omega

theorem array3_iff : CarriesOver order e .urationalArray3 ↔ Suits order e .urationalArray3 := by
  by_cases hthree : e.components = 3
  · have hne : e.components ≠ 0 := by omega
    have hskip : (e.components ≠ 3 → ¬ HasValue e) ↔ True := iff_true_intro (absurd hthree)
    rw [Suits, hskip, and_true, imp_iff_right hthree]
    constructor
    · intro h
      have hsize := (array3_inside_iff hthree).mp h.inside
      refine ⟨hsize, ?_⟩
      intro hf
      have hsame := h.faithful zeroSurroundings _ (encodedValue_of_srational hf hne)
      rw [transfer_array3 _ hthree, array3_fractions _ hthree ((size_le _).antisymm hsize)] at hsame
      rw [← map_signed_iff (Or.inr hf)]
      exact (FieldValue.fractions.inj (Option.some.inj hsame)).symm
    · rintro ⟨hsize, hsign⟩
      refine ⟨(array3_inside_iff hthree).mpr hsize, ?_, ?_⟩
      · intro s a ha
        rw [transfer_array3 s hthree] at ha
        obtain ⟨i, hi, rfl⟩ := List.mem_map.mp ha
        exact List.mem_range.mp hi
      · intro s v hv
        have hencoded : encodedValue order e = some v := hv
        rw [transfer_array3 s hthree, array3_fractions s hthree ((size_le _).antisymm hsize), ← hencoded]
        rcases hasValue_of_encodedValue hencoded with ⟨-, hone⟩ | ⟨hf | hf, -⟩
        · omega
        · exact (encodedValue_of_rational hf hne).symm
        · rw [encodedValue_of_srational hf hne, (map_signed_iff (Or.inr hf)).mpr (hsign hf)]
  · have hread : (e.components = 3 → 8 ≤ e.format.size ∧ (e.format = .srational → SignFree order e)) ↔
        True := iff_true_intro (fun h => absurd h hthree)
    rw [Suits, hread, true_and, imp_iff_right hthree]
    constructor
    · intro h hvalue
      obtain ⟨v, hv⟩ := @exists_encodedValue order e hvalue
      have hsame := h.faithful zeroSurroundings v hv
      rw [transfer_array3_skipped _ hthree] at hsame
      cases hsame
    · intro hno
      constructor
      · intro s i hi
        rw [transfer_array3_skipped s hthree] at hi
        exact absurd hi List.not_mem_nil
      · intro s a ha
        rw [transfer_array3_skipped s hthree] at ha
        exact absurd ha List.not_mem_nil
      · intro s v hv
        exact absurd (hasValue_of_encodedValue hv) hno

theorem string_iff : CarriesOver order e .string ↔ Suits order e .string := by
  constructor
  · intro h
    constructor
    · intro hnil
      have hfirst := h.bounded zeroSurroundings (0, e.data.length)
        (List.mem_map_of_mem (List.mem_range.mpr (Nat.succ_pos _)))
      rw [hnil] at hfirst
      exact absurd hfirst (Nat.lt_irrefl _)
    · rintro (⟨hf, hone⟩ | ⟨hf | hf, hne⟩)
      · cases h.faithful zeroSurroundings _ (encodedValue_of_integral hf hone)
      · cases h.faithful zeroSurroundings _ (encodedValue_of_rational hf hne)
      · cases h.faithful zeroSurroundings _ (encodedValue_of_srational hf hne)
  · rintro ⟨hdata, hno⟩
    constructor
    · intro s i hi
      exact absurd hi List.not_mem_nil
    · intro s a ha
      obtain ⟨i, hi, rfl⟩ := List.mem_map.mp ha
      have hlt := List.mem_range.mp hi
      have hpos := List.length_pos_iff.mpr hdata
      have hstring : (getTagString s e).length ≤ e.data.length - 1 := by
        rw [getTagString, if_neg hdata]
        exact (List.takeWhile_prefix _).length_le.trans (List.length_take_le _ _)
      exact (by omega : i < e.data.length)
    · intro s v hv
      exact absurd (hasValue_of_encodedValue hv) hno

/-- The block has room for the MakerNote, and is stored as a whole. -/
theorem makerNote_iff {blockSize : ℕ} :
    CarriesOver order e (.makerNote blockSize) ↔ Suits order e (.makerNote blockSize) := by
  constructor
  · intro h
    have hsame := h.faithful zeroSurroundings _ rfl
    have hlist := congrArg List.length (FieldValue.bytes.inj (Option.some.inj hsame))
    rw [List.length_map, List.length_range] at hlist
    exact hlist.symm
  · intro hsize
    constructor
    · intro s i hi
      exact List.mem_range.mp hi
    · intro s a ha
      obtain ⟨i, hi, rfl⟩ := List.mem_map.mp ha
      exact (List.mem_range.mp hi).trans_eq hsize
    · intro s v hv
      cases hv
      have hblock : bytesAt (e.memory s.freshBlock) 0 blockSize = (e.data.drop 0).take blockSize :=
        bytesAt_memory (by rw [Nat.zero_add]; exact hsize.ge)
      simp only [bytesAt, Nat.zero_add, List.drop_zero] at hblock
      rw [transfer, hblock, List.take_of_length_le hsize.le]

end Readings

/-- An entry carries over exactly when the reading suits it. -/
theorem carries_over_iff (order : ByteOrder) (e : ExifEntry) (r : Reading) :
    CarriesOver order e r ↔ Suits order e r := by
  cases r with
  | uint32 => exact uint32_iff
  | urational => exact urational_iff
  | srational => exact srational_iff
  | urationalArray3 => exact array3_iff
  | string => exact string_iff
  | makerNote blockSize => exact makerNote_iff

/-- The exposure program, a SHORT, is read beyond its two bytes. -/
theorem short_read_outside : ¬ ∀ order e r, CarriesOver order e r := by
  intro h
  let e : ExifEntry :=
    { tag := 0x8822, format := .short, components := 1, data := [0, 2], length_data := rfl }
  have hlength := (uint32_iff.mp (h .motorola e .uint32)).1
  exact absurd hlength (by decide)

end Jp4Tools.MetadataTransfer
