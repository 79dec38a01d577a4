import Jp4Tools.MetadataTransfer

/-!
# The GPS directory and the other fields

A tag is searched by its number, in the GPS directory as well, although the numbers there have a
meaning of their own. A field that does not belong to GPS depends on the GPS directory when this may
hold the number of its tag, and no directory before it does.
-/

namespace Jp4Tools.GpsSeparation
open ExifEntries DngMetadata MetadataTransfer

def withGps (d : ExifBlock) (gps : List ExifEntry) : ExifBlock := { d with gpsIfd := gps }

def nonGpsTransfers : List Transfer := exposureTransfers ++ imageTransfers ++ interoperabilityTransfers

def isPlain : Setter → Bool
  | .anyIfd _ .string => true
  | .anyIfd _ .uint32 => true
  | .anyIfd _ .urational => true
  | .anyIfd _ .srational => true
  | .dateTime tag subsecTag => decide (subsecTag ≠ tag)
  | _ => false

def textTags : List ℕ :=
  nonGpsTransfers.flatMap (fun t => match t.setter with
    | .anyIfd tag .string => [tag]
    | .dateTime tag subsecTag => [tag, subsecTag]
    | _ => [])

/-- Surroundings in which each tag that is read as text has entries that say `1` and `2`. -/
structure TextLibrary extends Surroundings where
  shows : ∀ tag ∈ textTags, ∀ c ∈ [(0x31 : UInt8), 0x32],
    ∃ e : ExifEntry, e.tag = tag ∧ getTagString toSurroundings e = [c]

/-- All blocks with the same entries outside of the GPS directory give the same fields, where the GPS
directory holds tags of `T`. -/
def GpsStaysApart (s : Surroundings) (T : Set ℕ) (d : ExifBlock) : Prop :=
  ∀ gps gps' : List ExifEntry, (∀ e ∈ gps, e.tag ∈ T) → (∀ e ∈ gps', e.tag ∈ T) →
    ∀ t ∈ nonGpsTransfers,
      writeMetadata s (withGps d gps) t.dest = writeMetadata s (withGps d gps') t.dest

def before (d : ExifBlock) : List ExifEntry := d.ifd0 ++ d.ifd1 ++ d.exifIfd

def HasTag (l : List ExifEntry) (tag : ℕ) : Prop := ∃ e ∈ l, e.tag = tag

/-- A setter finds its tags before the GPS directory, if that may hold them. A fraction of a second is
only looked for when there is a date. -/
def Shielded (T : Set ℕ) (d : ExifBlock) : Setter → Prop
  | .anyIfd tag _ => tag ∈ T → HasTag (before d) tag
  | .dateTime tag subsecTag =>
    (tag ∈ T → HasTag (before d) tag) ∧
      (subsecTag ∈ T → HasTag (before d ++ d.interoperabilityIfd) tag → HasTag (before d) subsecTag)
  | .gpsIfd _ _ => True
  | .whenPresent _ _ => True

section Lookup
variable {d : ExifBlock} {gps gps' : List ExifEntry} {tag : ℕ} {T : Set ℕ} {e : ExifEntry}

theorem find?_eq_none_of_not_hasTag {l : List ExifEntry} (h : ¬ HasTag l tag) :
    l.find? (fun e => decide (e.tag = tag)) = none := by
  rw [List.find?_eq_none]
  intro e he htag
  exact h ⟨e, he, of_decide_eq_true htag⟩

theorem find?_of_hasTag {l : List ExifEntry} (h : HasTag l tag) :
    ∃ e, l.find? (fun e => decide (e.tag = tag)) = some e := by
  rw [← Option.isSome_iff_exists, List.find?_isSome]
  obtain ⟨e, he, htag⟩ := h
  exact ⟨e, he, decide_eq_true htag⟩

theorem getEntry_withGps (d : ExifBlock) (gps : List ExifEntry) (tag : ℕ) :
    (withGps d gps).getEntry tag = (((before d).find? (fun e => decide (e.tag = tag))).or
      (gps.find? (fun e => decide (e.tag = tag)))).or
        (d.interoperabilityIfd.find? (fun e => decide (e.tag = tag))) := by
  rw [← List.find?_append, ← List.find?_append]
  rfl

theorem getEntry_eq (h : tag ∈ T → HasTag (before d) tag) (hgps : ∀ e ∈ gps, e.tag ∈ T)
    (hgps' : ∀ e ∈ gps', e.tag ∈ T) : (withGps d gps).getEntry tag = (withGps d gps').getEntry tag := by
  rw [getEntry_withGps, getEntry_withGps]
  by_cases hbefore : HasTag (before d) tag
  · obtain ⟨e, he⟩ := find?_of_hasTag hbefore
    simp only [he, Option.some_or]
  · have habsent : ∀ l : List ExifEntry, (∀ e ∈ l, e.tag ∈ T) → ¬ HasTag l tag := by
      rintro l hl ⟨e, he, rfl⟩
      exact hbefore (h (hl e he))
    rw [find?_eq_none_of_not_hasTag (habsent gps hgps), find?_eq_none_of_not_hasTag (habsent gps' hgps')]

theorem hasTag_of_getEntry (h : tag ∈ T → HasTag (before d) tag) (hgps : ∀ e ∈ gps, e.tag ∈ T)
    (hfound : (withGps d gps).getEntry tag = some e) :
    HasTag (before d ++ d.interoperabilityIfd) tag := by
  have hall : e ∈ (withGps d gps).ifd0 ++ (withGps d gps).ifd1 ++ (withGps d gps).exifIfd ++
      (withGps d gps).gpsIfd ++ (withGps d gps).interoperabilityIfd := List.mem_of_find?_eq_some hfound
  have hlist : (((withGps d gps).ifd0 ++ (withGps d gps).ifd1 ++ (withGps d gps).exifIfd ++
      (withGps d gps).gpsIfd ++ (withGps d gps).interoperabilityIfd).find?
        (fun e => decide (e.tag = tag))) = some e := hfound
  have htag : e.tag = tag := by
    have hdecide := List.find?_some hlist
    exact of_decide_eq_true hdecide
  rcases List.mem_append.mp hall with hall | hlast
  · rcases List.mem_append.mp hall with hfirst | hmiddle
    · exact ⟨e, List.mem_append_left _ hfirst, htag⟩
    · obtain ⟨e', he', htag'⟩ := h (htag ▸ hgps e hmiddle)
      exact ⟨e', List.mem_append_left _ he', htag'⟩
  · exact ⟨e, List.mem_append_right _ hlast, htag⟩

theorem getEntry_gps (h : ¬ HasTag (before d) e.tag) : (withGps d [e]).getEntry e.tag = some e := by
  rw [getEntry_withGps, find?_eq_none_of_not_hasTag h, Option.none_or, List.find?_cons_of_pos (by simp)]
  rfl

theorem getEntry_passed (h : HasTag (before d ++ d.interoperabilityIfd) tag) :
    ∃ found, ∀ e : ExifEntry, e.tag ≠ tag → (withGps d [e]).getEntry tag = some found := by
  obtain ⟨found, hfound⟩ := find?_of_hasTag h
  refine ⟨found, ?_⟩
  intro e hne
  have habsent : ¬ HasTag [e] tag := by
    rintro ⟨e', he', htag⟩
    exact hne (List.mem_singleton.mp he' ▸ htag)
  rw [getEntry_withGps, find?_eq_none_of_not_hasTag habsent, Option.or_none, ← List.find?_append, hfound]

end Lookup

section Setters
variable {t : Transfer} {tag subsecTag : ℕ} {d : ExifBlock} {T : Set ℕ}

theorem nonGps_plain : ∀ t ∈ nonGpsTransfers, isPlain t.setter = true := by decide +kernel

theorem mem_transfers_of_nonGps (h : t ∈ nonGpsTransfers) : t ∈ transfers := by
  rw [nonGpsTransfers, List.mem_append, List.mem_append] at h
  simp only [transfers, List.mem_append]
  tauto

theorem mem_textTags_of_string (ht : t ∈ nonGpsTransfers) (h : t.setter = .anyIfd tag .string) :
    tag ∈ textTags := by
  apply List.mem_flatMap.mpr
  refine ⟨t, ht, ?_⟩
  rw [h]
  exact List.mem_singleton_self tag

theorem mem_textTags_of_dateTime (ht : t ∈ nonGpsTransfers) (h : t.setter = .dateTime tag subsecTag) :
    tag ∈ textTags ∧ subsecTag ∈ textTags := by
  constructor
  · apply List.mem_flatMap.mpr
    refine ⟨t, ht, ?_⟩
    rw [h]
    exact List.mem_cons_self
  · apply List.mem_flatMap.mpr
    refine ⟨t, ht, ?_⟩
    rw [h]
    exact List.mem_cons_of_mem _ List.mem_cons_self

def sampleEntry (tag : ℕ) (b : UInt8) : ExifEntry where
  tag := tag
  format := .rational
  components := 1
  data := List.replicate 8 b
  length_data := List.length_replicate

theorem sampleEntry_fraction (s : Surroundings) (order : ByteOrder) (tag : ℕ) (b : UInt8) :
    exifGetRational order ((sampleEntry tag b).memory (s.behind (sampleEntry tag b))) 0 =
      decodeFraction order (List.replicate 8 b) :=
  getRational_start s (List.length_replicate (a := b)).ge

/-- Each reading tells some entries with a tag apart. -/
theorem exists_differ (s : TextLibrary) (order : ByteOrder) {r : Reading}
    (hplain : isPlain (.anyIfd tag r) = true) (htext : r = .string → tag ∈ textTags) :
    ∃ e e' : ExifEntry, e.tag = tag ∧ e'.tag = tag ∧ ∃ v v',
      (transfer s.toSurroundings order e r).stored = some v ∧
      (transfer s.toSurroundings order e' r).stored = some v' ∧ v ≠ v' := by
  have hlength : ∀ b, 4 ≤ (sampleEntry tag b).data.length := by
    intro b
    exact (by decide : 4 ≤ 8).trans_eq List.length_replicate.symm
  cases r with
  | uint32 =>
    refine ⟨sampleEntry tag 1, sampleEntry tag 2, rfl, rfl, _, _, stored_uint32 _ (hlength 1),
      stored_uint32 _ (hlength 2), ?_⟩
    change FieldValue.number (decode order ((List.replicate 8 1).take 4)) ≠
      .number (decode order ((List.replicate 8 2).take 4))
    cases order <;> decide
  | urational =>
    refine ⟨sampleEntry tag 1, sampleEntry tag 2, rfl, rfl, _, _, rfl, rfl, ?_⟩
    rw [sampleEntry_fraction, sampleEntry_fraction]
    cases order <;> decide
  | srational =>
    refine ⟨sampleEntry tag 1, sampleEntry tag 2, rfl, rfl, _, _, rfl, rfl, ?_⟩
    rw [exifGetSRational_eq, exifGetSRational_eq, sampleEntry_fraction, sampleEntry_fraction]
    cases order <;> decide
  | urationalArray3 => cases hplain
  | string =>
    obtain ⟨e, he, hone⟩ := s.shows tag (htext rfl) 0x31 (by decide)
    obtain ⟨e', he', htwo⟩ := s.shows tag (htext rfl) 0x32 (by decide)
    refine ⟨e, e', he, he', _, _, rfl, rfl, ?_⟩
    rw [hone, htwo]
    decide
  | makerNote blockSize => cases hplain

theorem value_eq_of_shielded {s : Surroundings} {gps gps' : List ExifEntry} {setter : Setter}
    (hplain : isPlain setter = true) (h : Shielded T d setter) (hgps : ∀ e ∈ gps, e.tag ∈ T)
    (hgps' : ∀ e ∈ gps', e.tag ∈ T) :
    setter.value s (withGps d gps) = setter.value s (withGps d gps') := by
  cases setter with
  | anyIfd tag reading =>
    rw [Setter.value, Setter.value, getEntry_eq h hgps hgps']
    rfl
  | dateTime tag subsecTag =>
    obtain ⟨hdate, hsubsec⟩ := h
    rw [Setter.value, Setter.value, ← getEntry_eq hdate hgps hgps']
    cases hfound : (withGps d gps).getEntry tag with
    | none => rfl
    | some e =>
      have houtside := hasTag_of_getEntry hdate hgps hfound
      rw [getEntry_eq (fun hT => hsubsec hT houtside) hgps hgps']
  | gpsIfd tag reading => cases hplain
  | whenPresent tag value => cases hplain

theorem singleton_tags {e : ExifEntry} (h : e.tag ∈ T) : ∀ e' ∈ [e], e'.tag ∈ T := by
  intro e' he'
  rwa [List.mem_singleton.mp he']

/-- A setter tells the entries with a tag in the GPS directory apart. -/
def Tells (s : TextLibrary) (d : ExifBlock) (setter : Setter) (tag : ℕ) : Prop :=
  ∃ e e' : ExifEntry, e.tag = tag ∧ e'.tag = tag ∧
    (setter.value s.toSurroundings (withGps d [e])).getD .unset ≠
      (setter.value s.toSurroundings (withGps d [e'])).getD .unset

theorem anyIfd_tells (s : TextLibrary) {r : Reading} (hplain : isPlain (.anyIfd tag r) = true)
    (htext : r = .string → tag ∈ textTags) (hno : ¬ HasTag (before d) tag) :
    Tells s d (.anyIfd tag r) tag := by
  obtain ⟨e, e', rfl, he', v, v', hv, hv', hne⟩ := exists_differ s d.order hplain htext
  have hfound' := getEntry_gps (e := e') (he' ▸ hno)
  rw [he'] at hfound'
  have hvalue : (Setter.anyIfd e.tag r).value s.toSurroundings (withGps d [e]) = some v := by
    rw [Setter.value, getEntry_gps hno]
    exact hv
  have hvalue' : (Setter.anyIfd e.tag r).value s.toSurroundings (withGps d [e']) = some v' := by
    rw [Setter.value, hfound']
    exact hv'
  refine ⟨e, e', rfl, he', ?_⟩
  rw [hvalue, hvalue']
  exact hne

theorem dateTime_tells (s : TextLibrary) (htext : tag ∈ textTags) (hno : ¬ HasTag (before d) tag)
    (subsecTag : ℕ) : Tells s d (.dateTime tag subsecTag) tag := by
  obtain ⟨e, rfl, hone⟩ := s.shows tag htext 0x31 (by decide)
  obtain ⟨e', he', htwo⟩ := s.shows _ htext 0x32 (by decide)
  have hfound' := getEntry_gps (e := e') (he' ▸ hno)
  rw [he'] at hfound'
  refine ⟨e, e', rfl, he', ?_⟩
  intro hsame
  simp only [Setter.value, getEntry_gps hno, hfound', Option.map_some, Option.getD_some, hone, htwo] at hsame
  exact absurd (FieldValue.dateTime.inj hsame).1 (by decide)

/-- The seconds of a date matter when the date is found outside the GPS directory. -/
theorem subsec_tells (s : TextLibrary) (htext : subsecTag ∈ textTags) (hne : subsecTag ≠ tag)
    (houtside : HasTag (before d ++ d.interoperabilityIfd) tag)
    (hno : ¬ HasTag (before d) subsecTag) : Tells s d (.dateTime tag subsecTag) subsecTag := by
  obtain ⟨found, hfound⟩ := getEntry_passed houtside
  obtain ⟨e, rfl, hone⟩ := s.shows subsecTag htext 0x31 (by decide)
  obtain ⟨e', he', htwo⟩ := s.shows _ htext 0x32 (by decide)
  have hsubsec' := getEntry_gps (e := e') (he' ▸ hno)
  rw [he'] at hsubsec'
  refine ⟨e, e', rfl, he', ?_⟩
  intro hsame
  simp only [Setter.value, hfound e hne, hfound e' (he' ▸ hne), getEntry_gps hno, hsubsec',
    Option.map_some, Option.getD_some, hone, htwo] at hsame
  exact absurd (FieldValue.dateTime.inj hsame).2 (by decide)

theorem shielded_of_not_tells (s : TextLibrary) (ht : t ∈ nonGpsTransfers)
    (h : ∀ tag ∈ T, ¬ Tells s d t.setter tag) : Shielded T d t.setter := by
  have hplain := nonGps_plain t ht
  cases hsetter : t.setter with
  | anyIfd tag reading =>
    rw [hsetter] at h hplain
    intro hT
    by_contra hno
    have htext : reading = .string → tag ∈ textTags := by
      rintro rfl
      exact mem_textTags_of_string ht hsetter
    exact h tag hT (anyIfd_tells s hplain htext hno)
  | dateTime tag subsecTag =>
    rw [hsetter] at h hplain
    have hne : subsecTag ≠ tag := of_decide_eq_true hplain
    obtain ⟨hdateText, hsubsecText⟩ := mem_textTags_of_dateTime ht hsetter
    constructor
    · intro hT
      by_contra hno
      exact h tag hT (dateTime_tells s hdateText hno subsecTag)
    · intro hT houtside
      by_contra hno
      exact h subsecTag hT (subsec_tells s hsubsecText hne houtside hno)
  | gpsIfd tag reading => trivial
  | whenPresent tag value => trivial

end Setters

/-- The GPS directory stays apart from the other fields exactly when every tag that it may hold is
found before it, where a setter looks for that tag. -/
theorem gps_stays_apart_iff (s : TextLibrary) (T : Set ℕ) (d : ExifBlock) :
    GpsStaysApart s.toSurroundings T d ↔ ∀ t ∈ nonGpsTransfers, Shielded T d t.setter := by
  constructor
  · intro h t ht
    apply shielded_of_not_tells s ht
    rintro tag hT ⟨e, e', he, he', hne⟩
    apply hne
    have hsame := h [e] [e'] (singleton_tags (he ▸ hT)) (singleton_tags (he' ▸ hT)) t ht
    rwa [writeMetadata_dest (mem_transfers_of_nonGps ht), writeMetadata_dest (mem_transfers_of_nonGps ht)]
      at hsame
  · intro h gps gps' hgps hgps' t ht
    rw [writeMetadata_dest (mem_transfers_of_nonGps ht), writeMetadata_dest (mem_transfers_of_nonGps ht),
      value_eq_of_shielded (nonGps_plain t ht) (h t ht) hgps hgps']

def letterEntry (tag : ℕ) (c : UInt8) : ExifEntry where
  tag := tag
  format := .ascii
  components := 2
  data := [c, 0]
  length_data := rfl

def asciiLibrary : TextLibrary where
  behind := fun _ _ => 0
  entryValue := fun e => e.data
  stray := fun _ => []
  freshBlock := fun _ => 0
  shows := by
    intro tag _ c hc
    refine ⟨letterEntry tag c, rfl, ?_⟩
    rcases List.mem_cons.mp hc with rfl | hc
    · rfl
    · rw [List.mem_singleton.mp hc]
      rfl

/-- The reference of the latitude is taken for the interoperability index. -/
theorem latitude_ref_leaks : ¬ ∀ (s : TextLibrary) (T : Set ℕ) (d : ExifBlock),
    GpsStaysApart s.toSurroundings T d := by
  intro h
  let d : ExifBlock :=
    { order := .motorola, ifd0 := [], ifd1 := [], exifIfd := [], gpsIfd := [], interoperabilityIfd := [] }
  have hmem : setDngTagString 1 .fInteroperabilityIndex ∈ nonGpsTransfers :=
    List.mem_append_right _ List.mem_cons_self
  have hsame := h asciiLibrary {tag | tag ≤ 0x1e} d [letterEntry 1 0x4e] [letterEntry 1 0x53]
    (singleton_tags (by decide)) (singleton_tags (by decide)) _ hmem
  rw [writeMetadata_dest (mem_transfers_of_nonGps hmem), writeMetadata_dest (mem_transfers_of_nonGps hmem)]
    at hsame
  exact absurd hsame (by decide)

end Jp4Tools.GpsSeparation
