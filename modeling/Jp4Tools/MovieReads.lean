import Jp4Tools.MovieConversion

/-!
# Packets that fail to come

The loop of `main` writes a file in every round, whether or not `av_read_frame` delivered a packet,
and only a packet moves the iterator on. A movie that holds less than its frame count promises is
therefore converted without end, from memory that is freed, or until something else ends the run.
-/

namespace Jp4Tools.MovieReads
open MachineIntegers WhileLoops MovieFrames MovieConversion

/-- In every run the loop begins at most as many rounds as announced, every file it writes holds
what `av_read_frame` delivered in the same round, and the run ends. -/
def ConversionSafe (w : World) (o : Options) (names : ℤ → FileNames) (files : FileSystem) : Prop :=
  (∀ fuel run, convertMovie w o names files fuel = some run →
    (run.outcome.rounds : ℤ) ≤ run.announced ∧
      ∀ r ∈ run.outcome.state.records, r.returned = some r.bytes) ∧
  ∃ fuel, ∀ run, convertMovie w o names files fuel = some run → run.outcome.finished = true

def goodRound (w : World) (k : ℕ) : Prop := w.fopenOk k = true ∧ w.convertOk k = true

/-- Every packet of the range can be read, up to the first round that ends the run. When the current
frame would wrap around after the last frame, some round of the range has to end the run. -/
def ReadsSuffice (w : World) (o : Options) : Prop :=
  (∀ k : ℕ, k < frameCount (nFrames w.movie) o → (∀ j < k, goodRound w j) → w.fopenOk k = true →
    (w.movie.readFrame ((firstFrame o - 1).toNat + k)).isSome = true) ∧
  (firstFrame o + frameCount (nFrames w.movie) o = 2 ^ 31 →
    ∃ k : ℕ, k < frameCount (nFrames w.movie) o ∧ ¬ goodRound w k)

def Fresh (c : Conversion) : Prop := ∀ r ∈ c.records, r.returned = some r.bytes

variable {w : World} {o : Options} {names : ℤ → FileNames} {files : FileSystem}

theorem ConversionSafe.frameLoop (hsafe : ConversionSafe w o names files)
    (h : ¬ rejected w.movie o) (fuel : ℕ) :
    ((frameLoop w o names fuel (startConversion w o files)).rounds : ℤ) ≤
        announcedFrames (nFrames w.movie) (firstFrame o) o.nFrames.value ∧
      Fresh (frameLoop w o names fuel (startConversion w o files)).state :=
  hsafe.1 fuel _ (convertMovie_eq h fuel)

theorem start_fresh : Fresh (startConversion w o files) := by
  intro r hr
  cases hr

theorem Fresh.append {c c' : Conversion} (hc : Fresh c) {r : FrameRecord}
    (hrecords : c'.records = c.records ++ [r]) (hr : r.returned = some r.bytes) : Fresh c' := by
  intro r' hr'
  rw [hrecords, List.mem_append, List.mem_singleton] at hr'
  rcases hr' with hr' | rfl
  · exact hc r' hr'
  · exact hr

theorem frameLoop_reaches (names : ℤ → FileNames) (files : FileSystem)
    (h : ¬ rejected w.movie o) (hn : 0 ≤ o.nFrames.value) (hmovie : nFrames w.movie < 2 ^ 31)
    {k : ℕ} (hk : k ≤ frameCount (nFrames w.movie) o) (hgood : ∀ j < k, goodRound w j)
    (hread : ∀ j < k, (w.movie.readFrame ((firstFrame o - 1).toNat + j)).isSome = true) :
    ∃ c, AtRound w o k c ∧ ∀ fuel, frameLoop w o names (k + fuel) (startConversion w o files) =
      (frameLoop w o names fuel c).after k := by
  apply whileLoop_reaches (AtRound w o) k (start_atRound h hn hmovie files)
  intro t ht c hc
  obtain ⟨bytes, hbytes⟩ := Option.isSome_iff_exists.mp (hread t ht)
  obtain ⟨c', hstep, hc', -⟩ :=
    hc.step names h hmovie (by omega) (hgood t ht).1 (hgood t ht).2 hbytes
  exact ⟨hc.hasNext_inside h hmovie (by omega), c', hstep, hc'⟩

theorem frameLoop_step (names : ℤ → FileNames) (h : ¬ rejected w.movie o) (hmovie : nFrames w.movie < 2 ^ 31) {t : ℕ}
    {c : Conversion} (hc : AtRound w o t c) (hfresh : Fresh c)
    (ht : t < frameCount (nFrames w.movie) o)
    (hread : w.fopenOk t = true →
      (w.movie.readFrame ((firstFrame o - 1).toNat + t)).isSome = true) :
    (∃ c', convertFrame w o names c = .next c' ∧ AtRound w o (t + 1) c' ∧ Fresh c' ∧ goodRound w t) ∨
      ∃ c', convertFrame w o names c = .stop c' ∧ Fresh c' := by
  have hlen := hc.length_records
  cases hopen : w.fopenOk t with
  | false =>
    obtain ⟨c', hstep, hrecords⟩ := convertFrame_unopened o names (by rwa [hlen])
    refine Or.inr ⟨c', hstep, ?_⟩
    intro r hr
    exact hfresh r (hrecords ▸ hr)
  | true =>
    obtain ⟨bytes, hbytes⟩ := Option.isSome_iff_exists.mp (hread hopen)
    cases hconvert : w.convertOk t with
    | false =>
      obtain ⟨c', hstep, hrecords⟩ := convertFrame_aborted o names
        (hc.hasNext_inside h hmovie ht) (by rwa [hlen]) (by rwa [hlen]) (by rwa [hc.position_eq])
      exact Or.inr ⟨c', hstep, hfresh.append hrecords rfl⟩
    | true =>
      obtain ⟨c', hstep, hc', -, -, hrecords, -⟩ :=
        hc.step names h hmovie ht hopen hconvert hbytes
      exact Or.inl ⟨c', hstep, hc', hfresh.append hrecords rfl, hopen, hconvert⟩

structure SafeRound (w : World) (o : Options) (t : ℕ) (c : Conversion) : Prop where
  atRound : AtRound w o t c
  fresh : Fresh c
  good : ∀ j < t, goodRound w j

theorem start_safeRound (h : ¬ rejected w.movie o) (hn : 0 ≤ o.nFrames.value)
    (hmovie : nFrames w.movie < 2 ^ 31) : SafeRound w o 0 (startConversion w o files) where
  atRound := start_atRound h hn hmovie files
  fresh := start_fresh
  good := by
    intro j hj
    omega

/-- When the packets can be read, the loop is over after the announced rounds at the latest. -/
theorem frameLoop_bounded (names : ℤ → FileNames) (files : FileSystem)
    (h : ¬ rejected w.movie o) (hn : 0 ≤ o.nFrames.value) (hmovie : nFrames w.movie < 2 ^ 31)
    (hreads : ReadsSuffice w o) {m : ℕ} (hm : frameCount (nFrames w.movie) o = m) (fuel : ℕ) :
    (frameLoop w o names fuel (startConversion w o files)).rounds ≤ m ∧
      Fresh (frameLoop w o names fuel (startConversion w o files)).state ∧
      (m < fuel → (frameLoop w o names fuel (startConversion w o files)).finished = true) := by
  obtain ⟨hread, hwrap⟩ := hreads
  have hend : ∀ c, SafeRound w o m c → hasNext c.it = false := by
    intro c hc
    rw [hc.atRound.hasNext_end h hmovie hm.symm]
    apply decide_eq_false
    intro hlast
    obtain ⟨k, hk, hbad⟩ := hwrap hlast
    exact hbad (hc.good k (by omega))
  have hstep : ∀ t < m, ∀ c, SafeRound w o t c → hasNext c.it = true →
      (∃ c', convertFrame w o names c = .next c' ∧ SafeRound w o (t + 1) c') ∨
        ∃ c', convertFrame w o names c = .stop c' ∧ Fresh c' := by
    intro t ht c hc _
    rcases frameLoop_step names h hmovie hc.atRound hc.fresh (by omega)
      (hread t (by omega) hc.good) with ⟨c', hnext, hc', hfresh, hnew⟩ | hstop
    · refine Or.inl ⟨c', hnext, hc', hfresh, ?_⟩
      intro j hj
      rcases Nat.lt_succ_iff_lt_or_eq.mp hj with hj | rfl
      · exact hc.good j hj
      · exact hnew
    · exact Or.inr hstop
  obtain ⟨hrounds, hfresh, hfinish⟩ := whileLoop_bounded (SafeRound w o) Fresh m
    (fun t c hc => hc.fresh) hend hstep fuel 0 (Nat.zero_le m) _ (start_safeRound h hn hmovie)
  exact ⟨hrounds, hfresh, fun hfuel => hfinish (by omega)⟩

theorem safe_of_reads (h : ¬ rejected w.movie o) (hn : 0 ≤ o.nFrames.value)
    (hmovie : nFrames w.movie < 2 ^ 31) (hreads : ReadsSuffice w o) :
    ConversionSafe w o names files := by
  obtain ⟨m, hm⟩ := Int.eq_ofNat_of_zero_le (frameCount_spec (firstFrame_le h)).1
  have hbounded := frameLoop_bounded names files h hn hmovie hreads hm
  have hannounced := announcedFrames_eq h hn (by omega)
  constructor
  · intro fuel run hrun
    obtain ⟨hrounds, hfresh, -⟩ := hbounded fuel
    rw [convertMovie_eq h, hannounced, hm] at hrun
    cases hrun
    exact ⟨Int.ofNat_le.mpr hrounds, hfresh⟩
  · refine ⟨m + 1, ?_⟩
    intro run hrun
    obtain ⟨-, -, hfinish⟩ := hbounded (m + 1)
    rw [convertMovie_eq h] at hrun
    cases hrun
    exact hfinish (Nat.lt_succ_self m)

theorem safe_of_long (h : ¬ rejected w.movie o) (hmovie : 2 ^ 31 ≤ nFrames w.movie)
    (hcount : 0 ≤ announcedFrames (nFrames w.movie) (firstFrame o) o.nFrames.value) :
    ConversionSafe w o names files := by
  have hdone := start_long hmovie hcount files
  constructor
  · intro fuel run hrun
    rw [convertMovie_eq h] at hrun
    cases hrun
    cases fuel with
    | zero => exact ⟨hcount, start_fresh⟩
    | succ fuel =>
      rw [frameLoop_done o names hdone]
      exact ⟨hcount, start_fresh⟩
  · refine ⟨1, ?_⟩
    intro run hrun
    rw [convertMovie_eq h] at hrun
    cases hrun
    rw [frameLoop_done o names hdone]

/-- Without announced frames below zero, the number of frames is one that the options ask for, or
the sum `nFrames() + 1` wraps around. -/
theorem announcedFrames_nonneg_iff (h : ¬ rejected w.movie o) :
    0 ≤ announcedFrames (nFrames w.movie) (firstFrame o) o.nFrames.value ↔
      0 ≤ o.nFrames.value ∨
        (nFrames w.movie = 2 ^ 32 - 1 ∧ 0 < firstFrame o + o.nFrames.value) := by
  have hle := firstFrame_le h
  have hlt := nFrames_lt w.movie
  rcases Nat.lt_or_ge (nFrames w.movie + 1) (2 ^ 32) with hsmall | hwrap
  · simp only [announcedFrames, u32_of_lt hsmall]
    push_cast
    split_ifs <;> omega
  · have hmax : nFrames w.movie = 2 ^ 32 - 1 := by omega
    have hzero : u32 (2 ^ 32 - 1 + 1) = 0 := rfl
    simp only [announcedFrames, hmax, hzero, true_and] at hle ⊢
    push_cast at hle ⊢
    split_ifs <;> omega

theorem reads_of_safe (hsafe : ConversionSafe w o names files) (h : ¬ rejected w.movie o)
    (hn : 0 ≤ o.nFrames.value) (hmovie : nFrames w.movie < 2 ^ 31) (k : ℕ)
    (hk : k < frameCount (nFrames w.movie) o) (hgood : ∀ j < k, goodRound w j)
    (hopen : w.fopenOk k = true) :
    (w.movie.readFrame ((firstFrame o - 1).toNat + k)).isSome = true := by
  induction k using Nat.strong_induction_on with
  | h k ih =>
    have hread : ∀ j < k, (w.movie.readFrame ((firstFrame o - 1).toNat + j)).isSome = true := by
      intro j hj
      exact ih j hj (by omega) (fun i hi => hgood i (by omega)) (hgood j hj).1
    obtain ⟨c, hc, hrun⟩ := frameLoop_reaches names files h hn hmovie
      (by omega) hgood hread
    cases hnone : w.movie.readFrame ((firstFrame o - 1).toNat + k) with
    | some bytes => rfl
    | none =>
      -- the round writes a file all the same, and the run is not safe
      obtain ⟨r, hrecords, hr⟩ := convertFrame_unread o names
        (by rwa [hc.length_records]) (by rwa [hc.position_eq])
      obtain ⟨hstate, -⟩ :=
        frameLoop_one (w := w) o names (hc.hasNext_inside h hmovie hk)
      obtain ⟨-, hfresh⟩ := hsafe.frameLoop h (k + 1)
      have hmem : r ∈ (frameLoop w o names (k + 1) (startConversion w o files)).state.records := by
        rw [hrun, Outcome.after_state, hstate, hrecords]
        exact List.mem_append_right _ (List.mem_singleton_self r)
      have hbytes := hfresh r hmem
      rw [hr] at hbytes
      cases hbytes

theorem ends_of_safe (hsafe : ConversionSafe w o names files) (h : ¬ rejected w.movie o)
    (hn : 0 ≤ o.nFrames.value) (hmovie : nFrames w.movie < 2 ^ 31)
    (hlast : firstFrame o + frameCount (nFrames w.movie) o = 2 ^ 31) :
    ∃ k : ℕ, k < frameCount (nFrames w.movie) o ∧ ¬ goodRound w k := by
  by_contra hall
  push Not at hall
  obtain ⟨m, hm⟩ := Int.eq_ofNat_of_zero_le (frameCount_spec (firstFrame_le h)).1
  have hgood : ∀ j < m, goodRound w j := fun j hj => hall j (by omega)
  have hread : ∀ j < m, (w.movie.readFrame ((firstFrame o - 1).toNat + j)).isSome = true := by
    intro j hj
    exact reads_of_safe hsafe h hn hmovie j (by omega) (fun i hi => hgood i (by omega)) (hgood j hj).1
  obtain ⟨c, hc, hrun⟩ := frameLoop_reaches names files h hn hmovie
    (k := m) (by omega) hgood hread
  have hnext : hasNext c.it = true := by
    rw [hc.hasNext_end h hmovie hm.symm, decide_eq_true hlast]
  obtain ⟨-, hone⟩ := frameLoop_one (w := w) o names hnext
  obtain ⟨hrounds, -⟩ := hsafe.frameLoop h (m + 1)
  have hannounced := announcedFrames_eq h hn (by omega)
  rw [hrun, Outcome.after_rounds, hone, hannounced, hm] at hrounds
  push_cast at hrounds
  omega

/-- The conversion stops and writes fresh data exactly when the start frame is rejected, or the
frame count is negative as an `int` and no negative number is announced, or else the number of
frames asked for is not negative and the packets of the range can be read. -/
theorem conversion_safe_iff (w : World) (o : Options) (names : ℤ → FileNames) (files : FileSystem) :
    ConversionSafe w o names files ↔
      rejected w.movie o ∨
      (2 ^ 31 ≤ nFrames w.movie ∧ (0 ≤ o.nFrames.value ∨
        (nFrames w.movie = 2 ^ 32 - 1 ∧ 0 < firstFrame o + o.nFrames.value))) ∨
      (nFrames w.movie < 2 ^ 31 ∧ 0 ≤ o.nFrames.value ∧ ReadsSuffice w o) := by
  constructor
  · intro hsafe
    by_cases h : rejected w.movie o
    · exact Or.inl h
    · obtain ⟨hcount, -⟩ := hsafe.frameLoop h 0
      have hnonneg := (announcedFrames_nonneg_iff h).mp hcount
      rcases Nat.lt_or_ge (nFrames w.movie) (2 ^ 31) with hmovie | hmovie
      · have hn : 0 ≤ o.nFrames.value := by omega
        exact Or.inr (Or.inr ⟨hmovie, hn, reads_of_safe hsafe h hn hmovie,
          ends_of_safe hsafe h hn hmovie⟩)
      · exact Or.inr (Or.inl ⟨hmovie, hnonneg⟩)
  · intro hcond
    by_cases h : rejected w.movie o
    · have hnone : ∀ fuel, convertMovie w o names files fuel = none := fun fuel => if_pos h
      constructor
      · intro fuel run hrun
        rw [hnone] at hrun
        cases hrun
      · refine ⟨0, ?_⟩
        intro run hrun
        rw [hnone] at hrun
        cases hrun
    · rcases hcond with hrejected | ⟨hmovie, hnonneg⟩ | ⟨hmovie, hn, hreads⟩
      · exact absurd hrejected h
      · have hcount := (announcedFrames_nonneg_iff h).mpr hnonneg
        exact safe_of_long h hmovie hcount
      · exact safe_of_reads h hn hmovie hreads

/-- A movie that promises two frames and holds one: the second file is written from the packet of
the first, which is freed. -/
theorem short_movie_unsafe : ¬ ∀ (w : World) (o : Options) (names : ℤ → FileNames)
    (files : FileSystem), ConversionSafe w o names files := by
  intro h
  let w : World :=
    { movie := { nbFrames := 2, readFrame := fun i => if i = 0 then some [0xff, 0xd8] else none }
      freed := fun _ => [0, 0]
      fopenOk := fun _ => true
      convertOk := fun _ => true
      convert := fun _ bytes => bytes }
  let o : Options :=
    { startFrame := ⟨0, by decide, by decide⟩
      nFrames := ⟨0, by decide, by decide⟩
      countFrame := ⟨-1, by decide, by decide⟩
      saveJp4 := true
      saves := fun _ => false
      gui := false }
  have hsafe := h w o (fun _ => ⟨['f', '.', 'j', 'p', '4'], fun _ => []⟩) (fun _ => none)
  have hread := reads_of_safe hsafe (by decide) (by decide) (by decide) 1 (by decide)
    (fun _ _ => ⟨rfl, rfl⟩) rfl
  exact absurd hread (by decide)

end Jp4Tools.MovieReads
