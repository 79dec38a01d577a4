import Mathlib.Data.Nat.Notation
import Mathlib.Logic.Function.Iterate
import Mathlib.Order.Basic

/-!
# Runs of while loops

A C loop `while (cond) body` is run for a number of rounds that `fuel` bounds. The body goes on to
the next test or leaves the loop by `return` or `exit`. An invariant that is indexed by the round
describes how far the loop gets, and a bound on its rounds.
-/

namespace Jp4Tools.WhileLoops

variable {σ : Type*}

/-- A round goes on to the next test of the condition, or leaves the loop. -/
inductive Round (σ : Type*) where
  | next (s : σ)
  | stop (s : σ)

def Round.state : Round σ → σ
  | .next s => s
  | .stop s => s

/-- The state that was reached, whether the loop is over, and how many rounds it has begun. -/
structure Outcome (σ : Type*) where
  state : σ
  finished : Bool
  rounds : ℕ

def Outcome.after (n : ℕ) (o : Outcome σ) : Outcome σ := { o with rounds := o.rounds + n }

@[simp] theorem Outcome.after_state (n : ℕ) (o : Outcome σ) : (o.after n).state = o.state := rfl

@[simp] theorem Outcome.after_rounds (n : ℕ) (o : Outcome σ) :
    (o.after n).rounds = o.rounds + n := rfl

def whileLoop (cond : σ → Bool) (body : σ → Round σ) : ℕ → σ → Outcome σ
  | 0, s => ⟨s, false, 0⟩
  | fuel + 1, s =>
    if cond s then
      match body s with
      | .next s' => (whileLoop cond body fuel s').after 1
      | .stop s' => ⟨s', true, 1⟩
    else ⟨s, true, 0⟩

section Rounds
variable {cond : σ → Bool} {body : σ → Round σ}

theorem whileLoop_next {s s' : σ} (hcond : cond s = true) (hbody : body s = .next s') (fuel : ℕ) :
    whileLoop cond body (fuel + 1) s = (whileLoop cond body fuel s').after 1 := by
  simp only [whileLoop, hcond, hbody, if_true]

theorem whileLoop_stop {s s' : σ} (hcond : cond s = true) (hbody : body s = .stop s') (fuel : ℕ) :
    whileLoop cond body (fuel + 1) s = ⟨s', true, 1⟩ := by
  simp only [whileLoop, hcond, hbody, if_true]

theorem whileLoop_done {s : σ} (hcond : cond s = false) (fuel : ℕ) :
    whileLoop cond body (fuel + 1) s = ⟨s, true, 0⟩ := by
  simp [whileLoop, hcond]

theorem whileLoop_one {s : σ} (hcond : cond s = true) :
    (whileLoop cond body 1 s).state = (body s).state ∧ (whileLoop cond body 1 s).rounds = 1 := by
  cases hbody : body s with
  | next s' =>
    rw [← Nat.zero_add 1, whileLoop_next hcond hbody]
    exact ⟨rfl, rfl⟩
  | stop s' =>
    rw [← Nat.zero_add 1, whileLoop_stop hcond hbody]
    exact ⟨rfl, rfl⟩

theorem whileLoop_add (fuel extra : ℕ) (s : σ) (h : (whileLoop cond body fuel s).finished = true) :
    whileLoop cond body (fuel + extra) s = whileLoop cond body fuel s := by
  induction fuel generalizing s with
  | zero => simp [whileLoop] at h
  | succ fuel ih =>
    rw [Nat.add_right_comm]
    cases hcond : cond s with
    | false => rw [whileLoop_done hcond, whileLoop_done hcond]
    | true =>
      cases hbody : body s with
      | next s' =>
        rw [whileLoop_next hcond hbody] at h ⊢
        rw [whileLoop_next hcond hbody, ih s' h]
      | stop s' => rw [whileLoop_stop hcond hbody, whileLoop_stop hcond hbody]

theorem whileLoop_unique {fuel fuel' : ℕ} {s : σ} (h : (whileLoop cond body fuel s).finished = true)
    (h' : (whileLoop cond body fuel' s).finished = true) :
    whileLoop cond body fuel s = whileLoop cond body fuel' s := by
  rw [← whileLoop_add fuel fuel' s h, Nat.add_comm, whileLoop_add fuel' fuel s h']

/-- A body that does nothing when the condition fails may as well be run in every round. -/
theorem whileLoop_iterate {f : σ → σ} (hfix : ∀ s, cond s = false → f s = s) (fuel : ℕ) (s : σ) :
    (whileLoop cond (fun s => .next (f s)) fuel s).state = f^[fuel] s ∧
      (whileLoop cond (fun s => .next (f s)) (fuel + 1) s).finished = !cond (f^[fuel] s) := by
  induction fuel generalizing s with
  | zero => cases hcond : cond s <;> simp [whileLoop, Outcome.after, hcond]
  | succ fuel ih =>
    cases hcond : cond s with
    | false =>
      have hstay : f^[fuel + 1] s = s := Function.iterate_fixed (hfix s hcond) (fuel + 1)
      rw [whileLoop_done hcond, whileLoop_done hcond, hstay, hcond]
      exact ⟨rfl, rfl⟩
    | true =>
      have hround : ∀ n, whileLoop cond (fun s => .next (f s)) (n + 1) s =
          (whileLoop cond (fun s => .next (f s)) n (f s)).after 1 := by
        intro n
        simp only [whileLoop, hcond, if_true]
      rw [hround, hround, Function.iterate_succ_apply]
      exact ih (f s)

/-- What every round preserves holds of the state that the loop reaches. -/
theorem whileLoop_invariant (Inv : σ → Prop) (hbody : ∀ s, Inv s → Inv (body s).state)
    (fuel : ℕ) (s : σ) (hs : Inv s) : Inv (whileLoop cond body fuel s).state := by
  induction fuel generalizing s with
  | zero => exact hs
  | succ fuel ih =>
    cases hcond : cond s with
    | false =>
      rw [whileLoop_done hcond]
      exact hs
    | true =>
      have hround := hbody s hs
      cases hstep : body s with
      | next s' =>
        rw [hstep] at hround
        rw [whileLoop_next hcond hstep, Outcome.after_state]
        exact ih s' hround
      | stop s' =>
        rw [hstep] at hround
        rw [whileLoop_stop hcond hstep]
        exact hround

/-- An invariant indexed by the round takes the loop through its first `n` rounds. -/
theorem whileLoop_reaches (Inv : ℕ → σ → Prop) (n : ℕ) {s : σ} (hs : Inv 0 s)
    (hstep : ∀ t < n, ∀ s, Inv t s → cond s = true ∧ ∃ s', body s = .next s' ∧ Inv (t + 1) s') :
    ∃ s', Inv n s' ∧ ∀ fuel, whileLoop cond body (n + fuel) s = (whileLoop cond body fuel s').after n := by
  induction n with
  | zero => exact ⟨s, hs, fun fuel => by rw [Nat.zero_add]; rfl⟩
  | succ n ih =>
    obtain ⟨s', hinv, hrun⟩ := ih (fun t ht => hstep t (by omega))
    obtain ⟨hcond, s'', hbody, hinv'⟩ := hstep n (Nat.lt_succ_self n) s' hinv
    refine ⟨s'', hinv', ?_⟩
    intro fuel
    rw [Nat.add_assoc, Nat.add_comm 1 fuel, hrun, whileLoop_next hcond hbody]
    simp only [Outcome.after, Nat.add_assoc, Nat.add_comm 1 n]

/-- A loop whose condition fails after `bound` rounds at the latest begins no more than these, is
over with enough fuel, and reaches only states with the property `Post`. -/
theorem whileLoop_bounded (Inv : ℕ → σ → Prop) (Post : σ → Prop) (bound : ℕ)
    (hpost : ∀ t s, Inv t s → Post s) (hend : ∀ s, Inv bound s → cond s = false)
    (hstep : ∀ t < bound, ∀ s, Inv t s → cond s = true →
      (∃ s', body s = .next s' ∧ Inv (t + 1) s') ∨ ∃ s', body s = .stop s' ∧ Post s')
    (fuel t : ℕ) (ht : t ≤ bound) (s : σ) (hs : Inv t s) :
    (whileLoop cond body fuel s).rounds + t ≤ bound ∧ Post (whileLoop cond body fuel s).state ∧
      (bound < t + fuel → (whileLoop cond body fuel s).finished = true) := by
  induction fuel generalizing t s with
  | zero => exact ⟨by simpa [whileLoop] using ht, hpost t s hs, by omega⟩
  | succ fuel ih =>
    cases hcond : cond s with
    | false =>
      rw [whileLoop_done hcond]
      exact ⟨by simpa using ht, hpost t s hs, fun _ => rfl⟩
    | true =>
      have hlt : t < bound := by
        rcases Nat.lt_or_eq_of_le ht with hlt | rfl
        · exact hlt
        · rw [hend s hs] at hcond
          cases hcond
      rcases hstep t hlt s hs hcond with ⟨s', hbody, hinv⟩ | ⟨s', hbody, hfinal⟩
      · obtain ⟨hrounds, hstate, hfinish⟩ := ih (t + 1) hlt s' hinv
        rw [whileLoop_next hcond hbody]
        refine ⟨?_, hstate, ?_⟩
        · rw [Outcome.after_rounds]
          omega
        · intro hfuel
          exact hfinish (by omega)
      · rw [whileLoop_stop hcond hbody]
        exact ⟨by simp only; omega, hfinal, fun _ => rfl⟩

end Rounds

end Jp4Tools.WhileLoops
