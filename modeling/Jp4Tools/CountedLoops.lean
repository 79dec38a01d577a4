import Mathlib.Data.List.Flatten
import Mathlib.Data.List.Range

/-!
# Traces of counted loops

A C loop `for (s = s₀; cond s; s = next s) body s` is observed through the trace
its body leaves behind. The loop variables, running offsets included, form the
state `s`. A loop whose states are known in closed form has the trace of a plain
iteration over its round number.
-/

namespace Jp4Tools.CountedLoops

variable {σ τ : Type*}

/-- The trace of `for (s = s₀; cond s; s = next s) body s`, cut after `fuel` rounds. -/
def forLoop (cond : σ → Bool) (next : σ → σ) (body : σ → List τ) : ℕ → σ → List τ
  | 0, _ => []
  | fuel + 1, s => if cond s then body s ++ forLoop cond next body fuel (next s) else []

variable (cond : σ → Bool) (next : σ → σ) (body : σ → List τ)

private theorem forLoop_from (state : ℕ → σ) (rounds fuel start : ℕ)
    (hnext : ∀ t < start + rounds, next (state t) = state (t + 1))
    (hrun : ∀ t < start + rounds, cond (state t) = true)
    (hstop : cond (state (start + rounds)) = false) (hfuel : rounds ≤ fuel) :
    forLoop cond next body fuel (state start) =
      (List.range' start rounds).flatMap (fun t => body (state t)) := by
  induction rounds generalizing fuel start with
  | zero =>
    cases fuel with
    | zero => rfl
    | succ fuel =>
      have hs : cond (state start) = false := hstop
      simp [forLoop, hs]
  | succ rounds ih =>
    obtain ⟨fuel, rfl⟩ : ∃ k, fuel = k + 1 := ⟨fuel - 1, by omega⟩
    have hc : cond (state start) = true := hrun start (by omega)
    have hs : next (state start) = state (start + 1) := hnext start (by omega)
    have htail := ih fuel (start + 1) (fun t ht => hnext t (by omega))
      (fun t ht => hrun t (by omega)) (by rwa [Nat.add_right_comm]) (by omega)
    simp only [forLoop, hc, if_true, hs, htail, List.range'_succ, List.flatMap_cons]

/-- A loop that runs through `state 0, …, state (rounds - 1)` and then stops leaves
the bodies of exactly these states behind, in order. -/
theorem forLoop_eq_flatMap (state : ℕ → σ) (rounds fuel : ℕ)
    (hnext : ∀ t < rounds, next (state t) = state (t + 1))
    (hrun : ∀ t < rounds, cond (state t) = true)
    (hstop : cond (state rounds) = false) (hfuel : rounds ≤ fuel) :
    forLoop cond next body fuel (state 0) =
      (List.range rounds).flatMap (fun t => body (state t)) := by
  have h := forLoop_from cond next body state rounds fuel 0 (by simpa using hnext)
    (by simpa using hrun) (by simpa using hstop) hfuel
  rwa [← List.range_eq_range'] at h

theorem forLoop_count {n : ℕ} (next : ℕ → ℕ) (hnext : ∀ i < n, next i = i + 1) (body : ℕ → List τ) :
    forLoop (fun i => decide (i < n)) next body n 0 = (List.range n).flatMap body := by
  apply forLoop_eq_flatMap _ _ _ (fun i => i) n n hnext
  · intro i hi
    exact decide_eq_true hi
  · exact decide_eq_false (lt_irrefl n)
  · exact le_rfl

theorem ceilDiv_le (n : ℕ) {step : ℕ} (hstep : 0 < step) : (n + step - 1) / step ≤ n := by
  cases n with
  | zero => exact (Nat.div_eq_of_lt (by omega)).le
  | succ n =>
    have h := Nat.mul_le_mul_right n hstep
    apply Nat.div_le_of_le_mul
    rw [Nat.mul_succ]
    omega

/-- A loop whose counter starts at zero and advances by `step` while it is below `n`
visits the multiples of `step` below `n`; the other variables may run along. -/
theorem forLoop_stride (counter : σ → ℕ) (state : ℕ → σ) (n step fuel : ℕ) (hstep : 0 < step)
    (hcounter : ∀ t ≤ (n + step - 1) / step, counter (state t) = step * t)
    (hnext : ∀ t < (n + step - 1) / step, next (state t) = state (t + 1)) (hfuel : n ≤ fuel) :
    forLoop (fun s => decide (counter s < n)) next body fuel (state 0) =
      (List.range ((n + step - 1) / step)).flatMap (fun t => body (state t)) := by
  refine forLoop_eq_flatMap _ next body state _ fuel hnext (fun t ht => ?_) ?_
    ((ceilDiv_le n hstep).trans hfuel)
  · have h : (t + 1) * step ≤ n + step - 1 := (Nat.le_div_iff_mul_le hstep).mp ht
    rw [Nat.succ_mul, Nat.mul_comm] at h
    simp only [hcounter t ht.le, decide_eq_true_eq]
    omega
  · have h := Nat.lt_mul_div_succ (n + step - 1) hstep
    rw [Nat.mul_succ] at h
    simp only [hcounter _ le_rfl, decide_eq_false_iff_not, not_lt]
    omega

end Jp4Tools.CountedLoops
