import Mathlib.Order.Lattice
import Mathlib.Order.Monotone.Basic

/-!
# Scanning a table with a persistent cursor

A C loop `while (table[c + 1] < v && c < stop) c++;` reads the table before it looks at the
cursor. The cursor is kept from one query `v` to the next. When the queries do not decrease, it
stops below `stop` exactly when some entry reaches the query.
-/

namespace Jp4Tools.CursorScan

variable {α : Type*} [LinearOrder α] (table : ℕ → α) (stop : ℕ)

/-- The cursor after `while (table[c + 1] < v && c < stop) c++;`. -/
def advance (v : α) (c : ℕ) : ℕ :=
  if table (c + 1) < v ∧ c < stop then advance v (c + 1) else c
termination_by stop - c

def guardReads (v : α) (c : ℕ) : List ℕ :=
  (c + 1) :: if table (c + 1) < v ∧ c < stop then guardReads v (c + 1) else []
termination_by stop - c

def cursorAt (query : ℕ → α) : ℕ → ℕ
  | 0 => 0
  | i + 1 => advance table stop (query i) (cursorAt query i)

section OneQuery
variable {table : ℕ → α} {stop : ℕ} {v : α} {c : ℕ}

theorem le_advance : c ≤ advance table stop v c := by
  induction c using advance.induct table stop v with
  | case1 c h ih =>
    rw [advance, if_pos h]
    omega
  | case2 c h => rw [advance, if_neg h]

theorem advance_passed {j : ℕ} (hj : c ≤ j) (hlt : j < advance table stop v c) :
    table (j + 1) < v := by
  induction c using advance.induct table stop v with
  | case1 c h ih =>
    rw [advance, if_pos h] at hlt
    rcases Nat.eq_or_lt_of_le hj with rfl | hj
    · exact h.1
    · exact ih hj hlt
  | case2 c h =>
    rw [advance, if_neg h] at hlt
    omega

theorem advance_stops (hlt : advance table stop v c < stop) :
    v ≤ table (advance table stop v c + 1) := by
  induction c using advance.induct table stop v with
  | case1 c h ih =>
    rw [advance, if_pos h] at hlt ⊢
    exact ih hlt
  | case2 c h =>
    rw [advance, if_neg h] at hlt ⊢
    exact not_lt.mp (fun hread => h ⟨hread, hlt⟩)

/-- The last read is the one behind the new cursor. -/
theorem guardReads_eq : guardReads table stop v c =
    List.range' (c + 1) (advance table stop v c - c + 1) := by
  induction c using advance.induct table stop v with
  | case1 c h ih =>
    have hle : c + 1 ≤ advance table stop v (c + 1) := le_advance
    have hcount : advance table stop v (c + 1) - c + 1 =
        (advance table stop v (c + 1) - (c + 1) + 1) + 1 := by omega
    rw [guardReads, advance, if_pos h, if_pos h, ih, hcount]
    exact List.range'_succ.symm
  | case2 c h =>
    rw [guardReads, advance, if_neg h, if_neg h, Nat.sub_self]
    rfl

theorem guardReads_le_iff {bound : ℕ} :
    (∀ r ∈ guardReads table stop v c, r ≤ bound) ↔ advance table stop v c + 1 ≤ bound := by
  have hle : c ≤ advance table stop v c := le_advance
  rw [guardReads_eq]
  constructor
  · intro h
    apply h
    rw [List.mem_range'_1]
    omega
  · intro h r hr
    rw [List.mem_range'_1] at hr
    omega

end OneQuery

section Queries
variable {table : ℕ → α} {stop : ℕ} {query : ℕ → α}

theorem cursorAt_mono : Monotone (cursorAt table stop query) :=
  monotone_nat_of_le_succ (fun _ => le_advance)

/-- Every entry behind the cursor is below the query just made. -/
theorem cursorAt_passed (hquery : Monotone query) (i : ℕ) {j : ℕ}
    (hj : j < cursorAt table stop query (i + 1)) : table (j + 1) < query i := by
  induction i with
  | zero => exact advance_passed (Nat.zero_le j) hj
  | succ i ih =>
    rcases lt_or_ge j (cursorAt table stop query (i + 1)) with hlt | hge
    · exact (ih hlt).trans_le (hquery (Nat.le_succ i))
    · exact advance_passed hge hj

theorem cursorAt_lt_iff (hquery : Monotone query) (i : ℕ) :
    cursorAt table stop query (i + 1) < stop ↔ ∃ j < stop, query i ≤ table (j + 1) := by
  constructor
  · intro h
    exact ⟨_, h, advance_stops h⟩
  · intro ⟨j, hj, hreach⟩
    by_contra h
    have hpassed := cursorAt_passed hquery i (hj.trans_le (not_lt.mp h))
    exact absurd hreach (not_le.mpr hpassed)

end Queries

end Jp4Tools.CursorScan
