import Mathlib.Data.List.Nodup
import Mathlib.Data.List.Perm.Subperm
import Mathlib.Logic.Function.Basic

/-!
# Replaying logs of writes

The stores of a loop nest form a log of pairs (cell, value), in program order. Replaying
the log on a memory gives the memory after the loops. When no cell is written twice the
order does not matter, and a log of exactly `n` writes that reaches every cell below `n`
writes each of them once and no other cell.
-/

namespace Jp4Tools.WriteLogs

variable {ι α : Type*}

section Replay
variable [DecidableEq ι]

/-- The memory after the writes of the log, the last write to a cell winning. -/
def replay (log : List (ι × α)) (mem : ι → α) : ι → α :=
  log.foldl (fun m w => Function.update m w.1 w.2) mem

@[simp] theorem replay_cons (w : ι × α) (log : List (ι × α)) (mem : ι → α) :
    replay (w :: log) mem = replay log (Function.update mem w.1 w.2) := rfl

theorem replay_append (log log' : List (ι × α)) (mem : ι → α) :
    replay (log ++ log') mem = replay log' (replay log mem) := List.foldl_append

theorem replay_of_notMem (log : List (ι × α)) (mem : ι → α) {k : ι}
    (hk : k ∉ log.map Prod.fst) : replay log mem k = mem k := by
  induction log generalizing mem with
  | nil => rfl
  | cons w log ih =>
    obtain ⟨hne, htail⟩ := not_or.mp (fun h => hk (List.mem_cons.mpr h))
    rw [replay_cons, ih _ htail, Function.update_of_ne hne]

theorem replay_of_mem {log : List (ι × α)} (hlog : (log.map Prod.fst).Nodup) (mem : ι → α)
    {k : ι} {a : α} (hk : (k, a) ∈ log) : replay log mem k = a := by
  induction log generalizing mem with
  | nil => simp at hk
  | cons w log ih =>
    obtain ⟨hhead, htail⟩ := List.nodup_cons.mp hlog
    rcases List.mem_cons.mp hk with rfl | hk
    · rw [replay_cons, replay_of_notMem _ _ hhead, Function.update_self]
    · exact ih htail _ hk

/-- Logs with the same writes have the same effect, when no cell is written twice. -/
theorem replay_of_perm {log log' : List (ι × α)} (hperm : log.Perm log')
    (hlog : (log.map Prod.fst).Nodup) (mem : ι → α) : replay log mem = replay log' mem := by
  funext k
  by_cases hk : k ∈ log.map Prod.fst
  · obtain ⟨⟨k, a⟩, hw, rfl⟩ := List.mem_map.mp hk
    rw [replay_of_mem hlog mem hw,
      replay_of_mem ((hperm.map Prod.fst).nodup_iff.mp hlog) mem (hperm.mem_iff.mp hw)]
  · have hk' : k ∉ log'.map Prod.fst := fun h => hk ((hperm.map Prod.fst).mem_iff.mpr h)
    rw [replay_of_notMem log mem hk, replay_of_notMem log' mem hk']

theorem replay_eq_of_mem {log : List (ι × α)} {k : ι} (hk : k ∈ log.map Prod.fst) (mem mem' : ι → α) :
    replay log mem k = replay log mem' k := by
  induction log generalizing mem mem' with
  | nil => simp at hk
  | cons w log ih =>
    rw [replay_cons, replay_cons]
    by_cases htail : k ∈ log.map Prod.fst
    · exact ih htail _ _
    · obtain rfl : k = w.1 := (List.mem_cons.mp hk).resolve_right htail
      rw [replay_of_notMem _ _ htail, replay_of_notMem _ _ htail, Function.update_self,
        Function.update_self]

/-- A log that is begun and then replayed from its first write on is replayed once. -/
theorem replay_take (log : List (ι × α)) (n : ℕ) (mem : ι → α) :
    replay log (replay (log.take n) mem) = replay log mem := by
  funext k
  by_cases hk : k ∈ log.map Prod.fst
  · exact replay_eq_of_mem hk _ _
  · have htake : k ∉ (log.take n).map Prod.fst := by
      rw [List.map_take]
      exact fun h => hk (List.mem_of_mem_take h)
    rw [replay_of_notMem _ _ hk, replay_of_notMem _ _ hk, replay_of_notMem _ _ htake]

end Replay

/-- A log whose parts can be told apart by an index has no repetition when its parts have none. -/
theorem nodup_flatMap_of_index {β : Type*} {l : List α} {f : α → List β} (index : β → α)
    (hl : l.Nodup) (hf : ∀ a ∈ l, (f a).Nodup) (hindex : ∀ a ∈ l, ∀ b ∈ f a, index b = a) :
    (l.flatMap f).Nodup := by
  refine List.nodup_flatMap.mpr ⟨hf, hl.imp_of_mem (fun {a a'} ha ha' hne => ?_)⟩
  intro b hb hb'
  exact hne ((hindex a ha b hb).symm.trans (hindex a' ha' b hb'))

theorem cell_div {n x : ℕ} (y : ℕ) (hx : x < n) : (n * y + x) / n = y := by
  rw [Nat.mul_add_div (Nat.zero_lt_of_lt hx), Nat.div_eq_of_lt hx, Nat.add_zero]

theorem cell_mod {n x : ℕ} (y : ℕ) (hx : x < n) : (n * y + x) % n = x := by
  rw [Nat.mul_add_mod, Nat.mod_eq_of_lt hx]

theorem range_mul_eq_flatMap (n m : ℕ) : List.range (n * m) =
    (List.range m).flatMap (fun y => (List.range n).map (fun x => n * y + x)) := by
  induction m with
  | zero => simp
  | succ m ih => rw [Nat.mul_succ, List.range_add, ih, List.range_succ, List.flatMap_append]; simp

theorem filter_range_lt {n k : ℕ} (h : k ≤ n) :
    (List.range n).filter (fun x => decide (x < k)) = List.range k := by
  obtain ⟨m, rfl⟩ := Nat.exists_eq_add_of_le h
  rw [List.range_add, List.filter_append, List.filter_eq_self.mpr (by simp),
    List.filter_eq_nil_iff.mpr (by simp), List.append_nil]

theorem length_flatMap_of_const {β : Type*} (l : List α) (f : α → List β) (c : ℕ)
    (h : ∀ a ∈ l, (f a).length = c) : (l.flatMap f).length = l.length * c := by
  rw [List.length_flatMap, List.map_congr_left h]
  simp

/-- Every cell below `n` is reached by a log of exactly `n` writes: it is written once,
and nothing else is. -/
theorem perm_range_of_covers {cells : List ℕ} {n : ℕ} (hlen : cells.length = n)
    (hcover : ∀ p < n, p ∈ cells) : cells.Perm (List.range n) := by
  have hsub : (List.range n).Subperm cells :=
    List.nodup_range.subperm (fun p hp => hcover p (List.mem_range.mp hp))
  exact (hsub.perm_of_length_le (by simp [hlen])).symm

theorem count_eq_one_of_perm_range {cells : List ℕ} {n p : ℕ} (h : cells.Perm (List.range n))
    (hp : p < n) : cells.count p = 1 := by
  rw [h.count_eq, List.count_eq_one_of_mem List.nodup_range (List.mem_range.mpr hp)]

end Jp4Tools.WriteLogs
