import Mathlib.Logic.Equiv.Basic

/-!
# Replaying logs of exchanges

A loop that exchanges the contents of two cells in each round leaves a log of pairs. When each pair
is a cell with its mirror image, and no cell is met twice, the whole log reflects the memory.
-/

namespace Jp4Tools.SwapLogs

variable {ι α : Type*} [DecidableEq ι]

/-- `tmp = mem[a]; mem[a] = mem[b]; mem[b] = tmp`. -/
def exchange (mem : ι → α) (p : ι × ι) : ι → α :=
  Function.update (Function.update mem p.1 (mem p.2)) p.2 (mem p.1)

def exchangeAll (log : List (ι × ι)) (mem : ι → α) : ι → α := log.foldl exchange mem

@[simp] theorem exchangeAll_nil (mem : ι → α) : exchangeAll [] mem = mem := rfl

@[simp] theorem exchangeAll_cons (p : ι × ι) (log : List (ι × ι)) (mem : ι → α) :
    exchangeAll (p :: log) mem = exchangeAll log (exchange mem p) := rfl

theorem exchange_eq (mem : ι → α) (a b : ι) : exchange mem (a, b) = mem ∘ Equiv.swap a b := by
  rw [Equiv.swap_comm, Equiv.comp_swap_eq_update]
  rfl

section Mirror
variable {mirror : ι → ι} (hmirror : Function.Involutive mirror)
include hmirror

omit [DecidableEq ι] in
theorem mirror_apart {a k : ι} {cells : List ι} (hhead : a ∉ cells) (himage : mirror a ∉ cells)
    (hk : k ∈ cells ∨ mirror k ∈ cells) : mirror k ≠ a ∧ mirror k ≠ mirror a := by
  rcases hk with hk | hk
  · constructor
    · rintro rfl
      exact himage (by rwa [hmirror])
    · intro heq
      exact hhead (hmirror.injective heq ▸ hk)
  · constructor
    · rintro rfl
      exact hhead hk
    · intro heq
      exact himage (heq ▸ hk)

/-- Each cell of the list changes places with its mirror image; the other cells stay. -/
theorem exchangeAll_apply {cells : List ι} (hcells : cells.Nodup) (hapart : ∀ a ∈ cells, mirror a ∉ cells)
    (mem : ι → α) (k : ι) :
    exchangeAll (cells.map (fun a => (a, mirror a))) mem k =
      if k ∈ cells ∨ mirror k ∈ cells then mem (mirror k) else mem k := by
  induction cells generalizing mem with
  | nil => simp
  | cons a cells ih =>
    obtain ⟨hhead, htail⟩ := List.nodup_cons.mp hcells
    have hrest : ∀ b ∈ cells, mirror b ∉ cells := by
      intro b hb hmem
      exact hapart b (List.mem_cons_of_mem a hb) (List.mem_cons_of_mem a hmem)
    have himage : mirror a ∉ cells := by
      intro hmem
      exact hapart a List.mem_cons_self (List.mem_cons_of_mem a hmem)
    rw [List.map_cons, exchangeAll_cons, exchange_eq, ih htail hrest]
    by_cases hk : k ∈ cells ∨ mirror k ∈ cells
    · have hne := mirror_apart hmirror hhead himage hk
      rw [if_pos hk, if_pos (hk.imp (List.mem_cons_of_mem a) (List.mem_cons_of_mem a)),
        Function.comp_apply, Equiv.swap_apply_of_ne_of_ne hne.1 hne.2]
    · rw [if_neg hk, Function.comp_apply]
      obtain ⟨hk, hk'⟩ := not_or.mp hk
      by_cases ha : k = a
      · subst ha
        rw [Equiv.swap_apply_left, if_pos (Or.inl List.mem_cons_self)]
      · by_cases hb : mirror k = a
        · subst hb
          rw [hmirror, Equiv.swap_apply_right, if_pos (Or.inr List.mem_cons_self)]
        · have hother : k ≠ mirror a := by
            rintro rfl
            exact hb (hmirror a)
          rw [Equiv.swap_apply_of_ne_of_ne ha hother, if_neg]
          rintro (hmem | hmem)
          · exact (List.mem_cons.mp hmem).elim ha hk
          · exact (List.mem_cons.mp hmem).elim hb hk'

/-- When the list has one cell of each pair that the reflection exchanges, the memory is reflected. -/
theorem exchangeAll_eq_comp {cells : List ι} (hcells : cells.Nodup)
    (hapart : ∀ a ∈ cells, mirror a ∉ cells)
    (hcover : ∀ k, mirror k ≠ k → k ∈ cells ∨ mirror k ∈ cells) (mem : ι → α) :
    exchangeAll (cells.map (fun a => (a, mirror a))) mem = mem ∘ mirror := by
  funext k
  rw [exchangeAll_apply hmirror hcells hapart]
  split_ifs with hk
  · rfl
  · have hfixed : mirror k = k := by
      by_contra hne
      exact hk (hcover k hne)
    rw [Function.comp_apply, hfixed]

end Mirror

end Jp4Tools.SwapLogs
