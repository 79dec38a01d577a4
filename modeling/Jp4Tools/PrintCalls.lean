import Jp4Tools.CStrings
import Jp4Tools.Printf

/-!
# Calls of `snprintf`

A call names the array that it fills, its size, and the strings that it reads: the format, when it
is not a literal, and the string arguments. A sequence of calls whose strings are none of the filled
arrays is safe when the strings end, no conversion strays and the arrays are large enough; it fills
each array by its own call.
-/

namespace Jp4Tools.PrintCalls
open Printf CStrings

inductive PrintFormat (V : Type*) where
  | literal (fmt : List Char)
  | array (v : V)

inductive PrintArgument (V : Type*) where
  | string (v : V)
  | integer (x : ℤ)

structure PrintCall (V : Type*) where
  dst : V
  size : ℕ
  fmt : PrintFormat V
  args : List (PrintArgument V)

section Calls
variable {V : Type*}

def PrintFormat.reads : PrintFormat V → List V
  | .literal _ => []
  | .array v => [v]

def PrintFormat.text (array : V → CharArray) : PrintFormat V → List Char
  | .literal fmt => fmt
  | .array v => (array v).text

def PrintArgument.reads : PrintArgument V → List V
  | .string v => [v]
  | .integer _ => []

def PrintArgument.value (array : V → CharArray) : PrintArgument V → Argument
  | .string v => .string (array v).text
  | .integer x => .integer x

def PrintCall.reads (p : PrintCall V) : List V := p.fmt.reads ++ p.args.flatMap PrintArgument.reads

/-- What comes out of the format. -/
def PrintCall.text (other : List Char → List Char) (p : PrintCall V) (array : V → CharArray) :
    List Char :=
  printf other (p.fmt.text array) (p.args.map (PrintArgument.value array))

/-- A conversion of the format has not the argument that it goes through. -/
def PrintCall.strays (p : PrintCall V) (array : V → CharArray) : Bool :=
  Printf.strays (p.fmt.text array) (p.args.map (PrintArgument.value array))

def PrintCall.access (m : Memory V) (p : PrintCall V) : Memory V :=
  strayIf (p.strays m.array) (readTexts p.reads m).2

variable [DecidableEq V]

def PrintCall.run (other : List Char → List Char) (m : Memory V) (p : PrintCall V) : Memory V :=
  printInto p.dst p.size (p.text other m.array) (p.access m)

def printAll (other : List Char → List Char) (calls : List (PrintCall V)) (m : Memory V) : Memory V :=
  calls.foldl (PrintCall.run other) m

end Calls

section Rules
variable {V : Type*} {other : List Char → List Char} {p : PrintCall V} {calls : List (PrintCall V)}

/-- The format and the arguments depend on the strings that the call reads. -/
theorem PrintCall.values_congr {array array' : V → CharArray} (h : ∀ v ∈ p.reads, array v = array' v) :
    p.fmt.text array = p.fmt.text array' ∧
      p.args.map (PrintArgument.value array) = p.args.map (PrintArgument.value array') := by
  have hfmt : p.fmt.text array = p.fmt.text array' := by
    cases hp : p.fmt with
    | literal fmt => rfl
    | array v =>
      have hv := h v (List.mem_append_left _ (hp ▸ List.mem_singleton_self v))
      exact congrArg CharArray.text hv
  have hargs : p.args.map (PrintArgument.value array) = p.args.map (PrintArgument.value array') := by
    apply List.map_congr_left
    intro a ha
    cases a with
    | integer x => rfl
    | string v =>
      have hv := h v (List.mem_append_right _ (List.mem_flatMap_of_mem ha (List.mem_singleton_self v)))
      exact congrArg (fun b : CharArray => Argument.string b.text) hv
  exact ⟨hfmt, hargs⟩

theorem PrintCall.text_congr {array array' : V → CharArray}
    (h : ∀ v ∈ p.reads, array v = array' v) : p.text other array = p.text other array' := by
  obtain ⟨hfmt, hargs⟩ := PrintCall.values_congr h
  rw [PrintCall.text, PrintCall.text, hfmt, hargs]

theorem PrintCall.access_array (m : Memory V) : (p.access m).array = m.array := readTexts_array _

variable [DecidableEq V] {m : Memory V} {v : V}

theorem PrintCall.run_other (h : v ≠ p.dst) : (p.run other m).array v = m.array v := by
  rw [PrintCall.run, printInto_other h, PrintCall.access_array]

theorem PrintCall.run_holds (h : nul ∉ p.text other m.array) :
    ((p.run other m).array p.dst).Holds ((p.text other m.array).take (p.size - 1)) :=
  printInto_holds h _

@[simp] theorem PrintCall.run_capacity (v : V) :
    ((p.run other m).array v).capacity = (m.array v).capacity := by
  rw [PrintCall.run, printInto_capacity, PrintCall.access_array]

theorem printAll_other (h : v ∉ calls.map PrintCall.dst) :
    (printAll other calls m).array v = m.array v := by
  induction calls generalizing m with
  | nil => rfl
  | cons p calls ih =>
    rw [List.map_cons, List.mem_cons, not_or] at h
    exact (ih h.2).trans (PrintCall.run_other h.1)

@[simp] theorem printAll_capacity (v : V) :
    ((printAll other calls m).array v).capacity = (m.array v).capacity := by
  induction calls generalizing m with
  | nil => rfl
  | cons p calls ih => exact ih.trans (PrintCall.run_capacity v)

/-- Calls that read none of the arrays that they fill. -/
structure Independent (calls : List (PrintCall V)) : Prop where
  reads : ∀ p ∈ calls, ∀ v ∈ p.reads, v ∉ calls.map PrintCall.dst
  nodup : (calls.map PrintCall.dst).Nodup

omit [DecidableEq V] in
theorem Independent.tail (h : Independent (p :: calls)) : Independent calls where
  reads := by
    intro q hq v hv hmem
    exact h.reads q (List.mem_cons_of_mem p hq) v hv (List.mem_cons_of_mem _ hmem)
  nodup := h.nodup.of_cons

theorem Independent.run_array (h : Independent (p :: calls)) {q : PrintCall V} (hq : q ∈ calls)
    (hv : v ∈ q.reads) : (p.run other m).array v = m.array v := by
  apply PrintCall.run_other
  rintro rfl
  exact h.reads q (List.mem_cons_of_mem p hq) _ hv List.mem_cons_self

/-- Each array holds what its own call prints from the strings at the start. -/
theorem printAll_holds (h : Independent calls) (hp : p ∈ calls) (hnul : nul ∉ p.text other m.array) :
    ((printAll other calls m).array p.dst).Holds ((p.text other m.array).take (p.size - 1)) := by
  induction calls generalizing m with
  | nil => exact absurd hp List.not_mem_nil
  | cons q calls ih =>
    rcases List.mem_cons.mp hp with rfl | hp
    · have hrest : (printAll other (p :: calls) m).array p.dst = (p.run other m).array p.dst :=
        printAll_other (List.nodup_cons.mp h.nodup).1
      rw [hrest]
      exact PrintCall.run_holds hnul
    · have htext : p.text other (q.run other m).array = p.text other m.array :=
        PrintCall.text_congr (fun v hv => h.run_array hp hv)
      have hholds := ih (m := q.run other m) h.tail hp (htext ▸ hnul)
      rwa [htext] at hholds

end Rules

end Jp4Tools.PrintCalls
