import Jp4Tools.Words
import Mathlib.Data.List.TakeWhile

/-!
# The option parser of the C library

`getopt_long` takes the options out of the arguments of a program and leaves the other arguments
behind, in their order. A long option may be abbreviated as long as it stays unique, and has its value
behind an equals sign or in the next argument. No short option has a value here.
-/

namespace Jp4Tools.GetoptLong
open Words

variable {ω : Type*}

structure LongOption (ω : Type*) where
  name : List Char
  hasArg : Bool
  val : ω
  deriving DecidableEq

structure OptionTable (ω : Type*) where
  long : List (LongOption ω)
  short : Char → Option ω

structure Parsed (ω : Type*) where
  options : List (ω × Option (List Char))
  nonOptions : List (List Char)
  deriving DecidableEq

namespace Parsed

def addOptions (options : List (ω × Option (List Char))) (p : Parsed ω) : Parsed ω :=
  { p with options := options ++ p.options }

def addNonOption (arg : List Char) (p : Parsed ω) : Parsed ω :=
  { p with nonOptions := arg :: p.nonOptions }

end Parsed

/-- What an argument is taken for. -/
inductive ArgumentKind (ω : Type*) where
  | terminator
  | options (options : List (ω × Option (List Char)))
  /-- An option that has its value in the next argument. -/
  | awaitsValue (val : ω)
  | nonOption
  | rejected

section Parser
variable (table : OptionTable ω)

/-- The long option with a name, or else the only one that the name abbreviates. -/
def findLong (name : List Char) : Option (LongOption ω) :=
  match table.long.find? (fun o => o.name = name) with
  | some o => some o
  | none =>
    match table.long.filter (fun o => name.isPrefixOf o.name) with
    | [o] => some o
    | _ => none

def longKind (name : List Char) (value : Option (List Char)) : ArgumentKind ω :=
  match findLong table name with
  | none => .rejected
  | some o =>
    match value, o.hasArg with
    | none, false => .options [(o.val, none)]
    | none, true => .awaitsValue o.val
    | some value, true => .options [(o.val, some value)]
    | some _, false => .rejected

def argumentKind : List Char → ArgumentKind ω
  | ['-', '-'] => .terminator
  | '-' :: '-' :: text => longKind table (text.takeWhile (· ≠ '=')) (text.dropWhile (· ≠ '=')).tail?
  | '-' :: c :: text =>
    match (c :: text).mapM table.short with
    | none => .rejected
    | some vals => .options (vals.map (fun val => (val, none)))
  | _ => .nonOption

def getoptLong : List (List Char) → Option (Parsed ω)
  | [] => some ⟨[], []⟩
  | arg :: args =>
    match argumentKind table arg with
    | .terminator => some ⟨[], args⟩
    | .options options => (getoptLong args).map (Parsed.addOptions options)
    | .awaitsValue val =>
      match args with
      | [] => none
      | value :: args => (getoptLong args).map (Parsed.addOptions [(val, some value)])
    | .nonOption => (getoptLong args).map (Parsed.addNonOption arg)
    | .rejected => none

end Parser

variable {table : OptionTable ω} {arg : List Char} {args : List (List Char)}

theorem getoptLong_options {options : List (ω × Option (List Char))} (h : argumentKind table arg = .options options) :
    getoptLong table (arg :: args) = (getoptLong table args).map (Parsed.addOptions options) := by
  rw [getoptLong, h]

theorem getoptLong_awaitsValue {val : ω} (h : argumentKind table arg = .awaitsValue val) (value : List Char) :
    getoptLong table (arg :: value :: args) =
      (getoptLong table args).map (Parsed.addOptions [(val, some value)]) := by
  rw [getoptLong, h]

theorem getoptLong_nonOption (h : argumentKind table arg = .nonOption) :
    getoptLong table (arg :: args) = (getoptLong table args).map (Parsed.addNonOption arg) := by
  rw [getoptLong, h]

/-- An argument that does not begin with a dash is left alone. -/
theorem argumentKind_nonOption {c : Char} (hc : c ≠ '-') (text : List Char) :
    argumentKind table (c :: text) = .nonOption := by
  unfold argumentKind
  split <;> simp_all

private theorem forall_ne_equals {name : List Char} (hname : '=' ∉ name) : ∀ c ∈ name, decide (c ≠ '=') = true := by
  intro c hc
  exact decide_eq_true (fun heq => hname (heq ▸ hc))

private theorem argumentKind_dashes {text : List Char} (hne : text ≠ []) :
    argumentKind table ('-' :: '-' :: text) =
      longKind table (text.takeWhile (· ≠ '=')) (text.dropWhile (· ≠ '=')).tail? := by
  rw [argumentKind]
  exact hne

theorem argumentKind_long {name : List Char} (hne : name ≠ []) (hname : '=' ∉ name) :
    argumentKind table ('-' :: '-' :: name) = longKind table name none := by
  have htake : name.takeWhile (· ≠ '=') = name := List.takeWhile_eq_self_iff.mpr (forall_ne_equals hname)
  have hdrop : name.dropWhile (· ≠ '=') = [] := List.dropWhile_eq_nil_iff.mpr (forall_ne_equals hname)
  rw [argumentKind_dashes hne, htake, hdrop, List.tail?_nil]

theorem argumentKind_longValue {name : List Char} (hname : '=' ∉ name) (value : List Char) :
    argumentKind table ('-' :: '-' :: (name ++ '=' :: value)) = longKind table name (some value) := by
  have htake : (name ++ '=' :: value).takeWhile (· ≠ '=') = name := by
    rw [List.takeWhile_append_of_pos (forall_ne_equals hname)]
    simp
  have hdrop : (name ++ '=' :: value).dropWhile (· ≠ '=') = '=' :: value := by
    rw [List.dropWhile_append_of_pos (forall_ne_equals hname)]
    simp
  rw [argumentKind_dashes (by simp), htake, hdrop, List.tail?_cons]

theorem mem_of_mem_nonOptions {p : Parsed ω} (h : getoptLong table args = some p) :
    ∀ arg ∈ p.nonOptions, arg ∈ args := by
  fun_induction getoptLong table args generalizing p with
  | case1 =>
    obtain rfl := Option.some.inj h
    simp
  | case2 arg args hkind =>
    obtain rfl := Option.some.inj h
    exact fun _ hmem => List.mem_cons_of_mem arg hmem
  | case3 arg args options hkind ih =>
    obtain ⟨q, hq, rfl⟩ := Option.map_eq_some_iff.mp h
    exact fun arg' hmem => List.mem_cons_of_mem arg (ih hq arg' hmem)
  | case4 => simp at h
  | case5 arg val hkind value args ih =>
    obtain ⟨q, hq, rfl⟩ := Option.map_eq_some_iff.mp h
    exact fun arg' hmem => List.mem_cons_of_mem arg (List.mem_cons_of_mem value (ih hq arg' hmem))
  | case6 arg args hkind ih =>
    obtain ⟨q, hq, rfl⟩ := Option.map_eq_some_iff.mp h
    intro arg' hmem
    rcases List.mem_cons.mp hmem with rfl | hmem
    · exact List.mem_cons_self
    · exact List.mem_cons_of_mem arg (ih hq arg' hmem)
  | case7 => simp at h

private theorem value_of_longKind {name : List Char} {text : Option (List Char)}
    {options : List (ω × Option (List Char))} {val : ω} {value : List Char}
    (h : longKind table name text = .options options) (hmem : (val, some value) ∈ options) : text = some value := by
  unfold longKind at h
  split at h
  · simp at h
  · split at h
    · obtain rfl := ArgumentKind.options.inj h
      simp at hmem
    · simp at h
    · obtain rfl := ArgumentKind.options.inj h
      simp_all
    · simp at h

private theorem exists_cons_of_tail? {text value : List Char} (h : text.tail? = some value) :
    ∃ c, text = c :: value := by
  cases text with
  | nil => simp at h
  | cons c rest => exact ⟨c, by rw [Option.some.inj h]⟩

private theorem suffix_of_argumentKind {options : List (ω × Option (List Char))} {val : ω} {value : List Char}
    (h : argumentKind table arg = .options options) (hmem : (val, some value) ∈ options) : value <:+ arg := by
  unfold argumentKind at h
  split at h
  · simp at h
  · rename_i text hne
    obtain ⟨c, hdrop⟩ := exists_cons_of_tail? (value_of_longKind h hmem)
    have htext : c :: value <:+ text := hdrop ▸ List.dropWhile_suffix _
    have harg : text <:+ '-' :: '-' :: text := (List.suffix_cons '-' text).trans (List.suffix_cons '-' _)
    exact ((List.suffix_cons c value).trans htext).trans harg
  · split at h
    · simp at h
    · obtain rfl := ArgumentKind.options.inj h
      simp at hmem
  · simp at h

/-- The value of an option is the end of an argument. -/
theorem suffix_of_mem_options {p : Parsed ω} (h : getoptLong table args = some p) {val : ω} {value : List Char}
    (hmem : (val, some value) ∈ p.options) : ∃ arg ∈ args, value <:+ arg := by
  fun_induction getoptLong table args generalizing p with
  | case1 =>
    obtain rfl := Option.some.inj h
    simp at hmem
  | case2 arg args hkind =>
    obtain rfl := Option.some.inj h
    simp at hmem
  | case3 arg args options hkind ih =>
    obtain ⟨q, hq, rfl⟩ := Option.map_eq_some_iff.mp h
    rcases List.mem_append.mp hmem with hmem | hmem
    · exact ⟨arg, List.mem_cons_self, suffix_of_argumentKind hkind hmem⟩
    · obtain ⟨arg', harg', hsuffix⟩ := ih hq hmem
      exact ⟨arg', List.mem_cons_of_mem arg harg', hsuffix⟩
  | case4 => simp at h
  | case5 arg val' hkind value' args ih =>
    obtain ⟨q, hq, rfl⟩ := Option.map_eq_some_iff.mp h
    rcases List.mem_cons.mp hmem with heq | hmem
    · refine ⟨value', List.mem_cons_of_mem arg List.mem_cons_self, ?_⟩
      obtain ⟨rfl, rfl⟩ := by simpa using heq
      exact List.suffix_rfl
    · obtain ⟨arg', harg', hsuffix⟩ := ih hq hmem
      exact ⟨arg', List.mem_cons_of_mem arg (List.mem_cons_of_mem value' harg'), hsuffix⟩
  | case6 arg args hkind ih =>
    obtain ⟨q, hq, rfl⟩ := Option.map_eq_some_iff.mp h
    obtain ⟨arg', harg', hsuffix⟩ := ih hq hmem
    exact ⟨arg', List.mem_cons_of_mem arg harg', hsuffix⟩
  | case7 => simp at h

section CommandLine
variable {sep : Char → Bool} {text text' : List Char} {options options' : List (ω × Option (List Char))} {c : Char}

/-- A piece of a command line that stands for options, whatever comes behind it. -/
def StandsFor (table : OptionTable ω) (sep : Char → Bool) (text : List Char)
    (options : List (ω × Option (List Char))) : Prop :=
  ∀ rest, getoptLong table (words sep (text ++ rest)) =
    (getoptLong table (words sep rest)).map (Parsed.addOptions options)

theorem StandsFor.append (h : StandsFor table sep text options) (h' : StandsFor table sep text' options') :
    StandsFor table sep (text ++ text') (options ++ options') := by
  intro rest
  rw [List.append_assoc, h, h', Option.map_map]
  congr 1
  funext p
  simp [Parsed.addOptions]

theorem StandsFor.ite (selected : Prop) [Decidable selected] (h : selected → StandsFor table sep text options) :
    StandsFor table sep (if selected then text else []) (if selected then options else []) := by
  split_ifs with hselected
  · exact h hselected
  · intro rest
    rw [List.nil_append]
    cases getoptLong table (words sep rest) <;> rfl

theorem standsFor_options (hword : ∀ c ∈ arg, sep c = false) (hne : arg ≠ []) (hc : sep c = true)
    (hkind : argumentKind table arg = .options options) : StandsFor table sep (arg ++ [c]) options := by
  intro rest
  rw [List.append_assoc, List.singleton_append, words_append_cons hword hne hc, getoptLong_options hkind]

theorem standsFor_value {val : ω} {value : List Char} (hword : ∀ c ∈ arg, sep c = false) (hne : arg ≠ [])
    (hvalue : ∀ c ∈ value, sep c = false) (hvalueNe : value ≠ []) (hc : sep c = true)
    (hkind : argumentKind table arg = .awaitsValue val) :
    StandsFor table sep (arg ++ c :: (value ++ [c])) [(val, some value)] := by
  intro rest
  rw [List.append_assoc, List.cons_append, List.append_assoc, List.singleton_append,
    words_append_cons hword hne hc, words_append_cons hvalue hvalueNe hc, getoptLong_awaitsValue hkind]

end CommandLine

end Jp4Tools.GetoptLong
