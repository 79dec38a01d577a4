import Jp4Tools.CanonicalCodes
import Mathlib.Logic.Function.Basic
import Mathlib.Tactic.Linarith

/-!
# Derived Huffman tables

A DHT marker segment says how many codes of each length there are and lists the symbols in order
of increasing code length. `jpegMakeCDerivedTbl` makes of it the table of the encoder, indexed by
symbol, and `jpegMakeDDerivedTbl` the tables of the decoder: the greatest code of each length, and
a table indexed by the next eight bits of the data.
-/

namespace Jp4Tools.HuffmanTables
open BitStrings CanonicalCodes

def numHuffTbls : ℕ := 4
def huffLookahead : ℕ := 8

/-- The `ERREXIT`s of the entropy coders. -/
inductive HuffError where
  | noHuffTable (tblno : ℕ)
  | badHuffTable
  | missingCode
  | badDctCoef
  | clenOverflow
  deriving DecidableEq, Repr

/-- The numbers of codes of the lengths 1 to 16, the symbols, and whether the table has been
written to the file. -/
structure JHuffTbl where
  bits : ℕ → UInt8
  huffval : ℕ → UInt8
  sentTable : Bool := false

/-- The table pointers of one class; `none` is a null pointer. -/
abbrev TablePtrs := ℕ → Option JHuffTbl

structure CDerivedTbl where
  ehufco : ℕ → ℕ
  ehufsi : ℕ → ℕ

structure DDerivedTbl where
  maxcode : ℕ → ℤ
  valoffset : ℕ → ℤ
  pub : JHuffTbl
  lookNbits : ℕ → ℕ
  lookSym : ℕ → ℕ

section Figures

def findTable (tbls : TablePtrs) (tblno : ℕ) : Except HuffError JHuffTbl :=
  if numHuffTbls ≤ tblno then .error (.noHuffTable tblno)
  else match tbls tblno with
    | none => .error (.noHuffTable tblno)
    | some htbl => .ok htbl

/-- One code length of figure C.1, protected against table overrun. -/
def listLength (htbl : JHuffTbl) (huffsize : List ℕ) (l : ℕ) : Except HuffError (List ℕ) :=
  if 256 < huffsize.length + (htbl.bits l).toNat then .error .badHuffTable
  else .ok (huffsize ++ List.replicate (htbl.bits l).toNat l)

/-- Figure C.1: the code length of each symbol. -/
def figureC1 (htbl : JHuffTbl) : Except HuffError (List ℕ) :=
  (List.range' 1 16).foldlM (listLength htbl) []

/-- The inner loop of figure C.2: codes for the sizes that equal `si`, the next code, and the
sizes that are left. -/
def codesOfSize (si : ℕ) : ℕ → List ℕ → List ℕ × ℕ × List ℕ
  | code, [] => ([], code, [])
  | code, size :: huffsize =>
    if size = si then
      let (huffcode, code', rest) := codesOfSize si (code + 1) huffsize
      (code :: huffcode, code', rest)
    else ([], code, size :: huffsize)

/-- The outer loop of figure C.2. No size is above 16, so that `si` does not run out of fuel. -/
def codesFrom : ℕ → ℕ → ℕ → List ℕ → Except HuffError (List ℕ)
  | _, _, _, [] => .ok []
  | 0, _, _, _ :: _ => .error .badHuffTable
  | fuel + 1, si, code, size :: huffsize =>
    match codesOfSize si code (size :: huffsize) with
    | (huffcode, code', rest) =>
      if 1 <<< si ≤ code' then .error .badHuffTable
      else (codesFrom fuel (si + 1) (code' <<< 1) rest).map (huffcode ++ ·)

def figureC2 (huffsize : List ℕ) : Except HuffError (List ℕ) :=
  codesFrom 16 (huffsize.headD 0) 0 huffsize

/-- One symbol of figure C.3. A symbol that has a size already is a duplicate. -/
def enterCode (maxsymbol sym code size : ℕ) (dtbl : CDerivedTbl) : Except HuffError CDerivedTbl :=
  if maxsymbol < sym ∨ dtbl.ehufsi sym ≠ 0 then .error .badHuffTable
  else .ok { ehufco := Function.update dtbl.ehufco sym code,
             ehufsi := Function.update dtbl.ehufsi sym size }

def figureC3 (isDC : Bool) (htbl : JHuffTbl) (huffsize huffcode : List ℕ) :
    Except HuffError CDerivedTbl :=
  let maxsymbol := if isDC then 15 else 255
  (List.range huffsize.length).foldlM (fun dtbl p =>
    enterCode maxsymbol (htbl.huffval p).toNat (huffcode.getD p 0) (huffsize.getD p 0) dtbl)
    { ehufco := fun _ => 0, ehufsi := fun _ => 0 }

def jpegMakeCDerivedTbl (isDC : Bool) (tbls : TablePtrs) (tblno : ℕ) : Except HuffError CDerivedTbl := do
  let htbl ← findTable tbls tblno
  let huffsize ← figureC1 htbl
  let huffcode ← figureC2 huffsize
  figureC3 isDC htbl huffsize huffcode

/-- One code length of figure F.15. The state is `p` and the two tables. -/
def enterLength (htbl : JHuffTbl) (huffcode : List ℕ) (s : ℕ × (ℕ → ℤ) × (ℕ → ℤ)) (l : ℕ) :
    ℕ × (ℕ → ℤ) × (ℕ → ℤ) :=
  let (p, maxcode, valoffset) := s
  if htbl.bits l ≠ 0 then
    let valoffset := Function.update valoffset l ((p : ℤ) - huffcode.getD p 0)
    let p := p + (htbl.bits l).toNat
    (p, Function.update maxcode l (huffcode.getD (p - 1) 0), valoffset)
  else (p, Function.update maxcode l (-1), valoffset)

/-- Figure F.15: the greatest code of each length and the places of their symbols. -/
def figureF15 (htbl : JHuffTbl) (huffcode : List ℕ) : (ℕ → ℤ) × (ℕ → ℤ) :=
  let s := (List.range' 1 16).foldl (enterLength htbl huffcode) (0, fun _ => 0, fun _ => 0)
  (Function.update s.2.1 17 0xFFFFF, s.2.2)

abbrev LookTables := (ℕ → ℕ) × (ℕ → ℕ)

/-- The `ctr` loop: all bit sequences that start with one code. -/
def fillLook (l sym : ℕ) : ℕ → ℕ → LookTables → LookTables
  | 0, _, t => t
  | ctr + 1, lookbits, t =>
    fillLook l sym ctr (lookbits + 1) (Function.update t.1 lookbits l, Function.update t.2 lookbits sym)

def lookCode (htbl : JHuffTbl) (huffcode : List ℕ) (l : ℕ) (s : ℕ × LookTables) : ℕ × LookTables :=
  (s.1 + 1, fillLook l (htbl.huffval s.1).toNat (1 <<< (huffLookahead - l))
    (huffcode.getD s.1 0 <<< (huffLookahead - l)) s.2)

def lookLength (htbl : JHuffTbl) (huffcode : List ℕ) (s : ℕ × LookTables) (l : ℕ) : ℕ × LookTables :=
  (lookCode htbl huffcode l)^[(htbl.bits l).toNat] s

def lookaheadTables (htbl : JHuffTbl) (huffcode : List ℕ) : LookTables :=
  ((List.range' 1 huffLookahead).foldl (lookLength htbl huffcode) (0, fun _ => 0, fun _ => 0)).2

def jpegMakeDDerivedTbl (isDC : Bool) (tbls : TablePtrs) (tblno : ℕ) : Except HuffError DDerivedTbl := do
  let htbl ← findTable tbls tblno
  let huffsize ← figureC1 htbl
  let huffcode ← figureC2 huffsize
  let bounds := figureF15 htbl huffcode
  let look := lookaheadTables htbl huffcode
  if isDC && (List.range huffsize.length).any (fun i => 15 < (htbl.huffval i).toNat) then
    .error .badHuffTable
  else .ok {
    maxcode := bounds.1
    valoffset := bounds.2
    pub := htbl
    lookNbits := look.1
    lookSym := look.2 }

end Figures

/-- The number of codes of each length; the code generation ignores `bits[0]`. -/
def counts (htbl : JHuffTbl) (l : ℕ) : ℕ := if 1 ≤ l ∧ l ≤ 16 then (htbl.bits l).toNat else 0

abbrev Codeword (htbl : JHuffTbl) := Slot (counts htbl) 16

def Codeword.symbol {htbl : JHuffTbl} (s : Codeword htbl) : ℕ := (htbl.huffval s.index).toNat

/-- The counts of a Huffman code that is not longer than 256 symbols and leaves the codeword of
all ones unused. -/
structure Valid (htbl : JHuffTbl) : Prop where
  fits : shorter (counts htbl) 17 ≤ 256
  room : pastCode (counts htbl) 16 < 2 ^ 16

def oneSymbolTable : JHuffTbl where
  bits l := if l = 1 then 1 else 0
  huffval _ := 0

section Codes

def sizesFrom (counts : ℕ → ℕ) (l d : ℕ) : List ℕ :=
  (List.range' l d).flatMap (fun k => List.replicate (counts k) k)

def codewordsFrom (counts : ℕ → ℕ) (l d : ℕ) : List ℕ :=
  (List.range' l d).flatMap (fun k => List.range' (firstCode counts k) (counts k))

theorem sizesFrom_succ (counts : ℕ → ℕ) (l d : ℕ) :
    sizesFrom counts l (d + 1) = List.replicate (counts l) l ++ sizesFrom counts (l + 1) d := by
  rw [sizesFrom, List.range'_succ, List.flatMap_cons, sizesFrom]

theorem codewordsFrom_succ (counts : ℕ → ℕ) (l d : ℕ) : codewordsFrom counts l (d + 1) =
    List.range' (firstCode counts l) (counts l) ++ codewordsFrom counts (l + 1) d := by
  rw [codewordsFrom, List.range'_succ, List.flatMap_cons, codewordsFrom]

theorem le_of_mem_sizesFrom {counts : ℕ → ℕ} {l d x : ℕ} (h : x ∈ sizesFrom counts l d) : l ≤ x := by
  obtain ⟨k, hk, hx⟩ := List.mem_flatMap.mp h
  rw [List.eq_of_mem_replicate hx]
  exact (List.mem_range'_1.mp hk).1

theorem codesOfSize_replicate {si : ℕ} {rest : List ℕ} (hrest : ∀ x ∈ rest, x ≠ si) (c code : ℕ) :
    codesOfSize si code (List.replicate c si ++ rest) = (List.range' code c, code + c, rest) := by
  induction c generalizing code with
  | zero =>
    cases rest with
    | nil => rfl
    | cons x rest =>
      have hx : x ≠ si := hrest x List.mem_cons_self
      simp [codesOfSize, hx]
  | succ c ih =>
    rw [List.replicate_succ, List.cons_append, codesOfSize, if_pos rfl, ih, List.range'_succ,
      Nat.add_assoc, Nat.add_comm 1 c]

theorem codesFrom_nil (fuel si code : ℕ) : codesFrom fuel si code [] = .ok [] := by
  cases fuel <;> rfl

theorem codesFrom_succ {huffsize huffcode rest : List ℕ} {si code code' : ℕ} (hne : huffsize ≠ [])
    (h : codesOfSize si code huffsize = (huffcode, code', rest)) (fuel : ℕ) :
    codesFrom (fuel + 1) si code huffsize = if 2 ^ si ≤ code' then .error .badHuffTable
      else (codesFrom fuel (si + 1) (2 * code') rest).map (huffcode ++ ·) := by
  cases huffsize with
  | nil => exact absurd rfl hne
  | cons size huffsize =>
    rw [codesFrom, h]
    simp only [Nat.shiftLeft_eq, Nat.one_mul, Nat.pow_one, Nat.mul_comm code' 2]

/-- From each length on the loop gives out the canonical codes, or finds that they do not fit. -/
theorem codesFrom_eq {counts : ℕ → ℕ} {n : ℕ} (d : ℕ) {l fuel : ℕ} (hld : l + d = n + 1)
    (hfuel : d ≤ fuel) (hfirst : firstCode counts l < 2 ^ l) :
    codesFrom fuel l (firstCode counts l) (sizesFrom counts l d) =
      if pastCode counts n < 2 ^ n then .ok (codewordsFrom counts l d) else .error .badHuffTable := by
  induction d generalizing l fuel with
  | zero =>
    obtain rfl : l = n + 1 := hld
    rw [firstCode_succ, Nat.pow_succ] at hfirst
    rw [if_pos (by omega)]
    exact codesFrom_nil _ _ _
  | succ d ih =>
    have hnext : pastCode counts l < 2 ^ l → firstCode counts (l + 1) < 2 ^ (l + 1) := by
      intro hpast
      rw [firstCode_succ, Nat.pow_succ]
      omega
    cases hsizes : sizesFrom counts l (d + 1) with
    | nil =>
      -- no code is left: the loop over the longer lengths has nothing to do either
      rw [sizesFrom_succ, List.append_eq_nil_iff, List.replicate_eq_nil_iff] at hsizes
      have hempty := ih (by omega) (Nat.le_refl d) (hnext (by rw [pastCode, hsizes.1]; exact hfirst))
      rw [hsizes.2, codesFrom_nil] at hempty
      rw [codesFrom_nil, codewordsFrom_succ, hsizes.1, List.range'_zero, List.nil_append]
      exact hempty
    | cons x xs =>
      have hne : sizesFrom counts l (d + 1) ≠ [] := by rw [hsizes]; exact List.cons_ne_nil x xs
      obtain ⟨fuel, rfl⟩ : ∃ k, fuel = k + 1 := ⟨fuel - 1, by omega⟩
      have hlater : ∀ y ∈ sizesFrom counts (l + 1) d, y ≠ l := by
        intro y hy
        have := le_of_mem_sizesFrom hy
        omega
      have hround := codesOfSize_replicate hlater (counts l) (firstCode counts l)
      rw [← sizesFrom_succ] at hround
      rw [← hsizes, codesFrom_succ hne hround]
      change (if 2 ^ l ≤ pastCode counts l then _ else _) = _
      by_cases hroom : pastCode counts l < 2 ^ l
      · have hrest := @ih (l + 1) fuel (by omega) (by omega) (hnext hroom)
        rw [if_neg (Nat.not_le.mpr hroom)]
        change (codesFrom fuel (l + 1) (firstCode counts (l + 1)) _).map _ = _
        rw [hrest, codewordsFrom_succ]
        split_ifs with h
        · rfl
        · rfl
      · have hno : ¬ pastCode counts n < 2 ^ n :=
          fun h => hroom (pastCode_lt_of_lt (by omega) h)
        rw [if_pos (Nat.not_lt.mp hroom), if_neg hno]

theorem figureC2_sizesFrom {counts : ℕ → ℕ} (d : ℕ) {l : ℕ} (hld : l + d = 17) (hl : 1 ≤ l)
    (hfirst : firstCode counts l = 0) : figureC2 (sizesFrom counts l d) =
      if pastCode counts 16 < 2 ^ 16 then .ok (codewordsFrom counts l d) else .error .badHuffTable := by
  have hpow := Nat.two_pow_pos l
  induction d generalizing l with
  | zero =>
    have h := @codesFrom_eq counts 16 0 l 16 hld (by omega) (by omega)
    rw [hfirst] at h
    exact h
  | succ d ih =>
    cases hc : counts l with
    | zero =>
      have hnext : firstCode counts (l + 1) = 0 := by rw [firstCode, hfirst, hc]
      rw [sizesFrom_succ, codewordsFrom_succ, hc]
      exact ih (by omega) (by omega) hnext (Nat.two_pow_pos _)
    | succ c =>
      have hhead : (sizesFrom counts l (d + 1)).headD 0 = l := by
        rw [sizesFrom_succ, hc, List.replicate_succ, List.cons_append, List.headD_cons]
      have h := @codesFrom_eq counts 16 (d + 1) l 16 hld (by omega) (by omega)
      rw [hfirst] at h
      rw [figureC2, hhead]
      exact h

end Codes

section Validity
variable (htbl : JHuffTbl)

theorem counts_eq {l : ℕ} (h1 : 1 ≤ l) (h16 : l ≤ 16) : counts htbl l = (htbl.bits l).toNat :=
  if_pos ⟨h1, h16⟩

theorem counts_zero : counts htbl 0 = 0 := rfl

theorem len_pos {htbl : JHuffTbl} (s : Codeword htbl) : 1 ≤ s.len := by
  have h := s.rank_lt
  rw [Nat.one_le_iff_ne_zero]
  intro hzero
  rw [hzero, counts_zero] at h
  exact Nat.not_lt_zero _ h

def sizes : List ℕ := byLength (fun k => List.replicate (counts htbl k) k) 17

def codes : List ℕ := byLength (fun k => List.range' (firstCode (counts htbl) k) (counts htbl k)) 17

theorem byLength_from_one {α : Type*} {f : ℕ → List α} (h : f 0 = []) (m : ℕ) :
    byLength f (m + 1) = (List.range' 1 m).flatMap f := by
  rw [byLength, List.range_eq_range', List.range'_succ, List.flatMap_cons, h, List.nil_append]

theorem sizes_eq : sizes htbl = sizesFrom (counts htbl) 1 16 := byLength_from_one rfl 16

theorem codes_eq : codes htbl = codewordsFrom (counts htbl) 1 16 := byLength_from_one rfl 16

theorem length_sizes : (sizes htbl).length = shorter (counts htbl) 17 :=
  length_byLength (fun _ => List.length_replicate) 17

theorem sizes_index {htbl : JHuffTbl} (s : Codeword htbl) : (sizes htbl)[s.index]? = some s.len := by
  rw [sizes, s.getElem?_byLength (fun _ => List.length_replicate),
    List.getElem?_replicate_of_lt s.rank_lt]

theorem codes_index {htbl : JHuffTbl} (s : Codeword htbl) : (codes htbl)[s.index]? = some s.code := by
  rw [codes, s.getElem?_byLength (fun _ => List.length_range'), List.getElem?_range' s.rank_lt,
    Nat.one_mul]
  rfl

private theorem figureC1_upto {m : ℕ} (hm : m ≤ 16) : (List.range' 1 m).foldlM (listLength htbl) [] =
    if shorter (counts htbl) (m + 1) ≤ 256 then
      .ok (byLength (fun k => List.replicate (counts htbl k) k) (m + 1))
    else .error .badHuffTable := by
  induction m with
  | zero => rfl
  | succ m ih =>
    have hcount : counts htbl (m + 1) = (htbl.bits (1 + m)).toNat := by
      rw [Nat.add_comm 1 m]
      exact counts_eq htbl (by omega) hm
    have hlen := length_byLength (f := fun k => List.replicate (counts htbl k) k)
      (fun _ => List.length_replicate) (m + 1)
    have hlist := byLength_succ (fun k => List.replicate (counts htbl k) k) (m + 1)
    have hshort : shorter (counts htbl) (m + 1 + 1) =
        shorter (counts htbl) (m + 1) + (htbl.bits (1 + m)).toNat := by rw [← hcount, shorter]
    have hone : ∀ huffsize, [1 + m].foldlM (listLength htbl) huffsize = listLength htbl huffsize (1 + m) := by
      intro huffsize
      rw [List.foldlM_cons]
      cases listLength htbl huffsize (1 + m) <;> rfl
    rw [List.range'_1_concat, List.foldlM_append, ih (by omega), hlist, hshort]
    by_cases hfits : shorter (counts htbl) (m + 1) ≤ 256
    · rw [if_pos hfits]
      change [1 + m].foldlM (listLength htbl) _ = _
      rw [hone, listLength, hlen, ← hcount, Nat.add_comm 1 m]
      split_ifs with h h' h'
      · omega
      · rfl
      · rfl
      · omega
    · rw [if_neg hfits, if_neg (by omega)]
      rfl

theorem figureC1_eq : figureC1 htbl =
    if shorter (counts htbl) 17 ≤ 256 then .ok (sizes htbl) else .error .badHuffTable :=
  figureC1_upto htbl (Nat.le_refl 16)

theorem figureC2_sizes : figureC2 (sizes htbl) =
    if pastCode (counts htbl) 16 < 2 ^ 16 then .ok (codes htbl) else .error .badHuffTable := by
  rw [sizes_eq, codes_eq]
  exact figureC2_sizesFrom 16 rfl (Nat.le_refl 1) rfl

variable {htbl}

theorem Valid.legal (h : Valid htbl) : Legal (counts htbl) 16 := legal_of_lt h.room

theorem Valid.figureC1 (h : Valid htbl) : figureC1 htbl = .ok (sizes htbl) := by
  rw [figureC1_eq, if_pos h.fits]

theorem Valid.figureC2 (h : Valid htbl) : figureC2 (sizes htbl) = .ok (codes htbl) := by
  rw [figureC2_sizes, if_pos h.room]

theorem figures_of_not_valid (h : ¬ Valid htbl) :
    (HuffmanTables.figureC1 htbl).bind HuffmanTables.figureC2 = .error .badHuffTable := by
  rw [figureC1_eq]
  by_cases hfits : shorter (counts htbl) 17 ≤ 256
  · have hroom : ¬ pastCode (counts htbl) 16 < 2 ^ 16 := fun hroom => h ⟨hfits, hroom⟩
    rw [if_pos hfits]
    change HuffmanTables.figureC2 (sizes htbl) = _
    rw [figureC2_sizes, if_neg hroom]
  · rw [if_neg hfits]
    rfl

end Validity

section EncodingTable

def maxSymbol (isDC : Bool) : ℕ := if isDC then 15 else 255

structure DistinctSymbols (htbl : JHuffTbl) (isDC : Bool) : Prop where
  bounded : ∀ s : Codeword htbl, s.symbol ≤ maxSymbol isDC
  injective : ∀ s t : Codeword htbl, s.symbol = t.symbol → s = t

/-- The first `m` codewords are entered, and nothing else. -/
structure Entered (htbl : JHuffTbl) (isDC : Bool) (m : ℕ) (dtbl : CDerivedTbl) : Prop where
  code : ∀ s : Codeword htbl, s.index < m → dtbl.ehufco s.symbol = s.code
  size : ∀ s : Codeword htbl, s.index < m → dtbl.ehufsi s.symbol = s.len
  source : ∀ sym, dtbl.ehufsi sym ≠ 0 → ∃ s : Codeword htbl, s.index < m ∧ s.symbol = sym
  bounded : ∀ s : Codeword htbl, s.index < m → s.symbol ≤ maxSymbol isDC
  injective : ∀ s t : Codeword htbl, s.index < m → t.index < m → s.symbol = t.symbol → s = t

variable {htbl : JHuffTbl} {isDC : Bool}

theorem entered_zero : Entered htbl isDC 0 { ehufco := fun _ => 0, ehufsi := fun _ => 0 } where
  code _ h := absurd h (Nat.not_lt_zero _)
  size _ h := absurd h (Nat.not_lt_zero _)
  source _ h := absurd rfl h
  bounded _ h := absurd h (Nat.not_lt_zero _)
  injective _ _ h := absurd h (Nat.not_lt_zero _)

theorem Entered.enter {dtbl : CDerivedTbl} {s : Codeword htbl} (h : Entered htbl isDC s.index dtbl)
    (hmax : s.symbol ≤ maxSymbol isDC) (hnew : dtbl.ehufsi s.symbol = 0) :
    Entered htbl isDC (s.index + 1) { ehufco := Function.update dtbl.ehufco s.symbol s.code,
                                      ehufsi := Function.update dtbl.ehufsi s.symbol s.len } := by
  have hcases : ∀ t : Codeword htbl, t.index < s.index + 1 → t.index < s.index ∨ t = s := by
    intro t ht
    rcases Nat.lt_succ_iff_lt_or_eq.mp ht with hlt | heq
    · exact .inl hlt
    · exact .inr (t.index_injective s heq)
  have hother : ∀ t : Codeword htbl, t.index < s.index → t.symbol ≠ s.symbol := by
    intro t ht heq
    have hsize := h.size t ht
    rw [heq, hnew] at hsize
    exact absurd hsize.symm (Nat.one_le_iff_ne_zero.mp (len_pos t))
  constructor
  case code =>
    intro t ht
    rcases hcases t ht with hlt | rfl
    · exact (Function.update_of_ne (hother t hlt) _ _).trans (h.code t hlt)
    · exact Function.update_self _ _ _
  case size =>
    intro t ht
    rcases hcases t ht with hlt | rfl
    · exact (Function.update_of_ne (hother t hlt) _ _).trans (h.size t hlt)
    · exact Function.update_self _ _ _
  case source =>
    intro sym hsym
    by_cases heq : sym = s.symbol
    · exact ⟨s, Nat.lt_succ_self _, heq.symm⟩
    · change Function.update dtbl.ehufsi s.symbol s.len sym ≠ 0 at hsym
      rw [Function.update_of_ne heq] at hsym
      obtain ⟨t, ht, rfl⟩ := h.source sym hsym
      exact ⟨t, Nat.lt_succ_of_lt ht, rfl⟩
  case bounded =>
    intro t ht
    rcases hcases t ht with hlt | rfl
    · exact h.bounded t hlt
    · exact hmax
  case injective =>
    intro t u ht hu heq
    rcases hcases t ht with htl | rfl
    · rcases hcases u hu with hul | rfl
      · exact h.injective t u htl hul heq
      · exact absurd heq (hother t htl)
    · rcases hcases u hu with hul | rfl
      · exact absurd heq.symm (hother u hul)
      · rfl

def enterAt (isDC : Bool) (htbl : JHuffTbl) (dtbl : CDerivedTbl) (p : ℕ) : Except HuffError CDerivedTbl :=
  enterCode (maxSymbol isDC) (htbl.huffval p).toNat ((codes htbl).getD p 0) ((sizes htbl).getD p 0) dtbl

theorem enterAt_index (dtbl : CDerivedTbl) (s : Codeword htbl) :
    enterAt isDC htbl dtbl s.index = enterCode (maxSymbol isDC) s.symbol s.code s.len dtbl := by
  rw [enterAt, List.getD_eq_getElem?_getD, codes_index s, List.getD_eq_getElem?_getD, sizes_index s]
  rfl

private theorem enterAt_upto {m : ℕ} (hm : m ≤ shorter (counts htbl) 17) :
    (∃ dtbl, (List.range m).foldlM (enterAt isDC htbl) { ehufco := fun _ => 0, ehufsi := fun _ => 0 } =
      .ok dtbl ∧ Entered htbl isDC m dtbl) ∨
    ((List.range m).foldlM (enterAt isDC htbl) { ehufco := fun _ => 0, ehufsi := fun _ => 0 } =
      .error .badHuffTable ∧ ¬ DistinctSymbols htbl isDC) := by
  induction m with
  | zero => exact .inl ⟨_, rfl, entered_zero⟩
  | succ m ih =>
    obtain ⟨s, rfl⟩ := exists_slot (n := 16) (show m < shorter (counts htbl) (16 + 1) from hm)
    rw [List.range_succ, List.foldlM_append]
    rcases ih (by omega) with ⟨dtbl, hfold, hentered⟩ | ⟨hfold, hnot⟩
    · rw [hfold]
      change (∃ d, (enterAt isDC htbl dtbl s.index >>= pure) = _ ∧ _) ∨
        (enterAt isDC htbl dtbl s.index >>= pure) = _ ∧ _
      rw [enterAt_index, bind_pure, enterCode]
      split_ifs with hbad
      · refine .inr ⟨rfl, ?_⟩
        intro hdistinct
        rcases hbad with habove | hdup
        · exact absurd (hdistinct.bounded s) (Nat.not_le.mpr habove)
        · obtain ⟨t, ht, hsym⟩ := hentered.source _ hdup
          rw [hdistinct.injective t s hsym] at ht
          exact absurd ht (Nat.lt_irrefl _)
      · rw [not_or, Nat.not_lt, not_not] at hbad
        exact .inl ⟨_, rfl, hentered.enter hbad.1 hbad.2⟩
    · rw [hfold]
      exact .inr ⟨rfl, hnot⟩

/-- What the encoder needs of its table: every symbol has its codeword, and no other a size. -/
structure EncodingTable (htbl : JHuffTbl) (dtbl : CDerivedTbl) : Prop where
  code : ∀ s : Codeword htbl, dtbl.ehufco s.symbol = s.code
  size : ∀ s : Codeword htbl, dtbl.ehufsi s.symbol = s.len
  source : ∀ sym, dtbl.ehufsi sym ≠ 0 → ∃ s : Codeword htbl, s.symbol = sym

theorem figureC3_cases :
    (∃ dtbl, figureC3 isDC htbl (sizes htbl) (codes htbl) = .ok dtbl ∧ EncodingTable htbl dtbl ∧
      DistinctSymbols htbl isDC) ∨
    (figureC3 isDC htbl (sizes htbl) (codes htbl) = .error .badHuffTable ∧
      ¬ DistinctSymbols htbl isDC) := by
  have hlen := length_sizes htbl
  rw [figureC3, hlen]
  rcases @enterAt_upto htbl isDC _ (Nat.le_refl _) with ⟨dtbl, hfold, h⟩ | ⟨hfold, hnot⟩
  · refine .inl ⟨dtbl, hfold, ⟨fun s => h.code s s.index_lt, fun s => h.size s s.index_lt, ?_⟩,
      ⟨fun s => h.bounded s s.index_lt, fun s t => h.injective s t s.index_lt t.index_lt⟩⟩
    intro sym hsym
    obtain ⟨s, -, rfl⟩ := h.source sym hsym
    exact ⟨s, rfl⟩
  · exact .inr ⟨hfold, hnot⟩

end EncodingTable

section DecodingTable
variable {htbl : JHuffTbl}

structure Bounded (htbl : JHuffTbl) (l : ℕ) (s : ℕ × (ℕ → ℤ) × (ℕ → ℤ)) : Prop where
  place : s.1 = shorter (counts htbl) l
  maxcode : ∀ k, 1 ≤ k → k < l → s.2.1 k =
    if counts htbl k = 0 then -1 else (pastCode (counts htbl) k : ℤ) - 1
  valoffset : ∀ k, k < l → counts htbl k ≠ 0 →
    s.2.2 k = (shorter (counts htbl) k : ℤ) - firstCode (counts htbl) k

theorem Bounded.enterLength {l : ℕ} {s : ℕ × (ℕ → ℤ) × (ℕ → ℤ)} (h : Bounded htbl l s) (hl : 1 ≤ l)
    (hl' : l ≤ 16) : Bounded htbl (l + 1) (enterLength htbl (codes htbl) s l) := by
  obtain ⟨p, maxcode, valoffset⟩ := s
  obtain rfl : p = shorter (counts htbl) l := h.place
  have hmax := h.maxcode
  have hoff := h.valoffset
  have hcount := counts_eq htbl hl hl'
  by_cases hzero : htbl.bits l = 0
  · have hnone : counts htbl l = 0 := by rw [hcount, hzero]; rfl
    rw [HuffmanTables.enterLength, if_neg (not_not.mpr hzero)]
    refine ⟨?_, ?_, ?_⟩
    · rw [shorter, hnone, Nat.add_zero]
    · intro k hk hkl
      rcases Nat.lt_succ_iff_lt_or_eq.mp hkl with hlt | rfl
      · exact (Function.update_of_ne (Nat.ne_of_lt hlt) _ _).trans (hmax k hk hlt)
      · rw [if_pos hnone]
        exact Function.update_self _ _ _
    · intro k hkl hk
      rcases Nat.lt_succ_iff_lt_or_eq.mp hkl with hlt | rfl
      · exact hoff k hlt hk
      · exact absurd hnone hk
  · have hsome : counts htbl l ≠ 0 := by
      rw [hcount]
      intro h0
      exact hzero (UInt8.toNat_inj.mp h0)
    have hfirst : (codes htbl).getD (shorter (counts htbl) l) 0 = firstCode (counts htbl) l := by
      have hindex := codes_index (⟨l, 0, hl', Nat.pos_of_ne_zero hsome⟩ : Codeword htbl)
      rw [List.getD_eq_getElem?_getD]
      exact congrArg (Option.getD · 0) hindex
    have hlast : (codes htbl).getD (shorter (counts htbl) l + counts htbl l - 1) 0 =
        firstCode (counts htbl) l + (counts htbl l - 1) := by
      have hindex := codes_index (⟨l, counts htbl l - 1, hl', by omega⟩ : Codeword htbl)
      rw [List.getD_eq_getElem?_getD, Nat.add_sub_assoc (Nat.pos_of_ne_zero hsome)]
      exact congrArg (Option.getD · 0) hindex
    rw [HuffmanTables.enterLength, if_pos hzero, ← hcount, hfirst]
    dsimp only
    rw [hlast]
    refine ⟨rfl, ?_, ?_⟩
    · intro k hk hkl
      rcases Nat.lt_succ_iff_lt_or_eq.mp hkl with hlt | rfl
      · exact (Function.update_of_ne (Nat.ne_of_lt hlt) _ _).trans (hmax k hk hlt)
      · rw [if_neg hsome, pastCode]
        refine (Function.update_self _ _ _).trans ?_
        omega
    · intro k hkl hk
      rcases Nat.lt_succ_iff_lt_or_eq.mp hkl with hlt | rfl
      · exact (Function.update_of_ne (Nat.ne_of_lt hlt) _ _).trans (hoff k hlt hk)
      · exact Function.update_self _ _ _

theorem bounded_fold {m : ℕ} (hm : m ≤ 16) : Bounded htbl (m + 1)
    ((List.range' 1 m).foldl (enterLength htbl (codes htbl)) (0, fun _ => 0, fun _ => 0)) := by
  induction m with
  | zero =>
    refine ⟨rfl, fun k hk hk' => absurd hk (by omega), fun k hk hk' => ?_⟩
    obtain rfl : k = 0 := by omega
    exact absurd (counts_zero htbl) hk'
  | succ m ih =>
    rw [List.range'_1_concat, List.foldl_append, Nat.add_comm 1 m]
    exact (ih (by omega)).enterLength (by omega) hm

/-- The lookahead tables are filled for the bit sequences below `b`. -/
structure Looked (htbl : JHuffTbl) (b : ℕ) (t : LookTables) : Prop where
  known : ∀ x < b, ∃ s : Codeword htbl, s.len ≤ 8 ∧ s.code = x / 2 ^ (8 - s.len) ∧
    t.1 x = s.len ∧ t.2 x = s.symbol
  unknown : ∀ x, b ≤ x → t.1 x = 0

theorem fillLook_eq (l sym ctr lookbits : ℕ) (t : LookTables) : fillLook l sym ctr lookbits t =
    (fun x => if lookbits ≤ x ∧ x < lookbits + ctr then l else t.1 x,
     fun x => if lookbits ≤ x ∧ x < lookbits + ctr then sym else t.2 x) := by
  induction ctr generalizing lookbits t with
  | zero =>
    have hnone : ∀ x, ¬ (lookbits ≤ x ∧ x < lookbits + 0) := fun x h => by omega
    simp only [fillLook, hnone, if_false]
  | succ ctr ih =>
    have hpoint : ∀ (f : ℕ → ℕ) (v x : ℕ),
        (if lookbits + 1 ≤ x ∧ x < lookbits + 1 + ctr then v else Function.update f lookbits v x) =
          if lookbits ≤ x ∧ x < lookbits + (ctr + 1) then v else f x := by
      intro f v x
      by_cases hx : x = lookbits
      · subst hx
        rw [if_neg (by omega), if_pos (by omega), Function.update_self]
      · rw [Function.update_of_ne hx]
        exact if_congr (by omega) rfl rfl
    rw [fillLook, ih]
    simp only [hpoint]

theorem Looked.lookCode {s : Codeword htbl} (hs : s.len ≤ 8) {t : LookTables}
    (h : Looked htbl (s.code * 2 ^ (8 - s.len)) t) :
    Looked htbl ((s.code + 1) * 2 ^ (8 - s.len)) (lookCode htbl (codes htbl) s.len (s.index, t)).2 ∧
      (lookCode htbl (codes htbl) s.len (s.index, t)).1 = s.index + 1 := by
  have hcode : (codes htbl).getD s.index 0 = s.code := by
    rw [List.getD_eq_getElem?_getD, codes_index s]
    rfl
  have hfill : (HuffmanTables.lookCode htbl (codes htbl) s.len (s.index, t)).2 =
      fillLook s.len s.symbol (2 ^ (8 - s.len)) (s.code * 2 ^ (8 - s.len)) t := by
    simp only [HuffmanTables.lookCode, hcode, Nat.shiftLeft_eq, Nat.one_mul]
    rfl
  have hend : (s.code + 1) * 2 ^ (8 - s.len) = s.code * 2 ^ (8 - s.len) + 2 ^ (8 - s.len) :=
    Nat.succ_mul _ _
  have hpos := Nat.two_pow_pos (8 - s.len)
  refine ⟨?_, rfl⟩
  rw [hfill, fillLook_eq]
  constructor
  case known =>
    intro x hx
    by_cases hin : s.code * 2 ^ (8 - s.len) ≤ x
    · have hdiv : x / 2 ^ (8 - s.len) = s.code := Nat.div_eq_of_lt_le hin hx
      exact ⟨s, hs, hdiv.symm, if_pos ⟨hin, by omega⟩, if_pos ⟨hin, by omega⟩⟩
    · obtain ⟨u, hu, hcode, hlen, hsym⟩ := h.known x (Nat.not_le.mp hin)
      exact ⟨u, hu, hcode, (if_neg (by omega)).trans hlen, (if_neg (by omega)).trans hsym⟩
  case unknown =>
    intro x hx
    exact (if_neg (by omega)).trans (h.unknown x (by omega))

theorem Looked.lookLength {l : ℕ} (hl : 1 ≤ l) (hl' : l ≤ 8) {t : LookTables}
    (h : Looked htbl (firstCode (counts htbl) l * 2 ^ (8 - l)) t) :
    Looked htbl (pastCode (counts htbl) l * 2 ^ (8 - l))
        (lookLength htbl (codes htbl) (shorter (counts htbl) l, t) l).2 ∧
      (lookLength htbl (codes htbl) (shorter (counts htbl) l, t) l).1 = shorter (counts htbl) (l + 1) := by
  have hround : ∀ j ≤ counts htbl l,
      Looked htbl ((firstCode (counts htbl) l + j) * 2 ^ (8 - l))
        ((HuffmanTables.lookCode htbl (codes htbl) l)^[j] (shorter (counts htbl) l, t)).2 ∧
      ((HuffmanTables.lookCode htbl (codes htbl) l)^[j] (shorter (counts htbl) l, t)).1 =
        shorter (counts htbl) l + j := by
    intro j hj
    induction j with
    | zero => exact ⟨h, rfl⟩
    | succ j ih =>
      obtain ⟨hlooked, hplace⟩ := ih (by omega)
      have hstep := Looked.lookCode (s := ⟨l, j, by omega, hj⟩) hl' hlooked
      rw [Function.iterate_succ_apply', ← Prod.mk.eta (p := (HuffmanTables.lookCode _ _ _)^[j] _), hplace]
      exact hstep
  rw [HuffmanTables.lookLength, ← counts_eq htbl hl (by omega)]
  exact hround _ (Nat.le_refl _)

theorem looked_fold {m : ℕ} (hm : m ≤ 8) :
    Looked htbl (pastCode (counts htbl) m * 2 ^ (8 - m))
      ((List.range' 1 m).foldl (lookLength htbl (codes htbl)) (0, fun _ => 0, fun _ => 0)).2 ∧
    ((List.range' 1 m).foldl (lookLength htbl (codes htbl)) (0, fun _ => 0, fun _ => 0)).1 =
      shorter (counts htbl) (m + 1) := by
  induction m with
  | zero =>
    refine ⟨⟨fun x hx => absurd hx ?_, fun _ _ => rfl⟩, rfl⟩
    rw [pastCode, counts_zero, firstCode]
    omega
  | succ m ih =>
    obtain ⟨hlooked, hplace⟩ := ih (by omega)
    have hstart : firstCode (counts htbl) (m + 1) * 2 ^ (8 - (m + 1)) =
        pastCode (counts htbl) m * 2 ^ (8 - m) := by
      have hpow : 2 ^ (8 - m) = 2 * 2 ^ (8 - (m + 1)) := by
        rw [Nat.mul_comm, ← Nat.pow_succ]
        congr 1
        omega
      rw [firstCode_succ, hpow]
      ring
    rw [← hstart] at hlooked
    rw [List.range'_1_concat, List.foldl_append, Nat.add_comm 1 m, List.foldl_cons, List.foldl_nil,
      ← Prod.mk.eta (p := List.foldl _ _ _), hplace]
    exact hlooked.lookLength (by omega) hm

structure DecodingTable (htbl : JHuffTbl) (dtbl : DDerivedTbl) : Prop where
  pub : dtbl.pub = htbl
  past : ∀ l, 1 ≤ l → l ≤ 16 → ∀ c : ℕ, firstCode (counts htbl) l ≤ c →
    (dtbl.maxcode l < c ↔ pastCode (counts htbl) l ≤ c)
  sentinel : dtbl.maxcode 17 = 0xFFFFF
  offset : ∀ s : Codeword htbl, (s.code : ℤ) + dtbl.valoffset s.len = s.index
  known : ∀ x < 2 ^ 8, dtbl.lookNbits x ≠ 0 → ∃ s : Codeword htbl, s.len ≤ 8 ∧
    s.code = x / 2 ^ (8 - s.len) ∧ dtbl.lookNbits x = s.len ∧ dtbl.lookSym x = s.symbol
  unknown : ∀ x < 2 ^ 8, dtbl.lookNbits x = 0 → ∀ l ≤ 8,
    pastCode (counts htbl) l ≤ x / 2 ^ (8 - l)

theorem decodingTable (htbl : JHuffTbl) : DecodingTable htbl
    { maxcode := (figureF15 htbl (codes htbl)).1
      valoffset := (figureF15 htbl (codes htbl)).2
      pub := htbl
      lookNbits := (lookaheadTables htbl (codes htbl)).1
      lookSym := (lookaheadTables htbl (codes htbl)).2 } := by
  have hbounded := @bounded_fold htbl _ (Nat.le_refl 16)
  obtain ⟨hlooked, -⟩ := @looked_fold htbl _ (Nat.le_refl 8)
  rw [Nat.sub_self, Nat.pow_zero, Nat.mul_one] at hlooked
  constructor
  case pub => rfl
  case past =>
    intro l hl hl' c hc
    have hmax : (figureF15 htbl (codes htbl)).1 l =
        if counts htbl l = 0 then -1 else (pastCode (counts htbl) l : ℤ) - 1 :=
      (Function.update_of_ne (by omega) _ _).trans (hbounded.maxcode l hl (by omega))
    change (figureF15 htbl (codes htbl)).1 l < c ↔ _
    rw [hmax]
    split_ifs with hzero
    · rw [pastCode, hzero, Nat.add_zero]
      exact ⟨fun _ => hc, fun _ => by omega⟩
    · omega
  case sentinel =>
    change (figureF15 htbl (codes htbl)).1 17 = 0xFFFFF
    rw [figureF15]
    dsimp only
    rw [Function.update_self]
  case offset =>
    intro s
    have hrank := s.rank_lt
    have hoff : (figureF15 htbl (codes htbl)).2 s.len = _ :=
      hbounded.valoffset s.len (Nat.lt_succ_of_le s.len_le) (by omega)
    change (s.code : ℤ) + (figureF15 htbl (codes htbl)).2 s.len = _
    rw [hoff, Slot.code, Slot.index]
    omega
  case known =>
    intro x _ hknown
    refine hlooked.known x ?_
    by_contra hpast
    exact hknown (hlooked.unknown x (Nat.not_lt.mp hpast))
  case unknown =>
    intro x _ hzero l hl
    have hpast : pastCode (counts htbl) 8 ≤ x := by
      by_contra hbelow
      obtain ⟨s, -, -, hlen, -⟩ := hlooked.known x (Nat.not_le.mp hbelow)
      exact absurd (hlen.symm.trans hzero) (Nat.one_le_iff_ne_zero.mp (len_pos s))
    rw [Nat.le_div_iff_mul_le (Nat.two_pow_pos _)]
    rcases Nat.lt_or_eq_of_le hl with hlt | rfl
    · exact Nat.le_trans (pastCode_mul_le _ hlt) (Nat.le_trans (firstCode_le_pastCode _ 8) hpast)
    · rw [Nat.sub_self, Nat.pow_zero, Nat.mul_one]
      exact hpast

end DecodingTable

section TableMakers
variable {isDC : Bool} {tbls : TablePtrs} {tblno : ℕ} {htbl : JHuffTbl}

/-- The encoder accepts the valid tables without duplicates. -/
theorem makeC_of_valid (hfind : findTable tbls tblno = .ok htbl) (hvalid : Valid htbl)
    (hdistinct : DistinctSymbols htbl isDC) :
    ∃ dtbl, jpegMakeCDerivedTbl isDC tbls tblno = .ok dtbl ∧ EncodingTable htbl dtbl := by
  rcases @figureC3_cases htbl isDC with ⟨dtbl, hfig, htable, -⟩ | ⟨-, hnot⟩
  · refine ⟨dtbl, ?_, htable⟩
    rw [jpegMakeCDerivedTbl, hfind]
    change (figureC1 htbl).bind _ = _
    rw [hvalid.figureC1]
    change (figureC2 (sizes htbl)).bind _ = _
    rw [hvalid.figureC2]
    exact hfig
  · exact absurd hdistinct hnot

/-- A table that the encoder has accepted is valid and without duplicates. -/
theorem makeC_sound {dtbl : CDerivedTbl} (h : jpegMakeCDerivedTbl isDC tbls tblno = .ok dtbl) :
    ∃ htbl, findTable tbls tblno = .ok htbl ∧ Valid htbl ∧ DistinctSymbols htbl isDC ∧
      EncodingTable htbl dtbl := by
  rw [jpegMakeCDerivedTbl] at h
  cases hfind : findTable tbls tblno with
  | error e =>
    rw [hfind] at h
    exact absurd h (by simp [bind, Except.bind])
  | ok htbl =>
    rw [hfind] at h
    change (figureC1 htbl).bind (fun huffsize => (figureC2 huffsize).bind
      (fun huffcode => figureC3 isDC htbl huffsize huffcode)) = .ok dtbl at h
    refine ⟨htbl, rfl, ?_⟩
    by_cases hvalid : Valid htbl
    · rw [hvalid.figureC1] at h
      change (figureC2 (sizes htbl)).bind _ = _ at h
      rw [hvalid.figureC2] at h
      change figureC3 isDC htbl (sizes htbl) (codes htbl) = _ at h
      rcases @figureC3_cases htbl isDC with ⟨dtbl', hfig, htable, hdistinct⟩ | ⟨hfig, -⟩
      · rw [hfig, Except.ok.injEq] at h
        subst h
        exact ⟨hvalid, hdistinct, htable⟩
      · rw [hfig] at h
        exact absurd h (by simp)
    · have hno := figures_of_not_valid hvalid
      cases hsize : figureC1 htbl with
      | error e =>
        rw [hsize] at h
        exact absurd h (by simp [Except.bind])
      | ok huffsize =>
        rw [hsize] at h hno
        change figureC2 huffsize = _ at hno
        change (figureC2 huffsize).bind _ = _ at h
        rw [hno] at h
        exact absurd h (by simp [Except.bind])

theorem makeD_of_valid (hfind : findTable tbls tblno = .ok htbl) (hvalid : Valid htbl)
    (hbounded : isDC = true → ∀ s : Codeword htbl, s.symbol ≤ 15) :
    ∃ dtbl, jpegMakeDDerivedTbl isDC tbls tblno = .ok dtbl ∧ DecodingTable htbl dtbl := by
  refine ⟨_, ?_, decodingTable htbl⟩
  have hcheck : (isDC && (List.range (sizes htbl).length).any
      (fun i => decide (15 < (htbl.huffval i).toNat))) = false := by
    cases isDC with
    | false => rfl
    | true =>
      rw [Bool.true_and, List.any_eq_false]
      intro i hi
      rw [List.mem_range, length_sizes] at hi
      obtain ⟨s, rfl⟩ := exists_slot (n := 16) hi
      have := hbounded rfl s
      simpa [Codeword.symbol] using this
  rw [jpegMakeDDerivedTbl, hfind]
  change (figureC1 htbl).bind _ = _
  rw [hvalid.figureC1]
  change (figureC2 (sizes htbl)).bind _ = _
  rw [hvalid.figureC2]
  change (if (isDC && (List.range (sizes htbl).length).any _) = true then _ else _) = _
  rw [hcheck, if_neg Bool.false_ne_true]

theorem makeD_sound {dtbl : DDerivedTbl} (h : jpegMakeDDerivedTbl isDC tbls tblno = .ok dtbl) :
    ∃ htbl, findTable tbls tblno = .ok htbl ∧ Valid htbl ∧ DecodingTable htbl dtbl ∧
      (isDC = true → ∀ s : Codeword htbl, s.symbol ≤ 15) := by
  rw [jpegMakeDDerivedTbl] at h
  cases hfind : findTable tbls tblno with
  | error e =>
    rw [hfind] at h
    exact absurd h (by simp [bind, Except.bind])
  | ok htbl =>
    rw [hfind] at h
    refine ⟨htbl, rfl, ?_⟩
    by_cases hvalid : Valid htbl
    · change (figureC1 htbl).bind _ = _ at h
      rw [hvalid.figureC1] at h
      change (figureC2 (sizes htbl)).bind _ = _ at h
      rw [hvalid.figureC2] at h
      change (if (isDC && (List.range (sizes htbl).length).any
        (fun i => decide (15 < (htbl.huffval i).toNat))) = true then _ else _) = _ at h
      split_ifs at h with hcheck
      obtain rfl := Except.ok.inj h
      refine ⟨hvalid, decodingTable htbl, ?_⟩
      rintro rfl s
      rw [Bool.true_and, Bool.not_eq_true, List.any_eq_false] at hcheck
      have hindex : s.index < (sizes htbl).length := by
        rw [length_sizes]
        exact s.index_lt
      have hsymbol := hcheck s.index (List.mem_range.mpr hindex)
      rw [decide_eq_true_eq, Nat.not_lt] at hsymbol
      exact hsymbol
    · have hno := figures_of_not_valid hvalid
      change (figureC1 htbl).bind _ = _ at h
      cases hsize : figureC1 htbl with
      | error e =>
        rw [hsize] at h
        exact absurd h (by simp [Except.bind])
      | ok huffsize =>
        rw [hsize] at h hno
        change figureC2 huffsize = _ at hno
        change (figureC2 huffsize).bind _ = _ at h
        rw [hno] at h
        exact absurd h (by simp [Except.bind])

theorem valid_iff (htbl : JHuffTbl) : Valid htbl ↔ ∑ l ∈ Finset.range 17, counts htbl l ≤ 256 ∧
    ∑ l ∈ Finset.range 17, counts htbl l * 2 ^ (16 - l) < 2 ^ 16 := by
  rw [← shorter_eq_sum, ← pastCode_eq_sum]
  exact ⟨fun h => ⟨h.fits, h.room⟩, fun h => ⟨h.1, h.2⟩⟩

/-- The tables that are accepted: the codes fit below the codeword of all ones, and the symbols are
those of their class; the encoder wants them to be different. -/
theorem makeTables_iff (isDC : Bool) (tbls : TablePtrs) (tblno : ℕ) :
    ((∃ dtbl, jpegMakeCDerivedTbl isDC tbls tblno = .ok dtbl) ↔ ∃ htbl, findTable tbls tblno = .ok htbl ∧
      (∑ l ∈ Finset.range 17, counts htbl l ≤ 256 ∧
        ∑ l ∈ Finset.range 17, counts htbl l * 2 ^ (16 - l) < 2 ^ 16) ∧ DistinctSymbols htbl isDC) ∧
    ((∃ dtbl, jpegMakeDDerivedTbl isDC tbls tblno = .ok dtbl) ↔ ∃ htbl, findTable tbls tblno = .ok htbl ∧
      (∑ l ∈ Finset.range 17, counts htbl l ≤ 256 ∧
        ∑ l ∈ Finset.range 17, counts htbl l * 2 ^ (16 - l) < 2 ^ 16) ∧
        (isDC = true → ∀ s : Codeword htbl, s.symbol ≤ 15)) := by
  constructor
  · constructor
    · rintro ⟨dtbl, h⟩
      obtain ⟨htbl, hfind, hvalid, hdistinct, -⟩ := makeC_sound h
      exact ⟨htbl, hfind, (valid_iff htbl).mp hvalid, hdistinct⟩
    · rintro ⟨htbl, hfind, hvalid, hdistinct⟩
      obtain ⟨dtbl, h, -⟩ := makeC_of_valid hfind ((valid_iff htbl).mpr hvalid) hdistinct
      exact ⟨dtbl, h⟩
  · constructor
    · rintro ⟨dtbl, h⟩
      obtain ⟨htbl, hfind, hvalid, -, hbounded⟩ := makeD_sound h
      exact ⟨htbl, hfind, (valid_iff htbl).mp hvalid, hbounded⟩
    · rintro ⟨htbl, hfind, hvalid, hbounded⟩
      obtain ⟨dtbl, h, -⟩ := makeD_of_valid hfind ((valid_iff htbl).mpr hvalid) hbounded
      exact ⟨dtbl, h⟩

theorem makeD_of_makeC {ctbl : CDerivedTbl} (h : jpegMakeCDerivedTbl isDC tbls tblno = .ok ctbl) :
    ∃ htbl dtbl, jpegMakeDDerivedTbl isDC tbls tblno = .ok dtbl ∧ Valid htbl ∧
      DistinctSymbols htbl isDC ∧ EncodingTable htbl ctbl ∧ DecodingTable htbl dtbl := by
  obtain ⟨htbl, hfind, hvalid, hdistinct, hencoding⟩ := makeC_sound h
  have hbounded : isDC = true → ∀ s : Codeword htbl, s.symbol ≤ 15 := by
    rintro rfl s
    exact hdistinct.bounded s
  obtain ⟨dtbl, hmake, hdecoding⟩ := makeD_of_valid hfind hvalid hbounded
  exact ⟨htbl, dtbl, hmake, hvalid, hdistinct, hencoding, hdecoding⟩

end TableMakers

section Scans

/-- What the entropy coders read of `cinfo`: the component of each block of an MCU, the table
numbers of the components, the tables, and the restart interval. -/
structure EntropyScan where
  compsInScan : ℕ
  mcuMembership : List ℕ
  dcTblNo : ℕ → ℕ
  acTblNo : ℕ → ℕ
  dcHuffTblPtrs : TablePtrs
  acHuffTblPtrs : TablePtrs
  restartInterval : ℕ
  membership_lt : ∀ ci ∈ mcuMembership, ci < compsInScan

def deriveComponent {τ : Type} (make : Bool → ℕ → Except HuffError τ) (cinfo : EntropyScan)
    (tbls : (ℕ → τ) × (ℕ → τ)) (ci : ℕ) : Except HuffError ((ℕ → τ) × (ℕ → τ)) := do
  let dc ← make true (cinfo.dcTblNo ci)
  let ac ← make false (cinfo.acTblNo ci)
  .ok (Function.update tbls.1 (cinfo.dcTblNo ci) dc, Function.update tbls.2 (cinfo.acTblNo ci) ac)

/-- The tables of the components of a scan, as both `start_pass` methods make them. -/
def deriveTables {τ : Type} (make : Bool → ℕ → Except HuffError τ) (cinfo : EntropyScan) (unallocated : τ) :
    Except HuffError ((ℕ → τ) × (ℕ → τ)) :=
  (List.range cinfo.compsInScan).foldlM (deriveComponent make cinfo)
    (fun _ => unallocated, fun _ => unallocated)

def EntropyScan.tablePtrs (cinfo : EntropyScan) (isDC : Bool) : TablePtrs :=
  if isDC then cinfo.dcHuffTblPtrs else cinfo.acHuffTblPtrs

structure Derived {τ : Type} (make : Bool → ℕ → Except HuffError τ) (cinfo : EntropyScan) (n : ℕ)
    (tbls : (ℕ → τ) × (ℕ → τ)) : Prop where
  dc : ∀ ci < n, make true (cinfo.dcTblNo ci) = .ok (tbls.1 (cinfo.dcTblNo ci))
  ac : ∀ ci < n, make false (cinfo.acTblNo ci) = .ok (tbls.2 (cinfo.acTblNo ci))

variable {τ : Type} {make : Bool → ℕ → Except HuffError τ} {cinfo : EntropyScan}

theorem deriveComponent_ok {n : ℕ} {tbls tbls' : (ℕ → τ) × (ℕ → τ)} (h : Derived make cinfo n tbls)
    (hok : deriveComponent make cinfo tbls n = .ok tbls') : Derived make cinfo (n + 1) tbls' := by
  -- a table that is made again is made the same
  have hone : ∀ (isDC : Bool) (tblNo : ℕ → ℕ) (f : ℕ → τ) (t : τ),
      (∀ ci < n, make isDC (tblNo ci) = .ok (f (tblNo ci))) → make isDC (tblNo n) = .ok t →
      ∀ ci < n + 1, make isDC (tblNo ci) = .ok (Function.update f (tblNo n) t (tblNo ci)) := by
    intro isDC tblNo f t hf ht ci hci
    by_cases hsame : tblNo ci = tblNo n
    · rw [hsame, Function.update_self, ht]
    · rw [Function.update_of_ne hsame]
      refine hf ci (Nat.lt_of_le_of_ne (Nat.le_of_lt_succ hci) ?_)
      rintro rfl
      exact hsame rfl
  cases hdc : make true (cinfo.dcTblNo n) with
  | error e =>
    rw [deriveComponent, hdc] at hok
    exact absurd hok (by simp [bind, Except.bind])
  | ok dc =>
    cases hac : make false (cinfo.acTblNo n) with
    | error e =>
      rw [deriveComponent, hdc, hac] at hok
      exact absurd hok (by simp [bind, Except.bind])
    | ok ac =>
      rw [deriveComponent, hdc, hac] at hok
      obtain rfl := Except.ok.inj hok
      exact ⟨hone true _ _ _ h.dc hdc, hone false _ _ _ h.ac hac⟩

theorem derived_of_ok {unallocated : τ} {tbls : (ℕ → τ) × (ℕ → τ)}
    (h : deriveTables make cinfo unallocated = .ok tbls) : Derived make cinfo cinfo.compsInScan tbls := by
  have hupto : ∀ n tbls, (List.range n).foldlM (deriveComponent make cinfo)
      (fun _ => unallocated, fun _ => unallocated) = .ok tbls → Derived make cinfo n tbls := by
    intro n
    induction n with
    | zero => exact fun _ _ => ⟨fun ci hci => absurd hci (Nat.not_lt_zero ci),
        fun ci hci => absurd hci (Nat.not_lt_zero ci)⟩
    | succ n ih =>
      intro tbls htbls
      rw [List.range_succ, List.foldlM_append] at htbls
      cases hfold : (List.range n).foldlM (deriveComponent make cinfo)
          (fun _ => unallocated, fun _ => unallocated) with
      | error e =>
        rw [hfold] at htbls
        exact absurd htbls (by simp [bind, Except.bind])
      | ok tbls₁ =>
        rw [hfold] at htbls
        change (deriveComponent make cinfo tbls₁ n >>= pure) = _ at htbls
        rw [bind_pure] at htbls
        exact deriveComponent_ok (ih tbls₁ hfold) htbls
  exact hupto _ tbls h

theorem exists_derived (unallocated : τ) (h : ∀ ci < cinfo.compsInScan,
    (∃ t, make true (cinfo.dcTblNo ci) = .ok t) ∧ ∃ t, make false (cinfo.acTblNo ci) = .ok t) :
    ∃ tbls, deriveTables make cinfo unallocated = .ok tbls := by
  have hupto : ∀ n ≤ cinfo.compsInScan, ∃ tbls, (List.range n).foldlM (deriveComponent make cinfo)
      (fun _ => unallocated, fun _ => unallocated) = .ok tbls := by
    intro n hn
    induction n with
    | zero => exact ⟨_, rfl⟩
    | succ n ih =>
      obtain ⟨tbls, htbls⟩ := ih (Nat.le_of_succ_le hn)
      obtain ⟨⟨dc, hdc⟩, ac, hac⟩ := h n hn
      refine ⟨(Function.update tbls.1 (cinfo.dcTblNo n) dc, Function.update tbls.2 (cinfo.acTblNo n) ac), ?_⟩
      rw [List.range_succ, List.foldlM_append, htbls]
      change (deriveComponent make cinfo tbls n >>= pure) = _
      rw [bind_pure, deriveComponent, hdc, hac]
      rfl
  exact hupto _ (Nat.le_refl _)

end Scans

end Jp4Tools.HuffmanTables
