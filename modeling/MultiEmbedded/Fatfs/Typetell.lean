import Mathlib.Data.Nat.Notation
import Mathlib.Tactic.Common

/-!
# f_typetell (fatfs/exfuns/exfuns.c)

The type of a file from its name. A pointer into the name is what stands before
it, backwards, and what it still points at; the NUL is the end of the latter. A
read before the name, a copy from a pointer that was never set and a row of the
table that is read past its last entry end the run with a fault.
-/

namespace MultiEmbedded.Fatfs

abbrev Byte := BitVec 8

inductive Fault
  | beforeName
  | nullAttr
  | tbuf
  | nullEntry
  deriving DecidableEq

abbrev Run (α : Type) := Except Fault α

def chars (s : List Char) : List Byte := s.map fun c => BitVec.ofNat 8 c.toNat

def DOT : Byte := 0x2E

def BIN : List Byte := chars ['B', 'I', 'N']

/-- The rows have up to 13 entries; the others are null pointers. -/
def FILE_TYPE_TBL : List (List (List Byte)) :=
  [[BIN],
    [chars ['L', 'R', 'C']],
    [chars ['N', 'E', 'S']],
    [chars ['T', 'X', 'T'], chars ['C'], chars ['H']],
    [chars ['M', 'P', '1'], chars ['M', 'P', '2'], chars ['M', 'P', '3'], chars ['M', 'P', '4'],
      chars ['M', '4', 'A'], chars ['3', 'G', 'P'], chars ['3', 'G', '2'], chars ['O', 'G', 'G'],
      chars ['A', 'C', 'C'], chars ['W', 'M', 'A'], chars ['W', 'A', 'V'], chars ['M', 'I', 'D'],
      chars ['F', 'L', 'A', 'C']],
    [chars ['B', 'M', 'P'], chars ['J', 'P', 'G'], chars ['J', 'P', 'E', 'G'], chars ['G', 'I', 'F']]]

def entry (i j : ℕ) : Option (List Byte) := (FILE_TYPE_TBL[i]?).bind fun row => row[j]?

def charUpper (c : Byte) : Byte := if c < 0x41 then c else if c ≥ 0x61 then c - 0x20 else c

structure Ptr where
  before : List Byte
  rest : List Byte

/- The first loop, with the number of rounds that `i < 250` still allows. -/
def endLoop : ℕ → (i : Byte) → Ptr → Byte × Ptr
  | 0, i, p => (i, p)
  | _ + 1, i, ⟨before, []⟩ => (i + 1, ⟨before, []⟩)
  | n + 1, i, ⟨before, c :: rest⟩ => endLoop n (i + 1) ⟨c :: before, rest⟩

/- The loop that walks back to the dot; the result is `attr`. -/
def extLoop : ℕ → Ptr → Run (Option (List Byte))
  | 0, _ => .ok none
  | _ + 1, ⟨[], _⟩ => .error .beforeName
  | n + 1, ⟨c :: before, rest⟩ => if c = DOT then .ok (some rest) else extLoop n ⟨before, c :: rest⟩

/- `strcpy` into the five bytes of `tbuf`. -/
def copyAttr : Option (List Byte) → Run (List Byte)
  | none => .error .nullAttr
  | some attr => if attr.length < 5 then .ok attr else .error .tbuf

/- The loop over `j`, with the number of rounds that `j < 13` still allows. -/
def rowLoop (tbuf : List Byte) (i : ℕ) : ℕ → ℕ → Run (Option Byte)
  | 0, _ => .ok none
  | n + 1, j =>
    match entry i j with
    | none => .error .nullEntry
    | some name =>
      if name = [] then .ok none
      else if name = tbuf then .ok (some (BitVec.ofNat 8 i <<< 4 ||| BitVec.ofNat 8 j))
      else rowLoop tbuf i n (j + 1)

def tableLoop (tbuf : List Byte) : ℕ → ℕ → Run Byte
  | 0, _ => .ok 0xff
  | n + 1, i => do
    match ← rowLoop tbuf i 13 0 with
    | some r => return r
    | none => tableLoop tbuf n (i + 1)

def fTypetell (fname : List Byte) : Run Byte := do
  let (i, p) := endLoop 250 0 ⟨[], fname⟩
  if i = 250 then return 0xff
  let tbuf ← copyAttr (← extLoop 5 p)
  -- what stands behind the NUL of `tbuf` is converted too, and not looked at
  tableLoop (tbuf.map charUpper) 6 0

/-! ### The two walks through the name -/

theorem endLoop_run (rest : List Byte) (n : ℕ) (i : Byte) (before : List Byte) (hn : rest.length < n) :
    endLoop n i ⟨before, rest⟩ = (i + BitVec.ofNat 8 (rest.length + 1), ⟨rest.reverse ++ before, []⟩) := by
  induction rest generalizing n i before with
  | nil =>
    obtain ⟨n, rfl⟩ := Nat.exists_eq_succ_of_ne_zero (Nat.ne_of_gt hn)
    rfl
  | cons c rest ih =>
    obtain ⟨n, rfl⟩ := Nat.exists_eq_succ_of_ne_zero (Nat.ne_of_gt (Nat.lt_of_le_of_lt (Nat.zero_le _) hn))
    rw [endLoop, ih n (i + 1) (c :: before) (Nat.lt_of_succ_lt_succ hn), List.reverse_cons, List.append_assoc,
      List.length_cons, Nat.add_comm (rest.length + 1) 1, BitVec.ofNat_add 1, BitVec.add_assoc]
    rfl

theorem extLoop_found {e before rest : List Byte} {n : ℕ} (he : DOT ∉ e) (hn : e.length < n) :
    extLoop n ⟨e ++ DOT :: before, rest⟩ = .ok (some (e.reverse ++ rest)) := by
  induction e generalizing n rest with
  | nil =>
    obtain ⟨n, rfl⟩ := Nat.exists_eq_succ_of_ne_zero (Nat.ne_of_gt hn)
    exact if_pos rfl
  | cons c e ih =>
    obtain ⟨n, rfl⟩ := Nat.exists_eq_succ_of_ne_zero (Nat.ne_of_gt (Nat.lt_of_le_of_lt (Nat.zero_le _) hn))
    have hc : c ≠ DOT := fun h => he (h ▸ List.mem_cons_self)
    rw [List.cons_append, extLoop, if_neg hc, ih (fun h => he (List.mem_cons_of_mem c h)) (Nat.lt_of_succ_lt_succ hn),
      List.reverse_cons, List.append_assoc]
    rfl

theorem extLoop_some {n : ℕ} {before rest attr : List Byte} (h : extLoop n ⟨before, rest⟩ = .ok (some attr)) :
    ∃ e before', before = e ++ DOT :: before' ∧ DOT ∉ e ∧ attr = e.reverse ++ rest := by
  induction n generalizing before rest with
  | zero => cases h
  | succ n ih =>
    cases before with
    | nil => cases h
    | cons c before =>
      rw [extLoop] at h
      split at h
      · rename_i hc
        cases h
        exact ⟨[], before, by rw [hc]; rfl, List.not_mem_nil, rfl⟩
      · rename_i hc
        obtain ⟨e, before', rfl, he, rfl⟩ := ih h
        refine ⟨c :: e, before', rfl, ?_, ?_⟩
        · intro hmem
          rcases List.mem_cons.mp hmem with heq | hmem
          · exact hc heq.symm
          · exact he hmem
        · rw [List.reverse_cons, List.append_assoc]
          rfl

/- The second entry of the first row is already a null pointer. -/
theorem tableLoop_eq (tbuf : List Byte) : tableLoop tbuf 6 0 = if tbuf = BIN then .ok 0 else .error .nullEntry := by
  have hfirst : entry 0 0 = some BIN := rfl
  have hsecond : entry 0 1 = none := rfl
  rw [tableLoop, rowLoop, hfirst]
  dsimp only
  rw [if_neg (by decide)]
  by_cases hbin : tbuf = BIN
  · rw [if_pos hbin.symm, if_pos hbin]
    rfl
  · rw [if_neg (Ne.symm hbin), if_neg hbin, rowLoop, hsecond]
    rfl

/-! ### The type of a name -/

def upper (c : Byte) : Byte := if 0x61 ≤ c ∧ c ≤ 0x7A then c - 0x20 else c

/-- `e` is the text after the last dot of the name. -/
def AfterDot (fname e : List Byte) : Prop := ∃ pre, fname = pre ++ DOT :: e ∧ DOT ∉ e

structure TypeOf (fname : List Byte) (r : Byte) : Prop where
  known : ∀ e i j, AfterDot fname e → entry i j = some (e.map upper) →
    r = BitVec.ofNat 8 i <<< 4 ||| BitVec.ofNat 8 j
  unknown : (∀ e i j, AfterDot fname e → entry i j ≠ some (e.map upper)) → r = 0xff

/-- No read outside of the name and of the table, and the type that the table gives. -/
def TypetellContract (fname : List Byte) : Prop := ∃ r, fTypetell fname = .ok r ∧ TypeOf fname r

theorem afterDot_unique {fname e e' : List Byte} (h : AfterDot fname e) (h' : AfterDot fname e') : e = e' := by
  have hback (pre : List Byte) {e : List Byte} (he : DOT ∉ e) :
      (pre ++ DOT :: e).reverse.takeWhile (· ≠ DOT) = e.reverse := by
    rw [List.reverse_append, List.reverse_cons, List.append_assoc, List.takeWhile_append_of_pos]
    · rw [List.singleton_append, List.takeWhile_cons_of_neg (by simp), List.append_nil]
    · intro c hc
      rw [List.mem_reverse] at hc
      exact decide_eq_true fun heq => he (heq ▸ hc)
  obtain ⟨pre, rfl, he⟩ := h
  obtain ⟨pre', heq, he'⟩ := h'
  have hrev := hback pre he
  rw [heq, hback pre' he'] at hrev
  exact (List.reverse_inj.mp hrev).symm

/- The letters of BIN come from the same characters under both conversions. -/
theorem charUpper_bin (e : List Byte) : e.map charUpper = BIN ↔ e.map upper = BIN := by
  have hletter : ∀ c : Byte, (charUpper c = 0x42 ↔ upper c = 0x42) ∧ (charUpper c = 0x49 ↔ upper c = 0x49) ∧
      (charUpper c = 0x4E ↔ upper c = 0x4E) := by decide
  have hbin : BIN = [0x42, 0x49, 0x4E] := rfl
  rw [hbin]
  simp only [List.map_eq_cons_iff, List.map_eq_nil_iff, (hletter _).1, (hletter _).2.1, (hletter _).2.2]

theorem fTypetell_eq {fname : List Byte} (hlen : fname.length < 249) :
    fTypetell fname = (do
      let tbuf ← copyAttr (← extLoop 5 ⟨fname.reverse, []⟩)
      tableLoop (tbuf.map charUpper) 6 0) := by
  have hend := endLoop_run fname 250 0 [] (by omega)
  have hi : (0 : Byte) + BitVec.ofNat 8 (fname.length + 1) ≠ 250 := by
    intro h
    have hnat := congrArg BitVec.toNat h
    have hzero : BitVec.toNat (0 : Byte) = 0 := rfl
    have h250 : BitVec.toNat (250 : Byte) = 250 := rfl
    rw [BitVec.toNat_add, BitVec.toNat_ofNat, hzero, h250] at hnat
    omega
  rw [List.append_nil] at hend
  unfold fTypetell
  rw [hend]
  dsimp only
  rw [if_neg hi]

/- A name that gets a type at all ends in BIN. -/
theorem fTypetell_ok {fname : List Byte} {r : Byte} (hlen : fname.length < 249) (h : fTypetell fname = .ok r) :
    ∃ e, AfterDot fname e ∧ e.map upper = BIN := by
  rw [fTypetell_eq hlen] at h
  cases hext : extLoop 5 ⟨fname.reverse, []⟩ with
  | error f =>
    rw [hext] at h
    cases h
  | ok attr =>
    rw [hext] at h
    cases attr with
    | none => cases h
    | some attr =>
      obtain ⟨e, before, hrev, he, rfl⟩ := extLoop_some hext
      rw [List.append_nil] at h
      have hname : fname = before.reverse ++ DOT :: e.reverse := by
        rw [← List.reverse_reverse fname, hrev, List.reverse_append, List.reverse_cons, List.append_assoc]
        rfl
      refine ⟨e.reverse, ⟨before.reverse, hname, fun hmem => he (List.mem_reverse.mp hmem)⟩, ?_⟩
      rw [← charUpper_bin]
      by_contra hbin
      by_cases hfit : e.reverse.length < 5
      · have hfault : (do
            let tbuf ← copyAttr (some e.reverse)
            tableLoop (tbuf.map charUpper) 6 0 : Run Byte) = .error .nullEntry := by
          rw [copyAttr, if_pos hfit]
          show tableLoop (e.reverse.map charUpper) 6 0 = _
          rw [tableLoop_eq, if_neg hbin]
        have hsame := h.symm.trans hfault
        cases hsame
      · have hfault : (do
            let tbuf ← copyAttr (some e.reverse)
            tableLoop (tbuf.map charUpper) 6 0 : Run Byte) = .error .tbuf := by
          rw [copyAttr, if_neg hfit]
          rfl
        have hsame := h.symm.trans hfault
        cases hsame

theorem entry_bin {i j : ℕ} (h : entry i j = some BIN) : i = 0 ∧ j = 0 := by
  have hsmall : ∀ i < 6, ∀ j < 13, entry i j = some BIN → i = 0 ∧ j = 0 := by decide
  have hrow : ∀ i < 6, ((FILE_TYPE_TBL[i]?).map List.length).getD 0 ≤ 13 := by decide
  unfold entry at h
  obtain ⟨row, hi, hj⟩ := Option.bind_eq_some_iff.mp h
  have hlt : i < 6 := (List.getElem?_eq_some_iff.mp hi).1
  have hlen := hrow i hlt
  rw [hi] at hlen
  have hlt' : j < row.length := (List.getElem?_eq_some_iff.mp hj).1
  exact hsmall i hlt j (Nat.lt_of_lt_of_le hlt' hlen) h

theorem fTypetell_bin {fname e : List Byte} (hlen : fname.length < 249) (he : AfterDot fname e)
    (hbin : e.map upper = BIN) : fTypetell fname = .ok 0 := by
  obtain ⟨pre, rfl, hdot⟩ := he
  have hthree : e.length = 3 := by
    rw [← List.length_map, hbin]
    rfl
  have hext : extLoop 5 ⟨(pre ++ DOT :: e).reverse, []⟩ = .ok (some e) := by
    have hfound : extLoop 5 ⟨e.reverse ++ DOT :: pre.reverse, []⟩ = .ok (some (e.reverse.reverse ++ [])) :=
      extLoop_found (fun hmem => hdot (List.mem_reverse.mp hmem)) (by rw [List.length_reverse]; omega)
    rw [List.reverse_reverse, List.append_nil] at hfound
    rw [List.reverse_append, List.reverse_cons, List.append_assoc]
    exact hfound
  rw [fTypetell_eq hlen, hext]
  show (do
    let tbuf ← copyAttr (some e)
    tableLoop (tbuf.map charUpper) 6 0 : Run Byte) = _
  rw [copyAttr, if_pos (by omega)]
  show tableLoop (e.map charUpper) 6 0 = _
  rw [tableLoop_eq, if_pos ((charUpper_bin e).mpr hbin)]

/-- Only names that end in `.BIN` are handled as they should be. -/
theorem fTypetell_contract_iff (fname : List Byte) (hlen : fname.length < 249) :
    TypetellContract fname ↔ ∃ e, AfterDot fname e ∧ e.map upper = BIN := by
  constructor
  · rintro ⟨r, hrun, _⟩
    exact fTypetell_ok hlen hrun
  · rintro ⟨e, he, hbin⟩
    refine ⟨0, fTypetell_bin hlen he hbin, ?_, ?_⟩
    · intro e' i j he' hentry
      obtain rfl := afterDot_unique he' he
      rw [hbin] at hentry
      obtain ⟨rfl, rfl⟩ := entry_bin hentry
      rfl
    · intro hnone
      exact absurd (congrArg some hbin.symm) (hnone e 0 0 he)

theorem fTypetell_contract_iff_bin :
    TypetellContract (chars ['A', '.', 'b', 'i', 'n']) ↔
      ∃ e, AfterDot (chars ['A', '.', 'b', 'i', 'n']) e ∧ e.map upper = BIN :=
  fTypetell_contract_iff (chars ['A', '.', 'b', 'i', 'n']) (by decide)

/- The name a.txt: the first row is read past its only entry. -/
theorem fTypetell_txt : ¬ TypetellContract (chars ['a', '.', 't', 'x', 't']) := by
  rintro ⟨r, hrun, _⟩
  have hfault : fTypetell (chars ['a', '.', 't', 'x', 't']) = .error .nullEntry := rfl
  rw [hfault] at hrun
  cases hrun

end MultiEmbedded.Fatfs
