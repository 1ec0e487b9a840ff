import MultiEmbedded.Usmart.Name

/-!
# Counting the parameters of a prototype

A prototype is a return type and a name, and declarations between brackets.
`usmart_get_fname` counts the declarations, except that it takes a single one
for `void` if its characters up to a comma, without spaces and opening
brackets, are those of `void`.
-/

namespace MultiEmbedded.Usmart

/-- A declaration, at bracket depth `depth`: it starts with a character of a type, and so does
every part behind a comma. -/
def declOk : (depth : ℕ) → (fresh : Bool) → List Byte → Bool
  | 0, fresh, [] => !fresh
  | _ + 1, _, [] => false
  | depth, true, c :: s =>
    if c = SPACE then declOk depth true s
    else c != COMMA && c != LPAR && c != RPAR && c != QUOTE && declOk depth false s
  | depth, false, c :: s =>
    if c = QUOTE then false
    else if c = COMMA then depth != 0 && declOk depth true s
    else if c = LPAR then declOk (depth + 1) false s
    else if c = RPAR then depth != 0 && declOk (depth - 1) false s
    else declOk depth false s

structure Decl where
  text : List Byte
  ok : declOk 0 true text

def joinDecls : List Decl → List Byte
  | [] => []
  | [d] => d.text
  | d :: ds => d.text ++ COMMA :: joinDecls ds

/-- A prototype in the function table. -/
structure Prototype where
  head : List Byte
  pad : List Byte
  decls : List Decl
  headOk : ∀ c ∈ head, c ≠ LPAR ∧ c ≠ RPAR ∧ c ≠ QUOTE
  padOk : ∀ c ∈ pad, c = SPACE
  noNul : ∀ d ∈ decls, ∀ c ∈ d.text, c ≠ 0

def Prototype.text (p : Prototype) : List Byte := p.head ++ LPAR :: (p.pad ++ (joinDecls p.decls ++ [RPAR]))

/-- The declaration of no parameters. -/
def isVoid (t : List Byte) : Bool :=
  ((t.dropWhile (· = SPACE)).reverse.dropWhile (· = SPACE)).reverse == VOID

def Prototype.count (p : Prototype) : ℕ :=
  match p.decls with
  | [d] => if isVoid d.text then 0 else 1
  | ds => ds.length

/-- The characters of a declaration that are compared with `void`. -/
def voidChars (t : List Byte) : List Byte :=
  (t.takeWhile (· ≠ COMMA)).filter fun c => c ≠ SPACE ∧ c ≠ LPAR

/-- A single declaration that is not `void` but is taken for it, such as `vo id`. -/
def Prototype.HiddenVoid (p : Prototype) : Prop :=
  ∃ d, p.decls = [d] ∧ voidChars d.text = VOID ∧ isVoid d.text = false

/-! ### Steps of the scan -/

/- A character inside the brackets: `scanParm`, which cannot fail, and the count. -/
def parmStep (c : Byte) (v : Scan) : Scan :=
  if c = COMMA then { v with temp := 1, pcnt := v.pcnt + 1 }
  else if c ≠ SPACE ∧ c ≠ LPAR then
    if v.pcnt = 0 ∧ v.fplcnt < 5 then
      { v with fpname := v.fpname.take v.fplcnt.toNat ++ [c], fplcnt := v.fplcnt + 1, temp := v.temp + 1 }
    else { v with temp := v.temp + 1 }
  else v

theorem scanBody_inside (size : ℕ) (c : Byte) {v : Scan} (hv : v.fover ≠ 0) :
    scanBody size c v = .ok (parmStep c v).count := by
  have hparm : scanParm c v = .ok (parmStep c v) := by
    have hall : ∀ n : Byte, n < 5 → n.toNat < 6 := by decide
    unfold scanParm parmStep
    split
    · rfl
    · split
      · split
        · rename_i hp
          rw [put_ok (hall _ hp.2)]
          rfl
        · rfl
      · rfl
  rw [scanBody, if_neg hv, hparm]
  rfl

variable (size : ℕ) {v : Scan}

theorem scanLoop_char {c : Byte} (hl : c ≠ LPAR) (hr : c ≠ RPAR) (hq : c ≠ QUOTE) (hv : v.fover ≠ 0)
    (s : List Byte) : scanLoop size (c :: s) v = scanLoop size s (parmStep c v).count := by
  rw [scanLoop, if_neg fun h => hl h.1, if_neg fun h => hr h.1, if_neg hq, scanBody_inside size c hv, ok_bind_eq]

theorem scanLoop_open (hn : v.nchar = false) (hv : v.fover + 1 ≠ 0) (s : List Byte) :
    scanLoop size (LPAR :: s) v = scanLoop size s { v with fover := v.fover + 1 }.count := by
  rw [scanLoop, if_pos ⟨rfl, hn⟩, scanBody_inside size LPAR (v := { v with fover := v.fover + 1 }) hv, ok_bind_eq]
  rfl

theorem scanLoop_close (hn : v.nchar = false) (hv : v.fover ≠ 0) (hv1 : v.fover - 1 ≠ 0) (s : List Byte) :
    scanLoop size (RPAR :: s) v =
      scanLoop size s (parmStep RPAR { v with fover := v.fover - 1 }).count := by
  have hne : ¬ (RPAR = LPAR ∧ v.nchar = false) := fun h => absurd h.1 (by decide)
  rw [scanLoop, if_neg hne, if_pos ⟨rfl, hn⟩]
  dsimp only
  rw [if_pos hv, if_neg hv1, scanBody_inside size RPAR (v := { v with fover := v.fover - 1 }) hv1, ok_bind_eq]

theorem scanLoop_end (hn : v.nchar = false) (hv : v.fover = 1) (s : List Byte) :
    scanLoop size (RPAR :: s) v = .ok { v with fover := 0 } := by
  have hne : ¬ (RPAR = LPAR ∧ v.nchar = false) := fun h => absurd h.1 (by decide)
  rw [scanLoop, if_neg hne, if_pos ⟨rfl, hn⟩]
  simp only [hv]
  rfl

/-! ### Inside the brackets -/

/- The scan at depth `depth` of a declaration, with at most `left` characters to come: `temp` is 1
up to the first character, and then has passed 2 if that counted. -/
structure Inside (v : Scan) (depth : ℕ) (fresh : Bool) (left : ℕ) : Prop where
  fover : v.fover = BitVec.ofNat 8 (depth + 1)
  nchar : v.nchar = false
  deep : depth + 1 + left ≤ 255
  temp : if fresh then v.temp = 1 ∧ left ≤ 253
    else 2 ≤ v.temp.toNat ∧ (depth = 0 → 3 ≤ v.temp.toNat) ∧ v.temp.toNat + left ≤ 255

theorem ofNat_ne {a b : ℕ} (ha : a < 256) (hb : b < 256) (h : a ≠ b) : BitVec.ofNat 8 a ≠ BitVec.ofNat 8 b := by
  intro heq
  have hnat := congrArg BitVec.toNat heq
  rw [BitVec.toNat_ofNat, BitVec.toNat_ofNat, Nat.mod_eq_of_lt ha, Nat.mod_eq_of_lt hb] at hnat
  exact h hnat

theorem toNat_succ {b : Byte} (h : b.toNat < 255) : (b + 1).toNat = b.toNat + 1 := by
  have hone : BitVec.toNat (1 : Byte) = 1 := rfl
  rw [BitVec.toNat_add, hone]
  omega

theorem count_skip (h : ¬ (v.fover = 1 ∧ v.temp = 2)) : v.count = v := if_neg h

theorem parmStep_plain {c : Byte} (hc : c ≠ COMMA) (hs : c ≠ SPACE) (hl : c ≠ LPAR) :
    (parmStep c v).fover = v.fover ∧ (parmStep c v).nchar = v.nchar ∧ (parmStep c v).temp = v.temp + 1 ∧
      (parmStep c v).parmnum = v.parmnum := by
  unfold parmStep
  rw [if_neg hc, if_pos ⟨hs, hl⟩]
  split
  · exact ⟨rfl, rfl, rfl, rfl⟩
  · exact ⟨rfl, rfl, rfl, rfl⟩

variable {depth left : ℕ} {fresh : Bool}

theorem Inside.fover_ne (h : Inside v depth fresh left) : v.fover ≠ 0 := by
  have hdeep := h.deep
  rw [h.fover]
  exact ofNat_ne (by omega) (by decide) (Nat.succ_ne_zero depth)

theorem Inside.skip (h : Inside v depth fresh left) : ¬ (v.fover = 1 ∧ v.temp = 2) := by
  rintro ⟨hf, ht⟩
  have htemp := h.temp
  have hdeep := h.deep
  rw [ht] at htemp
  cases fresh with
  | true => exact absurd htemp.1 (by decide)
  | false =>
    have h0 : depth = 0 := by
      by_contra hne
      rw [h.fover] at hf
      exact ofNat_ne (by omega) (by decide) (fun heq => hne (Nat.succ_injective heq)) hf
    exact absurd (htemp.2.1 h0) (by decide)

theorem Inside.space (h : Inside v depth fresh (left + 1)) :
    (parmStep SPACE v).count = v ∧ Inside v depth fresh left := by
  have hstep : parmStep SPACE v = v := by
    unfold parmStep
    rw [if_neg (by decide), if_neg fun h => h.1 rfl]
  refine ⟨by rw [hstep, count_skip h.skip], h.fover, h.nchar, by have hdeep := h.deep; omega, ?_⟩
  have htemp := h.temp
  cases fresh with
  | true => exact ⟨htemp.1, Nat.le_of_succ_le htemp.2⟩
  | false =>
    obtain ⟨h1, h2, h3⟩ := htemp
    exact ⟨h1, h2, by omega⟩

theorem Inside.comma (h : Inside v depth false (left + 1)) :
    (parmStep COMMA v).count = { v with temp := 1, pcnt := v.pcnt + 1 } ∧
      Inside { v with temp := 1, pcnt := v.pcnt + 1 } depth true left := by
  have hskip : ¬ (({ v with temp := 1, pcnt := v.pcnt + 1 } : Scan).fover = 1 ∧
      ({ v with temp := 1, pcnt := v.pcnt + 1 } : Scan).temp = 2) := fun h => absurd h.2 (by decide : (1 : Byte) ≠ 2)
  obtain ⟨h1, h2, h3⟩ := h.temp
  refine ⟨?_, h.fover, h.nchar, by have hdeep := h.deep; omega, rfl, by omega⟩
  unfold parmStep
  rw [if_pos rfl, count_skip hskip]

theorem Inside.open (h : Inside v depth false (left + 1)) :
    { v with fover := v.fover + 1 }.count = { v with fover := v.fover + 1 } ∧
      Inside { v with fover := v.fover + 1 } (depth + 1) false left := by
  have hf : v.fover + 1 = BitVec.ofNat 8 (depth + 1 + 1) := by
    rw [h.fover, BitVec.ofNat_add (depth + 1)]
    rfl
  obtain ⟨h1, h2, h3⟩ := h.temp
  have hdeep := h.deep
  have hin : Inside { v with fover := v.fover + 1 } (depth + 1) false left :=
    ⟨hf, h.nchar, by omega, h1, fun h0 => absurd h0 (Nat.succ_ne_zero depth), by
      show v.temp.toNat + left ≤ 255
      omega⟩
  exact ⟨count_skip hin.skip, hin⟩

/- The declaration that is not counted yet. -/
def pending : (depth : ℕ) → (fresh : Bool) → Byte
  | 0, true => 1
  | _, _ => 0

theorem pending_false (depth : ℕ) : pending depth false = 0 := by
  cases depth with
  | zero => rfl
  | succ depth => rfl

theorem pending_deep (h : depth ≠ 0) : pending depth fresh = 0 := by
  cases depth with
  | zero => exact absurd rfl h
  | succ depth => rfl

/- The first character of a declaration at depth 0 counts it. -/
theorem Inside.char {c : Byte} (h : Inside v depth fresh (left + 1)) (hc : c ≠ COMMA) (hs : c ≠ SPACE)
    (hl : c ≠ LPAR) : Inside (parmStep c v).count depth false left ∧
      (parmStep c v).count.parmnum = v.parmnum + pending depth fresh := by
  obtain ⟨pf, pn, pt, pp⟩ := parmStep_plain (v := v) hc hs hl
  have hdeep := h.deep
  have htemp := h.temp
  cases fresh with
  | true =>
    obtain ⟨h1, h2⟩ := htemp
    have htwo : (parmStep c v).temp = 2 := by
      rw [pt, h1]
      rfl
    by_cases h0 : depth = 0
    · have hone : (parmStep c v).fover = 1 := by
        rw [pf, h.fover, h0]
        rfl
      have hcount : (parmStep c v).count =
          { parmStep c v with temp := (parmStep c v).temp + 1, parmnum := (parmStep c v).parmnum + 1 } :=
        if_pos ⟨hone, htwo⟩
      have hthree : ((parmStep c v).temp + 1).toNat = 3 := by
        rw [htwo]
        rfl
      rw [hcount]
      refine ⟨⟨pf.trans h.fover, pn.trans h.nchar, by omega, ?_⟩, ?_⟩
      · refine ⟨?_, fun _ => ?_, ?_⟩
        · exact Nat.le_of_succ_le (Nat.le_of_eq hthree.symm)
        · exact Nat.le_of_eq hthree.symm
        · show ((parmStep c v).temp + 1).toNat + left ≤ 255
          omega
      · rw [h0]
        exact congrArg (· + 1) pp
    · have hskip : ¬ ((parmStep c v).fover = 1 ∧ (parmStep c v).temp = 2) := by
        rintro ⟨hf, -⟩
        rw [pf, h.fover] at hf
        exact ofNat_ne (by omega) (by decide) (fun heq => h0 (Nat.succ_injective heq)) hf
      have htwo' : (parmStep c v).temp.toNat = 2 := by
        rw [htwo]
        rfl
      rw [count_skip hskip, pending_deep h0]
      exact ⟨⟨pf.trans h.fover, pn.trans h.nchar, by omega, by omega, fun h => absurd h h0, by omega⟩,
        pp.trans (add_zero _).symm⟩
  | false =>
    obtain ⟨h1, h2, h3⟩ := htemp
    have hnext : (parmStep c v).temp.toNat = v.temp.toNat + 1 := by
      rw [pt, toNat_succ (by omega)]
    have hskip : ¬ ((parmStep c v).fover = 1 ∧ (parmStep c v).temp = 2) := by
      rintro ⟨-, ht⟩
      rw [ht] at hnext
      have htwo : BitVec.toNat (2 : Byte) = 2 := rfl
      omega
    rw [count_skip hskip, pending_false]
    exact ⟨⟨pf.trans h.fover, pn.trans h.nchar, by omega, by omega, by omega, by omega⟩,
      pp.trans (add_zero _).symm⟩

theorem Inside.close (h : Inside v (depth + 1) false (left + 1)) :
    v.fover - 1 ≠ 0 ∧ Inside (parmStep RPAR { v with fover := v.fover - 1 }).count depth false left ∧
      (parmStep RPAR { v with fover := v.fover - 1 }).count.parmnum = v.parmnum := by
  have hdeep := h.deep
  obtain ⟨h1, -, h3⟩ := h.temp
  have hf : v.fover - 1 = BitVec.ofNat 8 (depth + 1) := by
    rw [h.fover, BitVec.ofNat_add (depth + 1) 1]
    exact BitVec.add_sub_cancel _ _
  have hne : v.fover - 1 ≠ 0 := by
    rw [hf]
    exact ofNat_ne (by omega) (by decide) (Nat.succ_ne_zero depth)
  obtain ⟨pf, pn, pt, pp⟩ := parmStep_plain (v := { v with fover := v.fover - 1 }) (c := RPAR)
    (by decide) (by decide) (by decide)
  have hnext : (parmStep RPAR { v with fover := v.fover - 1 }).temp.toNat = v.temp.toNat + 1 := by
    rw [pt]
    exact toNat_succ (b := v.temp) (by omega)
  have hskip : ¬ ((parmStep RPAR { v with fover := v.fover - 1 }).fover = 1 ∧
      (parmStep RPAR { v with fover := v.fover - 1 }).temp = 2) := by
    rintro ⟨-, ht⟩
    rw [ht] at hnext
    have htwo : BitVec.toNat (2 : Byte) = 2 := rfl
    omega
  rw [count_skip hskip]
  exact ⟨hne, ⟨pf.trans hf, pn.trans h.nchar, by omega, by omega, by omega, by omega⟩, pp⟩

/-! ### The characters that are kept -/

theorem voidChars_cons (c : Byte) (s : List Byte) :
    voidChars (c :: s) =
      if c = COMMA then [] else if c ≠ SPACE ∧ c ≠ LPAR then c :: voidChars s else voidChars s := by
  unfold voidChars
  by_cases hc : c = COMMA
  · rw [if_pos hc, List.takeWhile_cons_of_neg (by simpa using hc)]
    rfl
  · rw [if_neg hc, List.takeWhile_cons_of_pos (by simpa using hc), List.filter_cons]
    simp only [decide_eq_true_eq]

/- With `s` to come, `fpname` is going to hold the first five characters of `y`. -/
structure Records (v : Scan) (s y : List Byte) : Prop where
  stored : ∃ x, v.fplcnt.toNat = (x.take 5).length ∧ v.fpname.take v.fplcnt.toNat = x.take 5 ∧
    y = x ++ (if v.pcnt = 0 then voidChars s else [])
  commas : v.pcnt.toNat + s.length ≤ 255

variable {s y : List Byte} {c : Byte}

theorem Records.count (h : Records v s y) : Records v.count s y := by
  unfold Scan.count
  split
  · exact ⟨h.stored, h.commas⟩
  · exact h

theorem Records.pass (h : Records v (c :: s) y) (hc : c = SPACE ∨ c = LPAR) : Records v s y := by
  have hchars : voidChars (c :: s) = voidChars s := by
    rw [voidChars_cons]
    obtain rfl | rfl := hc
    · rfl
    · rfl
  have hstored := h.stored
  have hcommas := h.commas
  rw [hchars] at hstored
  rw [List.length_cons] at hcommas
  exact ⟨hstored, by omega⟩

theorem Records.step (h : Records v (c :: s) y) : Records (parmStep c v) s y := by
  obtain ⟨x, hlen, htext, hy⟩ := h.stored
  have hcommas := h.commas
  rw [List.length_cons] at hcommas
  have hfew : v.pcnt.toNat + s.length ≤ 255 := by omega
  rw [voidChars_cons] at hy
  unfold parmStep
  by_cases hc : c = COMMA
  · have hnext : (v.pcnt + 1).toNat = v.pcnt.toNat + 1 := toNat_succ (by omega)
    have hne : v.pcnt + 1 ≠ 0 := by
      intro h0
      rw [h0] at hnext
      exact absurd hnext.symm (Nat.succ_ne_zero _)
    rw [if_pos hc, ite_self] at hy
    rw [if_pos hc]
    refine ⟨⟨x, hlen, htext, ?_⟩, ?_⟩
    · rw [if_neg hne]
      exact hy
    · show (v.pcnt + 1).toNat + s.length ≤ 255
      omega
  · rw [if_neg hc] at hy ⊢
    by_cases hp : c ≠ SPACE ∧ c ≠ LPAR
    · rw [if_pos hp] at hy ⊢
      by_cases hfirst : v.pcnt = 0
      · rw [if_pos hfirst] at hy
        have hsplit : y = (x ++ [c]) ++ (if v.pcnt = 0 then voidChars s else []) := by
          rw [hy, if_pos hfirst, List.append_assoc]
          rfl
        have hfive : BitVec.toNat (5 : Byte) = 5 := rfl
        rw [List.length_take] at hlen
        by_cases hroom : v.fplcnt < 5
        · rw [if_pos ⟨hfirst, hroom⟩]
          rw [BitVec.lt_def, hfive] at hroom
          have hnext : (v.fplcnt + 1).toNat = v.fplcnt.toNat + 1 := toNat_succ (by omega)
          have hx : x.length + 1 ≤ 5 := by omega
          have htake : (x ++ [c]).take 5 = x ++ [c] := by
            rw [List.take_of_length_le]
            rw [List.length_append]
            exact hx
          have hsame : v.fpname.take v.fplcnt.toNat = x := by
            rw [htext, List.take_of_length_le (Nat.le_of_succ_le hx)]
          refine ⟨⟨x ++ [c], ?_, ?_, hsplit⟩, hfew⟩
          · rw [htake, List.length_append]
            dsimp only [List.length_singleton]
            omega
          · rw [htake]
            dsimp only
            rw [hsame, List.take_of_length_le]
            rw [List.length_append, hnext]
            dsimp only [List.length_singleton]
            omega
        · rw [if_neg fun h => hroom h.2]
          rw [BitVec.lt_def, hfive] at hroom
          have htake : (x ++ [c]).take 5 = x.take 5 := List.take_append_of_le_length (by omega)
          refine ⟨⟨x ++ [c], ?_, ?_, hsplit⟩, hfew⟩
          · rw [htake, List.length_take]
            exact hlen
          · rw [htake]
            exact htext
      · rw [if_neg fun h => hfirst h.1]
        rw [if_neg hfirst] at hy
        refine ⟨⟨x, hlen, htext, ?_⟩, hfew⟩
        rw [if_neg hfirst]
        exact hy
    · rw [if_neg hp] at hy ⊢
      exact ⟨⟨x, hlen, htext, hy⟩, hfew⟩

/-! ### A declaration -/

/- From `v` the scan gets over `s` to `w`. -/
def Passed (size : ℕ) (s : List Byte) (v w : Scan) : Prop :=
  ∀ rest, scanLoop size (s ++ rest) v = scanLoop size rest w

/- From `v` the scan passes `c`, and `s` goes on with the declaration. -/
def Continues (size : ℕ) (v : Scan) (depth : ℕ) (fresh : Bool) (left : ℕ) (c : Byte) (s : List Byte) : Prop :=
  ∃ w depth' fresh', declOk depth' fresh' s ∧ Passed size [c] v w ∧ Inside w depth' fresh' left ∧
    w.parmnum + pending depth' fresh' = v.parmnum + pending depth fresh ∧
    ∀ y, Records v (c :: s) y → Records w s y

theorem continues_space (hrest : declOk depth fresh s) (h : Inside v depth fresh (left + 1)) :
    Continues size v depth fresh left SPACE s := by
  obtain ⟨hsame, hin⟩ := h.space
  refine ⟨v, depth, fresh, hrest, fun rest => ?_, hin, rfl, fun y hy => hy.pass (Or.inl rfl)⟩
  have hnext := scanLoop_char size (c := SPACE) (by decide) (by decide) (by decide) h.fover_ne rest
  rw [hsame] at hnext
  exact hnext

theorem continues_char (hc : c ≠ COMMA) (hs : c ≠ SPACE) (hl : c ≠ LPAR) (hr : c ≠ RPAR) (hq : c ≠ QUOTE)
    (hrest : declOk depth false s) (h : Inside v depth fresh (left + 1)) :
    Continues size v depth fresh left c s := by
  obtain ⟨hin, hnum⟩ := h.char hc hs hl
  refine ⟨_, depth, false, hrest, scanLoop_char size hl hr hq h.fover_ne, hin, ?_, fun y hy => hy.step.count⟩
  rw [hnum, pending_false, add_zero]

theorem continues_comma (hdepth : depth ≠ 0) (hrest : declOk depth true s)
    (h : Inside v depth false (left + 1)) : Continues size v depth false left COMMA s := by
  obtain ⟨hsame, hin⟩ := h.comma
  have hpass : Passed size [COMMA] v (parmStep COMMA v).count :=
    scanLoop_char size (by decide) (by decide) (by decide) h.fover_ne
  refine ⟨_, depth, true, hrest, hpass, ?_, ?_, fun y hy => hy.step.count⟩
  · rw [hsame]
    exact hin
  · rw [hsame, pending_deep hdepth, pending_deep hdepth]

theorem continues_open (hrest : declOk (depth + 1) false s) (h : Inside v depth false (left + 1)) :
    Continues size v depth false left LPAR s := by
  obtain ⟨hsame, hin⟩ := h.open
  have hpass : Passed size [LPAR] v { v with fover := v.fover + 1 }.count :=
    scanLoop_open size h.nchar hin.fover_ne
  refine ⟨_, depth + 1, false, hrest, hpass, ?_, ?_, fun y hy => Records.count ?_⟩
  · rw [hsame]
    exact hin
  · rw [hsame, pending_false, pending_false]
  · have hnext := hy.pass (Or.inr rfl)
    exact ⟨hnext.stored, hnext.commas⟩

theorem continues_close (hrest : declOk depth false s) (h : Inside v (depth + 1) false (left + 1)) :
    Continues size v (depth + 1) false left RPAR s := by
  obtain ⟨hne, hin, hnum⟩ := h.close
  refine ⟨_, depth, false, hrest, scanLoop_close size h.nchar h.fover_ne hne, hin, ?_, fun y hy => Records.count ?_⟩
  · rw [hnum, pending_false, pending_false]
  · have hsame : Records { v with fover := v.fover - 1 } (RPAR :: s) y := ⟨hy.stored, hy.commas⟩
    exact hsame.step

/- One character of a declaration. -/
theorem Inside.step (hok : declOk depth fresh (c :: s)) (h : Inside v depth fresh (left + 1)) :
    Continues size v depth fresh left c s := by
  cases fresh with
  | true =>
    rw [declOk] at hok
    split at hok
    · rename_i hs
      subst hs
      exact continues_space size hok h
    · rename_i hs
      simp only [Bool.and_eq_true, bne_iff_ne] at hok
      obtain ⟨⟨⟨⟨hc, hl⟩, hr⟩, hq⟩, hrest⟩ := hok
      exact continues_char size hc hs hl hr hq hrest h
  | false =>
    rw [declOk] at hok
    split at hok
    · exact nomatch hok
    · rename_i hq
      split at hok
      · rename_i hc
        subst hc
        rw [Bool.and_eq_true, bne_iff_ne] at hok
        exact continues_comma size hok.1 hok.2 h
      · rename_i hc
        split at hok
        · rename_i hl
          subst hl
          exact continues_open size hok h
        · rename_i hl
          split at hok
          · rename_i hr
            subst hr
            rw [Bool.and_eq_true, bne_iff_ne] at hok
            cases depth with
            | zero => exact absurd rfl hok.1
            | succ depth => exact continues_close size hok.2 h
          · rename_i hr
            by_cases hs : c = SPACE
            · subst hs
              exact continues_space size hok h
            · exact continues_char size hc hs hl hr hq hok h

theorem scanLoop_decl (s : List Byte) {v : Scan} {depth : ℕ} {fresh : Bool} (hok : declOk depth fresh s)
    (h : Inside v depth fresh (s.length + left)) :
    ∃ w, Passed size s v w ∧ Inside w 0 false left ∧ w.parmnum = v.parmnum + pending depth fresh ∧
      ∀ y, Records v s y → Records w [] y := by
  induction s generalizing v depth fresh with
  | nil =>
    rw [List.length_nil, Nat.zero_add] at h
    cases depth with
    | succ depth => 
      cases fresh with
      | true => exact nomatch hok
      | false => exact nomatch hok
    | zero =>
      cases fresh with
      | true => exact nomatch hok
      | false => exact ⟨v, fun _ => rfl, h, (add_zero _).symm, fun y hy => hy⟩
  | cons c s ih =>
    rw [List.length_cons, Nat.add_right_comm] at h
    obtain ⟨v', depth', fresh', hok', hpass, hin, hnum, hrec⟩ := Inside.step size hok h
    obtain ⟨w, hpass', hin', hnum', hrec'⟩ := ih hok' hin
    refine ⟨w, fun rest => ?_, hin', hnum'.trans hnum, fun y hy => hrec' y (hrec y hy)⟩
    exact (hpass (s ++ rest)).trans (hpass' rest)

/-! ### All declarations -/

theorem scanLoop_pad {pad : List Byte} (hpad : ∀ c ∈ pad, c = SPACE) {v : Scan} {depth : ℕ} {fresh : Bool}
    (h : Inside v depth fresh (pad.length + left)) :
    Passed size pad v v ∧ Inside v depth fresh left := by
  induction pad generalizing v with
  | nil =>
    rw [List.length_nil, Nat.zero_add] at h
    exact ⟨fun _ => rfl, h⟩
  | cons c s ih =>
    rw [List.forall_mem_cons] at hpad
    rw [List.length_cons, Nat.add_right_comm] at h
    obtain ⟨hsame, hin⟩ := h.space
    obtain ⟨hpass, hin'⟩ := ih hpad.2 hin
    refine ⟨fun rest => ?_, hin'⟩
    have hnext := scanLoop_char size (c := SPACE) (by decide) (by decide) (by decide) h.fover_ne
      (s ++ rest)
    rw [hsame, hpass rest] at hnext
    rw [hpad.1]
    exact hnext

/- Each declaration counts, and the first one is kept. -/
theorem scanLoop_decls (d : Decl) (ds : List Decl) {v : Scan}
    (h : Inside v 0 true ((joinDecls (d :: ds)).length + left)) :
    ∃ w, Passed size (joinDecls (d :: ds)) v w ∧ Inside w 0 false left ∧
      w.parmnum = v.parmnum + BitVec.ofNat 8 (d :: ds).length ∧
      (ds = [] → ∀ y, Records v d.text y → Records w [] y) := by
  induction ds generalizing v d with
  | nil =>
    obtain ⟨w, hpass, hin, hnum, hrec⟩ := scanLoop_decl size d.text d.ok h
    exact ⟨w, hpass, hin, hnum, fun _ => hrec⟩
  | cons d' ds ih =>
    have hlen : (joinDecls (d :: d' :: ds)).length + left =
        d.text.length + ((joinDecls (d' :: ds)).length + left + 1) := by
      show (d.text ++ COMMA :: joinDecls (d' :: ds)).length + left = _
      rw [List.length_append, List.length_cons]
      omega
    rw [hlen] at h
    obtain ⟨w, hpass, hin, hnum, -⟩ := scanLoop_decl size d.text d.ok h
    obtain ⟨hsame, hnext⟩ := hin.comma
    obtain ⟨w', hpass', hin', hnum', -⟩ := ih d' hnext
    refine ⟨w', fun rest => ?_, hin', ?_, fun hnil => absurd hnil (List.cons_ne_nil d' ds)⟩
    · have hcomma := scanLoop_char size (c := COMMA) (by decide) (by decide) (by decide) hin.fover_ne
        (joinDecls (d' :: ds) ++ rest)
      rw [hsame, hpass' rest] at hcomma
      show scanLoop size (d.text ++ COMMA :: joinDecls (d' :: ds) ++ rest) v = _
      rw [List.append_assoc, hpass, List.cons_append]
      exact hcomma
    · have hone : pending 0 true = BitVec.ofNat 8 1 := rfl
      rw [hnum', hnum, hone, List.length_cons (a := d), Nat.add_comm _ 1, BitVec.ofNat_add, add_assoc]

theorem Decl.length_pos (d : Decl) : 0 < d.text.length := by
  have hok := d.ok
  cases htext : d.text with
  | nil =>
    rw [htext] at hok
    exact nomatch hok
  | cons c s => exact Nat.succ_pos _

theorem joinDecls_length (ds : List Decl) : ds.length ≤ (joinDecls ds).length := by
  induction ds with
  | nil => exact Nat.le_refl 0
  | cons d ds ih =>
    have hpos := d.length_pos
    cases ds with
    | nil => exact hpos
    | cons d' ds =>
      show _ ≤ (d.text ++ COMMA :: joinDecls (d' :: ds)).length
      rw [List.length_append, List.length_cons (a := COMMA), List.length_cons (a := d)]
      omega

/-! ### A prototype -/

/- The scan from the opening bracket on. -/
theorem scanLoop_params {p : Prototype} (hshort : p.text.length < 256) {v : Scan} (hfover : v.fover = 0) (hnchar : v.nchar = false)
    (htemp : v.temp = 1) (hpcnt : v.pcnt = 0) (hfplcnt : v.fplcnt = 0) (hnum : v.parmnum = 0) :
    ∃ w, scanLoop size (LPAR :: (p.pad ++ (joinDecls p.decls ++ [RPAR]))) v = .ok w ∧
      w.parmnum = BitVec.ofNat 8 p.decls.length ∧
      ∀ d, p.decls = [d] → Records w [] (voidChars d.text) := by
  simp only [Prototype.text, List.length_append, List.length_cons, List.length_nil] at hshort
  have hone : v.fover + 1 = 1 := by
    rw [hfover]
    rfl
  have hopen := scanLoop_open size hnchar (by rw [hone]; decide)
    (p.pad ++ (joinDecls p.decls ++ [RPAR]))
  have hin : Inside { v with fover := v.fover + 1 } 0 true (p.pad.length + (joinDecls p.decls).length) :=
    ⟨hone, hnchar, by omega, htemp, by omega⟩
  rw [count_skip hin.skip] at hopen
  obtain ⟨hpad, hin⟩ := scanLoop_pad size p.padOk hin
  rw [hopen, hpad]
  cases hds : p.decls with
  | nil =>
    refine ⟨_, scanLoop_end size hin.nchar hin.fover [], ?_, fun d hd => (nomatch hd)⟩
    rw [hnum]
    rfl
  | cons d ds =>
    rw [hds, ← Nat.add_zero (joinDecls (d :: ds)).length] at hin
    obtain ⟨w, hpass, hinw, hcount, hrec⟩ := scanLoop_decls size d ds hin
    refine ⟨_, (hpass [RPAR]).trans (scanLoop_end size hinw.nchar hinw.fover []), ?_, ?_⟩
    · rw [hcount, hnum, zero_add]
    · rintro d' heq
      cases heq
      have hlen : d.text.length ≤ 255 := by
        rw [hds] at hshort
        have hsame : (joinDecls [d]).length = d.text.length := rfl
        omega
      have hstart : Records { v with fover := v.fover + 1 } d.text (voidChars d.text) := by
        refine ⟨⟨[], ?_, ?_, ?_⟩, ?_⟩
        · show v.fplcnt.toNat = 0
          rw [hfplcnt]
          rfl
        · show v.fpname.take v.fplcnt.toNat = []
          rw [hfplcnt]
          rfl
        · show _ = [] ++ (if v.pcnt = 0 then _ else _)
          rw [if_pos hpcnt, List.nil_append]
        · show v.pcnt.toNat + _ ≤ _
          rw [hpcnt]
          have hzero : BitVec.toNat (0 : Byte) = 0 := rfl
          omega
      have hend := hrec rfl _ hstart
      exact ⟨hend.stored, hend.commas⟩

/- In front of the brackets only the name is collected. -/
theorem scanLoop_head {s rest : List Byte} (hs : ∀ c ∈ s, c ≠ LPAR ∧ c ≠ RPAR ∧ c ≠ QUOTE) {v r : Scan}
    (hv : v.fover = 0) (h : scanLoop size (s ++ rest) v = .ok r) :
    ∃ fname, scanLoop size rest { v with fname := fname } = .ok r := by
  induction s generalizing v with
  | nil => exact ⟨v.fname, h⟩
  | cons c s ih =>
    rw [List.forall_mem_cons] at hs
    obtain ⟨⟨hl, hr, hq⟩, hs⟩ := hs
    rw [List.cons_append, scanLoop, if_neg fun h => hl h.1, if_neg fun h => hr h.1, if_neg hq] at h
    obtain ⟨v', hbody, h⟩ := ok_bind h
    rw [scanBody, if_pos hv] at hbody
    split at hbody
    · obtain ⟨fname, -, hpush⟩ := ok_bind hbody
      cases hpush
      exact ih hs (v := { v with fname := fname }) hv h
    · cases hbody
      exact ih hs hv h

theorem nameStart_proto (p : Prototype) : ∃ s, (∀ c ∈ s, c ∈ p.head) ∧
    nameStart p.text = s ++ LPAR :: (p.pad ++ (joinDecls p.decls ++ [RPAR])) := by
  have hhead : p.text.takeWhile (· ≠ LPAR) = p.head := by
    unfold Prototype.text
    rw [List.takeWhile_append_of_pos, List.takeWhile_cons_of_neg (by decide), List.append_nil]
    intro c hc
    simpa using (p.headOk c hc).1
  have hlt : scanOffset p.text 0 0 ≠ 0 → (scanOffset p.text 0 0).toNat < 0 + (p.text.takeWhile (· ≠ LPAR)).length :=
    scanOffset_lt p.text fun h => absurd rfl h
  rw [hhead, Nat.zero_add] at hlt
  unfold nameStart
  split
  · rename_i hne
    refine ⟨p.head.drop ((scanOffset p.text 0 0).toNat + 1), fun c hc => List.mem_of_mem_drop hc, ?_⟩
    exact List.drop_append_of_le_length (hlt hne)
  · exact ⟨p.head, fun c hc => hc, rfl⟩

/-! ### The count -/

theorem strcmp_eq_zero {s t : List Byte} (hs : ∀ c ∈ s, c ≠ 0) (ht : ∀ c ∈ t, c ≠ 0) :
    strcmp (s ++ [0]) t = 0 ↔ s = t := by
  induction s generalizing t with
  | nil =>
    cases t with
    | nil => exact ⟨fun _ => rfl, fun _ => rfl⟩
    | cons d t =>
      have hd := ht d (List.mem_cons_self ..)
      rw [List.nil_append, strcmp, if_pos (show (0 : Byte) ≠ peek (d :: t) from hd.symm)]
      exact ⟨fun h => absurd h (by decide), fun h => (nomatch h)⟩
  | cons c s ih =>
    rw [List.forall_mem_cons] at hs
    rw [List.cons_append, strcmp]
    cases t with
    | nil =>
      rw [if_pos (show c ≠ peek [] from hs.1)]
      exact ⟨fun h => absurd h (by decide), fun h => (nomatch h)⟩
    | cons d t =>
      rw [List.forall_mem_cons] at ht
      by_cases hc : c = d
      · rw [if_neg (not_not.mpr (show c = peek (d :: t) from hc)), if_neg hs.1, List.tail_cons, ih hs.2 ht.2, hc,
          List.cons.injEq, eq_self, true_and]
      · rw [if_pos (show c ≠ peek (d :: t) from hc)]
        refine ⟨fun h => absurd h (by decide), fun h => ?_⟩
        exact absurd (List.cons.inj h).1 hc

/- The parameters that `usmart_get_fname` counts. -/
def Prototype.counted (p : Prototype) : ℕ :=
  match p.decls with
  | [d] => if voidChars d.text = VOID then 0 else 1
  | ds => ds.length

theorem take_void {x : List Byte} : x.take 5 = VOID ↔ x = VOID := by
  constructor
  · intro h
    have hlen := congrArg List.length h
    rw [List.length_take] at hlen
    have hfour : VOID.length = 4 := rfl
    rw [List.take_of_length_le (by omega)] at h
    exact h
  · rintro rfl
    rfl

theorem countParms_one {v : Scan} {x : List Byte} (hnum : v.parmnum = 1) (h : Records v [] x)
    (hx : ∀ c ∈ x, c ≠ 0) : countParms v = .ok (if x = VOID then 0 else 1) := by
  obtain ⟨y, hlen, htext, heq⟩ := h.stored
  have hxy : x = y := by
    rw [heq]
    split
    · exact List.append_nil _
    · exact List.append_nil _
  subst hxy
  rw [List.length_take] at hlen
  have hvoid : ∀ c ∈ VOID, c ≠ 0 := by decide
  have hcmp := strcmp_eq_zero (s := x.take 5) (fun c hc => hx c (List.mem_of_mem_take hc)) hvoid
  rw [take_void] at hcmp
  rw [countParms, if_pos hnum, put_ok (by omega), htext, ok_bind_eq]
  by_cases hxv : x = VOID
  · rw [if_pos hxv, if_pos (hcmp.mpr hxv)]
    rfl
  · rw [if_neg hxv, if_neg fun h => hxv (hcmp.mp h), hnum]
    rfl

theorem decls_lt {p : Prototype} (hshort : p.text.length < 256) : p.decls.length < 256 := by
  have hle := joinDecls_length p.decls
  simp only [Prototype.text, List.length_append, List.length_cons] at hshort
  omega

theorem count_le (p : Prototype) : p.count ≤ p.decls.length := by
  unfold Prototype.count
  cases p.decls with
  | nil => exact Nat.le_refl 0
  | cons d ds =>
    cases ds with
    | cons d' ds => exact Nat.le_refl _
    | nil =>
      dsimp only
      split
      · exact Nat.zero_le 1
      · exact Nat.le_refl 1

theorem countParms_proto {p : Prototype} (hshort : p.text.length < 256) {v : Scan} (hnum : v.parmnum = BitVec.ofNat 8 p.decls.length)
    (hrec : ∀ d, p.decls = [d] → Records v [] (voidChars d.text)) :
    countParms v = .ok (BitVec.ofNat 8 p.counted) := by
  have hfew := decls_lt hshort
  have hmany (hne : p.decls.length ≠ 1) : countParms v = .ok (BitVec.ofNat 8 p.decls.length) := by
    have hskip : v.parmnum ≠ 1 := by
      rw [hnum]
      exact ofNat_ne hfew (by decide) hne
    rw [countParms, if_neg hskip, hnum]
  unfold Prototype.counted
  cases hds : p.decls with
  | nil =>
    rw [hds] at hmany
    exact hmany (by decide)
  | cons d ds =>
    cases ds with
    | nil =>
      have hone : v.parmnum = 1 := by
        rw [hnum, hds]
        rfl
      have hx : ∀ c ∈ voidChars d.text, c ≠ 0 := by
        intro c hc
        have hmem := List.mem_of_mem_filter hc
        exact p.noNul d (hds ▸ List.mem_singleton_self d) c (List.takeWhile_sublist _ |>.mem hmem)
      rw [countParms_one hone (hrec d hds) hx]
      dsimp only
      split
      · rfl
      · rfl
    | cons d' ds =>
      rw [hds] at hmany
      exact hmany (by simp)

theorem getFname_counted {p : Prototype} {size : ℕ} {rval : Byte} {f : Fname} (hshort : p.text.length < 256)
    (h : getFname size p.text rval = .ok f) : f.pnum = BitVec.ofNat 8 p.counted := by
  obtain ⟨rval', fpname, heq⟩ := getFname_eq size p.text rval
  obtain ⟨s, hmem, hstart⟩ := nameStart_proto p
  rw [heq, hstart] at h
  obtain ⟨v, hv, h⟩ := ok_bind h
  obtain ⟨fname, hscan⟩ := scanLoop_head size (fun c hc => p.headOk c (hmem c hc)) rfl hv
  obtain ⟨w, hw, hnum, hrec⟩ := scanLoop_params size hshort
    (v := { Scan.start fpname with fname := fname }) rfl rfl rfl rfl rfl rfl
  rw [hscan] at hw
  cases hw
  rw [countParms_proto hshort hnum hrec, ok_bind_eq] at h
  obtain ⟨name, -, h⟩ := ok_bind h
  cases h
  rfl

theorem voidChars_spaces {a : List Byte} (ha : ∀ c ∈ a, c = SPACE) (s : List Byte) :
    voidChars (a ++ s) = voidChars s := by
  induction a with
  | nil => rfl
  | cons c a ih =>
    rw [List.forall_mem_cons] at ha
    rw [List.cons_append, voidChars_cons, ha.1, if_neg (by decide), if_neg fun h => h.1 rfl, ih ha.2]

theorem isVoid_chars {t : List Byte} (h : isVoid t) : voidChars t = VOID := by
  have hspaces {s : List Byte} : ∀ c ∈ s.takeWhile (· = SPACE), c = SPACE := by
    intro c hc
    simpa using List.mem_takeWhile_imp hc
  have hfront := List.takeWhile_append_dropWhile (p := (· = SPACE)) (l := t)
  have hback := List.takeWhile_append_dropWhile (p := (· = SPACE)) (l := (t.dropWhile (· = SPACE)).reverse)
  have hcore := List.reverse_eq_iff.mp (eq_of_beq h)
  rw [hcore] at hback
  have hsplit := List.reverse_eq_iff.mp hback.symm
  rw [List.reverse_append, List.reverse_reverse] at hsplit
  rw [← hfront, voidChars_spaces hspaces, hsplit]
  have htail : ∀ c ∈ ((t.dropWhile (· = SPACE)).reverse.takeWhile (· = SPACE)).reverse, c = SPACE :=
    fun c hc => hspaces c (List.mem_reverse.mp hc)
  have hnil := voidChars_spaces htail []
  rw [List.append_nil] at hnil
  have hvoid (b : List Byte) : voidChars (VOID ++ b) = VOID ++ voidChars b := rfl
  rw [hvoid, hnil]
  rfl

/- Only a hidden `void` is miscounted. -/
theorem counted_eq (p : Prototype) : ¬ p.HiddenVoid → p.counted = p.count := by
  intro hp
  unfold Prototype.counted Prototype.count
  cases hds : p.decls with
  | nil => rfl
  | cons d ds =>
    cases ds with
    | cons d' ds => rfl
    | nil =>
      dsimp only
      cases hv : isVoid d.text with
      | true => rw [if_pos (isVoid_chars hv), if_pos rfl]
      | false =>
        have hne : voidChars d.text ≠ VOID := fun h => hp ⟨d, hds, h, hv⟩
        rw [if_neg hne, if_neg Bool.false_ne_true]

theorem counted_hidden {p : Prototype} (h : p.HiddenVoid) : p.counted = 0 ∧ p.count = 1 := by
  obtain ⟨d, hds, hchars, hv⟩ := h
  unfold Prototype.counted Prototype.count
  rw [hds]
  dsimp only
  rw [if_pos hchars, hv]
  exact ⟨rfl, rfl⟩

end MultiEmbedded.Usmart
