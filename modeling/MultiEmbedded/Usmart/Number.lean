import MultiEmbedded.Usmart.Str
import Mathlib

/-!
# Numbers

What usmart_str2num makes of a decimal number, and of a hexadecimal one behind
`0X`. Letters are upper case by then; in the text of a command they may be of
either case.
-/

namespace MultiEmbedded.Usmart

def isDec (c : Byte) : Bool := c ≥ 0x30 && c ≤ 0x39

def isHex (c : Byte) : Bool := isDec c || (c ≥ 0x41 && c ≤ 0x46) || (c ≥ 0x61 && c ≤ 0x66)

def digit (c : Byte) : ℕ :=
  if isDec c then c.toNat - 0x30 else if c ≤ 0x46 then c.toNat - 0x41 + 10 else c.toNat - 0x61 + 10

def value (base : ℕ) : List Byte → ℕ
  | [] => 0
  | c :: s => digit c * base ^ s.length + value base s

/-- The number that a text denotes, modulo 2^32. -/
def numeral (s : List Byte) : Option (BitVec 32) :=
  if s ≠ [] ∧ s.all isDec then some (BitVec.ofNat 32 (value 10 s))
  else
    match s with
    | z :: x :: s =>
      if z = 0x30 ∧ (x = 0x58 ∨ x = 0x78) ∧ s ≠ [] ∧ s.all isHex then some (BitVec.ofNat 32 (value 16 s))
      else none
    | _ => none

theorem pow_eq (m : Byte) (n : ℕ) : pow m n = BitVec.ofNat 32 (m.toNat ^ n) := by
  induction n with
  | zero => rfl
  | succ n ih => rw [pow, ih, Nat.pow_succ, BitVec.ofNat_mul, BitVec.ofNat_toNat]

/- The digit that the second pass finds in a character. -/
theorem numValue_digit : ∀ c : Byte, isHex c →
    (if toUpper c ≤ 0x39 ∧ toUpper c ≥ 0x30 then (toUpper c).setWidth 32 - 0x30
      else (toUpper c).setWidth 32 - 0x41 + 10) = BitVec.ofNat 32 (digit c) := by decide

theorem numValue_eq (base : Byte) {s : List Byte} (hs : s.all isHex) (hlen : s.length < 256) (res : BitVec 32) :
    numValue base (s.map toUpper) (BitVec.ofNat 8 s.length) res =
      res + BitVec.ofNat 32 (value base.toNat s) := by
  induction s generalizing res with
  | nil =>
    exact (add_zero res).symm
  | cons c s ih =>
    rw [List.length_cons] at hlen
    rw [List.all_cons, Bool.and_eq_true] at hs
    have hne : BitVec.ofNat 8 (c :: s).length ≠ 0 := by
      intro h
      have h' := congrArg BitVec.toNat h
      rw [BitVec.toNat_ofNat, List.length_cons, Nat.mod_eq_of_lt hlen] at h'
      exact Nat.succ_ne_zero _ h'
    have hpred : BitVec.ofNat 8 (c :: s).length - 1 = BitVec.ofNat 8 s.length := by
      rw [List.length_cons, BitVec.ofNat_add]
      exact BitVec.add_sub_cancel _ _
    have hplace : (BitVec.ofNat 8 s.length).toNat = s.length := by
      rw [BitVec.toNat_ofNat]
      exact Nat.mod_eq_of_lt (Nat.lt_of_succ_lt hlen)
    rw [List.map_cons, numValue, if_pos hne, hpred, numValue_digit c hs.1, hplace, pow_eq]
    rw [ih hs.2 (Nat.lt_of_succ_lt hlen), value, BitVec.add_assoc, ← BitVec.ofNat_mul, ← BitVec.ofNat_add]

/- The first pass takes a digit of either base wherever it stands. -/
theorem numDigits_char : ∀ c : Byte, isHex c →
    (toUpper c ≤ 0x39 ∧ toUpper c ≥ 0x30) ∨ (toUpper c ≤ 0x46 ∧ toUpper c ≥ 0x41) := by decide

theorem numDigits_dec {s : List Byte} (hs : s.all isDec) (bnum hexdec : Byte) :
    numDigits (s.map toUpper) bnum hexdec = some (bnum + BitVec.ofNat 8 s.length, hexdec) := by
  have hdec : ∀ c : Byte, isDec c → (toUpper c ≤ 0x39 ∧ toUpper c ≥ 0x30) ∧ ¬ toUpper c ≥ 0x41 := by decide
  induction s generalizing bnum with
  | nil => exact congrArg (fun n => some (n, hexdec)) (add_zero bnum).symm
  | cons c s ih =>
    rw [List.all_cons, Bool.and_eq_true] at hs
    obtain ⟨hrange, hletter⟩ := hdec c hs.1
    rw [List.map_cons, numDigits, if_pos (Or.inl hrange), if_neg hletter, ih hs.2, List.length_cons,
      Nat.add_comm, BitVec.ofNat_add, ← BitVec.add_assoc]
    rfl

theorem numDigits_hex {s : List Byte} (hs : s.all isHex) (bnum : Byte) :
    numDigits (s.map toUpper) bnum 16 = some (bnum + BitVec.ofNat 8 s.length, 16) := by
  induction s generalizing bnum with
  | nil => exact congrArg (fun n => some (n, 16)) (add_zero bnum).symm
  | cons c s ih =>
    rw [List.all_cons, Bool.and_eq_true] at hs
    have hbase : (if toUpper c ≥ 0x41 then (16 : Byte) else 16) = 16 := ite_self _
    have hchar : (toUpper c ≤ 0x39 ∧ toUpper c ≥ 0x30) ∨ (toUpper c ≤ 0x46 ∧ toUpper c ≥ 0x41) ∨
        (toUpper c = 0x58 ∧ bnum = 1) := by
      obtain h | h := numDigits_char c hs.1
      · exact Or.inl h
      · exact Or.inr (Or.inl h)
    rw [List.map_cons, numDigits, if_pos hchar, hbase, ih hs.2, List.length_cons, Nat.add_comm,
      BitVec.ofNat_add, ← BitVec.add_assoc]
    rfl

theorem numDigits_zeroX {s : List Byte} (hs : s.all isHex) :
    numDigits (0x30 :: 0x58 :: s.map toUpper) 0 10 = some (2 + BitVec.ofNat 8 s.length, 16) := by
  rw [numDigits, if_pos (by decide), numDigits, if_pos (by decide)]
  exact numDigits_hex hs 2

theorem isHex_of_isDec {s : List Byte} (h : s.all isDec) : s.all isHex := by
  rw [List.all_eq_true] at h ⊢
  intro c hc
  unfold isHex
  rw [h c hc, Bool.true_or, Bool.true_or]

/-- A text that denotes a number is converted to it. -/
theorem str2num_numeral {s : List Byte} {v : BitVec 32} (h : numeral s = some v) (hlen : s.length < 256) :
    str2num (s.map toUpper) = (0, v) := by
  unfold numeral at h
  split at h
  · rename_i hdec
    obtain ⟨hne, hall⟩ := hdec
    cases h
    have hcount : BitVec.ofNat 8 s.length ≠ 0 := by
      intro h0
      have h' := congrArg BitVec.toNat h0
      rw [BitVec.toNat_ofNat, Nat.mod_eq_of_lt hlen] at h'
      exact hne (List.eq_nil_of_length_eq_zero h')
    have hdigits := numDigits_dec hall 0 10
    rw [zero_add] at hdigits
    unfold str2num
    rw [hdigits]
    dsimp only
    rw [if_neg (by decide), if_neg hcount, numValue_eq 10 (isHex_of_isDec hall) hlen, zero_add]
    rfl
  · split at h
    · rename_i z x s _
      split at h
      · rename_i hhex
        obtain ⟨rfl, hx, hne, hall⟩ := hhex
        cases h
        rw [List.length_cons, List.length_cons] at hlen
        have hpos := List.length_pos_of_ne_nil hne
        have htwo : (2 + BitVec.ofNat 8 s.length).toNat = 2 + s.length := by
          have h2 : BitVec.toNat (2 : Byte) = 2 := rfl
          rw [BitVec.toNat_add, BitVec.toNat_ofNat, h2]
          omega
        have hthree : ¬ 2 + BitVec.ofNat 8 s.length < 3 := by
          have h3 : BitVec.toNat (3 : Byte) = 3 := rfl
          rw [BitVec.lt_def, htwo, h3]
          omega
        have hrest : 2 + BitVec.ofNat 8 s.length - 2 = BitVec.ofNat 8 s.length := add_sub_cancel_left ..
        have hupper : (0x30 :: x :: s).map toUpper = 0x30 :: 0x58 :: s.map toUpper := by
          obtain rfl | rfl := hx
          · rfl
          · rfl
        unfold str2num
        rw [hupper, numDigits_zeroX hall]
        dsimp only
        rw [if_pos rfl, if_neg hthree, if_pos (by exact ⟨rfl, rfl⟩), hrest]
        exact congrArg (Prod.mk 0) ((numValue_eq 16 hall (by omega) 0).trans (zero_add _))
      · cases h
    · cases h

/-! ### What the conversion accepts -/

def isUpperHex (c : Byte) : Bool := isDec c || (c ≥ 0x41 && c ≤ 0x46)

/-- The two kinds of text that usmart_str2num takes, with the number they stand for. -/
inductive Denotes : List Byte → ℕ → Prop
  | decimal (s : List Byte) : s ≠ [] → s.all isDec → Denotes s (value 10 s)
  | hexadecimal (s : List Byte) : s ≠ [] → s.all isUpperHex → Denotes (0x30 :: 0x58 :: s) (value 16 s)

theorem toUpper_self : ∀ c : Byte, isUpperHex c → toUpper c = c ∧ isHex c := by decide

theorem map_toUpper_self {s : List Byte} (hs : s.all isUpperHex) : s.map toUpper = s ∧ s.all isHex := by
  rw [List.all_eq_true] at hs
  constructor
  · apply (List.map_congr_left _).trans (List.map_id s)
    intro c hc
    exact (toUpper_self c (hs c hc)).1
  · rw [List.all_eq_true]
    intro c hc
    exact (toUpper_self c (hs c hc)).2

theorem isUpperHex_of_isDec {s : List Byte} (h : s.all isDec) : s.all isUpperHex := by
  rw [List.all_eq_true] at h ⊢
  intro c hc
  unfold isUpperHex
  rw [h c hc, Bool.true_or]

theorem Denotes.converted {s : List Byte} {n : ℕ} (h : Denotes s n) (hlen : s.length < 256) :
    str2num s = (0, BitVec.ofNat 32 n) := by
  cases h with
  | decimal _ hne hall =>
    have hnum : numeral s = some (BitVec.ofNat 32 (value 10 s)) := if_pos ⟨hne, hall⟩
    have hconv := str2num_numeral hnum hlen
    rw [(map_toUpper_self (isUpperHex_of_isDec hall)).1] at hconv
    exact hconv
  | hexadecimal t hne hall =>
    obtain ⟨hself, hhex⟩ := map_toUpper_self hall
    have hnum : numeral (0x30 :: 0x58 :: t) = some (BitVec.ofNat 32 (value 16 t)) := by
      unfold numeral
      rw [if_neg (by intro h; exact absurd h.2 (by simp [isDec]))]
      exact if_pos ⟨rfl, Or.inl rfl, hne, hhex⟩
    have hconv := str2num_numeral hnum hlen
    have hupper : (0x30 :: 0x58 :: t).map toUpper = 0x30 :: 0x58 :: t := by
      show toUpper 0x30 :: toUpper 0x58 :: t.map toUpper = _
      rw [hself]
      rfl
    rw [hupper] at hconv
    exact hconv

/- The classification of the first pass, read backwards. -/
theorem numDigits_cons {c : Byte} {s : List Byte} {bnum hexdec : Byte} {r : Byte × Byte}
    (h : numDigits (c :: s) bnum hexdec = some r) :
    (isUpperHex c ∨ (c = 0x58 ∧ bnum = 1)) ∧
      numDigits s (bnum + 1) (if c ≥ 0x41 then 16 else hexdec) = some r := by
  have hclass : ∀ c : Byte, (c ≤ 0x39 ∧ c ≥ 0x30) ∨ (c ≤ 0x46 ∧ c ≥ 0x41) → isUpperHex c := by decide
  rw [numDigits] at h
  split at h
  · rename_i hchar
    rcases hchar with hdec | hlet | hx
    · exact ⟨Or.inl (hclass c (Or.inl hdec)), h⟩
    · exact ⟨Or.inl (hclass c (Or.inr hlet)), h⟩
    · exact ⟨Or.inr hx, h⟩
  · cases h

theorem numDigits_count {s : List Byte} {bnum hexdec : Byte} {r : Byte × Byte}
    (h : numDigits s bnum hexdec = some r) : r.1 = bnum + BitVec.ofNat 8 s.length := by
  induction s generalizing bnum hexdec with
  | nil =>
    cases h
    exact (add_zero bnum).symm
  | cons c s ih =>
    rw [ih (numDigits_cons h).2, List.length_cons, Nat.add_comm, BitVec.ofNat_add, ← BitVec.add_assoc]
    rfl

theorem numDigits_sixteen {s : List Byte} {bnum : Byte} {r : Byte × Byte}
    (h : numDigits s bnum 16 = some r) : r.2 = 16 := by
  induction s generalizing bnum with
  | nil =>
    cases h
    rfl
  | cons c s ih =>
    have hrest := (numDigits_cons h).2
    rw [ite_self] at hrest
    exact ih hrest

theorem numDigits_decimal {s : List Byte} {bnum hexdec : Byte} {r : Byte × Byte}
    (h : numDigits s bnum hexdec = some r) (hbase : r.2 ≠ 16) : s.all isDec := by
  have hdec : ∀ c : Byte, (isUpperHex c ∨ c = 0x58) → ¬ c ≥ 0x41 → isDec c := by decide
  induction s generalizing bnum hexdec with
  | nil => rfl
  | cons c s ih =>
    obtain ⟨hchar, hrest⟩ := numDigits_cons h
    by_cases hletter : c ≥ 0x41
    · rw [if_pos hletter] at hrest
      exact absurd (numDigits_sixteen hrest) hbase
    · rw [List.all_cons, ih hrest, hdec c (hchar.imp_right And.left) hletter]
      rfl

/- From the third character on `bnum` is not 1 again, so that no `X` is taken. -/
theorem numDigits_letters {s : List Byte} {bnum hexdec : Byte} {r : Byte × Byte}
    (h : numDigits s bnum hexdec = some r) (hpos : 2 ≤ bnum.toNat) (hlen : bnum.toNat + s.length < 256) :
    s.all isUpperHex := by
  induction s generalizing bnum hexdec with
  | nil => rfl
  | cons c s ih =>
    obtain ⟨hchar, hrest⟩ := numDigits_cons h
    rw [List.length_cons] at hlen
    have hone : BitVec.toNat (1 : Byte) = 1 := rfl
    have hnext : (bnum + 1).toNat = bnum.toNat + 1 := by
      rw [BitVec.toNat_add, hone]
      omega
    rcases hchar with hhex | ⟨_, hfirst⟩
    · rw [List.all_cons, hhex, ih hrest (by omega) (by omega)]
      rfl
    · rw [hfirst, hone] at hpos
      omega

/- The two returns of 0. -/
theorem str2num_accepted {s : List Byte} (hlen : s.length < 256) :
    (∃ n, Denotes s n) ∨ ((str2num s).1 ≠ 0 ∧ (str2num s).2 = 0) := by
  unfold str2num
  cases hd : numDigits s 0 10 with
  | none => exact Or.inr ⟨(by decide : (1 : Byte) ≠ 0), rfl⟩
  | some r =>
    obtain ⟨bnum, hexdec⟩ := r
    have hcount : bnum = 0 + BitVec.ofNat 8 s.length := numDigits_count hd
    rw [zero_add] at hcount
    dsimp only
    by_cases hbase : hexdec = 16
    · rw [if_pos hbase]
      by_cases hshort : bnum < 3
      · rw [if_pos hshort]
        exact Or.inr ⟨by decide, rfl⟩
      · rw [if_neg hshort]
        by_cases hhead : peek s = 0x30 ∧ peek s.tail = 0x58
        · cases s with
          | nil => exact absurd hhead.1 (by decide)
          | cons z s =>
            cases s with
            | nil => exact absurd (show (0 : Byte) = 0x58 from hhead.2) (by decide)
            | cons x t =>
              obtain rfl : z = 0x30 := hhead.1
              obtain rfl : x = 0x58 := hhead.2
              have hne : t ≠ [] := by
                rintro rfl
                rw [hcount] at hshort
                exact hshort (by decide)
              rw [List.length_cons, List.length_cons] at hlen
              have hrest := (numDigits_cons (numDigits_cons hd).2).2
              have htwo : BitVec.toNat (0 + 1 + 1 : Byte) = 2 := rfl
              exact Or.inl ⟨_, .hexadecimal t hne (numDigits_letters hrest (by omega) (by omega))⟩
        · rw [if_neg hhead]
          exact Or.inr ⟨by decide, rfl⟩
    · rw [if_neg hbase]
      cases s with
      | nil =>
        rw [if_pos (show bnum = 0 from hcount)]
        exact Or.inr ⟨by decide, rfl⟩
      | cons c s => exact Or.inl ⟨_, .decimal _ (List.cons_ne_nil c s) (numDigits_decimal hd hbase)⟩

/-- usmart_str2num converts the texts that denote a number, and no other. -/
theorem str2num_denotes (s : List Byte) (hlen : s.length ≤ 255) :
    ((str2num s).1 = 0 ↔ ∃ n, Denotes s n) ∧
      (∀ n, Denotes s n → (str2num s).2 = BitVec.ofNat 32 n) ∧
      ((str2num s).1 ≠ 0 → (str2num s).2 = 0) := by
  have hlen' : s.length < 256 := by omega
  refine ⟨⟨?_, ?_⟩, ?_, ?_⟩
  · intro hcode
    rcases str2num_accepted hlen' with hn | hbad
    · exact hn
    · exact absurd hcode hbad.1
  · rintro ⟨n, hn⟩
    rw [hn.converted hlen']
  · intro n hn
    rw [hn.converted hlen']
  · intro hcode
    rcases str2num_accepted hlen' with ⟨n, hn⟩ | hbad
    · rw [hn.converted hlen'] at hcode
      exact absurd rfl hcode
    · exact hbad.2

/- The text 0X1F. -/
theorem str2num_denotes_hex : (str2num [0x30, 0x58, 0x31, 0x46]).2 = 31 :=
  (str2num_denotes [0x30, 0x58, 0x31, 0x46] (by decide)).2.1 31
    (.hexadecimal [0x31, 0x46] (by decide) (by decide))

end MultiEmbedded.Usmart
