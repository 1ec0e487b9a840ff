import MultiEmbedded.Usmart.Cmd
import Mathlib

/-!
# How far usmart_get_fname goes

Only the name can leave its buffer. The other indices and the offset of the
name are bounded whatever the text is.
-/

namespace MultiEmbedded.Usmart

theorem ok_bind {α β : Type} {x : Run α} {f : α → Run β} {b : β} (h : x >>= f = .ok b) :
    ∃ a, x = .ok a ∧ f a = .ok b := by
  cases x with
  | error e => exact nomatch h
  | ok a => exact ⟨a, rfl, h⟩

@[simp] theorem pure_eq_ok {α : Type} (a : α) : (pure a : Run α) = .ok a := rfl

@[simp] theorem ok_bind_eq {α β : Type} (a : α) (f : α → Run β) : (Except.ok a : Run α) >>= f = f a := rfl

/-! ### The return type and the offset -/

theorem put_ok {size i : ℕ} (hi : i < size) (c : Byte) (buf : List Byte) :
    put size i c buf = .ok (buf.take i ++ [c]) := if_pos hi

theorem scanReturn_ok (s : List Byte) (pcnt : Byte) (fpname : List Byte) (hp : pcnt &&& 0x7F ≤ 5) :
    ∃ r, scanReturn s pcnt fpname = .ok r ∧ r.1 &&& 0x7F ≤ 5 := by
  induction s generalizing pcnt fpname with
  | nil => exact ⟨_, rfl, hp⟩
  | cons c s ih =>
    have hmark : ∀ p : Byte, p &&& 0x7F < 5 →
        ((if p = 0 then p ||| 0x80 else p) &&& 0x7F).toNat < 6 ∧
        ((if p = 0 then p ||| 0x80 else p) &&& 0x7F ≤ 5) ∧
        ((if p = 0 then p ||| 0x80 else p) + 1 &&& 0x7F ≤ 5) := by decide
    by_cases hc : c ≠ SPACE ∧ pcnt &&& 0x7F < 5
    · obtain ⟨hlt, hle, hnext⟩ := hmark pcnt hc.2
      rw [scanReturn, if_pos hc]
      dsimp only
      generalize (if pcnt = 0 then pcnt ||| 0x80 else pcnt) = p at hlt hle hnext
      split
      · exact ⟨_, rfl, hle⟩
      · rw [put_ok hlt, ok_bind_eq]
        exact ih _ _ hnext
    · rw [scanReturn, if_neg hc]
      split
      · exact ⟨_, rfl, hp⟩
      · exact ih _ _ hp

/- With `k` characters behind, the offset is a position in front of the next opening bracket. -/
theorem scanOffset_lt (s : List Byte) {k : ℕ} {offset : Byte}
    (ho : offset ≠ 0 → offset.toNat < k + (s.takeWhile (· ≠ LPAR)).length) :
    scanOffset s (BitVec.ofNat 8 k) offset ≠ 0 →
      (scanOffset s (BitVec.ofNat 8 k) offset).toNat < k + (s.takeWhile (· ≠ LPAR)).length := by
  induction s generalizing k offset with
  | nil => exact ho
  | cons c s ih =>
    unfold scanOffset
    by_cases hc : c = LPAR
    · rw [if_pos hc]
      exact ho
    · have hlen : k + ((c :: s).takeWhile (· ≠ LPAR)).length = k + 1 + (s.takeWhile (· ≠ LPAR)).length := by
        rw [List.takeWhile_cons_of_pos (by simpa using hc), List.length_cons]
        omega
      have hk : BitVec.ofNat 8 k + 1 = BitVec.ofNat 8 (k + 1) := by
        rw [BitVec.ofNat_add]
        rfl
      rw [hlen] at ho ⊢
      rw [if_neg hc, hk]
      dsimp only
      split
      · rename_i hnext
        apply ih
        intro _
        have hpos : 0 < (s.takeWhile (· ≠ LPAR)).length := by
          cases s with
          | nil =>
            revert hnext
            decide +revert
          | cons d s =>
            have hd : d ≠ LPAR := by
              rintro rfl
              exact absurd hnext.1 (by decide : ¬ (LPAR = SPACE ∨ LPAR = STAR))
            rw [List.takeWhile_cons_of_pos (by simpa using hd)]
            exact Nat.succ_pos _
        have hmod : (BitVec.ofNat 8 (k + 1)).toNat ≤ k + 1 := by
          rw [BitVec.toNat_ofNat]
          exact Nat.mod_le _ _
        omega
      · exact ih ho

/-! ### The name -/

/- What goes into the name at one character, at bracket depth `fover`. -/
def kept (c fover : Byte) : List Byte := if fover = 0 ∧ c ≠ SPACE then [c] else []

/- The characters outside of brackets, without spaces, up to the bracket that ends the text. -/
def names : List Byte → (fover : Byte) → (nchar : Bool) → List Byte
  | [], _, _ => []
  | c :: s, fover, nchar =>
    if c = LPAR ∧ nchar = false then kept c (fover + 1) ++ names s (fover + 1) nchar
    else if c = RPAR ∧ nchar = false then
      if fover = 0 ∨ fover = 1 then [] else kept c (fover - 1) ++ names s (fover - 1) nchar
    else kept c fover ++ names s fover (if c = QUOTE then !nchar else nchar)

def nameStart (str : List Byte) : List Byte :=
  if scanOffset str 0 0 ≠ 0 then str.drop ((scanOffset str 0 0).toNat + 1) else str

def nameOf (str : List Byte) : List Byte := names (nameStart str) 0 false

theorem count_frame (v : Scan) : v.count.fname = v.fname ∧ v.count.fover = v.fover ∧
    v.count.nchar = v.nchar ∧ v.count.res = v.res ∧ v.count.fplcnt = v.fplcnt := by
  unfold Scan.count
  split
  · exact ⟨rfl, rfl, rfl, rfl, rfl⟩
  · exact ⟨rfl, rfl, rfl, rfl, rfl⟩

theorem scanParm_ok (c : Byte) {v : Scan} (hf : v.fplcnt ≤ 5) :
    ∃ v', scanParm c v = .ok v' ∧ v'.fname = v.fname ∧ v'.fover = v.fover ∧ v'.nchar = v.nchar ∧
      v'.res = v.res ∧ v'.fplcnt ≤ 5 := by
  have hnext : ∀ n : Byte, n < 5 → n.toNat < 6 ∧ n + 1 ≤ 5 := by decide
  unfold scanParm
  split
  · exact ⟨_, rfl, rfl, rfl, rfl, rfl, hf⟩
  · split
    · split
      · rename_i hp
        obtain ⟨hlt, hle⟩ := hnext v.fplcnt hp.2
        rw [put_ok hlt]
        exact ⟨_, rfl, rfl, rfl, rfl, rfl, hle⟩
      · exact ⟨_, rfl, rfl, rfl, rfl, rfl, hf⟩
    · exact ⟨_, rfl, rfl, rfl, rfl, rfl, hf⟩

theorem scanBody_spec (size : ℕ) (c : Byte) {v : Scan} (hf : v.fplcnt ≤ 5) :
    (∃ v', scanBody size c v = .ok v' ∧ v'.fname = v.fname ++ kept c v.fover ∧ v'.fover = v.fover ∧
      v'.nchar = v.nchar ∧ v'.res = v.res ∧ v'.fplcnt ≤ 5) ∨
    (scanBody size c v = .error .index ∧ size < (v.fname ++ kept c v.fover).length) := by
  unfold scanBody kept
  by_cases h0 : v.fover = 0
  · by_cases hc : c = SPACE
    · left
      simp only [h0, hc, ne_eq, not_true, and_false, if_true, if_false, List.append_nil]
      exact ⟨v, rfl, rfl, h0, rfl, rfl, hf⟩
    · simp only [h0, hc, ne_eq, not_false_iff, and_self, if_true, push]
      by_cases hlen : v.fname.length < size
      · left
        rw [if_pos hlen]
        exact ⟨_, rfl, rfl, h0.symm ▸ rfl, rfl, rfl, hf⟩
      · right
        rw [if_neg hlen]
        refine ⟨rfl, ?_⟩
        simp only [List.length_append, List.length_singleton]
        omega
  · left
    obtain ⟨w, hw, hname, hfover, hnchar, hres, hf'⟩ := scanParm_ok c hf
    obtain ⟨kname, kfover, knchar, kres, kf⟩ := count_frame w
    simp only [h0, false_and, if_false, List.append_nil, hw, ok_bind_eq]
    exact ⟨_, rfl, kname.trans hname, kfover.trans hfover, knchar.trans hnchar, kres.trans hres,
      Eq.trans_le kf hf'⟩

/- The loop ends with the name `fname ++ name`, or that does not fit. -/
def Collects (size : ℕ) (x : Run Scan) (name : List Byte) : Prop :=
  (∃ v, x = .ok v ∧ v.fname = name ∧ v.fplcnt ≤ 5) ∨ (x = .error .index ∧ size < name.length)

theorem collects_next {size : ℕ} {c : Byte} {s : List Byte} {v : Scan} (hf : v.fplcnt ≤ 5)
    (ih : ∀ v : Scan, v.fplcnt ≤ 5 →
      Collects size (scanLoop size s v) (v.fname ++ names s v.fover v.nchar)) :
    Collects size (scanBody size c v >>= scanLoop size s)
      (v.fname ++ (kept c v.fover ++ names s v.fover v.nchar)) := by
  obtain ⟨v', hbody, hname, hfover, hnchar, -, hf'⟩ | ⟨hbody, hlen⟩ := scanBody_spec size c hf
  · have hrest := ih v' hf'
    rw [hname, hfover, hnchar, List.append_assoc] at hrest
    rw [hbody]
    exact hrest
  · right
    refine ⟨by rw [hbody]; rfl, ?_⟩
    simp only [List.length_append] at hlen ⊢
    omega

theorem scanLoop_collects (size : ℕ) (s : List Byte) {v : Scan} (hf : v.fplcnt ≤ 5) :
    Collects size (scanLoop size s v) (v.fname ++ names s v.fover v.nchar) := by
  induction s generalizing v with
  | nil => exact Or.inl ⟨_, rfl, (List.append_nil _).symm, hf⟩
  | cons c s ih =>
    have hnext {v : Scan} (hf : v.fplcnt ≤ 5) := collects_next (c := c) hf @ih
    unfold scanLoop names
    by_cases hl : c = LPAR ∧ v.nchar = false
    · rw [if_pos hl, if_pos hl]
      exact hnext (v := { v with fover := v.fover + 1 }) hf
    · rw [if_neg hl, if_neg hl]
      by_cases hr : c = RPAR ∧ v.nchar = false
      · rw [if_pos hr, if_pos hr]
        by_cases h0 : v.fover = 0
        · rw [if_pos (Or.inl h0), List.append_nil]
          simp only [h0, ne_eq, not_true, if_false, if_true]
          exact Or.inl ⟨_, rfl, rfl, hf⟩
        · by_cases h1 : v.fover = 1
          · rw [if_pos (Or.inr h1), List.append_nil]
            simp only [h1]
            exact Or.inl ⟨_, rfl, rfl, hf⟩
          · have hsub : v.fover - 1 ≠ 0 := by
              intro h
              apply h1
              exact eq_of_sub_eq_zero h
            have hdeep : ¬ (v.fover = 0 ∨ v.fover = 1) := by
              rintro (h | h)
              · exact h0 h
              · exact h1 h
            rw [if_neg hdeep]
            simp only [h0, hsub, ne_eq, not_false_iff, if_true, if_false]
            exact hnext (v := { v with fover := v.fover - 1 }) hf
      · rw [if_neg hr, if_neg hr]
        by_cases hq : c = QUOTE
        · rw [if_pos hq, if_pos hq]
          exact hnext (v := { v with nchar := !v.nchar }) hf
        · rw [if_neg hq, if_neg hq]
          exact hnext hf

theorem returnFlag_ok {pcnt : Byte} (hp : pcnt &&& 0x7F ≤ 5) (fpname : List Byte) (rval : Byte) :
    ∃ r, returnFlag pcnt fpname rval = .ok r := by
  have hall : ∀ p : Byte, p &&& 0x7F ≤ 5 → (p &&& 0x7F).toNat < 6 := by decide
  unfold returnFlag
  split
  · rw [put_ok (hall pcnt hp)]
    exact ⟨_, rfl⟩
  · exact ⟨_, rfl⟩

theorem seekName_ok (str : List Byte) : seekName str = .ok (nameStart str) := by
  have hlt : scanOffset str 0 0 ≠ 0 → (scanOffset str 0 0).toNat < 0 + (str.takeWhile (· ≠ LPAR)).length :=
    scanOffset_lt str fun h => absurd rfl h
  have hlen := (List.takeWhile_prefix (· ≠ LPAR) (l := str)).length_le
  rw [Nat.zero_add] at hlt
  unfold seekName nameStart advance
  dsimp only
  split
  · rename_i hne
    exact if_pos (Nat.lt_of_lt_of_le (hlt hne) hlen)
  · rfl

theorem countParms_ok {v : Scan} (hf : v.fplcnt ≤ 5) : ∃ n, countParms v = .ok n := by
  have hall : ∀ p : Byte, p ≤ 5 → p.toNat < 6 := by decide
  unfold countParms
  split
  · rw [put_ok (hall _ hf)]
    exact ⟨_, rfl⟩
  · exact ⟨_, rfl⟩

/- Only the loop and the closing NUL can go wrong. -/
theorem getFname_eq (size : ℕ) (str : List Byte) (rval : Byte) :
    ∃ rval' fpname, getFname size str rval = (do
      let v ← scanLoop size (nameStart str) (Scan.start fpname)
      let pnum ← countParms v
      return ⟨v.res, ← terminate size v.fname, pnum, rval'⟩) := by
  obtain ⟨⟨pcnt, fp⟩, hret, hp⟩ := scanReturn_ok str 0 [] (by decide)
  obtain ⟨⟨rval', fpname⟩, hflag⟩ := returnFlag_ok hp fp rval
  refine ⟨rval', fpname, ?_⟩
  unfold getFname
  rw [hret, ok_bind_eq]
  dsimp only
  rw [hflag, ok_bind_eq, seekName_ok, ok_bind_eq]

theorem start_fplcnt (fpname : List Byte) : (Scan.start fpname).fplcnt ≤ 5 := by
  show (0 : Byte) ≤ 5
  decide

def NameFits (str : List Byte) : Prop := (nameOf str).length < MAX_FNAME_LEN

theorem getFname_ok_iff (str : List Byte) (rval : Byte) :
    (∃ f, getFname MAX_FNAME_LEN str rval = .ok f) ↔ NameFits str := by
  obtain ⟨rval', fpname, heq⟩ := getFname_eq MAX_FNAME_LEN str rval
  have hcollect : Collects MAX_FNAME_LEN (scanLoop MAX_FNAME_LEN (nameStart str) (Scan.start fpname))
      (nameOf str) := scanLoop_collects MAX_FNAME_LEN (nameStart str) (start_fplcnt fpname)
  rw [heq]
  obtain ⟨v, hv, hname, hf⟩ | ⟨hv, hlen⟩ := hcollect
  · obtain ⟨n, hn⟩ := countParms_ok hf
    rw [hv, ok_bind_eq, hn, ok_bind_eq, terminate, hname]
    unfold NameFits
    split
    · rename_i hfit
      exact ⟨fun _ => hfit, fun _ => ⟨_, rfl⟩⟩
    · rename_i hbig
      exact ⟨fun hok => (nomatch hok.choose_spec), fun h => absurd h hbig⟩
  · have hbig : ¬ NameFits str := Nat.not_lt_of_le (Nat.le_of_lt hlen)
    rw [hv]
    exact ⟨fun hok => (nomatch hok.choose_spec), fun h => absurd h hbig⟩

/- A text without an opening bracket is not taken for a function. -/
theorem scanLoop_noBracket {size : ℕ} {s : List Byte} {v r : Scan} (hs : LPAR ∉ s)
    (h : scanLoop size s v = .ok r) (hv : v.fover = 0) (hf : v.fplcnt ≤ 5) : r.res = USMART_FUNCERR := by
  induction s generalizing v with
  | nil =>
    cases h
    rfl
  | cons c s ih =>
    have hc : c ≠ LPAR := fun hc => hs (hc ▸ List.mem_cons_self ..)
    have hrest : LPAR ∉ s := fun hmem => hs (List.mem_cons_of_mem c hmem)
    have hnext {w : Scan} (hw : w.fover = 0) (hwf : w.fplcnt ≤ 5)
        (h : scanBody size c w >>= scanLoop size s = .ok r) : r.res = USMART_FUNCERR := by
      obtain ⟨w', hbody, h⟩ := ok_bind h
      obtain ⟨w'', hbody', -, hfover, -, -, hf'⟩ | ⟨hbody', -⟩ := scanBody_spec size c hwf
      · rw [hbody] at hbody'
        cases hbody'
        exact ih hrest h (hfover.trans hw) hf'
      · rw [hbody] at hbody'
        cases hbody'
    unfold scanLoop at h
    rw [if_neg fun hl => hc hl.1] at h
    split at h
    · simp only [hv, ne_eq, not_true, if_false, if_true] at h
      cases h
      rfl
    · split at h
      · exact hnext (w := { v with nchar := !v.nchar }) hv hf h
      · exact hnext hv hf h

theorem getFname_bracket {str : List Byte} {rval : Byte} {f : Fname}
    (h : getFname MAX_FNAME_LEN str rval = .ok f) (hres : f.res = 0) : LPAR ∈ str := by
  obtain ⟨rval', fpname, heq⟩ := getFname_eq MAX_FNAME_LEN str rval
  rw [heq] at h
  obtain ⟨v, hv, h⟩ := ok_bind h
  obtain ⟨n, -, h⟩ := ok_bind h
  obtain ⟨fname, -, h⟩ := ok_bind h
  cases h
  by_contra hmem
  have hstart : LPAR ∉ nameStart str := by
    unfold nameStart
    split
    · exact fun hdrop => hmem (List.mem_of_mem_drop hdrop)
    · exact hmem
  have herr := scanLoop_noBracket hstart hv rfl (start_fplcnt fpname)
  exact absurd (hres.symm.trans herr) (by decide)

end MultiEmbedded.Usmart
