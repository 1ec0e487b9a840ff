import MultiEmbedded.Usmart.Name

/-!
# Reading the parameters of a command

`readParm` is what `usmart_get_aparm` does, without its flags and its buffer: a
number may be followed by separators, a string by anything up to the next
separator. `usmart_get_aparm` computes it, unless the text has more characters
than the buffer.
-/

namespace MultiEmbedded.Usmart

/- The characters passed, those copied, and the type. -/
structure Reading where
  len : ℕ
  out : List Byte
  type : Byte

def Reading.more (k : ℕ) (out : List Byte) (r : Reading) : Reading := ⟨r.len + k, out ++ r.out, r.type⟩

/- Behind a closing quote. -/
def readTail : List Byte → Reading
  | [] => ⟨0, [], 1⟩
  | c :: s => if c = RPAR ∨ c = COMMA then ⟨0, [], 1⟩ else (readTail s).more 1 []

/- Inside a string; `none` if the text ends there. -/
def readString : List Byte → Option Reading
  | [] => none
  | c :: s =>
    if c = QUOTE then some ((readTail s).more 1 [])
    else if c = BACKSLASH then
      match s with
      | [] => none
      | d :: s => (readString s).map (Reading.more 2 [d])
    else (readString s).map (Reading.more 1 [c])

/- A number so far; `enout` once a comma has been passed. -/
def readNumber : (enout : Bool) → List Byte → Option Reading
  | _, [] => some ⟨0, [], 0⟩
  | enout, c :: s =>
    if c = RPAR then some ⟨0, [], 0⟩
    else if isNum c then
      if enout then some ⟨0, [], 0⟩ else (readNumber enout s).map (Reading.more 1 [toUpper c])
    else if c = QUOTE then
      if enout then some ⟨0, [], 0⟩ else (readString s).map (Reading.more 1 [])
    else if c = SPACE then (readNumber enout s).map (Reading.more 1 [])
    else if c = COMMA then (readNumber true s).map (Reading.more 1 [])
    else some ⟨0, [], 0xFF⟩

def readParm (str : List Byte) : Option Reading := readNumber false str

/-! ### The scanner computes it -/

/- The scanner, with `fparm` stored and the counter at `i`, does what the reading says. -/
def Agrees (size : ℕ) (i : Byte) (fparm : List Byte) (x : Run Aparm) : Option Reading → Prop
  | none => ∃ e, x = .error e
  | some r =>
    if (fparm ++ r.out).length < size then x = .ok ⟨i + BitVec.ofNat 8 r.len, r.type, fparm ++ r.out⟩
    else ∃ e, x = .error e

variable {size : ℕ} {i : Byte} {fparm : List Byte}

theorem agrees_some {x : Run Aparm} {r : Reading} : Agrees size i fparm x (some r) ↔
    if (fparm ++ r.out).length < size then x = .ok ⟨i + BitVec.ofNat 8 r.len, r.type, fparm ++ r.out⟩
    else ∃ e, x = .error e := Iff.rfl

theorem agrees_stop (type : Byte) :
    Agrees size i fparm (do return ⟨i, type, ← terminate size fparm⟩) (some ⟨0, [], type⟩) := by
  unfold Agrees terminate
  simp only [List.append_nil]
  split
  · simp
  · exact ⟨_, rfl⟩

theorem agrees_skip {k : ℕ} {x : Run Aparm} {r : Option Reading}
    (h : Agrees size (i + BitVec.ofNat 8 k) fparm x r) :
    Agrees size i fparm x (r.map (Reading.more k [])) := by
  cases r with
  | none => exact h
  | some r =>
    have hi : i + BitVec.ofNat 8 k + BitVec.ofNat 8 r.len = i + BitVec.ofNat 8 (r.len + k) := by
      rw [BitVec.add_assoc, ← BitVec.ofNat_add, Nat.add_comm]
    rw [agrees_some, hi] at h
    exact h

theorem agrees_push {k : ℕ} {c : Byte} {x : List Byte → Run Aparm} {r : Option Reading}
    (h : Agrees size (i + BitVec.ofNat 8 k) (fparm ++ [c]) (x (fparm ++ [c])) r) :
    Agrees size i fparm (push size c fparm >>= x) (r.map (Reading.more k [c])) := by
  unfold push
  by_cases hlen : fparm.length < size
  · rw [if_pos hlen, ok_bind_eq]
    cases r with
    | none => exact h
    | some r =>
      have hskip := agrees_skip (k := k) h
      unfold Agrees at hskip ⊢
      simp only [Option.map_some, Reading.more, List.append_assoc] at hskip ⊢
      exact hskip
  · rw [if_neg hlen]
    cases r with
    | none => exact ⟨_, rfl⟩
    | some r =>
      have hbig : ¬ (fparm ++ (r.more k [c]).out).length < size := by
        simp only [Reading.more, List.length_append]
        omega
      unfold Agrees
      simp only [Option.map_some, if_neg hbig]
      exact ⟨_, rfl⟩

/-! One equation for each state that the flags make up. -/

def stopWith (size : ℕ) (i type : Byte) (fparm : List Byte) : Run Aparm := do
  return ⟨i, type, ← terminate size fparm⟩

theorem aparmLoop_closed (c : Byte) (s : List Byte) :
    aparmLoop size (c :: s) i false 1 false fparm =
      if c = RPAR ∨ c = COMMA then stopWith size i 1 fparm
      else aparmLoop size s (i + 1) false 1 false fparm := by
  have hone : (1 : Byte) ≠ 0 := by decide
  rw [aparmLoop]
  by_cases hr : c = RPAR
  · simp only [hr, true_or, and_self, if_true]
    rfl
  · by_cases hc : c = COMMA
    · have hne : COMMA ≠ RPAR := by decide
      simp only [hc, hne, hone, false_and, or_true, if_true, if_false, beq_self_eq_true, Bool.not_false,
        Bool.and_self, Bool.or_true]
      rfl
    · have hbeq : (c == COMMA) = false := beq_false_of_ne hc
      simp only [hr, hc, hbeq, hone, false_and, or_self, if_false, Bool.false_and, Bool.or_self,
        Bool.false_eq_true]

theorem aparmLoop_open (c : Byte) (s : List Byte) :
    aparmLoop size (c :: s) i false 1 true fparm =
      if c = QUOTE then aparmLoop size s (i + 1) false 1 false fparm
      else if c = BACKSLASH then
        match s with
        | [] => push size 0 fparm >>= fun _ => .error .pastNul
        | d :: s => push size d fparm >>= aparmLoop size s (i + 2) false 1 true
      else push size c fparm >>= aparmLoop size s (i + 1) false 1 true := by
  have hone : (1 : Byte) ≠ 0 := by decide
  rw [aparmLoop]
  by_cases hq : c = QUOTE
  · have hne : QUOTE ≠ RPAR := by decide
    simp only [hq, hne, hone, false_and, if_false, if_true, Bool.not_true, Bool.and_false, Bool.or_self,
      bne_self_eq_false, Bool.false_eq_true]
  · have hbne : (c != QUOTE) = true := bne_iff_ne.mpr hq
    cases s with
    | nil =>
      simp only [hq, hbne, hone, Bool.true_eq_false, and_false, if_false, Bool.not_true, Bool.and_false,
        Bool.or_self, Bool.and_self, Bool.false_eq_true, if_true]
    | cons d s =>
      simp only [hq, hbne, hone, Bool.true_eq_false, and_false, if_false, Bool.not_true, Bool.and_false,
        Bool.or_self, Bool.and_self, Bool.false_eq_true, if_true]

theorem aparmLoop_number (enout : Bool) (c : Byte) (s : List Byte) :
    aparmLoop size (c :: s) i enout 0 false fparm =
      if c = RPAR then stopWith size i 0 fparm
      else if isNum c then
        if enout then stopWith size i 0 fparm
        else push size (toUpper c) fparm >>= aparmLoop size s (i + 1) enout 0 false
      else if c = QUOTE then
        if enout then stopWith size i 0 fparm else aparmLoop size s (i + 1) enout 1 true fparm
      else if c = SPACE then aparmLoop size s (i + 1) enout 0 false fparm
      else if c = COMMA then aparmLoop size s (i + 1) true 0 false fparm
      else stopWith size i 0xFF fparm := by
  rw [aparmLoop]
  by_cases hc : c = COMMA
  · have hnum : isNum COMMA = false := by decide
    have hne : COMMA ≠ RPAR ∧ COMMA ≠ QUOTE ∧ COMMA ≠ SPACE := by decide
    simp only [hc, hnum, hne.1, hne.2.1, hne.2.2, false_and, if_false, if_true, beq_self_eq_true, Bool.not_false,
      Bool.and_self, Bool.or_true, Bool.false_eq_true, ne_eq, not_false_iff, not_true, and_false]
  · have hbeq : (c == COMMA) = false := beq_false_of_ne hc
    simp only [hc, hbeq, Bool.false_and, Bool.or_false, and_true, if_true, if_false, ne_eq, not_false_iff]
    by_cases hr : c = RPAR
    · simp only [hr, if_true]
      rfl
    · simp only [hr, if_false]
      by_cases hs : c = SPACE
      · simp only [hs, not_true, if_false, if_true]
        rfl
      · simp only [hs, not_false_iff, if_true, if_false]
        rfl

theorem aparmLoop_tail (s : List Byte) :
    Agrees size i fparm (aparmLoop size s i false 1 false fparm) (some (readTail s)) := by
  induction s generalizing i with
  | nil => exact agrees_stop 1
  | cons c s ih =>
    rw [aparmLoop_closed, readTail]
    split
    · exact agrees_stop 1
    · exact agrees_skip (k := 1) ih

theorem aparmLoop_string (s : List Byte) :
    Agrees size i fparm (aparmLoop size s i false 1 true fparm) (readString s) := by
  have hpast (fparm : List Byte) : ∃ e, (push size 0 fparm >>= fun _ => .error .pastNul : Run Aparm) = .error e := by
    unfold push
    split
    · exact ⟨_, rfl⟩
    · exact ⟨_, rfl⟩
  fun_induction readString s generalizing i fparm with
  | case1 => exact hpast fparm
  | case2 s =>
    rw [aparmLoop_open, if_pos rfl]
    exact agrees_skip (k := 1) (aparmLoop_tail s)
  | case3 =>
    rw [aparmLoop_open, if_neg (by decide), if_pos rfl]
    exact hpast fparm
  | case4 d s hq ih =>
    rw [aparmLoop_open, if_neg hq, if_pos rfl]
    exact agrees_push (k := 2) ih
  | case5 c s hq hb ih =>
    rw [aparmLoop_open, if_neg hq, if_neg hb]
    exact agrees_push (k := 1) ih

theorem aparmLoop_readNumber (enout : Bool) (s : List Byte) :
    Agrees size i fparm (aparmLoop size s i enout 0 false fparm) (readNumber enout s) := by
  induction s generalizing i enout fparm with
  | nil => exact agrees_stop 0
  | cons c s ih =>
    rw [aparmLoop_number, readNumber]
    split
    · exact agrees_stop 0
    · split
      · split
        · exact agrees_stop 0
        · exact agrees_push (k := 1) (ih enout)
      · split
        · cases enout with
          | true => exact agrees_stop 0
          | false => exact agrees_skip (k := 1) (aparmLoop_string s)
        · split
          · exact agrees_skip (k := 1) (ih enout)
          · split
            · exact agrees_skip (k := 1) (ih true)
            · exact agrees_stop 0xFF

theorem getAparm_agrees (size : ℕ) (str : List Byte) :
    Agrees size 0 [] (getAparm size str) (readParm str) := aparmLoop_readNumber false str

theorem getAparm_ok_iff (size : ℕ) (str : List Byte) :
    (∃ a, getAparm size str = .ok a) ↔ ∃ r, readParm str = some r ∧ r.out.length < size := by
  have h := getAparm_agrees size str
  cases hr : readParm str with
  | none =>
    rw [hr] at h
    obtain ⟨e, he⟩ := h
    rw [he]
    exact ⟨fun hok => (nomatch hok.choose_spec), fun hok => (nomatch hok.choose_spec.1)⟩
  | some r =>
    rw [hr, agrees_some, List.nil_append] at h
    split at h
    · rename_i hlt
      exact ⟨fun _ => ⟨r, rfl, hlt⟩, fun _ => ⟨_, h⟩⟩
    · rename_i hbig
      obtain ⟨e, he⟩ := h
      rw [he]
      refine ⟨fun hok => (nomatch hok.choose_spec), ?_⟩
      rintro ⟨r', heq, hlt⟩
      cases heq
      exact absurd hlt hbig

theorem getAparm_eq {str : List Byte} {r : Reading} (h : readParm str = some r)
    (hlt : r.out.length < size) : getAparm size str = .ok ⟨BitVec.ofNat 8 r.len, r.type, r.out⟩ := by
  have hagree := getAparm_agrees size str
  rw [h, agrees_some, List.nil_append, if_pos hlt] at hagree
  rw [hagree, zero_add]

/-! ### Its length -/

/- A reading stays in the text, and copies no more than it passes. -/
def Reading.Within (r : Reading) (s : List Byte) : Prop := r.len ≤ s.length ∧ r.out.length ≤ r.len

theorem within_zero (type : Byte) (s : List Byte) : Reading.Within ⟨0, [], type⟩ s :=
  ⟨Nat.zero_le _, Nat.le_refl _⟩

theorem within_more {r : Reading} {s s' : List Byte} {k : ℕ} {out : List Byte} (h : r.Within s)
    (hs : s'.length = s.length + k) (hout : out.length ≤ k) : (r.more k out).Within s' := by
  obtain ⟨h1, h2⟩ := h
  unfold Reading.Within Reading.more
  simp only [List.length_append]
  omega

theorem readTail_within (s : List Byte) : (readTail s).Within s := by
  induction s with
  | nil => exact within_zero 1 []
  | cons c s ih =>
    rw [readTail]
    split
    · exact within_zero 1 _
    · exact within_more ih rfl (Nat.zero_le 1)

theorem readString_within {s : List Byte} {r : Reading} (h : readString s = some r) : r.Within s := by
  fun_induction readString s generalizing r with
  | case1 => cases h
  | case2 s =>
    cases h
    exact within_more (readTail_within s) rfl (Nat.zero_le 1)
  | case3 => cases h
  | case4 d s hq ih =>
    obtain ⟨r', hr, rfl⟩ := Option.map_eq_some_iff.mp h
    exact within_more (ih hr) rfl (Nat.le_succ 1)
  | case5 c s hq hb ih =>
    obtain ⟨r', hr, rfl⟩ := Option.map_eq_some_iff.mp h
    exact within_more (ih hr) rfl (Nat.le_refl 1)

theorem readNumber_within {enout : Bool} {s : List Byte} {r : Reading} (h : readNumber enout s = some r) :
    r.Within s := by
  induction s generalizing enout r with
  | nil =>
    cases h
    exact within_zero 0 []
  | cons c s ih =>
    rw [readNumber] at h
    split at h
    · cases h
      exact within_zero 0 _
    · split at h
      · split at h
        · cases h
          exact within_zero 0 _
        · obtain ⟨r', hr, rfl⟩ := Option.map_eq_some_iff.mp h
          exact within_more (ih hr) rfl (Nat.le_refl 1)
      · split at h
        · split at h
          · cases h
            exact within_zero 0 _
          · obtain ⟨r', hr, rfl⟩ := Option.map_eq_some_iff.mp h
            exact within_more (readString_within hr) rfl (Nat.zero_le 1)
        · split at h
          · obtain ⟨r', hr, rfl⟩ := Option.map_eq_some_iff.mp h
            exact within_more (ih hr) rfl (Nat.zero_le 1)
          · split at h
            · obtain ⟨r', hr, rfl⟩ := Option.map_eq_some_iff.mp h
              exact within_more (ih hr) rfl (Nat.zero_le 1)
            · cases h
              exact within_zero _ _

/- A parameter that is read has at least one character. -/
theorem readParm_pos {s : List Byte} {r : Reading} (h : readParm s = some r) (hs : s ≠ [])
    (hr : peek s ≠ RPAR) (htype : r.type ≠ 0xFF) : 0 < r.len := by
  have hmore {x : Option Reading} {out : List Byte} (hx : x.map (Reading.more 1 out) = some r) : 0 < r.len := by
    obtain ⟨r', -, rfl⟩ := Option.map_eq_some_iff.mp hx
    exact Nat.succ_pos _
  cases s with
  | nil => exact absurd rfl hs
  | cons c s =>
    unfold readParm at h
    have hc : c ≠ RPAR := hr
    rw [readNumber, if_neg hc] at h
    simp only [Bool.false_eq_true, if_false] at h
    split at h
    · exact hmore h
    · split at h
      · exact hmore h
      · split at h
        · exact hmore h
        · split at h
          · exact hmore h
          · cases h
            exact absurd rfl htype

end MultiEmbedded.Usmart
