import MultiEmbedded.Usmart.Fparam
import MultiEmbedded.Usmart.Number

/-!
# What the parameter texts of a command say

The texts stand between the commas that are outside of strings, up to the
closing bracket. A text denotes a number, or the characters of a string without
its escapes; other texts denote nothing, though some of them are accepted.
-/

namespace MultiEmbedded.Usmart

def consHead (p : List Byte) : List (List Byte) → List (List Byte)
  | [] => [p]
  | f :: fs => (p ++ f) :: fs

/-- The texts behind an opening bracket; `quoted` inside a string. -/
def fields : (quoted : Bool) → List Byte → List (List Byte)
  | _, [] => [[]]
  | true, c :: s =>
    if c = BACKSLASH then
      match s with
      | [] => [[c]]
      | d :: s => consHead [c, d] (fields true s)
    else consHead [c] (fields (c != QUOTE) s)
  | false, c :: s =>
    if c = RPAR then [[]]
    else if c = COMMA then [] :: fields false s
    else consHead [c] (fields (c == QUOTE) s)

def isSpace (c : Byte) : Bool := c == SPACE

/-- The characters of a string behind its opening quote; only spaces follow the closing one. -/
def unescape : List Byte → Option (List Byte)
  | [] => none
  | c :: s =>
    if c = QUOTE then if s.all isSpace then some [] else none
    else if c = BACKSLASH then
      match s with
      | [] => none
      | d :: s => (unescape s).map (d :: ·)
    else (unescape s).map (c :: ·)

/-- What a text denotes, once its leading spaces are gone. -/
def denoteCore : List Byte → Option Param
  | [] => none
  | c :: s =>
    if c = QUOTE then (unescape s).map .str
    else if ((c :: s).dropWhile (!isSpace ·)).all isSpace then
      (numeral ((c :: s).takeWhile (!isSpace ·))).map .num
    else none

def denote (t : List Byte) : Option Param := denoteCore (t.dropWhile isSpace)

/-! ### The end of a text -/

/- What follows a text: the end of the list, or a comma and the remaining texts. -/
def Follows (rest : List Byte) (ts : List (List Byte)) : Prop :=
  (ts = [] ∧ atEnd rest) ∨ ∃ s, rest = COMMA :: s ∧ ts = fields false s

theorem consHead_eq {p t : List Byte} {fs ts : List (List Byte)} (hne : fs ≠ [])
    (h : consHead p fs = t :: ts) : ∃ f, fs = f :: ts ∧ t = p ++ f := by
  cases fs with
  | nil => exact absurd rfl hne
  | cons f fs =>
    cases h
    exact ⟨f, rfl, rfl⟩

theorem consHead_ne_nil (p : List Byte) (fs : List (List Byte)) : consHead p fs ≠ [] := by
  cases fs with
  | nil => exact List.cons_ne_nil _ _
  | cons f fs => exact List.cons_ne_nil _ _

theorem fields_ne_nil (q : Bool) (s : List Byte) : fields q s ≠ [] := by
  fun_cases fields q s with
  | case1 => exact List.cons_ne_nil _ _
  | case2 => exact List.cons_ne_nil _ _
  | case3 d s => exact consHead_ne_nil _ _
  | case4 c s => exact consHead_ne_nil _ _
  | case5 s => exact List.cons_ne_nil _ _
  | case6 s => exact List.cons_ne_nil _ _
  | case7 c s => exact consHead_ne_nil _ _

theorem fields_split {q : Bool} {s t : List Byte} {ts : List (List Byte)} (h : fields q s = t :: ts) :
    ∃ rest, s = t ++ rest ∧ Follows rest ts := by
  fun_induction fields q s generalizing t with
  | case1 q =>
    cases h
    exact ⟨[], rfl, Or.inl ⟨rfl, Or.inr rfl⟩⟩
  | case2 =>
    cases h
    exact ⟨[], rfl, Or.inl ⟨rfl, Or.inr rfl⟩⟩
  | case3 d s ih =>
    obtain ⟨f, hf, rfl⟩ := consHead_eq (fields_ne_nil true s) h
    obtain ⟨rest, rfl, hrest⟩ := ih hf
    exact ⟨rest, rfl, hrest⟩
  | case4 c s hc ih =>
    obtain ⟨f, hf, rfl⟩ := consHead_eq (fields_ne_nil _ s) h
    obtain ⟨rest, rfl, hrest⟩ := ih hf
    exact ⟨rest, rfl, hrest⟩
  | case5 s =>
    cases h
    exact ⟨RPAR :: s, rfl, Or.inl ⟨rfl, Or.inl rfl⟩⟩
  | case6 s hc ih =>
    cases h
    exact ⟨COMMA :: s, rfl, Or.inr ⟨s, rfl, rfl⟩⟩
  | case7 c s hr hc ih =>
    obtain ⟨f, hf, rfl⟩ := consHead_eq (fields_ne_nil _ s) h
    obtain ⟨rest, rfl, hrest⟩ := ih hf
    exact ⟨rest, rfl, hrest⟩

/-! ### Reading a text that denotes something -/

def isSep (c : Byte) : Bool := c == SPACE || c == COMMA

theorem readTail_spaces {a : List Byte} (ha : a.all isSpace) (rest : List Byte) :
    readTail (a ++ rest) = ⟨a.length + (readTail rest).len, (readTail rest).out, (readTail rest).type⟩ := by
  induction a with
  | nil => simp
  | cons c a ih =>
    rw [List.all_cons, Bool.and_eq_true] at ha
    have hc : c = SPACE := eq_of_beq ha.1
    have hno : ¬ (c = RPAR ∨ c = COMMA) := by
      rw [hc]
      decide
    rw [List.cons_append, readTail, if_neg hno, ih ha.2]
    unfold Reading.more
    have hlen : a.length + (readTail rest).len + 1 = (c :: a).length + (readTail rest).len := by
      rw [List.length_cons]
      omega
    rw [List.nil_append, hlen]

theorem readTail_follows {rest : List Byte} {ts : List (List Byte)} (h : Follows rest ts) :
    readTail rest = ⟨0, [], 1⟩ := by
  obtain ⟨-, hend⟩ | ⟨s, rfl, -⟩ := h
  · obtain hr | rfl := hend
    · cases rest with
      | nil => rfl
      | cons c s =>
        have hc : c = RPAR := hr
        rw [readTail, if_pos (Or.inl hc)]
    · rfl
  · rw [readTail, if_pos (Or.inr rfl)]

theorem readString_quote (s : List Byte) :
    readString (QUOTE :: s) = some ((readTail s).more 1 []) := by
  rw [readString.eq_def]
  exact if_pos rfl

theorem readString_escape (d : Byte) (s : List Byte) :
    readString (BACKSLASH :: d :: s) = (readString s).map (Reading.more 2 [d]) := by
  rw [readString.eq_def]
  rfl

theorem readString_char {c : Byte} (hq : c ≠ QUOTE) (hb : c ≠ BACKSLASH) (s : List Byte) :
    readString (c :: s) = (readString s).map (Reading.more 1 [c]) := by
  rw [readString.eq_def]
  exact (if_neg hq).trans (if_neg hb)

theorem readString_text {t b rest : List Byte} {ts : List (List Byte)} (ht : unescape t = some b)
    (h : Follows rest ts) : readString (t ++ rest) = some ⟨t.length, b, 1⟩ := by
  fun_induction unescape t generalizing b with
  | case1 => cases ht
  | case2 s hs =>
    cases ht
    rw [List.cons_append, readString_quote, readTail_spaces hs, readTail_follows h]
    rfl
  | case3 s hs => cases ht
  | case4 => cases ht
  | case5 d s hq ih =>
    obtain ⟨b', hb, rfl⟩ := Option.map_eq_some_iff.mp ht
    rw [List.cons_append, List.cons_append, readString_escape, ih hb]
    rfl
  | case6 c s hq hb ih =>
    obtain ⟨b', hb', rfl⟩ := Option.map_eq_some_iff.mp ht
    rw [List.cons_append, readString_char hq hb, ih hb']
    rfl

theorem readNumber_spaces {a : List Byte} (ha : a.all isSpace) (enout : Bool) (s : List Byte) :
    readNumber enout (a ++ s) = (readNumber enout s).map (Reading.more a.length []) := by
  induction a with
  | nil =>
    cases hr : readNumber enout s with
    | none => exact hr
    | some r => exact hr
  | cons c a ih =>
    rw [List.all_cons, Bool.and_eq_true] at ha
    have hc : c = SPACE := eq_of_beq ha.1
    have hno : SPACE ≠ RPAR ∧ isNum SPACE = false ∧ SPACE ≠ QUOTE := by decide
    rw [List.cons_append, hc, readNumber, if_neg hno.1, hno.2.1, if_neg Bool.false_ne_true, if_neg hno.2.2,
      if_pos rfl, ih ha.2]
    cases readNumber enout s with
    | none => rfl
    | some r => rfl

theorem readNumber_digits {d : List Byte} (hd : d.all isNum) (s : List Byte) :
    readNumber false (d ++ s) = (readNumber false s).map (Reading.more d.length (d.map toUpper)) := by
  induction d with
  | nil =>
    cases hr : readNumber false s with
    | none => exact hr
    | some r => exact hr
  | cons c d ih =>
    rw [List.all_cons, Bool.and_eq_true] at hd
    have hne : c ≠ RPAR := by
      rintro rfl
      exact absurd hd.1 (by decide)
    rw [List.cons_append, readNumber, if_neg hne, if_pos hd.1, if_neg Bool.false_ne_true, ih hd.2]
    cases readNumber false s with
    | none => rfl
    | some r => rfl

/- Once a comma is passed, separators are skipped; what comes then is another parameter or an error. -/
theorem readNumber_seps (s : List Byte) :
    ∃ type, readNumber true s = some ⟨(s.takeWhile isSep).length, [], type⟩ ∧ (type = 0 ∨ type = 0xFF) := by
  induction s with
  | nil => exact ⟨0, rfl, Or.inl rfl⟩
  | cons c s ih =>
    obtain ⟨type, hrest, htype⟩ := ih
    rw [readNumber]
    by_cases hsep : isSep c
    · rw [List.takeWhile_cons_of_pos hsep, hrest]
      refine ⟨type, ?_, htype⟩
      have hcases : c = SPACE ∨ c = COMMA := by
        unfold isSep at hsep
        rw [Bool.or_eq_true, beq_iff_eq, beq_iff_eq] at hsep
        exact hsep
      obtain rfl | rfl := hcases
      · rfl
      · rfl
    · rw [List.takeWhile_cons_of_neg hsep]
      have hcases : c ≠ SPACE ∧ c ≠ COMMA := by
        unfold isSep at hsep
        rw [Bool.or_eq_true, beq_iff_eq, beq_iff_eq, not_or] at hsep
        exact hsep
      rw [if_neg hcases.1, if_neg hcases.2]
      split
      · exact ⟨0, rfl, Or.inl rfl⟩
      · split
        · exact ⟨0, rfl, Or.inl rfl⟩
        · split
          · exact ⟨0, rfl, Or.inl rfl⟩
          · exact ⟨0xFF, rfl, Or.inr rfl⟩

theorem readNumber_comma (s : List Byte) :
    ∃ type, readNumber false (COMMA :: s) = some ⟨(s.takeWhile isSep).length + 1, [], type⟩ ∧
      (type = 0 ∨ type = 0xFF) := by
  obtain ⟨type, hseps, htype⟩ := readNumber_seps s
  have hno : COMMA ≠ RPAR ∧ isNum COMMA = false ∧ COMMA ≠ QUOTE ∧ COMMA ≠ SPACE := by decide
  refine ⟨type, ?_, htype⟩
  rw [readNumber, if_neg hno.1, hno.2.1, if_neg Bool.false_ne_true, if_neg hno.2.2.1, if_neg hno.2.2.2, if_pos rfl,
    hseps]
  rfl

theorem drop_seps (s : List Byte) : (COMMA :: s).drop ((s.takeWhile isSep).length + 1) = s.dropWhile isSep := by
  rw [List.drop_succ_cons]
  nth_rewrite 2 [← List.takeWhile_append_dropWhile (p := isSep) (l := s)]
  exact List.drop_left

theorem numeral_isNum {d : List Byte} {v : BitVec 32} (h : numeral d = some v) : d.all isNum ∧ d ≠ [] := by
  have hhex : ∀ c : Byte, isHex c → isNum c := by decide
  have hall {s : List Byte} (hs : s.all isHex) : s.all isNum := by
    rw [List.all_eq_true] at hs ⊢
    exact fun c hc => hhex c (hs c hc)
  unfold numeral at h
  split at h
  · rename_i hdec
    exact ⟨hall (isHex_of_isDec hdec.2), hdec.1⟩
  · split at h
    · split at h
      · rename_i z x s _ hx
        obtain ⟨rfl, hx, -, hs⟩ := hx
        refine ⟨?_, List.cons_ne_nil _ _⟩
        have hxnum : isNum x := by
          obtain rfl | rfl := hx
          · decide
          · decide
        rw [List.all_cons, List.all_cons, hxnum, hall hs]
        decide
      · cases h
    · cases h

/- The pointer behind a parameter that was read: at what follows its text, or behind the
separators there. -/
def Behind (rest x : List Byte) : Prop := x = rest ∨ ∃ s, rest = COMMA :: s ∧ x = s.dropWhile isSep

theorem all_takeWhile (f : Byte → Bool) (s : List Byte) : (s.takeWhile f).all f := by
  rw [List.all_eq_true]
  exact fun c hc => List.mem_takeWhile_imp hc

/- A number behind its digits. -/
theorem readNumber_follows {rest : List Byte} {ts : List (List Byte)} (h : Follows rest ts) :
    ∃ k type, readNumber false rest = some ⟨k, [], type⟩ ∧ (type = 0 ∨ type = 0xFF) ∧
      Behind rest (rest.drop k) := by
  obtain ⟨-, hend⟩ | ⟨s, rfl, -⟩ := h
  · refine ⟨0, 0, ?_, Or.inl rfl, Or.inl rfl⟩
    obtain hr | rfl := hend
    · cases rest with
      | nil => rfl
      | cons c s =>
        have hc : c = RPAR := hr
        rw [readNumber, if_pos hc]
    · rfl
  · obtain ⟨type, hread, htype⟩ := readNumber_comma s
    exact ⟨_, type, hread, htype, Or.inr ⟨s, rfl, drop_seps s⟩⟩

/- The reading of a text that denotes `p`: `p` itself, unless an error follows a number. -/
theorem readParm_text {t rest : List Byte} {ts : List (List Byte)} {p : Param} (ht : denote t = some p)
    (h : Follows rest ts) (hlen : t.length < 256) :
    ∃ r, readParm (t ++ rest) = some r ∧
      ((r.item = .param p ∧ Behind rest ((t ++ rest).drop r.len)) ∨ r.item = .bad) := by
  have hsplit := List.takeWhile_append_dropWhile (p := isSpace) (l := t)
  have hspaces := all_takeWhile isSpace t
  unfold denote at ht
  generalize t.takeWhile isSpace = a at hsplit hspaces
  generalize t.dropWhile isSpace = core at hsplit ht
  subst hsplit
  cases core with
  | nil => cases ht
  | cons c s =>
    rw [denoteCore] at ht
    by_cases hq : c = QUOTE
    · rw [if_pos hq] at ht
      obtain ⟨b, hb, rfl⟩ := Option.map_eq_some_iff.mp ht
      have hquote : readNumber false (QUOTE :: (s ++ rest)) = some ⟨s.length + 1, b, 1⟩ := by
        rw [readNumber, if_neg (by decide), if_neg (by decide), if_pos rfl, if_neg Bool.false_ne_true,
          readString_text hb h]
        rfl
      refine ⟨⟨(a ++ c :: s).length, b, 1⟩, ?_, Or.inl ⟨rfl, Or.inl List.drop_left⟩⟩
      rw [readParm, List.append_assoc, readNumber_spaces hspaces, List.cons_append, hq, hquote]
      simp only [Option.map_some, Reading.more, List.nil_append, List.length_append, List.length_cons]
      rw [Nat.add_comm]
    · rw [if_neg hq] at ht
      split at ht
      · rename_i htail
        obtain ⟨v, hv, rfl⟩ := Option.map_eq_some_iff.mp ht
        obtain ⟨hnum, hne⟩ := numeral_isNum hv
        have hcore := List.takeWhile_append_dropWhile (p := (!isSpace ·)) (l := c :: s)
        generalize (c :: s).takeWhile (!isSpace ·) = d at hcore hv hnum hne
        generalize (c :: s).dropWhile (!isSpace ·) = b at hcore htail
        obtain ⟨k, type, hrest, htype, hbehind⟩ := readNumber_follows h
        have hread : readParm (a ++ (d ++ b) ++ rest) =
            some ⟨k + b.length + d.length + a.length, d.map toUpper, type⟩ := by
          rw [readParm, List.append_assoc, readNumber_spaces hspaces, List.append_assoc, readNumber_digits hnum,
            readNumber_spaces htail, hrest]
          simp only [Option.map_some, Reading.more, List.nil_append, List.append_nil]
        rw [← hcore] at hlen ⊢
        refine ⟨_, hread, ?_⟩
        obtain rfl | rfl := htype
        · left
          constructor
          · have hout : d.map toUpper ≠ [] := fun h => hne (List.map_eq_nil_iff.mp h)
            have hval : str2num (d.map toUpper) = (0, v) := by
              apply str2num_numeral hv
              simp only [List.length_append] at hlen
              omega
            unfold Reading.item
            dsimp only
            rw [if_pos rfl, if_neg hout, hval, if_neg fun h => h rfl]
          · have hdrop : k + b.length + d.length + a.length = (a ++ (d ++ b)).length + k := by
              simp only [List.length_append]
              omega
            dsimp only
            rw [hdrop, List.drop_length_add_append]
            exact hbehind
        · exact Or.inr rfl
      · cases ht

/-! ### All texts -/

theorem denote_dropWhile (t : List Byte) : denote (t.dropWhile isSpace) = denote t := by
  unfold denote
  rw [List.dropWhile_idempotent]

/- Behind the separators the next text starts, if it denotes something. -/
theorem fields_behind {s t : List Byte} {ts : List (List Byte)} {p : Param} (hf : fields false s = t :: ts)
    (ht : denote t = some p) :
    fields false (s.dropWhile isSep) = t.dropWhile isSpace :: ts ∧ ¬ atEnd (s.dropWhile isSep) := by
  induction s generalizing t with
  | nil =>
    cases hf
    cases ht
  | cons c s ih =>
    rw [fields] at hf
    split at hf
    · cases hf
      cases ht
    · rename_i hr
      split at hf
      · cases hf
        cases ht
      · rename_i hcomma
        obtain ⟨f, hrest, rfl⟩ := consHead_eq (fields_ne_nil _ s) hf
        by_cases hc : c = SPACE
        · have hsep : isSep c := by
            rw [hc]
            decide
          have hspace : isSpace c := by
            rw [hc]
            decide
          have hquote : (c == QUOTE) = false := by
            rw [hc]
            decide
          rw [hquote] at hrest
          rw [List.dropWhile_cons_of_pos hsep, List.singleton_append, List.dropWhile_cons_of_pos hspace]
          apply ih hrest
          rw [← ht, List.singleton_append, denote, denote, List.dropWhile_cons_of_pos hspace]
        · have hspace : ¬ isSpace c := fun h => hc (eq_of_beq h)
          have hsep : ¬ isSep c := by
            unfold isSep
            rw [Bool.or_eq_true, beq_iff_eq, beq_iff_eq]
            rintro (h | h)
            · exact hc h
            · exact hcomma h
          rw [List.dropWhile_cons_of_neg hsep, List.singleton_append, List.dropWhile_cons_of_neg hspace]
          constructor
          · rw [fields, if_neg hr, if_neg hcomma, hrest]
            rfl
          · rintro (h | h)
            · exact hr h
            · cases h

theorem paramsFrom_some {fuel : ℕ} {s : List Byte} {ps : List Param} {r : Reading}
    (hr : readParm s = some r) (h : paramsFrom (fuel + 1) s = some (ps, true)) :
    (r.item = .blank ∧ (atEnd (s.drop r.len) ∧ ps = [] ∨
      ¬ atEnd (s.drop r.len) ∧ paramsFrom fuel (s.drop r.len) = some (ps, true))) ∨
    (∃ p ps', r.item = .param p ∧ ps = p :: ps' ∧ (atEnd (s.drop r.len) ∧ ps' = [] ∨
      ¬ atEnd (s.drop r.len) ∧ paramsFrom fuel (s.drop r.len) = some (ps', true))) := by
  rw [paramsFrom, hr] at h
  dsimp only at h
  cases hitem : r.item with
  | bad =>
    rw [hitem] at h
    cases h
  | blank =>
    rw [hitem] at h
    dsimp only at h
    split at h
    · rename_i hend
      cases h
      exact Or.inl ⟨rfl, Or.inl ⟨hend, rfl⟩⟩
    · rename_i hend
      exact Or.inl ⟨rfl, Or.inr ⟨hend, h⟩⟩
  | param p =>
    rw [hitem] at h
    dsimp only at h
    split at h
    · rename_i hend
      cases h
      exact Or.inr ⟨p, [], rfl, rfl, Or.inl ⟨hend, rfl⟩⟩
    · rename_i hend
      obtain ⟨⟨ps', done⟩, hrest, heq⟩ := Option.map_eq_some_iff.mp h
      cases heq
      exact Or.inr ⟨p, ps', rfl, rfl, Or.inr ⟨hend, hrest⟩⟩

/- A parameter list that starts with a comma is what follows the separators. -/
theorem paramsFrom_comma {fuel : ℕ} {s : List Byte} {ps : List Param}
    (h : paramsFrom fuel (COMMA :: s) = some (ps, true)) (hend : ¬ atEnd (s.dropWhile isSep)) :
    ∃ fuel', paramsFrom fuel' (s.dropWhile isSep) = some (ps, true) := by
  cases fuel with
  | zero => cases h
  | succ fuel =>
    obtain ⟨type, hread, htype⟩ := readNumber_comma s
    have hcases := paramsFrom_some hread h
    rw [drop_seps] at hcases
    obtain ⟨-, ⟨hat, -⟩ | ⟨-, hrest⟩⟩ | ⟨p, ps', hitem, -⟩ := hcases
    · exact absurd hat hend
    · exact ⟨fuel, hrest⟩
    · obtain rfl | rfl := htype
      · cases hitem
      · cases hitem

/- What is left behind a parameter, once the comma and the spaces there are passed. -/
theorem paramsFrom_behind {fuel : ℕ} {rest s x : List Byte} {ps : List Param} (hrest : rest = COMMA :: s)
    (hx : Behind rest x) (hend : ¬ atEnd (s.dropWhile isSep))
    (h : atEnd x ∧ ps = [] ∨ ¬ atEnd x ∧ paramsFrom fuel x = some (ps, true)) :
    ∃ fuel', paramsFrom fuel' (s.dropWhile isSep) = some (ps, true) := by
  obtain rfl | ⟨s', hs', rfl⟩ := hx
  · subst hrest
    obtain ⟨hat, -⟩ | ⟨-, hgo⟩ := h
    · obtain hr | hnil := hat
      · exact absurd hr (by decide : COMMA ≠ RPAR)
      · cases hnil
    · exact paramsFrom_comma hgo hend
  · rw [hrest] at hs'
    cases hs'
    obtain ⟨hat, -⟩ | ⟨-, hgo⟩ := h
    · exact absurd hat hend
    · exact ⟨fuel, hgo⟩

/-- What the `j`-th text denotes. -/
def denoted (texts : List (List Byte)) (j : ℕ) : Option Param := texts[j]?.bind denote

theorem denoted_head {texts : List (List Byte)} {p : Param} (h : denoted texts 0 = some p) :
    ∃ t ts, texts = t :: ts ∧ denote t = some p := by
  cases texts with
  | nil => cases h
  | cons t ts => exact ⟨t, ts, rfl, h⟩

/-- While the texts denote something, they are the parameters that are kept. -/
theorem params_denoted (k : ℕ) {fuel : ℕ} {s : List Byte} {ps : List Param}
    (h : paramsFrom fuel s = some (ps, true)) (hlen : s.length < 256)
    (hk : ∀ j, j < k → (denoted (fields false s) j).isSome) :
    ∀ j, j < k → ps[j]? = denoted (fields false s) j := by
  induction k generalizing fuel s ps with
  | zero => exact fun j hj => absurd hj (Nat.not_lt_zero j)
  | succ k ih =>
    intro j hj
    obtain ⟨p, hp⟩ := Option.isSome_iff_exists.mp (hk 0 (Nat.succ_pos k))
    obtain ⟨t, ts, hf, ht⟩ := denoted_head hp
    obtain ⟨rest, hs, hfollows⟩ := fields_split hf
    have htlen : t.length < 256 := by
      rw [hs, List.length_append] at hlen
      omega
    obtain ⟨r, hread, hitem⟩ := readParm_text ht hfollows htlen
    rw [← hs] at hread hitem
    cases fuel with
    | zero => cases h
    | succ fuel =>
      obtain ⟨hblank, -⟩ | ⟨p', ps', hparam, hps, htail⟩ := paramsFrom_some hread h
      · obtain ⟨hitem, -⟩ | hitem := hitem
        · rw [hblank] at hitem
          cases hitem
        · rw [hblank] at hitem
          cases hitem
      · obtain ⟨hitem, hbehind⟩ | hitem := hitem
        · rw [hparam] at hitem
          cases hitem
          subst hps
          cases j with
          | zero => exact hp.symm
          | succ j =>
            have hj' : j < k := Nat.lt_of_succ_lt_succ hj
            obtain ⟨p2, hp2⟩ := Option.isSome_iff_exists.mp (hk 1 (by omega))
            rw [hf] at hp2
            obtain ⟨t2, ts2, hts, ht2⟩ := denoted_head (show denoted ts 0 = some p2 from hp2)
            obtain ⟨hnil, -⟩ | ⟨s', hrest, hts'⟩ := hfollows
            · rw [hnil] at hts
              cases hts
            · obtain ⟨hx, hend⟩ := fields_behind (hts' ▸ hts) ht2
              obtain ⟨fuel', hgo⟩ := paramsFrom_behind hrest hbehind hend htail
              have hxlen : (s'.dropWhile isSep).length < 256 := by
                have hdrop := (List.dropWhile_suffix isSep (l := s')).length_le
                rw [hs, hrest, List.length_append, List.length_cons] at hlen
                omega
              have hsame (i : ℕ) : denoted (fields false (s'.dropWhile isSep)) i =
                  denoted (fields false s) (i + 1) := by
                rw [hx, hf, hts]
                cases i with
                | zero => exact denote_dropWhile t2
                | succ i => rfl
              have hnext := ih hgo hxlen (fun i hi => by rw [hsame i]; exact hk (i + 1) (by omega)) j hj'
              rw [hsame j] at hnext
              exact hnext
        · rw [hparam] at hitem
          cases hitem

end MultiEmbedded.Usmart
