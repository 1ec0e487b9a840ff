import MultiEmbedded.Usmart.Prototype

/-!
# The prototype of a C function

`usmart_get_fname` on the declaration of a C function: a return type, stars,
a name and parameters without brackets of their own. It gives back the name, the
number of the parameters and whether there is a value to return. Two shapes are
taken for another: a head whose characters, without spaces, begin with those of
`void` although the type is not `void`, and a hidden `void` in the list.
-/

namespace MultiEmbedded.Usmart

def isLetter (c : Byte) : Bool := (0x41 ≤ c && c ≤ 0x5A) || (0x61 ≤ c && c ≤ 0x7A) || c == 0x5F

def isDigit (c : Byte) : Bool := 0x30 ≤ c && c ≤ 0x39

/-- A C identifier. -/
structure Identifier where
  first : Byte
  rest : List Byte
  firstOk : isLetter first
  restOk : ∀ c ∈ rest, isLetter c ∨ isDigit c

def Identifier.text (i : Identifier) : List Byte := i.first :: i.rest

/-- A C prototype: `gap` stands between the type and the name, `sp` between the name and the
bracket, and `pad` behind the bracket. -/
structure Signature where
  rtype : Identifier
  gap : List Byte
  name : Identifier
  sp : List Byte
  pad : List Byte
  decls : List Decl
  gapNe : gap ≠ []
  gapOk : ∀ c ∈ gap, c = SPACE ∨ c = STAR
  nameOk : name.text.length ≤ 29
  spOk : ∀ c ∈ sp, c = SPACE
  padOk : ∀ c ∈ pad, c = SPACE
  flat : ∀ d ∈ decls, ∀ c ∈ d.text, c ≠ LPAR ∧ c ≠ RPAR ∧ c ≠ 0

/-! ### Its characters -/

theorem letter_plain : ∀ c : Byte, isLetter c ∨ isDigit c →
    c ≠ SPACE ∧ c ≠ STAR ∧ c ≠ LPAR ∧ c ≠ RPAR ∧ c ≠ QUOTE ∧ c ≠ 0 := by decide

theorem Identifier.plain (i : Identifier) : ∀ c ∈ i.text,
    c ≠ SPACE ∧ c ≠ STAR ∧ c ≠ LPAR ∧ c ≠ RPAR ∧ c ≠ QUOTE ∧ c ≠ 0 := by
  intro c hc
  cases hc with
  | head => exact letter_plain i.first (Or.inl i.firstOk)
  | tail _ hc => exact letter_plain c (i.restOk c hc)

theorem Identifier.filter (i : Identifier) : i.text.filter (· ≠ SPACE) = i.text := by
  rw [List.filter_eq_self]
  intro c hc
  simpa using (i.plain c hc).1

theorem noSpaces : ∀ c ∈ ([] : List Byte), c = SPACE := fun _ hc => (nomatch hc)

theorem filter_spaces {a : List Byte} (ha : ∀ c ∈ a, c = SPACE) : a.filter (· ≠ SPACE) = [] := by
  rw [List.filter_eq_nil_iff]
  intro c hc
  simpa using ha c hc

/- What stands in front of the bracket. -/
def Signature.head (s : Signature) : List Byte := s.rtype.text ++ (s.gap ++ (s.name.text ++ s.sp))

theorem Signature.head_plain (s : Signature) : ∀ c ∈ s.head, c ≠ LPAR ∧ c ≠ RPAR ∧ c ≠ QUOTE ∧ c ≠ 0 := by
  intro c hc
  simp only [Signature.head, List.mem_append] at hc
  rcases hc with hc | hc | hc | hc
  · exact (s.rtype.plain c hc).2.2
  · rcases s.gapOk c hc with rfl | rfl
    · decide
    · decide
  · exact (s.name.plain c hc).2.2
  · rw [s.spOk c hc]
    decide

def Signature.prototype (s : Signature) : Prototype where
  head := s.head
  pad := s.pad
  decls := s.decls
  headOk := fun c hc => ⟨(s.head_plain c hc).1, (s.head_plain c hc).2.1, (s.head_plain c hc).2.2.1⟩
  padOk := s.padOk
  noNul := fun d hd c hc => (s.flat d hd c hc).2.2

def Signature.text (s : Signature) : List Byte := s.prototype.text

/-- 0 for the type `void` itself, without a star. -/
def Signature.rval (s : Signature) : Byte := if s.rtype.text = VOID ∧ STAR ∉ s.gap then 0 else 1

/-- Another type than `void`, but the head goes on from it to `void`, such as `void_t f` or `vo id`. -/
def Signature.Misread (s : Signature) : Prop :=
  s.rtype.text ≠ VOID ∧ VOID <+: s.head.filter (· ≠ SPACE)

/- A text that the scan of the parameters passes without a change of depth. -/
def Flat (s : List Byte) : Prop := ∀ c ∈ s, c ≠ LPAR ∧ c ≠ RPAR ∧ c ≠ QUOTE

theorem declOk_quote {s : List Byte} {fresh : Bool} (hok : declOk 0 fresh s)
    (hs : ∀ c ∈ s, c ≠ LPAR ∧ c ≠ RPAR ∧ c ≠ 0) : ∀ c ∈ s, c ≠ QUOTE := by
  induction s generalizing fresh with
  | nil => exact fun c hc => (nomatch hc)
  | cons c s ih =>
    rw [List.forall_mem_cons] at hs ⊢
    obtain ⟨⟨hl, hr, -⟩, hs⟩ := hs
    cases fresh with
    | true =>
      rw [declOk] at hok
      split at hok
      · rename_i hc
        rw [hc]
        exact ⟨by decide, ih hok hs⟩
      · simp only [Bool.and_eq_true, bne_iff_ne] at hok
        exact ⟨hok.1.2, ih hok.2 hs⟩
    | false =>
      rw [declOk] at hok
      split at hok
      · exact absurd hok Bool.false_ne_true
      · rename_i hq
        split at hok
        · exact absurd hok Bool.false_ne_true
        · exact ⟨hq, ih hok hs⟩

theorem flat_decls {ds : List Decl} (hflat : ∀ d ∈ ds, ∀ c ∈ d.text, c ≠ LPAR ∧ c ≠ RPAR ∧ c ≠ 0) :
    Flat (joinDecls ds) ∧ ∀ c ∈ joinDecls ds, c ≠ 0 := by
  induction ds with
  | nil => exact ⟨fun c hc => (nomatch hc), fun c hc => (nomatch hc)⟩
  | cons d ds ih =>
    rw [List.forall_mem_cons] at hflat
    obtain ⟨hd, hds⟩ := hflat
    obtain ⟨hrest, hnul⟩ := ih hds
    have hquote := declOk_quote d.ok hd
    have hfirst : ∀ c ∈ d.text, (c ≠ LPAR ∧ c ≠ RPAR ∧ c ≠ QUOTE) ∧ c ≠ 0 := fun c hc =>
      ⟨⟨(hd c hc).1, (hd c hc).2.1, hquote c hc⟩, (hd c hc).2.2⟩
    cases ds with
    | nil => exact ⟨fun c hc => (hfirst c hc).1, fun c hc => (hfirst c hc).2⟩
    | cons d' ds =>
      have hmem {c : Byte} (hc : c ∈ joinDecls (d :: d' :: ds)) :
          c ∈ d.text ∨ c = COMMA ∨ c ∈ joinDecls (d' :: ds) := by
        rw [joinDecls, List.mem_append, List.mem_cons] at hc
        · exact hc
        · exact fun h => (nomatch h)
      constructor
      · intro c hc
        rcases hmem hc with hc | rfl | hc
        · exact (hfirst c hc).1
        · decide
        · exact hrest c hc
      · intro c hc
        rcases hmem hc with hc | rfl | hc
        · exact (hfirst c hc).2
        · decide
        · exact hnul c hc

theorem Signature.inner_flat (s : Signature) : Flat (s.pad ++ joinDecls s.decls) := by
  intro c hc
  rw [List.mem_append] at hc
  rcases hc with hc | hc
  · rw [s.padOk c hc]
    decide
  · exact (flat_decls s.flat).1 c hc

theorem Signature.text_eq (s : Signature) :
    s.text = s.head ++ LPAR :: ((s.pad ++ joinDecls s.decls) ++ [RPAR]) := by
  rw [List.append_assoc]
  rfl

theorem Signature.text_noNul (s : Signature) : ∀ c ∈ s.text, c ≠ 0 := by
  intro c hc
  simp only [s.text_eq, List.mem_append, List.mem_cons, List.not_mem_nil, or_false] at hc
  rcases hc with hc | rfl | (hc | hc) | rfl
  · exact (s.head_plain c hc).2.2.2
  · decide
  · rw [s.padOk c hc]
    decide
  · exact (flat_decls s.flat).2 c hc
  · decide

/-! ### The return type -/

/- What `usmart_get_fname` compares with `void`: four characters, and a star behind them. -/
def typeChars (z : List Byte) : List Byte := if z[4]? = some STAR then z.take 5 else z.take 4

/- `pcnt` with `n` characters recorded. -/
def mark : ℕ → Byte
  | 0 => 0
  | n + 1 => BitVec.ofNat 8 (0x81 + n)

theorem mark_open : ∀ k, k < 5 → mark k &&& 0x7F < 5 ∧ mark k ≠ 0x85 ∧
    ((if mark k = 0 then mark k ||| 0x80 else mark k) &&& 0x7F).toNat = k ∧
    ((if mark k = 0 then mark k ||| 0x80 else mark k) &&& 0x7F = 4 ↔ k = 4) ∧
    (if mark k = 0 then mark k ||| 0x80 else mark k) + 1 = mark (k + 1) ∧
    (k = 4 → (if mark k = 0 then mark k ||| 0x80 else mark k) = mark 4) := by decide

theorem scanReturn_full (s x : List Byte) : scanReturn s 0x85 x = .ok (0x85, x) := by
  cases s with
  | nil => rfl
  | cons c s =>
    rw [scanReturn, if_neg fun h => absurd h.2 (by decide), if_pos rfl]

/- The characters `x` are recorded, and `s` is to come. -/
theorem scanReturn_run (s : List Byte) {x : List Byte} (hx : x.length < 5) :
    scanReturn s (mark x.length) x =
      .ok (mark (typeChars (x ++ s.filter (· ≠ SPACE))).length, typeChars (x ++ s.filter (· ≠ SPACE))) := by
  induction s generalizing x with
  | nil =>
    have hnone : x[4]? = none := List.getElem?_eq_none (Nat.le_of_lt_succ hx)
    rw [List.filter_nil, List.append_nil, typeChars, hnone, if_neg (by decide),
      List.take_of_length_le (Nat.le_of_lt_succ hx)]
    rfl
  | cons c s ih =>
    obtain ⟨hroom, hfull, hindex, hfour, hnext, hlast⟩ := mark_open x.length hx
    by_cases hc : c = SPACE
    · have hskip : (c :: s).filter (· ≠ SPACE) = s.filter (· ≠ SPACE) :=
        List.filter_cons_of_neg (by simpa using hc)
      rw [scanReturn, if_neg fun h => h.1 hc, if_neg hfull, hskip]
      exact ih hx
    · have hkeep : (c :: s).filter (· ≠ SPACE) = c :: s.filter (· ≠ SPACE) :=
        List.filter_cons_of_pos (by simpa using hc)
      rw [scanReturn, if_pos ⟨hc, hroom⟩, hkeep]
      dsimp only
      by_cases h4 : x.length = 4
      · have hhead : (x ++ c :: s.filter (· ≠ SPACE))[4]? = some c := by
          rw [List.getElem?_append_right (Nat.le_of_eq h4), h4]
          rfl
        by_cases hstar : c = STAR
        · have htake : (x ++ c :: s.filter (· ≠ SPACE)).take 5 = x ++ [c] := by
            rw [List.take_append, List.take_of_length_le (by omega), h4]
            rfl
          have hlen : (x ++ [c]).length = 5 := by
            rw [List.length_append, h4]
            rfl
          rw [if_neg fun h => h.2 hstar, put_ok (by omega), ok_bind_eq, hindex, List.take_length, hnext,
            h4, typeChars, hhead, hstar, if_pos rfl, ← hstar, htake, hlen]
          exact scanReturn_full s (x ++ [c])
        · have htake : (x ++ c :: s.filter (· ≠ SPACE)).take 4 = x := by
            rw [← h4]
            exact List.take_left
          have hother : ¬ (some c = some STAR) := fun h => hstar (Option.some.inj h)
          rw [if_pos ⟨hfour.mpr h4, hstar⟩, typeChars, hhead, if_neg hother, htake, hlast h4, h4]
      · rw [if_neg fun h => h4 (hfour.mp h.1), put_ok (by omega), ok_bind_eq, hindex, List.take_length, hnext]
        have hrest := ih (x := x ++ [c]) (by
          rw [List.length_append, List.length_singleton]
          omega)
        rw [List.length_append, List.length_singleton, List.append_assoc] at hrest
        exact hrest

theorem typeChars_length (z : List Byte) : (typeChars z).length ≤ 5 := by
  unfold typeChars
  split
  · exact List.length_take_le 5 z
  · exact (List.length_take_le 4 z).trans (by decide)

theorem typeChars_mem {z : List Byte} {c : Byte} (h : c ∈ typeChars z) : c ∈ z := by
  unfold typeChars at h
  split at h
  · exact List.mem_of_mem_take h
  · exact List.mem_of_mem_take h

theorem typeChars_void {z : List Byte} : typeChars z = VOID ↔ VOID <+: z ∧ z[4]? ≠ some STAR := by
  unfold typeChars
  constructor
  · intro h
    split at h
    · rename_i hstar
      have hz : z = VOID := take_void.mp h
      rw [hz] at hstar
      exact absurd hstar (by decide)
    · rename_i hstar
      rw [← h]
      exact ⟨List.take_prefix 4 z, hstar⟩
  · rintro ⟨⟨t, rfl⟩, hstar⟩
    rw [if_neg hstar]
    rfl

theorem mark_put : ∀ n, n < 6 → n ≠ 0 → mark n ≠ 0 ∧ (mark n &&& 0x7F).toNat = n := by decide

theorem returnFlag_type {y : List Byte} (hy : y ≠ []) (hlen : y.length ≤ 5) (hnul : ∀ c ∈ y, c ≠ 0) (rval : Byte) :
    returnFlag (mark y.length) y rval = .ok (if y = VOID then 0 else 1, y ++ [0]) := by
  obtain ⟨hne, hindex⟩ := mark_put y.length (Nat.lt_succ_of_le hlen) (mt List.eq_nil_of_length_eq_zero hy)
  have hcmp := strcmp_eq_zero hnul (t := VOID) (by decide)
  rw [returnFlag, if_pos hne, put_ok (by omega), hindex, List.take_length, ok_bind_eq]
  simp only [hcmp]
  rfl

/-! ### The type of a signature -/

theorem prefix_stop {w a r : List Byte} {c : Byte} (hc : c ∉ w) : w <+: a ++ c :: r ↔ w <+: a := by
  constructor
  · intro h
    by_cases hlen : w.length ≤ a.length
    · exact List.prefix_of_prefix_length_le h (List.prefix_append a _) hlen
    · obtain ⟨t, ht⟩ := List.prefix_of_prefix_length_le (List.prefix_append a (c :: r)) h (by omega)
      cases t with
      | nil =>
        rw [List.append_nil] at ht
        rw [ht]
      | cons d t =>
        rw [← ht, List.prefix_append_right_inj, List.cons_prefix_cons] at h
        apply absurd _ hc
        rw [← ht, ← h.1]
        exact List.mem_append_right a (List.mem_cons_self ..)
  · exact fun h => h.trans (List.prefix_append a _)

theorem takeWhile_stop {a r : List Byte} {c : Byte} (ha : ∀ x ∈ a, x ≠ c) :
    (a ++ c :: r).takeWhile (· ≠ c) = a := by
  rw [List.takeWhile_append_of_pos, List.takeWhile_cons_of_neg (by simp), List.append_nil]
  intro x hx
  simpa using ha x hx

theorem Signature.head_chars (s : Signature) :
    s.head.filter (· ≠ SPACE) = s.rtype.text ++ (s.gap.filter (· ≠ SPACE) ++ s.name.text) := by
  rw [Signature.head, List.filter_append, List.filter_append, List.filter_append, s.rtype.filter,
    s.name.filter, filter_spaces s.spOk, List.append_nil]

theorem Signature.stars (s : Signature) : ∀ c ∈ s.gap.filter (· ≠ SPACE), c = STAR := by
  intro c hc
  rw [List.mem_filter] at hc
  rcases s.gapOk c hc.1 with h | h
  · exact absurd h (by simpa using hc.2)
  · exact h

theorem Signature.no_stars (s : Signature) : s.gap.filter (· ≠ SPACE) = [] ↔ STAR ∉ s.gap := by
  constructor
  · intro h hmem
    have hin : STAR ∈ s.gap.filter (· ≠ SPACE) := List.mem_filter.mpr ⟨hmem, by decide⟩
    rw [h] at hin
    exact nomatch hin
  · intro h
    cases hstars : s.gap.filter (· ≠ SPACE) with
    | nil => rfl
    | cons c t =>
      have hin : c ∈ s.gap.filter (· ≠ SPACE) := hstars ▸ List.mem_cons_self ..
      apply absurd (List.mem_of_mem_filter hin)
      rw [s.stars c hin]
      exact h

/- The characters that are compared with `void`, up to a bracket that is not one of them. -/
theorem Signature.text_chars (s : Signature) : ∃ r,
    s.text.filter (· ≠ SPACE) = s.head.filter (· ≠ SPACE) ++ LPAR :: r := by
  rw [s.text_eq, List.filter_append, List.filter_cons_of_pos (by decide)]
  exact ⟨_, rfl⟩

theorem Signature.star_behind {s : Signature} {r : List Byte} (hne : s.rtype.text ≠ VOID)
    (h : VOID <+: s.head.filter (· ≠ SPACE) ++ LPAR :: r) :
    (s.head.filter (· ≠ SPACE) ++ LPAR :: r)[4]? ≠ some STAR := by
  intro hstar
  obtain ⟨t, ht⟩ := h
  cases t with
  | nil =>
    rw [← ht] at hstar
    exact absurd hstar (by decide)
  | cons c t =>
    have hc : c = STAR := by
      rw [← ht] at hstar
      exact Option.some.inj hstar
    rw [hc] at ht
    -- up to the first star there is the type, if there are stars, or else a bracket
    have hvoid : VOID = (s.head.filter (· ≠ SPACE) ++ LPAR :: r).takeWhile (· ≠ STAR) := by
      rw [← ht, takeWhile_stop (by decide)]
    rw [s.head_chars] at hvoid
    cases hstars : s.gap.filter (· ≠ SPACE) with
    | cons d u =>
      have hd : d = STAR := s.stars d (hstars ▸ List.mem_cons_self ..)
      rw [hstars, hd, List.cons_append, List.append_assoc, List.cons_append,
        takeWhile_stop fun x hx => (s.rtype.plain x hx).2.1] at hvoid
      exact hne hvoid.symm
    | nil =>
      have hpass : ∀ x ∈ s.rtype.text ++ s.name.text, x ≠ STAR := by
        intro x hx
        rcases List.mem_append.mp hx with hx | hx
        · exact (s.rtype.plain x hx).2.1
        · exact (s.name.plain x hx).2.1
      rw [hstars, List.nil_append, List.takeWhile_append_of_pos (by simpa using hpass),
        List.takeWhile_cons_of_pos (by decide)] at hvoid
      have hin : LPAR ∈ VOID := by
        rw [hvoid]
        exact List.mem_append_right _ (List.mem_cons_self ..)
      exact absurd hin (by decide)

theorem Signature.typeChars_iff (s : Signature) :
    typeChars (s.text.filter (· ≠ SPACE)) = VOID ↔ (s.rtype.text = VOID ∧ STAR ∉ s.gap) ∨ s.Misread := by
  obtain ⟨r, hr⟩ := s.text_chars
  rw [typeChars_void, hr]
  by_cases hv : s.rtype.text = VOID
  · have hmis : ¬ s.Misread := fun h => h.1 hv
    have hpre : VOID <+: s.head.filter (· ≠ SPACE) ++ LPAR :: r := by
      rw [s.head_chars, hv, List.append_assoc]
      exact List.prefix_append VOID _
    have hfifth : (s.head.filter (· ≠ SPACE) ++ LPAR :: r)[4]? ≠ some STAR ↔ STAR ∉ s.gap := by
      rw [← s.no_stars, s.head_chars, hv]
      cases hstars : s.gap.filter (· ≠ SPACE) with
      | nil =>
        refine iff_of_true (fun h => ?_) rfl
        have hfirst : s.name.first = STAR := Option.some.inj h
        exact (s.name.plain s.name.first (List.mem_cons_self ..)).2.1 hfirst
      | cons d u =>
        refine iff_of_false (fun h => h ?_) (List.cons_ne_nil d u)
        exact congrArg some (s.stars d (hstars ▸ List.mem_cons_self ..))
    rw [hfifth]
    constructor
    · exact fun h => Or.inl ⟨hv, h.2⟩
    · intro h
      rcases h with h | h
      · exact ⟨hpre, h.2⟩
      · exact absurd h hmis
  · have hmis : s.Misread ↔ VOID <+: s.head.filter (· ≠ SPACE) ++ LPAR :: r := by
      rw [prefix_stop (by decide)]
      exact ⟨fun h => h.2, fun h => ⟨hv, h⟩⟩
    rw [hmis]
    constructor
    · exact fun h => Or.inr h.1
    · intro h
      rcases h with h | h
      · exact absurd h.1 hv
      · exact ⟨h, s.star_behind hv h⟩

/-! ### The start of the name -/

theorem nat_succ (k : ℕ) : BitVec.ofNat 8 k + 1 = BitVec.ofNat 8 (k + 1) := by
  rw [BitVec.ofNat_add]
  rfl

/- Up to the last character of the gap the offset may be any. -/
theorem scanOffset_pass {s : List Byte} (hs : ∀ c ∈ s, c ≠ LPAR) (rest : List Byte) (k : ℕ) (o : Byte) :
    ∃ o', scanOffset (s ++ rest) (BitVec.ofNat 8 k) o = scanOffset rest (BitVec.ofNat 8 (k + s.length)) o' := by
  induction s generalizing k o with
  | nil => exact ⟨o, rfl⟩
  | cons c s ih =>
    rw [List.forall_mem_cons] at hs
    rw [List.cons_append, scanOffset, if_neg hs.1, nat_succ, List.length_cons, Nat.add_comm s.length 1, ← Nat.add_assoc]
    dsimp only
    split
    · exact ih hs.2 (k + 1) _
    · exact ih hs.2 (k + 1) o

theorem searchNextc_spaces {sp : List Byte} (hsp : ∀ c ∈ sp, c = SPACE) {c : Byte} (hc : c ≠ SPACE) (r : List Byte) :
    searchNextc (sp ++ c :: r) = c := by
  unfold searchNextc
  rw [List.dropWhile_append_of_pos (by simpa using hsp), List.dropWhile_cons_of_neg (by simpa using hc)]
  rfl

theorem scanOffset_cons {c : Byte} (hc : c ≠ LPAR) (d : Byte) (s : List Byte) (res o : Byte) :
    scanOffset (c :: d :: s) res o =
      if (d = SPACE ∨ d = STAR) ∧ searchNextc s ≠ LPAR ∧ searchNextc s ≠ STAR
      then scanOffset (d :: s) (res + 1) (res + 1) else scanOffset (d :: s) (res + 1) o := by
  rw [scanOffset, if_neg hc]
  rfl

/- Spaces in front of the bracket do not move it. -/
theorem scanOffset_spaces {sp : List Byte} (hsp : ∀ c ∈ sp, c = SPACE) {c : Byte} (hc : c ≠ LPAR) (r : List Byte)
    (res o : Byte) : scanOffset (c :: (sp ++ LPAR :: r)) res o = o := by
  induction sp generalizing c res with
  | nil => rw [List.nil_append, scanOffset_cons hc, if_neg fun h => absurd h.1 (by decide), scanOffset, if_pos rfl]
  | cons d sp ih =>
    rw [List.forall_mem_cons] at hsp
    obtain ⟨hd, hsp⟩ := hsp
    rw [List.cons_append, scanOffset_cons hc, if_neg fun h => h.2.1 (searchNextc_spaces hsp (by decide) r)]
    exact ih hsp (by rw [hd]; decide) (res + 1)

/- Nor does the name. -/
theorem scanOffset_name {c : Byte} {n sp : List Byte} (hn : ∀ d ∈ c :: n, d ≠ SPACE ∧ d ≠ STAR ∧ d ≠ LPAR)
    (hsp : ∀ d ∈ sp, d = SPACE) (r : List Byte) (res o : Byte) :
    scanOffset (c :: (n ++ (sp ++ LPAR :: r))) res o = o := by
  induction n generalizing c res with
  | nil => exact scanOffset_spaces hsp (hn c (List.mem_cons_self ..)).2.2 r res o
  | cons d n ih =>
    rw [List.forall_mem_cons] at hn
    have hd := hn.2 d (List.mem_cons_self ..)
    have hquiet : ¬ (d = SPACE ∨ d = STAR) := by
      rintro (h | h)
      · exact hd.1 h
      · exact hd.2.1 h
    rw [List.cons_append, scanOffset_cons hn.1.2.2, if_neg fun h => hquiet h.1]
    exact ih hn.2 (res + 1)

/- The last character of the gap is the one in front of the name. -/
theorem Signature.offset (s : Signature) (hshort : s.text.length < 256) :
    ∃ b g c, s.rtype.text ++ s.gap = b ++ g :: [c] ∧
      scanOffset s.text 0 0 = BitVec.ofNat 8 (b.length + 1) ∧ b.length + 1 < 256 := by
  have hsplit : s.gap = s.gap.dropLast ++ [s.gap.getLast s.gapNe] := (List.dropLast_append_getLast s.gapNe).symm
  have hfront : s.rtype.text ++ s.gap.dropLast ≠ [] := List.append_ne_nil_of_left_ne_nil (List.cons_ne_nil _ _) _
  have hbefore := (List.dropLast_append_getLast hfront).symm
  generalize hb : (s.rtype.text ++ s.gap.dropLast).dropLast = b at hbefore
  generalize hg : (s.rtype.text ++ s.gap.dropLast).getLast hfront = g at hbefore
  generalize hc : s.gap.getLast s.gapNe = c at hsplit
  have hwhole : s.rtype.text ++ s.gap = b ++ g :: [c] := by
    rw [hsplit, ← List.append_assoc, hbefore, List.append_assoc]
    rfl
  have hgap : c = SPACE ∨ c = STAR := by
    apply s.gapOk
    rw [← hc]
    exact List.getLast_mem s.gapNe
  have hplain : ∀ d ∈ b ++ g :: [c], d ≠ LPAR := by
    intro d hd
    rw [← hwhole] at hd
    have hmem : d ∈ s.head := by
      rw [Signature.head, ← List.append_assoc]
      exact List.mem_append_left _ hd
    exact (s.head_plain d hmem).1
  have htext : s.text = b ++ (g :: c :: (s.name.text ++ (s.sp ++ LPAR :: (s.pad ++ joinDecls s.decls ++ [RPAR])))) := by
    rw [s.text_eq, Signature.head, ← List.append_assoc s.rtype.text, hwhole]
    simp only [List.append_assoc, List.cons_append, List.nil_append]
  have hlen := congrArg List.length htext
  rw [List.length_append, List.length_cons] at hlen
  refine ⟨b, g, c, hwhole, ?_, by omega⟩
  obtain ⟨o, ho⟩ := scanOffset_pass (s := b) (fun d hd => hplain d (List.mem_append_left _ hd))
    (g :: c :: (s.name.text ++ (s.sp ++ LPAR :: (s.pad ++ joinDecls s.decls ++ [RPAR])))) 0 0
  have hgl : g ≠ LPAR := hplain g (List.mem_append_right b (List.mem_cons_self ..))
  have hcl : c ≠ LPAR := by
    rcases hgap with rfl | rfl
    · decide
    · decide
  have hfirst := s.name.plain s.name.first (List.mem_cons_self ..)
  have hnext : searchNextc (s.name.text ++ (s.sp ++ LPAR :: (s.pad ++ joinDecls s.decls ++ [RPAR]))) = s.name.first :=
    searchNextc_spaces noSpaces hfirst.1 _
  have hquiet : ¬ (s.name.first = SPACE ∨ s.name.first = STAR) := by
    rintro (h | h)
    · exact hfirst.1 h
    · exact hfirst.2.1 h
  rw [htext]
  refine ho.trans ?_
  have hseek : (c = SPACE ∨ c = STAR) ∧
      searchNextc (s.name.text ++ (s.sp ++ LPAR :: (s.pad ++ joinDecls s.decls ++ [RPAR]))) ≠ LPAR ∧
      searchNextc (s.name.text ++ (s.sp ++ LPAR :: (s.pad ++ joinDecls s.decls ++ [RPAR]))) ≠ STAR := by
    rw [hnext]
    exact ⟨hgap, hfirst.2.2.1, hfirst.2.1⟩
  rw [Nat.zero_add, scanOffset_cons hgl, if_pos hseek, nat_succ, Identifier.text, List.cons_append,
    scanOffset_cons hcl, if_neg fun h => hquiet h.1]
  exact scanOffset_name (fun d hd => ⟨(s.name.plain d hd).1, (s.name.plain d hd).2.1, (s.name.plain d hd).2.2.1⟩)
    s.spOk _ _ _

theorem Signature.nameStart_eq (s : Signature) (hshort : s.text.length < 256) : nameStart s.text =
    (s.name.text ++ s.sp) ++ LPAR :: ((s.pad ++ joinDecls s.decls) ++ [RPAR]) := by
  obtain ⟨b, g, c, hwhole, hoffset, hlt⟩ := s.offset hshort
  have hnat : (BitVec.ofNat 8 (b.length + 1)).toNat = b.length + 1 := by
    rw [BitVec.toNat_ofNat, Nat.mod_eq_of_lt hlt]
  have hne : scanOffset s.text 0 0 ≠ 0 := by
    rw [hoffset]
    exact ofNat_ne hlt (by decide) (Nat.succ_ne_zero b.length)
  have hcut : b.length + 1 + 1 = (b ++ g :: [c]).length := by
    rw [List.length_append]
    rfl
  rw [nameStart, if_pos hne, hoffset, hnat, hcut, s.text_eq, Signature.head, ← List.append_assoc s.rtype.text,
    hwhole, List.append_assoc, List.drop_left]

/-! ### The name -/

theorem names_head {a : List Byte} (ha : Flat a) (rest : List Byte) :
    names (a ++ rest) 0 false = a.filter (· ≠ SPACE) ++ names rest 0 false := by
  induction a with
  | nil => rfl
  | cons c a ih =>
    rw [Flat, List.forall_mem_cons] at ha
    obtain ⟨⟨hl, hr, hq⟩, ha⟩ := ha
    rw [List.cons_append, names, if_neg fun h => hl h.1, if_neg fun h => hr h.1, if_neg hq, ih ha, ← List.append_assoc]
    congr 1
    by_cases hc : c = SPACE
    · rw [List.filter_cons_of_neg (by simpa using hc), kept, if_neg fun h => h.2 hc, List.nil_append]
    · rw [List.filter_cons_of_pos (by simpa using hc), kept, if_pos ⟨rfl, hc⟩]
      rfl

theorem names_inside {a : List Byte} (ha : Flat a) (rest : List Byte) : names (a ++ RPAR :: rest) 1 false = [] := by
  induction a with
  | nil => rfl
  | cons c a ih =>
    rw [Flat, List.forall_mem_cons] at ha
    obtain ⟨⟨hl, hr, hq⟩, ha⟩ := ha
    rw [List.cons_append, names, if_neg fun h => hl h.1, if_neg fun h => hr h.1, if_neg hq, ih ha, kept,
      if_neg fun h => absurd h.1 (by decide)]
    rfl

theorem Signature.front_flat (s : Signature) : Flat (s.name.text ++ s.sp) := by
  intro c hc
  rcases List.mem_append.mp hc with hc | hc
  · exact ⟨(s.name.plain c hc).2.2.1, (s.name.plain c hc).2.2.2.1, (s.name.plain c hc).2.2.2.2.1⟩
  · rw [s.spOk c hc]
    decide

theorem Signature.nameOf_eq (s : Signature) (hshort : s.text.length < 256) : nameOf s.text = s.name.text := by
  have hopen (rest : List Byte) : names (LPAR :: rest) 0 false = names rest 1 false := rfl
  rw [nameOf, s.nameStart_eq hshort, names_head s.front_flat, hopen, names_inside s.inner_flat, List.append_nil,
    List.filter_append, s.name.filter, filter_spaces s.spOk, List.append_nil]

/-! ### The result -/

theorem parmStep_frame (c : Byte) (v : Scan) :
    (parmStep c v).fover = v.fover ∧ (parmStep c v).nchar = v.nchar ∧ (parmStep c v).res = v.res := by
  unfold parmStep
  split
  · exact ⟨rfl, rfl, rfl⟩
  · split
    · split
      · exact ⟨rfl, rfl, rfl⟩
      · exact ⟨rfl, rfl, rfl⟩
    · exact ⟨rfl, rfl, rfl⟩

theorem scanLoop_flat {size : ℕ} {a : List Byte} (ha : Flat a) {v r : Scan} (hv : v.fover = 1) (hn : v.nchar = false)
    (h : scanLoop size (a ++ [RPAR]) v = .ok r) : r.res = v.res := by
  induction a generalizing v with
  | nil =>
    rw [List.nil_append, scanLoop_end size hn hv] at h
    cases h
    rfl
  | cons c a ih =>
    rw [Flat, List.forall_mem_cons] at ha
    obtain ⟨⟨hl, hr, hq⟩, ha⟩ := ha
    obtain ⟨pfover, pnchar, pres⟩ := parmStep_frame c v
    obtain ⟨-, kfover, knchar, kres, -⟩ := count_frame (parmStep c v)
    have hne : v.fover ≠ 0 := by
      rw [hv]
      decide
    rw [List.cons_append, scanLoop_char size hl hr hq hne] at h
    have hrest := ih ha ((kfover.trans pfover).trans hv) ((knchar.trans pnchar).trans hn) h
    exact hrest.trans (kres.trans pres)

theorem getFname_parts {size : ℕ} {str : List Byte} {rval : Byte} {f : Fname} (h : getFname size str rval = .ok f) :
    ∃ pcnt fp fpname v, scanReturn str 0 [] = .ok (pcnt, fp) ∧ returnFlag pcnt fp rval = .ok (f.rval, fpname) ∧
      scanLoop size (nameStart str) (Scan.start fpname) = .ok v ∧ f.res = v.res ∧ f.fname = v.fname := by
  unfold getFname at h
  obtain ⟨⟨pcnt, fp⟩, hret, h⟩ := ok_bind h
  obtain ⟨⟨rval', fpname⟩, hflag, h⟩ := ok_bind h
  dsimp only at h
  rw [seekName_ok, ok_bind_eq] at h
  obtain ⟨v, hscan, h⟩ := ok_bind h
  obtain ⟨n, -, h⟩ := ok_bind h
  obtain ⟨fname, hend, h⟩ := ok_bind h
  cases h
  refine ⟨pcnt, fp, fpname, v, hret, hflag, hscan, rfl, ?_⟩
  unfold terminate at hend
  split at hend
  · cases hend
    rfl
  · exact nomatch hend

theorem Signature.scan_res {s : Signature} (hshort : s.text.length < 256) {fpname : List Byte} {v : Scan}
    (h : scanLoop MAX_FNAME_LEN (nameStart s.text) (Scan.start fpname) = .ok v) : v.res = USMART_OK := by
  have hhead : ∀ c ∈ s.name.text ++ s.sp, c ≠ LPAR ∧ c ≠ RPAR ∧ c ≠ QUOTE := s.front_flat
  rw [s.nameStart_eq hshort] at h
  obtain ⟨fname, h⟩ := scanLoop_head MAX_FNAME_LEN hhead rfl h
  have hskip : { Scan.start fpname with fname := fname, fover := 1 }.count =
      { Scan.start fpname with fname := fname, fover := 1 } :=
    count_skip fun h => absurd (show (1 : Byte) = 2 from h.2) (by decide)
  have hopen := scanLoop_open MAX_FNAME_LEN (v := { Scan.start fpname with fname := fname }) rfl
    (show (0 : Byte) + 1 ≠ 0 by decide) ((s.pad ++ joinDecls s.decls) ++ [RPAR])
  rw [hopen] at h
  rw [show ({ Scan.start fpname with fname := fname } : Scan).fover + 1 = 1 from rfl, hskip] at h
  exact scanLoop_flat s.inner_flat rfl rfl h

theorem Signature.type_rval (s : Signature) (rval : Byte) : ∃ fpname y,
    scanReturn s.text 0 [] = .ok (mark y.length, y) ∧
    returnFlag (mark y.length) y rval = .ok (if y = VOID then 0 else 1, fpname) ∧
    y = typeChars (s.text.filter (· ≠ SPACE)) := by
  have hscan : scanReturn s.text 0 [] = _ := scanReturn_run s.text (x := []) (by decide)
  rw [List.nil_append] at hscan
  have hne : typeChars (s.text.filter (· ≠ SPACE)) ≠ [] := by
    intro h
    obtain ⟨r, hr⟩ := s.text_chars
    rw [hr, s.head_chars, typeChars] at h
    split at h
    · exact nomatch h
    · exact nomatch h
  have hnul : ∀ c ∈ typeChars (s.text.filter (· ≠ SPACE)), c ≠ 0 := fun c hc =>
    s.text_noNul c (List.mem_of_mem_filter (typeChars_mem hc))
  exact ⟨_, _, hscan, returnFlag_type hne (typeChars_length _) hnul rval, rfl⟩

/- What `usmart_get_fname` makes of a signature. -/
theorem Signature.getFname_eq (s : Signature) (hshort : s.text.length < 256) (rval : Byte) :
    getFname MAX_FNAME_LEN s.text rval = .ok ⟨USMART_OK, s.name.text, BitVec.ofNat 8 s.prototype.counted,
      if typeChars (s.text.filter (· ≠ SPACE)) = VOID then 0 else 1⟩ := by
  have hfits : NameFits s.text := by
    rw [NameFits, s.nameOf_eq hshort]
    exact Nat.lt_succ_of_le s.nameOk
  obtain ⟨f, hf⟩ := (getFname_ok_iff s.text rval).mpr hfits
  have hnum := getFname_counted (p := s.prototype) hshort hf
  obtain ⟨pcnt, fp, fpname, v, hret, hflag, hscan, hres, hname⟩ := getFname_parts hf
  obtain ⟨fpname', y, hret', hflag', hy⟩ := s.type_rval rval
  rw [hret'] at hret
  cases hret
  rw [hflag'] at hflag
  injection hflag with hflag
  injection hflag with hrval
  have hok : f.res = USMART_OK := hres.trans (s.scan_res hshort hscan)
  have hfname : f.fname = s.name.text := by
    rw [hname, ← s.nameOf_eq hshort]
    rcases scanLoop_collects MAX_FNAME_LEN (nameStart s.text) (start_fplcnt fpname) with ⟨w, hw, hwname, -⟩ | ⟨hw, -⟩
    · rw [hscan] at hw
      cases hw
      exact hwname
    · rw [hscan] at hw
      exact nomatch hw
  rw [hf, ← hok, ← hfname, ← hnum, ← hy, hrval]

/-- The contract of `usmart_get_fname` holds for all signatures but those two shapes. -/
theorem Signature.getFname_contract_iff (s : Signature) (hshort : s.text.length ≤ 200) (rval : Byte) :
    getFname MAX_FNAME_LEN s.text rval =
        .ok ⟨USMART_OK, s.name.text, BitVec.ofNat 8 s.prototype.count, s.rval⟩ ↔
      ¬ s.Misread ∧ ¬ s.prototype.HiddenVoid := by
  have hcount : BitVec.ofNat 8 s.prototype.counted = BitVec.ofNat 8 s.prototype.count ↔ ¬ s.prototype.HiddenVoid := by
    constructor
    · intro heq hhidden
      obtain ⟨h0, h1⟩ := counted_hidden hhidden
      rw [h0, h1] at heq
      exact absurd heq (by decide)
    · exact fun h => congrArg _ (counted_eq s.prototype h)
  have hrval : (if typeChars (s.text.filter (· ≠ SPACE)) = VOID then 0 else 1) = s.rval ↔ ¬ s.Misread := by
    unfold Signature.rval
    by_cases hv : s.rtype.text = VOID ∧ STAR ∉ s.gap
    · rw [if_pos (s.typeChars_iff.mpr (Or.inl hv)), if_pos hv]
      exact iff_of_true rfl fun h => h.1 hv.1
    · rw [if_neg hv]
      by_cases hm : s.Misread
      · rw [if_pos (s.typeChars_iff.mpr (Or.inr hm))]
        exact iff_of_false (by decide) (not_not.mpr hm)
      · rw [if_neg fun h => (s.typeChars_iff.mp h).elim hv hm]
        exact iff_of_true rfl hm
  rw [s.getFname_eq (by omega) rval, ← hcount, ← hrval]
  constructor
  · intro h
    injection h with h
    injection h with _ _ hnum hval
    exact ⟨hval, hnum⟩
  · rintro ⟨hval, hnum⟩
    rw [hval, hnum]

/- `void *f(u8 a, u8 b)` -/
def pointerTo : Signature where
  rtype := ⟨0x76, [0x6F, 0x69, 0x64], by decide, by decide⟩
  gap := [SPACE, STAR]
  name := ⟨0x66, [], by decide, by decide⟩
  sp := []
  pad := []
  decls := [⟨[0x75, 0x38, SPACE, 0x61], by decide⟩, ⟨[SPACE, 0x75, 0x38, SPACE, 0x62], by decide⟩]
  gapNe := by decide
  gapOk := by decide
  nameOk := by decide
  spOk := noSpaces
  padOk := noSpaces
  flat := by decide

theorem getFname_contract_iff_pointer : pointerTo.text.length ≤ 200 ∧
    (getFname MAX_FNAME_LEN pointerTo.text 0 = .ok ⟨USMART_OK, [0x66], 2, 1⟩ ↔
      ¬ pointerTo.Misread ∧ ¬ pointerTo.prototype.HiddenVoid) :=
  ⟨by decide, pointerTo.getFname_contract_iff (by decide) 0⟩

/- `void_t f(void)` -/
def voidType : Signature where
  rtype := ⟨0x76, [0x6F, 0x69, 0x64, 0x5F, 0x74], by decide, by decide⟩
  gap := [SPACE]
  name := ⟨0x66, [], by decide, by decide⟩
  sp := []
  pad := []
  decls := [⟨VOID, by decide⟩]
  gapNe := by decide
  gapOk := by decide
  nameOk := by decide
  spOk := noSpaces
  padOk := noSpaces
  flat := by decide

/- Its value would not be displayed. -/
theorem getFname_voidType : voidType.text.length ≤ 200 ∧
    getFname MAX_FNAME_LEN voidType.text 0 = .ok ⟨USMART_OK, [0x66], 0, 0⟩ ∧ voidType.rval = 1 ∧
    ¬ getFname MAX_FNAME_LEN voidType.text 0 =
        .ok ⟨USMART_OK, voidType.name.text, BitVec.ofNat 8 voidType.prototype.count, voidType.rval⟩ := by
  have hrun : getFname MAX_FNAME_LEN voidType.text 0 = .ok ⟨USMART_OK, [0x66], 0, 0⟩ := rfl
  refine ⟨by decide, hrun, by decide, fun h => ?_⟩
  rw [hrun] at h
  injection h with h
  injection h with _ _ _ hval
  exact absurd hval (by decide)

end MultiEmbedded.Usmart
