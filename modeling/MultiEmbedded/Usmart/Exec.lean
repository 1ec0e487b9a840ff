import MultiEmbedded.Usmart.Text

/-!
# From the kept parameters to the call

What `usmart_get_fparam` keeps stays as it is while further parameters are
kept, and `usmart_exe` finds it again by the sums of the lengths. Where it
looks for more than was kept, all sums are the same.
-/

namespace MultiEmbedded.Usmart

/-- Parameter `j` is `p`, in the tables of `dev`. -/
structure Kept (dev : Dev) (j : ℕ) (p : Param) : Prop where
  len : dev.plentbl j = BitVec.ofNat 8 p.bytes.length
  type : dev.parmtype.getLsbD j = p.isStr
  bytes : ∀ x, x < p.bytes.length → p.bytes[x]? = some (dev.parm (total dev j + x))
  room : total dev j + p.bytes.length ≤ PARM_LEN

/-! ### Keeping several -/

theorem shift_getLsbD {n j : ℕ} (hn : n < 16) : (1#16 <<< n).getLsbD j = decide (j = n) := by
  rw [BitVec.getLsbD_shiftLeft, BitVec.getLsbD_one]
  by_cases hj : j = n
  · simp [hj, hn]
  · rw [decide_eq_false hj]
    by_cases hlt : j < n
    · simp [hlt]
    · have hsub : j - n ≠ 0 := by omega
      simp [hsub]

theorem stored_type {n j : ℕ} (hn : n < 16) (p : Param) (dev : Dev) :
    (stored n p dev).parmtype.getLsbD j = if j = n then p.isStr else dev.parmtype.getLsbD j := by
  unfold stored
  dsimp only
  cases p with
  | num v =>
    simp only [Param.isStr, Bool.false_eq_true, if_false, BitVec.getLsbD_and, BitVec.getLsbD_not, shift_getLsbD hn]
    by_cases hj : j = n
    · simp [hj]
    · simp only [hj, decide_false, Bool.not_false, Bool.and_true, if_false]
      by_cases hlt : j < 16
      · simp [hlt]
      · rw [BitVec.getLsbD_of_ge _ _ (Nat.le_of_not_lt hlt), Bool.false_and]
  | str s =>
    simp only [Param.isStr, if_true, BitVec.getLsbD_or, shift_getLsbD hn]
    by_cases hj : j = n
    · simp [hj]
    · simp [hj]

/-- What is kept from index `n` on leaves the parameters before it, and all else. -/
theorem storedAll_frame {n : ℕ} {ps : List Param} (dev : Dev) (hfit : Fits n (total dev n) ps) :
    (∀ k, k < n → (storedAll n ps dev).plentbl k = dev.plentbl k) ∧
    (∀ x, x < total dev n → (storedAll n ps dev).parm x = dev.parm x) ∧
    (∀ j, j < n → (storedAll n ps dev).parmtype.getLsbD j = dev.parmtype.getLsbD j) ∧
    (storedAll n ps dev).funs = dev.funs ∧ (storedAll n ps dev).id = dev.id := by
  induction ps generalizing n dev with
  | nil => exact ⟨fun _ _ => rfl, fun _ _ => rfl, fun _ _ => rfl, rfl, rfl⟩
  | cons p ps ih =>
    obtain ⟨⟨hn, hroom⟩, hrest⟩ := fits_cons.mp hfit
    have hmax : MAX_PARM < 16 ∧ PARM_LEN < 256 := by decide
    have htotal : total (stored n p dev) (n + 1) = total dev n + p.bytes.length := stored_total n p (by omega)
    rw [← htotal] at hrest
    obtain ⟨h1, h2, h3, h4, h5⟩ := ih _ hrest
    rw [htotal] at h2
    rw [storedAll]
    refine ⟨fun k hk => ?_, fun x hx => ?_, fun j hj => ?_, h4, h5⟩
    · rw [h1 k (Nat.lt_succ_of_lt hk)]
      exact Function.update_of_ne (Nat.ne_of_lt hk) _ _
    · rw [h2 x (by omega)]
      exact if_neg (Nat.not_le_of_lt hx)
    · rw [h3 j (Nat.lt_succ_of_lt hj), stored_type (by omega), if_neg (Nat.ne_of_lt hj)]

theorem storedAll_kept {n j : ℕ} {ps : List Param} (dev : Dev) {p : Param}
    (hfit : Fits n (total dev n) ps) (hp : ps[j]? = some p) : Kept (storedAll n ps dev) (n + j) p := by
  induction ps generalizing n j dev with
  | nil => cases hp
  | cons q ps ih =>
    obtain ⟨⟨hn, hroom⟩, hrest⟩ := fits_cons.mp hfit
    have hmax : MAX_PARM < 16 ∧ PARM_LEN < 256 := by decide
    have htotal : total (stored n q dev) (n + 1) = total dev n + q.bytes.length := stored_total n q (by omega)
    rw [← htotal] at hrest
    rw [storedAll]
    cases j with
    | succ j =>
      have hnext := ih _ hrest hp
      rw [Nat.add_assoc, Nat.add_comm 1 j] at hnext
      exact hnext
    | zero =>
      cases hp
      obtain ⟨h1, h2, h3, -, -⟩ := storedAll_frame _ hrest
      rw [htotal] at h2
      have hpos : total (storedAll (n + 1) ps (stored n p dev)) n = total dev n := by
        refine total_congr fun k hk => ?_
        rw [h1 k (Nat.lt_succ_of_lt hk)]
        exact Function.update_of_ne (Nat.ne_of_lt hk) _ _
      show Kept _ n p
      refine ⟨?_, ?_, fun x hx => ?_, ?_⟩
      · rw [h1 n (Nat.lt_succ_self n)]
        exact Function.update_self ..
      · rw [h3 n (Nat.lt_succ_self n), stored_type (by omega), if_pos rfl]
      · have hput : (stored n p dev).parm (total dev n + x) = (p.bytes[x]?).getD (dev.parm (total dev n + x)) := by
          show putBytes _ _ _ _ = _
          rw [putBytes, if_pos (Nat.le_add_right _ _), Nat.add_sub_cancel_left]
        rw [hpos, h2 _ (by omega), hput, List.getElem?_eq_getElem hx]
        rfl
      · rw [hpos]
        exact hroom

/- Behind the parameters that are kept the tables stay. -/
theorem storedAll_behind {n : ℕ} {ps : List Param} (dev : Dev) (hfit : Fits n (total dev n) ps) :
    (∀ k, n + ps.length ≤ k → (storedAll n ps dev).plentbl k = dev.plentbl k ∧
      (storedAll n ps dev).parmtype.getLsbD k = dev.parmtype.getLsbD k) ∧
    total (storedAll n ps dev) (n + ps.length) = total dev n + (ps.map fun p => p.bytes.length).sum := by
  induction ps generalizing n dev with
  | nil => exact ⟨fun _ _ => ⟨rfl, rfl⟩, rfl⟩
  | cons p ps ih =>
    obtain ⟨⟨hn, hroom⟩, hrest⟩ := fits_cons.mp hfit
    have hmax : MAX_PARM < 16 ∧ PARM_LEN < 256 := by decide
    have htotal : total (stored n p dev) (n + 1) = total dev n + p.bytes.length := stored_total n p (by omega)
    have hlen : n + (p :: ps).length = n + 1 + ps.length := by
      rw [List.length_cons]
      omega
    rw [← htotal] at hrest
    obtain ⟨hsame, hsum⟩ := ih _ hrest
    rw [storedAll, hlen, hsum, htotal, List.map_cons, List.sum_cons, ← Nat.add_assoc]
    refine ⟨fun k hk => ?_, rfl⟩
    have hkn : k ≠ n := by omega
    obtain ⟨h1, h2⟩ := hsame k hk
    refine ⟨h1.trans (Function.update_of_ne hkn _ _), h2.trans ?_⟩
    rw [stored_type (by omega), if_neg hkn]

/-! ### Finding them again -/

/-- `w` passes `p`: the number, or a pointer to the string and its NUL in `parm`. -/
def Passes (dev : Dev) (w : Word) : Param → Prop
  | .num v => w = .num v
  | .str s => ∃ pos, w = .parmAddr pos ∧ pos + s.length < PARM_LEN ∧
      ∀ x, x < (s ++ [0]).length → (s ++ [0])[x]? = some (dev.parm (pos + x))

theorem bytesOf_append (v : BitVec 32) :
    v.extractLsb' 24 8 ++ v.extractLsb' 16 8 ++ v.extractLsb' 8 8 ++ v.extractLsb' 0 8 = v := by
  apply BitVec.eq_of_getLsbD_eq
  intro i hi
  simp only [BitVec.getLsbD_append, BitVec.getLsbD_extractLsb']
  by_cases h0 : i < 8
  · simp [h0]
  · by_cases h1 : i - 8 < 8
    · have hi' : 8 + (i - 8) = i := by omega
      simp [h0, h1, hi']
    · by_cases h2 : i - 8 - 8 < 8
      · have hi' : 16 + (i - 8 - 8) = i := by omega
        simp [h0, h1, h2, hi']
      · have hi' : 24 + (i - 8 - 8 - 8) = i := by omega
        have h3 : i - 8 - 8 - 8 < 8 := by omega
        simp [h0, h1, h2, h3, hi']

theorem wordAt_kept {dev : Dev} {j : ℕ} {v : BitVec 32} (h : Kept dev j (.num v)) :
    wordAt (total dev j) dev = .ok v := by
  have hlen : (Param.num v).bytes.length = 4 := rfl
  have hroom := h.room
  rw [hlen] at hroom
  have hload (x : ℕ) (hx : x < 4) {b : Byte} (hb : (Param.num v).bytes[x]? = some b) :
      loadParm (total dev j + x) dev = .ok b := by
    have hbyte := h.bytes x hx
    rw [hb] at hbyte
    cases hbyte
    exact if_pos (by omega)
  unfold wordAt
  rw [show loadParm (total dev j) dev = _ from hload 0 (by decide) rfl, ok_bind_eq,
    hload 1 (by decide) rfl, ok_bind_eq, hload 2 (by decide) rfl, ok_bind_eq, hload 3 (by decide) rfl, ok_bind_eq,
    bytesOf_append]
  rfl

theorem type_bit {dev : Dev} {j : ℕ} (hj : j < 16) :
    dev.parmtype &&& (1#16 <<< j) ≠ 0 ↔ dev.parmtype.getLsbD j = true := by
  constructor
  · intro hne
    by_contra hbit
    apply hne
    apply BitVec.eq_of_getLsbD_eq
    intro i hi
    rw [BitVec.getLsbD_and, shift_getLsbD hj]
    by_cases hij : i = j
    · subst hij
      simp [hbit]
    · simp [hij]
  · intro hbit h0
    have hzero := congrArg (fun b : BitVec 16 => b.getLsbD j) h0
    simp [shift_getLsbD hj, hbit] at hzero

theorem tempWord_kept {dev : Dev} {j : ℕ} {p : Param} (hj : j < 16) (h : Kept dev j p) :
    ∃ w, tempWord dev j (total dev j) = .ok w ∧ Passes dev w p := by
  have htype := h.type
  unfold tempWord
  cases p with
  | num v =>
    have hbit : ¬ dev.parmtype &&& (1#16 <<< j) ≠ 0 := by
      rw [type_bit hj, htype]
      exact Bool.false_ne_true
    rw [if_neg hbit, wordAt_kept h]
    exact ⟨_, rfl, rfl⟩
  | str s =>
    have hbit : dev.parmtype &&& (1#16 <<< j) ≠ 0 := (type_bit hj).mpr htype
    have hroom : total dev j + (s ++ [0]).length ≤ PARM_LEN := h.room
    rw [List.length_append] at hroom
    rw [if_pos hbit]
    exact ⟨_, rfl, total dev j, rfl, hroom, h.bytes⟩

theorem loadParm_ok_iff {pos : ℕ} {dev : Dev} : (∃ b, loadParm pos dev = .ok b) ↔ pos < PARM_LEN := by
  unfold loadParm
  split
  · rename_i hpos
    exact ⟨fun _ => hpos, fun _ => ⟨_, rfl⟩⟩
  · rename_i hpos
    exact ⟨fun h => (nomatch h.choose_spec), fun h => absurd h hpos⟩

theorem wordAt_ok_iff {pos : ℕ} {dev : Dev} : (∃ v, wordAt pos dev = .ok v) ↔ pos + 4 ≤ PARM_LEN := by
  unfold wordAt
  constructor
  · rintro ⟨v, h⟩
    obtain ⟨b0, -, h⟩ := ok_bind h
    obtain ⟨b1, -, h⟩ := ok_bind h
    obtain ⟨b2, -, h⟩ := ok_bind h
    obtain ⟨b3, h3, -⟩ := ok_bind h
    exact loadParm_ok_iff.mp ⟨b3, h3⟩
  · intro h
    have hload (x : ℕ) (hx : x < 4) : ∃ b, loadParm (pos + x) dev = .ok b := loadParm_ok_iff.mpr (by omega)
    obtain ⟨b0, h0⟩ := hload 0 (by decide)
    obtain ⟨b1, h1⟩ := hload 1 (by decide)
    obtain ⟨b2, h2⟩ := hload 2 (by decide)
    obtain ⟨b3, h3⟩ := hload 3 (by decide)
    rw [Nat.add_zero] at h0
    rw [h0, ok_bind_eq, h1, ok_bind_eq, h2, ok_bind_eq, h3, ok_bind_eq]
    exact ⟨_, rfl⟩

/- A string is only pointed to. -/
theorem tempWord_ok_iff {dev : Dev} {j pos : ℕ} (hj : j < 16) :
    (∃ w, tempWord dev j pos = .ok w) ↔ dev.parmtype.getLsbD j = true ∨ pos + 4 ≤ PARM_LEN := by
  rw [← type_bit hj, ← @wordAt_ok_iff pos dev]
  unfold tempWord
  by_cases hbit : dev.parmtype &&& (1#16 <<< j) ≠ 0
  · rw [if_pos hbit]
    exact ⟨fun _ => Or.inl hbit, fun _ => ⟨_, rfl⟩⟩
  · rw [if_neg hbit, or_iff_right hbit]
    constructor
    · rintro ⟨w, h⟩
      obtain ⟨v, hv, -⟩ := ok_bind h
      exact ⟨v, hv⟩
    · rintro ⟨v, hv⟩
      rw [hv]
      exact ⟨_, rfl⟩

/- The elements of `temp`, one after the other. -/
theorem fillTemp_succ {dev : Dev} (htotal : ∀ j, j ≤ MAX_PARM → total dev j < 256) {n : ℕ} {ws : List Word} :
    fillTemp dev (n + 1) = .ok ws ↔ n < MAX_PARM ∧
      ∃ ws' w, fillTemp dev n = .ok ws' ∧ tempWord dev n (total dev n) = .ok w ∧ ws = ws' ++ [w] := by
  have hpos (hn : n ≤ MAX_PARM) : getParmpos dev n = .ok (BitVec.ofNat 8 (total dev n)) ∧
      (BitVec.ofNat 8 (total dev n)).toNat = total dev n := by
    refine ⟨getParmpos_eq dev hn, ?_⟩
    rw [BitVec.toNat_ofNat]
    exact Nat.mod_eq_of_lt (htotal n hn)
  rw [fillTemp]
  constructor
  · intro h
    obtain ⟨ws', hws', hrest⟩ := ok_bind h
    obtain ⟨pos, hget, hword⟩ := ok_bind hrest
    obtain ⟨w, hw, hput⟩ := ok_bind hword
    split at hput
    · rename_i hn
      obtain ⟨hget', hnat⟩ := hpos (Nat.le_of_lt hn)
      rw [hget'] at hget
      rw [← Except.ok.inj hget, hnat] at hw
      exact ⟨hn, ws', w, hws', hw, (Except.ok.inj hput).symm⟩
    · cases hput
  · rintro ⟨hn, ws', w, hws', hw, rfl⟩
    obtain ⟨hget, hnat⟩ := hpos (Nat.le_of_lt hn)
    rw [hws', ok_bind_eq, hget, ok_bind_eq, hnat, hw, ok_bind_eq, if_pos hn]
    rfl

theorem fillTemp_words {dev : Dev} (htotal : ∀ j, j ≤ MAX_PARM → total dev j < 256) {n : ℕ} {ws : List Word}
    (h : fillTemp dev n = .ok ws) : ws.length = n ∧
      ∀ j, j < n → ∃ w, ws[j]? = some w ∧ tempWord dev j (total dev j) = .ok w := by
  induction n generalizing ws with
  | zero =>
    cases h
    exact ⟨rfl, fun j hj => absurd hj (Nat.not_lt_zero j)⟩
  | succ n ih =>
    obtain ⟨-, ws', w, hws', hw, rfl⟩ := (fillTemp_succ htotal).mp h
    obtain ⟨hlen, hall⟩ := ih hws'
    refine ⟨by rw [List.length_append, hlen]; rfl, fun j hj => ?_⟩
    obtain hj' | rfl := Nat.lt_succ_iff_lt_or_eq.mp hj
    · obtain ⟨w', hw', htemp⟩ := hall j hj'
      refine ⟨w', ?_, htemp⟩
      rw [List.getElem?_append_left (hlen ▸ hj')]
      exact hw'
    · refine ⟨w, ?_, hw⟩
      rw [List.getElem?_append_right (Nat.le_of_eq hlen), hlen, Nat.sub_self]
      rfl

theorem fillTemp_ok_iff {dev : Dev} (htotal : ∀ j, j ≤ MAX_PARM → total dev j < 256) {n : ℕ} :
    (∃ ws, fillTemp dev n = .ok ws) ↔ n ≤ MAX_PARM ∧
      ∀ j, j < n → dev.parmtype.getLsbD j = true ∨ total dev j + 4 ≤ PARM_LEN := by
  have h16 : MAX_PARM < 16 := by decide
  induction n with
  | zero => exact ⟨fun _ => ⟨Nat.zero_le _, fun j hj => absurd hj (Nat.not_lt_zero j)⟩, fun _ => ⟨[], rfl⟩⟩
  | succ n ih =>
    constructor
    · rintro ⟨ws, h⟩
      obtain ⟨hn, ws', w, hws', hw, -⟩ := (fillTemp_succ htotal).mp h
      refine ⟨hn, fun j hj => ?_⟩
      obtain hj' | rfl := Nat.lt_succ_iff_lt_or_eq.mp hj
      · exact (ih.mp ⟨ws', hws'⟩).2 j hj'
      · exact (tempWord_ok_iff (by omega)).mp ⟨w, hw⟩
    · rintro ⟨hn, hall⟩
      obtain ⟨ws', hws'⟩ := ih.mpr ⟨Nat.le_of_succ_le hn, fun j hj => hall j (Nat.lt_succ_of_lt hj)⟩
      obtain ⟨w, hw⟩ := (tempWord_ok_iff (by omega)).mpr (hall n (Nat.lt_succ_self n))
      exact ⟨ws' ++ [w], (fillTemp_succ htotal).mpr ⟨hn, ws', w, hws', hw, rfl⟩⟩

end MultiEmbedded.Usmart
