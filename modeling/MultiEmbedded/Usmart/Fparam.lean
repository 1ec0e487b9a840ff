import MultiEmbedded.Usmart.Params

/-!
# Keeping the parameters of a command

`paramsFrom` lists the parameters of a text up to its end or the first one that
is not accepted. `usmart_get_fparam` keeps them one behind the other, as long as
there are at most MAX_PARM of them and they fit in PARM_LEN bytes.
-/

namespace MultiEmbedded.Usmart

inductive Param
  | num (v : BitVec 32)
  | str (s : List Byte)
  deriving DecidableEq

def Param.bytes : Param → List Byte
  | num v => bytesOf v
  | str s => s ++ [0]

def Param.isStr : Param → Bool
  | num _ => false
  | str _ => true

/-- What a reading amounts to. -/
inductive Item
  | bad
  | blank
  | param (p : Param)

def Reading.item (r : Reading) : Item :=
  if r.type = 0 then
    if r.out = [] then .blank
    else if (str2num r.out).1 ≠ 0 then .bad
    else .param (.num (str2num r.out).2)
  else if r.type = 1 then .param (.str r.out)
  else .bad

/-- The parameters, and whether the end was reached; `none` if a string is not closed. -/
def paramsFrom : ℕ → List Byte → Option (List Param × Bool)
  | 0, _ => none
  | fuel + 1, s =>
    match readParm s with
    | none => none
    | some r =>
      match r.item with
      | .bad => some ([], false)
      | .blank => if atEnd (s.drop r.len) then some ([], true) else paramsFrom fuel (s.drop r.len)
      | .param p =>
        if atEnd (s.drop r.len) then some ([p], true)
        else (paramsFrom fuel (s.drop r.len)).map fun x => (p :: x.1, x.2)

def params (s : List Byte) : Option (List Param × Bool) := paramsFrom (s.length + 1) s

/-- Parameters kept from index `n` and position `pos` on stay in the tables. -/
def Fits (n pos : ℕ) (ps : List Param) : Prop :=
  n + ps.length ≤ MAX_PARM ∧ pos + (ps.map fun p => p.bytes.length).sum ≤ PARM_LEN

/-! ### Positions -/

def total (dev : Dev) : ℕ → ℕ
  | 0 => 0
  | n + 1 => total dev n + (dev.plentbl n).toNat

theorem getParmpos_eq (dev : Dev) {n : ℕ} (hn : n ≤ MAX_PARM) :
    getParmpos dev n = .ok (BitVec.ofNat 8 (total dev n)) := by
  induction n with
  | zero => rfl
  | succ n ih =>
    have hlt : n < MAX_PARM := hn
    rw [getParmpos, ih (Nat.le_of_lt hlt), ok_bind_eq, if_pos hlt, total, BitVec.ofNat_add,
      BitVec.ofNat_toNat, BitVec.setWidth_eq]

theorem total_congr {dev dev' : Dev} {n : ℕ} (h : ∀ k, k < n → dev'.plentbl k = dev.plentbl k) :
    total dev' n = total dev n := by
  induction n with
  | zero => rfl
  | succ n ih =>
    rw [total, total, ih fun k hk => h k (Nat.lt_succ_of_lt hk), h n (Nat.lt_succ_self n)]

/-! ### One parameter -/

def putBytes (f : ℕ → Byte) (pos : ℕ) (bytes : List Byte) (x : ℕ) : Byte :=
  if pos ≤ x then (bytes[x - pos]?).getD (f x) else f x

theorem putBytes_cons (f : ℕ → Byte) (pos : ℕ) (c : Byte) (s : List Byte) :
    putBytes (Function.update f pos c) (pos + 1) s = putBytes f pos (c :: s) := by
  funext x
  unfold putBytes
  by_cases h1 : pos + 1 ≤ x
  · have hsub : x - pos = x - (pos + 1) + 1 := by omega
    rw [if_pos h1, if_pos (by omega), hsub, List.getElem?_cons_succ, Function.update_of_ne (by omega)]
  · rw [if_neg h1]
    by_cases h2 : x = pos
    · subst h2
      simp
    · rw [if_neg (by omega), Function.update_of_ne h2]

theorem storeParm_eq {pos : ℕ} {bytes : List Byte} (dev : Dev) (h : pos + bytes.length ≤ PARM_LEN) :
    storeParm pos bytes dev = .ok { dev with parm := putBytes dev.parm pos bytes } := by
  induction bytes generalizing pos dev with
  | nil =>
    have hput : putBytes dev.parm pos [] = dev.parm := by
      funext x
      simp [putBytes]
    rw [hput]
    rfl
  | cons c s ih =>
    rw [List.length_cons] at h
    rw [storeParm, if_pos (by omega), ih _ (by omega), putBytes_cons]

theorem storeParm_fault {pos : ℕ} {bytes : List Byte} (dev : Dev) (hne : bytes ≠ [])
    (h : PARM_LEN < pos + bytes.length) : storeParm pos bytes dev = .error .index := by
  induction bytes generalizing pos dev with
  | nil => exact absurd rfl hne
  | cons c s ih =>
    rw [storeParm]
    split
    · rename_i hpos
      rw [List.length_cons] at h
      have hs : s ≠ [] := by
        rintro rfl
        simp only [List.length_nil] at h
        omega
      exact ih _ hs (by omega)
    · rfl

/-- `dev` with parameter `n` kept. -/
def stored (n : ℕ) (p : Param) (dev : Dev) : Dev :=
  { dev with
    parm := putBytes dev.parm (total dev n) p.bytes
    parmtype := if p.isStr then dev.parmtype ||| (1#16 <<< n) else dev.parmtype &&& ~~~(1#16 <<< n)
    plentbl := Function.update dev.plentbl n (BitVec.ofNat 8 p.bytes.length) }

theorem bytes_ne_nil (p : Param) : p.bytes ≠ [] := by
  cases p with
  | num v => exact List.cons_ne_nil _ _
  | str s => exact List.append_ne_nil_of_right_ne_nil s (List.cons_ne_nil _ _)

/- The stores of one parameter succeed exactly if there is room for it. -/
theorem storeArg_eq {n : ℕ} {p : Param} {dev : Dev} (hn : n ≤ MAX_PARM) (ht : total dev n ≤ PARM_LEN) :
    storeArg n (if p.isStr then 1 else 0) p.bytes (BitVec.ofNat 8 p.bytes.length) dev =
      if n < MAX_PARM ∧ total dev n + p.bytes.length ≤ PARM_LEN then .ok (stored n p dev)
      else .error .index := by
  have hpos : (BitVec.ofNat 8 (total dev n)).toNat = total dev n := by
    rw [BitVec.toNat_ofNat]
    exact Nat.mod_eq_of_lt (Nat.lt_of_le_of_lt ht (by decide))
  unfold storeArg
  rw [getParmpos_eq dev hn, ok_bind_eq, hpos]
  by_cases hroom : total dev n + p.bytes.length ≤ PARM_LEN
  · rw [storeParm_eq dev hroom, ok_bind_eq]
    unfold setPlen
    by_cases hlt : n < MAX_PARM
    · have hfit : n < MAX_PARM ∧ total dev n + p.bytes.length ≤ PARM_LEN := ⟨hlt, hroom⟩
      rw [if_pos hfit, if_pos hlt]
      cases p with
      | num v => rfl
      | str s => rfl
    · have hbig : ¬ (n < MAX_PARM ∧ total dev n + p.bytes.length ≤ PARM_LEN) := fun h => hlt h.1
      rw [if_neg hbig, if_neg hlt]
  · have hbig : ¬ (n < MAX_PARM ∧ total dev n + p.bytes.length ≤ PARM_LEN) := fun h => hroom h.2
    rw [storeParm_fault dev (bytes_ne_nil p) (Nat.lt_of_not_le hroom), if_neg hbig]
    rfl

/- Behind a kept parameter there is still room for the check that follows. -/
theorem fparamArg_kept {n : ℕ} {p : Param} {dev : Dev} (hn : n ≤ MAX_PARM) (ht : total dev n ≤ PARM_LEN) :
    (storeArg n (if p.isStr then 1 else 0) p.bytes (BitVec.ofNat 8 p.bytes.length) dev >>= fun dev =>
      if n + 1 > MAX_PARM then return (.inl USMART_PARMOVER, dev) else return (.inr (n + 1), dev)) =
      if n < MAX_PARM ∧ total dev n + p.bytes.length ≤ PARM_LEN then
        (.ok (.inr (n + 1), stored n p dev) : Run ((Byte ⊕ ℕ) × Dev))
      else .error .index := by
  rw [storeArg_eq hn ht]
  split
  · rename_i hfit
    have hle : ¬ n + 1 > MAX_PARM := Nat.not_lt_of_le hfit.1
    rw [ok_bind_eq, if_neg hle]
    rfl
  · rfl

theorem fparamArg_eq {n : ℕ} {r : Reading} {i : Byte} {dev : Dev} (hn : n ≤ MAX_PARM)
    (ht : total dev n ≤ PARM_LEN) :
    fparamArg n ⟨i, r.type, r.out⟩ dev =
      match r.item with
      | .bad => .ok (.inl USMART_PARMERR, dev)
      | .blank => .ok (.inr n, dev)
      | .param p =>
        if n < MAX_PARM ∧ total dev n + p.bytes.length ≤ PARM_LEN then
          .ok (.inr (n + 1), stored n p dev)
        else .error .index := by
  unfold fparamArg Reading.item
  by_cases h0 : r.type = 0
  · rw [if_pos h0, if_pos h0]
    by_cases hout : r.out = []
    · simp only [hout, ne_eq, not_true, if_false, if_true]
    · simp only [hout, ne_eq, not_false_iff, if_true, if_false]
      by_cases hcode : (str2num r.out).1 = 0
      · simp only [hcode, not_true, if_false]
        exact fparamArg_kept (p := .num (str2num r.out).2) hn ht
      · simp only [hcode, not_false_iff, if_true]
  · rw [if_neg h0, if_neg h0]
    by_cases h1 : r.type = 1
    · rw [if_pos h1, if_pos h1]
      have hlen : strlen r.out + 1 = BitVec.ofNat 8 (Param.str r.out).bytes.length := by
        unfold strlen Param.bytes
        rw [List.length_append, BitVec.ofNat_add]
        rfl
      rw [hlen]
      exact fparamArg_kept (p := .str r.out) hn ht
    · rw [if_neg h1, if_neg h1]

/-! ### All of them -/

theorem stored_total (n : ℕ) (p : Param) {dev : Dev} (hlen : p.bytes.length < 256) :
    total (stored n p dev) (n + 1) = total dev n + p.bytes.length := by
  have hpast : total (stored n p dev) n = total dev n :=
    total_congr fun k hk => Function.update_of_ne (Nat.ne_of_lt hk) _ _
  have hnew : (stored n p dev).plentbl n = BitVec.ofNat 8 p.bytes.length := Function.update_self ..
  rw [total, hpast, hnew, BitVec.toNat_ofNat, Nat.mod_eq_of_lt hlen]

def storedAll : ℕ → List Param → Dev → Dev
  | _, [], dev => dev
  | n, p :: ps, dev => storedAll (n + 1) ps (stored n p dev)

/- Where the loop ends: the code, the number of parameters, and the parameters kept. -/
def Keeps (n : ℕ) (dev : Dev) (x : Run ((Byte × ℕ) × Dev)) : Option (List Param × Bool) → Prop
  | none => ∃ e, x = .error e
  | some (ps, done) =>
    (Fits n (total dev n) ps → x = .ok ((if done then USMART_OK else USMART_PARMERR, n + ps.length),
      storedAll n ps dev)) ∧
    (¬ Fits n (total dev n) ps → ∃ e, x = .error e)

/- The rest is shorter unless the end is reached or the parameter is not accepted. -/
theorem rest_shorter {s : List Byte} {r : Reading} (h : readParm s = some r) (htype : r.type ≠ 0xFF)
    (hend : ¬ atEnd (s.drop r.len)) : (s.drop r.len).length < s.length := by
  have hlen := (readNumber_within h).1
  rw [List.length_drop]
  by_cases h0 : r.len = 0
  · rw [h0, List.drop_zero] at hend
    have hpos := readParm_pos h (fun hs => hend (Or.inr hs)) (fun hp => hend (Or.inl hp)) htype
    omega
  · have hne : s ≠ [] := by
      rintro rfl
      exact h0 (Nat.le_zero.mp hlen)
    have hpos := List.length_pos_of_ne_nil hne
    omega

theorem item_type {r : Reading} (h : r.item ≠ .bad) : r.type ≠ 0xFF := by
  intro htype
  apply h
  unfold Reading.item
  rw [htype, if_neg (by decide), if_neg (by decide)]

theorem fits_cons {n pos : ℕ} {p : Param} {ps : List Param} :
    Fits n pos (p :: ps) ↔ (n < MAX_PARM ∧ pos + p.bytes.length ≤ PARM_LEN) ∧
      Fits (n + 1) (pos + p.bytes.length) ps := by
  unfold Fits
  simp only [List.length_cons, List.map_cons, List.sum_cons]
  omega

theorem keeps_nil {n : ℕ} {dev : Dev} (hn : n ≤ MAX_PARM) (ht : total dev n ≤ PARM_LEN) (done : Bool) :
    Keeps n dev (.ok ((if done then USMART_OK else USMART_PARMERR, n), dev)) (some ([], done)) :=
  ⟨fun _ => rfl, fun h => absurd ⟨hn, ht⟩ h⟩

theorem keeps_cons {n : ℕ} {dev : Dev} {p : Param} {x : Run ((Byte × ℕ) × Dev)}
    {r : Option (List Param × Bool)} (hroom : n < MAX_PARM ∧ total dev n + p.bytes.length ≤ PARM_LEN)
    (h : Keeps (n + 1) (stored n p dev) x r) : Keeps n dev x (r.map fun x => (p :: x.1, x.2)) := by
  have hlen : p.bytes.length < 256 := by
    have hmax : PARM_LEN < 256 := by decide
    omega
  cases r with
  | none => exact h
  | some r =>
    obtain ⟨ps, done⟩ := r
    obtain ⟨hfit, hbig⟩ := h
    rw [stored_total n p hlen] at hfit hbig
    constructor
    · intro hps
      rw [hfit (fits_cons.mp hps).2]
      simp only [List.length_cons, storedAll]
      rw [Nat.add_assoc, Nat.add_comm 1]
    · exact fun hps => hbig fun hrest => hps (fits_cons.mpr ⟨hroom, hrest⟩)

theorem keeps_full {n : ℕ} {dev : Dev} {p : Param} {e : Fault}
    (hroom : ¬ (n < MAX_PARM ∧ total dev n + p.bytes.length ≤ PARM_LEN)) (r : Option (List Param × Bool)) :
    Keeps n dev (.error e) (r.map fun x => (p :: x.1, x.2)) := by
  cases r with
  | none => exact ⟨e, rfl⟩
  | some r => exact ⟨fun hps => absurd (fits_cons.mp hps).1 hroom, fun _ => ⟨e, rfl⟩⟩

theorem fparamLoop_keeps {fuel n : ℕ} {s : List Byte} (dev : Dev) (hfuel : s.length < fuel)
    (hs : s.length ≤ PARM_LEN) (hn : n ≤ MAX_PARM) (ht : total dev n ≤ PARM_LEN) :
    Keeps n dev (fparamLoop fuel s n dev) (paramsFrom fuel s) := by
  induction fuel generalizing n s dev with
  | zero => exact absurd hfuel (Nat.not_lt_zero _)
  | succ fuel ih =>
    rw [fparamLoop, paramsFrom]
    cases hr : readParm s with
    | none =>
      have hfault : ¬ ∃ a, getAparm (PARM_LEN + 1) s = .ok a := by
        rw [getAparm_ok_iff, hr]
        exact fun h => nomatch h.choose_spec.1
      cases ha : getAparm (PARM_LEN + 1) s with
      | error e => exact ⟨e, rfl⟩
      | ok a => exact absurd ⟨a, ha⟩ hfault
    | some r =>
      obtain ⟨hlen, hout⟩ := readNumber_within hr
      have hoff : (BitVec.ofNat 8 r.len).toNat = r.len := by
        have hmax : PARM_LEN < 2 ^ 8 := by decide
        rw [BitVec.toNat_ofNat]
        exact Nat.mod_eq_of_lt (by omega)
      have hadv : advance r.len s = .ok (s.drop r.len) := if_pos hlen
      have hrest (htype : r.type ≠ 0xFF) (hend : ¬ atEnd (s.drop r.len)) :
          (s.drop r.len).length < fuel ∧ (s.drop r.len).length ≤ PARM_LEN := by
        have hlt := rest_shorter hr htype hend
        omega
      rw [getAparm_eq hr (by omega), ok_bind_eq, hoff, hadv, ok_bind_eq, fparamArg_eq hn ht]
      dsimp only
      cases hitem : r.item with
      | bad => exact keeps_nil hn ht false
      | blank =>
        have htype : r.type ≠ 0xFF := item_type (by rw [hitem]; exact fun h => nomatch h)
        simp only [ok_bind_eq]
        split
        · exact keeps_nil hn ht true
        · rename_i hend
          obtain ⟨h1, h2⟩ := hrest htype hend
          exact ih dev h1 h2 hn ht
      | param p =>
        have htype : r.type ≠ 0xFF := item_type (by rw [hitem]; exact fun h => nomatch h)
        dsimp only
        by_cases hroom : n < MAX_PARM ∧ total dev n + p.bytes.length ≤ PARM_LEN
        · have hnext : total (stored n p dev) (n + 1) ≤ PARM_LEN := by
            have hmax : PARM_LEN < 256 := by decide
            rw [stored_total n p (by omega)]
            exact hroom.2
          rw [if_pos hroom]
          simp only [ok_bind_eq]
          split
          · exact keeps_cons (r := some ([], true)) hroom (keeps_nil hroom.1 hnext true)
          · rename_i hend
            obtain ⟨h1, h2⟩ := hrest htype hend
            exact keeps_cons hroom (ih _ h1 h2 hroom.1 hnext)
        · rw [if_neg hroom]
          split
          · exact keeps_full hroom (some ([], true))
          · exact keeps_full hroom _

end MultiEmbedded.Usmart
