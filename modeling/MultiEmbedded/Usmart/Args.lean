import MultiEmbedded.Usmart.Bounds
import MultiEmbedded.Usmart.Exec
import MultiEmbedded.Usmart.Prototype

/-!
# The arguments of a command

A command that is accepted leaves its parameters in the tables, whatever they
held before. The called function gets the values of its texts exactly if each
of them has a value, and the function is not one that is taken for one without
parameters.
-/

namespace MultiEmbedded.Usmart

/-! ### An accepted command -/

theorem lookup_inl {rfname : List Byte} {rpnum sta : Byte} {i : ℕ} {table : List NameTab}
    (h : lookup rfname rpnum i table = .ok (.inl sta)) : sta ≠ USMART_OK := by
  induction table generalizing i with
  | nil =>
    cases h
    decide
  | cons e es ih =>
    rw [lookup] at h
    obtain ⟨loc, -, h⟩ := ok_bind h
    split at h
    · rename_i hres
      cases h
      exact hres
    · split at h
      · split at h
        · cases h
          decide
        · cases h
      · exact ih h

theorem lookup_inr {rfname : List Byte} {rpnum : Byte} {i j : ℕ} {table : List NameTab}
    (h : lookup rfname rpnum i table = .ok (.inr j)) :
    ∃ k e f, j = i + k ∧ table[k]? = some e ∧ getFname MAX_FNAME_LEN e.name 0 = .ok f := by
  induction table generalizing i with
  | nil => cases h
  | cons e es ih =>
    rw [lookup] at h
    obtain ⟨loc, hloc, h⟩ := ok_bind h
    split at h
    · cases h
    · split at h
      · split at h
        · cases h
        · cases h
          exact ⟨0, e, loc, rfl, rfl, hloc⟩
      · obtain ⟨k, e', f, rfl, hk, hf⟩ := ih h
        exact ⟨k + 1, e', f, by omega, hk, hf⟩

/- The state in which the parameters of a call of entry `i` are read. -/
def clearedAt (i : ℕ) (dev : Dev) : Dev := cleared { dev with id := BitVec.ofNat 8 i }

/- The state behind an accepted command. -/
def called (i : ℕ) (ps : List Param) (dev : Dev) : Dev :=
  { storedAll 0 ps (clearedAt i dev) with pnum := BitVec.ofNat 8 ps.length }

/- The parameters that are kept, and the code that says whether all were accepted. -/
theorem getFparam_kept {str : List Byte} {i : ℕ} {dev : Dev} {x : (Byte × ℕ) × Dev} (hbracket : LPAR ∈ str)
    (hs : str.length ≤ PARM_LEN) (h : getFparam str { dev with id := BitVec.ofNat 8 i } = .ok x) :
    ∃ ps done, params (argText str) = some (ps, done) ∧ Fits 0 0 ps ∧
      x = ((if done then USMART_OK else USMART_PARMERR, ps.length), storedAll 0 ps (clearedAt i dev)) := by
  have hlen : (argText str).length ≤ PARM_LEN := Nat.le_trans (argText_length str) hs
  have hkeep := fparamLoop_keeps (clearedAt i dev) (Nat.lt_succ_self (argText str).length) hlen
    (Nat.zero_le MAX_PARM) (Nat.zero_le PARM_LEN)
  rw [clearedAt, ← getFparam_eq _ hbracket, h] at hkeep
  unfold params
  cases hp : paramsFrom ((argText str).length + 1) (argText str) with
  | none =>
    rw [hp] at hkeep
    exact nomatch hkeep.choose_spec
  | some y =>
    obtain ⟨ps, done⟩ := y
    rw [hp] at hkeep
    obtain ⟨hfit, hbig⟩ := hkeep
    have hfits : Fits 0 0 ps := by
      by_contra hno
      exact nomatch (hbig hno).choose_spec
    have hend := hfit hfits
    rw [Nat.zero_add] at hend
    injection hend with hend
    exact ⟨ps, done, rfl, hfits, hend⟩

theorem recordParms_called {str : List Byte} {i : ℕ} {dev dev' : Dev} (hbracket : LPAR ∈ str)
    (hs : str.length ≤ PARM_LEN) (h : recordParms str i dev = .ok (USMART_OK, dev')) :
    ∃ ps, params (argText str) = some (ps, true) ∧ Fits 0 0 ps ∧ dev' = called i ps dev := by
  unfold recordParms at h
  cases hget : getFparam str { dev with id := BitVec.ofNat 8 i } with
  | error e =>
    rw [hget] at h
    cases h
  | ok x =>
    obtain ⟨ps, done, hps, hfits, rfl⟩ := getFparam_kept hbracket hs hget
    rw [hget, ok_bind_eq] at h
    dsimp only at h
    cases done with
    | false =>
      rw [if_pos (by decide)] at h
      injection h with h
      have hcode : USMART_PARMERR = USMART_OK := congrArg Prod.fst h
      exact absurd hcode (by decide)
    | true =>
      rw [if_neg fun hne => hne rfl] at h
      cases h
      exact ⟨ps, hps, hfits, rfl⟩

theorem usmartCmdRec_called {str : List Byte} {dev dev' : Dev} (hs : str.length ≤ PARM_LEN)
    (h : usmartCmdRec str dev = .ok (USMART_OK, dev')) :
    ∃ i e f ps, dev.funs[i]? = some e ∧ getFname MAX_FNAME_LEN e.name 0 = .ok f ∧
      params (argText str) = some (ps, true) ∧ Fits 0 0 ps ∧ dev' = called i ps dev := by
  unfold usmartCmdRec at h
  obtain ⟨received, hreceived, h⟩ := ok_bind h
  split at h
  · rename_i hres
    injection h with h
    exact absurd (congrArg Prod.fst h) hres
  · rename_i hres
    have hbracket := getFname_bracket hreceived (not_not.mp hres)
    obtain ⟨found, hlookup, h⟩ := ok_bind h
    cases found with
    | inl sta =>
      cases h
      exact absurd rfl (lookup_inl hlookup)
    | inr j =>
      obtain ⟨k, e, f, rfl, hk, hf⟩ := lookup_inr hlookup
      rw [Nat.zero_add] at h
      obtain ⟨ps, hps, hfit, hdev⟩ := recordParms_called hbracket hs h
      exact ⟨k, e, f, ps, hk, hf, hps, hfit, hdev⟩

/-! ### The state behind it -/

theorem Kept.pnum {dev : Dev} {j : ℕ} {p : Param} (h : Kept dev j p) (n : Byte) :
    Kept { dev with pnum := n } j p := by
  have hpos : total { dev with pnum := n } j = total dev j := total_congr fun _ _ => rfl
  refine ⟨h.len, h.type, ?_, ?_⟩
  · rw [hpos]
    exact h.bytes
  · rw [hpos]
    exact h.room

theorem called_frame {i : ℕ} {ps : List Param} (dev : Dev) (hfit : Fits 0 0 ps) :
    (called i ps dev).funs = dev.funs ∧ (called i ps dev).id = BitVec.ofNat 8 i ∧
      (called i ps dev).pnum.toNat = ps.length := by
  obtain ⟨-, -, -, hfuns, hid⟩ := storedAll_frame (clearedAt i dev) hfit
  refine ⟨hfuns, hid, ?_⟩
  have hmax : MAX_PARM < 256 := by decide
  have hlen := hfit.1
  show (BitVec.ofNat 8 ps.length).toNat = ps.length
  rw [BitVec.toNat_ofNat]
  omega

theorem called_kept {i j : ℕ} {ps : List Param} {p : Param} (dev : Dev) (hfit : Fits 0 0 ps)
    (hp : ps[j]? = some p) : Kept (called i ps dev) j p := by
  have hkept := storedAll_kept (clearedAt i dev) hfit hp
  rw [Nat.zero_add] at hkept
  exact hkept.pnum _

/-- Room for the words of parameters that were counted and not kept: each is a string left in
`parmtype`, or four bytes are left behind what was kept. -/
def SurplusFits (dev : Dev) (ps : List Param) (n : ℕ) : Prop :=
  n ≤ MAX_PARM ∧ ∀ j, ps.length ≤ j → j < n →
    dev.parmtype.getLsbD j = true ∨ (ps.map fun p => p.bytes.length).sum + 4 ≤ PARM_LEN

theorem called_total {i j : ℕ} {ps : List Param} (dev : Dev) (hfit : Fits 0 0 ps) (hj : ps.length ≤ j)
    (hmax : j ≤ MAX_PARM) : total (called i ps dev) j = (ps.map fun p => p.bytes.length).sum := by
  obtain ⟨hbehind, hsum⟩ := storedAll_behind (clearedAt i dev) hfit
  rw [Nat.zero_add] at hsum
  induction j, hj using Nat.le_induction with
  | base =>
    have hpnum : total (called i ps dev) ps.length = total (storedAll 0 ps (clearedAt i dev)) ps.length :=
      total_congr fun _ _ => rfl
    rw [hpnum, hsum]
    exact Nat.zero_add _
  | succ j hj ih =>
    have hzero : (called i ps dev).plentbl j = 0 := by
      show (storedAll 0 ps (clearedAt i dev)).plentbl j = 0
      rw [(hbehind j (by omega)).1]
      exact if_pos hmax
    rw [total, ih (Nat.le_of_succ_le hmax), hzero]
    rfl

theorem called_total_lt {i j : ℕ} {ps : List Param} (dev : Dev) (hfit : Fits 0 0 ps) (hj : j ≤ MAX_PARM) :
    total (called i ps dev) j < 256 := by
  have hmax : PARM_LEN < 256 := by decide
  by_cases hlt : j < ps.length
  · have hroom := (called_kept (i := i) dev hfit (List.getElem?_eq_getElem hlt)).room
    omega
  · have hsum := hfit.2
    rw [called_total dev hfit (Nat.le_of_not_lt hlt) hj]
    omega

/- The words that are kept are always there. -/
theorem fillTemp_called {i n : ℕ} {ps : List Param} (dev : Dev) (hfit : Fits 0 0 ps) :
    (∃ ws, fillTemp (called i ps dev) n = .ok ws) ↔ SurplusFits dev ps n := by
  rw [fillTemp_ok_iff fun j hj => called_total_lt dev hfit hj]
  refine and_congr_right fun hn => forall_congr' fun j => ?_
  have h16 : MAX_PARM < 16 := by decide
  by_cases hlt : j < ps.length
  · have hkept := called_kept (i := i) dev hfit (List.getElem?_eq_getElem hlt)
    have hlen := hfit.1
    have hj : j < 16 := by omega
    obtain ⟨w, hw, -⟩ := tempWord_kept hj hkept
    exact ⟨fun _ hle => absurd hlt (Nat.not_lt_of_le hle), fun _ _ => (tempWord_ok_iff hj).mp ⟨w, hw⟩⟩
  · have hle := Nat.le_of_not_lt hlt
    obtain ⟨hbehind, -⟩ := storedAll_behind (clearedAt i dev) hfit
    have hbit : (called i ps dev).parmtype.getLsbD j = dev.parmtype.getLsbD j := (hbehind j (by omega)).2
    rw [hbit]
    refine ⟨fun h _ hj => ?_, fun h hj => ?_⟩
    · have hword := h hj
      rw [called_total dev hfit hle (by omega)] at hword
      exact hword
    · rw [called_total dev hfit hle (by omega)]
      exact h hle hj

/- The call that follows an accepted command. -/
theorem usmartExe_called {i : ℕ} {ps : List Param} {dev : Dev} {e : NameTab} {f : Fname} (hi : i < 256)
    (hfit : Fits 0 0 ps) (he : dev.funs[i]? = some e) (hf : getFname MAX_FNAME_LEN e.name 0 = .ok f)
    {inv : Invocation} : usmartExe (called i ps dev) = .ok (some inv) ↔
      ∃ ws, fillTemp (called i ps dev) f.pnum.toNat = .ok ws ∧
        inv = ⟨e.func, (List.range ps.length).map fun i => ws[i]?⟩ := by
  obtain ⟨hfuns, hid, hpnum⟩ := called_frame (i := i) dev hfit
  have hidx : (called i ps dev).id.toNat = i := by
    rw [hid, BitVec.toNat_ofNat]
    exact Nat.mod_eq_of_lt hi
  have hmax : ps.length ≤ MAX_PARM := by
    have hlen := hfit.1
    omega
  unfold usmartExe
  rw [hidx, hfuns, he]
  dsimp only
  rw [hf, ok_bind_eq, hpnum]
  simp only [if_pos hmax]
  constructor
  · intro h
    obtain ⟨ws, hws, hcall⟩ := ok_bind h
    exact ⟨ws, hws, (Option.some.inj (Except.ok.inj hcall)).symm⟩
  · rintro ⟨ws, hws, rfl⟩
    rw [hws]
    rfl

/-! ### What the called function gets -/

def funTable (table : List (BitVec 32 × Prototype)) : List NameTab :=
  table.map fun e => ⟨e.1, e.2.text⟩

/-- The call passes, as each parameter of the prototype, what the text of that parameter denotes. -/
def Delivered (dev : Dev) (e : BitVec 32 × Prototype) (texts : List (List Byte)) : Prop :=
  e.2.count ≤ dev.pnum.toNat ∧
  ∃ inv, usmartExe dev = .ok (some inv) ∧ inv.func = e.1 ∧
    ∀ i, i < e.2.count → ∃ p w, denoted texts i = some p ∧ inv.args[i]? = some (some w) ∧ Passes dev w p

/-- The parameter count that `usmart_get_fname` gives for the prototype. -/
def Prototype.pnum (p : Prototype) : ℕ :=
  match getFname MAX_FNAME_LEN p.text 0 with
  | .ok f => f.pnum.toNat
  | .error _ => 0

/- Up to 255 characters only a hidden `void` is counted wrong, and none too often. -/
theorem pnum_count {p : Prototype} {f : Fname} (hf : getFname MAX_FNAME_LEN p.text 0 = .ok f)
    (hshort : p.text.length < 256) : p.pnum ≤ p.count ∧ (p.count ≤ p.pnum ↔ ¬ p.HiddenVoid) := by
  have hpnum : p.pnum = f.pnum.toNat := by
    unfold Prototype.pnum
    rw [hf]
  rw [hpnum, getFname_counted hshort hf, BitVec.toNat_ofNat]
  by_cases hvoid : p.HiddenVoid
  · obtain ⟨hzero, hone⟩ := counted_hidden hvoid
    rw [hzero, hone]
    exact ⟨Nat.zero_le 1, fun h => absurd h (by decide), fun h => absurd hvoid h⟩
  · have hlt : p.count < 256 := Nat.lt_of_le_of_lt (count_le p) (decls_lt hshort)
    rw [counted_eq p hvoid, Nat.mod_eq_of_lt hlt]
    exact ⟨Nat.le_refl _, fun _ => hvoid, fun _ => Nat.le_refl _⟩

theorem denoted_length {k : ℕ} {ps : List Param} {texts : List (List Byte)}
    (hvalues : ∀ j, j < k → ps[j]? = denoted texts j) (htexts : ∀ j, j < k → (denoted texts j).isSome) :
    k ≤ ps.length := by
  by_contra hlt
  have hnone : ps[ps.length]? = none := List.getElem?_eq_none (Nat.le_refl _)
  have hsome := htexts ps.length (Nat.lt_of_not_le hlt)
  rw [← hvalues ps.length (Nat.lt_of_not_le hlt), hnone] at hsome
  exact Bool.false_ne_true hsome

/- What reaches the function are the words of the parameters that are both kept and counted. -/
theorem called_delivered {i : ℕ} {ps : List Param} {dev : Dev} {e : BitVec 32 × Prototype}
    {texts : List (List Byte)} {f : Fname} (hi : i < 256) (hfit : Fits 0 0 ps)
    (he : dev.funs[i]? = some ⟨e.1, e.2.text⟩) (hf : getFname MAX_FNAME_LEN e.2.text 0 = .ok f)
    (hps : (∀ j, j < e.2.count → (denoted texts j).isSome) → ∀ j, j < e.2.count → ps[j]? = denoted texts j) :
    Delivered (called i ps dev) e texts ↔ e.2.count ≤ f.pnum.toNat ∧
      (∀ j, j < e.2.count → (denoted texts j).isSome) ∧ SurplusFits dev ps f.pnum.toNat := by
  have htotal (j : ℕ) (hj : j ≤ MAX_PARM) : total (called i ps dev) j < 256 := called_total_lt dev hfit hj
  have hexe (inv : Invocation) := @usmartExe_called i ps dev _ f hi hfit he hf inv
  obtain ⟨-, -, hpnum⟩ := called_frame (i := i) dev hfit
  have hword (ws : List Word) (j : ℕ) {w : Word}
      (hw : ((List.range ps.length).map fun i => ws[i]?)[j]? = some (some w)) : ws[j]? = some w := by
    rw [List.getElem?_map] at hw
    obtain ⟨k, hk, hw⟩ := Option.map_eq_some_iff.mp hw
    obtain ⟨hlt, rfl⟩ := List.getElem?_eq_some_iff.mp hk
    rw [List.getElem_range] at hw
    exact hw
  constructor
  · rintro ⟨-, inv, hcall, -, hall⟩
    obtain ⟨ws, hws, rfl⟩ := (hexe _).mp hcall
    refine ⟨?_, fun j hj => ?_, (fillTemp_called dev hfit).mp ⟨ws, hws⟩⟩
    · by_contra hlt
      have hlast : f.pnum.toNat < e.2.count := Nat.lt_of_not_le hlt
      obtain ⟨p, w, -, hw, -⟩ := hall _ hlast
      have hget := (List.getElem?_eq_some_iff.mp (hword ws _ hw)).1
      exact absurd hget (Nat.not_lt_of_le (Nat.le_of_eq (fillTemp_words htotal hws).1))
    · obtain ⟨p, w, hp, -, -⟩ := hall j hj
      rw [hp]
      rfl
  · rintro ⟨hcount, htexts, hsurplus⟩
    have hvalues := hps htexts
    have hle := denoted_length hvalues htexts
    obtain ⟨ws, hws⟩ := (fillTemp_called (i := i) dev hfit).mpr hsurplus
    refine ⟨hpnum.symm ▸ hle, _, (hexe _).mpr ⟨ws, hws, rfl⟩, rfl, fun j hj => ?_⟩
    have hjlt : j < ps.length := Nat.lt_of_lt_of_le hj hle
    have hget : ps[j]? = some ps[j] := List.getElem?_eq_getElem hjlt
    have hmax : MAX_PARM < 16 := by decide
    have hlen := hfit.1
    obtain ⟨w, hw, htemp⟩ := (fillTemp_words htotal hws).2 j (Nat.lt_of_lt_of_le hj hcount)
    obtain ⟨w', htemp', hpass⟩ := tempWord_kept (by omega) (called_kept (i := i) dev hfit hget)
    rw [htemp] at htemp'
    cases htemp'
    refine ⟨ps[j], w, (hvalues j hj).symm.trans hget, ?_, hpass⟩
    have hrange : (List.range ps.length)[j]? = some j := List.getElem?_range hjlt
    show ((List.range ps.length).map fun i => ws[i]?)[j]? = _
    rw [List.getElem?_map, hrange, Option.map_some, hw]

/-- Behind an accepted command the matched function gets what the texts denote exactly if it is
counted right, each of these texts denotes something, and no word is read past the parameters.
For a prototype of at most 255 characters this means that no `void` is hidden in it, and there
is no surplus to read. -/
theorem command_delivered_iff (table : List (BitVec 32 × Prototype)) (str : Command) (dev dev' : Dev)
    (hfuns : dev.funs = funTable table) (hrun : usmartCmdRec str.text dev = .ok (USMART_OK, dev')) :
    ∃ e ps, table[dev'.id.toNat]? = some e ∧ params (argText str.text) = some (ps, true) ∧
      (Delivered dev' e (fields false (argText str.text)) ↔
        e.2.count ≤ e.2.pnum ∧ (∀ i, i < e.2.count → (denoted (fields false (argText str.text)) i).isSome) ∧
          SurplusFits dev ps e.2.pnum) ∧
      (e.2.text.length < 256 → (Delivered dev' e (fields false (argText str.text)) ↔
        ¬ e.2.HiddenVoid ∧ ∀ i, i < e.2.count → (denoted (fields false (argText str.text)) i).isSome)) := by
  obtain ⟨i, entry, f, ps, hentry, hf, hps, hfit, rfl⟩ := usmartCmdRec_called str.short hrun
  have hi : i < 256 := by
    have hlt := (List.getElem?_eq_some_iff.mp hentry).1
    have hfnum := dev.fnum
    omega
  obtain ⟨-, hid, -⟩ := called_frame (i := i) dev hfit
  have hidx : (called i ps dev).id.toNat = i := by
    rw [hid, BitVec.toNat_ofNat]
    exact Nat.mod_eq_of_lt hi
  have hmap := hentry
  rw [hfuns, funTable, List.getElem?_map] at hmap
  obtain ⟨e, he, rfl⟩ := Option.map_eq_some_iff.mp hmap
  have hpnum : e.2.pnum = f.pnum.toNat := by
    unfold Prototype.pnum
    rw [hf]
  have hargs : (argText str.text).length < 256 := by
    have hlen := Nat.le_trans (argText_length str.text) str.short
    have hmax : PARM_LEN < 256 := by decide
    omega
  have hiff := called_delivered hi hfit hentry hf fun htexts => params_denoted e.2.count hps hargs htexts
  rw [← hpnum] at hiff
  rw [hidx]
  refine ⟨e, ps, he, hps, hiff, fun hshort => ?_⟩
  obtain ⟨hfew, hcount⟩ := pnum_count hf hshort
  rw [hiff, hcount]
  refine and_congr_right fun hvoid => and_iff_left_of_imp fun htexts => ?_
  -- a count that is right is no more than was kept
  have hle := denoted_length (params_denoted e.2.count hps hargs htexts) htexts
  have hlen := hfit.1
  exact ⟨by omega, fun j hj hjn => absurd hjn (by omega)⟩

/- `void write_addr(u32 addr,u32 val)` -/
def writeAddr : Prototype where
  head := [0x76, 0x6F, 0x69, 0x64, 0x20, 0x77, 0x72, 0x69, 0x74, 0x65, 0x5F, 0x61, 0x64, 0x64, 0x72]
  pad := []
  decls :=
    [⟨[0x75, 0x33, 0x32, 0x20, 0x61, 0x64, 0x64, 0x72], by decide⟩,
      ⟨[0x75, 0x33, 0x32, 0x20, 0x76, 0x61, 0x6C], by decide⟩]
  headOk := by decide
  padOk := by decide
  noNul := by decide

def writeAddrTable : List (BitVec 32 × Prototype) := [(0x08001100, writeAddr)]

def writeAddrDev : Dev where
  funs := funTable writeAddrTable
  fnum := by decide
  pnum := 0
  id := 0
  sptype := SP_TYPE_HEX
  parmtype := 0
  plentbl _ := 0
  parm _ := 0xEE
  runtimeflag := 0

/- `write_addr(0X10,20)` -/
def twoNumbers : Command where
  text := [0x77, 0x72, 0x69, 0x74, 0x65, 0x5F, 0x61, 0x64, 0x64, 0x72, 0x28, 0x30, 0x58, 0x31, 0x30, 0x2C,
    0x32, 0x30, 0x29]
  noNul := by decide
  short := by decide

/- `write_addr("x,y")`: the comma in the string is counted, but one parameter is kept. -/
def quotedComma : Command where
  text := [0x77, 0x72, 0x69, 0x74, 0x65, 0x5F, 0x61, 0x64, 0x64, 0x72, 0x28, 0x22, 0x78, 0x2C, 0x79, 0x22,
    0x29]
  noNul := by decide
  short := by decide

/- The state behind a run, when its code, entry and parameter count are known. -/
theorem run_state {x : Run (Byte × Dev)} {sta id pnum : Byte}
    (h : x.map (fun r => (r.1, r.2.id, r.2.pnum)) = .ok (sta, id, pnum)) :
    ∃ dev', x = .ok (sta, dev') ∧ dev'.id = id ∧ dev'.pnum = pnum := by
  cases x with
  | error e => exact nomatch h
  | ok r =>
    cases h
    exact ⟨r.2, rfl, rfl, rfl⟩

theorem command_twoNumbers :
    ∃ dev', usmartCmdRec twoNumbers.text writeAddrDev = .ok (USMART_OK, dev') ∧
      Delivered dev' (0x08001100, writeAddr) (fields false (argText twoNumbers.text)) := by
  have hstate : (usmartCmdRec twoNumbers.text writeAddrDev).map (fun r => (r.1, r.2.id, r.2.pnum)) =
    .ok (USMART_OK, 0, 2) := rfl
  obtain ⟨dev', hrun, hid, -⟩ := run_state hstate
  obtain ⟨e, ps, he, -, -, hiff⟩ := command_delivered_iff writeAddrTable twoNumbers writeAddrDev dev' rfl hrun
  rw [hid] at he
  have hentry : (0x08001100, writeAddr) = e := Option.some.inj he
  subst hentry
  refine ⟨dev', hrun, (hiff (by decide)).mpr ⟨?_, ?_⟩⟩
  · rintro ⟨d, hd, -⟩
    cases hd
  · intro i hi
    have hcases : i = 0 ∨ i = 1 := Nat.le_one_iff_eq_zero_or_eq_one.mp (Nat.lt_succ_iff.mp hi)
    obtain rfl | rfl := hcases
    · rfl
    · rfl

theorem command_quotedComma :
    ∃ dev', usmartCmdRec quotedComma.text writeAddrDev = .ok (USMART_OK, dev') ∧
      writeAddrTable[dev'.id.toNat]? = some (0x08001100, writeAddr) ∧
      dev'.pnum = 1 ∧ writeAddr.count = 2 ∧
      ¬ Delivered dev' (0x08001100, writeAddr) (fields false (argText quotedComma.text)) := by
  have hstate : (usmartCmdRec quotedComma.text writeAddrDev).map (fun r => (r.1, r.2.id, r.2.pnum)) =
    .ok (USMART_OK, 0, 1) := rfl
  obtain ⟨dev', hrun, hid, hpnum⟩ := run_state hstate
  refine ⟨dev', hrun, ?_, hpnum, rfl, ?_⟩
  · rw [hid]
    rfl
  · rintro ⟨hcount, -⟩
    rw [hpnum] at hcount
    exact absurd hcount (by decide)

end MultiEmbedded.Usmart
