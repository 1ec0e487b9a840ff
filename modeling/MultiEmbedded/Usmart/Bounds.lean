import MultiEmbedded.Usmart.Fparam

/-!
# The bounds of a command

A command is safe exactly if the names that are read have at most 29 characters,
its strings are closed, and its parameters fit in the tables. The table is read
up to the first entry that has the name of the command or is no function.
-/

namespace MultiEmbedded.Usmart

/-- A text in the receive buffer. -/
structure Command where
  text : List Byte
  noNul : ∀ c ∈ text, c ≠ 0
  short : text.length ≤ PARM_LEN

/-! ### Conditions on the texts -/

/- What follows the first opening bracket. -/
def argText (str : List Byte) : List Byte := (str.dropWhile (· ≠ LPAR)).tail

def ArgsFit (str : List Byte) : Prop := ∃ x, params (argText str) = some x ∧ Fits 0 0 x.1

def TableFits (str rfname : List Byte) (rpnum : Byte) : List NameTab → Prop
  | [] => True
  | e :: es => NameFits e.name ∧ ∀ f, getFname MAX_FNAME_LEN e.name 0 = .ok f → f.res = 0 →
      (strcmp f.fname rfname = 0 → f.pnum ≤ rpnum → ArgsFit str) ∧
      (strcmp f.fname rfname ≠ 0 → TableFits str rfname rpnum es)

def RecFits (str : List Byte) (funs : List NameTab) : Prop :=
  NameFits str ∧ ∀ f, getFname MAX_FNAME_LEN str 0 = .ok f → f.res = 0 →
    TableFits str f.fname f.pnum funs

def cmdWord (str : List Byte) : List Byte := str.takeWhile (· ≠ SPACE)

def SysArgFits (str : List Byte) : Prop :=
  ∃ r, readParm (str.drop (cmdWord str).length) = some r ∧ r.out.length < MAX_FNAME_LEN

def SysFits (str : List Byte) (funs : List NameTab) : Prop :=
  (cmdWord str).length < MAX_FNAME_LEN →
    match findCmd (cmdWord str) 0 sysCmdTab with
    | 3 => ∀ e ∈ funs, NameFits e.name
    | 4 | 5 | 6 => SysArgFits str
    | _ => True

/-! ### Recognising a command -/

theorem skipToParen_eq {str : List Byte} (h : LPAR ∈ str) : skipToParen str = .ok (some (argText str)) := by
  induction str with
  | nil => exact nomatch h
  | cons c s ih =>
    rw [skipToParen]
    by_cases hc : c = LPAR
    · rw [if_pos hc, argText, List.dropWhile_cons_of_neg (by simpa using hc)]
      rfl
    · have hs : LPAR ∈ s := (List.mem_cons.mp h).resolve_left fun heq => hc heq.symm
      rw [if_neg hc, if_neg (List.ne_nil_of_mem hs), ih hs, argText, argText,
        List.dropWhile_cons_of_pos (by simpa using hc)]

theorem argText_length (str : List Byte) : (argText str).length ≤ str.length := by
  have hdrop := (List.dropWhile_suffix (· ≠ LPAR) (l := str)).length_le
  have htail := List.length_tail (l := str.dropWhile (· ≠ LPAR))
  unfold argText
  omega

/- The state in which the parameters are read. -/
def cleared (dev : Dev) : Dev :=
  { dev with plentbl := fun i => if i < MAX_PARM then 0 else dev.plentbl i }

theorem getFparam_eq {str : List Byte} (dev : Dev) (hbracket : LPAR ∈ str) :
    getFparam str dev = fparamLoop ((argText str).length + 1) (argText str) 0 (cleared dev) := by
  rw [getFparam, skipToParen_eq hbracket]
  rfl

theorem getFparam_ok_iff {str : List Byte} (dev : Dev) (h : LPAR ∈ str) (hs : str.length ≤ PARM_LEN) :
    (∃ r, getFparam str dev = .ok r) ↔ ArgsFit str := by
  have hlen : (argText str).length ≤ PARM_LEN := Nat.le_trans (argText_length str) hs
  have hkeep := fparamLoop_keeps (cleared dev)
    (Nat.lt_succ_self (argText str).length) hlen (Nat.zero_le MAX_PARM) (Nat.zero_le PARM_LEN)
  unfold ArgsFit params
  rw [getFparam_eq dev h]
  cases hp : paramsFrom ((argText str).length + 1) (argText str) with
  | none =>
    rw [hp] at hkeep
    obtain ⟨e, he⟩ := hkeep
    rw [he]
    exact ⟨fun hok => (nomatch hok.choose_spec), fun hok => (nomatch hok.choose_spec.1)⟩
  | some x =>
    rw [hp] at hkeep
    obtain ⟨hfit, hbig⟩ := hkeep
    by_cases hx : Fits 0 0 x.1
    · exact ⟨fun _ => ⟨x, rfl, hx⟩, fun _ => ⟨_, hfit hx⟩⟩
    · obtain ⟨e, he⟩ := hbig hx
      rw [he]
      refine ⟨fun hok => (nomatch hok.choose_spec), ?_⟩
      rintro ⟨y, heq, hy⟩
      cases heq
      exact absurd hy hx

theorem recordParms_ok_iff {str : List Byte} (i : ℕ) (dev : Dev) (h : LPAR ∈ str)
    (hs : str.length ≤ PARM_LEN) : (∃ r, recordParms str i dev = .ok r) ↔ ArgsFit str := by
  rw [← getFparam_ok_iff { dev with id := BitVec.ofNat 8 i } h hs, recordParms]
  cases getFparam str { dev with id := BitVec.ofNat 8 i } with
  | error err => exact ⟨fun hok => (nomatch hok.choose_spec), fun hok => (nomatch hok.choose_spec)⟩
  | ok x =>
    refine ⟨fun _ => ⟨x, rfl⟩, fun _ => ?_⟩
    rw [ok_bind_eq]
    dsimp only
    split
    · exact ⟨_, rfl⟩
    · exact ⟨_, rfl⟩

/- The search, and what follows when an entry is found. -/
theorem lookup_ok_iff {str rfname : List Byte} {rpnum : Byte} {α : Type} (next : ℕ → Run α)
    (hnext : ∀ i, (∃ r, next i = .ok r) ↔ ArgsFit str) (status : Byte → α) (i : ℕ) (table : List NameTab) :
    (∃ r, (lookup rfname rpnum i table >>= fun found =>
      match found with
      | .inl sta => .ok (status sta)
      | .inr i => next i) = .ok r) ↔ TableFits str rfname rpnum table := by
  induction table generalizing i with
  | nil => exact ⟨fun _ => trivial, fun _ => ⟨_, rfl⟩⟩
  | cons e es ih =>
    rw [lookup, TableFits, ← getFname_ok_iff e.name 0]
    cases hf : getFname MAX_FNAME_LEN e.name 0 with
    | error err => exact ⟨fun hok => (nomatch hok.choose_spec), fun hok => (nomatch hok.1.choose_spec)⟩
    | ok f =>
      have hexists : ∃ f', (Except.ok f : Run Fname) = .ok f' := ⟨f, rfl⟩
      have hall {P : Fname → Prop} : (∀ f', (Except.ok f : Run Fname) = .ok f' → P f') ↔ P f := by
        refine ⟨fun h => h f rfl, ?_⟩
        rintro h f' heq
        cases heq
        exact h
      rw [ok_bind_eq, hall]
      simp only [hexists, true_and]
      by_cases hres : f.res = 0
      · by_cases hcmp : strcmp f.fname rfname = 0
        · by_cases hnum : f.pnum > rpnum
          · have hle : ¬ f.pnum ≤ rpnum := BitVec.not_le.mpr hnum
            simp only [hres, hcmp, hnum, hle, ne_eq, not_true, if_false, if_true, false_implies, implies_true,
              and_self, iff_true]
            exact ⟨_, rfl⟩
          · have hle : f.pnum ≤ rpnum := BitVec.not_lt.mp hnum
            simp only [hres, hcmp, hnum, hle, ne_eq, not_true, if_false, if_true, true_implies, false_implies,
              and_true]
            exact hnext i
        · simp only [hres, hcmp, ne_eq, not_true, not_false_iff, if_false, true_implies, false_implies,
            true_and]
          exact ih (i + 1)
      · simp only [hres, ne_eq, not_false_iff, if_true, false_implies, iff_true]
        exact ⟨_, rfl⟩

theorem usmartCmdRec_ok_iff {str : List Byte} (dev : Dev) (hs : str.length ≤ PARM_LEN) :
    (∃ r, usmartCmdRec str dev = .ok r) ↔ RecFits str dev.funs := by
  unfold usmartCmdRec RecFits
  rw [← getFname_ok_iff str 0]
  cases hf : getFname MAX_FNAME_LEN str 0 with
  | error err => exact ⟨fun hok => (nomatch hok.choose_spec), fun hok => (nomatch hok.1.choose_spec)⟩
  | ok f =>
    rw [ok_bind_eq]
    by_cases hres : f.res = 0
    · have hbracket := getFname_bracket hf hres
      have hnext (i : ℕ) : (∃ r, recordParms str i dev = .ok r) ↔ ArgsFit str :=
        recordParms_ok_iff i dev hbracket hs
      have hne : ¬ f.res ≠ 0 := not_not.mpr hres
      rw [if_neg hne]
      refine (lookup_ok_iff _ hnext (fun sta => (sta, dev)) 0 dev.funs).trans ?_
      constructor
      · rintro h
        refine ⟨⟨f, rfl⟩, ?_⟩
        rintro f' heq -
        cases heq
        exact h
      · exact fun h => h.2 f rfl hres
    · rw [if_pos hres]
      refine ⟨fun _ => ⟨⟨f, rfl⟩, ?_⟩, fun _ => ⟨_, rfl⟩⟩
      rintro f' heq hres'
      cases heq
      exact absurd hres' hres

/-! ### System commands -/

theorem getCmdname_spec (str : List Byte) (nlen : Byte) (cmdname : List Byte)
    (hn : nlen = BitVec.ofNat 8 cmdname.length) (hlt : cmdname.length < MAX_FNAME_LEN) :
    (cmdname ++ cmdWord str).length < MAX_FNAME_LEN ∧
      getCmdname (BitVec.ofNat 8 MAX_FNAME_LEN) MAX_FNAME_LEN str nlen cmdname =
        .ok (0, cmdname ++ cmdWord str, BitVec.ofNat 8 (cmdname ++ cmdWord str).length) ∨
    ¬ (cmdname ++ cmdWord str).length < MAX_FNAME_LEN ∧
      ∃ r, getCmdname (BitVec.ofNat 8 MAX_FNAME_LEN) MAX_FNAME_LEN str nlen cmdname = .ok (1, r) := by
  induction str generalizing nlen cmdname with
  | nil =>
    left
    unfold getCmdname terminate cmdWord
    rw [if_pos hlt, hn, List.takeWhile_nil, List.append_nil]
    exact ⟨hlt, rfl⟩
  | cons c s ih =>
    unfold getCmdname
    by_cases hc : c = SPACE
    · left
      have hword : cmdWord (c :: s) = [] := List.takeWhile_cons_of_neg (by simpa using hc)
      unfold terminate
      rw [if_pos hc, if_pos hlt, hn, hword, List.append_nil]
      exact ⟨hlt, rfl⟩
    · have hword : cmdWord (c :: s) = c :: cmdWord s := List.takeWhile_cons_of_pos (by simpa using hc)
      have hsplit : cmdname ++ cmdWord (c :: s) = (cmdname ++ [c]) ++ cmdWord s := by
        rw [hword, List.append_assoc]
        rfl
      have hlen : nlen + 1 = BitVec.ofNat 8 (cmdname ++ [c]).length := by
        rw [hn, List.length_append, BitVec.ofNat_add]
        rfl
      rw [if_neg hc, push, if_pos hlt, ok_bind_eq, hsplit, hlen]
      by_cases hfull : (cmdname ++ [c]).length < MAX_FNAME_LEN
      · have hge : ¬ BitVec.ofNat 8 (cmdname ++ [c]).length ≥ BitVec.ofNat 8 MAX_FNAME_LEN := by
          unfold MAX_FNAME_LEN at hfull ⊢
          simp only [ge_iff_le, BitVec.le_def, BitVec.toNat_ofNat]
          omega
        rw [if_neg hge]
        exact ih _ _ rfl hfull
      · have hge : BitVec.ofNat 8 (cmdname ++ [c]).length ≥ BitVec.ofNat 8 MAX_FNAME_LEN := by
          have hone : (cmdname ++ [c]).length = cmdname.length + 1 := List.length_append
          unfold MAX_FNAME_LEN at hfull hlt ⊢
          simp only [ge_iff_le, BitVec.le_def, BitVec.toNat_ofNat]
          omega
        right
        rw [if_pos hge]
        refine ⟨fun h => hfull ?_, _, rfl⟩
        rw [List.length_append] at h
        omega

theorem listIds_ok_iff (table : List NameTab) :
    (∃ r, listIds table = .ok r) ↔ ∀ e ∈ table, NameFits e.name := by
  induction table with
  | nil => exact ⟨fun _ _ he => (nomatch he), fun _ => ⟨(), rfl⟩⟩
  | cons e es ih =>
    rw [List.forall_mem_cons, ← ih, ← getFname_ok_iff e.name 0, listIds]
    cases getFname MAX_FNAME_LEN e.name 0 with
    | error err => exact ⟨fun hok => (nomatch hok.choose_spec), fun hok => (nomatch hok.1.choose_spec)⟩
    | ok f => exact ⟨fun hok => ⟨⟨f, rfl⟩, hok⟩, fun hok => hok.2⟩

/- Behind the parameter of a system command nothing can go wrong. -/
theorem sysArg_ok_iff {α : Type} {str : List Byte} {next : Aparm → Run α} (hnext : ∀ a, ∃ r, next a = .ok r) :
    (∃ r, (getAparm MAX_FNAME_LEN str >>= next) = .ok r) ↔
      ∃ r, readParm str = some r ∧ r.out.length < MAX_FNAME_LEN := by
  rw [← getAparm_ok_iff]
  cases getAparm MAX_FNAME_LEN str with
  | error err => exact ⟨fun hok => (nomatch hok.choose_spec), fun hok => (nomatch hok.choose_spec)⟩
  | ok a => exact ⟨fun _ => ⟨a, rfl⟩, fun _ => hnext a⟩

theorem setSptype_ok_iff (sptype : Byte) (str : List Byte) (dev : Dev) :
    (∃ r, setSptype sptype str dev = .ok r) ↔ ∃ r, readParm str = some r ∧ r.out.length < MAX_FNAME_LEN := by
  apply sysArg_ok_iff
  intro a
  dsimp only
  split
  · split
    · exact ⟨_, rfl⟩
    · split
      · exact ⟨_, rfl⟩
      · exact ⟨_, rfl⟩
  · exact ⟨_, rfl⟩

theorem setRuntime_ok_iff (str : List Byte) (dev : Dev) :
    (∃ r, setRuntime str dev = .ok r) ↔ ∃ r, readParm str = some r ∧ r.out.length < MAX_FNAME_LEN := by
  apply sysArg_ok_iff
  intro a
  dsimp only
  split
  · split
    · split
      · exact ⟨_, rfl⟩
      · exact ⟨_, rfl⟩
    · exact ⟨_, rfl⟩
  · exact ⟨_, rfl⟩

theorem usmartSysCmdExe_ok_iff (str : List Byte) (dev : Dev) :
    (∃ r, usmartSysCmdExe str dev = .ok r) ↔ SysFits str dev.funs := by
  obtain ⟨hlt, hname⟩ | ⟨hbig, r, hname⟩ :=
    getCmdname_spec str 0 [] rfl (by decide)
  · rw [List.nil_append] at hlt hname
    have hlen : (BitVec.ofNat 8 (cmdWord str).length).toNat = (cmdWord str).length := by
      unfold MAX_FNAME_LEN at hlt
      rw [BitVec.toNat_ofNat]
      omega
    have hadv : advance (cmdWord str).length str = .ok (str.drop (cmdWord str).length) :=
      if_pos (List.takeWhile_prefix _).length_le
    have hne : ¬ (0 : Byte) ≠ 0 := not_not.mpr rfl
    unfold usmartSysCmdExe SysFits
    rw [hname, ok_bind_eq]
    dsimp only
    rw [if_neg hne, hlen, hadv, ok_bind_eq]
    simp only [hlt, true_implies]
    generalize findCmd (cmdWord str) 0 sysCmdTab = i
    match i with
    | 0 => exact ⟨fun _ => trivial, fun _ => ⟨_, rfl⟩⟩
    | 1 => exact ⟨fun _ => trivial, fun _ => ⟨_, rfl⟩⟩
    | 2 => exact ⟨fun _ => trivial, fun _ => ⟨_, rfl⟩⟩
    | 3 =>
      rw [← listIds_ok_iff]
      cases listIds dev.funs with
      | error err => exact ⟨fun hok => (nomatch hok.choose_spec), fun hok => (nomatch hok.choose_spec)⟩
      | ok u => exact ⟨fun _ => ⟨u, rfl⟩, fun _ => ⟨_, rfl⟩⟩
    | 4 => exact setSptype_ok_iff ..
    | 5 => exact setSptype_ok_iff ..
    | 6 => exact setRuntime_ok_iff ..
    | n + 7 => exact ⟨fun _ => trivial, fun _ => ⟨_, rfl⟩⟩
  · rw [List.nil_append] at hbig
    unfold usmartSysCmdExe SysFits
    rw [hname, ok_bind_eq]
    exact ⟨fun _ h => absurd h hbig, fun _ => ⟨_, rfl⟩⟩

/-! ### Both -/

/-- Both handlers of a command end without a fault exactly if every text they read fits. -/
theorem command_safe_iff (str : Command) (dev : Dev) :
    ((∃ r, usmartCmdRec str.text dev = .ok r) ∧ ∃ r, usmartSysCmdExe str.text dev = .ok r) ↔
      RecFits str.text dev.funs ∧ SysFits str.text dev.funs := by
  rw [usmartCmdRec_ok_iff dev str.short, usmartSysCmdExe_ok_iff]

/- `u32 read_addr(u32 addr)` -/
def readAddrName : List Byte :=
  [0x75, 0x33, 0x32, 0x20, 0x72, 0x65, 0x61, 0x64, 0x5F, 0x61, 0x64, 0x64, 0x72, 0x28, 0x75, 0x33, 0x32,
    0x20, 0x61, 0x64, 0x64, 0x72, 0x29]

def readAddrDev : Dev where
  funs := [⟨0x08001000, readAddrName⟩]
  fnum := by decide
  pnum := 0
  id := 0
  sptype := SP_TYPE_HEX
  parmtype := 0
  plentbl _ := 0
  parm _ := 0
  runtimeflag := 0

/- `read_addr("\")`: the escape takes the closing quote. -/
def escapedQuote : Command where
  text := [0x72, 0x65, 0x61, 0x64, 0x5F, 0x61, 0x64, 0x64, 0x72, 0x28, 0x22, 0x5C, 0x22, 0x29]
  noNul := by decide
  short := by decide

theorem command_escapedQuote :
    usmartCmdRec escapedQuote.text readAddrDev = .error .pastNul ∧
    ¬ ((∃ r, usmartCmdRec escapedQuote.text readAddrDev = .ok r) ∧
      ∃ r, usmartSysCmdExe escapedQuote.text readAddrDev = .ok r) := by
  have hrun : usmartCmdRec escapedQuote.text readAddrDev = .error .pastNul := rfl
  refine ⟨hrun, ?_⟩
  rintro ⟨⟨r, hr⟩, -⟩
  rw [hrun] at hr
  cases hr

end MultiEmbedded.Usmart
