import MultiEmbedded.Sd.Transfer

/-!
# Reading sectors: what a zero from SD_ReadDisk is worth

`ReadContract` is the promise FatFs relies on: a read that reports success was
accepted by the card, every block's start token was seen, and the buffer holds
the bytes behind the tokens. The driver keeps it only on some card behaviours,
and `sdReadDisk_single`, `sdReadDisk_multi` say on which.
-/

namespace MultiEmbedded.Sd
open Search

/-! ### Commands by position -/

def cmdValue (c : Card) (k p n : ℕ) : Byte :=
  match readyAt c k (p + 1) with
  | some j => reply c (j + 1 + n)
  | none => 0xff

def cmdEnd (c : Card) (k p n : ℕ) : ℕ :=
  match readyAt c k (p + 1) with
  | some j => j + 1 + n + polled c (j + 1 + n)
  | none => p + waitLimit (c.stack k) + 2

/- What the callers of `SendCmd` need of the state it leaves. -/
structure Advanced (s s' : State) (e : ℕ) : Prop where
  pos : s'.pos = e
  mem : s'.mem = s.mem
  stackReads : s'.stackReads = s.stackReads + 1
  type : s'.SD_Type = s.SD_Type
  sent : s.sent <+: s'.sent

theorem cmdBytes_length (cmd : Byte) (arg : Word) (crc : Byte) :
    (cmdBytes cmd arg crc).length = if cmd = CMD12 then 7 else 6 := by
  by_cases h : cmd = CMD12 <;> simp [cmdBytes, frame, h]

theorem prefix_append {a b c : List Byte} (h : c = a ++ b) : a <+: c := ⟨b, h.symm⟩

theorem sendCmd_run (c : Card) (cmd : Byte) (arg : Word) (crc : Byte) (s : State) :
    ∃ s', sendCmd c cmd arg crc s =
        (cmdValue c s.stackReads s.pos (cmdBytes cmd arg crc).length, s') ∧
      Advanced s s' (cmdEnd c s.stackReads s.pos (cmdBytes cmd arg crc).length) := by
  unfold cmdValue cmdEnd
  cases h : readyAt c s.stackReads (s.pos + 1) with
  | none =>
    refine ⟨_, sendCmd_busy c cmd arg crc s h, ?_, rfl, rfl, rfl, ?_⟩
    · simp only [withPins_pos, idle_pos, readStack_pos]
      omega
    · exact prefix_append rfl
  | some j =>
    obtain ⟨hj, -, -, -⟩ := find_some h
    refine ⟨_, sendCmd_ready c cmd arg crc s h, ?_, rfl, rfl, rfl, ?_⟩
    · simp only [withPins_pos, idle_pos, send_pos, readStack_pos]
      omega
    · simp only [withPins_sent, idle_sent, send_sent, readStack_sent, List.append_assoc]
      exact prefix_append rfl

/- The frame of a command the card was ready for stands right behind the ready byte. -/
theorem sendCmd_frame (c : Card) (cmd : Byte) (arg : Word) (crc : Byte) (s : State) {j : ℕ}
    (h : readyAt c s.stackReads (s.pos + 1) = some j) :
    ((sendCmd c cmd arg crc s).2.sent.drop (j + 1)).take 6 = frame cmd arg crc := by
  obtain ⟨hj, -, -, -⟩ := find_some h
  have hlen : (s.sent ++ List.replicate (j + 1 - s.pos) (0xff : Byte)).length = j + 1 := by
    simp only [List.length_append, List.length_replicate]
    change s.pos + (j + 1 - s.pos) = j + 1
    omega
  rw [sendCmd_ready c cmd arg crc s h]
  simp only [withPins_sent, idle_sent, send_sent, readStack_sent, List.append_assoc]
  rw [← List.append_assoc, List.drop_left' hlen]
  simp [cmdBytes, frame]

/-- The card answers the command sent at `s` with `R1 = 0`, at exchange `r`, among the
`w` bytes polled after the frame. -/
def R1Within (c : Card) (s : State) (w r : ℕ) : Prop :=
  ∃ j, readyAt c s.stackReads (s.pos + 1) = some j ∧
    find isResponse c.miso w (j + 7) = some r ∧ c.miso r = 0

theorem R1Within.unique {c : Card} {s : State} {w w' r r' : ℕ} (h : R1Within c s w r)
    (h' : R1Within c s w' r') : r = r' := by
  obtain ⟨j, hj, hr, -⟩ := h
  obtain ⟨j', hj', hr', -⟩ := h'
  rw [hj] at hj'
  cases hj'
  have h1 := find_mono hr (Nat.le_max_left w w')
  have h2 := find_mono hr' (Nat.le_max_right w w')
  rw [h1] at h2
  exact Option.some.inj h2

theorem R1Within.mono {c : Card} {s : State} {w w' r : ℕ} (h : R1Within c s w r)
    (hw : w ≤ w') : R1Within c s w' r := by
  obtain ⟨j, hj, hr, h0⟩ := h
  exact ⟨j, hj, find_mono hr hw, h0⟩

theorem cmdValue_zero (c : Card) (s : State) :
    cmdValue c s.stackReads s.pos 6 = 0 ↔ ∃ r, R1Within c s 30 r := by
  have hne : ¬ ((0xff : Byte) = 0) := by decide
  unfold cmdValue R1Within
  cases hj : readyAt c s.stackReads (s.pos + 1) with
  | none => simp
  | some j =>
    have hq : j + 1 + 6 = j + 7 := rfl
    simp only [reply, hq, Option.some.injEq, exists_eq_left']
    cases hr : find isResponse c.miso 30 (j + 7) with
    | none => simp
    | some r => simp

theorem cmdEnd_of_R1 {c : Card} {s : State} {r : ℕ} (h : R1Within c s 31 r) :
    cmdEnd c s.stackReads s.pos 6 = r + 1 := by
  obtain ⟨j, hj, hr, -⟩ := h
  obtain ⟨h1, -, -, -⟩ := find_some hr
  have hq : j + 1 + 6 = j + 7 := rfl
  simp only [cmdEnd, hj, polled, hq, hr]
  omega

/-! ### The data phase by position -/

/-- Where the token of block `k` comes, each token within `w` bytes of the block before it. -/
def tokenAt (c : Card) (w : ℕ) : ℕ → ℕ → Option ℕ
  | p, 0 => find isToken c.miso w p
  | p, k + 1 => (find isToken c.miso w p).bind fun t => tokenAt c w (t + 515) k

/-- Where the data phase of `n` blocks ends. -/
def dataEnd (c : Card) : ℕ → ℕ → ℕ
  | 0, p => p
  | n + 1, p => match tokenFrom c p with
    | some t => if t = p + 0xffff then p + 0x10000 else dataEnd c n (t + 515)
    | none => dataEnd c n (p + 0x10000 + 514)

/-- What the buffer holds then. -/
def readMem (c : Card) : ℕ → ℕ → ℕ → (ℕ → Byte) → ℕ → Byte
  | 0, _, _, mem => mem
  | n + 1, buf, p, mem => match tokenFrom c p with
    | some t =>
      if t = p + 0xffff then mem
      else readMem c n (buf + 512) (t + 515) (store mem buf 512 fun i => c.miso (t + 1 + i))
    | none => readMem c n (buf + 512) (p + 0x10000 + 514)
        (store mem buf 512 fun i => c.miso (p + 0x10000 + i))

theorem le_dataEnd (c : Card) (n p : ℕ) : p ≤ dataEnd c n p := by
  induction n generalizing p with
  | zero => exact Nat.le_refl _
  | succ n ih =>
    unfold dataEnd
    cases h : tokenFrom c p with
    | none => exact Nat.le_trans (by omega) (ih _)
    | some t =>
      obtain ⟨h1, -, -, -⟩ := find_some h
      by_cases hl : t = p + 0xffff
      · simp only [hl, if_true]
        omega
      · simp only [hl, if_false]
        exact Nat.le_trans (by omega) (ih _)

theorem readBlocks_run (c : Card) (fuel n buf : ℕ) (cnt : Byte) (s : State)
    (hn : cnt.toNat = n + 1) (hf : n < fuel) :
    (readBlocks c fuel buf cnt s).2 =
      (s.idle (dataEnd c (n + 1) s.pos - s.pos)).withMem (readMem c (n + 1) buf s.pos s.mem) := by
  induction fuel generalizing n buf cnt s with
  | zero => omega
  | succ fuel ih =>
    have hcnt : (cnt - 1).toNat = n := by
      have h1 : (1 : Byte) ≤ cnt := by
        rw [BitVec.le_def, hn]
        exact Nat.le_add_left 1 n
      rw [BitVec.toNat_sub_of_le h1, hn]
      rfl
    have hzero : cnt - 1 ≠ 0 ↔ n ≠ 0 := by
      rw [← hcnt]
      exact not_congr ⟨fun h => by rw [h]; rfl, fun h => BitVec.eq_of_toNat_eq h⟩
    -- one round from `s'`, whose data phase ended at `e`
    have hround : ∀ (e : ℕ) (m : ℕ → Byte) (s' : State), sdRevData c buf 512 s = (0, s') →
        s' = (s.idle (e - s.pos)).withMem m → s.pos ≤ e →
        (readBlocks c (fuel + 1) buf cnt s).2 =
          (s.idle (dataEnd c n e - s.pos)).withMem (readMem c n (buf + 512) e m) := by
      intro e m s' hrev hs' hle
      have hpos : s'.pos = e := by
        rw [hs']
        simp only [withMem_pos, idle_pos]
        omega
      unfold readBlocks
      rw [bind_of hrev]
      simp only [hzero, and_true]
      cases n with
      | zero => simpa [dataEnd, readMem, pure_run] using hs'
      | succ n =>
        have hend := le_dataEnd c (n + 1) e
        have hsum : e - s.pos + (dataEnd c (n + 1) e - e) = dataEnd c (n + 1) e - s.pos := by omega
        simp only [ne_eq, Nat.add_eq_zero_iff, Nat.one_ne_zero, and_false, not_false_eq_true,
          if_true]
        rw [ih n (buf + 512) (cnt - 1) s' hcnt (by omega), hpos]
        simp only [hs', withMem_idle, withMem_mem, withMem_withMem, idle_idle, hsum]
    cases h : tokenFrom c s.pos with
    | none =>
      have hrev := sdRevData_silent c buf 512 s h
      have hsum : s.pos + 0x10000 + 514 - s.pos = 0x10000 + 512 + 2 := by omega
      rw [hround (s.pos + 0x10000 + 514) _ _ hrev (by rw [hsum]) (by omega)]
      simp only [dataEnd, readMem, h]
    | some t =>
      obtain ⟨h1, h2, -, -⟩ := find_some h
      by_cases hl : t = s.pos + 0xffff
      · subst hl
        have hne : ¬ ((0xff : Byte) = 0) := by decide
        have hsum : s.pos + 0x10000 - s.pos = 0x10000 := by omega
        unfold readBlocks
        rw [bind_of (sdRevData_late c buf 512 s h)]
        simp only [hne, and_false, if_false, dataEnd, readMem, h, if_true, hsum]
        rfl
      · have hrev := sdRevData_token c buf 512 s h (by omega)
        have hsum : t + 515 - s.pos = t + 1 - s.pos + 512 + 2 := by omega
        rw [hround (t + 515) _ _ hrev (by rw [hsum]) (by omega)]
        simp only [dataEnd, readMem, h, hl, if_false]

theorem readMem_below (c : Card) (n buf p : ℕ) (mem : ℕ → Byte) {a : ℕ} (ha : a < buf) :
    readMem c n buf p mem a = mem a := by
  induction n generalizing buf p mem with
  | zero => rfl
  | succ n ih =>
    unfold readMem
    cases h : tokenFrom c p with
    | none =>
      simp only
      rw [ih _ _ _ (by omega), store_outside _ _ _ _ (by omega)]
    | some t =>
      by_cases hl : t = p + 0xffff
      · simp only [hl, if_true]
      · simp only [hl, if_false]
        rw [ih _ _ _ (by omega), store_outside _ _ _ _ (by omega)]

theorem tokenFrom_of_short {c : Card} {p t : ℕ} (h : find isToken c.miso 0xffff p = some t) :
    tokenFrom c p = some t ∧ t ≠ p + 0xffff := by
  obtain ⟨-, h2, -, -⟩ := find_some h
  exact ⟨find_mono h (by omega), by omega⟩

theorem tokenAt_of_short {c : Card} {k p t : ℕ} (h : tokenAt c 0xffff p k = some t) :
    tokenAt c 0x10000 p k = some t := by
  induction k generalizing p with
  | zero => exact find_mono h (by omega)
  | succ k ih =>
    obtain ⟨t0, h0, h1⟩ := Option.bind_eq_some_iff.mp h
    simp only [tokenAt, find_mono h0 (show 0xffff ≤ 0x10000 by omega), Option.bind_some]
    exact ih h1

/-- Every token in time: block `k` of the buffer holds the 512 bytes behind token `k`. -/
theorem readMem_inTime (c : Card) (n buf p : ℕ) (mem : ℕ → Byte)
    (h : ∀ k < n, (tokenAt c 0xffff p k).isSome) {k t : ℕ} (hk : k < n)
    (ht : tokenAt c 0xffff p k = some t) :
    t + 515 ≤ dataEnd c n p ∧
      ∀ i < 512, readMem c n buf p mem (buf + 512 * k + i) = c.miso (t + 1 + i) := by
  induction n generalizing buf p mem k with
  | zero => omega
  | succ n ih =>
    obtain ⟨t0, h0⟩ := Option.isSome_iff_exists.mp (h 0 (by omega))
    obtain ⟨hf, hne⟩ := tokenFrom_of_short h0
    simp only [dataEnd, readMem, hf, hne, if_false]
    cases k with
    | zero =>
      have he : t0 = t := Option.some.inj (h0.symm.trans ht)
      subst he
      refine ⟨le_dataEnd c n _, fun i hi => ?_⟩
      have ha : buf + 512 * 0 + i = buf + i := by omega
      rw [ha, readMem_below _ _ _ _ _ (by omega), store_at _ _ _ _ hi]
    | succ k =>
      have hrest : ∀ j < n, (tokenAt c 0xffff (t0 + 515) j).isSome := by
        intro j hj
        have hh := h (j + 1) (by omega)
        rw [tokenAt, show find isToken c.miso 0xffff p = some t0 from h0] at hh
        exact hh
      have htail : tokenAt c 0xffff (t0 + 515) k = some t := by
        rw [tokenAt, show find isToken c.miso 0xffff p = some t0 from h0] at ht
        exact ht
      obtain ⟨hend, hmem⟩ := ih (buf + 512) (t0 + 515) _ hrest (by omega) htail
      refine ⟨hend, fun i hi => ?_⟩
      have ha : buf + 512 * (k + 1) + i = buf + 512 + 512 * k + i := by omega
      rw [ha]
      exact hmem i hi

/-- Some token not in time: it never came, or its block was not stored. -/
theorem readMem_failed (c : Card) (n buf p : ℕ) (h : ¬ ∀ k < n, (tokenAt c 0xffff p k).isSome) :
    ∃ k < n, ∀ t, tokenAt c 0x10000 p k = some t →
      ∀ mem, ∀ i < 512, readMem c n buf p mem (buf + 512 * k + i) = mem (buf + 512 * k + i) := by
  induction n generalizing buf p with
  | zero => exact absurd (fun k hk => absurd hk (by omega)) h
  | succ n ih =>
    cases h0 : find isToken c.miso 0xffff p with
    | none =>
      refine ⟨0, by omega, fun t ht mem i hi => ?_⟩
      have hf : tokenFrom c p = some t := ht
      obtain ⟨h1, h2, h3, -⟩ := find_some hf
      have hlate : t = p + 0xffff := by
        rcases Nat.lt_or_ge t (p + 0xffff) with hlt | hge
        · rw [find_none h0 t h1 hlt] at h3
          cases h3
        · omega
      simp only [readMem, hf, hlate, if_true]
    | some t0 =>
      obtain ⟨hf, hne⟩ := tokenFrom_of_short h0
      have hrest : ¬ ∀ k < n, (tokenAt c 0xffff (t0 + 515) k).isSome := by
        intro hall
        refine h fun k hk => ?_
        cases k with
        | zero => rw [tokenAt, h0]; rfl
        | succ k =>
          rw [tokenAt, h0]
          exact hall k (by omega)
      obtain ⟨k, hk, hkeep⟩ := ih (buf + 512) (t0 + 515) hrest
      refine ⟨k + 1, by omega, fun t ht mem i hi => ?_⟩
      have htail : tokenAt c 0x10000 (t0 + 515) k = some t := by
        rw [tokenAt, show find isToken c.miso 0x10000 p = some t0 from hf] at ht
        exact ht
      have ha : buf + 512 * (k + 1) + i = buf + 512 + 512 * k + i := by omega
      simp only [readMem, hf, hne, if_false, ha]
      rw [hkeep t htail _ i hi, store_outside _ _ _ _ (by omega)]

/-! ### The contract -/

/-- The read command of `SD_ReadDisk` stands on the bus and was answered with `R1 = 0`. -/
def ReadAccepted (c : Card) (s s' : State) (sec : Word) (cnt : Byte) (r : ℕ) : Prop :=
  R1Within c s 31 r ∧ ∃ j, readyAt c s.stackReads (s.pos + 1) = some j ∧
    (s'.sent.drop (j + 1)).take 6 =
      frame (if cnt = 1 then CMD17 else CMD18) (address s.SD_Type sec) 0x01

/-- Success means that the command was accepted and that, for every block, a start
token came within the token wait and the buffer holds the 512 bytes after it. -/
def ReadContract (c : Card) (s : State) (buf : ℕ) (sec : Word) (cnt : Byte) : Prop :=
  (sdReadDisk c buf sec cnt s).1 = 0 →
    ∃ r, ReadAccepted c s (sdReadDisk c buf sec cnt s).2 sec cnt r ∧
      ∀ k < cnt.toNat, ∃ t, tokenAt c 0x10000 (r + 1) k = some t ∧
        t + 512 < (sdReadDisk c buf sec cnt s).2.pos ∧
        ∀ i < 512, (sdReadDisk c buf sec cnt s).2.mem (buf + 512 * k + i) = c.miso (t + 1 + i)

/-- The answer to the stop command that ends a multi-block read is `R1 = 0`. -/
def StopAccepted (c : Card) (s : State) (n : ℕ) : Prop :=
  cmdValue c (s.stackReads + 1) (dataEnd c n (cmdEnd c s.stackReads s.pos 6)) 7 = 0

/- When a single-block read keeps the contract: no accepted read without a token. -/
def SingleHolds (c : Card) (s : State) : Prop :=
  ∀ r, R1Within c s 30 r → tokenFrom c (r + 1) ≠ none

/- When a multi-block read keeps it: the stop command fails too, or nothing went wrong. -/
def MultiHolds (c : Card) (s : State) (n : ℕ) : Prop :=
  StopAccepted c s n →
    ∃ r, R1Within c s 31 r ∧ ∀ k < n, (tokenAt c 0xffff (r + 1) k).isSome

theorem frame_prefix {a b : State} {x : List Byte} {j : ℕ}
    (h : (a.sent.drop (j + 1)).take 6 = x) (hx : x.length = 6) (hp : a.sent <+: b.sent) :
    (b.sent.drop (j + 1)).take 6 = x := by
  obtain ⟨tail, htail⟩ := hp
  have hlen : 6 ≤ (a.sent.drop (j + 1)).length := by
    have hl := congrArg List.length h
    rw [List.length_take, hx] at hl
    omega
  have hj : j + 1 ≤ a.sent.length := by
    rw [List.length_drop] at hlen
    omega
  rw [← htail, List.drop_append_of_le_length hj, List.take_append_of_le_length hlen]
  exact h

theorem sdReadDisk_single_eq (c : Card) (buf : ℕ) (sec : Word) {s s1 s2 : State} {e : Byte}
    (h1 : sendCmd c CMD17 (address s.SD_Type sec) 0x01 s = (0, s1))
    (h2 : sdRevData c buf 512 s1 = (e, s2)) :
    sdReadDisk c buf sec 1 s = (e, (s2.idle 1).withPins true (c.miso s2.pos)) := by
  unfold sdReadDisk
  rw [bind_of (get_run s)]
  simp only [if_true]
  rw [bind_of h1]
  simp only [if_true]
  rw [bind_of h2, bind_of (sdDisSel_run c s2)]
  rfl

theorem sdReadDisk_single_refused (c : Card) (buf : ℕ) (sec : Word) {s s1 : State} {e : Byte}
    (h1 : sendCmd c CMD17 (address s.SD_Type sec) 0x01 s = (e, s1)) (he : e ≠ 0) :
    (sdReadDisk c buf sec 1 s).1 = e := by
  unfold sdReadDisk
  rw [bind_of (get_run s)]
  simp only [if_true]
  rw [bind_of h1]
  simp only [he, if_false]
  rw [bind_of (pure_run e s1), bind_of (sdDisSel_run c s1)]
  rfl

theorem sdReadDisk_multi_eq (c : Card) (buf : ℕ) (sec : Word) {cnt : Byte} {s s1 s2 s3 : State}
    {e1 e2 e3 : Byte} (hcnt : cnt ≠ 1)
    (h1 : sendCmd c CMD18 (address s.SD_Type sec) 0x01 s = (e1, s1))
    (h2 : readBlocks c 256 buf cnt s1 = (e2, s2)) (h3 : sendCmd c CMD12 0 0x01 s2 = (e3, s3)) :
    sdReadDisk c buf sec cnt s = (e3, (s3.idle 1).withPins true (c.miso s3.pos)) := by
  unfold sdReadDisk
  rw [bind_of (get_run s)]
  simp only [hcnt, if_false]
  rw [bind_of h1, bind_of h2, bind_of h3, bind_of (sdDisSel_run c s3)]
  rfl

theorem sdReadDisk_single (c : Card) (s : State) (buf : ℕ) (sec : Word) :
    ReadContract c s buf sec 1 ↔ SingleHolds c s := by
  obtain ⟨s1, hrun, hadv⟩ := sendCmd_run c CMD17 (address s.SD_Type sec) 0x01 s
  have hlen : (cmdBytes CMD17 (address s.SD_Type sec) 0x01).length = 6 := rfl
  rw [hlen] at hrun hadv
  by_cases hz : cmdValue c s.stackReads s.pos 6 = 0
  · rw [hz] at hrun
    obtain ⟨r, hr⟩ := (cmdValue_zero c s).mp hz
    have hr31 := hr.mono (show 30 ≤ 31 by omega)
    have hpos : s1.pos = r + 1 := by rw [hadv.pos, cmdEnd_of_R1 hr31]
    cases htok : tokenFrom c (r + 1) with
    | none =>
      -- the wait times out, the driver stores what follows and reports success
      have hout := sdReadDisk_single_eq c buf sec hrun
        (sdRevData_silent c buf 512 s1 (by rw [hpos]; exact htok))
      constructor
      · intro hc
        obtain ⟨r', ⟨hr', -⟩, hk⟩ := hc (by rw [hout])
        obtain ⟨t, ht, -, -⟩ := hk 0 (by decide)
        rw [← hr'.unique hr31] at htok
        have hnone : tokenAt c 0x10000 (r' + 1) 0 = none := htok
        rw [hnone] at ht
        cases ht
      · intro h
        exact absurd htok (h r hr)
    | some t =>
      have hholds : SingleHolds c s := by
        intro r' hr' hnone
        rw [hr'.unique hr, htok] at hnone
        cases hnone
      refine iff_of_true ?_ hholds
      by_cases hlate : t = r + 1 + 0xffff
      · have hout := sdReadDisk_single_eq c buf sec hrun
          (sdRevData_late c buf 512 s1 (by rw [hpos, ← hlate]; exact htok))
        intro h0
        rw [hout] at h0
        have hne : ¬ ((0xff : Byte) = 0) := by decide
        exact absurd h0 hne
      · obtain ⟨h1, h2, -, -⟩ := find_some htok
        have hout := sdReadDisk_single_eq c buf sec hrun
          (sdRevData_token c buf 512 s1 (by rw [hpos]; exact htok) (by omega))
        intro _
        obtain ⟨j, hj, -, -⟩ := hr
        refine ⟨r, ⟨hr31, j, hj, ?_⟩, fun k hk => ?_⟩
        · refine frame_prefix (a := s1) ?_ rfl ?_
          · have hf := sendCmd_frame c CMD17 (address s.SD_Type sec) 0x01 s hj
            rw [hrun] at hf
            exact hf
          · rw [hout]
            simp only [withPins_sent, idle_sent, withMem_sent, List.append_assoc]
            exact prefix_append rfl
        · have hk0 : k = 0 := by
            have : (1 : Byte).toNat = 1 := rfl
            omega
          subst hk0
          refine ⟨t, htok, ?_, fun i hi => ?_⟩
          · rw [hout]
            simp only [withPins_pos, idle_pos, withMem_pos]
            omega
          · rw [hout]
            have ha : buf + 512 * 0 + i = buf + i := by omega
            simp only [withPins_mem, idle_mem, withMem_mem, ha]
            exact store_at _ _ _ _ hi
  · refine iff_of_true ?_ ?_
    · intro h0
      rw [sdReadDisk_single_refused c buf sec hrun hz] at h0
      exact absurd h0 hz
    · intro r hr
      exact absurd ((cmdValue_zero c s).mpr ⟨r, hr⟩) hz

/- A multi-block read by position: it returns what the stop command is answered with. -/
theorem sdReadDisk_multi_run (c : Card) (s : State) (buf : ℕ) (sec : Word) {cnt : Byte} {n : ℕ}
    (h1 : cnt ≠ 1) (hn : cnt.toNat = n + 1) :
    ∃ s1 s3 : State,
      sendCmd c CMD18 (address s.SD_Type sec) 0x01 s = (cmdValue c s.stackReads s.pos 6, s1) ∧
      s1.sent <+: s3.sent ∧
      dataEnd c (n + 1) (cmdEnd c s.stackReads s.pos 6) ≤ s3.pos ∧
      s3.mem = readMem c (n + 1) buf (cmdEnd c s.stackReads s.pos 6) s.mem ∧
      sdReadDisk c buf sec cnt s =
        (cmdValue c (s.stackReads + 1) (dataEnd c (n + 1) (cmdEnd c s.stackReads s.pos 6)) 7,
          (s3.idle 1).withPins true (c.miso s3.pos)) := by
  have hbound := cnt.isLt
  obtain ⟨s1, hrun1, hadv1⟩ := sendCmd_run c CMD18 (address s.SD_Type sec) 0x01 s
  have hlen1 : (cmdBytes CMD18 (address s.SD_Type sec) 0x01).length = 6 := rfl
  rw [hlen1] at hrun1 hadv1
  have hblk := readBlocks_run c 256 n buf cnt s1 hn (by omega)
  rw [hadv1.pos, hadv1.mem] at hblk
  have hle := le_dataEnd c (n + 1) (cmdEnd c s.stackReads s.pos 6)
  obtain ⟨s3, hrun3, hadv3⟩ := sendCmd_run c CMD12 0 0x01 (readBlocks c 256 buf cnt s1).2
  have hpos2 : (readBlocks c 256 buf cnt s1).2.pos =
      dataEnd c (n + 1) (cmdEnd c s.stackReads s.pos 6) := by
    rw [hblk]
    simp only [withMem_pos, idle_pos, hadv1.pos]
    omega
  have hsr2 : (readBlocks c 256 buf cnt s1).2.stackReads = s.stackReads + 1 := by
    rw [hblk]
    simp only [withMem_stackReads, idle_stackReads, hadv1.stackReads]
  have hp12 : s1.sent <+: (readBlocks c 256 buf cnt s1).2.sent := by
    rw [hblk]
    exact prefix_append rfl
  have hlen3 : (cmdBytes CMD12 0 0x01).length = 7 := rfl
  rw [hlen3, hpos2, hsr2] at hrun3
  refine ⟨s1, s3, hrun1, hp12.trans hadv3.sent, ?_, ?_,
    sdReadDisk_multi_eq c buf sec h1 hrun1 (Prod.ext rfl rfl) hrun3⟩
  · have hlen := hadv3.sent.length_le
    change (readBlocks c 256 buf cnt s1).2.pos ≤ s3.pos at hlen
    rw [hpos2] at hlen
    exact hlen
  · rw [hadv3.mem, hblk]
    rfl

theorem sdReadDisk_multi (c : Card) (s : State) (buf : ℕ) (sec : Word) (cnt : Byte)
    (h1 : cnt ≠ 1) (h0 : cnt ≠ 0) :
    (∀ mem, ReadContract c (s.withMem mem) buf sec cnt) ↔ MultiHolds c s cnt.toNat := by
  obtain ⟨n, hn⟩ : ∃ n, cnt.toNat = n + 1 :=
    Nat.exists_eq_succ_of_ne_zero fun h => h0 (BitVec.eq_of_toNat_eq h)
  have hrun := fun mem => sdReadDisk_multi_run c (s.withMem mem) buf sec h1 hn
  simp only [withMem_stackReads, withMem_pos, withMem_mem] at hrun
  by_cases hstop : StopAccepted c s (n + 1)
  · by_cases hr : ∃ r, R1Within c s 31 r
    · obtain ⟨r, hr⟩ := hr
      have hend := cmdEnd_of_R1 hr
      unfold MultiHolds
      rw [hn]
      by_cases hall : ∀ k < n + 1, (tokenAt c 0xffff (r + 1) k).isSome
      · refine iff_of_true (fun mem _ => ?_) fun _ => ⟨r, hr, hall⟩
        obtain ⟨s1, s3, hrun1, hp13, hpos3, hmem3, hout⟩ := hrun mem
        obtain ⟨j, hj, hfind, hzero⟩ := hr
        refine ⟨r, ⟨⟨j, hj, hfind, hzero⟩, j, hj, ?_⟩, fun k hk => ?_⟩
        · simp only [h1, if_false]
          refine frame_prefix (a := s1) ?_ rfl (hp13.trans ?_)
          · have hf := sendCmd_frame c CMD18 (address (s.withMem mem).SD_Type sec) 0x01
              (s.withMem mem) hj
            rw [hrun1] at hf
            exact hf
          · rw [hout]
            exact prefix_append rfl
        · rw [hn] at hk
          obtain ⟨t, ht⟩ := Option.isSome_iff_exists.mp (hall k hk)
          obtain ⟨htend, htmem⟩ := readMem_inTime c (n + 1) buf (r + 1) mem hall hk ht
          rw [hend] at hpos3 hmem3
          refine ⟨t, tokenAt_of_short ht, ?_, fun i hi => ?_⟩
          · rw [hout]
            simp only [withPins_pos, idle_pos]
            omega
          · rw [hout]
            simp only [withPins_mem, idle_mem, hmem3]
            exact htmem i hi
      · refine iff_of_false (fun hc => ?_) fun hm => ?_
        · -- the block that is not stored keeps a byte that differs from the card's
          obtain ⟨k, hk, hkeep⟩ := readMem_failed c (n + 1) buf (r + 1) hall
          obtain ⟨s1, s3, -, -, -, hmem3, hout⟩ := hrun fun _ =>
            match tokenAt c 0x10000 (r + 1) k with
            | some t => c.miso (t + 1) + 1
            | none => 0
          obtain ⟨r', ⟨hr', -⟩, hblk⟩ := hc _ (by rw [hout]; exact hstop)
          have hrr : r' = r := R1Within.unique hr' hr
          rw [hrr, hn] at hblk
          obtain ⟨t, ht, -, hdata⟩ := hblk k hk
          have hbyte := hdata 0 (by omega)
          rw [hout] at hbyte
          simp only [withPins_mem, idle_mem, hmem3, hend] at hbyte
          rw [hkeep t ht _ 0 (by omega)] at hbyte
          simp only [ht, Nat.add_zero] at hbyte
          have hne : ∀ b : Byte, b + 1 ≠ b := by decide
          exact hne _ hbyte
        · obtain ⟨r', hr', hall'⟩ := hm hstop
          rw [hr'.unique hr] at hall'
          exact hall hall'
    · refine iff_of_false (fun hc => ?_) fun hm => ?_
      · obtain ⟨s1, s3, -, -, -, -, hout⟩ := hrun s.mem
        obtain ⟨r, ⟨hr', -⟩, -⟩ := hc s.mem (by rw [hout]; exact hstop)
        exact hr ⟨r, hr'⟩
      · rw [MultiHolds, hn] at hm
        obtain ⟨r, hr', -⟩ := hm hstop
        exact hr ⟨r, hr'⟩
  · refine iff_of_true (fun mem hzero => ?_) fun hs => ?_
    · obtain ⟨s1, s3, -, -, -, -, hout⟩ := hrun mem
      rw [hout] at hzero
      exact absurd hzero hstop
    · rw [hn] at hs
      exact absurd hs hstop

def ReadHolds (c : Card) (s : State) (cnt : Byte) : Prop :=
  if cnt = 1 then SingleHolds c s else MultiHolds c s cnt.toNat

theorem sdReadDisk_contract_iff (c : Card) (s : State) (buf : ℕ) (sec : Word) (cnt : Byte)
    (hcnt : 1 ≤ cnt.toNat ∧ cnt.toNat ≤ 128) :
    (∀ mem, ReadContract c (s.withMem mem) buf sec cnt) ↔ ReadHolds c s cnt := by
  by_cases h1 : cnt = 1
  · subst h1
    simp only [ReadHolds, if_true]
    exact ⟨fun h => (sdReadDisk_single c s buf sec).mp (h s.mem),
      fun h mem => (sdReadDisk_single c (s.withMem mem) buf sec).mpr h⟩
  · have h0 : cnt ≠ 0 := by
      rintro rfl
      exact absurd hcnt.1 (by decide)
    simp only [ReadHolds, h1, if_false]
    exact sdReadDisk_multi c s buf sec cnt h1 h0

/- A ready card that accepts CMD17 (the answer is byte 8) and then stays silent. -/
def silentCard : Card where
  miso n := if n = 8 then 0 else 0xff
  stack _ := 0

def powerUp : State where
  SD_Type := SD_TYPE_V2HC
  UERR := 0
  SD_CS := true
  CR1 := 0
  sent := []
  mem _ := 0
  stackReads := 0

theorem silentCard_R1 : R1Within silentCard powerUp 30 8 := by
  refine ⟨1, ?_, ?_, rfl⟩
  · refine find_of_first (Nat.le_refl _) ?_ rfl fun k h1 h2 => absurd h1 (by omega)
    exact Nat.lt_add_of_pos_right (waitLimit_pos _)
  · exact find_of_first (Nat.le_refl _) (by decide) rfl fun k h1 h2 => absurd h1 (by omega)

theorem silentCard_token : tokenFrom silentCard 9 = none :=
  find_eq_none fun k h1 h2 => by
    have hk : k ≠ 8 := by omega
    simp [silentCard, isToken, hk]

theorem cmdValue_unanswered {c : Card} {k p n : ℕ} (h : ∀ q, p ≤ q → reply c q = 0xff) : cmdValue c k p n ≠ 0 := by
  have hne : ¬ ((0xff : Byte) = 0) := by decide
  unfold cmdValue
  split
  · rename_i j hready
    obtain ⟨hj, -, -, -⟩ := find_some hready
    rw [h _ (by omega)]
    exact hne
  · exact hne

theorem silentCard_reply {q : ℕ} (hq : 9 ≤ q) : reply silentCard q = 0xff := by
  have hnone : find isResponse silentCard.miso 30 q = none := by
    apply find_eq_none
    intro k hk _
    have hk8 : k ≠ 8 := by omega
    simp [silentCard, isResponse, hk8]
  simp only [reply, hnone]

theorem silentCard_stop (n : ℕ) : ¬ StopAccepted silentCard powerUp n := by
  have hend := cmdEnd_of_R1 (silentCard_R1.mono (show 30 ≤ 31 by omega))
  have hle := le_dataEnd silentCard n (cmdEnd silentCard powerUp.stackReads powerUp.pos 6)
  apply cmdValue_unanswered
  intro q hq
  exact silentCard_reply (by omega)

/-- Two blocks from the silent card: no token comes, and neither is the stop command answered; the read is
reported as failed. -/
theorem sdReadDisk_contract_iff_silent :
    (∀ k, tokenAt silentCard 0xffff 9 k = none) ∧ ∀ mem, ReadContract silentCard (powerUp.withMem mem) 0 0 2 := by
  have hone : ¬ ((2 : Byte) = 1) := by decide
  have hshort : find isToken silentCard.miso 0xffff 9 = none := find_none_mono silentCard_token (by omega)
  constructor
  · intro k
    cases k with
    | zero => exact hshort
    | succ k => simp only [tokenAt, hshort, Option.bind_none]
  · apply (sdReadDisk_contract_iff silentCard powerUp 0 0 2 (by decide)).mpr
    simp only [ReadHolds, hone, if_false]
    exact fun h => absurd h (silentCard_stop _)

/- The silent card: the driver reports success for a block that was never sent. -/
theorem sdReadDisk_silentCard : ¬ ReadContract silentCard powerUp 0 0 1 := fun h =>
  (sdReadDisk_single silentCard powerUp 0 0).mp h 8 silentCard_R1 silentCard_token

/-- FatFs sees success exactly when `SD_ReadDisk` returned 0. -/
theorem diskRead_ok (c : Card) (s : State) (buff : ℕ) (sector count : Word) (h : count ≠ 0) :
    (diskRead c SD_CARD buff sector count s).1 = .RES_OK ↔
      (sdReadDisk c buff sector (count.setWidth 8) s).1 = 0 := by
  have hrun : sdReadDisk c buff sector (count.setWidth 8) s =
      ((sdReadDisk c buff sector (count.setWidth 8) s).1,
        (sdReadDisk c buff sector (count.setWidth 8) s).2) := rfl
  by_cases hz : (sdReadDisk c buff sector (count.setWidth 8) s).1 = 0
  · rw [hz] at hrun
    unfold diskRead
    simp only [h, if_false, if_true]
    rw [bind_of hrun]
    simp [hz, pure_run]
  · refine iff_of_false ?_ hz
    unfold diskRead
    simp only [h, if_false, if_true]
    rw [bind_of hrun]
    simp only [ne_eq, hz, not_false_eq_true, if_true]
    change (if (sdReadDisk c buff sector (count.setWidth 8) s).1 = 0 then
      DResult.RES_OK else DResult.RES_ERROR) ≠ DResult.RES_OK
    rw [if_neg hz]
    decide

end MultiEmbedded.Sd
