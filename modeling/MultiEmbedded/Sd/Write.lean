import MultiEmbedded.Sd.Read

/-!
# Writing sectors: what a zero from SD_WriteDisk is worth

A successful write promises that every block of the buffer went over the bus
behind its start token and that the card accepted each of them. A single block
keeps the promise (`sdWriteDisk_single`); a run of blocks returns the status of
the stop token, so a refusal is lost (`sdWriteDisk_multi` says exactly when).
-/

namespace MultiEmbedded.Sd
open Search

/-! ### One block on the bus -/

/-- MOSI is held high from exchange `p` up to `q`. -/
def IdleBus (sent : List Byte) (p q : ℕ) : Prop := ∀ i, p ≤ i → i < q → sent[i]? = some 0xff

/-- From `p` on the bus idles until `b`, where `tok` starts block `k` of the buffer. -/
structure BlockBytes (sent : List Byte) (mem : ℕ → Byte) (buf : ℕ) (tok : Byte) (p b : ℕ) :
    Prop where
  le : p ≤ b
  idle : IdleBus sent p b
  token : sent[b]? = some tok
  data : ∀ i < 512, sent[b + 1 + i]? = some (mem (buf + i))
  clocked : b + 515 < sent.length

/-- The data response to a block whose token stands at `b`. -/
def Accepts (c : Card) (b : ℕ) : Prop := c.miso (b + 515) &&& 0x1f = 5

instance (c : Card) (b : ℕ) : Decidable (Accepts c b) := inferInstanceAs (Decidable (_ = _))

theorem getElem?_extend {a b : List Byte} (h : a <+: b) {i : ℕ} {x : Byte}
    (hx : a[i]? = some x) : b[i]? = some x := by
  obtain ⟨tail, rfl⟩ := h
  rw [List.getElem?_append_left (List.getElem?_eq_some_iff.mp hx).1]
  exact hx

theorem IdleBus.extend {a b : List Byte} (h : a <+: b) {p q : ℕ} (hi : IdleBus a p q) :
    IdleBus b p q := fun i h1 h2 => getElem?_extend h (hi i h1 h2)

theorem BlockBytes.extend {a b : List Byte} (h : a <+: b) {mem : ℕ → Byte} {buf p q : ℕ}
    {tok : Byte} (hb : BlockBytes a mem buf tok p q) : BlockBytes b mem buf tok p q :=
  ⟨hb.le, hb.idle.extend h, getElem?_extend h hb.token,
    fun i hi => getElem?_extend h (hb.data i hi), Nat.lt_of_lt_of_le hb.clocked h.length_le⟩

/- The first byte other than `0xff` from `p` on is the same on every reading of the bus. -/
theorem first_unique {sent : List Byte} {p a b : ℕ} {x y : Byte} (hpa : p ≤ a) (hpb : p ≤ b)
    (ha : IdleBus sent p a) (hb : IdleBus sent p b) (hx : sent[a]? = some x)
    (hy : sent[b]? = some y) (hxf : x ≠ 0xff) (hyf : y ≠ 0xff) : a = b ∧ x = y := by
  rcases Nat.lt_trichotomy a b with hlt | heq | hgt
  · have h := hb a hpa hlt
    rw [hx] at h
    exact absurd (Option.some.inj h) hxf
  · subst heq
    rw [hx] at hy
    exact ⟨rfl, Option.some.inj hy⟩
  · have h := ha b hpb hgt
    rw [hy] at h
    exact absurd (Option.some.inj h) hyf

theorem idle_after (s : State) (n : ℕ) : IdleBus (s.idle n).sent s.pos (s.pos + n) := by
  intro i h1 h2
  change s.sent.length ≤ i at h1
  change i < s.sent.length + n at h2
  rw [idle_sent, List.getElem?_append_right h1, List.getElem?_replicate]
  simp only [show i - s.sent.length < n by omega, if_true]

theorem block_length (mem : ℕ → Byte) (buf n : ℕ) : (block mem buf n).length = n := by
  simp [block]

theorem block_getElem? (mem : ℕ → Byte) (buf n : ℕ) {i : ℕ} (hi : i < n) :
    (block mem buf n)[i]? = some (mem (buf + i)) := by
  simp [block, hi]

theorem sdSendBlock_busy (c : Card) (buf : ℕ) (cmd : Byte) (s : State)
    (h : readyAt c s.stackReads s.pos = none) :
    sdSendBlock c buf cmd s = (1, s.readStack.idle (waitLimit (c.stack s.stackReads))) := by
  have hw := sdWaiteReady_run c s
  simp only [h] at hw
  have hne : (0xff : Byte) ≠ 0 := by decide
  unfold sdSendBlock
  rw [bind_of hw]
  simp only [hne, ne_eq, not_false_eq_true, if_true]
  rfl

theorem sdSendBlock_stop (c : Card) (buf : ℕ) (s : State) {j : ℕ}
    (h : readyAt c s.stackReads s.pos = some j) :
    sdSendBlock c buf 0xfd s = (0, (s.readStack.idle (j + 1 - s.pos)).send [0xfd]) := by
  have hw := sdWaiteReady_run c s
  simp only [h] at hw
  unfold sdSendBlock
  rw [bind_of hw]
  simp only [ne_eq, not_true_eq_false, if_false]
  rw [bind_of (sendBytes_run c _ _)]
  rfl

theorem sdSendBlock_data (c : Card) (buf : ℕ) (cmd : Byte) (s : State) {j : ℕ} (hcmd : cmd ≠ 0xfd)
    (h : readyAt c s.stackReads s.pos = some j) :
    sdSendBlock c buf cmd s = (if Accepts c (j + 1) then 0 else 2,
      (s.readStack.idle (j + 1 - s.pos)).send
        ([cmd] ++ block s.mem buf 512 ++ [0xff, 0xff] ++ [0xff])) := by
  obtain ⟨hj, -, -, -⟩ := find_some h
  have hw := sdWaiteReady_run c s
  simp only [h] at hw
  have hpos : ((((s.readStack.idle (j + 1 - s.pos)).send [cmd]).send (block s.mem buf 512)).send
      [0xff, 0xff]).pos = j + 1 + 515 := by
    simp only [send_pos, idle_pos, readStack_pos, block_length, List.length_cons, List.length_nil]
    omega
  have hresp := spi1ReadWriteByte_run c 0xff ((((s.readStack.idle (j + 1 - s.pos)).send
    [cmd]).send (block s.mem buf 512)).send [0xff, 0xff])
  rw [hpos] at hresp
  unfold sdSendBlock
  rw [bind_of hw]
  simp only [ne_eq, not_true_eq_false, if_false, hcmd, not_false_eq_true, if_true]
  rw [bind_of (sendBytes_run c _ _), bind_of (get_run _)]
  simp only [send_mem, idle_mem, readStack_mem]
  rw [bind_of (sendBytes_run c _ _), bind_of (sendBytes_run c _ _), bind_of hresp]
  simp only [send_send, Accepts]
  by_cases ha : c.miso (j + 1 + 515) &&& 0x1f = 0x05
  · simp only [ha, not_true_eq_false, if_true, if_false]
    rfl
  · simp only [ha, not_false_eq_true, if_true, if_false]
    rfl

/- The bytes of `sdSendBlock_data`, read off the bus. -/
theorem sendBlock_bytes (s : State) (buf : ℕ) (cmd : Byte) {j : ℕ} (hj : s.pos ≤ j) :
    BlockBytes ((s.readStack.idle (j + 1 - s.pos)).send
      ([cmd] ++ block s.mem buf 512 ++ [0xff, 0xff] ++ [0xff])).sent s.mem buf cmd s.pos (j + 1) := by
  have hidle : IdleBus (s.readStack.idle (j + 1 - s.pos)).sent s.pos (j + 1) := by
    have h := idle_after s.readStack (j + 1 - s.pos)
    rw [readStack_pos, show s.pos + (j + 1 - s.pos) = j + 1 by omega] at h
    exact h
  have hlen : (s.readStack.idle (j + 1 - s.pos)).sent.length = j + 1 := by
    change (s.readStack.idle (j + 1 - s.pos)).pos = j + 1
    simp only [idle_pos, readStack_pos]
    omega
  refine ⟨by omega, hidle.extend ⟨_, rfl⟩, ?_, fun i hi => ?_, ?_⟩
  · rw [send_sent, List.getElem?_append_right (by omega), hlen, Nat.sub_self]
    rfl
  · have hi1 : j + 1 + 1 + i - (j + 1) = i + 1 := by omega
    rw [send_sent, List.getElem?_append_right (by omega), hlen, hi1]
    simp only [List.append_assoc, List.cons_append, List.nil_append, List.getElem?_cons_succ]
    rw [List.getElem?_append_left (by rw [block_length]; exact hi)]
    exact block_getElem? _ _ _ hi
  · rw [send_sent, List.length_append, hlen]
    simp only [List.length_append, List.length_cons, List.length_nil, block_length]
    omega

/-! ### The data phase by position -/

/-- Where block `n` of a run that starts at `p` goes, if all blocks up to it are accepted;
`k` numbers the ready wait of the first. -/
def blockAt (c : Card) : ℕ → ℕ → ℕ → Option ℕ
  | k, p, 0 => (readyAt c k p).bind fun j => if Accepts c (j + 1) then some (j + 1) else none
  | k, p, n + 1 => (readyAt c k p).bind fun j =>
      if Accepts c (j + 1) then blockAt c (k + 1) (j + 517) n else none

/-- Position and ready waits behind the blocks: the run ends at the first that is refused. -/
def writeEnd (c : Card) : ℕ → ℕ → ℕ → ℕ × ℕ
  | k, p, 0 => (p, k)
  | k, p, n + 1 => match readyAt c k p with
    | none => (p + waitLimit (c.stack k), k + 1)
    | some j => if Accepts c (j + 1) then writeEnd c (k + 1) (j + 517) n else (j + 517, k + 1)

/-- What `writeBlocks` puts on the bus for `n` blocks. -/
def WriteBytes (c : Card) (sent : List Byte) (mem : ℕ → Byte) : ℕ → ℕ → ℕ → ℕ → Prop
  | _, _, _, 0 => True
  | buf, k, p, n + 1 => match readyAt c k p with
    | none => IdleBus sent p (p + waitLimit (c.stack k))
    | some j => BlockBytes sent mem buf 0xfc p (j + 1) ∧
        (Accepts c (j + 1) → WriteBytes c sent mem (buf + 512) (k + 1) (j + 517) n)

theorem WriteBytes.extend {c : Card} {a b : List Byte} {mem : ℕ → Byte} {buf k p n : ℕ}
    (h : a <+: b) (hw : WriteBytes c a mem buf k p n) : WriteBytes c b mem buf k p n := by
  induction n generalizing buf k p with
  | zero => trivial
  | succ n ih =>
    unfold WriteBytes at hw ⊢
    cases hj : readyAt c k p with
    | none =>
      simp only [hj] at hw ⊢
      exact hw.extend h
    | some j =>
      simp only [hj] at hw ⊢
      exact ⟨hw.1.extend h, fun ha => ih (hw.2 ha)⟩

/- What `writeBlocks` leaves behind. -/
structure BlocksSent (c : Card) (s s' : State) (buf n : ℕ) : Prop where
  pos : s'.pos = (writeEnd c s.stackReads s.pos n).1
  stackReads : s'.stackReads = (writeEnd c s.stackReads s.pos n).2
  mem : s'.mem = s.mem
  sent : s.sent <+: s'.sent
  bytes : WriteBytes c s'.sent s.mem buf s.stackReads s.pos n

theorem writeBlocks_run (c : Card) (fuel n buf : ℕ) (cnt : Byte) (s : State)
    (hn : cnt.toNat = n + 1) (hf : n < fuel) :
    BlocksSent c s (writeBlocks c fuel buf cnt s).2 buf (n + 1) := by
  induction fuel generalizing n buf cnt s with
  | zero => omega
  | succ fuel ih =>
    have hcnt : (cnt - 1).toNat = n := by
      have h1 : (1 : Byte) ≤ cnt := by
        rw [BitVec.le_def, hn]
        exact Nat.le_add_left 1 n
      rw [BitVec.toNat_sub_of_le h1, hn]
      rfl
    have hzero : cnt - 1 ≠ 0 ↔ n ≠ 0 := by
      rw [← hcnt]
      exact not_congr ⟨fun h => by rw [h]; rfl, fun h => BitVec.eq_of_toNat_eq h⟩
    unfold writeBlocks
    cases h : readyAt c s.stackReads s.pos with
    | none =>
      have hne : ¬ ((1 : Byte) = 0) := by decide
      rw [bind_of (sdSendBlock_busy c buf 0xfc s h)]
      simp only [hne, and_false, if_false]
      refine ⟨?_, ?_, rfl, ⟨_, rfl⟩, ?_⟩
      · simp only [pure_run, idle_pos, readStack_pos, writeEnd, h]
      · simp only [pure_run, idle_stackReads, writeEnd, h]
        rfl
      · simp only [WriteBytes, h]
        exact idle_after s.readStack _
    | some j =>
      obtain ⟨hj, -, -, -⟩ := find_some h
      have hbytes := sendBlock_bytes s buf 0xfc hj
      rw [bind_of (sdSendBlock_data c buf 0xfc s (by decide) h)]
      generalize hs1 : (s.readStack.idle (j + 1 - s.pos)).send
        ([0xfc] ++ block s.mem buf 512 ++ [0xff, 0xff] ++ [0xff]) = s1 at hbytes ⊢
      have hpos1 : s1.pos = j + 517 := by
        rw [← hs1]
        simp only [send_pos, idle_pos, readStack_pos, List.length_append, List.length_cons,
          List.length_nil, block_length]
        omega
      have hsr1 : s1.stackReads = s.stackReads + 1 := by rw [← hs1]; rfl
      have hmem1 : s1.mem = s.mem := by rw [← hs1]; rfl
      have hsent1 : s.sent <+: s1.sent := by
        rw [← hs1]
        simp only [send_sent, idle_sent, readStack_sent, List.append_assoc]
        exact prefix_append rfl
      by_cases ha : Accepts c (j + 1)
      · simp only [ha, if_true, hzero, and_true]
        cases n with
        | zero =>
          simp only [ne_eq, not_true_eq_false, if_false, pure_run]
          refine ⟨?_, ?_, hmem1, hsent1, ?_⟩
          · simp only [writeEnd, h, ha, if_true, hpos1]
          · simp only [writeEnd, h, ha, if_true, hsr1]
          · simp only [WriteBytes, h]
            exact ⟨hbytes, fun _ => trivial⟩
        | succ n =>
          simp only [ne_eq, Nat.add_eq_zero_iff, Nat.one_ne_zero, and_false, not_false_eq_true,
            if_true]
          obtain ⟨hp, hsr, hm, hs, hb⟩ := ih n (buf + 512) (cnt - 1) s1 hcnt (by omega)
          rw [hpos1, hsr1] at hp hsr hb
          rw [hmem1] at hm hb
          refine ⟨?_, ?_, hm, hsent1.trans hs, ?_⟩
          · rw [hp]
            conv => rhs; unfold writeEnd
            simp only [h, ha, if_true]
          · rw [hsr]
            conv => rhs; unfold writeEnd
            simp only [h, ha, if_true]
          · unfold WriteBytes
            simp only [h]
            exact ⟨hbytes.extend hs, fun _ => hb⟩
      · have hne : ¬ ((2 : Byte) = 0) := by decide
        simp only [ha, if_false, hne, and_false, pure_run]
        refine ⟨?_, ?_, hmem1, hsent1, ?_⟩
        · simp only [writeEnd, h, ha, if_false, hpos1]
        · simp only [writeEnd, h, ha, if_false, hsr1]
        · simp only [WriteBytes, h]
          exact ⟨hbytes, fun ha' => absurd ha' ha⟩

/-! ### The contract -/

def blockStart (p : ℕ) (b : ℕ → ℕ) : ℕ → ℕ
  | 0 => p
  | k + 1 => b k + 516

/-- Blocks `0, …, n - 1` of the buffer are on the bus in order, block `k` with its token
at `b k`, and the card accepted each of them. -/
def SentAccepted (c : Card) (sent : List Byte) (mem : ℕ → Byte) (buf : ℕ) (tok : Byte) (p n : ℕ)
    (b : ℕ → ℕ) : Prop :=
  ∀ k < n, BlockBytes sent mem (buf + 512 * k) tok (blockStart p b k) (b k) ∧ Accepts c (b k)

theorem sentAccepted_of_bytes {c : Card} {sent : List Byte} {mem : ℕ → Byte} {buf k p n : ℕ}
    (hw : WriteBytes c sent mem buf k p n) (hall : ∀ i < n, (blockAt c k p i).isSome) :
    ∃ b, SentAccepted c sent mem buf 0xfc p n b := by
  induction n generalizing buf k p with
  | zero => exact ⟨fun _ => 0, fun i hi => absurd hi (by omega)⟩
  | succ n ih =>
    have h0 := hall 0 (by omega)
    unfold blockAt at h0
    cases hj : readyAt c k p with
    | none => simp [hj] at h0
    | some j =>
      have ha : Accepts c (j + 1) := by
        by_contra hna
        simp [hj, hna] at h0
      simp only [WriteBytes, hj] at hw
      obtain ⟨b, hb⟩ := ih (hw.2 ha) fun i hi => by
        have h1 := hall (i + 1) (by omega)
        simpa only [blockAt, hj, Option.bind_some, ha, if_true] using h1
      refine ⟨fun i => match i with | 0 => j + 1 | i + 1 => b i, fun i hi => ?_⟩
      cases i with
      | zero => exact ⟨hw.1, ha⟩
      | succ i =>
        have hbuf : buf + 512 * (i + 1) = buf + 512 + 512 * i := by omega
        rw [hbuf]
        have hbi := hb i (by omega)
        cases i with
        | zero => exact hbi
        | succ i => exact hbi

theorem IdleBus.append {sent : List Byte} {p q r : ℕ} (h1 : IdleBus sent p q)
    (h2 : IdleBus sent q r) : IdleBus sent p r := by
  intro i hp hr
  rcases Nat.lt_or_ge i q with hlt | hge
  · exact h1 i hp hlt
  · exact h2 i hge hr

/- A bus with the stop token behind the blocks can be read as `n` accepted blocks only if
every block was accepted. -/
theorem blockAt_of_sentAccepted {c : Card} {sent : List Byte} {mem : ℕ → Byte}
    {buf k p n e : ℕ} {b : ℕ → ℕ} (hw : WriteBytes c sent mem buf k p n)
    (hle : (writeEnd c k p n).1 ≤ e) (hidle : IdleBus sent (writeEnd c k p n).1 e)
    (hstop : sent[e]? = some 0xfd) (hb : SentAccepted c sent mem buf 0xfc p n b) :
    ∀ i < n, (blockAt c k p i).isSome := by
  induction n generalizing buf k p b with
  | zero => intro i hi; omega
  | succ n ih =>
    obtain ⟨hb0, ha0⟩ := hb 0 (by omega)
    unfold WriteBytes at hw
    unfold writeEnd at hle hidle
    cases hj : readyAt c k p with
    | none =>
      simp only [hj] at hw hle hidle
      have hfirst := first_unique hb0.le (show p ≤ e by omega) hb0.idle (hw.append hidle) hb0.token hstop
        (by decide) (by decide)
      exact absurd hfirst.2 (by decide)
    | some j =>
      simp only [hj] at hw hle hidle
      have hfirst := first_unique hb0.le hw.1.le hb0.idle hw.1.idle hb0.token hw.1.token
        (by decide) (by decide)
      rw [hfirst.1] at ha0
      simp only [ha0, if_true] at hle hidle
      have htail := ih (b := fun i => b (i + 1)) (hw.2 ha0) hle hidle fun i hi => by
        have hbi := hb (i + 1) (by omega)
        have hbuf : buf + 512 * (i + 1) = buf + 512 + 512 * i := by omega
        rw [hbuf] at hbi
        cases i with
        | zero =>
          simp only [blockStart, hfirst.1] at hbi ⊢
          exact hbi
        | succ i => exact hbi
      intro i hi
      cases i with
      | zero => simp [blockAt, hj, ha0]
      | succ i =>
        simp only [blockAt, hj, Option.bind_some, ha0, if_true]
        exact htail i (by omega)

/-- Ready wait and position of the write command: `CMD55` and `CMD23` go before it when
several blocks are written to a card that is not an MMC. -/
def writeCmdAt (c : Card) (s : State) (cnt : Byte) : ℕ × ℕ :=
  if cnt = 1 ∨ s.SD_Type = SD_TYPE_MMC then (s.stackReads, s.pos)
  else (s.stackReads + 2,
    cmdEnd c (s.stackReads + 1) (cmdEnd c s.stackReads s.pos 6) 6)

def writeDataAt (c : Card) (s : State) (cnt : Byte) : ℕ :=
  cmdEnd c (writeCmdAt c s cnt).1 (writeCmdAt c s cnt).2 6

/-- Success means that all blocks were sent in order, each behind its token, and accepted. -/
def WriteContract (c : Card) (s : State) (buf : ℕ) (sector : Word) (cnt : Byte) : Prop :=
  (sdWriteDisk c buf sector cnt s).1 = 0 →
    ∃ b, SentAccepted c (sdWriteDisk c buf sector cnt s).2.sent s.mem buf
      (if cnt = 1 then 0xfe else 0xfc) (writeDataAt c s cnt) cnt.toNat b

/-- The write command is accepted and the card is ready again for the stop token. -/
def WriteReported (c : Card) (s : State) (cnt : Byte) : Prop :=
  cmdValue c (writeCmdAt c s cnt).1 (writeCmdAt c s cnt).2 6 = 0 ∧
    (readyAt c (writeEnd c ((writeCmdAt c s cnt).1 + 1) (writeDataAt c s cnt) cnt.toNat).2
      (writeEnd c ((writeCmdAt c s cnt).1 + 1) (writeDataAt c s cnt) cnt.toNat).1).isSome

def WriteHolds (c : Card) (s : State) (cnt : Byte) : Prop :=
  cnt = 1 ∨ (WriteReported c s cnt → ∀ k < cnt.toNat,
    (blockAt c ((writeCmdAt c s cnt).1 + 1) (writeDataAt c s cnt) k).isSome)

theorem sdWriteDisk_single_eq (c : Card) (buf : ℕ) (sector : Word) {s s1 s2 : State} {e : Byte}
    (h1 : sendCmd c CMD24 (address s.SD_Type sector) 0x01 s = (0, s1))
    (h2 : sdSendBlock c buf 0xfe s1 = (e, s2)) :
    sdWriteDisk c buf sector 1 s = (e, (s2.idle 1).withPins true (c.miso s2.pos)) := by
  unfold sdWriteDisk
  rw [bind_of (get_run s)]
  simp only [if_true]
  rw [bind_of h1]
  simp only [if_true]
  rw [bind_of h2, bind_of (sdDisSel_run c s2)]
  rfl

theorem sdWriteDisk_single_refused (c : Card) (buf : ℕ) (sector : Word) {s s1 : State} {e : Byte}
    (h1 : sendCmd c CMD24 (address s.SD_Type sector) 0x01 s = (e, s1)) (he : e ≠ 0) :
    (sdWriteDisk c buf sector 1 s).1 = e := by
  unfold sdWriteDisk
  rw [bind_of (get_run s)]
  simp only [if_true]
  rw [bind_of h1]
  simp only [he, if_false]
  rw [bind_of (pure_run e s1), bind_of (sdDisSel_run c s1)]
  rfl

/- The commands before the data phase of several blocks. -/
theorem sdWriteDisk_multi_eq (c : Card) (buf : ℕ) (sector : Word) {cnt : Byte} (s : State)
    (hcnt : cnt ≠ 1) :
    ∃ s0, sdWriteDisk c buf sector cnt s = (do
        let err ← sendCmd c CMD25 (address s.SD_Type sector) 0x01
        let err ← if err = 0 then do
            let _err ← writeBlocks c 256 buf cnt
            sdSendBlock c 0 0xfd
          else pure err
        sdDisSel c
        return err : Run Byte) s0 ∧
      s0.stackReads = (writeCmdAt c s cnt).1 ∧ s0.pos = (writeCmdAt c s cnt).2 ∧
      s0.mem = s.mem ∧ s.sent <+: s0.sent := by
  by_cases hmmc : s.SD_Type = SD_TYPE_MMC
  · refine ⟨s, ?_, ?_, ?_, rfl, List.prefix_refl _⟩
    · unfold sdWriteDisk
      rw [bind_of (get_run s)]
      simp only [hcnt, if_false, hmmc, ne_eq, not_true_eq_false]
    · simp only [writeCmdAt, hmmc, or_true, if_true]
    · simp only [writeCmdAt, hmmc, or_true, if_true]
  · obtain ⟨s1, hrun1, hadv1⟩ := sendCmd_run c CMD55 0 0x01 s
    obtain ⟨s2, hrun2, hadv2⟩ := sendCmd_run c CMD23 (cnt.setWidth 32) 0x01 s1
    have hlen1 : (cmdBytes CMD55 0 0x01).length = 6 := rfl
    have hlen2 : (cmdBytes CMD23 (cnt.setWidth 32) 0x01).length = 6 := rfl
    rw [hlen1] at hrun1 hadv1
    rw [hlen2] at hrun2 hadv2
    refine ⟨s2, ?_, ?_, ?_, hadv2.mem.trans hadv1.mem, hadv1.sent.trans hadv2.sent⟩
    · unfold sdWriteDisk
      rw [bind_of (get_run s)]
      simp only [hcnt, if_false, hmmc, ne_eq, not_false_eq_true, if_true]
      rw [bind_of hrun1, bind_of hrun2]
    · simp only [writeCmdAt, hcnt, hmmc, or_self, if_false]
      rw [hadv2.stackReads, hadv1.stackReads]
    · simp only [writeCmdAt, hcnt, hmmc, or_self, if_false]
      rw [hadv2.pos, hadv1.stackReads, hadv1.pos]

/- A single block always keeps the contract. -/
theorem sdWriteDisk_single (c : Card) (s : State) (buf : ℕ) (sector : Word) :
    WriteContract c s buf sector 1 := by
  obtain ⟨s1, hrun, hadv⟩ := sendCmd_run c CMD24 (address s.SD_Type sector) 0x01 s
  have hlen : (cmdBytes CMD24 (address s.SD_Type sector) 0x01).length = 6 := rfl
  rw [hlen] at hrun hadv
  intro hret
  have hz : cmdValue c s.stackReads s.pos 6 = 0 := by
    by_contra hne
    rw [sdWriteDisk_single_refused c buf sector hrun hne] at hret
    exact hne hret
  rw [hz] at hrun
  cases hj : readyAt c s1.stackReads s1.pos with
  | none =>
    rw [sdWriteDisk_single_eq c buf sector hrun (sdSendBlock_busy c buf 0xfe s1 hj)] at hret
    have hne : ¬ ((1 : Byte) = 0) := by decide
    exact absurd hret hne
  | some j =>
    obtain ⟨hle, -, -, -⟩ := find_some hj
    have hbytes := sendBlock_bytes s1 buf 0xfe hle
    have hdata := sdSendBlock_data c buf 0xfe s1 (by decide) hj
    generalize (s1.readStack.idle (j + 1 - s1.pos)).send
      ([0xfe] ++ block s1.mem buf 512 ++ [0xff, 0xff] ++ [0xff]) = s2 at hbytes hdata
    have hout := sdWriteDisk_single_eq c buf sector hrun hdata
    have ha : Accepts c (j + 1) := by
      by_contra hna
      rw [hout] at hret
      simp only [hna, if_false] at hret
      have hne : ¬ ((2 : Byte) = 0) := by decide
      exact absurd hret hne
    have hstart : writeDataAt c s 1 = s1.pos := by
      rw [hadv.pos]
      simp only [writeDataAt, writeCmdAt, true_or, if_true]
    rw [hadv.mem] at hbytes
    refine ⟨fun _ => j + 1, fun k hk => ?_⟩
    have hk0 : k = 0 := by
      have h1 : (1 : Byte).toNat = 1 := rfl
      omega
    subst hk0
    refine ⟨?_, ha⟩
    rw [hout, hstart]
    exact hbytes.extend (prefix_append rfl)

theorem sdWriteDisk_multi (c : Card) (s : State) (buf : ℕ) (sector : Word) (cnt : Byte)
    (h1 : cnt ≠ 1) (h0 : cnt ≠ 0) :
    WriteContract c s buf sector cnt ↔ (WriteReported c s cnt → ∀ k < cnt.toNat,
      (blockAt c ((writeCmdAt c s cnt).1 + 1) (writeDataAt c s cnt) k).isSome) := by
  obtain ⟨n, hn⟩ : ∃ n, cnt.toNat = n + 1 :=
    Nat.exists_eq_succ_of_ne_zero fun h => h0 (BitVec.eq_of_toNat_eq h)
  have hbound := cnt.isLt
  obtain ⟨s0, heq, hk, hp, hm0, hsent0⟩ := sdWriteDisk_multi_eq c buf sector s h1
  obtain ⟨s1, hrun, hadv⟩ := sendCmd_run c CMD25 (address s.SD_Type sector) 0x01 s0
  have hlen : (cmdBytes CMD25 (address s.SD_Type sector) 0x01).length = 6 := rfl
  rw [hlen, hk, hp] at hrun hadv
  have hp1 : s1.pos = writeDataAt c s cnt := hadv.pos
  have hk1 : s1.stackReads = (writeCmdAt c s cnt).1 + 1 := by rw [hadv.stackReads, hk]
  have hm1 : s1.mem = s.mem := hadv.mem.trans hm0
  by_cases hz : cmdValue c (writeCmdAt c s cnt).1 (writeCmdAt c s cnt).2 6 = 0
  · rw [hz] at hrun
    have hblk := writeBlocks_run c 256 n buf cnt s1 hn (by omega)
    have hwb : writeBlocks c 256 buf cnt s1 =
        ((writeBlocks c 256 buf cnt s1).1, (writeBlocks c 256 buf cnt s1).2) := rfl
    obtain ⟨hpos2, hk2, -, -, hbytes⟩ := hblk
    rw [hk1, hp1] at hpos2 hk2 hbytes
    rw [hm1] at hbytes
    unfold WriteContract WriteReported
    rw [hn]
    cases hj : readyAt c (writeEnd c ((writeCmdAt c s cnt).1 + 1) (writeDataAt c s cnt) (n + 1)).2
        (writeEnd c ((writeCmdAt c s cnt).1 + 1) (writeDataAt c s cnt) (n + 1)).1 with
    | none =>
      -- the wait for the stop token fails too, and the call reports an error
      have hbusy := sdSendBlock_busy c 0 0xfd (writeBlocks c 256 buf cnt s1).2
        (by rw [hk2, hpos2]; exact hj)
      refine iff_of_true (fun hret => ?_) fun hrep => ?_
      · rw [heq, bind_of hrun] at hret
        simp only [if_true] at hret
        rw [bind_of hwb, bind_of hbusy, bind_of (sdDisSel_run c _)] at hret
        have hne : ¬ ((1 : Byte) = 0) := by decide
        exact absurd hret hne
      · exact absurd hrep.2 (by simp)
    | some j =>
      obtain ⟨hle, -, -, -⟩ := find_some hj
      have hstop := sdSendBlock_stop c 0 (writeBlocks c 256 buf cnt s1).2
        (by rw [hk2, hpos2]; exact hj)
      have hout : sdWriteDisk c buf sector cnt s = (0, (((((writeBlocks c 256 buf cnt s1).2.readStack.idle
          (j + 1 - (writeBlocks c 256 buf cnt s1).2.pos)).send [0xfd]).idle 1).withPins true
          (c.miso (((writeBlocks c 256 buf cnt s1).2.readStack.idle
            (j + 1 - (writeBlocks c 256 buf cnt s1).2.pos)).send [0xfd]).pos))) := by
        rw [heq, bind_of hrun]
        simp only [if_true]
        rw [bind_of hwb, bind_of hstop, bind_of (sdDisSel_run c _)]
        rfl
      have hpre : (writeBlocks c 256 buf cnt s1).2.sent <+: (sdWriteDisk c buf sector cnt s).2.sent := by
        rw [hout]
        simp only [withPins_sent, idle_sent, send_sent, readStack_sent, List.append_assoc]
        exact prefix_append rfl
      simp only [hz, true_and, Option.isSome_some, true_implies, h1, if_false]
      constructor
      · intro hc
        obtain ⟨b, hb⟩ := hc (by rw [hout])
        have hidle : IdleBus (sdWriteDisk c buf sector cnt s).2.sent
            (writeBlocks c 256 buf cnt s1).2.pos ((writeBlocks c 256 buf cnt s1).2.pos +
              (j + 1 - (writeBlocks c 256 buf cnt s1).2.pos)) := by
          rw [hout]
          refine (idle_after (writeBlocks c 256 buf cnt s1).2 _).extend ?_
          simp only [withPins_sent, idle_sent, send_sent, readStack_sent, List.append_assoc]
          exact ⟨_, List.append_assoc _ _ _⟩
        have hlen1 : ((writeBlocks c 256 buf cnt s1).2.idle
            (j + 1 - (writeBlocks c 256 buf cnt s1).2.pos)).sent.length = j + 1 := by
          change ((writeBlocks c 256 buf cnt s1).2.idle _).pos = j + 1
          rw [idle_pos, hpos2]
          omega
        rw [hpos2, Nat.add_sub_cancel' (by omega)] at hidle
        refine blockAt_of_sentAccepted (e := j + 1) (hbytes.extend hpre) (by omega) hidle ?_ hb
        rw [hout]
        refine getElem?_extend (a := ((writeBlocks c 256 buf cnt s1).2.idle
          (j + 1 - (writeBlocks c 256 buf cnt s1).2.pos)).sent ++ [0xfd]) (prefix_append rfl) ?_
        rw [List.getElem?_append_right (by omega), hlen1, Nat.sub_self]
        rfl
      · intro hall _
        exact sentAccepted_of_bytes (hbytes.extend hpre) hall
  · refine iff_of_true (fun hret => ?_) fun hrep => absurd hrep.1 hz
    rw [heq, bind_of hrun] at hret
    simp only [hz, if_false] at hret
    exact absurd hret hz

theorem sdWriteDisk_contract_iff (c : Card) (s : State) (buf : ℕ) (sector : Word) (cnt : Byte)
    (hcnt : 1 ≤ cnt.toNat ∧ cnt.toNat ≤ 128) :
    WriteContract c s buf sector cnt ↔ WriteHolds c s cnt := by
  by_cases h1 : cnt = 1
  · subst h1
    exact iff_of_true (sdWriteDisk_single c s buf sector) (Or.inl rfl)
  · have h0 : cnt ≠ 0 := by
      rintro rfl
      exact absurd hcnt.1 (by decide)
    rw [sdWriteDisk_multi c s buf sector cnt h1 h0]
    simp only [WriteHolds, h1, false_or]

/- A ready card that accepts CMD55, CMD23 and CMD25 (bytes 8, 17 and 26) and refuses the
first of two blocks: its data response, byte 543, is `0xff`. -/
def refusingCard : Card where
  miso n := if n = 8 ∨ n = 17 ∨ n = 26 then 0 else 0xff
  stack _ := 0

theorem sdWriteDisk_contract_iff_refusing :
    (1 ≤ (2 : Byte).toNat ∧ (2 : Byte).toNat ≤ 128) ∧
      (WriteContract refusingCard powerUp 0 0 2 ↔ WriteHolds refusingCard powerUp 2) :=
  ⟨by decide, sdWriteDisk_contract_iff refusingCard powerUp 0 0 2 (by decide)⟩

theorem refusingCard_reported : WriteReported refusingCard powerUp 2 :=
  ⟨by decide +kernel, by decide +kernel⟩

theorem refusingCard_block : blockAt refusingCard ((writeCmdAt refusingCard powerUp 2).1 + 1)
    (writeDataAt refusingCard powerUp 2) 0 = none := by
  decide +kernel

/- The refusal is lost behind the stop token. -/
theorem sdWriteDisk_refusingCard : ¬ WriteContract refusingCard powerUp 0 0 2 := fun h => by
  have hall := (sdWriteDisk_multi refusingCard powerUp 0 0 2 (by decide) (by decide)).mp h
    refusingCard_reported 0 (by decide)
  rw [refusingCard_block] at hall
  cases hall

/-- FatFs sees success exactly when `SD_WriteDisk` returned 0. -/
theorem diskWrite_ok (c : Card) (s : State) (buff : ℕ) (sector count : Word) (h : count ≠ 0) :
    (diskWrite c SD_CARD buff sector count s).1 = .RES_OK ↔
      (sdWriteDisk c buff sector (count.setWidth 8) s).1 = 0 := by
  have hrun : sdWriteDisk c buff sector (count.setWidth 8) s =
      ((sdWriteDisk c buff sector (count.setWidth 8) s).1,
        (sdWriteDisk c buff sector (count.setWidth 8) s).2) := rfl
  unfold diskWrite
  simp only [h, if_false, if_true]
  rw [bind_of hrun, pure_run]
  by_cases hz : (sdWriteDisk c buff sector (count.setWidth 8) s).1 = 0
  · simp only [hz, if_true]
  · simp only [hz, if_false, reduceCtorEq]

end MultiEmbedded.Sd
