import MultiEmbedded.Enc.Init

/-!
# Receiving frames

`enc28j60PacketReceive` takes the oldest unread frame off the chain, whatever arrives
before any of its commands, and leaves NextPacketPtr at the one behind it.
-/

namespace MultiEmbedded.Enc
open Prog RingCells

variable {env : Env} {Hang : Prop} {m k r i : ℕ} {fs : List Frame} {next : Word} {s : Sys}

/- What a call with a frame pending gives: the return value and the bytes stored. -/
def answer (maxlen : Word) (f : Frame) : Word × List Byte :=
  if f.status &&& 0x80 = 0 then (0, [])
  else
    let n := min (f.data.length - 4) (maxlen.toNat - 1)
    (BitVec.ofNat 32 n, f.data.take n ++ [0])

theorem field_toNat (low high : Byte) :
    (low.setWidth 32 ||| high.setWidth 32 <<< 8 : Word).toNat = low.toNat + 256 * high.toNat := by
  have hl := low.isLt
  have hh := high.isLt
  have h1 : (low.setWidth 32 : Word).toNat = low.toNat := by
    rw [BitVec.toNat_setWidth]
    omega
  have h2 : (high.setWidth 32 <<< 8 : Word).toNat = high.toNat <<< 8 := by
    rw [BitVec.toNat_shiftLeft, BitVec.toNat_setWidth, Nat.mod_eq_of_lt (by omega : high.toNat < 2 ^ 32)]
    exact Nat.mod_eq_of_lt (by rw [Nat.shiftLeft_eq]; omega)
  rw [BitVec.toNat_or, h1, h2, Nat.or_comm, ← Nat.shiftLeft_add_eq_or_of_lt hl, Nat.shiftLeft_eq]
  omega

theorem field_ofNat {n : ℕ} (hn : n < 65536) :
    ((BitVec.ofNat 8 n).setWidth 32 ||| (BitVec.ofNat 8 (n / 256)).setWidth 32 <<< 8 : Word).toNat =
      n := by
  rw [field_toNat, BitVec.toNat_ofNat, BitVec.toNat_ofNat]
  omega

theorem field_half (h : Half) :
    (h.setWidth 8 : Byte).setWidth 32 ||| ((h >>> 8).setWidth 8 : Byte).setWidth 32 <<< 8 =
      (h.setWidth 32 : Word) := by
  refine BitVec.eq_of_toNat_eq ?_
  have hlt := h.isLt
  rw [field_toNat, BitVec.toNat_setWidth, BitVec.toNat_setWidth, BitVec.toNat_setWidth,
    BitVec.toNat_ushiftRight, Nat.shiftRight_eq_div_pow]
  omega

/-! ### The parts of a call -/

theorem pointer_bytes (w : Word) (hw : w.toNat < RXSIZE) :
    (lowByte w).toNat + 256 * (highByte w).toNat = w.toNat := by
  have hsize : w.toNat < 6655 := hw
  unfold lowByte highByte
  rw [BitVec.toNat_setWidth, BitVec.toNat_setWidth, BitVec.toNat_ushiftRight,
    Nat.shiftRight_eq_div_pow]
  omega

/- A byte of NextPacketPtr is written to a register. -/
theorem writeNext_does {α : Type} {P : Sys → Prop} {Q : α → Sys → Prop} {rest : Drv α}
    (hP : Unbanked env P) {address : Byte} {f : Word → Byte} (hs : P s) (hc : s.core.Coherent)
    (hn : s.core.NextPacketPtr = next) (hrest : ∀ t, Banked address t.core → P t →
      Does env Hang Q rest (t.put address fun _ => f next)) :
    Does env Hang Q (do
      enc28j60Write address (f (← perform Op.loadNext))
      rest) s := by
  have hload : (chip env .loadNext s).1 = next := by
    change (s.tick env).core.NextPacketPtr = _
    rw [tick_core, hn]
  refine (wp_perform _ _ _).mpr ⟨trivial, ?_⟩
  rw [hload]
  refine (wp_bind _ _ _).mpr (write_does hP (hP.tick s hs) ?_ hrest)
  change (s.tick env).core.Coherent
  rw [tick_core]
  exact hc

/- ERDPT is set to the start of the oldest frame. -/
theorem seek_does {α : Type} {Q : α → Sys → Prop} {rest : Drv α} (hq : Queue m k fs s)
    (hc : s.core.Coherent) (hr : s.core.rxrd = r) (hn : s.core.NextPacketPtr = next)
    (hnr : next.toNat = r)
    (hrest : ∀ t, Head m k fs r 0 next t → Does env Hang Q rest t) :
    Does env Hang Q (do
      enc28j60Write ERDPTL (lowByte (← perform Op.loadNext))
      enc28j60Write ERDPTH (highByte (← perform Op.loadNext))
      rest) s := by
  have hlt : r < RXSIZE := hr ▸ hq.start
  have hP1 := (Queue.unbanked env m k fs).and (unbanked_of env
    (fun c => c.rxrd = r ∧ c.NextPacketPtr = next)
    fun c c' _ hr hn h => ⟨hr.trans h.1, hn.trans h.2⟩)
  have hP2 := (Queue.unbanked env m k fs).and (unbanked_of env
    (fun c => c.rxrd = r ∧ c.NextPacketPtr = next ∧ c.regs 0 = lowByte next)
    fun c c' hreg hr hn h => ⟨hr.trans h.1, hn.trans h.2.1, (hreg 0 (by decide)).trans h.2.2⟩)
  refine writeNext_does hP1 ⟨hq, hr, hn⟩ hc hn fun t hb ht => ?_
  rw [hb.put (by decide)]
  refine writeNext_does hP2 ⟨ht.1.setReg 0 _, ht.2.1, ht.2.2, setReg_same t 0 _⟩
    (setReg_coherent hb.1 (by decide) _) ht.2.2 fun u hb' hu => ?_
  rw [hb'.put (by decide)]
  refine hrest _ ⟨hu.1.setReg 1 _, setReg_coherent hb'.1 (by decide) _, hu.2.1, ?_, hu.2.2.1⟩
  unfold pair
  rw [setReg_other u (by decide), hu.2.2.2]
  change _ + 256 * ((u.setReg 1 (highByte next)).core.regs 1).toNat = _
  rw [setReg_same, pointer_bytes next (hnr ▸ hlt), hnr, slot_zero hlt]

theorem put_pktdec (t : Sys) : t.put ECON2 (fun v => v ||| ECON2_PKTDEC) = { t with
    core := { t.core with
      regs := Function.update t.core.regs 0x1e
        ((t.core.regs 0x1e ||| ECON2_PKTDEC) &&& ~~~ECON2_PKTDEC) }
    unread := t.unread - 1 } := by
  have hi : t.core.index ECON2 = 0x1e := rfl
  have hbit : ∀ v : Byte, (v ||| ECON2_PKTDEC) &&& ECON2_PKTDEC ≠ 0 := by decide +kernel
  unfold Sys.put Core.put
  simp only [hi, hbit, Nat.reduceEqDiff, or_self, ne_eq, not_false_eq_true, and_self, if_false,
    if_true]

/- The frame's room goes back to the receiver while EPKTCNT still counts it. -/
theorem Queue.limit {f : Frame} {t : Sys} (h : Queue m 0 fs t) (hf : fs[m]? = some f)
    (hb : Banked ERXRDPTH t.core) {data : Byte}
    (hp : (t.core.regs 0x0c).toNat + 256 * data.toNat = slot RXSIZE t.core.rxrd f.size) :
    Queue (m + 1) 1 fs (t.put ERXRDPTH fun _ => data) := by
  have hsize := (h.stored hf).1
  have hstart := h.start
  have hchain := h.chain
  have hroom := h.room
  have hcount := h.count
  have hm : m < t.received.length :=
    Nat.lt_of_lt_of_le (List.getElem?_eq_some_iff.mp hf).1 h.known.length_le
  rw [h.head hf] at hchain hroom hcount
  rw [total_cons] at hroom
  rw [List.length_cons] at hcount
  rw [hb.put_limit, hp]
  refine ⟨h.known, hm, slot_lt hstart (Nat.le_of_lt hsize), hchain.2, ?_, ?_, h.few⟩
  · change total Frame.size (t.received.drop (m + 1)) < RXSIZE
    omega
  · change t.unread = (t.received.drop (m + 1)).length + 1
    omega

theorem Queue.decrement {t : Sys} (h : Queue m 1 fs t) :
    Queue m 0 fs (t.put ECON2 fun v => v ||| ECON2_PKTDEC) := by
  have hcount := h.count
  have hfew := h.few
  rw [put_pktdec]
  refine ⟨h.known, h.taken, h.start, h.chain, h.room, ?_, ?_⟩
  · change t.unread - 1 = (t.received.drop m).length + 0
    omega
  · change t.unread - 1 ≤ 255
    omega

/- ERXRDPT moves on to the next frame, and PKTDEC takes the old one off the count. -/
theorem release_does {α : Type} {Q : α → Sys → Prop} {rest : Drv α} {f : Frame}
    (hq : Queue m 0 fs s) (hf : fs[m]? = some f) (hc : s.core.Coherent) (hr : s.core.rxrd = r)
    (hn : s.core.NextPacketPtr = next) (hnr : next.toNat = slot RXSIZE r f.size)
    (hrest : ∀ t, Queue (m + 1) 0 fs t → Ready (m + 1) t → t.core.rxrd = slot RXSIZE r f.size →
      Does env Hang Q rest t) :
    Does env Hang Q (do
      enc28j60Write ERXRDPTL (lowByte (← perform Op.loadNext))
      enc28j60Write ERXRDPTH (highByte (← perform Op.loadNext))
      enc28j60WriteOp ENC28J60_BIT_FIELD_SET ECON2 ECON2_PKTDEC
      rest) s := by
  have hlt : r < RXSIZE := hr ▸ hq.start
  have hsize := (hq.stored hf).1
  have hnext : next.toNat < RXSIZE := hnr ▸ slot_lt hlt (Nat.le_of_lt hsize)
  have hP1 := (Queue.unbanked env m 0 fs).and (unbanked_of env
    (fun c => c.rxrd = r ∧ c.NextPacketPtr = next)
    fun c c' _ hr hn h => ⟨hr.trans h.1, hn.trans h.2⟩)
  have hP2 := (Queue.unbanked env m 0 fs).and (unbanked_of env
    (fun c => c.rxrd = r ∧ c.NextPacketPtr = next ∧ c.regs 0x0c = lowByte next)
    fun c c' hreg hr hn h => ⟨hr.trans h.1, hn.trans h.2.1, (hreg 0x0c (by decide)).trans h.2.2⟩)
  refine writeNext_does hP1 ⟨hq, hr, hn⟩ hc hn fun t hb ht => ?_
  rw [hb.put (by decide)]
  refine writeNext_does hP2 ⟨ht.1.setReg 0x0c _, ht.2.1, ht.2.2, setReg_same t 0x0c _⟩
    (setReg_coherent hb.1 (by decide) _) ht.2.2 fun u hb' hu => ?_
  -- the write of the high byte gives the frame's room back to the receiver
  have hq' : Queue (m + 1) 1 fs (u.put ERXRDPTH fun _ => highByte next) := by
    refine hu.1.limit hf hb' ?_
    rw [hu.2.2.2, pointer_bytes next hnext, hnr, hu.2.1]
  have hc' : (u.put ERXRDPTH fun _ => highByte next).core.Coherent ∧
      (u.put ERXRDPTH fun _ => highByte next).core.rxrd = next.toNat := by
    rw [hb'.put_limit]
    refine ⟨(setReg_coherent hb'.1 (i := 0x0d) (by decide) (highByte next)).congr rfl rfl, ?_⟩
    change (u.core.regs 0x0c).toNat + 256 * (highByte next).toNat = _
    rw [hu.2.2.2, pointer_bytes next hnext]
  have hn' : (u.put ERXRDPTH fun _ => highByte next).core.NextPacketPtr = next := hu.2.2.1
  generalize u.put ERXRDPTH (fun _ => highByte next) = w at hq' hc' hn' ⊢
  refine (wp_bind _ _ _).mpr (set_op ?_)
  have hq'' := (hq'.tick env).decrement
  refine hrest _ hq'' ⟨hq''.known_all, ?_, ?_⟩ ?_
  · refine Core.Coherent.congr (c := (w.tick env).core) ?_ ?_ rfl
    · rw [tick_core]
      exact hc'.1
    · have hi : 0x1f ≠ (w.tick env).core.index ECON2 := (by decide : (0x1f : ℕ) ≠ 0x1e)
      exact put_regs (f := fun v => v ||| ECON2_PKTDEC) hi
  · rw [put_pktdec]
    change (w.tick env).core.NextPacketPtr.toNat = (w.tick env).core.rxrd
    rw [tick_core, hn', hc'.2]
  · rw [put_pktdec]
    change (w.tick env).core.rxrd = _
    rw [tick_core, hc'.2, hnr]

theorem Head.readField {f : Frame} (h : Head m k fs r i next s) (hf : fs[m]? = some f)
    (hi : i + 1 < 6 + f.data.length) :
    Does env Hang (fun w t => Head m k fs r (i + 2) next t ∧ ∃ low high,
      (f.bytes (slot RXSIZE r f.size))[i]? = some low ∧
      (f.bytes (slot RXSIZE r f.size))[i + 1]? = some high ∧
      w = low.setWidth 32 ||| high.setWidth 32 <<< 8) readField s := by
  unfold Enc.readField
  refine (wp_bind _ _ _).mpr (wp_mono (h.readOp hf (by omega)) fun low t ht => ?_)
  refine (wp_bind _ _ _).mpr (wp_mono (ht.2.readOp hf hi) fun high u hu => ?_)
  exact ⟨hu.2, low, high, ht.1, hu.1, rfl⟩

theorem Head.storeNext (h : Head m k fs r i next s) (env : Env) (w : Word) :
    Head m k fs r i w (chip env (.storeNext w) s).2 := by
  have ht : Head m k fs r i next (s.tick env) := h.tick
  exact ⟨⟨ht.queue.known, ht.queue.taken, ht.queue.start, ht.queue.chain, ht.queue.room,
    ht.queue.count, ht.queue.few⟩, ht.coherent.congr rfl rfl, ht.rxrd, ht.erdpt, rfl⟩

/- The driver follows the link of the frame. -/
theorem follow_does {α : Type} {Q : α → Sys → Prop} {rest : Drv α} {f : Frame}
    (h : Head m k fs r 0 next s) (hf : fs[m]? = some f)
    (hrest : ∀ w t, w.toNat = slot RXSIZE r f.size → Head m k fs r 2 w t →
      Does env Hang Q rest t) :
    Does env Hang Q (do
      perform (Op.storeNext ((← enc28j60ReadOp ENC28J60_READ_BUF_MEM 0).setWidth 32))
      let high ← enc28j60ReadOp ENC28J60_READ_BUF_MEM 0
      perform (Op.storeNext ((← perform Op.loadNext) ||| high.setWidth 32 <<< 8))
      rest) s := by
  have hlt : slot RXSIZE r f.size < 65536 := by
    have hslot := slot_lt (h.rxrd ▸ h.queue.start) (Nat.le_of_lt (h.queue.stored hf).1)
    exact hslot.trans (by decide)
  refine (wp_bind _ _ _).mpr (wp_mono (h.readOp hf (by omega)) fun low t ht => ?_)
  refine (wp_perform _ _ _).mpr ⟨trivial, ?_⟩
  have hlow := ht.2.storeNext env (low.setWidth 32)
  refine (wp_bind _ _ _).mpr (wp_mono (hlow.readOp hf (by omega)) fun high u hu => ?_)
  refine (wp_perform _ _ _).mpr ⟨trivial, (wp_perform _ _ _).mpr ⟨trivial, ?_⟩⟩
  have hload : (chip env .loadNext u).1 = low.setWidth 32 := by
    change (u.tick env).core.NextPacketPtr = _
    exact hu.2.tick.next
  rw [hload]
  refine hrest _ _ ?_ (hu.2.tick.storeNext env _)
  obtain rfl : BitVec.ofNat 8 (slot RXSIZE r f.size) = low := Option.some.inj ht.1
  obtain rfl : BitVec.ofNat 8 (slot RXSIZE r f.size / 256) = high := Option.some.inj hu.1
  exact field_ofNat hlt

/- The length of the data to be read: without the CRC, and within the caller's limit. -/
theorem length_limit {maxlen len : Word} (hmax : 1 ≤ maxlen.toNat) (hlen : 4 ≤ len.toNat) :
    (if len - 4 > maxlen - 1 then maxlen - 1 else len - 4).toNat =
      min (len.toNat - 4) (maxlen.toNat - 1) := by
  have h1 : (maxlen - 1).toNat = maxlen.toNat - 1 := BitVec.toNat_sub_of_le (BitVec.le_def.mpr hmax)
  have h2 : (len - 4).toNat = len.toNat - 4 := BitVec.toNat_sub_of_le (BitVec.le_def.mpr hlen)
  by_cases h : len - 4 > maxlen - 1
  · have hlt : (maxlen - 1).toNat < (len - 4).toNat := BitVec.lt_def.mp h
    rw [if_pos h, h1]
    omega
  · have hle : (len - 4).toNat ≤ (maxlen - 1).toNat := Nat.le_of_not_lt fun hlt => h (BitVec.lt_def.mpr hlt)
    rw [if_neg h, h2]
    omega

theorem status_ok (h : Half) : (h.setWidth 32 : Word) &&& 0x80 = 0 ↔ h &&& 0x80 = 0 := by
  have hand : (h.setWidth 32 : Word) &&& 0x80 = (h &&& 0x80).setWidth 32 := by
    rw [BitVec.setWidth_and]
    rfl
  rw [hand]
  constructor
  · intro hz
    have hn := congrArg BitVec.toNat hz
    rw [BitVec.toNat_setWidth, Nat.mod_eq_of_lt (by have := (h &&& 0x80).isLt; omega)] at hn
    exact BitVec.eq_of_toNat_eq hn
  · intro hz
    rw [hz]
    rfl

/- The data go to the caller, or nothing if the frame was not received well. -/
theorem Head.deliver {f : Frame} (h : Head m k fs r 6 next s) (hf : fs[m]? = some f)
    {maxlen : Word} (hmax : 1 ≤ maxlen.toNat) {len : Word} (hlen : len.toNat = f.data.length) :
    Does env Hang (fun x t => x = answer maxlen f ∧ ∃ i, Head m k fs r i next t)
      (if (f.status.setWidth 32 : Word) &&& 0x80 = 0 then pure (0, [])
      else Prod.mk (if len - 4 > maxlen - 1 then maxlen - 1 else len - 4) <$>
        enc28j60ReadBuffer (if len - 4 > maxlen - 1 then maxlen - 1 else len - 4)) s := by
  have hcrc := f.crc
  have hlimit := length_limit hmax (hlen ▸ hcrc : 4 ≤ len.toNat)
  rw [hlen] at hlimit
  generalize (if len - 4 > maxlen - 1 then maxlen - 1 else len - 4) = n at hlimit ⊢
  unfold answer
  by_cases hok : f.status &&& 0x80 = 0
  · rw [if_pos hok, if_pos ((status_ok f.status).mpr hok)]
    exact ⟨rfl, 6, h⟩
  · rw [if_neg hok, if_neg fun hz => hok ((status_ok f.status).mp hz)]
    obtain ⟨hdata, hhead⟩ := h.tick.readMem hf (n := n.toNat) (by omega)
    refine ⟨trivial, ?_, 6 + n.toNat, hhead⟩
    change (n, ((s.tick env).readMem n.toNat).1 ++ [0]) = _
    rw [hdata, ← hlimit]
    change (n, f.data.take n.toNat ++ [0]) = (BitVec.ofNat 32 n.toNat, f.data.take n.toNat ++ [0])
    rw [BitVec.ofNat_toNat, BitVec.setWidth_eq]

/- The chip when EPKTCNT has been read. -/
def counted (env : Env) (s : Sys) : Sys := (run (chip env) (enc28j60Read EPKTCNT) s).2

/- One call when `m` frames have been taken: `before` came in up to the read of EPKTCNT, `after`
behind it. With nothing there the call returns 0. Otherwise the oldest frame goes: EPKTCNT counts
one less, and ERXRDPT is the start of the following frame. -/
inductive ReceiveStep (maxlen : Word) (m : ℕ) (s : Sys) (before after : List Frame) (t : Sys) :
    Word × List Byte → ℕ → Prop
  | empty : s.unread = 0 → before = [] → t.unread = after.length → t.core.rxrd = s.core.rxrd →
      ReceiveStep maxlen m s before after t (0, []) m
  | take {f : Frame} : (s.received ++ before)[m]? = some f →
      t.unread + 1 = s.unread + before.length + after.length →
      t.core.rxrd = slot RXSIZE s.core.rxrd f.size →
      ReceiveStep maxlen m s before after t (answer maxlen f) (m + 1)

theorem Ready.unread (h : Ready m s) : s.unread + m = s.received.length := by
  have hcount := h.queue.count
  have htaken := h.queue.taken
  rw [List.length_drop] at hcount
  omega

/- A frame unread when the call is made is the one that goes. -/
theorem ReceiveStep.pending {maxlen : Word} {before after : List Frame} {t : Sys} {result : Word × List Byte}
    {m' : ℕ} {f : Frame} (h : ReceiveStep maxlen m s before after t result m') (hready : Ready m s)
    (hf : s.received[m]? = some f) : result = answer maxlen f ∧ m' = m + 1 := by
  have hm := (List.getElem?_eq_some_iff.mp hf).1
  cases h with
  | empty hunread =>
    have hlen := hready.unread
    omega
  | take hf' =>
    rw [List.getElem?_append_left hm, hf] at hf'
    rw [Option.some.inj hf']
    exact ⟨rfl, rfl⟩

theorem packetReceive_does (h : Ready m s) {maxlen : Word} (hmax : 1 ≤ maxlen.toNat) :
    Does env Hang (fun x t => ∃ before after m', (counted env s).received = s.received ++ before ∧
      t.received = (counted env s).received ++ after ∧ ReceiveStep maxlen m s before after t x m' ∧ Ready m' t)
      (enc28j60PacketReceive maxlen) s := by
  unfold enc28j60PacketReceive
  have hP := (Queue.unbanked env m 0 s.received).and (unbanked_of env
    (fun c => c.rxrd = s.core.rxrd ∧ c.NextPacketPtr = s.core.NextPacketPtr)
    fun c c' _ hr hn h => ⟨hr.trans h.1, hn.trans h.2⟩)
  refine (wp_bind _ _ _).mpr (wp_mono (wp_run (read_does hP ⟨h.queue, rfl, rfl⟩ fun _ => h.coherent))
    fun count t ht => ?_)
  obtain ⟨hrun, hb, ⟨hq, hr, hn⟩, hcount⟩ := ht
  have ht : counted env s = t := by
    unfold counted
    rw [hrun]
  obtain ⟨before, hbefore⟩ := hq.known
  have hunread : count.toNat = t.unread := by
    rw [hcount rfl, BitVec.toNat_ofNat]
    exact Nat.mod_eq_of_lt (Nat.lt_succ_of_le hq.few)
  have hready : Ready m t := ⟨hq.known_all, hb.1, by rw [hn, hr]; exact h.next⟩
  have hs := h.unread
  have hts := hready.unread
  have hlen : t.received.length = s.received.length + before.length := by
    rw [← hbefore, List.length_append]
  rw [ht]
  by_cases hz : count = 0
  · -- nothing had arrived when EPKTCNT was read
    have h0 : t.unread = 0 := by rw [← hunread, hz]; rfl
    rw [if_pos hz]
    refine ⟨before, [], m, hbefore.symm, (List.append_nil _).symm, ?_, hready⟩
    exact .empty (by omega) (List.length_eq_zero_iff.mp (by omega)) h0 hr
  · have hpos : 0 < t.unread := Nat.pos_of_ne_zero fun h0 => hz (BitVec.eq_of_toNat_eq (hunread.trans h0))
    obtain ⟨f, hf⟩ : ∃ f, t.received[m]? = some f :=
      ⟨_, List.getElem?_eq_getElem (by omega : m < t.received.length)⟩
    rw [if_neg hz]
    refine seek_does hq.known_all hb.1 hr hn h.next fun u hu => ?_
    refine follow_does hu hf fun w v hw hv => ?_
    have hsize := (hv.queue.stored hf).1
    have hdata : f.data.length < 65536 := by
      have hle : f.data.length ≤ f.size := by unfold Frame.size; omega
      exact (Nat.lt_of_le_of_lt hle hsize).trans (by decide)
    refine (wp_bind _ _ _).mpr (wp_mono (hv.readField hf (by have := f.crc; omega)) fun len v' hv' => ?_)
    obtain ⟨hv', low, high, hlow, hhigh, rfl⟩ := hv'
    obtain rfl : BitVec.ofNat 8 f.data.length = low := Option.some.inj hlow
    obtain rfl : BitVec.ofNat 8 (f.data.length / 256) = high := Option.some.inj hhigh
    refine (wp_bind _ _ _).mpr (wp_mono (hv'.readField hf (by have := f.crc; omega)) fun stat x hx => ?_)
    obtain ⟨hx, low, high, hlow, hhigh, rfl⟩ := hx
    obtain rfl : f.status.setWidth 8 = low := Option.some.inj hlow
    obtain rfl : (f.status >>> 8).setWidth 8 = high := Option.some.inj hhigh
    rw [field_half]
    refine (wp_bind _ _ _).mpr (wp_mono (hx.deliver hf hmax (field_ofNat hdata)) fun result y hy => ?_)
    obtain ⟨rfl, i, hy⟩ := hy
    refine release_does hy.queue hf hy.coherent hy.rxrd hy.next hw fun z hz hready' hrxrd => ?_
    obtain ⟨after, hafter⟩ := hz.known
    have hzlen : z.received.length = t.received.length + after.length := by
      rw [← hafter, List.length_append]
    have hzs := hready'.unread
    refine ⟨before, after, m + 1, hbefore.symm, hafter.symm, ?_, hready'⟩
    rw [← hbefore] at hf
    exact .take hf (by omega) hrxrd

/-! ### A silent line -/

def KeepsReceived : Op → Prop
  | .writeOp op address _ => op ||| (address &&& ADDR_MASK) ≠ ENC28J60_SOFT_RESET
  | _ => True

theorem writeMem_received (data : List Byte) (s : Sys) :
    (data.foldl Sys.writeMem s).received = s.received := by
  induction data generalizing s with
  | nil => rfl
  | cons b data ih => exact ih (s.writeMem b)

theorem silent_step (henv : ∀ n, env.events n = []) (o : Op) (ho : KeepsReceived o) (s : Sys) :
    (chip env o s).2.received = s.received := by
  have ht : (s.tick env).received = s.received := by
    unfold Sys.tick
    rw [henv]
    rfl
  rw [← ht]
  cases o with
  | readOp op address =>
    change (Sys.answer env _ _ _).2.received = _
    unfold Sys.answer
    split_ifs <;> rfl
  | writeOp op address data =>
    change (Sys.command env _ _ _ _).received = _
    unfold Sys.command
    rw [if_neg ho]
    split_ifs <;> rfl
  | readBuffer len => rfl
  | writeBuffer data => exact writeMem_received data _
  | csHigh => rfl
  | loadBank => rfl
  | storeBank bank => rfl
  | loadNext => rfl
  | storeNext next => rfl

/- The commands of `enc28j60SetBank`. -/
def SelectsBank : Op → Prop
  | .loadBank => True
  | .storeBank _ => True
  | .writeOp op address data => (op = ENC28J60_BIT_FIELD_CLR ∧ address = ECON1 ∧ data = ECON1_BSEL1 ||| ECON1_BSEL0) ∨
      (op = ENC28J60_BIT_FIELD_SET ∧ address = ECON1 ∧ ∃ a : Byte, data = (a &&& BANK_MASK) >>> 5)
  | _ => False

theorem reselect_selects (address : Byte) : Only SelectsBank Hang (reselect address) := by
  have hclear : SelectsBank (.writeOp ENC28J60_BIT_FIELD_CLR ECON1 (ECON1_BSEL1 ||| ECON1_BSEL0)) :=
    Or.inl ⟨rfl, rfl, rfl⟩
  have hset : SelectsBank (.writeOp ENC28J60_BIT_FIELD_SET ECON1 ((address &&& BANK_MASK) >>> 5)) :=
    Or.inr ⟨rfl, rfl, address, rfl⟩
  unfold reselect
  refine (Only.perform hclear).bind fun _ => ?_
  exact (Only.perform hset).bind fun _ => Only.perform trivial

theorem setBank_selects (address : Byte) : Only SelectsBank Hang (enc28j60SetBank address) := by
  unfold enc28j60SetBank
  refine (Only.perform trivial).bind fun bank => ?_
  by_cases hb : address &&& BANK_MASK ≠ bank
  · rw [if_pos hb]
    exact reselect_selects address
  · rw [if_neg hb]
    exact Only.pure ()

/- The operations of `enc28j60PacketReceive`. -/
def Receives : Op → Prop
  | .readOp op address => op = ENC28J60_READ_CTRL_REG ∧ address = EPKTCNT ∨ op = ENC28J60_READ_BUF_MEM ∧ address = 0
  | .writeOp op address data => SelectsBank (.writeOp op address data) ∨ op = ENC28J60_WRITE_CTRL_REG ∨
      op = ENC28J60_BIT_FIELD_SET ∧ address = ECON2
  | .writeBuffer _ | .csHigh => False
  | _ => True

theorem selects_receives {o : Op} (ho : SelectsBank o) : Receives o := by
  cases o with
  | readOp op address => exact ho.elim
  | writeOp op address data => exact Or.inl ho
  | writeBuffer data => exact ho.elim
  | csHigh => exact ho.elim
  | readBuffer len => trivial
  | loadBank => trivial
  | storeBank bank => trivial
  | loadNext => trivial
  | storeNext next => trivial

theorem write_receives (address data : Byte) : Only Receives Hang (enc28j60Write address data) :=
  ((setBank_selects address).mono fun _ => selects_receives).bind fun _ => Only.perform (Or.inr (Or.inl rfl))

theorem readBuf_receives : Only Receives Hang (enc28j60ReadOp ENC28J60_READ_BUF_MEM 0) :=
  Only.perform (Or.inr ⟨rfl, rfl⟩)

theorem readField_receives : Only Receives Hang readField := by
  unfold readField
  refine readBuf_receives.bind fun _ => ?_
  exact readBuf_receives.bind fun _ => Only.pure _

theorem packetReceive_receives (maxlen : Word) : Only Receives Hang (enc28j60PacketReceive maxlen) := by
  have hcount : Only Receives Hang (enc28j60Read EPKTCNT) :=
    ((setBank_selects EPKTCNT).mono fun _ => selects_receives).bind fun _ => Only.perform (Or.inl ⟨rfl, rfl⟩)
  have hpkt : Receives (.writeOp ENC28J60_BIT_FIELD_SET ECON2 ECON2_PKTDEC) := Or.inr (Or.inr ⟨rfl, rfl⟩)
  unfold enc28j60PacketReceive
  refine hcount.bind fun count => ?_
  by_cases hz : count = 0
  · rw [if_pos hz]
    exact Only.pure _
  rw [if_neg hz]
  refine (Only.perform trivial).bind fun _ => (write_receives _ _).bind fun _ => ?_
  refine (Only.perform trivial).bind fun _ => (write_receives _ _).bind fun _ => ?_
  refine readBuf_receives.bind fun _ => (Only.perform trivial).bind fun _ => ?_
  refine readBuf_receives.bind fun _ => (Only.perform trivial).bind fun _ => ?_
  refine (Only.perform trivial).bind fun _ => readField_receives.bind fun len => ?_
  refine readField_receives.bind fun rxstat => ?_
  refine Only.bind (?_ : Only Receives Hang (ite _ _ _)) fun result => ?_
  · by_cases hs : rxstat &&& 0x80 = 0
    · rw [if_pos hs]
      exact Only.pure _
    · rw [if_neg hs]
      exact ⟨trivial, fun _ => trivial⟩
  refine (Only.perform trivial).bind fun _ => (write_receives _ _).bind fun _ => ?_
  refine (Only.perform trivial).bind fun _ => (write_receives _ _).bind fun _ => ?_
  exact (Only.perform hpkt).bind fun _ => Only.pure _

theorem receives_keeps {o : Op} (ho : Receives o) : KeepsReceived o := by
  cases o with
  | writeOp op address data =>
    have hcmd : ∀ a : Byte, ENC28J60_WRITE_CTRL_REG ||| (a &&& ADDR_MASK) ≠ ENC28J60_SOFT_RESET := by
      decide +kernel
    have hclr : ENC28J60_BIT_FIELD_CLR ||| (ECON1 &&& ADDR_MASK) ≠ ENC28J60_SOFT_RESET := by decide
    have hset : ENC28J60_BIT_FIELD_SET ||| (ECON1 &&& ADDR_MASK) ≠ ENC28J60_SOFT_RESET := by decide
    have hpkt : ENC28J60_BIT_FIELD_SET ||| (ECON2 &&& ADDR_MASK) ≠ ENC28J60_SOFT_RESET := by decide
    rcases ho with (⟨rfl, rfl, -⟩ | ⟨rfl, rfl, -⟩) | rfl | ⟨rfl, rfl⟩
    · exact hclr
    · exact hset
    · exact hcmd address
    · exact hpkt
  | _ => trivial

/-! ### Runs of calls against a plain queue -/

inductive QueueEvent
  | arrive (f : Frame)
  | call (maxlen : Word) (result : Word × List Byte)

/-- What the receive path is for: frames come in at the back, and each call takes the
front frame, or finds the queue empty. -/
inductive QueueRun : List Frame → List QueueEvent → List Frame → Prop
  | nil (q : List Frame) : QueueRun q [] q
  | arrive {q q' : List Frame} {f : Frame} {es : List QueueEvent} :
      QueueRun (q ++ [f]) es q' → QueueRun q (.arrive f :: es) q'
  | empty {q' : List Frame} {maxlen : Word} {es : List QueueEvent} :
      QueueRun [] es q' → QueueRun [] (.call maxlen (0, []) :: es) q'
  | take {q q' : List Frame} {f : Frame} {maxlen : Word} {es : List QueueEvent} :
      QueueRun q es q' → QueueRun (f :: q) (.call maxlen (answer maxlen f) :: es) q'

def arrivals : List QueueEvent → List Frame
  | [] => []
  | .arrive f :: es => f :: arrivals es
  | .call _ _ :: es => arrivals es

def calls : List QueueEvent → List (Word × (Word × List Byte))
  | [] => []
  | .arrive _ :: es => calls es
  | .call maxlen result :: es => (maxlen, result) :: calls es

theorem QueueRun.arriveAll {q q' new : List Frame} {es : List QueueEvent}
    (h : QueueRun (q ++ new) es q') : QueueRun q (new.map .arrive ++ es) q' := by
  induction new generalizing q with
  | nil =>
    rw [List.append_nil] at h
    exact h
  | cons f new ih =>
    refine .arrive (ih ?_)
    rw [List.append_assoc]
    exact h

theorem arrivals_arriveAll (new : List Frame) (es : List QueueEvent) :
    arrivals (new.map .arrive ++ es) = new ++ arrivals es := by
  induction new with
  | nil => rfl
  | cons f new ih => exact congrArg (f :: ·) ih

theorem calls_arriveAll (new : List Frame) (es : List QueueEvent) :
    calls (new.map .arrive ++ es) = calls es := by
  induction new with
  | nil => rfl
  | cons f new ih => exact ih

/- One call after another, each with its own limit. -/
def receiveAll : List Word → Drv (List (Word × List Byte))
  | [] => pure []
  | maxlen :: maxlens => do
    let result ← enc28j60PacketReceive maxlen
    let results ← receiveAll maxlens
    return result :: results

/- The calls made from `s` to `t`, each run on the chip as the one before it left it. What came in
up to the read of EPKTCNT stands before the call among the events, the rest behind it. -/
inductive Serves (env : Env) : ℕ → Sys → List QueueEvent → ℕ → Sys → Prop
  | nil {m : ℕ} {s : Sys} : Serves env m s [] m s
  | call {m m' m'' : ℕ} {s t u : Sys} {maxlen : Word} {result : Word × List Byte}
      {before after : List Frame} {es : List QueueEvent} : Ready m s →
      run (chip env) (enc28j60PacketReceive maxlen) s = (some result, t) →
      (counted env s).received = s.received ++ before →
      t.received = (counted env s).received ++ after →
      ReceiveStep maxlen m s before after t result m' → Serves env m' t es m'' u →
      Serves env m s (before.map .arrive ++ .call maxlen result :: (after.map .arrive ++ es)) m'' u

/- A call seen from the queue: it takes the front frame once `before` is in, or finds nothing. -/
theorem ReceiveStep.queueRun {maxlen : Word} {before after q' : List Frame} {t : Sys} {m' : ℕ}
    {result : Word × List Byte} {es : List QueueEvent} (h : ReceiveStep maxlen m s before after t result m')
    (hready : Ready m s) (hrec : t.received = s.received ++ before ++ after)
    (hrun : QueueRun (t.received.drop m') es q') :
    QueueRun (s.received.drop m)
      (before.map .arrive ++ .call maxlen result :: (after.map .arrive ++ es)) q' := by
  have hm := hready.queue.taken
  have hmb : m ≤ (s.received ++ before).length := by
    rw [List.length_append]
    exact Nat.le_add_right_of_le hm
  refine QueueRun.arriveAll ?_
  rw [← List.drop_append_of_le_length hm]
  rw [hrec] at hrun
  cases h with
  | empty hunread hbefore =>
    have hlen := hready.unread
    have hnil : (s.received ++ before).drop m = [] := by
      rw [hbefore, List.append_nil]
      exact List.drop_eq_nil_of_le (by omega)
    rw [List.drop_append_of_le_length hmb, hnil] at hrun
    rw [hnil]
    exact .empty (QueueRun.arriveAll hrun)
  | take hf =>
    obtain ⟨hlt, rfl⟩ := List.getElem?_eq_some_iff.mp hf
    rw [List.drop_append_of_le_length hlt] at hrun
    rw [List.drop_eq_getElem_cons hlt]
    exact .take (QueueRun.arriveAll hrun)

theorem Serves.queueRun {s t : Sys} {m m' : ℕ} {es : List QueueEvent} (h : Serves env m s es m' t) :
    QueueRun (s.received.drop m) es (t.received.drop m') := by
  induction h with
  | nil => exact .nil _
  | call hready _ hbefore hafter hcall _ ih =>
    refine hcall.queueRun hready ?_ ih
    rw [hafter, hbefore]

theorem Serves.received {s t : Sys} {m m' : ℕ} {es : List QueueEvent} (h : Serves env m s es m' t) :
    t.received = s.received ++ arrivals es := by
  induction h with
  | nil => exact (List.append_nil _).symm
  | call _ _ hbefore hafter _ _ ih =>
    rw [ih, hafter, hbefore, arrivals_arriveAll]
    change _ = _ ++ (_ ++ arrivals (_ ++ _))
    rw [arrivals_arriveAll, List.append_assoc, List.append_assoc]

theorem receiveAll_does (env : Env) {maxlens : List Word} (hmax : ∀ maxlen ∈ maxlens, 1 ≤ maxlen.toNat)
    (h : Ready m s) :
    Does env False (fun results t => ∃ m' events, Ready m' t ∧ Serves env m s events m' t ∧
      calls events = maxlens.zip results ∧ results.length = maxlens.length) (receiveAll maxlens) s := by
  induction maxlens generalizing m s with
  | nil => exact ⟨m, [], h, .nil, rfl, rfl⟩
  | cons maxlen maxlens ih =>
    obtain ⟨h1, h2⟩ := List.forall_mem_cons.mp hmax
    unfold receiveAll
    refine (wp_bind _ _ _).mpr (wp_mono (wp_run (packetReceive_does h h1)) fun result t ht => ?_)
    obtain ⟨hrun, before, after, m', hbefore, hafter, hcall, hready⟩ := ht
    refine (wp_bind _ _ _).mpr (wp_mono (ih h2 hready) fun results u hu => ?_)
    obtain ⟨m'', events, hr, hserves, hcalls, hlens⟩ := hu
    refine ⟨m'', _, hr, .call h hrun hbefore hafter hcall hserves, ?_, congrArg (· + 1) hlens⟩
    rw [calls_arriveAll]
    change _ :: calls (after.map .arrive ++ events) = _
    rw [calls_arriveAll, hcalls]
    rfl

/-- From `enc28j60Init` on the receive path is a queue, whatever arrives before any command: a
call made with a frame unread takes the oldest one off the chip and returns its data, EPKTCNT
counts one less and ERXRDPT moves to the following frame; NextPacketPtr, ERXRDPT and EPKTCNT
always describe exactly the frames still unread. -/
theorem receive_refines_queue (env : Env) (spin : ℕ) (macaddr : ℕ → Byte) {s s0 : Sys}
    (hinit : run (chip env) (enc28j60Init spin macaddr) s = (some (), s0)) (maxlens : List Word)
    (hmax : ∀ maxlen ∈ maxlens, 1 ≤ maxlen.toNat) :
    ∃ results t m events, run (chip env) (receiveAll maxlens) s0 = (some results, t) ∧
      Serves env 0 s0 events m t ∧ Ready m t ∧ QueueRun [] events (t.received.drop m) ∧
      t.received = arrivals events ∧ calls events = maxlens.zip results ∧
      results.length = maxlens.length := by
  obtain ⟨-, hq, -⟩ := (wp_iff _ _ _).mp (init_does env spin macaddr s)
  obtain ⟨hready, hnil⟩ := hq () s0 hinit
  obtain ⟨results, t, hrun, m, events, hr, hserves, hcalls, hlen⟩ :=
    wp_total (receiveAll_does env hmax hready)
  have hqueue := hserves.queueRun
  have hrec := hserves.received
  rw [hnil] at hqueue hrec
  exact ⟨results, t, m, events, hrun, hserves, hr, hqueue, hrec, hcalls, hlen⟩

/- A chip that is ready at once, with a frame on the wire before every command. -/
def promptEnv : Env where
  events _ := [.frame ⟨[1, 2, 3, 4, 5], 0x80, 1, by decide⟩]
  reading _ i v := if i = 0x1d then ESTAT_CLKRDY else v
  reset _ := 0

def poweredUp : Sys := ⟨⟨fun _ => 0, 0, 0, 0⟩, fun _ => 0, 0, 0, [], 0⟩

theorem receive_refines_queue_prompt :
    ∃ s0, run (chip promptEnv) (enc28j60Init 1 fun _ => 0) poweredUp = (some (), s0) ∧
      ∃ results t m events, run (chip promptEnv) (receiveAll [1500, 2]) s0 = (some results, t) ∧
        Serves promptEnv 0 s0 events m t ∧ Ready m t ∧ QueueRun [] events (t.received.drop m) ∧
        t.received = arrivals events ∧ calls events = [1500, 2].zip results ∧ results.length = 2 := by
  have hret : (run (chip promptEnv) (enc28j60Init 1 fun _ => 0) poweredUp).1 = some () := by
    decide +kernel
  have hmax : ∀ maxlen ∈ [(1500 : Word), 2], 1 ≤ maxlen.toNat := by
    intro maxlen hmem
    rcases List.mem_cons.mp hmem with rfl | hmem
    · decide
    · rw [List.mem_singleton.mp hmem]
      decide
  exact ⟨_, run_returns hret, receive_refines_queue promptEnv 1 (fun _ => 0) (run_returns hret)
    [1500, 2] hmax⟩

/- The same chip on a silent line. -/
def silentEnv : Env := { promptEnv with events := fun _ => [] }

def started : Sys := (run (chip silentEnv) (enc28j60Init 1 fun _ => 0) poweredUp).2

/- Frames that came in after the start. -/
def queued (fs : List Frame) : Sys := fs.foldl (fun s f => s.arrive (.frame f)) started

/- Every queue that fits can be pending. -/
theorem queued_ready (fs : List Frame) (hroom : total Frame.size fs < RXSIZE)
    (hfew : fs.length ≤ 255) : Ready 0 (queued fs) ∧ (queued fs).received = fs ∧
      (queued fs).core.regs 0x1f &&& ECON1_RXEN ≠ 0 := by
  induction fs using List.reverseRecOn with
  | nil =>
    have hret : (run (chip silentEnv) (enc28j60Init 1 fun _ => 0) poweredUp).1 = some () := by
      decide +kernel
    obtain ⟨hready, hnil⟩ :=
      ((wp_iff _ _ _).mp (init_does silentEnv 1 (fun _ => 0) poweredUp)).2.1 () _ (run_returns hret)
    have hstart : queued [] = started := rfl
    rw [hstart]
    unfold started
    exact ⟨hready, hnil, by decide +kernel⟩
  | append_singleton fs f ih =>
    rw [total_append, total_cons] at hroom
    rw [List.length_append, List.length_singleton] at hfew
    obtain ⟨hready, hrec, hon⟩ := ih (by omega) (by omega)
    have hfree := hready.queue.free
    have hcount := hready.queue.count
    rw [hrec, List.drop_zero] at hfree hcount
    have hlast : queued (fs ++ [f]) = (queued fs).arrive (.frame f) := List.foldl_append
    rw [hlast]
    refine ⟨hready.arrive _, ?_, ?_⟩
    · rw [arrive_received hon (by constructor <;> omega), hrec]
    · rw [arrive_core]
      exact hon

theorem pending_queue (fs : List Frame) (hroom : total Frame.size fs < RXSIZE)
    (hfew : fs.length ≤ 255) : ∃ s, Ready 0 s ∧ s.received = fs ∧
      s.core.regs 0x1f &&& ECON1_RXEN ≠ 0 := ⟨_, queued_ready fs hroom hfew⟩

end MultiEmbedded.Enc
