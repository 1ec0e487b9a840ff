import MultiEmbedded.Enc.Chip

/-!
# The unread frames

They lie as a chain in the receive buffer, from ERXRDPT to the write pointer of the
chip. Arrivals, bank switching and plain register writes keep the chain.
-/

namespace MultiEmbedded.Enc
open Prog RingCells

/-! ### The queue behind the buffer -/

/- Frames `received[m], received[m+1], …` are unread and stored from ERXRDPT on; EPKTCNT is `k`
ahead of them. `fs` are frames received earlier. -/
structure Queue (m k : ℕ) (fs : List Frame) (s : Sys) : Prop where
  known : fs <+: s.received
  taken : m ≤ s.received.length
  start : s.core.rxrd < RXSIZE
  chain : Chain Frame.size Frame.bytes RXSIZE s.ram s.core.rxrd (s.received.drop m) s.rxwr
  room : total Frame.size (s.received.drop m) < RXSIZE
  count : s.unread = (s.received.drop m).length + k
  few : s.unread ≤ 255

theorem bytes_length (f : Frame) (next : ℕ) : (f.bytes next).length = 6 + f.data.length := by
  unfold Frame.bytes
  rw [List.length_append]
  rfl

theorem bytes_le (f : Frame) (next : ℕ) : (f.bytes next).length ≤ f.size := by
  rw [bytes_length]
  exact Nat.le_add_right _ _

theorem Queue.stop {m k : ℕ} {fs : List Frame} {s : Sys} (h : Queue m k fs s) :
    s.rxwr = slot RXSIZE s.core.rxrd (total Frame.size (s.received.drop m)) :=
  h.chain.stop h.start (Nat.le_of_lt h.room)

theorem Queue.free {m k : ℕ} {fs : List Frame} {s : Sys} (h : Queue m k fs s) :
    total Frame.size (s.received.drop m) + s.free + 1 = RXSIZE := by
  have hstop := h.stop
  have hstart := h.start
  have hroom := h.room
  unfold Sys.free
  unfold slot at hstop
  split_ifs at hstop ⊢ <;> omega

theorem Queue.arrive {m k : ℕ} {fs : List Frame} {s : Sys} (h : Queue m k fs s) (e : Event) :
    Queue m k fs (s.arrive e) := by
  have hfree := h.free
  unfold Sys.arrive
  by_cases hon : s.core.regs 0x1f &&& ECON1_RXEN = 0
  · rw [if_pos hon]
    exact h
  rw [if_neg hon]
  cases e with
  | frame f =>
    by_cases hfit : f.size ≤ s.free ∧ s.unread < 255
    · simp only [hfit, and_self, if_true]
      have hdrop : (s.received ++ [f]).drop m = s.received.drop m ++ [f] :=
        List.drop_append_of_le_length h.taken
      refine ⟨h.known.trans (List.prefix_append _ _), ?_, h.start, ?_, ?_, ?_, hfit.2⟩
      · rw [List.length_append]
        exact Nat.le_add_right_of_le h.taken
      · rw [hdrop]
        exact h.chain.push bytes_le h.start (by omega)
      · rw [hdrop, total_append]
        change _ + f.size < _
        omega
      · rw [hdrop, List.length_append]
        have hcount := h.count
        change s.unread + 1 = _ + 1 + k
        omega
    · simp only [hfit, if_false]
      exact h
  | partly bytes =>
    refine ⟨h.known, h.taken, h.start, ?_, h.room, h.count, h.few⟩
    change Chain _ _ _ (blit RXSIZE s.ram s.rxwr (bytes.take s.free)) _ _ _
    have hlen : (bytes.take s.free).length ≤ s.free := List.length_take_le _ _
    have hblit := h.chain.blit bytes_le (bytes.take s.free) h.start (Nat.le_refl _) (by omega)
    rwa [← h.stop] at hblit

/-! ### Facts that bank switching leaves alone -/

structure Unbanked (env : Env) (P : Sys → Prop) : Prop where
  tick : ∀ s, P s → P (s.tick env)
  econ1 : ∀ s f, (∀ v, f v &&& ECON1_RXEN = v &&& ECON1_RXEN) → P s → P (s.put ECON1 f)
  bank : ∀ s b, P s → P { s with core := { s.core with Enc28j60Bank := b } }

variable {env : Env}

theorem Unbanked.and {P Q : Sys → Prop} (hP : Unbanked env P) (hQ : Unbanked env Q) :
    Unbanked env fun s => P s ∧ Q s where
  tick s h := ⟨hP.tick s h.1, hQ.tick s h.2⟩
  econ1 s f hf h := ⟨hP.econ1 s f hf h.1, hQ.econ1 s f hf h.2⟩
  bank s b h := ⟨hP.bank s b h.1, hQ.bank s b h.2⟩

theorem arrive_core (s : Sys) (e : Event) : (s.arrive e).core = s.core := by
  unfold Sys.arrive
  split_ifs
  · rfl
  · cases e with
    | frame f => simp only; split_ifs <;> rfl
    | partly bytes => rfl

theorem tick_core (env : Env) (s : Sys) : (s.tick env).core = s.core := by
  change ((env.events s.clock).foldl Sys.arrive s).core = s.core
  induction env.events s.clock generalizing s with
  | nil => rfl
  | cons e es ih => exact (ih (s.arrive e)).trans (arrive_core s e)

theorem put_regs {c : Core} {address : Byte} {f : Byte → Byte} {i : ℕ} (h : i ≠ c.index address) :
    (c.put address f).regs i = c.regs i := Function.update_of_ne h _ _

/- A condition on the registers other than ECON1, the read limit and `NextPacketPtr`. -/
theorem unbanked_of (env : Env) (φ : Core → Prop) (h : ∀ c c' : Core, (∀ i, i ≠ 0x1f → c'.regs i = c.regs i) →
    c'.rxrd = c.rxrd → c'.NextPacketPtr = c.NextPacketPtr → φ c → φ c') :
    Unbanked env fun s => φ s.core where
  tick s hs := by
    rw [tick_core]
    exact hs
  econ1 s f _ hs := h s.core _ (fun i hi => put_regs hi) rfl rfl hs
  bank s b hs := h s.core _ (fun _ _ => rfl) rfl rfl hs

theorem Queue.tick {m k : ℕ} {fs : List Frame} {s : Sys} (h : Queue m k fs s) (env : Env) :
    Queue m k fs (s.tick env) := by
  have hall : Queue m k fs ((env.events s.clock).foldl Sys.arrive s) := by
    induction env.events s.clock generalizing s with
    | nil => exact h
    | cons e es ih => exact ih (h.arrive e)
  exact ⟨hall.known, hall.taken, hall.start, hall.chain, hall.room, hall.count, hall.few⟩

theorem Queue.unbanked (env : Env) (m k : ℕ) (fs : List Frame) : Unbanked env (Queue m k fs) where
  tick _ h := h.tick env
  econ1 _ _ _ h := ⟨h.known, h.taken, h.start, h.chain, h.room, h.count, h.few⟩
  bank _ _ h := ⟨h.known, h.taken, h.start, h.chain, h.room, h.count, h.few⟩

/-! ### Bank selection on the chip -/

def Core.Coherent (c : Core) : Prop := c.Enc28j60Bank = c.bsel.setWidth 8 <<< 5

/- The register accesses that follow find the bank of `address`. -/
def Banked (address : Byte) (c : Core) : Prop := c.Coherent ∧ c.bsel = bankOf address

theorem Core.Coherent.congr {c c' : Core} (h : c.Coherent) (hreg : c'.regs 0x1f = c.regs 0x1f)
    (hbank : c'.Enc28j60Bank = c.Enc28j60Bank) : c'.Coherent := by
  unfold Core.Coherent Core.bsel at *
  rw [hreg, hbank]
  exact h

theorem put_econ1 (c : Core) (f : Byte → Byte) : (c.put ECON1 f).regs 0x1f = f (c.regs 0x1f) := by
  change Function.update c.regs 0x1f (f (c.regs 0x1f)) 0x1f = _
  rw [Function.update_self]

theorem command_write (s : Sys) (address data : Byte) :
    s.command env (ENC28J60_WRITE_CTRL_REG ||| (address &&& ADDR_MASK)) address data =
      s.put address fun _ => data := by
  have h : ∀ a : Byte, ENC28J60_WRITE_CTRL_REG ||| (a &&& ADDR_MASK) ≠ ENC28J60_SOFT_RESET ∧
      (ENC28J60_WRITE_CTRL_REG ||| (a &&& ADDR_MASK)) >>> 5 = ENC28J60_WRITE_CTRL_REG >>> 5 := by
    decide +kernel
  unfold Sys.command
  rw [if_neg (h address).1, if_pos (h address).2]

theorem command_set (s : Sys) (address data : Byte) :
    s.command env (ENC28J60_BIT_FIELD_SET ||| (address &&& ADDR_MASK)) address data =
      s.put address fun v => v ||| data := by
  have h : ∀ a : Byte, ENC28J60_BIT_FIELD_SET ||| (a &&& ADDR_MASK) ≠ ENC28J60_SOFT_RESET ∧
      (ENC28J60_BIT_FIELD_SET ||| (a &&& ADDR_MASK)) >>> 5 ≠ ENC28J60_WRITE_CTRL_REG >>> 5 ∧
      (ENC28J60_BIT_FIELD_SET ||| (a &&& ADDR_MASK)) >>> 5 = ENC28J60_BIT_FIELD_SET >>> 5 := by
    decide +kernel
  unfold Sys.command
  rw [if_neg (h address).1, if_neg (h address).2.1, if_pos (h address).2.2]

theorem command_clear (s : Sys) (address data : Byte) :
    s.command env (ENC28J60_BIT_FIELD_CLR ||| (address &&& ADDR_MASK)) address data =
      s.put address fun v => v &&& ~~~data := by
  have h : ∀ a : Byte, ENC28J60_BIT_FIELD_CLR ||| (a &&& ADDR_MASK) ≠ ENC28J60_SOFT_RESET ∧
      (ENC28J60_BIT_FIELD_CLR ||| (a &&& ADDR_MASK)) >>> 5 ≠ ENC28J60_WRITE_CTRL_REG >>> 5 ∧
      (ENC28J60_BIT_FIELD_CLR ||| (a &&& ADDR_MASK)) >>> 5 ≠ ENC28J60_BIT_FIELD_SET >>> 5 ∧
      (ENC28J60_BIT_FIELD_CLR ||| (a &&& ADDR_MASK)) >>> 5 = ENC28J60_BIT_FIELD_CLR >>> 5 := by
    decide +kernel
  unfold Sys.command
  rw [if_neg (h address).1, if_neg (h address).2.1, if_neg (h address).2.2.1,
    if_pos (h address).2.2.2]

/- The two bit-field commands of `enc28j60SetBank`. -/
def bselClear (v : Byte) : Byte := v &&& ~~~(ECON1_BSEL1 ||| ECON1_BSEL0)
def bselSet (address v : Byte) : Byte := v ||| ((address &&& BANK_MASK) >>> 5)

theorem bselClear_rxen : ∀ v : Byte, bselClear v &&& ECON1_RXEN = v &&& ECON1_RXEN := by
  decide +kernel

theorem bselSet_rxen (address v : Byte) : bselSet address v &&& ECON1_RXEN = v &&& ECON1_RXEN := by
  have hzero : ∀ a : Byte, ((a &&& BANK_MASK) >>> 5) &&& ECON1_RXEN = 0 := by decide +kernel
  unfold bselSet
  rw [BitVec.and_comm, BitVec.and_or_distrib_left, BitVec.and_comm _ v,
    BitVec.and_comm _ ((address &&& BANK_MASK) >>> 5), hzero]
  exact BitVec.or_zero

theorem bsel_selected (c : Core) (address : Byte) :
    ((c.put ECON1 bselClear).put ECON1 (bselSet address)).bsel = bankOf address := by
  have hclear : ∀ v : Byte, (bselClear v).setWidth 2 = (0 : BitVec 2) := by decide +kernel
  unfold Core.bsel
  rw [put_econ1, put_econ1]
  unfold bselSet
  rw [BitVec.setWidth_or, hclear]
  exact BitVec.zero_or

variable {Hang : Prop}

/- A program does what it should on the chip, whatever arrives meanwhile. -/
abbrev Does (env : Env) (Hang : Prop) {α : Type} (Q : α → Sys → Prop) (x : Drv α) (s : Sys) : Prop :=
  wp (chip env) (fun _ _ => True) Hang Q x s

theorem write_op {Q : Unit → Sys → Prop} {address data : Byte} {s : Sys}
    (h : Q () ((s.tick env).put address fun _ => data)) :
    Does env Hang Q (enc28j60WriteOp ENC28J60_WRITE_CTRL_REG address data) s := by
  rw [← command_write] at h
  exact ⟨trivial, h⟩

theorem set_op {Q : Unit → Sys → Prop} {address data : Byte} {s : Sys}
    (h : Q () ((s.tick env).put address fun v => v ||| data)) :
    Does env Hang Q (enc28j60WriteOp ENC28J60_BIT_FIELD_SET address data) s := by
  rw [← command_set] at h
  exact ⟨trivial, h⟩

theorem clear_op {Q : Unit → Sys → Prop} {address data : Byte} {s : Sys}
    (h : Q () ((s.tick env).put address fun v => v &&& ~~~data)) :
    Does env Hang Q (enc28j60WriteOp ENC28J60_BIT_FIELD_CLR address data) s := by
  rw [← command_clear] at h
  exact ⟨trivial, h⟩

/- The second half of `enc28j60SetBank`. -/
def reselect (address : Byte) : Drv Unit := do
  enc28j60WriteOp ENC28J60_BIT_FIELD_CLR ECON1 (ECON1_BSEL1 ||| ECON1_BSEL0)
  enc28j60WriteOp ENC28J60_BIT_FIELD_SET ECON1 ((address &&& BANK_MASK) >>> 5)
  perform (Op.storeBank (address &&& BANK_MASK))

/- Whatever the cache held before. -/
theorem reselect_does {P : Sys → Prop} (hP : Unbanked env P) (address : Byte) {s : Sys} (hs : P s) :
    Does env Hang (fun _ s' => Banked address s'.core ∧ P s') (reselect address) s := by
  have h1 := hP.econ1 _ _ bselClear_rxen (hP.tick s hs)
  have h2 := hP.tick _ (hP.econ1 _ _ (bselSet_rxen address) (hP.tick _ h1))
  have hcore : (Sys.tick env (Sys.put (Sys.tick env (Sys.put (s.tick env) ECON1 bselClear)) ECON1
      (bselSet address))).core = (s.core.put ECON1 bselClear).put ECON1 (bselSet address) := by
    rw [tick_core]
    change Core.put (Sys.core _) _ _ = _
    rw [tick_core]
    change Core.put (Core.put (Sys.core _) _ _) _ _ = _
    rw [tick_core]
  unfold reselect
  refine (wp_bind _ _ _).mpr (clear_op ((wp_bind _ _ _).mpr (set_op ?_)))
  generalize hv : Sys.tick env (Sys.put (Sys.tick env (Sys.put (s.tick env) ECON1 bselClear)) ECON1
      (bselSet address)) = v at h2 hcore
  refine ⟨trivial, ⟨?_, ?_⟩, ?_⟩
  · change address &&& BANK_MASK = (Core.bsel (Sys.core (Sys.tick env (Sys.put (Sys.tick env
      (Sys.put (s.tick env) ECON1 bselClear)) ECON1 (bselSet address))))).setWidth 8 <<< 5
    rw [hv, hcore, bsel_selected, bankOf_shift]
  · change Core.bsel (Sys.core (Sys.tick env (Sys.put (Sys.tick env
      (Sys.put (s.tick env) ECON1 bselClear)) ECON1 (bselSet address)))) = _
    rw [hv, hcore, bsel_selected]
  · rw [← hv] at h2
    exact hP.bank _ (address &&& BANK_MASK) h2

theorem setBank_does {P : Sys → Prop} (hP : Unbanked env P) (address : Byte) {s : Sys}
    (hs : P s) (htrust : s.core.Enc28j60Bank = address &&& BANK_MASK → s.core.Coherent) :
    Does env Hang (fun _ s' => Banked address s'.core ∧ P s') (enc28j60SetBank address) s := by
  unfold enc28j60SetBank
  refine (wp_perform _ _ _).mpr ⟨trivial, ?_⟩
  change wp _ _ _ _ (if address &&& BANK_MASK ≠ (s.tick env).core.Enc28j60Bank then _ else _)
    (s.tick env)
  rw [tick_core]
  by_cases hb : address &&& BANK_MASK = s.core.Enc28j60Bank
  · have hc := htrust hb.symm
    rw [if_neg (not_not_intro hb)]
    refine ⟨?_, hP.tick s hs⟩
    rw [tick_core]
    refine ⟨hc, shift_injective _ _ ?_⟩
    rw [bankOf_shift, hb]
    exact hc.symm
  · rw [if_pos hb]
    exact reselect_does hP address (hP.tick s hs)

theorem write_does {P : Sys → Prop} {Q : Unit → Sys → Prop} (hP : Unbanked env P)
    {address data : Byte} {s : Sys} (hs : P s) (hc : s.core.Coherent)
    (hput : ∀ t, Banked address t.core → P t → Q () (t.put address fun _ => data)) :
    Does env Hang Q (enc28j60Write address data) s := by
  unfold enc28j60Write
  refine (wp_bind _ _ _).mpr ?_
  refine wp_mono (setBank_does hP address hs fun _ => hc) fun _ t ht => write_op ?_
  refine hput (t.tick env) ?_ (hP.tick t ht.2)
  rw [tick_core]
  exact ht.1

theorem read_does {P : Sys → Prop} (hP : Unbanked env P) {address : Byte} {s : Sys} (hs : P s)
    (htrust : s.core.Enc28j60Bank = address &&& BANK_MASK → s.core.Coherent) :
    Does env Hang (fun v s' => Banked address s'.core ∧ P s' ∧
      (address = EPKTCNT → v = BitVec.ofNat 8 s'.unread)) (enc28j60Read address) s := by
  have hcmd : ∀ a : Byte, ENC28J60_READ_CTRL_REG ||| (a &&& ADDR_MASK) ≠ ENC28J60_READ_BUF_MEM := by
    decide +kernel
  unfold enc28j60Read
  refine (wp_bind _ _ _).mpr ?_
  refine wp_mono (setBank_does hP address hs htrust) fun _ t ht => ?_
  have hb : Banked address (t.tick env).core := by
    rw [tick_core]
    exact ht.1
  have hp := hP.tick t ht.2
  refine ⟨trivial, ?_⟩
  have hchip : chip env (.readOp ENC28J60_READ_CTRL_REG address) t = Sys.answer env (t.tick env)
    (ENC28J60_READ_CTRL_REG ||| (address &&& ADDR_MASK)) address := rfl
  rw [hchip]
  unfold Sys.answer
  rw [if_neg (hcmd address)]
  by_cases hi : (t.tick env).core.index address = 0x39
  · rw [if_pos hi]
    exact ⟨hb, hp, fun _ => rfl⟩
  · rw [if_neg hi]
    refine ⟨hb, hp, ?_⟩
    rintro rfl
    refine absurd ?_ hi
    unfold Core.index
    rw [hb.2]
    rfl

/-! ### Reading the head of the queue -/

theorem Queue.head {m k : ℕ} {fs : List Frame} {s : Sys} (h : Queue m k fs s) {f : Frame}
    (hf : fs[m]? = some f) : s.received.drop m = f :: s.received.drop (m + 1) := by
  obtain ⟨tail, htail⟩ := h.known
  have hlt : m < fs.length := (List.getElem?_eq_some_iff.mp hf).1
  have hrec : s.received[m]? = some f := by
    rw [← htail, List.getElem?_append_left hlt, hf]
  obtain ⟨hm, rfl⟩ := List.getElem?_eq_some_iff.mp hrec
  exact List.drop_eq_getElem_cons hm

theorem Queue.stored {m k : ℕ} {fs : List Frame} {s : Sys} (h : Queue m k fs s) {f : Frame}
    (hf : fs[m]? = some f) : f.size < RXSIZE ∧
      Holds RXSIZE s.ram s.core.rxrd (f.bytes (slot RXSIZE s.core.rxrd f.size)) := by
  have hchain := h.chain
  have hroom := h.room
  rw [h.head hf] at hchain hroom
  rw [total_cons] at hroom
  exact ⟨by omega, hchain.1⟩

/- The chip is about to read byte `i` behind ERXRDPT. -/
structure Head (m k : ℕ) (fs : List Frame) (r i : ℕ) (next : Word) (s : Sys) : Prop where
  queue : Queue m k fs s
  coherent : s.core.Coherent
  rxrd : s.core.rxrd = r
  erdpt : pair s.core.regs 0x00 = slot RXSIZE r i
  next : s.core.NextPacketPtr = next

variable {m k r i : ℕ} {fs : List Frame} {next : Word} {s : Sys}

theorem Head.tick (h : Head m k fs r i next s) : Head m k fs r i next (s.tick env) := by
  have hcore := tick_core env s
  refine ⟨h.queue.tick env, ?_, ?_, ?_, ?_⟩ <;> rw [hcore]
  · exact h.coherent
  · exact h.rxrd
  · exact h.erdpt
  · exact h.next

theorem pair_setPair (regs : ℕ → Byte) (low : ℕ) {v : ℕ} (hv : v < 65536) :
    pair (setPair regs low v) low = v := by
  unfold pair setPair
  rw [Function.update_of_ne (by omega), Function.update_self, Function.update_self]
  simp only [BitVec.toNat_ofNat]
  omega

theorem setPair_of_ne (regs : ℕ → Byte) {low j : ℕ} (h1 : j ≠ low) (h2 : j ≠ low + 1) (v : ℕ) :
    setPair regs low v j = regs j := by
  unfold setPair
  rw [Function.update_of_ne h2, Function.update_of_ne h1]

theorem readNext_slot (hr : r < RXSIZE) (hi : i < RXSIZE) :
    readNext (slot RXSIZE r i) = slot RXSIZE r (i + 1) := by
  change r < 6655 at hr
  change i < 6655 at hi
  unfold readNext
  change (if slot 6655 r i = 6654 then 0 else (slot 6655 r i + 1) % 8192) = slot 6655 r (i + 1)
  unfold slot
  split_ifs <;> omega

theorem readMem_eq (ram : ℕ → Byte) {n : ℕ} {regs : ℕ → Byte} (hr : r < RXSIZE)
    (hi : i + n ≤ RXSIZE) (hp : pair regs 0x00 = slot RXSIZE r i) :
    (Enc.readMem ram n regs).1 = (List.range n).map (fun j => ram (slot RXSIZE r (i + j))) ∧
      pair (Enc.readMem ram n regs).2 0x00 = slot RXSIZE r (i + n) ∧
      ∀ j, 2 ≤ j → (Enc.readMem ram n regs).2 j = regs j := by
  induction n generalizing i regs with
  | zero => exact ⟨rfl, hp, fun _ _ => rfl⟩
  | succ n ih =>
    have hlt : slot RXSIZE r (i + 1) < RXSIZE := slot_lt hr (by omega)
    have hstep : pair (setPair regs 0x00 (readNext (pair regs 0x00))) 0x00 =
        slot RXSIZE r (i + 1) := by
      rw [hp, readNext_slot hr (by omega)]
      exact pair_setPair regs 0 (hlt.trans (by decide))
    obtain ⟨h1, h2, h3⟩ := ih (by omega) hstep
    unfold Enc.readMem
    refine ⟨?_, ?_, fun j hj => ?_⟩
    · change ram (pair regs 0) :: _ = _
      rw [h1, hp, List.range_succ_eq_map, List.map_cons, List.map_map]
      refine congrArg _ (List.map_congr_left fun j _ => ?_)
      change ram (slot RXSIZE r (i + 1 + j)) = ram (slot RXSIZE r (i + (j + 1)))
      rw [Nat.add_assoc, Nat.add_comm 1 j]
    · change pair (Enc.readMem ram n _).2 0 = _
      rw [h2, Nat.add_assoc, Nat.add_comm 1 n]
    · change (Enc.readMem ram n _).2 j = _
      rw [h3 j hj, setPair_of_ne regs (by omega) (by omega)]

theorem Head.readMem {f : Frame} (h : Head m k fs r i next s) (hf : fs[m]? = some f) {n : ℕ}
    (hn : i + n ≤ 6 + f.data.length) :
    (s.readMem n).1 = ((f.bytes (slot RXSIZE r f.size)).drop i).take n ∧
      Head m k fs r (i + n) next (s.readMem n).2 := by
  obtain ⟨hsize, hhold⟩ := h.queue.stored hf
  have hr : r < RXSIZE := h.rxrd ▸ h.queue.start
  have hlen : 6 + f.data.length ≤ f.size := Nat.le_add_right _ _
  rw [h.rxrd] at hhold
  obtain ⟨h1, h2, h3⟩ := readMem_eq s.ram (n := n) hr (by omega) h.erdpt
  refine ⟨?_, ⟨h.queue.known, h.queue.taken, h.queue.start, h.queue.chain, h.queue.room,
    h.queue.count, h.queue.few⟩, ?_, h.rxrd, h2, h.next⟩
  · change (Enc.readMem s.ram n s.core.regs).1 = _
    rw [h1]
    exact hhold.map_range (by rw [bytes_length]; exact hn)
  · exact h.coherent.congr (h3 0x1f (by decide)) rfl

/- One byte of the header. -/
theorem Head.readOp {f : Frame} (h : Head m k fs r i next s) (hf : fs[m]? = some f)
    (hi : i < 6 + f.data.length) :
    Does env Hang (fun v s' => (f.bytes (slot RXSIZE r f.size))[i]? = some v ∧
      Head m k fs r (i + 1) next s') (enc28j60ReadOp ENC28J60_READ_BUF_MEM 0) s := by
  have ht : Head m k fs r i next (s.tick env) := h.tick
  obtain ⟨-, hhold⟩ := ht.queue.stored hf
  obtain ⟨-, hmem⟩ := ht.readMem hf (n := 1) hi
  rw [ht.rxrd] at hhold
  refine ⟨trivial, ?_, hmem⟩
  have hlen : i < (f.bytes (slot RXSIZE r f.size)).length := by rw [bytes_length]; exact hi
  change _ = some ((s.tick env).ram (pair (s.tick env).core.regs 0))
  rw [ht.erdpt, hhold.getElem hlen]
  exact List.getElem?_eq_getElem hlen

/-! ### Register writes in their bank -/

/- Registers whose writing does nothing but store the value. -/
def Plain (i : ℕ) : Prop := i ≠ 0x08 ∧ i ≠ 0x09 ∧ i ≠ 0x0d ∧ i ≠ 0x1e

instance (i : ℕ) : Decidable (Plain i) := inferInstanceAs (Decidable (_ ∧ _))

def Sys.setReg (s : Sys) (i : ℕ) (v : Byte) : Sys :=
  { s with core := { s.core with regs := Function.update s.core.regs i v } }

@[simp] theorem setReg_same (s : Sys) (i : ℕ) (v : Byte) : (s.setReg i v).core.regs i = v := by
  change Function.update s.core.regs i v i = v
  rw [Function.update_self]

theorem setReg_other (s : Sys) {i j : ℕ} (h : j ≠ i) (v : Byte) :
    (s.setReg i v).core.regs j = s.core.regs j := by
  change Function.update s.core.regs i v j = _
  rw [Function.update_of_ne h]

theorem put_plain {address : Byte} {f : Byte → Byte} {u : Sys} (hi : Plain (u.core.index address)) :
    u.put address f =
      u.setReg (u.core.index address) (f (u.core.regs (u.core.index address))) := by
  obtain ⟨h8, h9, hd, he⟩ := hi
  unfold Sys.put Core.put Sys.setReg
  simp only [h8, h9, hd, he, or_self, false_and, if_false]

theorem Banked.index {address : Byte} {c : Core} (h : Banked address c) :
    c.index address = regIndex (bankOf address) address := by
  unfold Core.index
  rw [h.2]

theorem Banked.put {address data : Byte} {u : Sys} (h : Banked address u.core)
    (hi : Plain (regIndex (bankOf address) address)) :
    u.put address (fun _ => data) = u.setReg (regIndex (bankOf address) address) data := by
  rw [← h.index] at hi ⊢
  exact put_plain hi

/- Writing ERXRDPTH makes the limit of the receiver the pointer just written. -/
theorem Banked.put_limit {data : Byte} {t : Sys} (h : Banked ERXRDPTH t.core) :
    t.put ERXRDPTH (fun _ => data) = { t with
      core := { t.core with
        regs := Function.update t.core.regs 0x0d data
        rxrd := (t.core.regs 0x0c).toNat + 256 * data.toNat } } := by
  have hi : t.core.index ERXRDPTH = 0x0d := h.index
  have hpair : pair (Function.update t.core.regs 0x0d data) 0x0c =
      (t.core.regs 0x0c).toNat + 256 * data.toNat := by
    unfold pair
    rw [Function.update_of_ne (by decide), Function.update_self]
  unfold Sys.put Core.put
  simp only [hi, hpair, Nat.reduceEqDiff, or_self, false_and, if_false, if_true]

theorem Queue.setReg (h : Queue m k fs s) (i : ℕ) (v : Byte) : Queue m k fs (s.setReg i v) :=
  ⟨h.known, h.taken, h.start, h.chain, h.room, h.count, h.few⟩

theorem setReg_coherent (h : s.core.Coherent) {i : ℕ} (hi : i ≠ 0x1f) (v : Byte) :
    (s.setReg i v).core.Coherent := h.congr (Function.update_of_ne hi.symm _ _) rfl

theorem Queue.known_all (h : Queue m k fs s) : Queue m k s.received s :=
  ⟨List.prefix_refl _, h.taken, h.start, h.chain, h.room, h.count, h.few⟩

/- Between calls: `m` frames have been taken, and NextPacketPtr is where the next one starts. -/
structure Ready (m : ℕ) (s : Sys) : Prop where
  queue : Queue m 0 s.received s
  coherent : s.core.Coherent
  next : s.core.NextPacketPtr.toNat = s.core.rxrd

theorem Ready.arrive (h : Ready m s) (e : Event) : Ready m (s.arrive e) := by
  refine ⟨(h.queue.arrive e).known_all, ?_, ?_⟩
  · rw [arrive_core]
    exact h.coherent
  · rw [arrive_core]
    exact h.next

/- With the receiver on, a frame that fits is stored. -/
theorem arrive_received {f : Frame} (hon : s.core.regs 0x1f &&& ECON1_RXEN ≠ 0)
    (hfit : f.size ≤ s.free ∧ s.unread < 255) :
    (s.arrive (.frame f)).received = s.received ++ [f] := by
  unfold Sys.arrive
  rw [if_neg hon]
  simp only [hfit, and_self, if_true]

end MultiEmbedded.Enc
