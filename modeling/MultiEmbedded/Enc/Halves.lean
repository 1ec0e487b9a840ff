import MultiEmbedded.Enc.Receive
import MultiEmbedded.Lib.Preempt

/-!
# The two halves of the chip

Receiving and sending go through different registers and different parts of packet
memory. On a silent line `enc28j60PacketReceive` does the same from any two states
that agree on the receive half, and it leaves the transmit half alone; the bank is
all that the two halves share.
-/

namespace MultiEmbedded.Enc
open Prog RingCells

def Silent (env : Env) : Prop := ∀ n, env.events n = []

/- ERDPT, ERXRDPT and ECON2. -/
def RxReg (i : ℕ) : Prop := i = 0x00 ∨ i = 0x01 ∨ i = 0x0c ∨ i = 0x0d ∨ i = 0x1e

instance (i : ℕ) : Decidable (RxReg i) := inferInstanceAs (Decidable (_ ∨ _))

structure SameReceive (s t : Sys) : Prop where
  regs : ∀ i, RxReg i → s.core.regs i = t.core.regs i
  rxen : s.core.regs 0x1f &&& ECON1_RXEN = t.core.regs 0x1f &&& ECON1_RXEN
  ram : ∀ j, j < RXSIZE → s.ram j = t.ram j
  rxrd : s.core.rxrd = t.core.rxrd
  next : s.core.NextPacketPtr = t.core.NextPacketPtr
  rxwr : s.rxwr = t.rxwr
  unread : s.unread = t.unread
  received : s.received = t.received

/- All other registers, ECON1 apart from the bank, and the memory behind the receive buffer. -/
structure SameTransmit (s t : Sys) : Prop where
  regs : ∀ i, ¬ RxReg i → i ≠ 0x1f → s.core.regs i = t.core.regs i
  econ1 : bselClear (s.core.regs 0x1f) = bselClear (t.core.regs 0x1f)
  ram : ∀ j, RXSIZE ≤ j → s.ram j = t.ram j

/- Nothing but the bank and the clock differs. -/
def SameChip (s t : Sys) : Prop := SameReceive s t ∧ SameTransmit s t

variable {env env' : Env} {s t u v : Sys} {Hang : Prop}

theorem SameReceive.refl (s : Sys) : SameReceive s s :=
  ⟨fun _ _ => rfl, rfl, fun _ _ => rfl, rfl, rfl, rfl, rfl, rfl⟩

theorem SameReceive.symm (h : SameReceive s t) : SameReceive t s :=
  ⟨fun i hi => (h.regs i hi).symm, h.rxen.symm, fun j hj => (h.ram j hj).symm, h.rxrd.symm, h.next.symm,
    h.rxwr.symm, h.unread.symm, h.received.symm⟩

theorem SameReceive.trans (h : SameReceive s t) (h' : SameReceive t u) : SameReceive s u :=
  ⟨fun i hi => (h.regs i hi).trans (h'.regs i hi), h.rxen.trans h'.rxen,
    fun j hj => (h.ram j hj).trans (h'.ram j hj), h.rxrd.trans h'.rxrd, h.next.trans h'.next,
    h.rxwr.trans h'.rxwr, h.unread.trans h'.unread, h.received.trans h'.received⟩

theorem SameTransmit.refl (s : Sys) : SameTransmit s s := ⟨fun _ _ _ => rfl, rfl, fun _ _ => rfl⟩

theorem SameTransmit.symm (h : SameTransmit s t) : SameTransmit t s :=
  ⟨fun i hi he => (h.regs i hi he).symm, h.econ1.symm, fun j hj => (h.ram j hj).symm⟩

theorem SameTransmit.trans (h : SameTransmit s t) (h' : SameTransmit t u) : SameTransmit s u :=
  ⟨fun i hi he => (h.regs i hi he).trans (h'.regs i hi he), h.econ1.trans h'.econ1,
    fun j hj => (h.ram j hj).trans (h'.ram j hj)⟩

theorem SameChip.refl (s : Sys) : SameChip s s := ⟨.refl s, .refl s⟩

theorem SameChip.trans (h : SameChip s t) (h' : SameChip t u) : SameChip s u :=
  ⟨h.1.trans h'.1, h.2.trans h'.2⟩

/-! ### Register writes -/

theorem econ1_not_rx : ¬ RxReg 0x1f := by decide

theorem SameReceive.setReg {i : ℕ} (hi : ¬ RxReg i) (he : i ≠ 0x1f) (b : Byte) :
    SameReceive s (s.setReg i b) := by
  refine ⟨fun j hj => ?_, ?_, fun _ _ => rfl, rfl, rfl, rfl, rfl, rfl⟩
  · have hji : j ≠ i := fun h => hi (h ▸ hj)
    rw [setReg_other s hji]
  · rw [setReg_other s he.symm]

theorem SameTransmit.setReg {i : ℕ} (hi : RxReg i) (b : Byte) : SameTransmit s (s.setReg i b) := by
  have he : 0x1f ≠ i := fun h => econ1_not_rx (h ▸ hi)
  refine ⟨fun j hj _ => ?_, ?_, fun _ _ => rfl⟩
  · have hji : j ≠ i := fun h => hj (h ▸ hi)
    rw [setReg_other s hji]
  · rw [setReg_other s he]

/- The same write on both sides. -/
theorem SameReceive.setBoth (h : SameReceive s t) {i : ℕ} (he : i ≠ 0x1f) (b : Byte) :
    SameReceive (s.setReg i b) (t.setReg i b) := by
  refine ⟨fun j hj => ?_, ?_, h.ram, h.rxrd, h.next, h.rxwr, h.unread, h.received⟩
  · by_cases hij : j = i
    · rw [hij, setReg_same, setReg_same]
    · rw [setReg_other s hij, setReg_other t hij, h.regs j hj]
  · rw [setReg_other s he.symm, setReg_other t he.symm, h.rxen]

theorem SameTransmit.setBoth (h : SameTransmit s t) {i : ℕ} (he : i ≠ 0x1f) (b : Byte) :
    SameTransmit (s.setReg i b) (t.setReg i b) := by
  refine ⟨fun j hj hje => ?_, ?_, h.ram⟩
  · by_cases hij : j = i
    · rw [hij, setReg_same, setReg_same]
    · rw [setReg_other s hij, setReg_other t hij, h.regs j hj hje]
  · rw [setReg_other s he.symm, setReg_other t he.symm, h.econ1]

/- ECON1 is common to both halves, bit by bit. -/
theorem SameChip.setEcon1 {b : Byte} (hrx : b &&& ECON1_RXEN = s.core.regs 0x1f &&& ECON1_RXEN)
    (htx : bselClear b = bselClear (s.core.regs 0x1f)) : SameChip s (s.setReg 0x1f b) := by
  refine ⟨⟨fun j hj => ?_, ?_, fun _ _ => rfl, rfl, rfl, rfl, rfl, rfl⟩, fun j _ hje => ?_, ?_, fun _ _ => rfl⟩
  · have hje : j ≠ 0x1f := fun h => econ1_not_rx (h ▸ hj)
    rw [setReg_other s hje]
  · rw [setReg_same, hrx]
  · rw [setReg_other s hje]
  · rw [setReg_same, htx]

theorem tick_silent (henv : Silent env) (s : Sys) : s.tick env = { s with clock := s.clock + 1 } := by
  unfold Sys.tick
  rw [henv]
  rfl

theorem SameChip.tick (henv : Silent env) (s : Sys) : SameChip s (s.tick env) := by
  rw [tick_silent henv]
  exact ⟨⟨fun _ _ => rfl, rfl, fun _ _ => rfl, rfl, rfl, rfl, rfl, rfl⟩, ⟨fun _ _ _ => rfl, rfl, fun _ _ => rfl⟩⟩

theorem Ready.same {m : ℕ} (h : Ready m s) (hst : SameReceive s t) (hct : t.core.Coherent) : Ready m t := by
  have hq := h.queue
  refine ⟨⟨List.prefix_refl _, ?_, ?_, ?_, ?_, ?_, ?_⟩, hct, ?_⟩
  · rw [← hst.received]
    exact hq.taken
  · rw [← hst.rxrd]
    exact hq.start
  · rw [← hst.received, ← hst.rxrd, ← hst.rxwr]
    exact hq.chain.congr bytes_le hq.start (Nat.le_of_lt hq.room) hst.ram
  · rw [← hst.received]
    exact hq.room
  · rw [← hst.received, ← hst.unread]
    exact hq.count
  · rw [← hst.unread]
    exact hq.few
  · rw [← hst.next, ← hst.rxrd]
    exact h.next

/- A frame goes into the receive buffer. -/
theorem SameTransmit.arrive (s : Sys) (e : Event) : SameTransmit s (s.arrive e) := by
  have hblit : ∀ (start : ℕ) (xs : List Byte) j, RXSIZE ≤ j → s.ram j = blit RXSIZE s.ram start xs j := by
    intro start xs j hj
    unfold blit
    rw [if_neg (Nat.not_lt.mpr hj)]
  refine ⟨fun i _ _ => ?_, ?_, fun j hj => ?_⟩
  · rw [arrive_core]
  · rw [arrive_core]
  · unfold Sys.arrive
    split_ifs
    · rfl
    · cases e with
      | frame f =>
        show s.ram j = Sys.ram (if _ then _ else _) j
        split_ifs
        · exact hblit _ _ j hj
        · rfl
      | partly bytes => exact hblit _ _ j hj

theorem arrivals_transmit (q : List Event) (s : Sys) : SameTransmit s (q.foldl Sys.arrive s) := by
  induction q generalizing s with
  | nil => exact .refl s
  | cons e q ih => exact (SameTransmit.arrive s e).trans (ih (s.arrive e))

theorem Ready.arrivals {m : ℕ} (h : Ready m s) (q : List Event) : Ready m (q.foldl Sys.arrive s) := by
  induction q generalizing s with
  | nil => exact h
  | cons e q ih => exact ih (h.arrive e)

/-! ### Selecting a bank -/

theorem put_econ1_eq (s : Sys) (f : Byte → Byte) : s.put ECON1 f = s.setReg 0x1f (f (s.core.regs 0x1f)) :=
  @put_plain ECON1 _ s (by decide : Plain 0x1f)

theorem bselClear_twice : ∀ v : Byte, bselClear (bselClear v) = bselClear v := by decide +kernel

theorem bank_bits : ∀ address : Byte, bselClear ((address &&& BANK_MASK) >>> 5) = 0 := by decide +kernel

theorem bselClear_set (address v : Byte) : bselClear (bselSet address v) = bselClear v := by
  have hor : bselClear (v ||| ((address &&& BANK_MASK) >>> 5)) =
      bselClear v ||| bselClear ((address &&& BANK_MASK) >>> 5) := BitVec.and_or_distrib_right
  unfold bselSet
  rw [hor, bank_bits]
  exact BitVec.or_zero

theorem selects_same (henv : Silent env) (o : Op) (ho : SelectsBank o) (s : Sys) :
    SameChip s (chip env o s).2 := by
  have htick := SameChip.tick henv s
  refine htick.trans ?_
  generalize htw : s.tick env = w at htick
  have hchip : (chip env o s).2 = (step env o w).2 := by
    rw [← htw]
    rfl
  rw [hchip]
  cases o with
  | loadBank => exact .refl w
  | storeBank b =>
    exact ⟨⟨fun _ _ => rfl, rfl, fun _ _ => rfl, rfl, rfl, rfl, rfl, rfl⟩, ⟨fun _ _ _ => rfl, rfl, fun _ _ => rfl⟩⟩
  | writeOp op address data =>
    rcases ho with ⟨rfl, rfl, rfl⟩ | ⟨rfl, rfl, a, rfl⟩
    · have hput : (step env (.writeOp ENC28J60_BIT_FIELD_CLR ECON1 (ECON1_BSEL1 ||| ECON1_BSEL0)) w).2 =
          w.put ECON1 bselClear := @command_clear env w ECON1 _
      rw [hput, put_econ1_eq]
      exact SameChip.setEcon1 (bselClear_rxen _) (bselClear_twice _)
    · have hput : (step env (.writeOp ENC28J60_BIT_FIELD_SET ECON1 ((a &&& BANK_MASK) >>> 5)) w).2 =
          w.put ECON1 (bselSet a) := @command_set env w ECON1 _
      rw [hput, put_econ1_eq]
      exact SameChip.setEcon1 (bselSet_rxen a _) (bselClear_set a _)
  | readOp op address => exact ho.elim
  | readBuffer len => exact ho.elim
  | writeBuffer data => exact ho.elim
  | csHigh => exact ho.elim
  | loadNext => exact ho.elim
  | storeNext next => exact ho.elim

theorem unbanked_true (env : Env) : Unbanked env fun _ => True :=
  ⟨fun _ _ => trivial, fun _ _ _ _ => trivial, fun _ _ _ => trivial⟩

theorem selects_run (henv : Silent env) {x : Drv Unit} (hx : Only SelectsBank False x) {address : Byte}
    (hbank : Does env False (fun _ u => Banked address u.core ∧ True) x s) :
    ∃ u, run (chip env) x s = (some (), u) ∧ SameChip s u ∧ Banked address u.core := by
  have hsame : Does env False (fun _ u => SameChip s u) x s := hx.wp (I := SameChip s)
    (fun o ho w hw => ⟨trivial, hw.trans (selects_same henv o ho w)⟩) (.refl s)
  obtain ⟨⟨⟩, u, hrun, hb, hs⟩ := wp_total (wp_and hbank hsame)
  exact ⟨u, hrun, hs, hb.1⟩

theorem reselect_run (henv : Silent env) (s : Sys) (address : Byte) :
    ∃ u, run (chip env) (reselect address) s = (some (), u) ∧ SameChip s u ∧ Banked address u.core :=
  selects_run henv (reselect_selects address) (reselect_does (unbanked_true env) address trivial)

theorem setBank_run (henv : Silent env) (hc : s.core.Coherent) (address : Byte) :
    ∃ u, run (chip env) (enc28j60SetBank address) s = (some (), u) ∧ SameChip s u ∧ Banked address u.core :=
  selects_run henv (setBank_selects address) (setBank_does (unbanked_true env) address trivial fun _ => hc)

theorem Banked.tick (h : Banked address s.core) (env : Env) : Banked address (s.tick env).core := by
  rw [tick_core]
  exact h

/- A register write, in its bank. -/
theorem write_run (henv : Silent env) (hc : s.core.Coherent) (address data : Byte) :
    ∃ u, run (chip env) (enc28j60Write address data) s = (some (), u.put address fun _ => data) ∧
      SameChip s u ∧ Banked address u.core := by
  obtain ⟨u, hrun, hsame, hbank⟩ := setBank_run henv hc address
  refine ⟨u.tick env, ?_, hsame.trans (.tick henv u), hbank.tick env⟩
  unfold enc28j60Write
  rw [run_bind_of hrun, ← @command_write env]
  rfl

theorem read_run (henv : Silent env) (hc : s.core.Coherent) (address : Byte) :
    ∃ u, run (chip env) (enc28j60Read address) s =
        (some (u.answer env (ENC28J60_READ_CTRL_REG ||| (address &&& ADDR_MASK)) address).1, u) ∧
      SameChip s u ∧ Banked address u.core := by
  obtain ⟨u, hrun, hsame, hbank⟩ := setBank_run henv hc address
  have hcmd : ∀ a : Byte, ENC28J60_READ_CTRL_REG ||| (a &&& ADDR_MASK) ≠ ENC28J60_READ_BUF_MEM := by
    decide +kernel
  have hkeep : ((u.tick env).answer env (ENC28J60_READ_CTRL_REG ||| (address &&& ADDR_MASK)) address).2 = u.tick env := by
    unfold Sys.answer
    rw [if_neg (hcmd address)]
    split_ifs <;> rfl
  refine ⟨u.tick env, ?_, hsame.trans (.tick henv u), hbank.tick env⟩
  unfold enc28j60Read
  rw [run_bind_of hrun]
  exact congrArg (Prod.mk _) hkeep

/-! ### Two runs of the receive path -/

/- Two runs that began in `s₀` and `t₀`. -/
structure Abreast (s₀ t₀ s t : Sys) : Prop where
  receive : SameReceive s t
  left : SameTransmit s₀ s
  right : SameTransmit t₀ t
  coherent : s.core.Coherent ∧ t.core.Coherent

/- ERDPT is inside the receive buffer. -/
def InBuffer (s : Sys) : Prop := pair s.core.regs 0x00 < RXSIZE

variable {s₀ t₀ : Sys}

theorem Abreast.same (h : Abreast s₀ t₀ s t) (hu : SameChip s u) (hv : SameChip t v)
    (hcu : u.core.Coherent) (hcv : v.core.Coherent) : Abreast s₀ t₀ u v :=
  ⟨(hu.1.symm.trans h.receive).trans hv.1, h.left.trans hu.2, h.right.trans hv.2, hcu, hcv⟩

theorem Abreast.tick (h : Abreast s₀ t₀ s t) (henv : Silent env) (henv' : Silent env') :
    Abreast s₀ t₀ (s.tick env) (t.tick env') := by
  refine h.same (.tick henv s) (.tick henv' t) ?_ ?_
  · rw [tick_core]
    exact h.coherent.1
  · rw [tick_core]
    exact h.coherent.2

theorem Abreast.setReg (h : Abreast s₀ t₀ s t) {i : ℕ} (hi : RxReg i) (b : Byte) :
    Abreast s₀ t₀ (s.setReg i b) (t.setReg i b) := by
  have he : i ≠ 0x1f := fun h => econ1_not_rx (h ▸ hi)
  exact ⟨h.receive.setBoth he b, h.left.trans (.setReg hi b), h.right.trans (.setReg hi b),
    setReg_coherent h.coherent.1 he b, setReg_coherent h.coherent.2 he b⟩

theorem readNext_lt {p : ℕ} (hp : p < RXSIZE) : readNext p < RXSIZE := by
  change p < 6655 at hp
  unfold readNext
  change (if p = 6654 then 0 else (p + 1) % 8192) < 6655
  split_ifs <;> omega

/- The chip after one byte has been read. -/
def Sys.advance (s : Sys) : Sys :=
  { s with core := { s.core with regs := setPair s.core.regs 0x00 (readNext (pair s.core.regs 0x00)) } }

theorem readMem_succ (s : Sys) (n : ℕ) : s.readMem (n + 1) =
    (s.ram (pair s.core.regs 0x00) :: (s.advance.readMem n).1, (s.advance.readMem n).2) := rfl

theorem SameReceive.erdpt (h : SameReceive s t) : pair s.core.regs 0x00 = pair t.core.regs 0x00 := by
  unfold pair
  rw [h.regs 0 (by decide), h.regs 1 (by decide)]

theorem Abreast.advance (h : Abreast s₀ t₀ s t) : Abreast s₀ t₀ s.advance t.advance := by
  have hmove := (h.setReg (i := 0x00) (by decide) (BitVec.ofNat 8 (readNext (pair s.core.regs 0x00)))).setReg
    (i := 0x01) (by decide) (BitVec.ofNat 8 (readNext (pair s.core.regs 0x00) / 256))
  have hright : (t.setReg 0x00 (BitVec.ofNat 8 (readNext (pair s.core.regs 0x00)))).setReg 0x01
      (BitVec.ofNat 8 (readNext (pair s.core.regs 0x00) / 256)) = t.advance := by
    rw [h.receive.erdpt]
    rfl
  rw [hright] at hmove
  exact hmove

theorem InBuffer.advance (hin : InBuffer s) : InBuffer s.advance := by
  have hlt := readNext_lt hin
  have hpair : pair s.advance.core.regs 0x00 = readNext (pair s.core.regs 0x00) :=
    pair_setPair s.core.regs 0 (hlt.trans (by decide))
  unfold InBuffer
  rw [hpair]
  exact hlt

theorem Abreast.readMem (h : Abreast s₀ t₀ s t) (hin : InBuffer s) (n : ℕ) :
    (s.readMem n).1 = (t.readMem n).1 ∧ Abreast s₀ t₀ (s.readMem n).2 (t.readMem n).2 ∧
      InBuffer (s.readMem n).2 := by
  induction n generalizing s t with
  | zero => exact ⟨rfl, h, hin⟩
  | succ n ih =>
    have hbyte : s.ram (pair s.core.regs 0x00) = t.ram (pair t.core.regs 0x00) := by
      rw [← h.receive.erdpt]
      exact h.receive.ram _ hin
    obtain ⟨hrest, habreast, hbuf⟩ := ih h.advance hin.advance
    rw [readMem_succ, readMem_succ]
    exact ⟨congrArg₂ List.cons hbyte hrest, habreast, hbuf⟩

theorem InBuffer.tick (hin : InBuffer s) (env : Env) : InBuffer (s.tick env) := by
  unfold InBuffer
  rw [tick_core]
  exact hin

/-! ### A received frame -/

section Receive
variable (henv : Silent env) (henv' : Silent env')
include henv henv'

theorem twin_byte (h : Abreast s₀ t₀ s t) (hin : InBuffer s) :
    Twin (chip env) (chip env') (enc28j60ReadOp ENC28J60_READ_BUF_MEM 0)
      (fun _ s' t' => Abreast s₀ t₀ s' t' ∧ InBuffer s') s t := by
  obtain ⟨hbyte, habreast, hbuf⟩ := (h.tick henv henv').readMem (hin.tick env) 1
  exact Twin.perform (List.cons.inj hbyte).1 ⟨habreast, hbuf⟩

theorem twin_field (h : Abreast s₀ t₀ s t) (hin : InBuffer s) :
    Twin (chip env) (chip env') readField (fun _ s' t' => Abreast s₀ t₀ s' t' ∧ InBuffer s') s t := by
  unfold readField
  refine (twin_byte henv henv' h hin).bind fun low s1 t1 h1 => ?_
  exact (twin_byte henv henv' h1.1 h1.2).bind fun high s2 t2 h2 => .ret h2

theorem twin_buffer (h : Abreast s₀ t₀ s t) (hin : InBuffer s) (len : Word) :
    Twin (chip env) (chip env') (enc28j60ReadBuffer len) (fun _ s' t' => Abreast s₀ t₀ s' t') s t := by
  obtain ⟨hdata, habreast, -⟩ := (h.tick henv henv').readMem (hin.tick env) len.toNat
  exact Twin.act hdata (.ret habreast)

theorem twin_write (h : Abreast s₀ t₀ s t) {address : Byte} (data : Byte)
    (hi : Plain (regIndex (bankOf address) address)) (hrx : RxReg (regIndex (bankOf address) address)) :
    Twin (chip env) (chip env') (enc28j60Write address data) (fun _ s' t' => Abreast s₀ t₀ s' t' ∧
      ∃ u, SameChip s u ∧ s' = u.setReg (regIndex (bankOf address) address) data) s t := by
  obtain ⟨u, hrun, hu, hbu⟩ := write_run henv h.coherent.1 address data
  obtain ⟨v, hrun', hv, hbv⟩ := write_run henv' h.coherent.2 address data
  rw [hbu.put hi] at hrun
  rw [hbv.put hi] at hrun'
  exact ⟨(), _, _, hrun, hrun', (h.same hu hv hbu.1 hbv.1).setReg hrx data, u, hu, rfl⟩

theorem twin_count (h : Abreast s₀ t₀ s t) :
    Twin (chip env) (chip env') (enc28j60Read EPKTCNT) (fun _ s' t' => Abreast s₀ t₀ s' t' ∧ SameChip s s') s t := by
  obtain ⟨u, hrun, hu, hbu⟩ := read_run henv h.coherent.1 EPKTCNT
  obtain ⟨v, hrun', hv, hbv⟩ := read_run henv' h.coherent.2 EPKTCNT
  have hanswer (e : Env) {w : Sys} (hw : Banked EPKTCNT w.core) :
      (w.answer e (ENC28J60_READ_CTRL_REG ||| (EPKTCNT &&& ADDR_MASK)) EPKTCNT).1 = BitVec.ofNat 8 w.unread := by
    have hindex : w.core.index EPKTCNT = 0x39 := hw.index
    unfold Sys.answer
    rw [if_neg (by decide), if_pos hindex]
  have hsame := h.same hu hv hbu.1 hbv.1
  rw [hanswer env hbu] at hrun
  rw [hanswer env' hbv, ← hsame.receive.unread] at hrun'
  exact ⟨_, u, v, hrun, hrun', hsame, hu⟩

theorem twin_storeNext (h : Abreast s₀ t₀ s t) (next : Word) :
    Twin (chip env) (chip env') (perform (Op.storeNext next)) (fun _ s' t' => Abreast s₀ t₀ s' t' ∧
      s'.core.regs = s.core.regs) s t := by
  have htick := h.tick henv henv'
  have hr := htick.receive
  refine Twin.perform rfl ⟨⟨?_, ?_, ?_, ?_⟩, ?_⟩
  · exact ⟨hr.regs, hr.rxen, hr.ram, hr.rxrd, rfl, hr.rxwr, hr.unread, hr.received⟩
  · exact ⟨htick.left.regs, htick.left.econ1, htick.left.ram⟩
  · exact ⟨htick.right.regs, htick.right.econ1, htick.right.ram⟩
  · exact ⟨htick.coherent.1.congr rfl rfl, htick.coherent.2.congr rfl rfl⟩
  · show (s.tick env).core.regs = _
    rw [tick_core]

theorem Abreast.loadNext (h : Abreast s₀ t₀ s t) :
    (chip env .loadNext s).1 = (chip env' .loadNext t).1 := (h.tick henv henv').receive.next

theorem twin_decrement (h : Abreast s₀ t₀ s t) :
    Twin (chip env) (chip env') (enc28j60WriteOp ENC28J60_BIT_FIELD_SET ECON2 ECON2_PKTDEC)
      (fun _ s' t' => Abreast s₀ t₀ s' t') s t := by
  have htick := h.tick henv henv'
  have hput (e : Env) (w : Sys) : (chip e (.writeOp ENC28J60_BIT_FIELD_SET ECON2 ECON2_PKTDEC) w).2 =
      { (w.tick e).setReg 0x1e (((w.tick e).core.regs 0x1e ||| ECON2_PKTDEC) &&& ~~~ECON2_PKTDEC) with
        unread := (w.tick e).unread - 1 } :=
    (@command_set e (w.tick e) ECON2 ECON2_PKTDEC).trans (put_pktdec (w.tick e))
  have hset := htick.setReg (i := 0x1e) (by decide) (((s.tick env).core.regs 0x1e ||| ECON2_PKTDEC) &&& ~~~ECON2_PKTDEC)
  have hreg : (s.tick env).core.regs 0x1e = (t.tick env').core.regs 0x1e := htick.receive.regs 0x1e (by decide)
  have hcount : (s.tick env).unread - 1 = (t.tick env').unread - 1 := congrArg (· - 1) htick.receive.unread
  refine Twin.perform rfl ?_
  rw [hput, hput, ← hreg]
  have hr := hset.receive
  exact ⟨⟨hr.regs, hr.rxen, hr.ram, hr.rxrd, hr.next, hr.rxwr, hcount, hr.received⟩,
    ⟨hset.left.regs, hset.left.econ1, hset.left.ram⟩, ⟨hset.right.regs, hset.right.econ1, hset.right.ram⟩,
    hset.coherent.1.congr rfl rfl, hset.coherent.2.congr rfl rfl⟩

theorem twin_limit (h : Abreast s₀ t₀ s t) (data : Byte) :
    Twin (chip env) (chip env') (enc28j60Write ERXRDPTH data) (fun _ s' t' => Abreast s₀ t₀ s' t') s t := by
  obtain ⟨u, hrun, hu, hbu⟩ := write_run henv h.coherent.1 ERXRDPTH data
  obtain ⟨v, hrun', hv, hbv⟩ := write_run henv' h.coherent.2 ERXRDPTH data
  have hset := (h.same hu hv hbu.1 hbv.1).setReg (i := 0x0d) (by decide) data
  have hlow : u.core.regs 0x0c = v.core.regs 0x0c := (h.same hu hv hbu.1 hbv.1).receive.regs 0x0c (by decide)
  have hr := hset.receive
  rw [hbu.put_limit] at hrun
  rw [hbv.put_limit] at hrun'
  refine ⟨(), _, _, hrun, hrun', ⟨?_, ?_, ?_, ?_⟩⟩
  · exact ⟨hr.regs, hr.rxen, hr.ram, congrArg (fun b : Byte => b.toNat + 256 * data.toNat) hlow, hr.next, hr.rxwr,
      hr.unread, hr.received⟩
  · exact ⟨hset.left.regs, hset.left.econ1, hset.left.ram⟩
  · exact ⟨hset.right.regs, hset.right.econ1, hset.right.ram⟩
  · exact ⟨hset.coherent.1.congr rfl rfl, hset.coherent.2.congr rfl rfl⟩

/- ERDPT is set to NextPacketPtr. -/
theorem twin_seek {α : Type} {Q : α → Sys → Sys → Prop} {rest : Drv α} (h : Abreast s₀ t₀ s t)
    (hlt : s.core.NextPacketPtr.toNat < RXSIZE)
    (hrest : ∀ s' t', Abreast s₀ t₀ s' t' → InBuffer s' → Twin (chip env) (chip env') rest Q s' t') :
    Twin (chip env) (chip env') (do
      enc28j60Write ERDPTL (lowByte (← perform Op.loadNext))
      enc28j60Write ERDPTH (highByte (← perform Op.loadNext))
      rest) Q s t := by
  have hload (w : Sys) : (chip env .loadNext w).1 = w.core.NextPacketPtr := by
    show (w.tick env).core.NextPacketPtr = _
    rw [tick_core]
  refine Twin.act (h.loadNext henv henv') ?_
  rw [hload]
  have h1 := h.tick henv henv'
  refine (twin_write henv henv' (s := (chip env .loadNext s).2) h1 (lowByte s.core.NextPacketPtr) (by decide)
    (by decide)).bind fun _ s1 t1 hs1 => ?_
  obtain ⟨h2, u, hu, rfl⟩ := hs1
  have hnext : u.core.NextPacketPtr = s.core.NextPacketPtr := by
    rw [← hu.1.next]
    exact hload s
  refine Twin.act (h2.loadNext henv henv') ?_
  rw [hload]
  have h3 := h2.tick henv henv'
  refine (twin_write henv henv' h3 (highByte (u.setReg 0x00 (lowByte s.core.NextPacketPtr)).core.NextPacketPtr)
    (by decide) (by decide)).bind fun _ s2 t2 hs2 => ?_
  obtain ⟨h4, v, hv, rfl⟩ := hs2
  refine hrest _ _ h4 ?_
  have hpair : pair (v.setReg 0x01 (highByte u.core.NextPacketPtr)).core.regs 0x00 = s.core.NextPacketPtr.toNat := by
    unfold pair
    rw [setReg_other v (by decide), setReg_same, ← hv.1.regs 0 (by decide), hnext]
    have hreg : (chip env .loadNext (u.setReg 0x00 (lowByte s.core.NextPacketPtr))).2.core.regs 0x00 =
        lowByte s.core.NextPacketPtr := by
      show (Sys.tick env _).core.regs 0 = _
      rw [tick_core, setReg_same]
    exact (congrArg (fun b : Byte => b.toNat + 256 * (highByte s.core.NextPacketPtr).toNat) hreg).trans
      (pointer_bytes s.core.NextPacketPtr hlt)
  show pair _ 0x00 < RXSIZE
  exact (congrArg (· < RXSIZE) hpair).mpr hlt

omit henv henv' in
theorem twin_pass {α : Type} (a : α) (h : Abreast s₀ t₀ s t) :
    Twin (chip env) (chip env') (pure a : Drv α) (fun _ s' t' => Abreast s₀ t₀ s' t') s t := .ret h

/- The frame's room is given back. -/
theorem twin_release {α : Type} (a : α) (h : Abreast s₀ t₀ s t) :
    Twin (chip env) (chip env') (do
      enc28j60Write ERXRDPTL (lowByte (← perform Op.loadNext))
      enc28j60Write ERXRDPTH (highByte (← perform Op.loadNext))
      enc28j60WriteOp ENC28J60_BIT_FIELD_SET ECON2 ECON2_PKTDEC
      return a) (fun _ s' t' => Abreast s₀ t₀ s' t') s t := by
  refine Twin.act (h.loadNext henv henv') ?_
  have h1 := h.tick henv henv'
  refine (twin_write henv henv' h1 _ (by decide) (by decide)).bind fun _ s1 t1 hs1 => ?_
  refine Twin.act (hs1.1.loadNext henv henv') ?_
  have h2 := hs1.1.tick henv henv'
  refine (twin_limit henv henv' h2 _).bind fun _ s2 t2 h3 => ?_
  exact (twin_decrement henv henv' h3).bind fun _ s3 t3 h4 => .ret h4

/-- `enc28j60PacketReceive` depends on the receive half only and leaves the other half alone. -/
theorem packetReceive_twin {m : ℕ} (hready : Ready m s) (hsame : SameReceive s t) (hct : t.core.Coherent)
    (maxlen : Word) : Twin (chip env) (chip env') (enc28j60PacketReceive maxlen)
      (fun _ s' t' => Abreast s t s' t') s t := by
  have hlt : s.core.NextPacketPtr.toNat < RXSIZE := hready.next ▸ hready.queue.start
  have h : Abreast s t s t := ⟨hsame, .refl s, .refl t, hready.coherent, hct⟩
  unfold enc28j60PacketReceive
  refine (twin_count henv henv' h).bind fun count s1 t1 h1 => ?_
  obtain ⟨h1, hs1⟩ := h1
  by_cases hz : count = 0
  · rw [if_pos hz]
    exact twin_pass _ h1
  rw [if_neg hz]
  refine twin_seek henv henv' h1 (hs1.1.next ▸ hlt) fun s2 t2 h2 hin2 => ?_
  refine (twin_byte henv henv' h2 hin2).bind fun low s3 t3 h3 => ?_
  refine (twin_storeNext henv henv' h3.1 _).bind fun _ s4 t4 h4 => ?_
  have hin4 : InBuffer s4 := by
    unfold InBuffer
    rw [h4.2]
    exact h3.2
  refine (twin_byte henv henv' h4.1 hin4).bind fun high s5 t5 h5 => ?_
  refine Twin.act (h5.1.loadNext henv henv') ?_
  refine (twin_storeNext henv henv' (h5.1.tick henv henv') _).bind fun _ s6 t6 h6 => ?_
  have hin6 : InBuffer s6 := by
    unfold InBuffer
    rw [h6.2]
    exact h5.2.tick env
  refine (twin_field henv henv' h6.1 hin6).bind fun len s7 t7 h7 => ?_
  refine (twin_field henv henv' h7.1 h7.2).bind fun rxstat s8 t8 h8 => ?_
  refine Twin.bind (Q := fun _ s' t' => Abreast s t s' t') ?_ fun result s9 t9 h9 => ?_
  · by_cases hr : rxstat &&& 0x80 = 0
    · rw [if_pos hr]
      exact twin_pass _ h8.1
    · rw [if_neg hr]
      exact (twin_buffer henv henv' h8.1 h8.2 _).bind fun data s9 t9 h9 => twin_pass _ h9
  · exact twin_release henv henv' _ h9

end Receive

/- In particular nothing is lost between the two runs of one call. -/
theorem chipReceive_twin (henv : Silent env) (henv' : Silent env') {m : ℕ} (hready : Ready m s)
    (hsame : SameReceive s t) (hct : t.core.Coherent) {maxlen : Word} (hmax : 1 ≤ maxlen.toNat) :
    ∃ x s' t', run (chip env) (enc28j60PacketReceive maxlen) s = (some x, s') ∧
      run (chip env') (enc28j60PacketReceive maxlen) t = (some x, t') ∧ Abreast s t s' t' ∧ ∃ m', Ready m' s' := by
  obtain ⟨x, s', t', hrun, hrun', habreast⟩ := packetReceive_twin henv henv' hready hsame hct maxlen
  have hdoes : Does env False _ (enc28j60PacketReceive maxlen) s := packetReceive_does hready hmax
  obtain ⟨x', u, hrun'', -, -, m', -, -, -, hr⟩ := wp_total hdoes
  rw [hrun] at hrun''
  cases hrun''
  exact ⟨x, s', t', hrun, hrun', habreast, m', hr⟩

end MultiEmbedded.Enc
