import MultiEmbedded.Enc.Tandem

/-!
# The operations of enc28j60PacketSend

Each is a step on the transmit half. The frame stays out of the receive buffer as long
as it fits behind it.
-/

namespace MultiEmbedded.Enc
open Prog RingCells

variable {env : Env} {α : Type} {s t : Sys} {a b : Line}

/- An operation that is a step `g` on the transmit half, `P` being known. -/
structure TransmitStep (env : Env) (o : Op) (f : o.Res → α) (g : Sys → Sys) (P : Sys → Prop) : Prop where
  same : ∀ n s, (chip (env.still n) o s).2 = g (s.tick (env.still n))
  result : ∀ n s t, SameTransmit s t → f (chip (env.still n) o s).1 = f (chip (env.still n) o t).1
  receive : ∀ s, P s → SameReceive s (g s)
  transmit : ∀ s t, P s → SameTransmit s t → SameTransmit (g s) (g t)
  coherent : ∀ s, s.core.Coherent → (g s).core.Coherent

theorem tick_chip (env : Env) (n : ℕ) (s : Sys) : SameChip s (s.tick (env.still n)) := .tick (still_silent env n) s

theorem tick_coherent (h : s.core.Coherent) (env : Env) : (s.tick env).core.Coherent := by
  rw [tick_core]
  exact h

theorem TransmitStep.movable {o : Op} {f : o.Res → α} {g : Sys → Sys} {P : Sys → Prop} (h : TransmitStep env o f g P)
    (P' : Sys → Prop) (hP : OfTransmit P) (hq : ∀ s, P s → P' (g s)) :
    Movable env (fun a _ => P a.sys) (.act o fun r => .ret (f r)) fun _ a _ => P' a.sys := by
  refine Movable.op (fun a b hp hab => ?_) fun _ a b hp _ => hp
  have hpa : P (a.sys.tick (env.still a.reads)) := hP _ _ (tick_chip env a.reads a.sys).2 hp
  have hpb : P (b.sys.tick (env.still b.reads)) :=
    hP _ _ (hab.transmit.trans (tick_chip env b.reads b.sys).2) hp
  have hsa : (line env o a).2.sys = g (a.sys.tick (env.still a.reads)) := h.same a.reads a.sys
  have hsb : (line env o b).2.sys = g (b.sys.tick (env.still b.reads)) := h.same b.reads b.sys
  have hres : f (line env o b).1 = f (line env o a).1 := by
    show f (chip (env.still b.reads) o b.sys).1 = f (chip (env.still a.reads) o a.sys).1
    rw [← hab.reads]
    exact (h.result a.reads a.sys b.sys hab.transmit).symm
  have htx : SameTransmit (a.sys.tick (env.still a.reads)) (b.sys.tick (env.still b.reads)) :=
    ((tick_chip env a.reads a.sys).2.symm.trans hab.transmit).trans (tick_chip env b.reads b.sys).2
  refine ⟨some (f (line env o a).1), (line env o a).2, (line env o b).2, rfl, ?_, ⟨?_, ?_, ?_, ?_⟩, ?_, ?_, ?_⟩
  · exact congrArg (fun r => (some r, (line env o b).2)) hres
  · rw [hsa, hsb]
    exact h.transmit _ _ hpa htx
  · exact congrArg (· + counts o) hab.reads
  · rw [hsa]
    exact h.coherent _ (tick_coherent hab.coherent.1 _)
  · rw [hsb]
    exact h.coherent _ (tick_coherent hab.coherent.2 _)
  · rw [hsa]
    exact (tick_chip env a.reads a.sys).1.trans (h.receive _ hpa)
  · rw [hsb]
    exact (tick_chip env b.reads b.sys).1.trans (h.receive _ hpb)
  · intro v hv
    rw [hsa]
    exact hq _ hpa

/-! ### Reading a common register -/

theorem readOp_same (e : Env) {address : Byte} (s : Sys) :
    (chip e (.readOp ENC28J60_READ_CTRL_REG address) s).2 = s.tick e := by
  have hcmd : ∀ a : Byte, ENC28J60_READ_CTRL_REG ||| (a &&& ADDR_MASK) ≠ ENC28J60_READ_BUF_MEM := by
    decide +kernel
  show ((s.tick e).answer e (ENC28J60_READ_CTRL_REG ||| (address &&& ADDR_MASK)) address).2 = _
  unfold Sys.answer
  rw [if_neg (hcmd address)]
  split_ifs <;> rfl

theorem readStep {address : Byte} {f : Byte → α} (hres : ∀ n s t, SameTransmit s t →
    f (chip (env.still n) (.readOp ENC28J60_READ_CTRL_REG address) s).1 =
      f (chip (env.still n) (.readOp ENC28J60_READ_CTRL_REG address) t).1) :
    TransmitStep env (.readOp ENC28J60_READ_CTRL_REG address) f id fun _ => True where
  same n s := readOp_same (env.still n) s
  result := hres
  receive s _ := .refl s
  transmit _ _ _ h := h
  coherent _ h := h

theorem read_econ1 (e : Env) (s : Sys) : (chip e (.readOp ENC28J60_READ_CTRL_REG ECON1) s).1 =
    e.reading (s.tick e).clock 0x1f (s.core.regs 0x1f) := by
  rw [← tick_core e s]
  rfl

theorem read_eir (e : Env) (s : Sys) : (chip e (.readOp ENC28J60_READ_CTRL_REG EIR) s).1 =
    e.reading (s.tick e).clock 0x1c (s.core.regs 0x1c) := by
  rw [← tick_core e s]
  rfl

theorem poll_step (env : Env) : TransmitStep env (.readOp ENC28J60_READ_CTRL_REG ECON1)
    (fun v => v &&& ECON1_TXRTS != 0) id fun _ => True := by
  refine readStep fun n s t h => ?_
  have hmask : ∀ v w : Byte, ((v &&& (ECON1_BSEL1 ||| ECON1_BSEL0)) ||| w) &&& ECON1_TXRTS = w &&& ECON1_TXRTS := by
    intro v w
    rw [BitVec.and_or_distrib_right, BitVec.and_assoc]
    have hzero : (ECON1_BSEL1 ||| ECON1_BSEL0) &&& ECON1_TXRTS = 0#8 := by decide
    rw [hzero, BitVec.and_zero, BitVec.zero_or]
  have hread (s : Sys) : (chip (env.still n) (.readOp ENC28J60_READ_CTRL_REG ECON1) s).1 &&& ECON1_TXRTS =
      bselClear (env.reading n 0x1f (bselClear (s.core.regs 0x1f))) &&& ECON1_TXRTS := by
    rw [read_econ1]
    exact hmask _ _
  rw [hread, hread, h.econ1]

theorem eir_step (env : Env) : TransmitStep env (.readOp ENC28J60_READ_CTRL_REG EIR) id id fun _ => True := by
  refine readStep fun n s t h => ?_
  have hread (s : Sys) : (chip (env.still n) (.readOp ENC28J60_READ_CTRL_REG EIR) s).1 =
      env.reading n 0x1c (s.core.regs 0x1c) := read_eir (env.still n) s
  show (chip (env.still n) (.readOp ENC28J60_READ_CTRL_REG EIR) s).1 = _
  rw [hread, h.regs 0x1c (by decide) (by decide)]
  exact (hread t).symm

/-! ### Transmission request -/

theorem econ1_step {op : Byte} {data : Byte} {f : Byte → Byte}
    (hput : ∀ e s, (chip e (.writeOp op ECON1 data) s).2 = (s.tick e).put ECON1 f)
    (hrx : ∀ v, f v &&& ECON1_RXEN = v &&& ECON1_RXEN)
    (htx : ∀ v w, bselClear v = bselClear w → bselClear (f v) = bselClear (f w))
    (hbank : ∀ v, (f v).setWidth 2 = (v.setWidth 2 : BitVec 2)) :
    TransmitStep env (.writeOp op ECON1 data) id (fun s => s.put ECON1 f) fun _ => True where
  same n s := hput (env.still n) s
  result _ _ _ _ := rfl
  receive s _ := by
    rw [put_econ1_eq]
    refine ⟨fun i hi => ?_, ?_, fun _ _ => rfl, rfl, rfl, rfl, rfl, rfl⟩
    · have hie : i ≠ 0x1f := fun h => econ1_not_rx (h ▸ hi)
      rw [setReg_other s hie]
    · rw [setReg_same, hrx]
  transmit s t _ h := by
    rw [put_econ1_eq, put_econ1_eq]
    refine ⟨fun i hi hie => ?_, ?_, h.ram⟩
    · rw [setReg_other s hie, setReg_other t hie]
      exact h.regs i hi hie
    · rw [setReg_same, setReg_same]
      exact htx _ _ h.econ1
  coherent s h := by
    show s.core.Enc28j60Bank = BitVec.setWidth 8 (BitVec.setWidth 2 ((s.core.put ECON1 f).regs 0x1f)) <<< 5
    rw [put_econ1, hbank]
    exact h

theorem setTxrts_step (env : Env) : TransmitStep env (.writeOp ENC28J60_BIT_FIELD_SET ECON1 ECON1_TXRTS) id
    (fun s => s.put ECON1 fun v => v ||| ECON1_TXRTS) fun _ => True := by
  refine econ1_step (fun e s => @command_set e (s.tick e) ECON1 ECON1_TXRTS) (by decide +kernel) ?_ (by decide +kernel)
  intro v w h
  have hclear : ∀ u : Byte, bselClear (u ||| ECON1_TXRTS) = bselClear u ||| ECON1_TXRTS := by decide +kernel
  rw [hclear, hclear, h]

theorem clearTxrts_step (env : Env) : TransmitStep env (.writeOp ENC28J60_BIT_FIELD_CLR ECON1 ECON1_TXRTS) id
    (fun s => s.put ECON1 fun v => v &&& ~~~ECON1_TXRTS) fun _ => True := by
  refine econ1_step (fun e s => @command_clear e (s.tick e) ECON1 ECON1_TXRTS) (by decide +kernel) ?_ (by decide +kernel)
  intro v w h
  have hclear : ∀ u : Byte, bselClear (u &&& ~~~ECON1_TXRTS) = bselClear u &&& ~~~ECON1_TXRTS := by decide +kernel
  rw [hclear, hclear, h]

/-! ### The transmit buffer -/

/- EWRPT. -/
def WritesAt (p : ℕ) (s : Sys) : Prop := pair s.core.regs 0x02 = p

theorem SameTransmit.pair (h : SameTransmit s t) : pair s.core.regs 0x02 = pair t.core.regs 0x02 := by
  unfold Enc.pair
  rw [h.regs 2 (by decide) (by decide), h.regs 3 (by decide) (by decide)]

theorem writesAt_transmit (p : ℕ) : OfTransmit (WritesAt p) := fun _ _ h hp => h.pair.symm.trans hp

theorem writeMem_regs (s : Sys) (b : Byte) {i : ℕ} (h2 : i ≠ 2) (h3 : i ≠ 3) :
    (s.writeMem b).core.regs i = s.core.regs i := setPair_of_ne _ h2 h3 _

theorem writeMem_next {p : ℕ} (h : WritesAt p s) (b : Byte) : WritesAt ((p + 1) % 0x2000) (s.writeMem b) := by
  have hlt : (pair s.core.regs 0x02 + 1) % 0x2000 < 65536 := (Nat.mod_lt _ (by decide)).trans (by decide)
  exact (pair_setPair s.core.regs 0x02 hlt).trans (congrArg (fun p => (p + 1) % 0x2000) h)

theorem writeMem_receive {p : ℕ} (h : WritesAt p s) (hp : RXSIZE ≤ p) (b : Byte) : SameReceive s (s.writeMem b) := by
  have hi : ∀ i, RxReg i → i ≠ 2 ∧ i ≠ 3 := by
    intro i hi
    rcases hi with rfl | rfl | rfl | rfl | rfl <;> decide
  refine ⟨fun i hrx => ?_, ?_, fun j hj => ?_, rfl, rfl, rfl, rfl, rfl⟩
  · rw [writeMem_regs s b (hi i hrx).1 (hi i hrx).2]
  · rw [writeMem_regs s b (by decide) (by decide)]
  · have hne : j ≠ pair s.core.regs 0x02 := by
      have heq : pair s.core.regs 0x02 = p := h
      omega
    exact (Function.update_of_ne hne _ _).symm

theorem writeMem_transmit (h : SameTransmit s t) (b : Byte) : SameTransmit (s.writeMem b) (t.writeMem b) := by
  have hp : ((pair s.core.regs 0x02) + 1) % 0x2000 = (pair t.core.regs 0x02 + 1) % 0x2000 := by rw [h.pair]
  refine ⟨fun i hi hie => ?_, ?_, fun j hj => ?_⟩
  · show setPair s.core.regs 0x02 _ i = setPair t.core.regs 0x02 _ i
    rw [hp]
    unfold setPair
    by_cases h3 : i = 3
    · subst h3
      rw [Function.update_self, Function.update_self]
    · rw [Function.update_of_ne h3, Function.update_of_ne h3]
      by_cases h2 : i = 2
      · subst h2
        rw [Function.update_self, Function.update_self]
      · rw [Function.update_of_ne h2, Function.update_of_ne h2]
        exact h.regs i hi hie
  · rw [writeMem_regs s b (by decide) (by decide), writeMem_regs t b (by decide) (by decide)]
    exact h.econ1
  · show Function.update s.ram (pair s.core.regs 0x02) b j = Function.update t.ram (pair t.core.regs 0x02) b j
    rw [h.pair]
    by_cases hj' : j = pair t.core.regs 0x02
    · rw [hj', Function.update_self, Function.update_self]
    · rw [Function.update_of_ne hj', Function.update_of_ne hj']
      exact h.ram j hj

theorem writeMem_coherent (h : s.core.Coherent) (b : Byte) : (s.writeMem b).core.Coherent :=
  h.congr (writeMem_regs s b (by decide) (by decide)) rfl

theorem controlByte_step (env : Env) {p : ℕ} (hp : RXSIZE ≤ p) :
    TransmitStep env (.writeOp ENC28J60_WRITE_BUF_MEM 0 0) id (fun s => s.writeMem 0) (WritesAt p) where
  same _ _ := rfl
  result _ _ _ _ := rfl
  receive _ h := writeMem_receive h hp 0
  transmit _ _ _ h := writeMem_transmit h 0
  coherent _ h := writeMem_coherent h 0

/- The last byte may be the last one of packet memory. -/
theorem writeBuffer_receive (data : List Byte) {p : ℕ} (h : WritesAt p s) (hp : RXSIZE ≤ p)
    (hfit : p + data.length ≤ 0x2000) : SameReceive s (data.foldl Sys.writeMem s) := by
  induction data generalizing s p with
  | nil => exact .refl s
  | cons b data ih =>
    rw [List.length_cons] at hfit
    refine (writeMem_receive h hp b).trans ?_
    cases data with
    | nil => exact .refl _
    | cons b' data =>
      have hnext := writeMem_next h b
      rw [List.length_cons] at hfit
      rw [Nat.mod_eq_of_lt (by omega)] at hnext
      exact ih hnext (by omega) (by rw [List.length_cons]; omega)

theorem writeBuffer_transmit (data : List Byte) (h : SameTransmit s t) :
    SameTransmit (data.foldl Sys.writeMem s) (data.foldl Sys.writeMem t) := by
  induction data generalizing s t with
  | nil => exact h
  | cons b data ih => exact ih (writeMem_transmit h b)

theorem writeBuffer_coherent (data : List Byte) (h : s.core.Coherent) : (data.foldl Sys.writeMem s).core.Coherent := by
  induction data generalizing s with
  | nil => exact h
  | cons b data ih => exact ih (writeMem_coherent h b)

theorem writeBuffer_step (env : Env) (data : List Byte) {p : ℕ} (hp : RXSIZE ≤ p) (hfit : p + data.length ≤ 0x2000) :
    TransmitStep env (.writeBuffer data) id (fun s => data.foldl Sys.writeMem s) (WritesAt p) where
  same _ _ := rfl
  result _ _ _ _ := rfl
  receive _ h := writeBuffer_receive data h hp hfit
  transmit _ _ _ h := writeBuffer_transmit data h
  coherent _ h := writeBuffer_coherent data h

/-! ### Registers of a bank -/

theorem writeRegister_tandem {address data : Byte} {P P' : Sys → Prop} (hP : OfTransmit P)
    (hi : Plain (regIndex (bankOf address) address)) (hrx : ¬ RxReg (regIndex (bankOf address) address))
    (he : regIndex (bankOf address) address ≠ 0x1f)
    (hq : ∀ s, P s → P' (s.setReg (regIndex (bankOf address) address) data))
    (hab : Selected P address a b) (h : Beside a b) :
    Tandem env (enc28j60WriteOp ENC28J60_WRITE_CTRL_REG address data) (fun _ a _ => P' a.sys) a b := by
  obtain ⟨hp, hba, hbb⟩ := hab
  have hput (l : Line) (hb : Banked address l.sys.core) : (line env (.writeOp ENC28J60_WRITE_CTRL_REG address data) l).2.sys =
      (l.sys.tick (env.still l.reads)).setReg (regIndex (bankOf address) address) data :=
    (@command_write (env.still l.reads) (l.sys.tick (env.still l.reads)) address data).trans
      ((hb.tick (env.still l.reads)).put hi)
  have htx : SameTransmit (a.sys.tick (env.still a.reads)) (b.sys.tick (env.still b.reads)) :=
    ((tick_chip env a.reads a.sys).2.symm.trans h.transmit).trans (tick_chip env b.reads b.sys).2
  refine ⟨some (), _, _, rfl, rfl, ⟨?_, h.reads, ?_, ?_⟩, ?_, ?_, fun _ _ => ?_⟩
  · rw [hput a hba, hput b hbb]
    exact htx.setBoth he data
  · rw [hput a hba]
    exact setReg_coherent (tick_coherent h.coherent.1 _) he data
  · rw [hput b hbb]
    exact setReg_coherent (tick_coherent h.coherent.2 _) he data
  · rw [hput a hba]
    exact (tick_chip env a.reads a.sys).1.trans (.setReg hrx he data)
  · rw [hput b hbb]
    exact (tick_chip env b.reads b.sys).1.trans (.setReg hrx he data)
  · show P' (line env (.writeOp ENC28J60_WRITE_CTRL_REG address data) a).2.sys
    rw [hput a hba]
    exact hq _ (hP _ _ (tick_chip env a.reads a.sys).2 hp)

theorem write_movable (address data : Byte) {P : Sys → Prop} (P' : Sys → Prop) (hP : OfTransmit P) (hb : BankSpecific address)
    (hi : Plain (regIndex (bankOf address) address)) (hrx : ¬ RxReg (regIndex (bankOf address) address))
    (he : regIndex (bankOf address) address ≠ 0x1f)
    (hq : ∀ s, P s → P' (s.setReg (regIndex (bankOf address) address) data)) :
    Movable env (fun a _ => P a.sys) (enc28j60Write address data) fun _ a _ => P' a.sys := by
  unfold enc28j60Write
  refine (setBank_movable address hP).bind fun _ => ?_
  refine Movable.op (fun a b hab h => writeRegister_tandem hP hi hrx he hq hab h) fun hnot => ?_
  exact absurd ⟨Or.inr (Or.inl rfl), Or.inl hb⟩ hnot

theorem ofTransmit_true : OfTransmit fun _ => True := fun _ _ _ _ => trivial

theorem TransmitStep.free {o : Op} {f : o.Res → α} {g : Sys → Sys} (h : TransmitStep env o f g fun _ => True) {I : Line → Line → Prop} :
    Movable env I (.act o fun r => .ret (f r)) fun _ _ _ => True := by
  have hall : Movable env (fun _ _ => True) (.act o fun r => .ret (f r)) fun _ _ _ => True :=
    h.movable (fun _ => True) ofTransmit_true fun _ _ => trivial
  exact hall.mono (fun _ _ _ => trivial) fun _ _ _ h => h

theorem readEir_movable (env : Env) : Movable env (fun _ _ => True) (enc28j60Read EIR) fun _ _ _ => True := by
  unfold enc28j60Read
  refine (setBank_movable EIR ofTransmit_true).bind fun _ => ?_
  exact (eir_step env).free

theorem poll_movable (env : Env) : Movable env (fun _ _ => True)
    (do return (← enc28j60Read ECON1) &&& ECON1_TXRTS != 0) fun _ _ _ => True := by
  have hsplit : (do return (← enc28j60Read ECON1) &&& ECON1_TXRTS != 0 : Drv Bool) = (do
      enc28j60SetBank ECON1
      return (← enc28j60ReadOp ENC28J60_READ_CTRL_REG ECON1) &&& ECON1_TXRTS != 0) := bind_assoc _ _ _
  rw [hsplit]
  refine (setBank_movable ECON1 ofTransmit_true).bind fun _ => ?_
  exact (poll_step env).free

/-! ### The call -/

theorem packetSend_movable (env : Env) (spin : ℕ) {len : Word} (packet : ℕ → Byte) (hfit : len.toNat ≤ 0x600) :
    Movable env (fun _ _ => True) (enc28j60PacketSend spin len packet) fun _ _ _ => True := by
  have hlow : OfTransmit fun s => s.core.regs 0x02 = lowByte TXSTART_INIT := fun s u h hs =>
    (h.regs 2 (by decide) (by decide)).symm.trans hs
  have hwr := writesAt_transmit TXSTART_INIT.toNat
  unfold enc28j60PacketSend
  refine (Movable.waitWhile (poll_movable env) spin).bind fun _ => ?_
  refine (write_movable EWRPTL _ (fun s => s.core.regs 0x02 = lowByte TXSTART_INIT) ofTransmit_true (by decide)
    (by decide) (by decide) (by decide) fun s _ => setReg_same s 2 _).bind fun _ => ?_
  refine (write_movable EWRPTH _ (WritesAt TXSTART_INIT.toNat) hlow (by decide) (by decide) (by decide)
    (by decide) fun s hs => ?_).bind fun _ => ?_
  · show pair (s.setReg 3 (highByte TXSTART_INIT)).core.regs 2 = _
    unfold pair
    rw [setReg_other s (by decide), hs, setReg_same]
    rfl
  have hkeep : ∀ s (i : ℕ) v, i ≠ 2 → i ≠ 3 → WritesAt TXSTART_INIT.toNat s → WritesAt TXSTART_INIT.toNat (s.setReg i v) := by
    intro s i v h2 h3 hs
    unfold WritesAt pair
    rw [setReg_other s h2.symm, setReg_other s h3.symm]
    exact hs
  refine (write_movable ETXNDL _ (WritesAt TXSTART_INIT.toNat) hwr (by decide) (by decide) (by decide) (by decide)
    fun s hs => hkeep s 6 _ (by decide) (by decide) hs).bind fun _ => ?_
  refine (write_movable ETXNDH _ (WritesAt TXSTART_INIT.toNat) hwr (by decide) (by decide) (by decide) (by decide)
    fun s hs => hkeep s 7 _ (by decide) (by decide) hs).bind fun _ => ?_
  refine Movable.bind ((controlByte_step env (by decide)).movable _ hwr fun s hs => writeMem_next hs 0) fun _ => ?_
  have hlen : (TXSTART_INIT.toNat + 1) % 0x2000 + ((List.range len.toNat).map packet).length ≤ 0x2000 := by
    rw [List.length_map, List.length_range]
    show (6655 + 1) % 8192 + len.toNat ≤ 8192
    omega
  have hframe : Movable env (fun a _ => WritesAt ((TXSTART_INIT.toNat + 1) % 0x2000) a.sys)
      (perform (Op.writeBuffer ((List.range len.toNat).map packet)) : Drv Unit) fun _ _ _ => True :=
    (writeBuffer_step env _ (by decide) hlen).movable (fun _ => True) (writesAt_transmit _) fun _ _ => trivial
  refine hframe.bind fun _ => ?_
  refine Movable.bind (setTxrts_step env).free fun _ => ?_
  refine (readEir_movable env).bind fun eir => ?_
  by_cases hfail : eir &&& EIR_TXERIF ≠ 0
  · rw [if_pos hfail]
    refine (setBank_movable ECON1 ofTransmit_true).bind fun _ => ?_
    exact (clearTxrts_step env).free
  · rw [if_neg hfail]
    exact Movable.pure fun _ _ _ => trivial

end MultiEmbedded.Enc
