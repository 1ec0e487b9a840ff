import MultiEmbedded.Enc.Queue

/-!
# Initialisation

Whatever state the chip and the driver were in: when `enc28j60Init` returns, the
receiver is on, its buffer is empty, and NextPacketPtr is where the first frame will be.
-/

namespace MultiEmbedded.Enc
open Prog RingCells

variable {env : Env}

/- The receiver is off and nothing is stored. -/
structure Off (s : Sys) : Prop where
  rxen : s.core.regs 0x1f &&& ECON1_RXEN = 0
  unread : s.unread = 0
  received : s.received = []

theorem Off.tick_eq {s : Sys} (h : Off s) (env : Env) :
    s.tick env = { s with clock := s.clock + 1 } := by
  have hfold : ∀ es : List Event, es.foldl Sys.arrive s = s := by
    intro es
    induction es with
    | nil => rfl
    | cons e es ih =>
      have he : s.arrive e = s := by
        unfold Sys.arrive
        rw [if_pos h.rxen]
      rw [List.foldl_cons, he]
      exact ih
  unfold Sys.tick
  rw [hfold]

/- While the receiver is off, also the write pointer stays. -/
theorem unbanked_off (env : Env) (φ : Core → ℕ → Prop) (h : ∀ c c' : Core, ∀ w, (∀ i, i ≠ 0x1f →
    c'.regs i = c.regs i) → c'.rxrd = c.rxrd → c'.NextPacketPtr = c.NextPacketPtr → φ c w → φ c' w) :
    Unbanked env fun s => Off s ∧ φ s.core s.rxwr where
  tick s hs := by
    rw [hs.1.tick_eq]
    exact ⟨⟨hs.1.rxen, hs.1.unread, hs.1.received⟩, hs.2⟩
  econ1 s f hf hs := by
    refine ⟨⟨?_, hs.1.unread, hs.1.received⟩, h s.core _ _ (fun i hi => put_regs hi) rfl rfl hs.2⟩
    change (s.core.put ECON1 f).regs 0x1f &&& ECON1_RXEN = 0
    rw [put_econ1, hf]
    exact hs.1.rxen
  bank s _ hs := ⟨⟨hs.1.rxen, hs.1.unread, hs.1.received⟩,
    h s.core _ _ (fun _ _ => rfl) rfl rfl hs.2⟩

theorem Off.setReg {s : Sys} (h : Off s) {i : ℕ} (hi : i ≠ 0x1f) (v : Byte) : Off (s.setReg i v) := by
  refine ⟨?_, h.unread, h.received⟩
  rw [setReg_other s hi.symm]
  exact h.rxen

theorem Off.withWr {s : Sys} (h : Off s) (w : ℕ) : Off { s with rxwr := w } :=
  ⟨h.rxen, h.unread, h.received⟩

/-! ### Setting the pointers -/

/- The start of the receive buffer also sets the write pointer. -/
theorem Banked.put_start {address data : Byte} {t : Sys} (h : Banked address t.core)
    (hi : regIndex (bankOf address) address = 0x08 ∨ regIndex (bankOf address) address = 0x09) :
    t.put address (fun _ => data) =
      { t.setReg (regIndex (bankOf address) address) data with
        rxwr := pair (t.setReg (regIndex (bankOf address) address) data).core.regs 0x08 } := by
  have hidx := h.index
  unfold Sys.put Core.put Sys.setReg
  rw [hidx]
  rcases hi with hi | hi
  · simp only [hi, Nat.reduceEqDiff, true_or, false_and, if_false, if_true]
  · simp only [hi, Nat.reduceEqDiff, or_true, false_and, if_false, if_true]

/- Write pointer, read limit and `NextPacketPtr` are at the start of the buffer. -/
def Empty (s : Sys) : Prop :=
  Off s ∧ (s.core.rxrd = 0 ∧ s.core.NextPacketPtr = 0 ∧ s.rxwr = 0)

theorem Empty.unbanked (env : Env) : Unbanked env Empty :=
  unbanked_off env (fun c w => c.rxrd = 0 ∧ c.NextPacketPtr = 0 ∧ w = 0)
    fun _ _ _ _ hr hn h => ⟨hr.trans h.1, hn.trans h.2.1, h.2.2⟩

def Stays (env : Env) {α : Type} (x : Drv α) : Prop :=
  Keeps (chip env) (fun _ _ => True) (fun s => s.core.Coherent ∧ Empty s) x

theorem write_stays (env : Env) {address : Byte} (data : Byte)
    (hi : Plain (regIndex (bankOf address) address))
    (hecon : regIndex (bankOf address) address ≠ 0x1f) : Stays env (enc28j60Write address data) := by
  intro s hs
  refine write_does (Empty.unbanked env) hs.2 hs.1 fun t hb ht => ?_
  rw [hb.put hi]
  exact ⟨setReg_coherent hb.1 hecon data, ht.1.setReg hecon data, ht.2⟩

theorem read_stays (env : Env) (address : Byte) : Stays env (enc28j60Read address) := by
  intro s hs
  refine wp_mono (read_does (Empty.unbanked env) hs.2 fun _ => hs.1) fun _ t ht => ?_
  exact ⟨ht.1.1, ht.2.1⟩

theorem setBank_stays (env : Env) (address : Byte) : Stays env (enc28j60SetBank address) := by
  intro s hs
  refine wp_mono (setBank_does (Empty.unbanked env) address hs.2 fun _ => hs.1) fun _ t ht => ?_
  exact ⟨ht.1.1, ht.2⟩

theorem phyWrite_stays (env : Env) (spin : ℕ) (address : Byte) (data : Word) :
    Stays env (enc28j60PhyWrite spin address data) := by
  unfold enc28j60PhyWrite
  refine (write_stays env _ (by decide) (by decide)).bind fun _ => ?_
  refine (write_stays env _ (by decide) (by decide)).bind fun _ => ?_
  refine (write_stays env _ (by decide) (by decide)).bind fun _ => ?_
  exact Keeps.waitWhile ((read_stays env MISTAT).bind fun _ => Keeps.pure _) spin

theorem printAddress_stays (env : Env) : Stays env printAddress := by
  unfold printAddress
  refine (read_stays env _).bind fun _ => ?_
  refine (read_stays env _).bind fun _ => ?_
  refine (read_stays env _).bind fun _ => ?_
  refine (read_stays env _).bind fun _ => ?_
  refine (read_stays env _).bind fun _ => ?_
  exact (read_stays env _).bind fun _ => Keeps.pure _

/- A raw bit-field command on a register that is plain in every bank. -/
theorem bitSet_stays (env : Env) {address : Byte} (data : Byte)
    (hi : ∀ b, Plain (regIndex b address) ∧ regIndex b address ≠ 0x1f) :
    Stays env (enc28j60WriteOp ENC28J60_BIT_FIELD_SET address data) := by
  intro s hs
  refine set_op ?_
  have ht := (Empty.unbanked env).tick s hs.2
  have hc : (s.tick env).core.Coherent := by
    rw [tick_core]
    exact hs.1
  obtain ⟨hplain, hecon⟩ := hi (s.tick env).core.bsel
  rw [put_plain hplain]
  exact ⟨setReg_coherent hc hecon _, ht.1.setReg hecon _, ht.2⟩

/- The pointers are set in this order: low byte first. -/
theorem pointers_does {α : Type} {Q : α → Sys → Prop} {rest : Drv α} {s : Sys} (hs : Off s)
    (hc : s.core.Coherent)
    (hrest : ∀ t, t.core.Coherent → Empty t → Does env True Q rest t) :
    Does env True Q (do
      perform (Op.storeNext RXSTART_INIT)
      enc28j60Write ERXSTL (lowByte RXSTART_INIT)
      enc28j60Write ERXSTH (highByte RXSTART_INIT)
      enc28j60Write ERXRDPTL (lowByte RXSTART_INIT)
      enc28j60Write ERXRDPTH (highByte RXSTART_INIT)
      rest) s := by
  have hP1 := unbanked_off env (fun c _ => c.NextPacketPtr = 0)
    fun _ _ _ _ _ hn h => hn.trans h
  have hP2 := unbanked_off env (fun c _ => c.NextPacketPtr = 0 ∧ c.regs 0x08 = 0)
    fun _ _ _ hreg _ hn h => ⟨hn.trans h.1, (hreg 0x08 (by decide)).trans h.2⟩
  have hP3 := unbanked_off env (fun c w => c.NextPacketPtr = 0 ∧ w = 0)
    fun _ _ _ _ _ hn h => ⟨hn.trans h.1, h.2⟩
  have hP4 := unbanked_off env
    (fun c w => c.NextPacketPtr = 0 ∧ w = 0 ∧ c.regs 0x0c = 0)
    fun _ _ _ hreg _ hn h => ⟨hn.trans h.1, h.2.1, (hreg 0x0c (by decide)).trans h.2.2⟩
  refine (wp_perform _ _ _).mpr ⟨trivial, ?_⟩
  have h0 : Off (chip env (.storeNext RXSTART_INIT) s).2 ∧
      (chip env (.storeNext RXSTART_INIT) s).2.core.NextPacketPtr = 0 ∧
      (chip env (.storeNext RXSTART_INIT) s).2.core.Coherent := by
    have ht : Off (s.tick env) := by
      rw [hs.tick_eq]
      exact ⟨hs.rxen, hs.unread, hs.received⟩
    refine ⟨⟨ht.rxen, ht.unread, ht.received⟩, rfl, ?_⟩
    refine Core.Coherent.congr (c := (s.tick env).core) ?_ rfl rfl
    rw [tick_core]
    exact hc
  refine (wp_bind _ _ _).mpr (write_does hP1 ⟨h0.1, h0.2.1⟩ h0.2.2 fun t hb ht => ?_)
  rw [hb.put_start (Or.inl rfl)]
  refine (wp_bind _ _ _).mpr (write_does hP2 
    ⟨(ht.1.setReg (i := 0x08) (by decide) _).withWr _, ht.2, setReg_same t 0x08 _⟩
    (setReg_coherent hb.1 (i := 0x08) (by decide) _) fun u hb hu => ?_)
  rw [hb.put_start (Or.inr rfl)]
  have hzero : pair (u.setReg 0x09 (highByte RXSTART_INIT)).core.regs 0x08 = 0 := by
    unfold pair
    rw [setReg_other u (by decide), hu.2.2]
    change _ + 256 * ((u.setReg 0x09 (highByte RXSTART_INIT)).core.regs 0x09).toNat = _
    rw [setReg_same]
    rfl
  refine (wp_bind _ _ _).mpr (write_does hP3 
    ⟨(hu.1.setReg (i := 0x09) (by decide) _).withWr _, hu.2.1, hzero⟩
    (setReg_coherent hb.1 (i := 0x09) (by decide) _) fun v hb hv => ?_)
  rw [hb.put (by decide)]
  refine (wp_bind _ _ _).mpr (write_does hP4 ⟨hv.1.setReg (i := 0x0c) (by decide) _, hv.2.1, hv.2.2,
    setReg_same v 0x0c _⟩ (setReg_coherent hb.1 (i := 0x0c) (by decide) _) fun w hb hw => ?_)
  rw [hb.put_limit]
  refine hrest _ ((setReg_coherent hb.1 (i := 0x0d) (by decide) _).congr rfl rfl)
    ⟨⟨(hw.1.setReg (i := 0x0d) (by decide) (highByte RXSTART_INIT)).rxen, hw.1.unread,
      hw.1.received⟩, ?_, hw.2.1, hw.2.2.1⟩
  change (w.core.regs 0x0c).toNat + 256 * (highByte RXSTART_INIT).toNat = 0
  rw [hw.2.2.2]
  rfl

theorem Empty.ready {s : Sys} (h : Empty s) (hc : s.core.Coherent) : Ready 0 s := by
  obtain ⟨hoff, hrd, hnext, hwr⟩ := h
  refine ⟨⟨List.prefix_refl _, Nat.zero_le _, ?_, ?_, ?_, ?_, ?_⟩, hc, ?_⟩
  · rw [hrd]
    decide
  · rw [hoff.received]
    exact hrd.trans hwr.symm
  · rw [hoff.received]
    decide
  · rw [hoff.received, hoff.unread]
    rfl
  · rw [hoff.unread]
    decide
  · rw [hnext, hrd]
    rfl

/- Turning the receiver on is the last command. -/
theorem rxen_does {s : Sys} (hs : Empty s) (hc : s.core.Coherent) :
    Does env True (fun _ t => Ready 0 t ∧ t.received = [])
      (enc28j60WriteOp ENC28J60_BIT_FIELD_SET ECON1 ECON1_RXEN) s := by
  refine set_op ?_
  have ht := (Empty.unbanked env).tick s hs
  have hct : (s.tick env).core.Coherent := by
    rw [tick_core]
    exact hc
  have hready := ht.ready hct
  refine ⟨⟨⟨hready.queue.known, hready.queue.taken, hready.queue.start, hready.queue.chain,
    hready.queue.room, hready.queue.count, hready.queue.few⟩, ?_, hready.next⟩, ht.1.received⟩
  have hbits : ∀ v : Byte, (v ||| ECON1_RXEN).setWidth 2 = (v.setWidth 2 : BitVec 2) := by
    decide +kernel
  change (s.tick env).core.Enc28j60Bank = BitVec.setWidth 8 (BitVec.setWidth 2
    (((s.tick env).core.put ECON1 fun v => v ||| ECON1_RXEN).regs 0x1f)) <<< 5
  rw [put_econ1, hbits]
  exact hct

theorem init_does (env : Env) (spin : ℕ) (macaddr : ℕ → Byte) (s : Sys) :
    Does env True (fun _ t => Ready 0 t ∧ t.received = []) (enc28j60Init spin macaddr) s := by
  unfold enc28j60Init
  refine (wp_perform _ _ _).mpr ⟨trivial, (wp_perform _ _ _).mpr ⟨trivial, ?_⟩⟩
  -- the reset turns the receiver off and selects bank 0 behind the cache
  have hP := unbanked_off env (fun _ _ => True) fun _ _ _ _ _ _ _ => trivial
  have hreset : Off (Sys.reset env (((s.tick env).tick env))) :=
    ⟨by change Function.update env.reset 0x1f 0 0x1f &&& ECON1_RXEN = 0
        rw [Function.update_self]
        rfl, rfl, rfl⟩
  have hbsel : (Sys.reset env (((s.tick env).tick env))).core.bsel = 0 := by
    change BitVec.setWidth 2 (Function.update env.reset 0x1f 0 0x1f) = 0
    rw [Function.update_self]
    rfl
  have htrust : (Sys.reset env (((s.tick env).tick env))).core.Enc28j60Bank = ESTAT &&& BANK_MASK →
      (Sys.reset env (((s.tick env).tick env))).core.Coherent := by
    intro hb
    unfold Core.Coherent
    rw [hbsel, hb]
    rfl
  refine (wp_bind _ _ _).mpr (wp_mono (wp_waitWhile
    (I := fun t => Off t ∧ (t.core.Enc28j60Bank = ESTAT &&& BANK_MASK → t.core.Coherent))
    (J := fun t => Off t ∧ t.core.Coherent) (fun t ht => ?_) (fun t ht => ⟨ht.1, fun _ => ht.2⟩)
    spin ⟨hreset, htrust⟩) fun _ t ht => ?_)
  · exact (wp_bind _ _ _).mpr (wp_mono (read_does hP ⟨ht.1, trivial⟩ ht.2)
      fun _ u hu => ⟨hu.2.1.1, hu.1.1⟩)
  refine pointers_does ht.1 ht.2 fun u hu he => ?_
  replace hu : u.core.Coherent ∧ Empty u := ⟨hu, he⟩
  iterate 13 refine (write_stays env _ (by decide) (by decide)).seq hu fun _ u hu => ?_
  refine (bitSet_stays env _ (by decide)).seq hu fun _ u hu => ?_
  iterate 11 refine (write_stays env _ (by decide) (by decide)).seq hu fun _ u hu => ?_
  refine (read_stays env _).seq hu fun b u hu => ?_
  have htail : ∀ v, v.core.Coherent ∧ Empty v → Does env True
      (fun _ t => Ready 0 t ∧ t.received = []) (do
        enc28j60PhyWrite spin PHCON1 PHCON1_PDPXMD
        enc28j60PhyWrite spin PHCON2 PHCON2_HDLDIS
        enc28j60SetBank ECON1
        enc28j60WriteOp ENC28J60_BIT_FIELD_SET EIE (EIE_INTIE ||| EIE_PKTIE ||| EIE_RXERIE)
        enc28j60WriteOp ENC28J60_BIT_FIELD_SET ECON1 ECON1_RXEN) v := by
    intro v hv
    refine (phyWrite_stays env spin _ _).seq hv fun _ v hv => ?_
    refine (phyWrite_stays env spin _ _).seq hv fun _ v hv => ?_
    refine (setBank_stays env _).seq hv fun _ v hv => ?_
    refine (bitSet_stays env _ (by decide)).seq hv fun _ v hv => ?_
    exact rxen_does hv.2 hv.1
  by_cases hb : b = macaddr 0
  · rw [if_pos hb]
    exact (printAddress_stays env).seq hu fun _ v hv => htail v hv
  · rw [if_neg hb]
    exact htail u hu

end MultiEmbedded.Enc
