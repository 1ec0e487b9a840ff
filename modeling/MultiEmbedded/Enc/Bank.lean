import MultiEmbedded.Enc.Chip

/-!
# The register bank

`enc28j60SetBank` trusts a cached copy of ECON1.BSEL. Whatever the chip answers,
every register access of the driver meets the bank it was made for.
-/

namespace MultiEmbedded.Enc
open Prog

/- The chip as far as the bank goes, the two statics, and how many bytes were read. -/
structure BankState where
  bsel : BitVec 2
  Enc28j60Bank : Byte
  NextPacketPtr : Word
  clock : ℕ

/- BSEL after a write command: WCR, BFS and BFC of ECON1 and the soft reset change it. -/
def bselAfter (command data : Byte) (bsel : BitVec 2) : BitVec 2 :=
  if command = ENC28J60_SOFT_RESET then 0
  else if command = ENC28J60_WRITE_CTRL_REG ||| ECON1 then data.setWidth 2
  else if command = ENC28J60_BIT_FIELD_SET ||| ECON1 then bsel ||| data.setWidth 2
  else if command = ENC28J60_BIT_FIELD_CLR ||| ECON1 then bsel &&& ~~~(data.setWidth 2)
  else bsel

/- The `n`-th byte the chip returns is `reading n`. -/
def bankChip (reading : ℕ → Byte) : (o : Op) → BankState → o.Res × BankState
  | .readOp _ _, s => (reading s.clock, { s with clock := s.clock + 1 })
  | .writeOp op address data, s =>
    ((), { s with bsel := bselAfter (op ||| (address &&& ADDR_MASK)) data s.bsel })
  | .readBuffer len, s => ((List.range len.toNat).map fun i => reading (s.clock + i),
    { s with clock := s.clock + len.toNat })
  | .writeBuffer _, s => ((), s)
  | .csHigh, s => ((), s)
  | .loadBank, s => (s.Enc28j60Bank, s)
  | .storeBank bank, s => ((), { s with Enc28j60Bank := bank })
  | .loadNext, s => (s.NextPacketPtr, s)
  | .storeNext next, s => ((), { s with NextPacketPtr := next })

def RegisterOp (op : Byte) : Prop :=
  op = ENC28J60_READ_CTRL_REG ∨ op = ENC28J60_WRITE_CTRL_REG ∨
    op = ENC28J60_BIT_FIELD_SET ∨ op = ENC28J60_BIT_FIELD_CLR

/-- A register access finds the chip in the bank of its address. -/
def InBank : Op → BankState → Prop
  | .readOp op address, s => RegisterOp op → BankSpecific address → s.bsel = bankOf address
  | .writeOp op address _, s => RegisterOp op → BankSpecific address → s.bsel = bankOf address
  | _, _ => True

def Coherent (s : BankState) : Prop := s.Enc28j60Bank = s.bsel.setWidth 8 <<< 5

instance (s : BankState) : Decidable (Coherent s) := inferInstanceAs (Decidable (_ = _))

/- What `enc28j60SetBank(address)` relies on: a cache that names the bank is right. -/
def Trusted (address : Byte) (s : BankState) : Prop :=
  s.Enc28j60Bank = address &&& BANK_MASK → Coherent s

def At (address : Byte) (s : BankState) : Prop := Coherent s ∧ s.bsel = bankOf address

theorem command_econ1 : ∀ address : Byte, address &&& ADDR_MASK ≠ ECON1 →
    ENC28J60_WRITE_CTRL_REG ||| (address &&& ADDR_MASK) ≠ ENC28J60_SOFT_RESET ∧
    ENC28J60_WRITE_CTRL_REG ||| (address &&& ADDR_MASK) ≠ ENC28J60_WRITE_CTRL_REG ||| ECON1 ∧
    ENC28J60_WRITE_CTRL_REG ||| (address &&& ADDR_MASK) ≠ ENC28J60_BIT_FIELD_SET ||| ECON1 ∧
    ENC28J60_WRITE_CTRL_REG ||| (address &&& ADDR_MASK) ≠ ENC28J60_BIT_FIELD_CLR ||| ECON1 := by
  decide +kernel

theorem bselAfter_write {address : Byte} (h : address &&& ADDR_MASK ≠ ECON1) (data : Byte)
    (bsel : BitVec 2) : bselAfter (ENC28J60_WRITE_CTRL_REG ||| (address &&& ADDR_MASK)) data bsel =
      bsel := by
  obtain ⟨h1, h2, h3, h4⟩ := command_econ1 address h
  unfold bselAfter
  rw [if_neg h1, if_neg h2, if_neg h3, if_neg h4]

/- Clearing both bits and setting those of `address` selects its bank. -/
theorem bselAfter_select : ∀ (address : Byte) (bsel : BitVec 2),
    bselAfter (ENC28J60_BIT_FIELD_SET ||| (ECON1 &&& ADDR_MASK)) ((address &&& BANK_MASK) >>> 5)
      (bselAfter (ENC28J60_BIT_FIELD_CLR ||| (ECON1 &&& ADDR_MASK)) (ECON1_BSEL1 ||| ECON1_BSEL0)
        bsel) = bankOf address := by
  decide +kernel

variable (reading : ℕ → Byte)

theorem setBank_wp (address : Byte) (s : BankState) (h : Trusted address s) :
    wp (bankChip reading) InBank True (fun _ => At address) (enc28j60SetBank address) s := by
  unfold enc28j60SetBank
  rw [wp_bind]
  refine ⟨trivial, ?_⟩
  change wp (bankChip reading) InBank True _
    (if address &&& BANK_MASK ≠ s.Enc28j60Bank then _ else _) s
  by_cases hb : address &&& BANK_MASK = s.Enc28j60Bank
  · have hc := h hb.symm
    rw [if_neg (not_not_intro hb)]
    refine ⟨hc, shift_injective _ _ ?_⟩
    rw [bankOf_shift, hb]
    exact hc.symm
  · have hecon : ¬ BankSpecific ECON1 := by
      unfold BankSpecific
      decide
    rw [if_pos hb]
    refine ⟨fun _ hs => absurd hs hecon, fun _ hs => absurd hs hecon, trivial, ?_, ?_⟩
    · exact (bankOf_shift address).symm.trans
        (congrArg (fun b : BitVec 2 => b.setWidth 8 <<< 5) (bselAfter_select address s.bsel).symm)
    · exact bselAfter_select address s.bsel

theorem read_wp (address : Byte) (s : BankState) (h : Trusted address s) :
    wp (bankChip reading) InBank True (fun _ => At address) (enc28j60Read address) s := by
  unfold enc28j60Read
  rw [wp_bind]
  refine wp_mono (setBank_wp reading address s h) fun _ s' hs' => ⟨fun _ _ => hs'.2, hs'⟩

/- Writing ECON1 itself keeps the bank only if the data names it. -/
def KeepsBank (address data : Byte) : Prop :=
  address &&& ADDR_MASK = ECON1 → data.setWidth 2 = bankOf address

theorem keepsBank {address : Byte} (h : address &&& ADDR_MASK ≠ ECON1) (data : Byte) :
    KeepsBank address data := fun he => absurd he h

theorem write_wp (address data : Byte) (s : BankState) (h : Trusted address s)
    (hd : KeepsBank address data) :
    wp (bankChip reading) InBank True (fun _ => At address) (enc28j60Write address data) s := by
  unfold enc28j60Write
  rw [wp_bind]
  refine wp_mono (setBank_wp reading address s h) fun _ s' hs' => ⟨fun _ _ => hs'.2, ?_⟩
  have hbsel : bselAfter (ENC28J60_WRITE_CTRL_REG ||| (address &&& ADDR_MASK)) data s'.bsel =
      s'.bsel := by
    by_cases he : address &&& ADDR_MASK = ECON1
    · rw [he, hs'.2, ← hd he]
      rfl
    · exact bselAfter_write he data s'.bsel
  change At address { s' with bsel := _ }
  rw [hbsel]
  exact hs'

theorem Coherent.trusted {s : BankState} (h : Coherent s) (address : Byte) : Trusted address s :=
  fun _ => h

/-! ### Every call -/

def Kept {α : Type} (x : Drv α) : Prop := Keeps (bankChip reading) InBank Coherent x

theorem setBank_kept (address : Byte) : Kept reading (enc28j60SetBank address) := fun s hs =>
  wp_mono (setBank_wp reading address s (hs.trusted address)) fun _ _ h => h.1

theorem read_kept (address : Byte) : Kept reading (enc28j60Read address) := fun s hs =>
  wp_mono (read_wp reading address s (hs.trusted address)) fun _ _ h => h.1

theorem write_kept (address data : Byte) (hd : KeepsBank address data) :
    Kept reading (enc28j60Write address data) := fun s hs =>
  wp_mono (write_wp reading address data s (hs.trusted address) hd) fun _ _ h => h.1

/- A raw command keeps the cache coherent when it leaves BSEL alone and needs no bank. -/
theorem writeOp_kept (op address data : Byte) (hs : RegisterOp op → ¬ BankSpecific address)
    (hb : ∀ bsel, bselAfter (op ||| (address &&& ADDR_MASK)) data bsel = bsel) :
    Kept reading (enc28j60WriteOp op address data) := Keeps.perform fun s hc => by
  refine ⟨fun hr hsp => absurd hsp (hs hr), ?_⟩
  change Coherent { s with bsel := _ }
  rw [hb]
  exact hc

theorem phyWrite_kept (spin : ℕ) (address : Byte) (data : Word) :
    Kept reading (enc28j60PhyWrite spin address data) := by
  unfold enc28j60PhyWrite
  refine (write_kept reading _ _ (keepsBank (by decide) _)).bind fun _ => ?_
  refine (write_kept reading _ _ (keepsBank (by decide) _)).bind fun _ => ?_
  refine (write_kept reading _ _ (keepsBank (by decide) _)).bind fun _ => ?_
  exact Keeps.waitWhile ((read_kept reading MISTAT).bind fun _ => Keeps.pure _) spin

theorem printAddress_kept : Kept reading printAddress := by
  unfold printAddress
  refine (read_kept reading _).bind fun _ => ?_
  refine (read_kept reading _).bind fun _ => ?_
  refine (read_kept reading _).bind fun _ => ?_
  refine (read_kept reading _).bind fun _ => ?_
  refine (read_kept reading _).bind fun _ => ?_
  exact (read_kept reading _).bind fun _ => Keeps.pure _

/- `MACON3` is set by a raw command: it relies on the bank `MACON2` was written in. -/
theorem macon_kept {rest : Drv Unit} (mask : Byte) (hrest : Kept reading rest) :
    Kept reading (do
      enc28j60Write MACON2 0x00
      enc28j60WriteOp ENC28J60_BIT_FIELD_SET MACON3 mask
      rest) := by
  intro s hs
  rw [wp_bind]
  refine wp_mono (write_wp reading MACON2 0 s (hs.trusted _) (keepsBank (by decide) _))
    fun _ s1 h1 => ?_
  rw [wp_bind]
  refine ⟨fun _ _ => h1.2, ?_⟩
  have hb : bselAfter (ENC28J60_BIT_FIELD_SET ||| (MACON3 &&& ADDR_MASK)) mask s1.bsel = s1.bsel :=
    rfl
  exact hrest s1 h1.1

/- The soft reset selects bank 0 behind the cache; the wait for ESTAT repairs it. -/
theorem init_wp (spin : ℕ) (macaddr : ℕ → Byte) (s : BankState) :
    wp (bankChip reading) InBank True (fun _ => Coherent) (enc28j60Init spin macaddr) s := by
  unfold enc28j60Init
  rw [wp_perform]
  refine ⟨trivial, ?_⟩
  refine (wp_perform _ _ _).mpr ⟨fun hr => ?_, ?_⟩
  · unfold RegisterOp at hr
    exact absurd hr (by decide)
  rw [wp_bind]
  have hzero : ESTAT &&& BANK_MASK = (0 : BitVec 2).setWidth 8 <<< 5 := by decide
  have hreset : Trusted ESTAT { s with bsel := 0 } := fun hb => hb.trans hzero
  refine wp_mono (wp_waitWhile (I := Trusted ESTAT) (J := Coherent) (fun s' hs' => ?_)
    (fun s' hs' => hs'.trusted _) spin hreset) fun _ s1 h1 => ?_
  · rw [wp_bind]
    exact wp_mono (read_wp reading ESTAT s' hs') fun _ _ h => h.1
  refine (?_ : Kept reading _) s1 h1
  refine Keeps.bind (Keeps.perform fun s hs => ⟨trivial, hs⟩) fun _ => ?_
  iterate 16 refine (write_kept reading _ _ (keepsBank (by decide) _)).bind fun _ => ?_
  refine macon_kept reading _ ?_
  iterate 11 refine (write_kept reading _ _ (keepsBank (by decide) _)).bind fun _ => ?_
  refine (read_kept reading _).bind fun b => ?_
  have htail : Kept reading (do
      enc28j60PhyWrite spin PHCON1 PHCON1_PDPXMD
      enc28j60PhyWrite spin PHCON2 PHCON2_HDLDIS
      enc28j60SetBank ECON1
      enc28j60WriteOp ENC28J60_BIT_FIELD_SET EIE (EIE_INTIE ||| EIE_PKTIE ||| EIE_RXERIE)
      enc28j60WriteOp ENC28J60_BIT_FIELD_SET ECON1 ECON1_RXEN) := by
    refine (phyWrite_kept reading spin _ _).bind fun _ => ?_
    refine (phyWrite_kept reading spin _ _).bind fun _ => ?_
    refine (setBank_kept reading _).bind fun _ => ?_
    refine (writeOp_kept reading _ _ _ (fun _ => by unfold BankSpecific; decide) ?_).bind fun _ => ?_
    · decide
    · exact writeOp_kept reading _ _ _ (fun _ => by unfold BankSpecific; decide) (by decide)
  by_cases hb : b = macaddr 0
  · rw [if_pos hb]
    exact (printAddress_kept reading).bind fun _ => htail
  · rw [if_neg hb]
    exact htail

theorem packetSend_kept (spin : ℕ) (len : Word) (packet : ℕ → Byte) :
    Kept reading (enc28j60PacketSend spin len packet) := by
  unfold enc28j60PacketSend
  refine (Keeps.waitWhile ((read_kept reading ECON1).bind fun _ => Keeps.pure _) spin).bind fun _ => ?_
  iterate 4 refine (write_kept reading _ _ (keepsBank (by decide) _)).bind fun _ => ?_
  refine (writeOp_kept reading _ _ _ (fun hr => absurd hr (by unfold RegisterOp; decide)) ?_).bind
    fun _ => ?_
  · decide
  refine Keeps.bind (Keeps.perform fun s hs => ⟨trivial, hs⟩) fun _ => ?_
  refine (writeOp_kept reading _ _ _ (fun _ => by unfold BankSpecific; decide) ?_).bind fun _ => ?_
  · decide
  refine (read_kept reading EIR).bind fun eir => ?_
  by_cases he : eir &&& EIR_TXERIF ≠ 0
  · rw [if_pos he]
    refine (setBank_kept reading _).bind fun _ => ?_
    exact writeOp_kept reading _ _ _ (fun _ => by unfold BankSpecific; decide) (by decide)
  · rw [if_neg he]
    exact Keeps.pure ()

theorem readBuf_kept : Kept reading (enc28j60ReadOp ENC28J60_READ_BUF_MEM 0) :=
  Keeps.perform fun s hs => ⟨fun hr => absurd hr (by unfold RegisterOp; decide), hs⟩

theorem readField_kept : Kept reading readField :=
  (readBuf_kept reading).bind fun _ => (readBuf_kept reading).bind fun _ => Keeps.pure _

theorem readBuffer_kept (len : Word) : Kept reading (enc28j60ReadBuffer len) :=
  Keeps.bind (Keeps.perform fun _ hs => ⟨trivial, hs⟩) fun _ => Keeps.pure _

theorem loadNext_kept : Kept reading (perform Op.loadNext) :=
  Keeps.perform fun _ hs => ⟨trivial, hs⟩

theorem storeNext_kept (next : Word) : Kept reading (perform (Op.storeNext next)) :=
  Keeps.perform fun _ hs => ⟨trivial, hs⟩

theorem packetReceive_kept (maxlen : Word) : Kept reading (enc28j60PacketReceive maxlen) := by
  unfold enc28j60PacketReceive
  refine (read_kept reading EPKTCNT).bind fun count => ?_
  by_cases hc : count = 0
  · rw [if_pos hc]
    exact Keeps.pure _
  rw [if_neg hc]
  refine (loadNext_kept reading).bind fun next => ?_
  refine (write_kept reading ERDPTL _ (keepsBank (by decide) _)).bind fun _ => ?_
  refine (loadNext_kept reading).bind fun next => ?_
  refine (write_kept reading ERDPTH _ (keepsBank (by decide) _)).bind fun _ => ?_
  refine (readBuf_kept reading).bind fun low => ?_
  refine (storeNext_kept reading _).bind fun _ => ?_
  refine (readBuf_kept reading).bind fun high => ?_
  refine (loadNext_kept reading).bind fun next => ?_
  refine (storeNext_kept reading _).bind fun _ => ?_
  refine (readField_kept reading).bind fun len => ?_
  refine (readField_kept reading).bind fun rxstat => ?_
  refine Keeps.bind (I := Coherent) ?_ fun result => ?_
  · by_cases hr : rxstat &&& 0x80 = 0
    · rw [if_pos hr]
      exact Keeps.pure _
    · rw [if_neg hr]
      exact (readBuffer_kept reading _).bind fun _ => Keeps.pure _
  refine (loadNext_kept reading).bind fun next => ?_
  refine (write_kept reading ERXRDPTL _ (keepsBank (by decide) _)).bind fun _ => ?_
  refine (loadNext_kept reading).bind fun next => ?_
  refine (write_kept reading ERXRDPTH _ (keepsBank (by decide) _)).bind fun _ => ?_
  refine (writeOp_kept reading _ _ _ (fun _ => by unfold BankSpecific; decide) ?_).bind fun _ => ?_
  · decide
  · exact Keeps.pure _

/-! ### Sessions -/

inductive Call
  | init (spin : ℕ) (macaddr : ℕ → Byte)
  | read (address : Byte)
  | write (address data : Byte)
  | phyWrite (spin : ℕ) (address : Byte) (data : Word)
  | clkout (clk : Byte)
  | getrev
  | packetSend (spin : ℕ) (len : Word) (packet : ℕ → Byte)
  | packetReceive (maxlen : Word)

def Call.prog : Call → Drv Unit
  | init spin macaddr => enc28j60Init spin macaddr
  | read address => do let _ ← enc28j60Read address
  | write address data => enc28j60Write address data
  | phyWrite spin address data => enc28j60PhyWrite spin address data
  | clkout clk => enc28j60clkout clk
  | getrev => do let _ ← enc28j60getrev
  | packetSend spin len packet => enc28j60PacketSend spin len packet
  | packetReceive maxlen => do let _ ← enc28j60PacketReceive maxlen

/- The only call that can leave another bank behind the cache. -/
def Call.KeepsBank : Call → Prop
  | write address data => Enc.KeepsBank address data
  | _ => True

def session : List Call → Drv Unit
  | [] => pure ()
  | c :: calls => do
    c.prog
    session calls

theorem call_kept (c : Call) (hc : c.KeepsBank) : Kept reading c.prog := by
  cases c with
  | init spin macaddr => exact fun s _ => init_wp reading spin macaddr s
  | read address => exact (read_kept reading address).bind fun _ => Keeps.pure ()
  | write address data => exact write_kept reading address data hc
  | phyWrite spin address data => exact phyWrite_kept reading spin address data
  | clkout clk => exact write_kept reading ECOCON _ (keepsBank (by decide) _)
  | getrev => exact (read_kept reading EREVID).bind fun _ => Keeps.pure ()
  | packetSend spin len packet => exact packetSend_kept reading spin len packet
  | packetReceive maxlen => exact (packetReceive_kept reading maxlen).bind fun _ => Keeps.pure ()

theorem session_kept (calls : List Call) (hc : ∀ c ∈ calls, c.KeepsBank) :
    Kept reading (session calls) := by
  induction calls with
  | nil => exact Keeps.pure ()
  | cons c calls ih =>
    obtain ⟨h1, h2⟩ := List.forall_mem_cons.mp hc
    exact (call_kept reading c h1).bind fun _ => ih h2

/-- Every register access of the session is made in its bank, also by a call that never
returns, and when the session returns the cache names the bank. -/
def SessionCoherent (calls : List Call) (s : BankState) : Prop :=
  (∀ e ∈ trace (bankChip reading) (session calls) s, InBank e.1 e.2) ∧
    ∀ s', run (bankChip reading) (session calls) s = (some (), s') → Coherent s'

/- The bank of the chip and the cache are arbitrary at the start. -/
theorem session_coherent (spin : ℕ) (macaddr : ℕ → Byte) (calls : List Call)
    (hc : ∀ c ∈ calls, c.KeepsBank) (s : BankState) :
    SessionCoherent reading (.init spin macaddr :: calls) s := by
  have h : wp (bankChip reading) InBank True (fun _ => Coherent)
      (session (.init spin macaddr :: calls)) s := by
    unfold session
    rw [wp_bind]
    exact wp_mono (init_wp reading spin macaddr s) fun _ s' hs' => session_kept reading calls hc s' hs'
  obtain ⟨htrace, hrun, -⟩ := (wp_iff _ _ _).mp h
  exact ⟨htrace, fun s' => hrun () s'⟩

/- A chip that is ready at the first look and not busy afterwards, left in bank 2. -/
def promptReading : ℕ → Byte := fun n => if n = 0 then ESTAT_CLKRDY else 0

def leftInBank2 : BankState := ⟨2, 0x60, 0, 0⟩

theorem session_coherent_rxen :
    (∀ c ∈ [Call.write ECON1 ECON1_RXEN, .packetReceive 1500], c.KeepsBank) ∧
      SessionCoherent promptReading
        [.init 1 fun _ => 0, .write ECON1 ECON1_RXEN, .packetReceive 1500] leftInBank2 := by
  have hc : ∀ c ∈ [Call.write ECON1 ECON1_RXEN, .packetReceive 1500], c.KeepsBank := by
    intro c hc
    rcases List.mem_cons.mp hc with rfl | hc
    · exact fun _ => rfl
    · rw [List.mem_singleton.mp hc]
      trivial
  exact ⟨hc, session_coherent promptReading 1 (fun _ => 0) _ hc leftInBank2⟩

/- `enc28j60Write(ECON1, 3)` moves the chip to bank 3 behind the cache. -/
theorem session_incoherent :
    ¬ SessionCoherent promptReading [.init 1 fun _ => 0, .write ECON1 3] leftInBank2 := by
  intro h
  have hrun : (run (bankChip promptReading) (session [.init 1 fun _ => 0, .write ECON1 3])
      leftInBank2).1 = some () := by decide +kernel
  have hbank : ¬ Coherent (run (bankChip promptReading)
      (session [.init 1 fun _ => 0, .write ECON1 3]) leftInBank2).2 := by decide +kernel
  exact hbank (h.2 _ (run_returns hrun))

end MultiEmbedded.Enc
