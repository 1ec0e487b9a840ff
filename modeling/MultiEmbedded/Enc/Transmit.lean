import MultiEmbedded.Enc.Driver
import Mathlib.Data.Finset.Lattice.Fold
import Mathlib.Data.List.Basic
import Mathlib.Logic.Function.Basic

/-!
# Failed transmissions

The chip keeps EIR.TXERIF until the host clears it. `enc28j60PacketSend` reads the
flag behind every frame and never clears it, so a run of calls is followed frame by frame.
-/

namespace MultiEmbedded.Enc
open Prog

/-! ### The transmitter -/

/- What happens to the `k`-th frame: whether it fails, and how many commands begin before it
ends. `reading` gives the bits of a register that the transmitter does not own. -/
structure TxPlan where
  fails : ℕ → Bool
  delay : ℕ → ℕ
  reading : ℕ → Byte → Byte

/- `failed` says whether the frame started last has failed. `cleared` lists the host's clears
of TXRTS: the frame, and whether it had failed. -/
structure Wire where
  txrts : Bool
  txerif : Bool
  failed : Bool
  left : ℕ
  started : ℕ
  cleared : List (ℕ × Bool)

def Wire.idle : Wire := ⟨false, false, false, 0, 0, []⟩

def Wire.setTxrts (plan : TxPlan) (w : Wire) : Wire :=
  if w.txrts then w
  else { w with
    txrts := true, failed := false, left := plan.delay w.started, started := w.started + 1 }

def Wire.clearTxrts (w : Wire) : Wire :=
  { w with txrts := false, cleared := w.cleared ++ [(w.started - 1, w.failed)] }

/- The frame on the wire ends: TXRTS goes to 0, a failure sets TXERIF. -/
def Wire.ends (plan : TxPlan) (w : Wire) : Wire :=
  let failed := plan.fails (w.started - 1)
  { w with txrts := false, failed := failed, txerif := w.txerif || failed }

def Wire.tick (plan : TxPlan) (w : Wire) : Wire :=
  if w.txrts then if w.left = 0 then w.ends plan else { w with left := w.left - 1 } else w

def Wire.command (plan : TxPlan) (w : Wire) (command data : Byte) : Wire :=
  if command = ENC28J60_SOFT_RESET then Wire.idle
  else if command = ENC28J60_WRITE_CTRL_REG ||| ECON1 then
    if data &&& ECON1_TXRTS = 0 then w.clearTxrts else w.setTxrts plan
  else if command = ENC28J60_BIT_FIELD_SET ||| ECON1 then
    if data &&& ECON1_TXRTS = 0 then w else w.setTxrts plan
  else if command = ENC28J60_BIT_FIELD_CLR ||| ECON1 then
    if data &&& ECON1_TXRTS = 0 then w else w.clearTxrts
  else if command = ENC28J60_WRITE_CTRL_REG ||| EIR then
    if data &&& EIR_TXERIF = 0 then { w with txerif := false } else w
  else if command = ENC28J60_BIT_FIELD_CLR ||| EIR then
    if data &&& EIR_TXERIF = 0 then w else { w with txerif := false }
  else w

/- `byte` with the bit `mask` as the transmitter has it. -/
def withBit (byte mask : Byte) (bit : Bool) : Byte :=
  if bit then byte ||| mask else byte &&& ~~~mask

def Wire.answer (w : Wire) (command byte : Byte) : Byte :=
  if command = ENC28J60_READ_CTRL_REG ||| ECON1 then withBit byte ECON1_TXRTS w.txrts
  else if command = ENC28J60_READ_CTRL_REG ||| EIR then withBit byte EIR_TXERIF w.txerif
  else byte

structure TxChip where
  wire : Wire
  Enc28j60Bank : Byte
  NextPacketPtr : Word
  clock : ℕ

def TxChip.tick (plan : TxPlan) (s : TxChip) : TxChip :=
  { s with wire := s.wire.tick plan, clock := s.clock + 1 }

def tx (plan : TxPlan) : (o : Op) → TxChip → o.Res × TxChip
  | .readOp op address, s =>
    let t := s.tick plan
    (t.wire.answer (op ||| (address &&& ADDR_MASK)) (plan.reading s.clock address), t)
  | .writeOp op address data, s =>
    let t := s.tick plan
    ((), { t with wire := t.wire.command plan (op ||| (address &&& ADDR_MASK)) data })
  | .readBuffer len, s =>
    ((List.range len.toNat).map fun i => plan.reading s.clock (BitVec.ofNat 8 i), s.tick plan)
  | .writeBuffer _, s => ((), s.tick plan)
  | .csHigh, s => ((), s)
  | .loadBank, s => (s.Enc28j60Bank, s)
  | .storeBank bank, s => ((), { s with Enc28j60Bank := bank })
  | .loadNext, s => (s.NextPacketPtr, s)
  | .storeNext next, s => ((), { s with NextPacketPtr := next })

/-! ### Commands that leave the transmitter alone -/

def Aside : Op → Prop
  | .writeOp op address data => ∀ plan w,
    Wire.command plan w (op ||| (address &&& ADDR_MASK)) data = w
  | _ => True

theorem command_other (plan : TxPlan) (w : Wire) {command : Byte} (data : Byte)
    (hr : command ≠ ENC28J60_SOFT_RESET)
    (h1 : command &&& ADDR_MASK ≠ ECON1) (h2 : command &&& ADDR_MASK ≠ EIR) :
    w.command plan command data = w := by
  have hecon (c : Byte) (hc : c &&& ADDR_MASK = ECON1) : command ≠ c := fun he => h1 (he ▸ hc)
  have heir (c : Byte) (hc : c &&& ADDR_MASK = EIR) : command ≠ c := fun he => h2 (he ▸ hc)
  unfold Wire.command
  rw [if_neg hr, if_neg (hecon _ (by decide)), if_neg (hecon _ (by decide)),
    if_neg (hecon _ (by decide)), if_neg (heir _ (by decide)), if_neg (heir _ (by decide))]

theorem command_mask : ∀ address : Byte,
    (ENC28J60_WRITE_CTRL_REG ||| (address &&& ADDR_MASK)) &&& ADDR_MASK = address &&& ADDR_MASK ∧
    ENC28J60_WRITE_CTRL_REG ||| (address &&& ADDR_MASK) ≠ ENC28J60_SOFT_RESET := by
  decide +kernel

theorem write_aside {address : Byte} (data : Byte) (h1 : address &&& ADDR_MASK ≠ ECON1)
    (h2 : address &&& ADDR_MASK ≠ EIR) :
    Aside (.writeOp ENC28J60_WRITE_CTRL_REG address data) := fun plan w => by
  obtain ⟨hm, hr⟩ := command_mask address
  exact command_other plan w data hr (fun he => h1 (hm.symm.trans he))
    (fun he => h2 (hm.symm.trans he))

/- `enc28j60SetBank` touches BSEL only. -/
theorem clearBank_aside :
    Aside (.writeOp ENC28J60_BIT_FIELD_CLR ECON1 (ECON1_BSEL1 ||| ECON1_BSEL0)) := fun _ _ => rfl

theorem select_txrts : ∀ address : Byte,
    ((address &&& BANK_MASK) >>> 5) &&& ECON1_TXRTS = 0 := by decide +kernel

theorem selectBank_aside (address : Byte) :
    Aside (.writeOp ENC28J60_BIT_FIELD_SET ECON1 ((address &&& BANK_MASK) >>> 5)) := fun plan w => by
  change (if ((address &&& BANK_MASK) >>> 5) &&& ECON1_TXRTS = 0 then w else w.setTxrts plan) = w
  rw [if_pos (select_txrts address)]

variable {Hang : Prop}

theorem setBank_only (address : Byte) : Only Aside Hang (enc28j60SetBank address) := by
  unfold enc28j60SetBank
  refine (Only.perform trivial).bind fun bank => ?_
  by_cases hb : address &&& BANK_MASK ≠ bank
  · rw [if_pos hb]
    refine (Only.perform clearBank_aside).bind fun _ => ?_
    refine (Only.perform (selectBank_aside address)).bind fun _ => ?_
    exact Only.perform trivial
  · rw [if_neg hb]
    exact Only.pure ()

theorem read_only (address : Byte) : Only Aside Hang (enc28j60Read address) :=
  (setBank_only address).bind fun _ => Only.perform trivial

theorem write_only {address : Byte} (data : Byte) (h1 : address &&& ADDR_MASK ≠ ECON1)
    (h2 : address &&& ADDR_MASK ≠ EIR) : Only Aside Hang (enc28j60Write address data) :=
  (setBank_only address).bind fun _ => Only.perform (write_aside data h1 h2)

theorem phyWrite_only (spin : ℕ) (address : Byte) (data : Word) :
    Only Aside True (enc28j60PhyWrite spin address data) := by
  unfold enc28j60PhyWrite
  refine (write_only _ (by decide) (by decide)).bind fun _ => ?_
  refine (write_only _ (by decide) (by decide)).bind fun _ => ?_
  refine (write_only _ (by decide) (by decide)).bind fun _ => ?_
  exact Only.waitWhile ((read_only MISTAT).bind fun _ => Only.pure _) spin

theorem printAddress_only : Only Aside Hang printAddress := by
  unfold printAddress
  iterate 6 refine (read_only _).bind fun _ => ?_
  exact Only.pure ()

/-! ### Runs of calls -/

def earlier (plan : TxPlan) (k : ℕ) : Bool := (List.range k).any plan.fails

/- What the host clears in the `k`-th call: it looks at TXERIF one command behind the start
and clears TXRTS with the next one. -/
def logged (plan : TxPlan) (k : ℕ) : List (ℕ × Bool) :=
  if earlier plan k || (plan.fails k && plan.delay k == 0) then
    [(k, plan.fails k && decide (plan.delay k ≤ 1))] else []

def logs (plan : TxPlan) (k : ℕ) : List (ℕ × Bool) := (List.range k).flatMap (logged plan)

/-- The transmitter after `k` calls, or while a later one waits for the last frame. -/
structure Sent (plan : TxPlan) (k : ℕ) (w : Wire) : Prop where
  started : w.started = k
  cleared : w.cleared = logs plan k
  error : (w.txerif || (w.txrts && plan.fails (k - 1))) = earlier plan k
  left : w.txrts = true → w.left ≤ plan.delay (k - 1)

theorem sent_idle (plan : TxPlan) : Sent plan 0 Wire.idle := ⟨rfl, rfl, rfl, fun h => nomatch h⟩

theorem earlier_succ (plan : TxPlan) (k : ℕ) :
    earlier plan (k + 1) = (earlier plan k || plan.fails k) := by
  unfold earlier
  rw [List.range_succ, List.any_append]
  simp

theorem earlier_iff (plan : TxPlan) (k : ℕ) :
    earlier plan k = true ↔ ∃ j < k, plan.fails j = true := by
  simp [earlier]

theorem logs_succ (plan : TxPlan) (k : ℕ) : logs plan (k + 1) = logs plan k ++ logged plan k := by
  unfold logs
  rw [List.range_succ, List.flatMap_append, List.flatMap_singleton]

variable {plan : TxPlan} {k : ℕ} {w : Wire}

theorem Sent.tick (h : Sent plan k w) : Sent plan k (w.tick plan) := by
  unfold Wire.tick
  by_cases hr : w.txrts = true
  · rw [if_pos hr]
    by_cases hl : w.left = 0
    · rw [if_pos hl]
      refine ⟨h.started, h.cleared, ?_, fun he => nomatch he⟩
      have he := h.error
      rw [hr, Bool.true_and] at he
      change ((w.txerif || plan.fails (w.started - 1)) || false) = _
      rw [Bool.or_false, h.started, he]
    · rw [if_neg hl]
      exact ⟨h.started, h.cleared, h.error, fun he => (Nat.sub_le _ _).trans (h.left he)⟩
  · rw [if_neg hr]
    exact h

/- Nothing on the wire. -/
structure Free (plan : TxPlan) (k : ℕ) (w : Wire) : Prop extends Sent plan k w where
  txrts : w.txrts = false

theorem Free.tick_eq (h : Free plan k w) : w.tick plan = w := by
  unfold Wire.tick
  rw [h.txrts]
  rfl

theorem Free.tick (h : Free plan k w) : Free plan k (w.tick plan) := h.tick_eq.symm ▸ h

/- At most `turns` more commands until the wire is free. -/
structure Due (plan : TxPlan) (k turns : ℕ) (w : Wire) : Prop extends Sent plan k w where
  due : w.txrts = true → w.left < turns

theorem Due.tick {turns : ℕ} (h : Due plan k turns w) : Due plan k turns (w.tick plan) := by
  refine ⟨h.toSent.tick, ?_⟩
  unfold Wire.tick
  by_cases hr : w.txrts = true
  · rw [if_pos hr]
    by_cases hl : w.left = 0
    · rw [if_pos hl]
      exact fun he => nomatch he
    · rw [if_neg hl]
      exact fun _ => lt_of_le_of_lt (Nat.sub_le _ _) (h.due hr)
  · rw [if_neg hr]
    exact fun he => absurd he hr

/- The command that reads ECON1 uses up a turn. -/
theorem Due.turn {turns : ℕ} (h : Due plan k (turns + 1) w) (hr : (w.tick plan).txrts = true) :
    Due plan k turns (w.tick plan) := by
  refine ⟨h.toSent.tick, fun _ => ?_⟩
  revert hr
  unfold Wire.tick
  by_cases hw : w.txrts = true
  · rw [if_pos hw]
    by_cases hl : w.left = 0
    · rw [if_pos hl]
      exact fun he => nomatch he
    · rw [if_neg hl]
      intro _
      have hd := h.due hw
      change w.left - 1 < turns
      omega
  · rw [if_neg hw]
    exact fun he => absurd he hw

/-! ### Calls on the chip -/

theorem aside_step {I : Wire → Prop} (hI : ∀ w, I w → I (w.tick plan)) (o : Op) (ho : Aside o)
    (s : TxChip) (hs : I s.wire) : True ∧ I (tx plan o s).2.wire := by
  refine ⟨trivial, ?_⟩
  cases o with
  | readOp op address => exact hI _ hs
  | writeOp op address data =>
    change I ((s.wire.tick plan).command plan (op ||| (address &&& ADDR_MASK)) data)
    rw [ho]
    exact hI _ hs
  | readBuffer len => exact hI _ hs
  | writeBuffer data => exact hI _ hs
  | csHigh => exact hs
  | loadBank => exact hs
  | storeBank bank => exact hs
  | loadNext => exact hs
  | storeNext next => exact hs

abbrev TxDoes (plan : TxPlan) (Hang : Prop) {α : Type} (Q : α → TxChip → Prop) (x : Drv α)
    (s : TxChip) : Prop := wp (tx plan) (fun _ _ => True) Hang Q x s

theorem Only.keeps_wire {I : Wire → Prop} (hI : ∀ w, I w → I (w.tick plan)) {α : Type} {x : Drv α}
    (hx : Only Aside Hang x) {s : TxChip} (hs : I s.wire) :
    TxDoes plan Hang (fun _ s' => I s'.wire) x s :=
  hx.wp (I := fun s : TxChip => I s.wire) (aside_step hI) hs

/- A register access leaves the cache with the bank of its address. -/
theorem setBank_cache (address : Byte) (s : TxChip) :
    TxDoes plan Hang (fun _ s' => s'.Enc28j60Bank = address &&& BANK_MASK) (enc28j60SetBank address)
      s := by
  unfold enc28j60SetBank
  refine (wp_perform _ _ _).mpr ⟨trivial, ?_⟩
  change wp _ _ _ _ (if address &&& BANK_MASK ≠ s.Enc28j60Bank then _ else _) s
  by_cases hb : address &&& BANK_MASK = s.Enc28j60Bank
  · rw [if_neg (not_not_intro hb)]
    exact hb.symm
  · rw [if_pos hb]
    exact ⟨trivial, trivial, trivial, rfl⟩

/- In the right bank the cache spares every command. -/
theorem setBank_cached {address : Byte} {s : TxChip} (h : s.Enc28j60Bank = address &&& BANK_MASK)
    {β : Type} {Q : β → TxChip → Prop} {f : Unit → Drv β} (hf : TxDoes plan Hang Q (f ()) s) :
    TxDoes plan Hang Q (enc28j60SetBank address >>= f) s := by
  refine (wp_bind _ _ _).mpr ?_
  unfold enc28j60SetBank
  refine (wp_perform _ _ _).mpr ⟨trivial, ?_⟩
  change wp _ _ _ _ (if address &&& BANK_MASK ≠ s.Enc28j60Bank then _ else _) s
  rw [if_neg (not_not_intro h.symm)]
  exact hf

theorem read_cached {address : Byte} {s : TxChip} (h : s.Enc28j60Bank = address &&& BANK_MASK)
    {β : Type} {Q : β → TxChip → Prop} {f : Byte → Drv β}
    (hf : TxDoes plan Hang Q (f ((s.wire.tick plan).answer (ENC28J60_READ_CTRL_REG |||
      (address &&& ADDR_MASK)) (plan.reading s.clock address))) (s.tick plan)) :
    TxDoes plan Hang Q (enc28j60Read address >>= f) s := by
  refine (wp_bind _ _ _).mpr ?_
  unfold enc28j60Read
  refine setBank_cached h ⟨trivial, ?_⟩
  exact hf

theorem withBit_mask (byte : Byte) (bit : Bool) :
    (withBit byte ECON1_TXRTS bit &&& ECON1_TXRTS != 0) = bit := by
  revert byte bit
  decide +kernel

theorem withBit_error (byte : Byte) (bit : Bool) :
    withBit byte EIR_TXERIF bit &&& EIR_TXERIF ≠ 0 ↔ bit = true := by
  revert byte bit
  decide +kernel

theorem Free.keeps {α : Type} {x : Drv α} {s : TxChip} (h : Free plan k s.wire)
    (hx : Only Aside Hang x) : TxDoes plan Hang (fun _ s' => Free plan k s'.wire) x s :=
  Only.keeps_wire (I := Free plan k) (fun _ => Free.tick) hx h

theorem Due.keeps {turns : ℕ} {α : Type} {x : Drv α} {s : TxChip} (h : Due plan k turns s.wire)
    (hx : Only Aside Hang x) : TxDoes plan Hang (fun _ s' => Due plan k turns s'.wire) x s :=
  Only.keeps_wire (I := Due plan k turns) (fun _ => Due.tick) hx h

theorem write_cache (address data : Byte) (s : TxChip) :
    TxDoes plan Hang (fun _ s' => s'.Enc28j60Bank = address &&& BANK_MASK)
      (enc28j60Write address data) s := by
  unfold enc28j60Write
  refine (wp_bind _ _ _).mpr (wp_mono (setBank_cache address s) fun _ s' hs' => ?_)
  exact ⟨trivial, hs'⟩

/- One turn of the wait for TXRTS. -/
theorem turn_does {turns : ℕ} {s : TxChip} (h : Due plan k (turns + 1) s.wire)
    {rest : Drv Unit} {Q : Unit → TxChip → Prop}
    (hfree : ∀ s', Free plan k s'.wire → Q () s')
    (hdue : ∀ s', s'.wire.txrts = true → Due plan k turns s'.wire → TxDoes plan False Q rest s') :
    TxDoes plan False Q (do
      if ← (do return (← enc28j60Read ECON1) &&& ECON1_TXRTS != 0) then rest else pure ()) s := by
  refine (wp_bind _ _ _).mpr ((wp_bind _ _ _).mpr ?_)
  refine (wp_bind _ _ _).mpr (wp_mono (h.keeps (setBank_only ECON1)) fun _ s1 h1 => ?_)
  refine ⟨trivial, ?_⟩
  change TxDoes plan False Q (if withBit _ ECON1_TXRTS (s1.wire.tick plan).txrts &&& ECON1_TXRTS
    != 0 then rest else pure ()) (s1.tick plan)
  rw [withBit_mask]
  cases ht : (s1.wire.tick plan).txrts with
  | false => exact hfree _ ⟨h1.toSent.tick, ht⟩
  | true => exact hdue _ ht (h1.turn ht)

/- Each turn of the wait spends a command of the frame on the wire. -/
theorem wait_does (turns : ℕ) (s : TxChip) (h : Due plan k (turns + 1) s.wire) :
    TxDoes plan False (fun _ s' => Free plan k s'.wire)
      (waitWhile (do return (← enc28j60Read ECON1) &&& ECON1_TXRTS != 0) (turns + 1)) s := by
  induction turns generalizing s with
  | zero =>
    exact turn_does h (fun _ hs' => hs') fun s' ht hs' => absurd (hs'.due ht) (Nat.not_lt_zero _)
  | succ turns ih => exact turn_does h (fun _ hs' => hs') fun s' _ hs' => ih s' hs'

/- The wire right behind the start of the `k`-th frame. -/
def begun (plan : TxPlan) (k : ℕ) : Wire :=
  ⟨true, earlier plan k, false, plan.delay k, k + 1, logs plan k⟩

theorem Free.setTxrts (h : Free plan k w) : w.setTxrts plan = begun plan k := by
  have he := h.error
  rw [h.txrts, Bool.false_and, Bool.or_false] at he
  unfold Wire.setTxrts begun
  rw [if_neg (by rw [h.txrts]; exact Bool.false_ne_true), h.started, h.cleared, he]

theorem begun_ended (hd : plan.delay k = 0) : (begun plan k).tick plan =
    ⟨false, earlier plan k || plan.fails k, plan.fails k, 0, k + 1, logs plan k⟩ := by
  simp [Wire.tick, begun, hd, Wire.ends]

theorem begun_lasts {n : ℕ} (hd : plan.delay k = n + 1) : (begun plan k).tick plan =
    ⟨true, earlier plan k, false, n, k + 1, logs plan k⟩ := by
  simp [Wire.tick, begun, hd]

theorem begun_passed (h : ((begun plan k).tick plan).txerif = false) :
    Sent plan (k + 1) ((begun plan k).tick plan) := by
  cases hd : plan.delay k with
  | zero =>
    rw [begun_ended hd] at h ⊢
    obtain ⟨he, hf⟩ := Bool.or_eq_false_iff.mp h
    refine ⟨rfl, ?_, ?_, fun ht => nomatch ht⟩
    · simp [logs_succ, logged, he, hf]
    · simp [earlier_succ]
  | succ n =>
    rw [begun_lasts hd] at h ⊢
    have he : earlier plan k = false := h
    refine ⟨rfl, ?_, ?_, fun _ => ?_⟩
    · simp [logs_succ, logged, he, hd]
    · simp [earlier_succ]
    · exact (Nat.le_succ n).trans hd.symm.le

/- The clear that follows a set flag is logged with what the frame did until then. -/
theorem begun_cleared (h : ((begun plan k).tick plan).txerif = true) :
    Sent plan (k + 1) (((begun plan k).tick plan).tick plan).clearTxrts := by
  cases hd : plan.delay k with
  | zero =>
    rw [begun_ended hd] at h ⊢
    have he : (earlier plan k || (plan.fails k && plan.delay k == 0)) = true := by
      rw [hd]
      simpa using h
    refine ⟨rfl, ?_, ?_, fun ht => nomatch ht⟩
    · rw [logs_succ]
      unfold logged
      rw [if_pos he]
      simp [Wire.clearTxrts, Wire.tick, hd]
    · simp [Wire.clearTxrts, Wire.tick, earlier_succ]
  | succ n =>
    rw [begun_lasts hd] at h ⊢
    have he : earlier plan k = true := h
    cases n with
    | zero =>
      refine ⟨rfl, ?_, ?_, fun ht => nomatch ht⟩
      · simp [Wire.clearTxrts, Wire.tick, Wire.ends, logs_succ, logged, he, hd]
      · simp [Wire.clearTxrts, Wire.tick, Wire.ends, earlier_succ]
    | succ n =>
      refine ⟨rfl, ?_, ?_, fun ht => nomatch ht⟩
      · simp [Wire.clearTxrts, Wire.tick, logs_succ, logged, he, hd]
      · simp [Wire.clearTxrts, Wire.tick, earlier_succ, he]

/- From the start of the frame to the end of the call. -/
theorem start_does {s : TxChip} (h : Free plan k s.wire) (hb : s.Enc28j60Bank = 0) :
    TxDoes plan False (fun _ s' => Sent plan (k + 1) s'.wire) (do
      enc28j60WriteOp ENC28J60_BIT_FIELD_SET ECON1 ECON1_TXRTS
      if (← enc28j60Read EIR) &&& EIR_TXERIF ≠ 0 then
        enc28j60SetBank ECON1
        enc28j60WriteOp ENC28J60_BIT_FIELD_CLR ECON1 ECON1_TXRTS) s := by
  refine ⟨trivial, ?_⟩
  have hw : (s.wire.tick plan).setTxrts plan = begun plan k := h.tick.setTxrts
  change TxDoes plan False _ _ { s.tick plan with wire := (s.wire.tick plan).setTxrts plan }
  rw [hw]
  refine read_cached hb ?_
  change TxDoes plan False _
    (if withBit _ EIR_TXERIF ((begun plan k).tick plan).txerif &&& EIR_TXERIF ≠ 0 then _ else _) _
  cases ht : ((begun plan k).tick plan).txerif with
  | false =>
    rw [if_neg ((withBit_error _ false).not.mpr Bool.false_ne_true)]
    exact begun_passed ht
  | true =>
    rw [if_pos ((withBit_error _ true).mpr rfl)]
    refine setBank_cached hb ⟨trivial, ?_⟩
    exact begun_cleared ht

theorem packetSend_does (spin : ℕ) (len : Word) (packet : ℕ → Byte) (s : TxChip)
    (h : Due plan k (spin + 1) s.wire) :
    TxDoes plan False (fun _ s' => Sent plan (k + 1) s'.wire)
      (enc28j60PacketSend (spin + 1) len packet) s := by
  unfold enc28j60PacketSend
  refine (wp_bind _ _ _).mpr (wp_mono (wait_does spin s h) fun _ s1 h1 => ?_)
  refine (wp_bind _ _ _).mpr
    (wp_mono (h1.keeps (write_only _ (by decide) (by decide))) fun _ s2 h2 => ?_)
  refine (wp_bind _ _ _).mpr
    (wp_mono (h2.keeps (write_only _ (by decide) (by decide))) fun _ s3 h3 => ?_)
  refine (wp_bind _ _ _).mpr
    (wp_mono (h3.keeps (write_only _ (by decide) (by decide))) fun _ s4 h4 => ?_)
  refine (wp_bind _ _ _).mpr (wp_mono (wp_and (h4.keeps (write_only _ (by decide) (by decide)))
    (write_cache ETXNDH _ s4)) fun _ s5 h5 => ?_)
  refine ⟨trivial, trivial, ?_⟩
  exact start_does h5.1.tick.tick h5.2

/- The soft reset clears the flags; the rest of the initialisation stays aside. -/
theorem init_idle (plan : TxPlan) (spin : ℕ) (macaddr : ℕ → Byte) (s : TxChip) :
    TxDoes plan True (fun _ s' => s'.wire = Wire.idle) (enc28j60Init spin macaddr) s := by
  unfold enc28j60Init
  refine ⟨trivial, trivial, ?_⟩
  refine Only.keeps_wire (I := fun w => w = Wire.idle) (fun w hw => ?_) ?_ rfl
  · rw [hw]
    rfl
  refine (Only.waitWhile ((read_only ESTAT).bind fun _ => Only.pure _) spin).bind fun _ => ?_
  refine (Only.perform trivial).bind fun _ => ?_
  iterate 17 refine (write_only _ (by decide) (by decide)).bind fun _ => ?_
  refine (Only.perform fun _ _ => rfl).bind fun _ => ?_
  iterate 11 refine (write_only _ (by decide) (by decide)).bind fun _ => ?_
  refine (read_only MAADR5).bind fun b => ?_
  have htail : Only Aside True (do
      enc28j60PhyWrite spin PHCON1 PHCON1_PDPXMD
      enc28j60PhyWrite spin PHCON2 PHCON2_HDLDIS
      enc28j60SetBank ECON1
      enc28j60WriteOp ENC28J60_BIT_FIELD_SET EIE (EIE_INTIE ||| EIE_PKTIE ||| EIE_RXERIE)
      enc28j60WriteOp ENC28J60_BIT_FIELD_SET ECON1 ECON1_RXEN) := by
    refine (phyWrite_only spin _ _).bind fun _ => ?_
    refine (phyWrite_only spin _ _).bind fun _ => ?_
    refine (setBank_only ECON1).bind fun _ => ?_
    refine (Only.perform fun _ _ => rfl).bind fun _ => ?_
    exact Only.perform fun _ _ => rfl
  by_cases hb : b = macaddr 0
  · rw [if_pos hb]
    exact printAddress_only.bind fun _ => htail
  · rw [if_neg hb]
    exact htail

/- A sequence of frames, each with its length. -/
def sendAll (spin : ℕ) : List (Word × (ℕ → Byte)) → Drv Unit
  | [] => pure ()
  | (len, packet) :: packets => do
    enc28j60PacketSend spin len packet
    sendAll spin packets

theorem Sent.due {turns : ℕ} (h : Sent plan k w) (ht : plan.delay (k - 1) < turns) :
    Due plan k turns w := ⟨h, fun he => lt_of_le_of_lt (h.left he) ht⟩

theorem sendAll_does (spin : ℕ) (packets : List (Word × (ℕ → Byte))) (k : ℕ) (s : TxChip)
    (hspin : ∀ j < k + packets.length, plan.delay j < spin) (h : Sent plan k s.wire) :
    TxDoes plan False (fun _ s' => Sent plan (k + packets.length) s'.wire) (sendAll spin packets)
      s := by
  induction packets generalizing k s with
  | nil => exact h
  | cons p packets ih =>
    rw [List.length_cons] at hspin ⊢
    have hdue : Due plan k spin s.wire := h.due (hspin (k - 1) (by omega))
    have hpos : 0 < spin := (Nat.zero_le _).trans_lt (hspin k (by omega))
    obtain ⟨turns, rfl⟩ : ∃ turns, spin = turns + 1 := ⟨spin - 1, by omega⟩
    unfold sendAll
    refine (wp_bind _ _ _).mpr (wp_mono (packetSend_does turns p.1 p.2 s hdue) fun _ s' hs' => ?_)
    have hlen : k + (packets.length + 1) = k + 1 + packets.length := by omega
    rw [hlen] at hspin ⊢
    exact ih (k + 1) s' hspin hs'

/- Every clear of TXRTS in the call of a frame comes after that frame has failed. -/
def OwnFailures (w : Wire) : Prop := ∀ e ∈ w.cleared, e.2 = true

theorem logged_own (plan : TxPlan) (k : ℕ) : (∀ e ∈ logged plan k, e.2 = true) ↔
    ((∃ j < k, plan.fails j = true) → plan.fails k = true ∧ plan.delay k ≤ 1) := by
  rw [← earlier_iff]
  unfold logged
  cases he : earlier plan k with
  | true => simp
  | false =>
    cases hd : plan.delay k with
    | zero => simp
    | succ n => simp

theorem logs_own (plan : TxPlan) (n : ℕ) : (∀ e ∈ logs plan n, e.2 = true) ↔
    ∀ k < n, (∃ j < k, plan.fails j = true) → plan.fails k = true ∧ plan.delay k ≤ 1 := by
  induction n with
  | zero => exact ⟨fun _ k hk => absurd hk (Nat.not_lt_zero k), fun _ e he => nomatch he⟩
  | succ n ih =>
    rw [logs_succ, List.forall_mem_append, ih, logged_own]
    constructor
    · intro h k hk
      rcases Nat.lt_succ_iff_lt_or_eq.mp hk with hlt | rfl
      · exact h.1 k hlt
      · exact h.2
    · intro h
      exact ⟨fun k hk => h k (hk.trans (Nat.lt_succ_self n)), h n (Nat.lt_succ_self n)⟩

theorem delay_bound (plan : TxPlan) (n : ℕ) : ∃ turns, ∀ j < n, plan.delay j < turns :=
  ⟨(Finset.range n).sup plan.delay + 1, fun _ hj =>
    Nat.lt_succ_of_le (Finset.le_sup (Finset.mem_range.mpr hj))⟩

/-- After the initialisation every sequence of calls returns. It clears TXRTS for failed frames
only, exactly if every frame behind a failed one has failed as well by the time TXRTS is cleared,
that is, before the second command after its start. -/
theorem sendAll_own_iff (plan : TxPlan) (spin : ℕ) (macaddr : ℕ → Byte) (s₀ s₁ : TxChip)
    (hinit : run (tx plan) (enc28j60Init spin macaddr) s₀ = (some (), s₁))
    (packets : List (Word × (ℕ → Byte))) :
    ∃ turns, ∀ spin' ≥ turns, ∃ s, run (tx plan) (sendAll spin' packets) s₁ = (some (), s) ∧
      (OwnFailures s.wire ↔ ∀ k < packets.length, (∃ j < k, plan.fails j = true) →
        plan.fails k = true ∧ plan.delay k ≤ 1) := by
  have hidle := ((wp_iff _ _ _).mp (init_idle plan spin macaddr s₀)).2.1 () s₁ hinit
  have hsent : Sent plan 0 s₁.wire := hidle.symm ▸ sent_idle plan
  obtain ⟨turns, hturns⟩ := delay_bound plan packets.length
  refine ⟨turns, fun spin' hspin => ?_⟩
  have hdoes := sendAll_does spin' packets 0 s₁ (fun j hj =>
    (hturns j (by omega)).trans_le hspin) hsent
  obtain ⟨u, s, hrun, hs⟩ := wp_total hdoes
  refine ⟨s, hrun, ?_⟩
  unfold OwnFailures
  rw [hs.cleared, Nat.zero_add]
  exact logs_own plan packets.length

/- The first frame fails; no other frame does. -/
def onceFailing : TxPlan where
  fails k := k == 0
  delay _ := 5
  reading _ address := if address = ESTAT then 1 else 0

def anyChip : TxChip := ⟨⟨true, true, true, 9, 9, []⟩, 0x60, 0, 0⟩

theorem sendAll_own_iff_onceFailing : ∃ turns, ∀ spin' ≥ turns, ∃ s,
    run (tx onceFailing) (sendAll spin' [(60, fun _ => 0), (60, fun _ => 0)])
        (run (tx onceFailing) (enc28j60Init 1 fun _ => 0) anyChip).2 = (some (), s) ∧
      (OwnFailures s.wire ↔ ∀ k < 2, (∃ j < k, onceFailing.fails j = true) →
        onceFailing.fails k = true ∧ onceFailing.delay k ≤ 1) :=
  sendAll_own_iff onceFailing 1 (fun _ => 0) anyChip _ (run_returns rfl) _

theorem sendAll_aborts : ∃ s₁ s, run (tx onceFailing) (enc28j60Init 6 fun _ => 0) anyChip = (some (), s₁) ∧
    run (tx onceFailing) (sendAll 6 [(60, fun _ => 0), (60, fun _ => 0)]) s₁ = (some (), s) ∧ ¬ OwnFailures s.wire := by
  have hinit := run_returns (h := tx onceFailing) (x := enc28j60Init 6 fun _ => 0) (s := anyChip) rfl
  have hidle := ((wp_iff _ _ _).mp (init_idle onceFailing 6 _ anyChip)).2.1 () _ hinit
  obtain ⟨u, s, hrun, hs⟩ := wp_total (sendAll_does 6 [(60, fun _ => 0), (60, fun _ => 0)] 0 _
    (fun _ _ => (by decide : 5 < 6)) (hidle.symm ▸ sent_idle onceFailing))
  refine ⟨_, s, hinit, hrun, fun hown => ?_⟩
  unfold OwnFailures at hown
  rw [hs.cleared] at hown
  exact absurd (hown (1, false) (by decide)) Bool.false_ne_true

end MultiEmbedded.Enc
