import MultiEmbedded.Iic.Bus
import Mathlib

/-!
# The EEPROM driver at24c02.c and its bus traffic

`IIC_Wait_ACK` leaves the clock high with the acknowledge still on SDA. Behind
it a START cannot be made, since the slave keeps SDA low, and a STOP after a
missing acknowledge makes a START first, since `SDA_OUT` pulls SDA down. So the
traffic is right exactly for writes that are acknowledged throughout.
-/

namespace MultiEmbedded.Iic
open Prog TwoWire TwoWire.Event

def AT24C02 : ℕ := 256
def AT24C16 : ℕ := 1024
def EE_TYPE : ℕ := AT24C02

/- The bytes that select a memory cell, up to the last acknowledge. `addr` is a u8, and the
arithmetic on it is that of int. -/
def at24cReadByte (addr : Byte) : Drv Byte := do
  iicStart
  if EE_TYPE > AT24C16 then
    iicSendByte 0xA0
    let _ ← iicWaitAck
    iicSendByte (BitVec.ofNat 8 (addr.toNat >>> 8))
  else
    iicSendByte (BitVec.ofNat 8 (0xA0 + ((addr.toNat / 256) <<< 1)))
  let _ ← iicWaitAck
  iicSendByte (BitVec.ofNat 8 (addr.toNat % 256))
  let _ ← iicWaitAck
  iicStart
  iicSendByte 0xA1
  let _ ← iicWaitAck
  let temp ← iicReadByte 0
  iicStop
  return temp

def at24cWriteByte (addr dataWrite : Byte) : Drv Unit := do
  iicStart
  if EE_TYPE > AT24C16 then
    iicSendByte 0xA0
    let _ ← iicWaitAck
    iicSendByte (BitVec.ofNat 8 (addr.toNat >>> 8))
  else
    iicSendByte (BitVec.ofNat 8 (0xA0 + ((addr.toNat / 256) <<< 1)))
  let _ ← iicWaitAck
  iicSendByte (BitVec.ofNat 8 (addr.toNat % 256))
  let _ ← iicWaitAck
  iicSendByte dataWrite
  let _ ← iicWaitAck
  iicStop

inductive Call
  | AT24CReadByte (addr : Byte)
  | AT24CWriteByte (addr dataWrite : Byte)

def Call.run : Call → Drv Unit
  | AT24CReadByte addr => do
    let _ ← at24cReadByte addr
  | AT24CWriteByte addr dataWrite => at24cWriteByte addr dataWrite

def session : List Call → Drv Unit
  | [] => return ()
  | call :: calls => do
    call.run
    session calls

/-! ### States of the bus between the primitives -/

/- Between two transfers: both lines are high, SDA is an output. -/
def idle (h : List Event) : Bus := ⟨true, true, 3, false, ⟨⟨true, true⟩, false, [], h⟩⟩

/- The clock is low, the master drives `x`, and `bits` of the frame are out. -/
def low (x : Bool) (bits : List Bool) (h : List Event) : Bus :=
  ⟨false, x, 3, false, ⟨⟨false, x⟩, true, bits, h⟩⟩

/- Eight bits are out, the last one `x`, and the slave has answered `p`. -/
def sent (x : Bool) (bits : List Bool) (p : Bool) (h : List Event) : Bus :=
  ⟨false, x, 3, p, ⟨⟨false, x && !p⟩, true, bits, h⟩⟩

/- The acknowledge is on SDA, now an input, and the clock is still high. -/
def acked (h : List Event) : Bus := ⟨true, false, 8, true, ⟨⟨true, false⟩, true, [], h⟩⟩

attribute [local simp] run_bind board Bus.observe Bus.level Bus.react Decoder.step Decoder.sample

variable (sl : Slave)

theorem pulls_mid {l : Level} {bits : List Bool} {h : List Event} (hb : bits.length < 8)
    (hh : talking h = false) : sl.pulls ⟨l, true, bits, h⟩ = false := by
  have hne : bits.length ≠ 8 := Nat.ne_of_lt hb
  simp [Slave.pulls, hne, hh]

theorem pulls_ninth {l : Level} {bits : List Bool} {b : Byte} {h : List Event}
    (hb : bits.length = 8) (hh : talking h = false) :
    sl.pulls ⟨l, true, bits, BYTE b :: h⟩ = sl.ack (BYTE b :: h) := by
  simp [Slave.pulls, hb, hh]

theorem run_iicStart (h : List Event) :
    run (board sl) iicStart (idle h) = (some (), low false [] (START :: h)) := by
  have hfall : sl.pulls ⟨⟨false, false⟩, true, [], START :: h⟩ = false := pulls_mid sl (by simp) rfl
  simp [iicStart, idle, low, hfall]

/- Behind an acknowledge no START comes out. -/
theorem run_iicStart_acked {h : List Event} (hh : talking h = false) :
    run (board sl) iicStart (acked h) = (some (), low false [] h) := by
  have hfall : sl.pulls ⟨⟨false, false⟩, true, [], h⟩ = false := pulls_mid sl (by simp) hh
  simp [iicStart, acked, low, hfall]

theorem run_iicStop_acked {h : List Event} (hh : talking h = false) :
    run (board sl) iicStop (acked h) = (some (), idle (STOP :: h)) := by
  have hfall : sl.pulls ⟨⟨false, false⟩, true, [], h⟩ = false := pulls_mid sl (by simp) hh
  simp [iicStop, idle, acked, hfall]

/-! ### One byte -/

/- The bits that `sendBits` puts out, behind those already out. -/
def collect : ℕ → Byte → List Bool → List Bool
  | 0, _, bits => bits
  | n + 1, byte, bits => collect n (byte <<< 1) (byte[7] :: bits)

theorem byteOf_collect (byte : Byte) : byteOf (collect 8 byte []) = byte := by
  revert byte
  decide

theorem sendBits_mid (n : ℕ) (byte : Byte) {x : Bool} {bits : List Bool} {h : List Event}
    (hb : bits.length < 7) (hh : talking h = false) :
    run (board sl) (sendBits (n + 1) byte) (low x bits h) =
      run (board sl) (sendBits n (byte <<< 1)) (low byte[7] (byte[7] :: bits) h) := by
  have hfall : sl.pulls ⟨⟨false, byte[7]⟩, true, byte[7] :: bits, h⟩ = false :=
    pulls_mid sl (by simp; omega) hh
  have h7 : bits.length ≠ 7 := by omega
  have h8 : bits.length ≠ 8 := by omega
  rw [sendBits]
  simp [low, hfall, h7, h8]

theorem sendBits_last (byte : Byte) {x : Bool} {bits : List Bool} {h : List Event}
    (hb : bits.length = 7) (hh : talking h = false) {b : Byte} (hbyte : byteOf (byte[7] :: bits) = b) :
    run (board sl) (sendBits 1 byte) (low x bits h) =
      (some (), sent byte[7] (byte[7] :: bits) (sl.ack (BYTE b :: h)) (BYTE b :: h)) := by
  have hfall (l : Level) : sl.pulls ⟨l, true, byte[7] :: bits, BYTE b :: h⟩ = sl.ack (BYTE b :: h) :=
    pulls_ninth sl (by simp [hb]) hh
  simp [sendBits, low, sent, hfall, hb, hbyte]

theorem run_sendBits {n : ℕ} {byte b : Byte} {x : Bool} {bits : List Bool} {h : List Event}
    (hn : bits.length + n = 7) (hh : talking h = false) (hbyte : byteOf (collect (n + 1) byte bits) = b) :
    ∃ y out, out.length = 8 ∧ run (board sl) (sendBits (n + 1) byte) (low x bits h) =
      (some (), sent y out (sl.ack (BYTE b :: h)) (BYTE b :: h)) := by
  induction n generalizing byte x bits with
  | zero => exact ⟨_, _, by simp [← hn], sendBits_last sl byte hn hh hbyte⟩
  | succ n ih =>
    rw [sendBits_mid sl (n + 1) byte (by omega) hh]
    apply ih
    · simp only [List.length_cons]
      omega
    · exact hbyte

theorem run_iicSendByte (byte : Byte) {x : Bool} {h : List Event} (hh : talking h = false) :
    ∃ y bits, bits.length = 8 ∧ run (board sl) (iicSendByte byte) (low x [] h) =
      (some (), sent y bits (sl.ack (BYTE byte :: h)) (BYTE byte :: h)) := by
  obtain ⟨y, bits, hb, hrun⟩ := run_sendBits sl rfl hh (byteOf_collect byte) (x := x)
  refine ⟨y, bits, hb, ?_⟩
  rw [← hrun]
  simp [iicSendByte, low]

theorem run_iicSendByte_acked (byte : Byte) {h : List Event} (hh : talking h = false) :
    ∃ y bits, bits.length = 8 ∧ run (board sl) (iicSendByte byte) (acked h) =
      (some (), sent y bits (sl.ack (BYTE byte :: h)) (BYTE byte :: h)) := by
  obtain ⟨y, bits, hb, hrun⟩ := run_sendBits sl rfl hh (byteOf_collect byte) (x := false)
  refine ⟨y, bits, hb, ?_⟩
  have hfall : sl.pulls ⟨⟨false, false⟩, true, [], h⟩ = false := pulls_mid sl (by simp) hh
  rw [← hrun]
  simp [iicSendByte, low, acked, hfall]

/-! ### Its acknowledge -/

theorem run_waitLow_low (left : ℕ) {s : Bus} (hs : s.level.sda = false) :
    run (board sl) (waitLow left) s = (some 0, s) := by
  cases left with
  | zero => rw [waitLow, run_bind, run_READ_SDA, hs]; rfl
  | succ left => rw [waitLow, run_bind, run_READ_SDA, hs]; rfl

theorem run_waitLow_high (left : ℕ) {s : Bus} (hs : s.level.sda = true) :
    run (board sl) (waitLow left) s = run (board sl) (do iicStop; return 1) s := by
  induction left with
  | zero => rw [waitLow, run_bind, run_READ_SDA, hs]; rfl
  | succ left ih => rw [waitLow, run_bind, run_READ_SDA, hs]; exact ih

theorem run_iicWaitAck_acked {y : Bool} {bits : List Bool} {h : List Event} (hb : bits.length = 8) :
    run (board sl) iicWaitAck (sent y bits true h) = (some 0, acked (ACK :: h)) := by
  simp [iicWaitAck, run_waitLow_low, sent, acked, acknowledge, hb]

theorem run_iicWaitAck_refused {y : Bool} {bits : List Bool} {h : List Event} (hb : bits.length = 8) :
    run (board sl) iicWaitAck (sent y bits false h) =
      (some 1, idle (STOP :: START :: NACK :: h)) := by
  have hfall : sl.pulls ⟨⟨false, false⟩, true, [], START :: NACK :: h⟩ = false :=
    pulls_mid sl (by simp) rfl
  simp [iicWaitAck, run_waitLow_high, iicStop, sent, idle, acknowledge, hb, hfall]

/- The state takes a byte behind the history `h`. -/
def Ready (s : Bus) (h : List Event) : Prop :=
  ∀ byte, ∃ y bits, bits.length = 8 ∧
    run (board sl) (iicSendByte byte) s = (some (), sent y bits (sl.ack (BYTE byte :: h)) (BYTE byte :: h))

theorem ready_low {x : Bool} {h : List Event} (hh : talking h = false) : Ready sl (low x [] h) h :=
  fun byte => run_iicSendByte sl byte hh

theorem ready_acked {h : List Event} (hh : talking h = false) : Ready sl (acked h) h :=
  fun byte => run_iicSendByte_acked sl byte hh

variable {α : Type} {s : Bus} {byte : Byte} {h : List Event}

theorem run_send_acked (hs : Ready sl s h) (hack : sl.ack (BYTE byte :: h) = true) (f : Drv α) :
    run (board sl) (do iicSendByte byte; let _ ← iicWaitAck; f) s =
      run (board sl) f (acked (ACK :: BYTE byte :: h)) := by
  obtain ⟨y, bits, hb, hsend⟩ := hs byte
  rw [hack] at hsend
  rw [run_bind_of hsend, run_bind_of (run_iicWaitAck_acked sl hb)]

/- The wait gives up with the bus free, and the caller goes on as if nothing had happened. -/
theorem run_send_refused (hs : Ready sl s h) (hack : sl.ack (BYTE byte :: h) = false) (f : Drv α) :
    run (board sl) (do iicSendByte byte; let _ ← iicWaitAck; f) s =
      run (board sl) f (idle (STOP :: START :: NACK :: BYTE byte :: h)) := by
  obtain ⟨y, bits, hb, hsend⟩ := hs byte
  rw [hack] at hsend
  rw [run_bind_of hsend, run_bind_of (run_iicWaitAck_refused sl hb)]

/-! ### The traffic that the calls stand for -/

/- Bytes sent behind a history, up to the first one that is not acknowledged. -/
def expectedBytes : List Byte → List Event → Bool × List Event
  | [], h => (true, h)
  | b :: bs, h =>
    if sl.ack (BYTE b :: h) then expectedBytes bs (ACK :: BYTE b :: h)
    else (false, NACK :: BYTE b :: h)

def expected (h : List Event) : Call → List Event
  | .AT24CWriteByte addr dataWrite => STOP :: (expectedBytes sl [0xA0, addr, dataWrite] (START :: h)).2
  | .AT24CReadByte addr =>
    match expectedBytes sl [0xA0, addr] (START :: h) with
    | (false, h) => STOP :: h
    | (true, h) =>
      match expectedBytes sl [0xA1] (START :: h) with
      | (false, h) => STOP :: h
      | (true, h) => STOP :: NACK :: BYTE (sl.data h) :: h

def expectedAll (h : List Event) : List Call → List Event
  | [] => h
  | call :: calls => expectedAll (expected sl h call) calls

/- Each call is a write, and each of its bytes is acknowledged. -/
def Acked (h : List Event) : Call → Prop
  | .AT24CWriteByte addr dataWrite => (expectedBytes sl [0xA0, addr, dataWrite] (START :: h)).1 = true
  | .AT24CReadByte _ => False

def AllAcked (h : List Event) : List Call → Prop
  | [] => True
  | call :: calls => Acked sl h call ∧ AllAcked (expected sl h call) calls

theorem expectedBytes_grows (bs : List Byte) (h : List Event) : h <:+ (expectedBytes sl bs h).2 := by
  induction bs generalizing h with
  | nil => exact List.suffix_refl _
  | cons b bs ih =>
    rw [expectedBytes]
    split
    · exact ((List.suffix_cons _ _).trans (List.suffix_cons _ _)).trans (ih _)
    · exact (List.suffix_cons _ _).trans (List.suffix_cons _ _)

theorem expected_read_start {addr : Byte} {h h' : List Event}
    (hexp : expectedBytes sl [0xA0, addr] (START :: h) = (true, h')) :
    START :: h' <:+ expected sl h (.AT24CReadByte addr) := by
  have hgrow := expectedBytes_grows sl [0xA1] (START :: h')
  simp only [expected, hexp]
  cases hread : expectedBytes sl [0xA1] (START :: h') with
  | mk ok h'' =>
    rw [hread] at hgrow
    cases ok with
    | false => exact hgrow.trans (List.suffix_cons _ _)
    | true =>
      exact ((hgrow.trans (List.suffix_cons _ _)).trans (List.suffix_cons _ _)).trans
        (List.suffix_cons _ _)

theorem expected_grows (h : List Event) (call : Call) : h <:+ expected sl h call := by
  have hstart : h <:+ START :: h := List.suffix_cons _ _
  cases call with
  | AT24CWriteByte addr dataWrite =>
    exact (hstart.trans (expectedBytes_grows sl _ _)).trans (List.suffix_cons _ _)
  | AT24CReadByte addr =>
    have hgrow := hstart.trans (expectedBytes_grows sl [0xA0, addr] (START :: h))
    cases hexp : expectedBytes sl [0xA0, addr] (START :: h) with
    | mk ok h' =>
      rw [hexp] at hgrow
      cases ok with
      | false =>
        simp only [expected, hexp]
        exact hgrow.trans (List.suffix_cons _ _)
      | true => exact (hgrow.trans (List.suffix_cons _ _)).trans (expected_read_start sl hexp)

theorem expectedAll_grows (calls : List Call) (h : List Event) : h <:+ expectedAll sl h calls := by
  induction calls generalizing h with
  | nil => exact List.suffix_refl _
  | cons call calls ih => exact (expected_grows sl h call).trans (ih _)

/-! ### One call -/

/- The histories went apart somewhere. -/
def Branch (es es' : List Event) : Prop :=
  ∃ past e e', e ≠ e' ∧ e :: past <:+ es ∧ e' :: past <:+ es'

theorem at24cWriteByte_eq (addr dataWrite : Byte) : at24cWriteByte addr dataWrite = (do
    iicStart
    iicSendByte 0xA0
    let _ ← iicWaitAck
    iicSendByte addr
    let _ ← iicWaitAck
    iicSendByte dataWrite
    let _ ← iicWaitAck
    iicStop) := by
  have hdev : ¬ EE_TYPE > AT24C16 := by decide
  have hhigh : addr.toNat / 256 = 0 := Nat.div_eq_of_lt addr.isLt
  have hlow : BitVec.ofNat 8 (addr.toNat % 256) = addr := by
    rw [Nat.mod_eq_of_lt addr.isLt, BitVec.ofNat_toNat, BitVec.setWidth_eq]
  rw [at24cWriteByte, if_neg hdev, hhigh, hlow]
  rfl

theorem at24cReadByte_eq (addr : Byte) : at24cReadByte addr = (do
    iicStart
    iicSendByte 0xA0
    let _ ← iicWaitAck
    iicSendByte addr
    let _ ← iicWaitAck
    iicStart
    iicSendByte 0xA1
    let _ ← iicWaitAck
    let temp ← iicReadByte 0
    iicStop
    return temp) := by
  have hdev : ¬ EE_TYPE > AT24C16 := by decide
  have hhigh : addr.toNat / 256 = 0 := Nat.div_eq_of_lt addr.isLt
  have hlow : BitVec.ofNat 8 (addr.toNat % 256) = addr := by
    rw [Nat.mod_eq_of_lt addr.isLt, BitVec.ofNat_toNat, BitVec.setWidth_eq]
  rw [at24cReadByte, if_neg hdev, hhigh, hlow]
  rfl

/- Several bytes with their acknowledges, then `f`. -/
def sendAll {α : Type} : List Byte → Drv α → Drv α
  | [], f => f
  | b :: bs, f => do
    iicSendByte b
    let _ ← iicWaitAck
    sendAll bs f

theorem run_sendAll_refused (hs : Ready sl s h) (hack : sl.ack (BYTE byte :: h) = false)
    (bs : List Byte) (f : Drv α) :
    START :: NACK :: BYTE byte :: h <:+ (run (board sl) (sendAll (byte :: bs) f) s).2.seen.events := by
  rw [sendAll, run_send_refused sl hs hack]
  exact (List.suffix_cons STOP _).trans (run_events sl _ (idle _))

/- Either all are acknowledged, or a START follows the acknowledge that is missing. -/
theorem run_sendAll (b : Byte) (bs : List Byte) (hs : Ready sl s h)
    (hq : talking (ACK :: BYTE b :: h) = false) (f : Drv α) :
    (∃ h', expectedBytes sl (b :: bs) h = (true, h') ∧ talking h' = false ∧
      run (board sl) (sendAll (b :: bs) f) s = run (board sl) f (acked h')) ∨
    (∃ past, expectedBytes sl (b :: bs) h = (false, NACK :: past) ∧
      START :: NACK :: past <:+ (run (board sl) (sendAll (b :: bs) f) s).2.seen.events) := by
  induction bs generalizing s b h with
  | nil =>
    cases hack : sl.ack (BYTE b :: h) with
    | false => exact Or.inr ⟨_, by simp [expectedBytes, hack], run_sendAll_refused sl hs hack [] f⟩
    | true => exact Or.inl ⟨_, by simp [expectedBytes, hack], hq, run_send_acked sl hs hack f⟩
  | cons b' bs ih =>
    cases hack : sl.ack (BYTE b :: h) with
    | false => exact Or.inr ⟨_, by simp [expectedBytes, hack], run_sendAll_refused sl hs hack _ f⟩
    | true =>
      have hexp : expectedBytes sl (b :: b' :: bs) h =
          expectedBytes sl (b' :: bs) (ACK :: BYTE b :: h) := by
        rw [expectedBytes, if_pos hack]
      rw [sendAll, run_send_acked sl hs hack, hexp]
      exact ih b' (ready_acked sl hq) hq

theorem run_bind_events {β : Type} (x : Drv α) (f : α → Drv β) (s : Bus) :
    (run (board sl) x s).2.seen.events <:+ (run (board sl) (x >>= f) s).2.seen.events := by
  rw [run_bind]
  cases run (board sl) x s with
  | mk a s' =>
    cases a with
    | none => exact List.suffix_refl _
    | some a => exact run_events sl (f a) s'

theorem Branch.grow {es es' fs fs' : List Event} (hb : Branch es es') (h : es <:+ fs) (h' : es' <:+ fs') :
    Branch fs fs' := by
  obtain ⟨past, e, e', hne, he, he'⟩ := hb
  exact ⟨past, e, e', hne, he.trans h, he'.trans h'⟩

theorem Branch.ne {es es' : List Event} (hb : Branch es es') : es ≠ es' := by
  obtain ⟨past, e, e', hne, he, he'⟩ := hb
  exact ne_of_branch hne he he'

theorem run_at24cWriteByte (addr dataWrite : Byte) (h : List Event) :
    (Acked sl h (.AT24CWriteByte addr dataWrite) ∧ run (board sl) (at24cWriteByte addr dataWrite) (idle h) =
      (some (), idle (expected sl h (.AT24CWriteByte addr dataWrite)))) ∨
    (¬ Acked sl h (.AT24CWriteByte addr dataWrite) ∧
      Branch (run (board sl) (at24cWriteByte addr dataWrite) (idle h)).2.seen.events
        (expected sl h (.AT24CWriteByte addr dataWrite))) := by
  have hready : Ready sl (low false [] (START :: h)) (START :: h) := ready_low sl rfl
  rw [at24cWriteByte_eq, run_bind_of (run_iicStart sl h)]
  obtain ⟨h', hexp, hquiet, hrun⟩ | ⟨past, hexp, hrun⟩ :=
    run_sendAll sl 0xA0 [addr, dataWrite] hready rfl iicStop
  · left
    refine ⟨by rw [Acked, hexp], ?_⟩
    rw [expected, hexp]
    exact hrun.trans (run_iicStop_acked sl hquiet)
  · right
    refine ⟨by rw [Acked, hexp]; exact Bool.false_ne_true, ?_⟩
    rw [expected, hexp]
    exact ⟨NACK :: past, START, STOP, by decide, hrun, List.suffix_refl _⟩

/- The repeated START is missing: the byte 0xA1 follows the acknowledge of the address. -/
theorem run_at24cReadByte (addr : Byte) (h : List Event) :
    Branch (run (board sl) (at24cReadByte addr) (idle h)).2.seen.events
      (expected sl h (.AT24CReadByte addr)) := by
  have hready : Ready sl (low false [] (START :: h)) (START :: h) := ready_low sl rfl
  rw [at24cReadByte_eq, run_bind_of (run_iicStart sl h)]
  obtain ⟨h', hexp, hquiet, hrun⟩ | ⟨past, hexp, hrun⟩ :=
    run_sendAll sl 0xA0 [addr] hready rfl (do
      iicStart
      iicSendByte 0xA1
      let _ ← iicWaitAck
      let temp ← iicReadByte 0
      iicStop
      return temp)
  · obtain ⟨y, bits, -, hsend⟩ := ready_low sl hquiet (x := false) 0xA1
    have hgo := hrun.trans (run_bind_of (run_iicStart_acked sl hquiet))
    rw [run_bind_of hsend] at hgo
    have hseen := run_events sl (do
      let _ ← iicWaitAck
      let temp ← iicReadByte 0
      iicStop
      return temp) (sent y bits (sl.ack (BYTE 0xA1 :: h')) (BYTE 0xA1 :: h'))
    rw [← hgo] at hseen
    exact ⟨h', BYTE 0xA1, START, by decide, hseen, expected_read_start sl hexp⟩
  · rw [expected, hexp]
    exact ⟨NACK :: past, START, STOP, by decide, hrun, List.suffix_refl _⟩

/-! ### Sessions -/

theorem run_call (call : Call) (h : List Event) :
    (Acked sl h call ∧ run (board sl) call.run (idle h) = (some (), idle (expected sl h call))) ∨
    (¬ Acked sl h call ∧
      Branch (run (board sl) call.run (idle h)).2.seen.events (expected sl h call)) := by
  cases call with
  | AT24CWriteByte addr dataWrite => exact run_at24cWriteByte sl addr dataWrite h
  | AT24CReadByte addr =>
    right
    refine ⟨id, (run_at24cReadByte sl addr h).grow ?_ (List.suffix_refl _)⟩
    exact run_bind_events sl (at24cReadByte addr) _ (idle h)

theorem run_session (calls : List Call) (h : List Event) :
    (AllAcked sl h calls ∧ run (board sl) (session calls) (idle h) =
      (some (), idle (expectedAll sl h calls))) ∨
    (¬ AllAcked sl h calls ∧
      Branch (run (board sl) (session calls) (idle h)).2.seen.events (expectedAll sl h calls)) := by
  induction calls generalizing h with
  | nil => exact Or.inl ⟨trivial, rfl⟩
  | cons call calls ih =>
    obtain ⟨hacked, hrun⟩ | ⟨hbad, hbranch⟩ := run_call sl call h
    · rw [session, run_bind_of hrun]
      obtain ⟨hall, hrest⟩ | ⟨hbad, hbranch⟩ := ih (expected sl h call)
      · exact Or.inl ⟨⟨hacked, hall⟩, hrest⟩
      · exact Or.inr ⟨fun hall => hbad hall.2, hbranch⟩
    · right
      refine ⟨fun hall => hbad hall.1, hbranch.grow ?_ (expectedAll_grows sl calls _)⟩
      exact run_bind_events sl call.run _ (idle h)

/-- From the bus that `IIC_Init` leaves, the decoded traffic is that of the calls exactly if
every call is a write and every byte is acknowledged. -/
theorem session_decode_iff (calls : List Call) :
    decode (wave sl (session calls) (idle [])) = (expectedAll sl [] calls).reverse ↔
      AllAcked sl [] calls := by
  have hdecode : decode (wave sl (session calls) (idle [])) =
      (run (board sl) (session calls) (idle [])).2.seen.events.reverse := by
    rw [run_seen]
    rfl
  rw [hdecode, List.reverse_inj]
  obtain ⟨hall, hrun⟩ | ⟨hbad, hbranch⟩ := run_session sl calls []
  · rw [hrun]
    exact ⟨fun _ => hall, fun _ => rfl⟩
  · exact ⟨fun heq => (hbranch.ne heq).elim, fun hall => (hbad hall).elim⟩

/- A slave that acknowledges everything and holds 0x55. -/
def willing : Slave := ⟨fun _ => true, fun _ => 0x55⟩

theorem readByte_noRestart :
    decode (wave willing (session [.AT24CReadByte 0x10]) (idle [])) =
      [START, BYTE 0xA0, ACK, BYTE 0x10, ACK, BYTE 0xA1, ACK, BYTE 0xFF, ACK, STOP] ∧
    (expectedAll willing [] [.AT24CReadByte 0x10]).reverse =
      [START, BYTE 0xA0, ACK, BYTE 0x10, ACK, START, BYTE 0xA1, ACK, BYTE 0x55, NACK, STOP] ∧
    decode (wave willing (session [.AT24CReadByte 0x10]) (idle [])) ≠
      (expectedAll willing [] [.AT24CReadByte 0x10]).reverse := by
  decide +kernel

end MultiEmbedded.Iic
