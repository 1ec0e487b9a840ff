import MultiEmbedded.Enc.Driver
import MultiEmbedded.Lib.Ring
import Mathlib.Logic.Function.Basic

/-!
# The ENC28J60 with its receive buffer

Control registers in four banks, 8 Kbytes of packet memory, and a receiver that may
store a frame before any command, as long as it fits in front of ERXRDPT.
-/

namespace MultiEmbedded.Enc
open Prog RingCells

abbrev Half := BitVec 16

/- The bank encoded in a register address. -/
def bankOf (address : Byte) : BitVec 2 := ((address &&& BANK_MASK) >>> 5).setWidth 2

theorem bankOf_shift : ∀ address : Byte,
    (bankOf address).setWidth 8 <<< 5 = address &&& BANK_MASK := by
  decide +kernel

theorem shift_injective : ∀ a b : BitVec 2,
    a.setWidth 8 <<< 5 = (b.setWidth 8 <<< 5 : Byte) → a = b := by
  decide +kernel

/- Addresses below EIE differ from bank to bank. -/
def BankSpecific (address : Byte) : Prop := address &&& ADDR_MASK < EIE

instance (address : Byte) : Decidable (BankSpecific address) := inferInstanceAs (Decidable (_ < _))

/- The register file holds bank `b` from `32 * b` on, the common registers under bank 0. -/
def regIndex (bsel : BitVec 2) (address : Byte) : ℕ :=
  if BankSpecific address then 32 * bsel.toNat + (address &&& ADDR_MASK).toNat
  else (address &&& ADDR_MASK).toNat

def pair (regs : ℕ → Byte) (low : ℕ) : ℕ := (regs low).toNat + 256 * (regs (low + 1)).toNat

def setPair (regs : ℕ → Byte) (low value : ℕ) : ℕ → Byte :=
  Function.update (Function.update regs low (BitVec.ofNat 8 value)) (low + 1)
    (BitVec.ofNat 8 (value / 256))

/-! ### What only the driver changes -/

/- `rxrd` is the limit the receiver goes by: it takes the low byte of ERXRDPT only when the
high byte is written. -/
structure Core where
  regs : ℕ → Byte
  rxrd : ℕ
  Enc28j60Bank : Byte
  NextPacketPtr : Word

def Core.bsel (c : Core) : BitVec 2 := (c.regs 0x1f).setWidth 2

def Core.index (c : Core) (address : Byte) : ℕ := regIndex c.bsel address

/- A write to a control register; PKTDEC reads back as 0. -/
def Core.put (c : Core) (address : Byte) (f : Byte → Byte) : Core :=
  let i := c.index address
  let v := f (c.regs i)
  let regs := Function.update c.regs i (if i = 0x1e then v &&& ~~~ECON2_PKTDEC else v)
  { c with regs := regs, rxrd := if i = 0x0d then pair regs 0x0c else c.rxrd }

/-! ### Frames -/

/- `data` ends with the four CRC bytes; `pad` bytes are skipped behind it. -/
structure Frame where
  data : List Byte
  status : Half
  pad : ℕ
  crc : 4 ≤ data.length

def RXSIZE : ℕ := RXSTOP_INIT.toNat + 1

def Frame.size (f : Frame) : ℕ := 6 + f.data.length + f.pad

/- A frame in packet memory when the following one starts at `next`. -/
def Frame.bytes (f : Frame) (next : ℕ) : List Byte :=
  [BitVec.ofNat 8 next, BitVec.ofNat 8 (next / 256),
    BitVec.ofNat 8 f.data.length, BitVec.ofNat 8 (f.data.length / 256),
    f.status.setWidth 8, (f.status >>> 8).setWidth 8] ++ f.data

/- `received` is the history since the last reset. -/
structure Sys where
  core : Core
  ram : ℕ → Byte
  rxwr : ℕ
  unread : ℕ
  received : List Frame
  clock : ℕ

/- What can reach the receiver: a frame, or one it gives up after some bytes. -/
inductive Event
  | frame (f : Frame)
  | partly (bytes : List Byte)

/- The surroundings: what arrives before each command, what a register with hardware bits
reads as, and the registers after a reset. -/
structure Env where
  events : ℕ → List Event
  reading : ℕ → ℕ → Byte → Byte
  reset : ℕ → Byte

def Sys.free (s : Sys) : ℕ :=
  if s.core.rxrd ≤ s.rxwr then s.core.rxrd + RXSIZE - s.rxwr - 1 else s.core.rxrd - s.rxwr - 1

/- The receiver never writes past ERXRDPT and counts at most 255 frames. -/
def Sys.arrive (s : Sys) (e : Event) : Sys :=
  if s.core.regs 0x1f &&& ECON1_RXEN = 0 then s
  else match e with
    | .frame f =>
      if f.size ≤ s.free ∧ s.unread < 255 then
        { s with
          ram := blit RXSIZE s.ram s.rxwr (f.bytes (slot RXSIZE s.rxwr f.size))
          rxwr := slot RXSIZE s.rxwr f.size
          unread := s.unread + 1
          received := s.received ++ [f] }
      else s
    | .partly bytes => { s with ram := blit RXSIZE s.ram s.rxwr (bytes.take s.free) }

/-! ### Commands -/

def Sys.put (s : Sys) (address : Byte) (f : Byte → Byte) : Sys :=
  let i := s.core.index address
  { s with
    core := s.core.put address f
    rxwr := if i = 0x08 ∨ i = 0x09 then pair (s.core.put address f).regs 0x08 else s.rxwr
    unread := if i = 0x1e ∧ f (s.core.regs i) &&& ECON2_PKTDEC ≠ 0 then s.unread - 1
      else s.unread }

/- The read pointer wraps at the end of the receive buffer. -/
def readNext (p : ℕ) : ℕ := if p = RXSTOP_INIT.toNat then RXSTART_INIT.toNat else (p + 1) % 0x2000

def readMem (ram : ℕ → Byte) : ℕ → (ℕ → Byte) → List Byte × (ℕ → Byte)
  | 0, regs => ([], regs)
  | n + 1, regs =>
    let p := pair regs 0x00
    let rest := readMem ram n (setPair regs 0x00 (readNext p))
    (ram p :: rest.1, rest.2)

def Sys.readMem (s : Sys) (n : ℕ) : List Byte × Sys :=
  let r := Enc.readMem s.ram n s.core.regs
  (r.1, { s with core := { s.core with regs := r.2 } })

def Sys.writeMem (s : Sys) (b : Byte) : Sys :=
  let p := pair s.core.regs 0x02
  { s with
    ram := Function.update s.ram p b
    core := { s.core with regs := setPair s.core.regs 0x02 ((p + 1) % 0x2000) } }

def Sys.reset (env : Env) (s : Sys) : Sys :=
  { s with
    core := { s.core with regs := Function.update env.reset 0x1f 0, rxrd := pair env.reset 0x0c }
    unread := 0
    received := [] }

def Sys.command (env : Env) (s : Sys) (command address data : Byte) : Sys :=
  if command = ENC28J60_SOFT_RESET then s.reset env
  else if command >>> 5 = ENC28J60_WRITE_CTRL_REG >>> 5 then s.put address fun _ => data
  else if command >>> 5 = ENC28J60_BIT_FIELD_SET >>> 5 then s.put address fun v => v ||| data
  else if command >>> 5 = ENC28J60_BIT_FIELD_CLR >>> 5 then s.put address fun v => v &&& ~~~data
  else if command = ENC28J60_WRITE_BUF_MEM then s.writeMem data
  else s

def Sys.answer (env : Env) (s : Sys) (command address : Byte) : Byte × Sys :=
  if command = ENC28J60_READ_BUF_MEM then (s.ram (pair s.core.regs 0x00), (s.readMem 1).2)
  else if s.core.index address = 0x39 then (BitVec.ofNat 8 s.unread, s)
  else (env.reading s.clock (s.core.index address) (s.core.regs (s.core.index address)), s)

def step (env : Env) : (o : Op) → Sys → o.Res × Sys
  | .readOp op address, s => s.answer env (op ||| (address &&& ADDR_MASK)) address
  | .writeOp op address data, s => ((), s.command env (op ||| (address &&& ADDR_MASK)) address data)
  | .readBuffer len, s => s.readMem len.toNat
  | .writeBuffer data, s => ((), data.foldl Sys.writeMem s)
  | .csHigh, s => ((), s)
  | .loadBank, s => (s.core.Enc28j60Bank, s)
  | .storeBank bank, s => ((), { s with core := { s.core with Enc28j60Bank := bank } })
  | .loadNext, s => (s.core.NextPacketPtr, s)
  | .storeNext next, s => ((), { s with core := { s.core with NextPacketPtr := next } })

/- What arrives before the next command. -/
def Sys.tick (env : Env) (s : Sys) : Sys :=
  { (env.events s.clock).foldl Sys.arrive s with clock := s.clock + 1 }

def chip (env : Env) (o : Op) (s : Sys) : o.Res × Sys := step env o (s.tick env)

end MultiEmbedded.Enc
