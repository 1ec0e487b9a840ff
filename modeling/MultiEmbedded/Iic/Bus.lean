import MultiEmbedded.Lib.Prog
import MultiEmbedded.Lib.TwoWire

/-!
# Software I2C: iic.c on the pins PB10 and PB11

SCL is an output all the time. SDA changes its direction: an output drives the
ODR bit, in every other mode the line is released. The slave acts when SCL has
fallen. Delays are left out.
-/

namespace MultiEmbedded.Iic
open Prog TwoWire TwoWire.Event

abbrev Byte := BitVec 8

/- `CRH m` is a write of pin 11's four configuration bits. -/
inductive IicOp
  | CRH (m : BitVec 4)
  | SCL (b : Bool)
  | SDA (b : Bool)
  | READ_SDA

def IicOp.Res : IicOp → Type
  | CRH _ => Unit
  | SCL _ => Unit
  | SDA _ => Unit
  | READ_SDA => Bool

abbrev Drv (α : Type) := Prog IicOp IicOp.Res α

/-! ### The bus -/

/- `scl`, `sda`: the ODR bits. `pull`: the slave holds SDA low. `seen`: the wave so far as
the slave decodes it. -/
structure Bus where
  scl : Bool
  sda : Bool
  mode : BitVec 4
  pull : Bool
  seen : Decoder

/- The two low bits of the mode are zero for an input. -/
def Bus.level (s : Bus) : Level := ⟨s.scl, (s.mode &&& 3 == 0 || s.sda) && !s.pull⟩

def Bus.observe (s : Bus) : Bus := { s with seen := s.seen.step s.level }

def Bus.react (sl : Slave) (s : Bus) : Bus := { s with pull := sl.pulls s.seen }

def board (sl : Slave) : (o : IicOp) → Bus → o.Res × Bus
  | .CRH m, s => ((), { s with mode := m }.observe)
  | .SDA b, s => ((), { s with sda := b }.observe)
  | .SCL b, s =>
    let clocked := { s with scl := b }.observe
    ((), if s.scl && !b then (clocked.react sl).observe else clocked)
  | .READ_SDA, s => (s.level.sda, s)

/- The levels that an operation puts on the bus: a falling clock, then the slave's answer. -/
def shown (sl : Slave) : (o : IicOp) → Bus → List Level
  | .CRH m, s => [{ s with mode := m }.level]
  | .SDA b, s => [{ s with sda := b }.level]
  | .SCL b, s =>
    let clocked := { s with scl := b }
    if s.scl && !b then [clocked.level, (clocked.observe.react sl).level] else [clocked.level]
  | .READ_SDA, _ => []

def wave {α : Type} (sl : Slave) (x : Drv α) (s : Bus) : List Level :=
  (trace (board sl) x s).flatMap fun e => shown sl e.1 e.2

theorem board_seen (sl : Slave) (o : IicOp) (s : Bus) :
    (board sl o s).2.seen = (shown sl o s).foldl Decoder.step s.seen := by
  cases o with
  | CRH m => rfl
  | SDA b => rfl
  | READ_SDA => rfl
  | SCL b =>
    cases hb : s.scl && !b with
    | false => simp only [board, shown, hb]; rfl
    | true => simp only [board, shown, hb]; rfl

theorem run_seen {α : Type} (sl : Slave) (x : Drv α) (s : Bus) :
    (run (board sl) x s).2.seen = (wave sl x s).foldl Decoder.step s.seen := by
  induction x generalizing s with
  | ret a => rfl
  | stuck => rfl
  | act o k ih =>
    have hstep : wave sl (.act o k) s =
        shown sl o s ++ wave sl (k (board sl o s).1) (board sl o s).2 := rfl
    rw [hstep, List.foldl_append, ← board_seen]
    exact ih _ _

theorem run_events {α : Type} (sl : Slave) (x : Drv α) (s : Bus) :
    s.seen.events <:+ (run (board sl) x s).2.seen.events := by
  rw [run_seen]
  exact foldl_events _ _

/-! ### The primitives of iic.c -/

def SDA_OUT : Drv Unit := do
  perform (IicOp.CRH 0)
  perform (IicOp.CRH 3)

def SDA_IN : Drv Unit := do
  perform (IicOp.CRH 0)
  perform (IicOp.CRH 8)

/- A bit-band word takes bit 0 of what is stored. -/
def IIC_SCL (v : Byte) : Drv Unit := perform (IicOp.SCL (v.getLsbD 0))
def IIC_SDA (v : Byte) : Drv Unit := perform (IicOp.SDA (v.getLsbD 0))
def READ_SDA : Drv Bool := perform IicOp.READ_SDA

@[simp] theorem run_SDA_OUT (sl : Slave) (s : Bus) : run (board sl) SDA_OUT s =
    (some (), (board sl (.CRH 3) (board sl (.CRH 0) s).2).2) := rfl

@[simp] theorem run_SDA_IN (sl : Slave) (s : Bus) : run (board sl) SDA_IN s =
    (some (), (board sl (.CRH 8) (board sl (.CRH 0) s).2).2) := rfl

@[simp] theorem run_IIC_SDA (sl : Slave) (v : Byte) (s : Bus) :
    run (board sl) (IIC_SDA v) s = (some (), (board sl (.SDA (v.getLsbD 0)) s).2) := rfl

@[simp] theorem run_IIC_SCL (sl : Slave) (v : Byte) (s : Bus) :
    run (board sl) (IIC_SCL v) s = (some (), (board sl (.SCL (v.getLsbD 0)) s).2) := rfl

@[simp] theorem run_READ_SDA (sl : Slave) (s : Bus) :
    run (board sl) READ_SDA s = (some s.level.sda, s) := rfl

def iicStart : Drv Unit := do
  SDA_OUT
  IIC_SDA 1
  IIC_SCL 1
  IIC_SDA 0
  IIC_SCL 0

def iicStop : Drv Unit := do
  SDA_OUT
  IIC_SDA 0
  IIC_SCL 0
  IIC_SCL 1
  IIC_SDA 1

/- The wait for a low SDA, with `250 - ErrTime` reads before the one that gives up. -/
def waitLow : ℕ → Drv Byte
  | 0 => do
    if ← READ_SDA then
      iicStop
      return 1
    else return 0
  | left + 1 => do
    if ← READ_SDA then waitLow left else return 0

def iicWaitAck : Drv Byte := do
  IIC_SDA 0
  SDA_IN
  IIC_SCL 1
  waitLow 250

def iicAck : Drv Unit := do
  IIC_SCL 0
  SDA_OUT
  IIC_SDA 0
  IIC_SCL 0
  IIC_SCL 1
  IIC_SCL 0

def iicNack : Drv Unit := do
  IIC_SCL 0
  SDA_OUT
  IIC_SCL 0
  IIC_SDA 1
  IIC_SCL 1
  IIC_SCL 0

def sendBits : ℕ → Byte → Drv Unit
  | 0, _ => return ()
  | n + 1, byte => do
    IIC_SDA ((byte &&& 0x80#8) >>> 7)
    IIC_SCL 1
    IIC_SCL 0
    sendBits n (byte <<< 1)

def iicSendByte (byte : Byte) : Drv Unit := do
  SDA_OUT
  IIC_SCL 0
  sendBits 8 byte

def readBits : ℕ → Byte → Drv Byte
  | 0, receive => return receive
  | n + 1, receive => do
    IIC_SCL 0
    IIC_SCL 1
    let receive := receive <<< 1
    if ← READ_SDA then readBits n (receive + 1) else readBits n receive

def iicReadByte (ack : Byte) : Drv Byte := do
  SDA_IN
  let receive ← readBits 8 0
  if ack = 0 then iicNack else iicAck
  return receive

end MultiEmbedded.Iic
