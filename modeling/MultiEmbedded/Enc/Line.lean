import MultiEmbedded.Enc.Halves

/-!
# The line to the chip

The driver on a chip to which nothing happens by itself. The line keeps which bytes
went over it in every period of chip select, and how often a register was read whose
bits the hardware changes.
-/

namespace MultiEmbedded.Enc
open Prog RingCells

/- While chip select is low: how often the driver has pulled it low, and the bytes since. -/
structure Period where
  selects : ℕ
  bytes : List Byte
  deriving DecidableEq

structure Line where
  sys : Sys
  reads : ℕ
  sel : Option Period
  periods : List Period

/- The hardware after `n` reads of a common register. The bank bits are the driver's own. -/
def Env.still (env : Env) (n : ℕ) : Env where
  events := fun _ => []
  reading := fun _ i v => if i = 0x1f then (v &&& (ECON1_BSEL1 ||| ECON1_BSEL0)) |||
    bselClear (env.reading n i (bselClear v)) else env.reading n i v
  reset := env.reset

theorem still_silent (env : Env) (n : ℕ) : Silent (env.still n) := fun _ => rfl

/- The registers from EIE on are the same in every bank. -/
def counts : Op → ℕ
  | .readOp op address => if op = ENC28J60_READ_CTRL_REG ∧ ¬ BankSpecific address then 1 else 0
  | _ => 0

/- The bytes of an operation. MAC and MII registers answer one byte late. -/
def opBytes : Op → List Byte
  | .readOp op address => [op ||| (address &&& ADDR_MASK), 0xff] ++ if address &&& 0x80 ≠ 0 then [0xff] else []
  | .writeOp op address data => [op ||| (address &&& ADDR_MASK), data]
  | .readBuffer len => ENC28J60_READ_BUF_MEM :: List.replicate len.toNat 0
  | .writeBuffer data => ENC28J60_WRITE_BUF_MEM :: data
  | _ => []

/- Operations that are a command on the bus. -/
def OnBus : Op → Prop
  | .readOp _ _ | .writeOp _ _ _ | .readBuffer _ | .writeBuffer _ => True
  | _ => False

instance : DecidablePred OnBus
  | .readOp _ _ | .writeOp _ _ _ | .readBuffer _ | .writeBuffer _ => isTrue trivial
  | .csHigh | .loadBank | .storeBank _ | .loadNext | .storeNext _ => isFalse id

def opPeriods (o : Op) : List Period := if OnBus o then [⟨1, opBytes o⟩] else []

/- An operation of the driver, undisturbed. -/
def line (env : Env) (o : Op) (l : Line) : o.Res × Line :=
  let r := chip (env.still l.reads) o l.sys
  (r.1, { l with sys := r.2, reads := l.reads + counts o, periods := l.periods ++ opPeriods o })

variable {env : Env} {Hang : Prop} {α β : Type}

/- Operations that leave the count alone run as on the chip. -/
theorem line_run {x : Drv α} (hx : Only (fun o => counts o = 0) Hang x) (l : Line) : ∃ ps,
    run (line env) x l = ((run (chip (env.still l.reads)) x l.sys).1,
      { l with sys := (run (chip (env.still l.reads)) x l.sys).2, periods := l.periods ++ ps }) := by
  induction x generalizing l with
  | ret a =>
    refine ⟨[], ?_⟩
    rw [List.append_nil]
    rfl
  | stuck =>
    refine ⟨[], ?_⟩
    rw [List.append_nil]
    rfl
  | act o g ih =>
    obtain ⟨ps, hps⟩ := ih (line env o l).1 (hx.2 _) (line env o l).2
    have hreads : (line env o l).2.reads = l.reads := by
      show l.reads + counts o = l.reads
      rw [hx.1]
      rfl
    refine ⟨opPeriods o ++ ps, ?_⟩
    show run (line env) (g (line env o l).1) (line env o l).2 = _
    rw [hps, hreads, ← List.append_assoc]
    show _ = (_, { l with sys := _, periods := _ })
    unfold line
    rfl

end MultiEmbedded.Enc
