import MultiEmbedded.Enc.Sending
import MultiEmbedded.Net.Process

/-!
# The calls on the bus

The main loop and the interrupt handler as programs over the operations of the driver
and of lwIP, and below them the steps on the bus: an edge of chip select, a byte.
-/

namespace MultiEmbedded.Net
open Prog Enc

/- `store` fills MyRecvbuf; `arrival` is what the line brings. -/
inductive CallOp
  | drv (o : Op)
  | store (stored : List Byte)
  | arrival (events : List Event)
  | net (o : NetOp)

@[reducible] def CallOp.Res : CallOp → Type
  | drv o => o.Res
  | net o => o.Res
  | _ => Unit

abbrev CallProg := Prog CallOp CallOp.Res

def onLine {α : Type} (x : Drv α) : CallProg α := lower (fun o => perform (CallOp.drv o)) x

/- `enc28j60ReadBuffer` writes to the caller's buffer. -/
def recvOp : (o : Op) → CallProg o.Res
  | .readBuffer len => do
    let data ← perform (CallOp.drv (.readBuffer len))
    perform (CallOp.store (data ++ [0]))
    return data
  | o => perform (CallOp.drv o)

def receiveCall (maxlen : Word) : CallProg Word := do
  let (len, _) ← lower recvOp (enc28j60PacketReceive maxlen)
  return len

def netCall : (o : NetOp) → CallProg o.Res
  | .enc28j60PacketReceive maxlen => receiveCall maxlen
  | o => perform (CallOp.net o)

/- `process_mac`, in the main loop as well as in `EXTI1_IRQHandler`. -/
def process (spin : ℕ) : CallProg Unit := lower netCall (processMac spin)

def withArrivals (q : List Event) (a : Line) : Line := { a with sys := q.foldl Sys.arrive a.sys }

def call (env : Env) (net : NetEnv) : (o : CallOp) → Line × Lwip → o.Res × (Line × Lwip)
  | .drv o, (a, l) => ((line env o a).1, (line env o a).2, l)
  | .store stored, (a, l) => ((), a, l.store stored)
  | .arrival q, (a, l) => ((), withArrivals q a, l)
  | .net o, st => board (fun _ a => ((0, []), a)) net o st

/-! ### Steps on the bus -/

inductive Step
  | csl
  | csh
  | spi (data : Byte)
  | other (o : CallOp)

@[reducible] def Step.Res : Step → Type
  | spi _ => Byte
  | other o => o.Res
  | _ => Unit

abbrev BusProg := Prog Step Step.Res

def readBytes : ℕ → BusProg (List Byte)
  | 0 => pure []
  | len + 1 => do
    let data ← perform (Step.spi 0)
    return data :: (← readBytes len)

def sendBytes : List Byte → BusProg Unit
  | [] => pure ()
  | b :: data => do
    let _ ← perform (Step.spi b)
    sendBytes data

/- `enc28j60ReadOp`, `enc28j60WriteOp`, `enc28j60ReadBuffer` and `enc28j60WriteBuffer`. -/
def transfer : (o : Op) → BusProg o.Res
  | .readOp op address => do
    perform Step.csl
    let _ ← perform (Step.spi (op ||| (address &&& ADDR_MASK)))
    let dat ← perform (Step.spi 0xff)
    let dat ← (if address &&& 0x80 ≠ 0 then perform (Step.spi 0xff) else pure dat)
    perform Step.csh
    return dat
  | .writeOp op address data => do
    perform Step.csl
    let _ ← perform (Step.spi (op ||| (address &&& ADDR_MASK)))
    let _ ← perform (Step.spi data)
    perform Step.csh
  | .readBuffer len => do
    perform Step.csl
    let _ ← perform (Step.spi ENC28J60_READ_BUF_MEM)
    let data ← readBytes len.toNat
    perform Step.csh
    return data
  | .writeBuffer data => do
    perform Step.csl
    let _ ← perform (Step.spi ENC28J60_WRITE_BUF_MEM)
    sendBytes data
    perform Step.csh
  | .csHigh => perform Step.csh
  | o => perform (Step.other (.drv o))

def steps : (o : CallOp) → BusProg o.Res
  | .drv o => transfer o
  | o => perform (Step.other o)

/- The chip takes the first byte of a period for the command, and what it gives back then means
nothing. A command on a register is done with its second byte; those on the buffer go on. -/
def exchange (env : Env) (a : Line) (sent : List Byte) (b : Byte) : Byte × Line :=
  match sent with
  | [] => (0, a)
  | command :: args =>
    if command = ENC28J60_READ_BUF_MEM then
      (a.sys.ram (pair a.sys.core.regs 0x00), { a with sys := (a.sys.readMem 1).2 })
    else if command = ENC28J60_WRITE_BUF_MEM then (0, { a with sys := a.sys.writeMem b })
    else if command >>> 5 = ENC28J60_READ_CTRL_REG >>> 5 then
      ((a.sys.answer (env.still a.reads) command command).1,
        { a with reads := a.reads + if args = [] ∧ ¬ BankSpecific command then 1 else 0 })
    else if args = [] then (0, { a with sys := a.sys.command (env.still a.reads) command command b })
    else (0, a)

/- Pulling chip select low a second time gives no edge; with chip select high nothing listens
and MISO stays high. -/
def bus (env : Env) (net : NetEnv) : (o : Step) → Line × Lwip → o.Res × (Line × Lwip)
  | .csl, (a, l) => match a.sel with
    | none => ((), { a with sys := a.sys.tick (env.still a.reads), sel := some ⟨1, []⟩ }, l)
    | some p => ((), { a with sel := some { p with selects := p.selects + 1 } }, l)
  | .csh, (a, l) => match a.sel with
    | none => ((), a, l)
    | some p => ((), { a with sel := none, periods := a.periods ++ [p] }, l)
  | .spi b, (a, l) => match a.sel with
    | none => (0xff, a, l)
    | some p => ((exchange env a p.bytes b).1,
        { (exchange env a p.bytes b).2 with sel := some { p with bytes := p.bytes ++ [b] } }, l)
  | .other o, st => call env net o st

/-! ### A transfer is one operation of the driver -/

/- The commands these calls send: none on a MAC or MII register. -/
def Issued : Op → Prop
  | .readOp op address => op = ENC28J60_READ_CTRL_REG ∧ address &&& 0x80 = 0 ∨ op = ENC28J60_READ_BUF_MEM ∧ address = 0
  | .writeOp op address _ => op = ENC28J60_WRITE_CTRL_REG ∨ op = ENC28J60_BIT_FIELD_SET ∨
      op = ENC28J60_BIT_FIELD_CLR ∨ op = ENC28J60_WRITE_BUF_MEM ∧ address = 0
  | .csHigh => False
  | _ => True

variable {env : Env} {net : NetEnv} {s : Sys} {n : ℕ} {ps : List Period} {l : Lwip}

theorem bankSpecific_masked {address command : Byte} (h : command &&& ADDR_MASK = address &&& ADDR_MASK) :
    BankSpecific command ↔ BankSpecific address := by
  unfold BankSpecific
  rw [h]

theorem index_masked {address command : Byte} (h : command &&& ADDR_MASK = address &&& ADDR_MASK) (c : Core) :
    c.index command = c.index address := by
  unfold Core.index regIndex
  simp only [bankSpecific_masked h, h]

theorem put_masked {address command : Byte} (h : command &&& ADDR_MASK = address &&& ADDR_MASK) (s : Sys)
    (f : Byte → Byte) : s.put command f = s.put address f := by
  unfold Sys.put Core.put
  simp only [index_masked h]

theorem command_masked {address command : Byte} (h : command &&& ADDR_MASK = address &&& ADDR_MASK) (e : Env) (s : Sys)
    (c data : Byte) : s.command e c command data = s.command e c address data := by
  unfold Sys.command
  simp only [put_masked h]

theorem answer_masked {address command : Byte} (h : command &&& ADDR_MASK = address &&& ADDR_MASK) (e : Env) (s : Sys)
    (c : Byte) : s.answer e c command = s.answer e c address := by
  unfold Sys.answer
  simp only [index_masked h]

/- A command of two bytes. -/
theorem pair_run {α : Type} (command b r : Byte) (s' : Sys) (n' : ℕ) (f : Byte → α)
    (hx : exchange env ⟨s.tick (env.still n), n, some ⟨1, [command]⟩, ps⟩ [command] b =
      (r, ⟨s', n', some ⟨1, [command]⟩, ps⟩)) :
    run (bus env net) (do
      perform Step.csl
      let _ ← perform (Step.spi command)
      let dat ← perform (Step.spi b)
      perform Step.csh
      return f dat) (⟨s, n, none, ps⟩, l) = (some (f r), ⟨s', n', none, ps ++ [⟨1, [command, b]⟩]⟩, l) := by
  show (some (f (exchange env ⟨s.tick (env.still n), n, some ⟨1, [command]⟩, ps⟩ [command] b).1),
    ({ (exchange env ⟨s.tick (env.still n), n, some ⟨1, [command]⟩, ps⟩ [command] b).2 with
      sel := none
      periods := (exchange env ⟨s.tick (env.still n), n, some ⟨1, [command]⟩, ps⟩ [command] b).2.periods ++
        [⟨1, [command, b]⟩] } : Line), l) = _
  rw [hx]

theorem exchange_read {address : Byte} (a : Line) (b : Byte) :
    exchange env a [ENC28J60_READ_CTRL_REG ||| (address &&& ADDR_MASK)] b =
      ((a.sys.answer (env.still a.reads) (ENC28J60_READ_CTRL_REG ||| (address &&& ADDR_MASK)) address).1,
        { a with reads := a.reads + if BankSpecific address then 0 else 1 }) := by
  have hcmd : ∀ a : Byte, (ENC28J60_READ_CTRL_REG ||| (a &&& ADDR_MASK)) &&& ADDR_MASK = a &&& ADDR_MASK ∧
      ENC28J60_READ_CTRL_REG ||| (a &&& ADDR_MASK) ≠ ENC28J60_READ_BUF_MEM ∧
      ENC28J60_READ_CTRL_REG ||| (a &&& ADDR_MASK) ≠ ENC28J60_WRITE_BUF_MEM ∧
      (ENC28J60_READ_CTRL_REG ||| (a &&& ADDR_MASK)) >>> 5 = ENC28J60_READ_CTRL_REG >>> 5 := by decide +kernel
  obtain ⟨hm, h1, h2, h3⟩ := hcmd address
  unfold exchange
  simp only [h1, h2, h3, if_false, if_true, answer_masked hm, bankSpecific_masked hm, true_and]
  by_cases hb : BankSpecific address
  · rw [if_neg (not_not_intro hb), if_pos hb]
  · rw [if_pos hb, if_neg hb]

theorem exchange_write {op address : Byte} (ho : op = ENC28J60_WRITE_CTRL_REG ∨ op = ENC28J60_BIT_FIELD_SET ∨
    op = ENC28J60_BIT_FIELD_CLR) (a : Line) (data : Byte) :
    exchange env a [op ||| (address &&& ADDR_MASK)] data =
      (0, { a with sys := a.sys.command (env.still a.reads) (op ||| (address &&& ADDR_MASK)) address data }) := by
  have hcmd : ∀ op a : Byte, (op = ENC28J60_WRITE_CTRL_REG ∨ op = ENC28J60_BIT_FIELD_SET ∨ op = ENC28J60_BIT_FIELD_CLR) →
      (op ||| (a &&& ADDR_MASK)) &&& ADDR_MASK = a &&& ADDR_MASK ∧
      op ||| (a &&& ADDR_MASK) ≠ ENC28J60_READ_BUF_MEM ∧ op ||| (a &&& ADDR_MASK) ≠ ENC28J60_WRITE_BUF_MEM ∧
      (op ||| (a &&& ADDR_MASK)) >>> 5 ≠ ENC28J60_READ_CTRL_REG >>> 5 := by
    intro op a ho
    revert a
    rcases ho with rfl | rfl | rfl <;> decide +kernel
  obtain ⟨hm, h1, h2, h3⟩ := hcmd op address ho
  unfold exchange
  simp only [h1, h2, h3, if_false, if_true, command_masked hm]

theorem readOp_transfer {op address : Byte} (h : Issued (.readOp op address)) :
    run (bus env net) (transfer (.readOp op address)) (⟨s, n, none, ps⟩, l) =
      (some (line env (.readOp op address) ⟨s, n, none, ps⟩).1, (line env (.readOp op address) ⟨s, n, none, ps⟩).2, l) := by
  have hshort (h0 : address &&& 0x80 = 0) (op : Byte) : transfer (.readOp op address) = (do
      perform Step.csl
      let _ ← perform (Step.spi (op ||| (address &&& ADDR_MASK)))
      let dat ← perform (Step.spi 0xff)
      perform Step.csh
      return id dat) := by
    unfold transfer
    simp only [h0]
    rfl
  rcases h with ⟨rfl, h0⟩ | ⟨rfl, rfl⟩
  · rw [hshort h0, pair_run _ _ _ _ _ id (exchange_read _ 0xff)]
    have hbytes : opBytes (.readOp ENC28J60_READ_CTRL_REG address) =
        [ENC28J60_READ_CTRL_REG ||| (address &&& ADDR_MASK), 0xff] := by
      show [ENC28J60_READ_CTRL_REG ||| (address &&& ADDR_MASK), 0xff] ++ (if address &&& 0x80 ≠ 0 then [0xff] else []) = _
      rw [if_neg (not_not_intro h0), List.append_nil]
    have hcounts : counts (.readOp ENC28J60_READ_CTRL_REG address) = if BankSpecific address then 0 else 1 := by
      show (if ENC28J60_READ_CTRL_REG = ENC28J60_READ_CTRL_REG ∧ ¬ BankSpecific address then 1 else 0) = _
      by_cases hb : BankSpecific address
      · rw [if_neg fun h => h.2 hb, if_pos hb]
      · rw [if_pos ⟨rfl, hb⟩, if_neg hb]
    have hline : (line env (.readOp ENC28J60_READ_CTRL_REG address) ⟨s, n, none, ps⟩).2 =
        ⟨s.tick (env.still n), n + if BankSpecific address then 0 else 1, none,
          ps ++ [⟨1, [ENC28J60_READ_CTRL_REG ||| (address &&& ADDR_MASK), 0xff]⟩]⟩ := by
      rw [← hbytes, ← hcounts, ← readOp_same]
      rfl
    rw [hline]
    rfl
  · rw [hshort (by decide), pair_run _ _ _ _ _ id rfl]
    rfl

theorem writeOp_transfer {op address data : Byte} (h : Issued (.writeOp op address data)) :
    run (bus env net) (transfer (.writeOp op address data)) (⟨s, n, none, ps⟩, l) =
      (some (), (line env (.writeOp op address data) ⟨s, n, none, ps⟩).2, l) := by
  have hunit : transfer (.writeOp op address data) = (do
      perform Step.csl
      let _ ← perform (Step.spi (op ||| (address &&& ADDR_MASK)))
      let dat ← perform (Step.spi data)
      perform Step.csh
      return (fun _ => ()) dat) := rfl
  have hregister (ho : op = ENC28J60_WRITE_CTRL_REG ∨ op = ENC28J60_BIT_FIELD_SET ∨ op = ENC28J60_BIT_FIELD_CLR) :
      run (bus env net) (transfer (.writeOp op address data)) (⟨s, n, none, ps⟩, l) =
        (some (), (line env (.writeOp op address data) ⟨s, n, none, ps⟩).2, l) := by
    rw [hunit, pair_run _ _ _ _ _ (fun _ => ()) (exchange_write ho _ data)]
    rfl
  rcases h with ho | ho | ho | ⟨rfl, rfl⟩
  · exact hregister (Or.inl ho)
  · exact hregister (Or.inr (Or.inl ho))
  · exact hregister (Or.inr (Or.inr ho))
  · rw [hunit, pair_run _ _ _ _ _ (fun _ => ()) rfl]
    rfl

theorem readBytes_run (len : ℕ) (s : Sys) (args : List Byte) :
    run (bus env net) (readBytes len) (⟨s, n, some ⟨1, ENC28J60_READ_BUF_MEM :: args⟩, ps⟩, l) =
      (some (s.readMem len).1,
        ⟨(s.readMem len).2, n, some ⟨1, ENC28J60_READ_BUF_MEM :: (args ++ List.replicate len 0)⟩, ps⟩, l) := by
  induction len generalizing s args with
  | zero =>
    rw [List.replicate_zero, List.append_nil]
    rfl
  | succ len ih =>
    have hrest := ih s.advance (args ++ [0])
    rw [List.append_assoc, List.singleton_append, ← List.replicate_succ] at hrest
    unfold readBytes
    rw [run_act]
    exact (run_bind_of hrest).trans rfl

theorem sendBytes_run (data : List Byte) (s : Sys) (args : List Byte) :
    run (bus env net) (sendBytes data) (⟨s, n, some ⟨1, ENC28J60_WRITE_BUF_MEM :: args⟩, ps⟩, l) =
      (some (), ⟨data.foldl Sys.writeMem s, n, some ⟨1, ENC28J60_WRITE_BUF_MEM :: (args ++ data)⟩, ps⟩, l) := by
  induction data generalizing s args with
  | nil =>
    rw [List.append_nil]
    rfl
  | cons b data ih =>
    have hrest := ih (s.writeMem b) (args ++ [b])
    rw [List.append_assoc, List.singleton_append] at hrest
    unfold sendBytes
    rw [run_act]
    exact hrest

theorem transfer_run {o : Op} (ho : Issued o) {a : Line} (ha : a.sel = none) (l : Lwip) :
    run (bus env net) (transfer o) (a, l) = (some (line env o a).1, (line env o a).2, l) := by
  obtain ⟨s, n, sel, ps⟩ := a
  obtain rfl : sel = none := ha
  cases o with
  | readOp op address => exact readOp_transfer ho
  | writeOp op address data => exact writeOp_transfer ho
  | readBuffer len =>
    have hbytes := @readBytes_run env net n ps l len.toNat (s.tick (env.still n)) []
    show run (bus env net) (do
      let data ← readBytes len.toNat
      perform Step.csh
      return data) (⟨s.tick (env.still n), n, some ⟨1, [ENC28J60_READ_BUF_MEM]⟩, ps⟩, l) = _
    rw [run_bind_of hbytes]
    rfl
  | writeBuffer data =>
    have hbytes := @sendBytes_run env net n ps l data (s.tick (env.still n)) []
    show run (bus env net) (do
      sendBytes data
      perform Step.csh) (⟨s.tick (env.still n), n, some ⟨1, [ENC28J60_WRITE_BUF_MEM]⟩, ps⟩, l) = _
    rw [run_bind_of hbytes]
    rfl
  | csHigh => exact ho.elim
  | loadBank => rfl
  | storeBank bank => rfl
  | loadNext => rfl
  | storeNext next => rfl

def CallIssued : CallOp → Prop
  | .drv o => Issued o
  | _ => True

/-- With chip select high the steps of an operation do what the operation does. -/
theorem steps_refine (env : Env) (net : NetEnv) :
    Refines (call env net) (bus env net) steps CallIssued fun st => st.1.sel = none := by
  intro o ho ⟨a, l⟩ ha
  cases o with
  | drv o => exact ⟨transfer_run ho ha l, ha⟩
  | store stored => exact ⟨rfl, ha⟩
  | arrival q => exact ⟨rfl, ha⟩
  | net o =>
    refine ⟨rfl, ?_⟩
    cases o with
    | enc28j60PacketReceive maxlen => exact ha
    | netif_add input => exact ha
    | pbuf_alloc length => exact ha
    | memcpy q => exact ha
    | ethhdr_type p => exact ha
    | netif_input netif => exact ha
    | ethernet_input p netif => exact ha
    | pbuf_free p => exact ha
    | jump address => exact ha

end MultiEmbedded.Net
