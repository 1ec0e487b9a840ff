import MultiEmbedded.Enc.Receive

/-!
# The network interface (ethernetif.c, lwip_demo.c)

Receiving a frame on its way to lwIP: the driver fills MyRecvbuf, the frame moves into
a pbuf, and the pbuf goes where `netif->input` points.
-/

namespace MultiEmbedded.Net
open Prog Enc

/- What a `struct netif *` can be here: the interface, or a pbuf passed where a netif is
expected. -/
inductive NetifPtr
  | enc28j60_netif
  | pbuf (p : ℕ)
  deriving DecidableEq

/- A function stored in `netif->input`; `code` is whatever lies at an address. -/
inductive InputFn
  | ethernet_input
  | ethernetif_input
  | code (address : Word)
  deriving DecidableEq

/- The allocator (`enc28j60PacketReceive` runs on the chip) and the functions of lwIP. -/
inductive NetOp
  | netif_add (input : InputFn)
  | enc28j60PacketReceive (maxlen : Word)
  | pbuf_alloc (length : Half)
  | memcpy (q : ℕ)
  | ethhdr_type (p : ℕ)
  | netif_input (netif : NetifPtr)
  | ethernet_input (p : ℕ) (netif : NetifPtr)
  | pbuf_free (p : ℕ)
  | jump (address : Word)

@[reducible] def NetOp.Res : NetOp → Type
  | enc28j60PacketReceive _ => Word
  | pbuf_alloc _ => Option ℕ
  | ethhdr_type _ => Half
  | netif_input _ => InputFn
  | ethernet_input _ _ => Byte
  | _ => Unit

abbrev NetProg := Prog NetOp NetOp.Res

def ETHTYPE_ARP : Half := 0x0806
def ETHTYPE_IP : Half := 0x0800
def ERR_OK : Byte := 0

/- A PBUF_RAM buffer is a chain of one pbuf, so the loop over `q` copies once. -/
def packetReceive : NetProg (Option ℕ) := do
  let recvlen ← perform (NetOp.enc28j60PacketReceive 1500)
  if recvlen = 0 then return none
  match ← perform (NetOp.pbuf_alloc (recvlen.setWidth 16)) with
  | none => return none
  | some p => do
    perform (NetOp.memcpy p)
    return some p

def lowLevelInput (_netif : NetifPtr) : NetProg (Option ℕ) := packetReceive

/- `call` makes the call through `netif->input`. -/
def ethernetifInput (call : InputFn → ℕ → NetifPtr → NetProg Byte) (netif : NetifPtr) : NetProg Word := do
  match ← lowLevelInput netif with
  | none => return 0
  | some p => do
    let type ← perform (NetOp.ethhdr_type p)
    if type = ETHTYPE_IP ∨ type = ETHTYPE_ARP then
      let input ← perform (NetOp.netif_input netif)
      if (← call input p netif) ≠ ERR_OK then perform (NetOp.pbuf_free p)
    else perform (NetOp.pbuf_free p)
    return 1

/- A call of `ethernetif_input` through the pointer takes the pbuf for the netif. The calls it
makes itself find the bytes of a frame where the pointer should be, so they never nest. -/
def callInput : ℕ → InputFn → ℕ → NetifPtr → NetProg Byte
  | _, .ethernet_input, p, netif => perform (NetOp.ethernet_input p netif)
  | depth + 1, .ethernetif_input, p, _ => do
    return (← ethernetifInput (callInput depth) (.pbuf p)).setWidth 8
  | 0, .ethernetif_input, _, _ => stuck
  | _, .code address, _, _ => do
    perform (NetOp.jump address)
    stuck

def receiveInput (netif : NetifPtr) : NetProg Word := ethernetifInput (callInput 1) netif

def processMac (spin : ℕ) : NetProg Unit :=
  waitWhile (do return (← receiveInput .enc28j60_netif) != 0) spin

/- The interface as `lwip_init_task` adds it. -/
def lwipInitTask : NetProg Unit := perform (NetOp.netif_add .ethernetif_input)

/-! ### The state of the interface -/

/- `payload` is the memory from `p->payload` on, also behind the `len` bytes of the frame. -/
structure Pbuf where
  len : ℕ
  payload : ℕ → Byte

inductive NetEvent
  | inspected (p : ℕ)
  | input (p : ℕ) (netif : NetifPtr) (result : Byte)
  | freed (p : ℕ)
  | jumped (address : Word)
  deriving DecidableEq

/- `input` is `enc28j60_netif.input`; `pbufs` lists the pbufs obtained so far. -/
structure Lwip where
  input : InputFn
  MyRecvbuf : ℕ → Byte
  pbufs : List Pbuf
  asked : ℕ
  log : List NetEvent

/- The surroundings: which calls of `pbuf_alloc` succeed, what the memory they give holds, and
what `ethernet_input` returns. -/
structure NetEnv where
  grants : ℕ → Bool
  heap : ℕ → ℕ → Byte
  verdict : ℕ → Byte

/- `htons(ethhdr->type)`. -/
def Pbuf.type (b : Pbuf) : Half := b.payload 12 ++ b.payload 13

/- The word at the offset of `netif->input`, which is where the payload of a pbuf begins. -/
def Pbuf.word (b : Pbuf) : Word := b.payload 3 ++ b.payload 2 ++ b.payload 1 ++ b.payload 0

def Pbuf.copy (b : Pbuf) (src : ℕ → Byte) : Pbuf :=
  { b with payload := fun i => if i < b.len then src i else b.payload i }

def Lwip.pbuf (l : Lwip) (p : ℕ) : Pbuf := l.pbufs.getD p ⟨0, fun _ => 0⟩

def Lwip.emit (l : Lwip) (e : NetEvent) : Lwip := { l with log := l.log ++ [e] }

def Lwip.store (l : Lwip) (stored : List Byte) : Lwip :=
  { l with MyRecvbuf := fun i => stored.getD i (l.MyRecvbuf i) }

def Lwip.alloc (env : NetEnv) (l : Lwip) (length : ℕ) : Option ℕ × Lwip :=
  if env.grants l.asked then
    (some l.pbufs.length,
      { l with pbufs := l.pbufs ++ [⟨length, env.heap l.asked⟩], asked := l.asked + 1 })
  else (none, { l with asked := l.asked + 1 })

def Lwip.memcpy (l : Lwip) (q : ℕ) : Lwip :=
  { l with pbufs := l.pbufs.modify q fun b => b.copy l.MyRecvbuf }

def Lwip.inputOf (l : Lwip) : NetifPtr → InputFn
  | .enc28j60_netif => l.input
  | .pbuf p => .code (l.pbuf p).word

/- `receive` is the driver on its device: the return value and what it stores in MyRecvbuf. -/
def board {σ : Type} (receive : Word → σ → (Word × List Byte) × σ) (env : NetEnv) :
    (o : NetOp) → σ × Lwip → o.Res × (σ × Lwip)
  | .netif_add input, (s, l) => ((), s, { l with input := input })
  | .enc28j60PacketReceive maxlen, (s, l) =>
    ((receive maxlen s).1.1, (receive maxlen s).2, l.store (receive maxlen s).1.2)
  | .pbuf_alloc length, (s, l) => ((l.alloc env length.toNat).1, s, (l.alloc env length.toNat).2)
  | .memcpy q, (s, l) => ((), s, l.memcpy q)
  | .ethhdr_type p, (s, l) => ((l.pbuf p).type, s, l.emit (.inspected p))
  | .netif_input netif, (s, l) => (l.inputOf netif, s, l)
  | .ethernet_input p netif, (s, l) =>
    (env.verdict p, s, l.emit (.input p netif (env.verdict p)))
  | .pbuf_free p, (s, l) => ((), s, l.emit (.freed p))
  | .jump address, (s, l) => ((), s, l.emit (.jumped address))

/- The driver on the chip. It has no wait in it, so it always returns. -/
def chipReceive (env : Env) (maxlen : Word) (s : Sys) : (Word × List Byte) × Sys :=
  let r := run (chip env) (enc28j60PacketReceive maxlen) s
  (r.1.getD (0, []), r.2)

/-! ### One frame -/

/- What is left when the driver has returned `x` and no pbuf is filled with it. -/
def Lwip.passOver (l : Lwip) (x : Word × List Byte) : Lwip :=
  if x.1 = 0 then l.store x.2 else { l.store x.2 with asked := l.asked + 1 }

@[simp] theorem passOver_pbufs (l : Lwip) (x : Word × List Byte) :
    (l.passOver x).pbufs = l.pbufs := by
  unfold Lwip.passOver
  split_ifs <;> rfl

@[simp] theorem passOver_log (l : Lwip) (x : Word × List Byte) : (l.passOver x).log = l.log := by
  unfold Lwip.passOver
  split_ifs <;> rfl

@[simp] theorem passOver_input (l : Lwip) (x : Word × List Byte) :
    (l.passOver x).input = l.input := by
  unfold Lwip.passOver
  split_ifs <;> rfl

/- The pbuf filled with it otherwise. -/
def filled (env : NetEnv) (l : Lwip) (x : Word × List Byte) : Pbuf :=
  (⟨(x.1.setWidth 16 : Half).toNat, env.heap l.asked⟩ : Pbuf).copy (l.store x.2).MyRecvbuf

def Lwip.obtain (env : NetEnv) (l : Lwip) (x : Word × List Byte) : Lwip :=
  { l.store x.2 with pbufs := l.pbufs ++ [filled env l x], asked := l.asked + 1 }

theorem modify_last {α : Type} (f : α → α) (as : List α) (a : α) :
    (as ++ [a]).modify as.length f = as ++ [f a] := by
  induction as with
  | nil => rfl
  | cons b as ih =>
    rw [List.cons_append, List.length_cons, List.modify_succ_cons, ih]
    rfl

section Device
variable {σ : Type} {receive : Word → σ → (Word × List Byte) × σ} {env : NetEnv}
  {s s' : σ} {l : Lwip} {x : Word × List Byte}

theorem board_receive (hrec : receive 1500 s = (x, s')) :
    board receive env (.enc28j60PacketReceive 1500) (s, l) = (x.1, s', l.store x.2) := by
  change ((receive 1500 s).1.1, (receive 1500 s).2, l.store (receive 1500 s).1.2) = _
  rw [hrec]

theorem board_refuses (hg : env.grants l.asked = false) (length : Half) :
    board receive env (.pbuf_alloc length) (s, l) = (none, s, { l with asked := l.asked + 1 }) := by
  change ((l.alloc env _).1, s, (l.alloc env _).2) = _
  unfold Lwip.alloc
  rw [hg]
  rfl

theorem board_grants (hg : env.grants l.asked = true) (length : Half) :
    board receive env (.pbuf_alloc length) (s, l) = (some l.pbufs.length, s, { l with
      pbufs := l.pbufs ++ [⟨length.toNat, env.heap l.asked⟩], asked := l.asked + 1 }) := by
  change ((l.alloc env _).1, s, (l.alloc env _).2) = _
  unfold Lwip.alloc
  rw [hg]
  rfl

theorem packetReceive_refused (hrec : receive 1500 s = (x, s'))
    (hx : x.1 = 0 ∨ env.grants l.asked = false) :
    run (board receive env) packetReceive (s, l) = (some none, s', l.passOver x) := by
  unfold packetReceive Lwip.passOver
  rw [run_act, board_receive hrec]
  by_cases h0 : x.1 = 0
  · rw [if_pos h0, if_pos h0]
    rfl
  · have hg : env.grants (l.store x.2).asked = false := hx.resolve_left h0
    rw [if_neg h0, if_neg h0, run_act, board_refuses hg]
    rfl

theorem packetReceive_obtained (hrec : receive 1500 s = (x, s')) (h0 : x.1 ≠ 0)
    (hg : env.grants l.asked = true) : run (board receive env) packetReceive (s, l) =
      (some (some l.pbufs.length), s', l.obtain env x) := by
  have hg' : env.grants (l.store x.2).asked = true := hg
  unfold packetReceive
  rw [run_act, board_receive hrec, if_neg h0, run_act, board_grants hg']
  change (some (some l.pbufs.length), s', Lwip.memcpy _ _) = _
  unfold Lwip.memcpy Lwip.obtain filled
  exact congrArg (fun pbufs => (some (some l.pbufs.length), s', { l.store x.2 with
    pbufs := pbufs, asked := l.asked + 1 })) (modify_last _ _ _)

/- The type field of the pbuf just filled decides. -/
theorem ethernetifInput_refused (call : InputFn → ℕ → NetifPtr → NetProg Byte) (netif : NetifPtr)
    (hrec : receive 1500 s = (x, s')) (hx : x.1 = 0 ∨ env.grants l.asked = false) :
    run (board receive env) (ethernetifInput call netif) (s, l) =
      (some 0, s', l.passOver x) := by
  unfold ethernetifInput lowLevelInput
  rw [run_bind, packetReceive_refused hrec hx]
  rfl

def IpOrArp (type : Half) : Prop := type = ETHTYPE_IP ∨ type = ETHTYPE_ARP

instance (type : Half) : Decidable (IpOrArp type) := inferInstanceAs (Decidable (_ ∨ _))

theorem obtain_pbuf (env : NetEnv) (l : Lwip) (x : Word × List Byte) :
    (l.obtain env x).pbuf l.pbufs.length = filled env l x := by
  unfold Lwip.pbuf Lwip.obtain
  simp

theorem ethernetifInput_other (call : InputFn → ℕ → NetifPtr → NetProg Byte) (netif : NetifPtr)
    (hrec : receive 1500 s = (x, s')) (h0 : x.1 ≠ 0) (hg : env.grants l.asked = true)
    (ht : ¬ IpOrArp (filled env l x).type) :
    run (board receive env) (ethernetifInput call netif) (s, l) =
      (some 1, s', ((l.obtain env x).emit (.inspected l.pbufs.length)).emit
        (.freed l.pbufs.length)) := by
  unfold ethernetifInput lowLevelInput
  rw [run_bind, packetReceive_obtained hrec h0 hg]
  change run _ (if IpOrArp ((l.obtain env x).pbuf l.pbufs.length).type then _ else _) _ = _
  rw [obtain_pbuf, if_neg ht]
  rfl

/- What follows the type field of an IP or ARP frame. -/
def passUp (call : InputFn → ℕ → NetifPtr → NetProg Byte) (netif : NetifPtr) (p : ℕ) :
    NetProg Word := do
  let input ← perform (NetOp.netif_input netif)
  if (← call input p netif) ≠ ERR_OK then perform (NetOp.pbuf_free p)
  return 1

theorem ethernetifInput_up (call : InputFn → ℕ → NetifPtr → NetProg Byte) (netif : NetifPtr)
    (hrec : receive 1500 s = (x, s')) (h0 : x.1 ≠ 0) (hg : env.grants l.asked = true)
    (ht : IpOrArp (filled env l x).type) :
    run (board receive env) (ethernetifInput call netif) (s, l) =
      run (board receive env) (passUp call netif l.pbufs.length)
        (s', (l.obtain env x).emit (.inspected l.pbufs.length)) := by
  unfold ethernetifInput lowLevelInput
  rw [run_bind, packetReceive_obtained hrec h0 hg]
  change run _ (if IpOrArp ((l.obtain env x).pbuf l.pbufs.length).type then _ else _) _ = _
  rw [obtain_pbuf, if_pos ht]
  rfl

end Device

end MultiEmbedded.Net
