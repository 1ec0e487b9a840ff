import MultiEmbedded.Net.Handler

/-!
# The handler between two steps of the main loop

`EXTI1_IRQHandler` runs `process_mac`, and the main loop runs `process_mac` and
`enc28j60PacketSend`, on one bus and without protection. A call that is preempted
between two operations, with no bank selected for the next one, goes on as if the
handler had come behind it.
-/

namespace MultiEmbedded.Net
open Prog Enc

/- The calls of the main loop. -/
inductive Main
  | enc28j60PacketSend (spin : ℕ) (len : Word) (packet : ℕ → Byte)
  | process_mac (spin : ℕ)

def Main.prog : Main → CallProg Unit
  | .enc28j60PacketSend spin len packet => onLine (Enc.enc28j60PacketSend spin len packet)
  | .process_mac spin => process spin

/-! ### Interrupted runs -/

/- One command, with its argument or the bytes of the buffer. -/
def IsCommand : List Byte → Prop
  | [] => False
  | command :: args =>
    if command = ENC28J60_READ_BUF_MEM ∨ command = ENC28J60_WRITE_BUF_MEM then True
    else if command >>> 5 = ENC28J60_READ_CTRL_REG >>> 5 then args.length = 1 ∨ args.length = 2
    else args.length = 1

def Complete (p : Period) : Prop := p.selects = 1 ∧ IsCommand p.bytes

/- Chip select is high, and was low for one command at a time. -/
def Tidy (a : Line) : Prop := a.sel = none ∧ ∀ p ∈ a.periods, Complete p

section Interrupted
variable (env : Env) (net : NetEnv) (main : Main) (turns : ℕ) (q : List Event) (k : ℕ) (st : Line × Lwip)

/- What is left of the call after `k` steps, and the state then. -/
def stopped : BusProg Unit × (Line × Lwip) := after (bus env net) k (lower steps main.prog) st

def arrive : BusProg Unit := perform (Step.other (.arrival q))

/- `EXTI1_IRQHandler`. -/
def handler : BusProg Unit := lower steps (process turns)

/- The frames of `q` come in after `k` steps, and the handler runs then. -/
def interrupted : Option Unit × (Line × Lwip) :=
  run (bus env net) (do
    arrive q
    handler turns
    (stopped env net main k st).1) (stopped env net main k st).2

def handlerFirst : Option Unit × (Line × Lwip) :=
  run (bus env net) (do
    arrive q
    handler turns
    lower steps main.prog) st

def handlerLast : Option Unit × (Line × Lwip) :=
  run (bus env net) (do
    arrive q
    (stopped env net main k st).1
    handler turns) (stopped env net main k st).2

end Interrupted

/- Both calls return, with the same in the chip and in lwIP. Which bank is selected may differ,
but not whether the driver knows it. -/
def AsIf (r r' : Option Unit × (Line × Lwip)) : Prop :=
  r.1 = r'.1 ∧ (r.1 = some () → SameChip r.2.1.sys r'.2.1.sys ∧
    (r.2.1.sys.core.Coherent ↔ r'.2.1.sys.core.Coherent) ∧ r.2.2 = r'.2.2)

structure Contract (env : Env) (net : NetEnv) (main : Main) (turns : ℕ) (q : List Event) (k : ℕ)
    (st : Line × Lwip) : Prop where
  tidy : Tidy (interrupted env net main turns q k st).2.1
  asIf : AsIf (interrupted env net main turns q k st) (handlerFirst env net main turns q st) ∨
    AsIf (interrupted env net main turns q k st) (handlerLast env net main turns q k st)

/-! ### Where the call may be preempted -/

/- The next operation is a command for which a bank has been selected. -/
def NeedsBank : CallProg Unit → Prop
  | .act (.drv o) _ => Relies o
  | _ => False

/- `i` turns of the loop of `process_mac`, each of which makes it go on. -/
inductive Turned (env : Env) (net : NetEnv) : ℕ → Line × Lwip → Line × Lwip → Prop
  | zero (st : Line × Lwip) : Turned env net 0 st st
  | succ {i : ℕ} {st t t' : Line × Lwip} {w : Word} (h : Turned env net i st t)
      (hturn : run (call env net) (lower netCall (receiveInput .enc28j60_netif)) t = (some w, t')) (hw : w ≠ 0) :
      Turned env net (i + 1) st t'

/- `process_mac` is between two turns; `enc28j60PacketSend` is anywhere between two operations
unless the second one needs a bank, if the frame fits. -/
def Main.Calm (env : Env) (net : NetEnv) (st : Line × Lwip) : Main → CallProg Unit × (Line × Lwip) → Prop
  | .enc28j60PacketSend _ len _, (rest, _) => len.toNat ≤ 0x600 ∧ ¬ NeedsBank rest
  | .process_mac spin, (rest, t) => ∃ i, i ≤ spin ∧ rest = process (spin - i) ∧ Turned env net i st t

/- The `k` steps are `j` operations: all, none, or up to a point where the call is calm. -/
def Quiet (env : Env) (net : NetEnv) (main : Main) (k : ℕ) (st : Line × Lwip) : Prop :=
  ∃ j rest t, after (call env net) j main.prog st = (rest, t) ∧ stopped env net main k st = (lower steps rest, t) ∧
    (j = 0 ∨ rest = .ret () ∨ main.Calm env net st (rest, t))

/- A loop of `process_mac` in the model has more turns than there are frames. -/
def Main.Enough (frames : ℕ) : Main → Prop
  | .process_mac spin => frames < spin
  | _ => True

/-! ### Every operation is a command of its own -/

variable {env : Env} {net : NetEnv} {main : Main} {turns k : ℕ} {q : List Event} {st t : Line × Lwip}
  {rest : CallProg Unit} {a b w : Line} {l : Lwip} {Hang : Prop}

theorem selects_issued {o : Op} (ho : SelectsBank o) : Issued o := by
  cases o with
  | writeOp op address data =>
    rcases ho with ⟨rfl, -, -⟩ | ⟨rfl, -, -⟩
    · exact Or.inr (Or.inr (Or.inl rfl))
    · exact Or.inr (Or.inl rfl)
  | readOp op address => exact ho.elim
  | csHigh => exact ho.elim
  | _ => trivial

theorem receives_issued {o : Op} (ho : Receives o) : Issued o := by
  cases o with
  | readOp op address =>
    rcases ho with ⟨rfl, rfl⟩ | ⟨rfl, rfl⟩
    · exact Or.inl ⟨rfl, by decide⟩
    · exact Or.inr ⟨rfl, rfl⟩
  | writeOp op address data =>
    rcases ho with ho | rfl | ⟨rfl, -⟩
    · exact selects_issued ho
    · exact Or.inl rfl
    · exact Or.inr (Or.inl rfl)
  | csHigh => exact ho.elim
  | _ => trivial

theorem process_issued (turns : ℕ) : Only CallIssued True (process turns) := by
  refine (processMac_buffered turns).lower fun o _ => ?_
  cases o with
  | enc28j60PacketReceive maxlen =>
    refine Only.bind ((packetReceive_receives maxlen).lower fun o ho => ?_) fun _ => Only.pure _
    have hissued := receives_issued ho
    cases o with
    | readBuffer len => exact ⟨trivial, fun _ => ⟨trivial, fun _ => trivial⟩⟩
    | _ => exact ⟨hissued, fun _ => trivial⟩
  | _ => exact ⟨trivial, fun _ => trivial⟩

theorem setBank_issued (address : Byte) : Only Issued Hang (enc28j60SetBank address) :=
  (setBank_selects address).mono fun _ => selects_issued

theorem write_issued (address data : Byte) : Only Issued Hang (Enc.enc28j60Write address data) :=
  (setBank_issued address).bind fun _ => Only.perform (Or.inl rfl)

theorem read_issued {address : Byte} (h : address &&& 0x80 = 0) : Only Issued Hang (enc28j60Read address) :=
  (setBank_issued address).bind fun _ => Only.perform (Or.inl ⟨rfl, h⟩)

theorem packetSend_issued (spin : ℕ) (len : Word) (packet : ℕ → Byte) :
    Only Issued True (Enc.enc28j60PacketSend spin len packet) := by
  unfold Enc.enc28j60PacketSend
  refine (Only.waitWhile ((read_issued (by decide)).bind fun _ => Only.pure _) spin).bind fun _ => ?_
  iterate 4 refine (write_issued _ _).bind fun _ => ?_
  refine Only.bind (Only.perform (Or.inr (Or.inr (Or.inr ⟨rfl, rfl⟩)))) fun _ => ?_
  refine Only.bind (Only.perform trivial) fun _ => Only.bind (Only.perform (Or.inr (Or.inl rfl))) fun _ => ?_
  refine (read_issued (by decide)).bind fun eir => ?_
  by_cases hfail : eir &&& EIR_TXERIF ≠ 0
  · rw [if_pos hfail]
    exact (setBank_issued ECON1).bind fun _ => Only.perform (Or.inr (Or.inr (Or.inl rfl)))
  · rw [if_neg hfail]
    exact Only.pure ()

theorem main_issued (main : Main) : Only CallIssued True main.prog := by
  cases main with
  | enc28j60PacketSend spin len packet =>
    have hdrv : ∀ o, Issued o → Only CallIssued True (perform (CallOp.drv o) : CallProg o.Res) := fun o ho => Only.perform ho
    exact (packetSend_issued spin len packet).lower hdrv
  | process_mac spin => exact process_issued spin

theorem isCommand_pair (command b : Byte) : IsCommand [command, b] := by
  show if command = ENC28J60_READ_BUF_MEM ∨ command = ENC28J60_WRITE_BUF_MEM then True
    else if command >>> 5 = ENC28J60_READ_CTRL_REG >>> 5 then [b].length = 1 ∨ [b].length = 2 else [b].length = 1
  by_cases hbuffer : command = ENC28J60_READ_BUF_MEM ∨ command = ENC28J60_WRITE_BUF_MEM
  · rw [if_pos hbuffer]
    trivial
  rw [if_neg hbuffer]
  by_cases hread : command >>> 5 = ENC28J60_READ_CTRL_REG >>> 5
  · rw [if_pos hread]
    exact Or.inl rfl
  · rw [if_neg hread]
    rfl

theorem issued_complete {o : Op} (ho : Issued o) : ∀ p ∈ opPeriods o, Complete p := by
  have hcommand : OnBus o → IsCommand (opBytes o) := by
    intro hbus
    cases o with
    | readOp op address =>
      have h0 : address &&& 0x80 = 0 := by
        rcases ho with ⟨-, h0⟩ | ⟨-, rfl⟩
        · exact h0
        · decide
      have hbytes : opBytes (.readOp op address) = [op ||| (address &&& ADDR_MASK), 0xff] := by
        show [op ||| (address &&& ADDR_MASK), 0xff] ++ (if address &&& 0x80 ≠ 0 then [0xff] else []) = _
        rw [if_neg (not_not_intro h0), List.append_nil]
      rw [hbytes]
      exact isCommand_pair _ _
    | writeOp op address data => exact isCommand_pair _ _
    | readBuffer len => exact trivial
    | writeBuffer data => exact trivial
    | _ => exact hbus.elim
  intro p hp
  unfold opPeriods at hp
  split_ifs at hp with hbus
  · obtain rfl := List.mem_singleton.mp hp
    exact ⟨rfl, hcommand hbus⟩
  · exact absurd hp List.not_mem_nil

theorem call_tidy (o : CallOp) (ho : CallIssued o) (st : Line × Lwip) (h : Tidy st.1) : Tidy (call env net o st).2.1 := by
  obtain ⟨a, l⟩ := st
  obtain ⟨hsel, hps⟩ := h
  cases o with
  | drv o =>
    refine ⟨hsel, fun p hp => ?_⟩
    rcases List.mem_append.mp hp with hp | hp
    · exact hps p hp
    · exact issued_complete ho p hp
  | store stored => exact ⟨hsel, hps⟩
  | arrival q => exact ⟨hsel, hps⟩
  | net o => cases o <;> exact ⟨hsel, hps⟩

/-! ### The runs on the operations -/

theorem steps_run {x : CallProg Unit} (hx : Only CallIssued True x) (ht : t.1.sel = none) :
    run (bus env net) (lower steps x) t = run (call env net) x t := run_lower (steps_refine env net) hx ht

theorem interrupted_run (hstop : stopped env net main k st = (lower steps rest, t)) (ht : t.1.sel = none)
    (hrest : Only CallIssued True rest) : interrupted env net main turns q k st = run (call env net) (do
      perform (CallOp.arrival q)
      process turns
      rest) t := by
  have honly : Only CallIssued True (perform (CallOp.arrival q) >>= fun _ => process turns >>= fun _ => rest) :=
    Only.bind (Only.perform trivial) fun _ => (process_issued turns).bind fun _ => hrest
  have hsteps := @steps_run env net _ _ honly ht
  rw [lower_bind, lower_perform] at hsteps
  simp only [lower_bind] at hsteps
  unfold interrupted
  rw [hstop]
  exact hsteps

theorem handlerLast_run (hstop : stopped env net main k st = (lower steps rest, t)) (ht : t.1.sel = none)
    (hrest : Only CallIssued True rest) : handlerLast env net main turns q k st = run (call env net) (do
      perform (CallOp.arrival q)
      rest
      process turns) t := by
  have honly : Only CallIssued True (perform (CallOp.arrival q) >>= fun _ => rest >>= fun _ => process turns) :=
    Only.bind (Only.perform trivial) fun _ => hrest.bind fun _ => process_issued turns
  have hsteps := @steps_run env net _ _ honly ht
  rw [lower_bind, lower_perform] at hsteps
  simp only [lower_bind] at hsteps
  unfold handlerLast
  rw [hstop]
  exact hsteps

/- What is left of a call is a program of the same kind, found with chip select high. -/
theorem stopped_rest (hat : after (call env net) k main.prog st = (rest, t)) (hst : Tidy st.1) :
    Tidy t.1 ∧ Only CallIssued True rest := by
  have h := after_invariant (h := call env net) (I := fun st : Line × Lwip => Tidy st.1) (P := CallIssued)
    (fun o ho st hs => call_tidy o ho st hs) (main_issued main) k hst
  rw [hat] at h
  exact h

theorem AsIf.of_eq {r r' : Option Unit × (Line × Lwip)} (h : r = r') : AsIf r r' := by
  subst h
  exact ⟨rfl, fun _ => ⟨.refl _, Iff.rfl, rfl⟩⟩

theorem run_then_ret {σ : Type} {Op : Type} {Res : Op → Type} {h : (o : Op) → σ → Res o × σ} (x : Prog Op Res Unit)
    (s : σ) : run h (x >>= fun _ => .ret ()) s = run h x s := by
  rw [run_bind]
  cases run h x s with
  | mk r t =>
    cases r with
    | none => rfl
    | some v => rfl

/-! ### Between two turns of process_mac -/

theorem queue_shrinks (net : NetEnv) (turns : ℕ) (fs : List Frame) (l : Lwip) :
    (run (board queueReceive net) (processMac turns) (fs, l)).2.1.length ≤ fs.length := by
  refine run_invariant (I := fun qt : List Frame × Lwip => qt.1.length ≤ fs.length) (fun o _ qt h => ?_)
    (processMac_buffered turns) (Nat.le_refl _)
  obtain ⟨gs, l⟩ := qt
  cases o with
  | enc28j60PacketReceive maxlen =>
    show (queueReceive maxlen gs).2.length ≤ _
    cases gs with
    | nil => exact h
    | cons f gs => exact (Nat.le_succ _).trans h
  | netif_add input => exact h
  | pbuf_alloc length => exact h
  | memcpy q => exact h
  | ethhdr_type p => exact h
  | netif_input netif => exact h
  | ethernet_input p netif => exact h
  | pbuf_free p => exact h
  | jump address => exact h

theorem run_lost {σ : Type} {Op : Type} {Res : Op → Type} {h : (o : Op) → σ → Res o × σ} {x y : Prog Op Res Unit}
    {s : σ} (hx : (run h x s).1 ≠ some ()) : run h (x >>= fun _ => y) s = (none, (run h x s).2) := by
  rw [run_bind]
  cases hr : run h x s with
  | mk r t =>
    cases r with
    | none => rfl
    | some v => exact absurd (congrArg Prod.fst hr) hx

/- Two loops, one behind the other, in either order. -/
theorem process_swap {m n : ℕ} (hready : Ready m a.sys) (hreg : l.input = .ethernetif_input) (hn : a.sys.unread < n)
    (hturns : a.sys.unread < turns) :
    run (call env net) (process turns >>= fun _ => process n) (a, l) =
      run (call env net) (process n >>= fun _ => process turns) (a, l) := by
  have hv : Views a.sys.received a.sys (a.sys.received.drop m) := ⟨rfl, m, hready, rfl⟩
  have hlen := hv.unread
  have hfirst : run (call env net) (process n) (a, l) = run (call env net) (process turns) (a, l) := by
    rw [process_run, process_run]
    exact process_turns env net hv hreg (by omega) (by omega)
  -- a loop that does not return does not let the other one begin
  by_cases hdone : (run (call env net) (process turns) (a, l)).1 = some ()
  swap
  · rw [run_lost hdone, run_lost (hfirst.symm ▸ hdone), hfirst]
  have hrun := run_returns hdone
  rw [run_bind_of hrun, run_bind_of (hfirst.trans hrun)]
  -- behind the first loop there are no more frames than before
  obtain ⟨hret, hviews, hlwip⟩ := (processMac_buffered turns).simulates
    (R := fun (st : Line × Lwip) (qt : List Frame × Lwip) => Views a.sys.received st.1.sys qt.1 ∧ st.2 = qt.2)
    (line_views env net a.sys.received)
    (⟨hv, rfl⟩ : Views a.sys.received (a, l).1.sys (a.sys.received.drop m, l).1 ∧
      (a, l).2 = (a.sys.received.drop m, l).2)
  rw [← process_run] at hret hviews hlwip
  obtain ⟨new, hlater⟩ := (processMac_run net turns (a.sys.received.drop m) l hreg (by omega)).1 (hret.symm.trans hdone)
  have hfew := queue_shrinks net turns (a.sys.received.drop m) l
  have hless : (run (board queueReceive net) (processMac turns) (a.sys.received.drop m, l)).2.1.length < n ∧
      (run (board queueReceive net) (processMac turns) (a.sys.received.drop m, l)).2.1.length < turns :=
    ⟨by omega, by omega⟩
  have hinput : (run (call env net) (process turns) (a, l)).2.2.input = .ethernetif_input := by
    rw [hlwip, hlater.input, hreg]
  have hsecond := process_turns env net hviews hinput hless.1 hless.2
  rw [← process_run, ← process_run] at hsecond
  exact hsecond

theorem arrivals_unread (q : List Event) (s : Sys) : (q.foldl Sys.arrive s).unread ≤ s.unread + q.length := by
  induction q generalizing s with
  | nil => exact Nat.le_refl _
  | cons e q ih =>
    have hone : (s.arrive e).unread ≤ s.unread + 1 := by
      unfold Sys.arrive
      split_ifs
      · exact Nat.le_succ _
      · cases e with
        | frame f =>
          show Sys.unread (if _ then _ else _) ≤ _
          split_ifs
          · exact Nat.le_refl _
          · exact Nat.le_succ _
        | partly bytes => exact Nat.le_succ _
    have hrest := ih (s.arrive e)
    rw [List.length_cons]
    show (q.foldl Sys.arrive (s.arrive e)).unread ≤ _
    omega

theorem Turned.ready {m i : ℕ} {st : Line × Lwip} (h : Turned env net i st t) (hready : Ready m st.1.sys)
    (hreg : st.2.input = .ethernetif_input) :
    ∃ m', Ready m' t.1.sys ∧ t.1.sys.unread + i ≤ st.1.sys.unread ∧ t.2.input = .ethernetif_input := by
  induction h with
  | zero => exact ⟨m, hready, Nat.le_refl _, hreg⟩
  | @succ i st t t' w h hturn hw ih =>
    obtain ⟨m', hready', hless, hinput⟩ := ih hready hreg
    obtain ⟨b, l⟩ := t
    have hv : Views b.sys.received b.sys (b.sys.received.drop m') := ⟨rfl, m', hready', rfl⟩
    obtain ⟨hret, hviews, hlwip⟩ := (receiveInput_buffered .enc28j60_netif).simulates
      (R := fun (st : Line × Lwip) (qt : List Frame × Lwip) => Views b.sys.received st.1.sys qt.1 ∧ st.2 = qt.2)
      (line_views env net b.sys.received)
      (⟨hv, rfl⟩ : Views b.sys.received (b, l).1.sys (b.sys.received.drop m', l).1 ∧
        (b, l).2 = (b.sys.received.drop m', l).2)
    have hboard : run (call env net) (lower netCall (receiveInput .enc28j60_netif)) (b, l) =
        run (board (lineReceive env) net) (receiveInput .enc28j60_netif) (b, l) :=
      run_lower (netCall_refine env net) (receiveInput_buffered _) trivial
    rw [← hboard, hturn] at hret hviews hlwip
    obtain ⟨w', q', l', hrun, hturn'⟩ := turn_run net (b.sys.received.drop m') hinput
    rw [hrun] at hret hviews hlwip
    cases hret
    obtain ⟨hshrink, hinput'⟩ := turn_shrinks hturn' hw
    obtain ⟨-, m'', hready'', -⟩ := id hviews
    refine ⟨m'', hready'', ?_, ?_⟩
    · have hunread : t'.1.sys.unread = q'.length := hviews.unread
      have hunread' := hv.unread
      show t'.1.sys.unread + (i + 1) ≤ _
      have hless' : b.sys.unread + i ≤ st.1.sys.unread := hless
      omega
    · have hl : t'.2 = l' := hlwip
      rw [hl, hinput']
      exact hinput

/-! ### Between two operations of enc28j60PacketSend -/

/- What is left of the call, with the handler in front of it or behind it. -/
theorem send_swap {m : ℕ} {x : Drv Unit} (hready : Ready m w.sys)
    (hx : ∀ b, Beside w b → Tandem env x (fun _ _ _ => True) w b) :
    AsIf (run (call env net) (process turns >>= fun _ => onLine x) (withArrivals q w, l))
      (run (call env net) (onLine x >>= fun _ => process turns) (withArrivals q w, l)) := by
  have hready' : Ready m (withArrivals q w).sys := hready.arrivals q
  have hcoherent : (withArrivals q w).sys.core.Coherent := hready'.coherent
  -- the handler, and what it leaves
  obtain ⟨-, hself⟩ := process_twin env net turns hready' (.refl _) hcoherent l
  have hbefore : Beside w (withArrivals q w) :=
    ⟨arrivals_transmit q w.sys, rfl, hready.coherent, hcoherent⟩
  -- the rest of the call from both states
  obtain ⟨r, w₁, u, hw, hu, hwu, -, hrecu, -⟩ := hx _ hbefore
  have hlastRest : run (call env net) (onLine x) (withArrivals q w, l) = (r, u, l) := by rw [onLine_run, hu]
  by_cases hdone : (run (call env net) (process turns) (withArrivals q w, l)).1 = some ()
  swap
  · -- a handler that does not return does not return behind the call either
    rw [run_lost hdone, run_bind, hlastRest]
    cases r with
    | none => exact ⟨rfl, fun h => (nomatch h)⟩
    | some value =>
      obtain ⟨hret, -⟩ := process_twin env net turns hready' hrecu hwu.coherent.2 l
      have hnone : (run (call env net) (process turns) (u, l)).1 = none := by
        rw [← hret]
        exact Option.eq_none_iff_forall_not_mem.mpr fun v hv => hdone hv
      exact ⟨hnone.symm, fun h => (nomatch h)⟩
  have hrun := run_returns hdone
  generalize (run (call env net) (process turns) (withArrivals q w, l)).2 = t at hrun hself
  obtain ⟨b, l₁⟩ := t
  have hbehind : Beside w b :=
    ⟨hbefore.transmit.trans hself.abreast.left, hself.reads.1.symm, hready.coherent, hself.abreast.coherent.1⟩
  obtain ⟨r', w₂, v, hw', hv, hwv, -, hrecv, -⟩ := hx _ hbehind
  rw [hw] at hw'
  cases hw'
  have hfirstRest : run (call env net) (onLine x) (b, l₁) = (r, v, l₁) := by rw [onLine_run, hv]
  rw [run_bind_of hrun, hfirstRest, run_bind, hlastRest]
  cases r with
  | none => exact ⟨rfl, fun h => (nomatch h)⟩
  | some value =>
    obtain ⟨hret, htwin⟩ := process_twin env net turns hready' hrecu hwu.coherent.2 l
    rw [hrun] at hret htwin
    refine ⟨hret, fun _ => ⟨⟨?_, ?_⟩, ?_, htwin.lwip⟩⟩
    · exact hrecv.symm.trans htwin.abreast.receive
    · exact (hwv.transmit.symm.trans hwu.transmit).trans htwin.abreast.right
    · exact iff_of_true hwv.coherent.2 htwin.abreast.coherent.2

theorem onLine_calm {x : Drv Unit} (h : ¬ NeedsBank (onLine x)) : Calm x := by
  cases x with
  | ret v => trivial
  | stuck => trivial
  | act o g => exact h

theorem onLine_open {x : Drv Unit} (h : onLine x ≠ .ret ()) (v : Unit) : x ≠ .ret v := by
  intro hx
  rw [hx] at h
  exact h rfl

/-! ### Any calm point -/

theorem calm_asIf {m : ℕ} (hready : Ready m a.sys) (hreg : l.input = .ethernetif_input)
    (hturns : a.sys.unread + q.length < turns) (hspin : main.Enough (a.sys.unread + q.length))
    (hat : after (call env net) k main.prog (a, l) = (rest, t)) (hcalm : main.Calm env net (a, l) (rest, t))
    (hopen : rest ≠ .ret ()) :
    AsIf (run (call env net) (process turns >>= fun _ => rest) (withArrivals q t.1, t.2))
      (run (call env net) (rest >>= fun _ => process turns) (withArrivals q t.1, t.2)) := by
  cases main with
  | enc28j60PacketSend spin len packet =>
    obtain ⟨hfit, hbank⟩ := hcalm
    have hline := @onLine_after env net _ k (Enc.enc28j60PacketSend spin len packet) a l
    cases hline.symm.trans hat
    obtain ⟨hrec, hstop⟩ := (packetSend_movable env spin packet hfit).stops a trivial hready.coherent k
    obtain ⟨hcoherent, htandem⟩ := hstop (onLine_open hopen) (onLine_calm hbank)
    exact send_swap (hready.same hrec hcoherent) htandem
  | process_mac spin =>
    obtain ⟨i, hi, rfl, hturned⟩ := hcalm
    obtain ⟨m', hready', hless, hinput⟩ := hturned.ready hready hreg
    have hfew := arrivals_unread q t.1.sys
    have hspin' : a.sys.unread + q.length < spin := hspin
    have hless' : t.1.sys.unread + i ≤ a.sys.unread := hless
    have hfound : (withArrivals q t.1).sys.unread < spin - i ∧ (withArrivals q t.1).sys.unread < turns := by
      show (q.foldl Sys.arrive t.1.sys).unread < _ ∧ (q.foldl Sys.arrive t.1.sys).unread < _
      omega
    exact AsIf.of_eq (process_swap (hready'.arrivals q) hinput hfound.1 hfound.2)

/-- At a quiet point the handler may run: no command is spoiled, and the call does what it would
have done with the handler before it or behind it. A handler that loses its way in lwIP does not
return in either order. -/
theorem quiet_contract {m : ℕ} (hready : Ready m a.sys) (htidy : Tidy a) (hreg : l.input = .ethernetif_input)
    (hturns : a.sys.unread + q.length < turns) (hspin : main.Enough (a.sys.unread + q.length))
    (hquiet : Quiet env net main k (a, l)) :
    Contract env net main turns q k (a, l) := by
  obtain ⟨j, rest, t, hat, hstop, hcase⟩ := hquiet
  obtain ⟨htidy', honly⟩ := stopped_rest hat htidy
  have hint := @interrupted_run env net main turns k q _ _ _ hstop htidy'.1 honly
  have hlast := @handlerLast_run env net main turns k q _ _ _ hstop htidy'.1 honly
  have hbehind (hret : rest = .ret ()) : AsIf (interrupted env net main turns q k (a, l)) (handlerLast env net main turns q k (a, l)) := by
    subst hret
    rw [hint, hlast]
    exact AsIf.of_eq (run_then_ret (process turns) (withArrivals q t.1, t.2))
  refine ⟨?_, ?_⟩
  · rw [hint]
    have hall : Only CallIssued True (perform (CallOp.arrival q) >>= fun _ => process turns >>= fun _ => rest) :=
      Only.bind (Only.perform trivial) fun _ => (process_issued turns).bind fun _ => honly
    exact run_invariant (I := fun st : Line × Lwip => Tidy st.1) (fun o ho st hs => call_tidy o ho st hs) hall htidy'
  · rcases hcase with rfl | hret | hcalm
    · left
      refine AsIf.of_eq ?_
      cases hat
      unfold interrupted handlerFirst
      rw [hstop]
    · exact Or.inr (hbehind hret)
    · right
      by_cases hret : rest = .ret ()
      · exact hbehind hret
      · rw [hint, hlast]
        exact calm_asIf hready hreg hturns hspin hat hcalm hret

@[irreducible] def begun : Sys := (run (chip silentEnv) (enc28j60Init 1 fun _ => 0) poweredUp).2

/- Behind `enc28j60Init`, with the interface registered. -/
def begunLine : Line := ⟨begun, 0, none, []⟩

def begunLwip : Lwip := { freshLwip with input := .ethernetif_input }

theorem begun_ready : Ready 0 begunLine.sys := by
  have hret : (run (chip silentEnv) (enc28j60Init 1 fun _ => 0) poweredUp).1 = some () := by decide +kernel
  obtain ⟨hready, -⟩ :=
    ((wp_iff _ _ _).mp (init_does silentEnv 1 (fun _ => 0) poweredUp)).2.1 () _ (run_returns hret)
  show Ready 0 begun
  unfold begun
  exact hready

theorem begun_unread : begunLine.sys.unread = 0 := by decide +kernel

def oneByte : Main := .enc28j60PacketSend 1 1 fun _ => 0

/- Behind the first load of the cached bank. -/
theorem oneByte_quiet (env : Env) (net : NetEnv) (st : Line × Lwip) : Quiet env net oneByte 1 st := by
  refine ⟨1, _, _, rfl, rfl, Or.inr (Or.inr ⟨by decide, ?_⟩)⟩
  generalize (call env net (CallOp.drv Op.loadBank) st).1 = bank
  show ¬ NeedsBank (lower _ (Prog.bind (Prog.bind (Prog.bind (Prog.bind
    (if ECON1 &&& BANK_MASK ≠ bank then reselect ECON1 else Pure.pure ()) _) _) _) _))
  by_cases hb : ECON1 &&& BANK_MASK ≠ bank
  · rw [if_pos hb]
    show ¬ Relies (.writeOp ENC28J60_BIT_FIELD_CLR ECON1 (ECON1_BSEL1 ||| ECON1_BSEL0))
    intro h
    exact absurd h.2 (by decide)
  · rw [if_neg hb]
    show ¬ Relies (.readOp ENC28J60_READ_CTRL_REG ECON1)
    intro h
    exact absurd h.2 (by decide)

/- Two frames come in there, one of them an IP frame. -/
theorem quiet_contract_loaded :
    Contract silentEnv fullHeap oneByte 3 [.frame otherFrame, .frame ipFrame] 1 (begunLine, begunLwip) := by
  have hunread : begunLine.sys.unread + [Event.frame otherFrame, .frame ipFrame].length < 3 := by
    rw [begun_unread]
    decide
  exact quiet_contract begun_ready ⟨rfl, fun p hp => absurd hp List.not_mem_nil⟩ rfl hunread trivial
    (oneByte_quiet silentEnv fullHeap (begunLine, begunLwip))

/-! ### With chip select low -/

/- A period into which the handler has broken, open or over. -/
def Spoiled (st : Line × Lwip) : Prop :=
  (∃ p, st.1.sel = some p ∧ 2 ≤ p.selects) ∨ ∃ p ∈ st.1.periods, 2 ≤ p.selects

theorem Spoiled.untidy (h : Spoiled st) : ¬ Tidy st.1 := by
  intro ⟨hsel, hps⟩
  rcases h with ⟨p, hp, -⟩ | ⟨p, hp, htwo⟩
  · rw [hsel] at hp
    exact absurd hp (Option.some_ne_none p).symm
  · have hone := (hps p hp).1
    omega

theorem exchange_line (env : Env) (a : Line) (sent : List Byte) (b : Byte) :
    (exchange env a sent b).2.sel = a.sel ∧ (exchange env a sent b).2.periods = a.periods := by
  unfold exchange
  cases sent with
  | nil => exact ⟨rfl, rfl⟩
  | cons command args =>
    show Line.sel (Prod.snd (ite _ _ _)) = _ ∧ Line.periods (Prod.snd (ite _ _ _)) = _
    split_ifs <;> exact ⟨rfl, rfl⟩

theorem call_line (env : Env) (net : NetEnv) (o : CallOp) (st : Line × Lwip) :
    (call env net o st).2.1.sel = st.1.sel ∧ ∃ ps, (call env net o st).2.1.periods = st.1.periods ++ ps := by
  obtain ⟨a, l⟩ := st
  cases o with
  | drv o => exact ⟨rfl, opPeriods o, rfl⟩
  | store stored => exact ⟨rfl, [], (List.append_nil _).symm⟩
  | arrival q => exact ⟨rfl, [], (List.append_nil _).symm⟩
  | net o => cases o <;> exact ⟨rfl, [], (List.append_nil _).symm⟩

theorem Spoiled.keep (h : Spoiled st) (hsel : ∀ p, st.1.sel = some p → ∃ p', t.1.sel = some p' ∧ p.selects ≤ p'.selects)
    (hps : ∃ ps, t.1.periods = st.1.periods ++ ps) : Spoiled t := by
  obtain ⟨ps, hps⟩ := hps
  rcases h with ⟨p, hp, htwo⟩ | ⟨p, hp, htwo⟩
  · obtain ⟨p', hp', hle⟩ := hsel p hp
    exact Or.inl ⟨p', hp', htwo.trans hle⟩
  · refine Or.inr ⟨p, ?_, htwo⟩
    rw [hps]
    exact List.mem_append_left ps hp

theorem bus_spoiled (o : Step) (st : Line × Lwip) (h : Spoiled st) : Spoiled (bus env net o st).2 := by
  obtain ⟨⟨s, n, sel, ps⟩, l⟩ := st
  have hsame : ps = ps ++ [] := (List.append_nil ps).symm
  cases o with
  | other o =>
    obtain ⟨hsel, hps⟩ := call_line env net o (⟨s, n, sel, ps⟩, l)
    exact h.keep (fun p hp => ⟨p, hsel.trans hp, Nat.le_refl _⟩) hps
  | csl =>
    cases sel with
    | none => exact h.keep (fun p hp => (nomatch hp)) ⟨[], hsame⟩
    | some p =>
      refine h.keep (fun p' hp => ⟨_, rfl, ?_⟩) ⟨[], hsame⟩
      cases hp
      exact Nat.le_succ _
  | csh =>
    cases sel with
    | none => exact h
    | some p =>
      right
      rcases h with ⟨p', hp, htwo⟩ | ⟨p', hp, htwo⟩
      · cases hp
        exact ⟨p, List.mem_append_right ps (List.mem_singleton_self p), htwo⟩
      · exact ⟨p', List.mem_append_left _ hp, htwo⟩
  | spi b =>
    cases sel with
    | none => exact h
    | some p =>
      have hline := exchange_line env ⟨s, n, some p, ps⟩ p.bytes b
      refine h.keep (fun p' hp => ⟨_, rfl, ?_⟩) ⟨[], hline.2.trans hsame⟩
      cases hp
      exact Nat.le_refl _

/- Chip select is low. -/
def Low (st : Line × Lwip) : Prop := ∃ p, st.1.sel = some p ∧ 1 ≤ p.selects

/- A period begins with an edge. -/
theorem bus_selected (o : Step) (st : Line × Lwip) (h : ∀ p, st.1.sel = some p → 1 ≤ p.selects) :
    ∀ p, (bus env net o st).2.1.sel = some p → 1 ≤ p.selects := by
  obtain ⟨⟨s, n, sel, ps⟩, l⟩ := st
  intro p hp
  cases o with
  | other o => exact h p ((call_line env net o (⟨s, n, sel, ps⟩, l)).1.symm.trans hp)
  | csl =>
    cases sel with
    | none =>
      cases hp
      exact Nat.le_refl _
    | some p' =>
      cases hp
      exact Nat.le_add_left 1 _
  | csh =>
    cases sel with
    | none => exact (nomatch hp)
    | some p' => exact (nomatch hp)
  | spi b =>
    cases sel with
    | none => exact (nomatch hp)
    | some p' =>
      cases hp
      exact h p' rfl

/- Pulling chip select low once more spoils the period. -/
theorem low_spoiled {x : BusProg Unit} (hx : First (fun o => ∃ c, o = .other c) (· = .csl) x) (h : Low st) :
    Spoiled (run (bus env net) x st).2 := by
  induction x generalizing st with
  | ret v => exact hx.elim
  | stuck => exact hx.elim
  | act o g ih =>
    obtain ⟨⟨s, n, sel, ps⟩, l⟩ := st
    obtain ⟨p, hp, hone⟩ := h
    obtain rfl : sel = some p := hp
    rcases hx with rfl | ⟨⟨c, rfl⟩, hrest⟩
    · have hspoiled : Spoiled (bus env net .csl (⟨s, n, some p, ps⟩, l)).2 :=
        Or.inl ⟨{ p with selects := p.selects + 1 }, rfl, Nat.succ_le_succ hone⟩
      exact run_invariant (P := fun _ => True) (fun o _ st hs => bus_spoiled o st hs) (only_true (g ())) hspoiled
    · exact ih _ (hrest _) ⟨p, (call_line env net c (⟨s, n, some p, ps⟩, l)).1, hone⟩

/- The handler begins with EPKTCNT. -/
theorem packetReceive_first (maxlen : Word) : First (· = Op.loadBank) OnBus (enc28j60PacketReceive maxlen) := by
  have hread : First (· = Op.loadBank) OnBus (enc28j60Read EPKTCNT) := by
    refine Or.inr ⟨rfl, fun bank => ?_⟩
    show First _ _ (Prog.bind (if EPKTCNT &&& BANK_MASK ≠ bank then reselect EPKTCNT else Pure.pure ()) _)
    by_cases hb : EPKTCNT &&& BANK_MASK ≠ bank
    · rw [if_pos hb]
      exact Or.inl trivial
    · rw [if_neg hb]
      exact Or.inl trivial
  exact hread.bind _

theorem processMac_first (n : ℕ) :
    First (fun _ => False) (· = NetOp.enc28j60PacketReceive 1500) (processMac (n + 1)) := by
  have hreceive : First (fun _ => False) (· = NetOp.enc28j60PacketReceive 1500) packetReceive := Or.inl rfl
  have hinput : First (fun _ => False) (· = NetOp.enc28j60PacketReceive 1500) (receiveInput .enc28j60_netif) :=
    hreceive.bind _
  exact (hinput.bind _).bind _

theorem handler_first (n : ℕ) : First (fun o => ∃ c, o = .other c) (· = .csl) (handler (n + 1)) := by
  have hcall : First (· = CallOp.drv .loadBank) (fun c => ∃ o, c = .drv o ∧ OnBus o) (process (n + 1)) := by
    refine (processMac_first n).lower (fun o ho => ?_) fun o ho => ho.elim
    subst ho
    refine First.bind ((packetReceive_first 1500).lower (fun o ho => ?_) fun o ho => ?_) _
    · cases o with
      | readOp op address => exact Or.inl ⟨_, rfl, ho⟩
      | writeOp op address data => exact Or.inl ⟨_, rfl, ho⟩
      | readBuffer len => exact Or.inl ⟨_, rfl, ho⟩
      | writeBuffer data => exact Or.inl ⟨_, rfl, ho⟩
      | _ => exact ho.elim
    · subst ho
      exact ⟨.drv .loadBank, id, rfl, rfl⟩
  refine hcall.lower (fun c hc => ?_) fun c hc => ?_
  · obtain ⟨o, rfl, ho⟩ := hc
    cases o with
    | readOp op address => exact Or.inl rfl
    | writeOp op address data => exact Or.inl rfl
    | readBuffer len => exact Or.inl rfl
    | writeBuffer data => exact Or.inl rfl
    | _ => exact ho.elim
  · subst hc
    exact ⟨.other (.drv .loadBank), id, rfl, ⟨_, rfl⟩⟩

/-- With chip select low the handler always spoils a command: it pulls the line low once more. -/
theorem selected_breaks (hturns : 0 < turns) (hst : st.1.sel = none)
    (hsel : (stopped env net main k st).2.1.sel ≠ none) :
    Spoiled (interrupted env net main turns q k st).2 ∧ ¬ Contract env net main turns q k st := by
  have hlow := (after_invariant (h := bus env net) (P := fun _ => True)
    (I := fun st : Line × Lwip => ∀ p, st.1.sel = some p → 1 ≤ p.selects)
    (fun o _ st hs => bus_selected o st hs) (only_true (lower steps main.prog)) k (s := st)
    fun p hp => absurd (hst.symm.trans hp) (Option.some_ne_none p).symm).1
  obtain ⟨p, hp⟩ := Option.ne_none_iff_exists'.mp hsel
  obtain ⟨n, rfl⟩ := Nat.exists_eq_succ_of_ne_zero (Nat.pos_iff_ne_zero.mp hturns)
  have hfirst : First (fun o => ∃ c, o = .other c) (· = .csl) (do
      arrive q
      handler (n + 1)
      (stopped env net main k st).1) := Or.inr ⟨⟨_, rfl⟩, fun _ => (handler_first n).bind _⟩
  have hspoiled : Spoiled (interrupted env net main (n + 1) q k st).2 := low_spoiled hfirst ⟨p, hp, hlow p hp⟩
  exact ⟨hspoiled, fun h => hspoiled.untidy h.tidy⟩

theorem selected_breaks_poll :
    Spoiled (interrupted silentEnv fullHeap oneByte 1 [.frame ipFrame] 2 (begunLine, begunLwip)).2 ∧
      ¬ Contract silentEnv fullHeap oneByte 1 [.frame ipFrame] 2 (begunLine, begunLwip) :=
  selected_breaks Nat.zero_lt_one rfl fun h => absurd (congrArg Option.isSome h) (by decide +kernel)

end MultiEmbedded.Net
