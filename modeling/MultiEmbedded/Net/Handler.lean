import MultiEmbedded.Net.Spi

/-!
# process_mac on the line

What the handler does depends on the receive half of the chip and on lwIP, and it
changes nothing else.
-/

namespace MultiEmbedded.Net
open Prog Enc

variable {env : Env} {net : NetEnv} {a b a' b' : Line} {l : Lwip} {Hang : Prop} {α β : Type}

theorem onLine_run (x : Drv α) (a : Line) (l : Lwip) :
    run (call env net) (onLine x) (a, l) = ((run (line env) x a).1, (run (line env) x a).2, l) := by
  induction x generalizing a with
  | ret v => rfl
  | stuck => rfl
  | act o g ih => exact ih (line env o a).1 (line env o a).2

theorem onLine_after (k : ℕ) (x : Drv α) (a : Line) (l : Lwip) : after (call env net) k (onLine x) (a, l) =
    (onLine (after (line env) k x a).1, (after (line env) k x a).2, l) := by
  induction x generalizing k a with
  | ret v =>
    rw [after_ret]
    exact after_ret k v (a, l)
  | stuck =>
    rw [after_stuck]
    exact after_stuck k (a, l)
  | act o g ih =>
    cases k with
    | zero => rfl
    | succ k => exact ih (line env o a).1 k (line env o a).2

/-! ### The buffer of the caller -/

def Unbuffered : Op → Prop
  | .readBuffer _ => False
  | _ => True

theorem recv_unbuffered {x : Drv α} (hx : Only Unbuffered Hang x) (a : Line) (l : Lwip) :
    run (call env net) (lower recvOp x) (a, l) = ((run (line env) x a).1, (run (line env) x a).2, l) := by
  induction x generalizing a with
  | ret v => rfl
  | stuck => rfl
  | act o g ih =>
    have hrest := ih (line env o a).1 (hx.2 _) (line env o a).2
    cases o with
    | readBuffer len => exact hx.1.elim
    | _ => exact hrest

/- Every result of the program meets `p`. -/
def Ends (p : α → Prop) : Drv α → Prop
  | .ret v => p v
  | .act _ g => ∀ r, Ends p (g r)
  | .stuck => True

theorem Ends.bind {p : β → Prop} {f : α → Drv β} (hf : ∀ v, Ends p (f v)) (x : Drv α) : Ends p (x >>= f) := by
  induction x with
  | ret v => exact hf v
  | stuck => trivial
  | act o g ih => exact fun r => ih r

theorem Ends.run {p : α → Prop} {x : Drv α} (hx : Ends p x) {v : α}
    (hrun : run (line env) x a = (some v, a')) : p v := by
  induction x generalizing a with
  | ret w =>
    cases hrun
    exact hx
  | stuck => exact absurd (congrArg Prod.fst hrun) (Option.some_ne_none v).symm
  | act o g ih => exact ih _ (hx _) hrun

/-- With result `v` the call leaves `f v` in the buffer. -/
def Fills (env : Env) (net : NetEnv) (x : Drv α) (f : α → List Byte) : Prop := ∀ a l v a',
  run (line env) x a = (some v, a') → run (call env net) (lower recvOp x) (a, l) = (some v, a', l.store (f v))

theorem Fills.pure {v : α} {f : α → List Byte} (h : f v = []) : Fills env net (Pure.pure v) f := by
  intro a l w a' hrun
  cases hrun
  rw [h]
  rfl

theorem run_bind_some {x : Drv α} {f : α → Drv β} {w : β} (hrun : run (line env) (x >>= f) a = (some w, a')) :
    ∃ v t, run (line env) x a = (some v, t) ∧ run (line env) (f v) t = (some w, a') := by
  rw [run_bind] at hrun
  cases hx : run (line env) x a with
  | mk r t =>
    rw [hx] at hrun
    cases r with
    | none => exact absurd (congrArg Prod.fst hrun) (Option.some_ne_none w).symm
    | some v => exact ⟨v, t, rfl, hrun⟩

theorem Fills.seq {x : Drv α} {f : α → Drv β} {g : β → List Byte} (hx : Only Unbuffered True x)
    (hf : ∀ v, Fills env net (f v) g) : Fills env net (x >>= f) g := by
  intro a l w a' hrun
  obtain ⟨v, t, hv, hw⟩ := run_bind_some hrun
  have hrecv := @recv_unbuffered env net _ _ x hx a l
  rw [hv] at hrecv
  rw [lower_bind]
  exact (run_bind_of hrecv).trans (hf v t l w a' hw)

theorem Fills.keep {x : Drv α} {f : α → Drv β} {g : α → List Byte} {g' : β → List Byte} (hx : Fills env net x g)
    (hf : ∀ v, Only Unbuffered True (f v)) (he : ∀ v, Ends (fun w => g' w = g v) (f v)) :
    Fills env net (x >>= f) g' := by
  intro a l w a' hrun
  obtain ⟨v, t, hv, hw⟩ := run_bind_some hrun
  have hrecv := @recv_unbuffered env net _ _ (f v) (hf v) t (l.store (g v))
  rw [hw] at hrecv
  rw [lower_bind, (he v).run hw]
  exact (run_bind_of (hx a l v t hv)).trans hrecv

theorem selects_unbuffered {o : Op} (ho : SelectsBank o) : Unbuffered o := by
  cases o with
  | readBuffer len => exact ho.elim
  | _ => trivial

theorem write_unbuffered (address data : Byte) : Only Unbuffered Hang (enc28j60Write address data) :=
  ((setBank_selects address).mono fun _ => selects_unbuffered).bind fun _ => Only.perform trivial

theorem readField_unbuffered : Only Unbuffered Hang readField := by
  unfold readField
  refine (Only.perform trivial).bind fun _ => ?_
  exact (Only.perform trivial).bind fun _ => Only.pure _

theorem readBuffer_fills (len : Word) : Fills env net (Prod.mk len <$> enc28j60ReadBuffer len) Prod.snd := by
  intro a l v a' hrun
  cases hrun
  rfl

theorem packetReceive_fills (maxlen : Word) : Fills env net (enc28j60PacketReceive maxlen) Prod.snd := by
  have hcount : Only Unbuffered True (enc28j60Read EPKTCNT) :=
    ((setBank_selects EPKTCNT).mono fun _ => selects_unbuffered).bind fun _ => Only.perform trivial
  unfold enc28j60PacketReceive
  refine Fills.seq hcount fun count => ?_
  by_cases hz : count = 0
  · rw [if_pos hz]
    exact Fills.pure rfl
  rw [if_neg hz]
  refine Fills.seq (Only.perform trivial) fun _ => Fills.seq (write_unbuffered _ _) fun _ => ?_
  refine Fills.seq (Only.perform trivial) fun _ => Fills.seq (write_unbuffered _ _) fun _ => ?_
  refine Fills.seq (Only.perform trivial) fun _ => Fills.seq (Only.perform trivial) fun _ => ?_
  refine Fills.seq (Only.perform trivial) fun _ => Fills.seq (Only.perform trivial) fun _ => ?_
  refine Fills.seq (Only.perform trivial) fun _ => Fills.seq readField_unbuffered fun len => ?_
  refine Fills.seq readField_unbuffered fun rxstat => ?_
  refine Fills.keep (g := Prod.snd) ?_ (fun result => ?_) fun result => ?_
  · by_cases hr : rxstat &&& 0x80 = 0
    · rw [if_pos hr]
      exact Fills.pure rfl
    · rw [if_neg hr]
      exact readBuffer_fills _
  · refine (Only.perform trivial).bind fun _ => (write_unbuffered _ _).bind fun _ => ?_
    refine (Only.perform trivial).bind fun _ => (write_unbuffered _ _).bind fun _ => ?_
    exact (Only.perform trivial).bind fun _ => Only.pure _
  · have hreturn : Ends (fun w : Word × List Byte => w.2 = result.2) (Pure.pure (result.1, result.2)) := rfl
    refine Ends.bind (fun _ => Ends.bind (fun _ => ?_) _) _
    refine Ends.bind (fun _ => Ends.bind (fun _ => ?_) _) _
    exact Ends.bind (fun _ => hreturn) _

/-! ### The driver's call as one operation of the network program -/

def lineReceive (env : Env) (maxlen : Word) (a : Line) : (Word × List Byte) × Line :=
  let r := run (line env) (enc28j60PacketReceive maxlen) a
  (r.1.getD (0, []), r.2)

theorem packetReceive_returns (env : Env) (maxlen : Word) (a : Line) :
    run (line env) (enc28j60PacketReceive maxlen) a =
      (some (lineReceive env maxlen a).1, (lineReceive env maxlen a).2) := by
  have honly : Only Receives False (enc28j60PacketReceive maxlen) := packetReceive_receives maxlen
  have hwp : wp (line env) (fun _ _ => True) False (fun _ _ => True) (enc28j60PacketReceive maxlen) a :=
    honly.wp (fun _ _ _ _ => ⟨trivial, trivial⟩) trivial
  obtain ⟨x, t, hrun, -⟩ := wp_total hwp
  unfold lineReceive
  rw [hrun]
  rfl

theorem netCall_refine (env : Env) (net : NetEnv) :
    Refines (board (lineReceive env) net) (call env net) netCall Buffered fun _ => True := by
  intro o _ ⟨a, l⟩ _
  refine ⟨?_, trivial⟩
  cases o with
  | enc28j60PacketReceive maxlen =>
    have hfills := @packetReceive_fills env net maxlen a l _ _ (packetReceive_returns env maxlen a)
    exact (run_bind_of hfills).trans rfl
  | netif_add input => rfl
  | pbuf_alloc length => rfl
  | memcpy q => rfl
  | ethhdr_type p => rfl
  | netif_input netif => rfl
  | ethernet_input p netif => rfl
  | pbuf_free p => rfl
  | jump address => rfl

theorem process_run (env : Env) (net : NetEnv) (spin : ℕ) (st : Line × Lwip) :
    run (call env net) (process spin) st = run (board (lineReceive env) net) (processMac spin) st :=
  run_lower (netCall_refine env net) (processMac_buffered spin) trivial

theorem receives_counts {o : Op} (ho : Receives o) : counts o = 0 := by
  cases o with
  | readOp op address =>
    have hcount : counts (.readOp ENC28J60_READ_CTRL_REG EPKTCNT) = 0 := by decide
    have hbuffer : counts (.readOp ENC28J60_READ_BUF_MEM 0) = 0 := by decide
    rcases ho with ⟨rfl, rfl⟩ | ⟨rfl, rfl⟩
    · exact hcount
    · exact hbuffer
  | _ => rfl

theorem lineReceive_chip (env : Env) (maxlen : Word) (a : Line) : ∃ ps, lineReceive env maxlen a =
    ((chipReceive (env.still a.reads) maxlen a.sys).1,
      { a with sys := (chipReceive (env.still a.reads) maxlen a.sys).2, periods := a.periods ++ ps }) := by
  have honly : Only Receives True (enc28j60PacketReceive maxlen) := packetReceive_receives maxlen
  obtain ⟨ps, hps⟩ := @line_run env _ _ _ (honly.mono fun _ => receives_counts) a
  refine ⟨ps, ?_⟩
  unfold lineReceive
  rw [hps]
  rfl

/-! ### Two runs of the handler -/

/- What a run of `process_mac` from `a₀`, and one from `b₀`, has come to. -/
structure Handled (a₀ b₀ : Line) (st st' : Line × Lwip) : Prop where
  abreast : Abreast a₀.sys b₀.sys st.1.sys st'.1.sys
  ready : ∃ m, Ready m st.1.sys
  reads : st.1.reads = a₀.reads ∧ st'.1.reads = b₀.reads
  lwip : st.2 = st'.2

theorem board_handled (env : Env) (net : NetEnv) (a₀ b₀ : Line) (o : NetOp) (ho : Buffered o) (st st' : Line × Lwip)
    (h : Handled a₀ b₀ st st') :
    (board (lineReceive env) net o st).1 = (board (lineReceive env) net o st').1 ∧
      Handled a₀ b₀ (board (lineReceive env) net o st).2 (board (lineReceive env) net o st').2 := by
  obtain ⟨a, l⟩ := st
  obtain ⟨b, l'⟩ := st'
  obtain ⟨habreast, hready, hreads, rfl⟩ := h
  cases o with
  | enc28j60PacketReceive maxlen =>
    obtain ⟨m, hm⟩ := hready
    obtain ⟨ps, ha⟩ := lineReceive_chip env maxlen a
    obtain ⟨ps', hb⟩ := lineReceive_chip env maxlen b
    obtain ⟨x, s', t', hs, ht, hnext, hready'⟩ := chipReceive_twin (still_silent env a.reads)
      (still_silent env b.reads) hm habreast.receive habreast.coherent.2 ho
    have hsa : chipReceive (env.still a.reads) maxlen a.sys = (x, s') := by
      unfold chipReceive
      rw [hs]
      rfl
    have htb : chipReceive (env.still b.reads) maxlen b.sys = (x, t') := by
      unfold chipReceive
      rw [ht]
      rfl
    rw [hsa] at ha
    rw [htb] at hb
    have habreast' : Abreast a₀.sys b₀.sys s' t' :=
      ⟨hnext.receive, habreast.left.trans hnext.left, habreast.right.trans hnext.right, hnext.coherent⟩
    refine ⟨?_, ⟨?_, ?_, ?_, ?_⟩⟩
    · show (lineReceive env maxlen a).1.1 = (lineReceive env maxlen b).1.1
      rw [ha, hb]
    · show Abreast _ _ (lineReceive env maxlen a).2.sys (lineReceive env maxlen b).2.sys
      rw [ha, hb]
      exact habreast'
    · show ∃ m, Ready m (lineReceive env maxlen a).2.sys
      rw [ha]
      exact hready'
    · show (lineReceive env maxlen a).2.reads = _ ∧ (lineReceive env maxlen b).2.reads = _
      rw [ha, hb]
      exact hreads
    · show l.store (lineReceive env maxlen a).1.2 = l.store (lineReceive env maxlen b).1.2
      rw [ha, hb]
  | netif_add input => exact ⟨rfl, habreast, hready, hreads, rfl⟩
  | pbuf_alloc length => exact ⟨rfl, habreast, hready, hreads, rfl⟩
  | memcpy q => exact ⟨rfl, habreast, hready, hreads, rfl⟩
  | ethhdr_type p => exact ⟨rfl, habreast, hready, hreads, rfl⟩
  | netif_input netif => exact ⟨rfl, habreast, hready, hreads, rfl⟩
  | ethernet_input p netif => exact ⟨rfl, habreast, hready, hreads, rfl⟩
  | pbuf_free p => exact ⟨rfl, habreast, hready, hreads, rfl⟩
  | jump address => exact ⟨rfl, habreast, hready, hreads, rfl⟩

/-- The handler does the same from any two states with the same receive half, and leaves the
transmit half alone. -/
theorem process_twin (env : Env) (net : NetEnv) (spin : ℕ) {m : ℕ} (hready : Ready m a.sys)
    (hsame : SameReceive a.sys b.sys) (hcb : b.sys.core.Coherent) (l : Lwip) :
    (run (call env net) (process spin) (a, l)).1 = (run (call env net) (process spin) (b, l)).1 ∧
      Handled a b (run (call env net) (process spin) (a, l)).2 (run (call env net) (process spin) (b, l)).2 := by
  rw [process_run, process_run]
  exact (processMac_buffered spin).simulates (R := Handled a b) (fun o ho st st' h => board_handled env net a b o ho st st' h)
    ⟨⟨hsame, .refl _, .refl _, hready.coherent, hcb⟩, ⟨m, hready⟩, ⟨rfl, rfl⟩, rfl⟩

/-! ### The turns of the loop -/

theorem line_views (env : Env) (net : NetEnv) (all : List Frame) (o : NetOp) (ho : Buffered o) (st : Line × Lwip)
    (qt : List Frame × Lwip) (h : Views all st.1.sys qt.1 ∧ st.2 = qt.2) :
    (board (lineReceive env) net o st).1 = (board queueReceive net o qt).1 ∧
      Views all (board (lineReceive env) net o st).2.1.sys (board queueReceive net o qt).2.1 ∧
        (board (lineReceive env) net o st).2.2 = (board queueReceive net o qt).2.2 := by
  obtain ⟨a, l⟩ := st
  obtain ⟨q, l'⟩ := qt
  obtain ⟨hv, rfl⟩ := h
  cases o with
  | enc28j60PacketReceive maxlen =>
    obtain ⟨ps, ha⟩ := lineReceive_chip env maxlen a
    obtain ⟨hx, hq⟩ := chipReceive_views (still_silent env a.reads) ho hv
    refine ⟨?_, ?_, ?_⟩
    · show (lineReceive env maxlen a).1.1 = _
      rw [ha]
      exact congrArg Prod.fst hx
    · show Views all (lineReceive env maxlen a).2.sys _
      rw [ha]
      exact hq
    · show l.store (lineReceive env maxlen a).1.2 = _
      rw [ha]
      exact congrArg (fun x : Word × List Byte => l.store x.2) hx
  | netif_add input => exact ⟨rfl, hv, rfl⟩
  | pbuf_alloc length => exact ⟨rfl, hv, rfl⟩
  | memcpy q => exact ⟨rfl, hv, rfl⟩
  | ethhdr_type p => exact ⟨rfl, hv, rfl⟩
  | netif_input netif => exact ⟨rfl, hv, rfl⟩
  | ethernet_input p netif => exact ⟨rfl, hv, rfl⟩
  | pbuf_free p => exact ⟨rfl, hv, rfl⟩
  | jump address => exact ⟨rfl, hv, rfl⟩

theorem Views.unread {all q : List Frame} {s : Sys} (h : Views all s q) : s.unread = q.length := by
  obtain ⟨-, m, hready, rfl⟩ := h
  exact hready.queue.count

/- A turn that goes on has taken a frame. -/
theorem turn_shrinks {l' : Lwip} {q q' : List Frame} {w : Word} (h : Turn net l q (some w) q' l') (hw : w ≠ 0) :
    q'.length < q.length ∧ l'.input = l.input := by
  cases h with
  | empty => exact absurd rfl hw
  | dropped hf => exact absurd rfl hw
  | freed hf => exact ⟨Nat.lt_succ_self _, rfl⟩
  | last hf => exact ⟨Nat.zero_lt_one, passOver_input _ _⟩
  | leaked hf hf' => exact ⟨(Nat.lt_succ_self _).trans (Nat.lt_succ_self _), passOver_input _ _⟩
  | both hf hf' => exact ⟨(Nat.lt_succ_self _).trans (Nat.lt_succ_self _), rfl⟩

/- With more turns than frames the number of turns does not matter. -/
theorem process_turns (env : Env) (net : NetEnv) {all q : List Frame} {n n' : ℕ} (hv : Views all a.sys q)
    (hreg : l.input = .ethernetif_input) (hn : q.length < n) (hn' : q.length < n') :
    run (board (lineReceive env) net) (processMac n) (a, l) =
      run (board (lineReceive env) net) (processMac n') (a, l) := by
  induction n generalizing n' a l q with
  | zero => exact absurd hn (Nat.not_lt_zero _)
  | succ n ih =>
    cases n' with
    | zero => exact absurd hn' (Nat.not_lt_zero _)
    | succ n' =>
      obtain ⟨hret, hviews, hlwip⟩ := (receiveInput_buffered .enc28j60_netif).simulates
        (R := fun (st : Line × Lwip) (qt : List Frame × Lwip) => Views all st.1.sys qt.1 ∧ st.2 = qt.2)
        (line_views env net all) (⟨hv, rfl⟩ : Views all (a, l).1.sys (q, l).1 ∧ (a, l).2 = (q, l).2)
      obtain ⟨w, q', l', hrun, hturn⟩ := turn_run net q hreg
      rw [hrun] at hret hviews hlwip
      have hturns : run (board (lineReceive env) net) (receiveInput .enc28j60_netif) (a, l) =
          (w, (run (board (lineReceive env) net) (receiveInput .enc28j60_netif) (a, l)).2.1, l') :=
        Prod.ext hret (Prod.ext rfl hlwip)
      cases w with
      | none => rw [processMac_lost hturns, processMac_lost hturns]
      | some w =>
        rw [processMac_turn hturns, processMac_turn hturns]
        by_cases hw : w = 0
        · rw [if_pos hw, if_pos hw]
        · rw [if_neg hw, if_neg hw]
          obtain ⟨hless, hinput⟩ := turn_shrinks hturn hw
          have hnext : Views all (run (board (lineReceive env) net) (receiveInput .enc28j60_netif) (a, l)).2.1.sys q' := hviews
          exact ih hnext (hinput.trans hreg) (by omega) (by omega)

end MultiEmbedded.Net
