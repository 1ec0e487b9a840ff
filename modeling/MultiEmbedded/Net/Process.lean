import MultiEmbedded.Net.Dispatch

/-!
# Draining the queue

`process_mac` calls `ethernetif_input` until it returns 0, which stands for an empty
queue as well as for a frame that was dropped. One turn of the loop is a step on the
queue of unread frames, and a run of it empties the queue only in certain orders.
-/

namespace MultiEmbedded.Net
open Prog Enc

/-! ### The chip as a queue -/

def queueReceive (maxlen : Word) : List Frame → (Word × List Byte) × List Frame
  | [] => ((0, []), [])
  | f :: q => (answer maxlen f, q)

/- The unread frames of `s` are `q`, out of the frames `all`. -/
def Views (all : List Frame) (s : Sys) (q : List Frame) : Prop :=
  s.received = all ∧ ∃ m, Ready m s ∧ s.received.drop m = q

theorem chipReceive_views {env : Env} (henv : ∀ n, env.events n = []) {all q : List Frame} {s : Sys}
    {maxlen : Word} (hmax : 1 ≤ maxlen.toNat) (h : Views all s q) :
    (chipReceive env maxlen s).1 = (queueReceive maxlen q).1 ∧
      Views all (chipReceive env maxlen s).2 (queueReceive maxlen q).2 := by
  obtain ⟨hall, m, hready, rfl⟩ := h
  have hkeep : wp (chip env) (fun _ _ => True) False (fun _ t => t.received = all)
      (enc28j60PacketReceive maxlen) s :=
    (packetReceive_receives maxlen).wp (I := fun t : Sys => t.received = all)
      (fun o ho t ht => ⟨trivial, (silent_step henv o (receives_keeps ho) t).trans ht⟩) hall
  obtain ⟨x, t, hrun, ⟨before, after, m', hbefore, hafter, hcall, hr⟩, ht⟩ :=
    wp_total (wp_and (packetReceive_does hready hmax) hkeep)
  have hchip : chipReceive env maxlen s = (x, t) := by
    unfold chipReceive
    rw [hrun]
    rfl
  have hnone : before = [] := by
    rw [hbefore, ht, ← hall, List.append_assoc] at hafter
    exact (List.append_eq_nil_iff.mp (List.self_eq_append_right.mp hafter)).1
  rw [hchip]
  cases hcall with
  | empty hunread =>
    have hlen := hready.unread
    have hnil : s.received.drop m = [] := List.drop_eq_nil_of_le (by omega)
    rw [hnil]
    refine ⟨rfl, ht, m, hr, ?_⟩
    rw [ht, ← hall]
    exact hnil
  | take hf =>
    rw [hnone, List.append_nil] at hf
    obtain ⟨hm, rfl⟩ := List.getElem?_eq_some_iff.mp hf
    rw [List.drop_eq_getElem_cons hm]
    refine ⟨rfl, ht, m + 1, hr, ?_⟩
    rw [ht, ← hall]
    rfl

/- The program passes the driver a buffer of 1500 bytes. -/
def Buffered : NetOp → Prop
  | .enc28j60PacketReceive maxlen => 1 ≤ maxlen.toNat
  | _ => True

theorem board_views {env : Env} (henv : ∀ n, env.events n = []) (net : NetEnv) (all : List Frame)
    (o : NetOp) (ho : Buffered o) (st : Sys × Lwip) (qt : List Frame × Lwip)
    (h : Views all st.1 qt.1 ∧ st.2 = qt.2) :
    (board (chipReceive env) net o st).1 = (board queueReceive net o qt).1 ∧
      Views all (board (chipReceive env) net o st).2.1 (board queueReceive net o qt).2.1 ∧
        (board (chipReceive env) net o st).2.2 = (board queueReceive net o qt).2.2 := by
  obtain ⟨s, l⟩ := st
  obtain ⟨q, l'⟩ := qt
  obtain ⟨hv, rfl⟩ := h
  cases o with
  | enc28j60PacketReceive maxlen =>
    obtain ⟨hx, hq⟩ := chipReceive_views henv ho hv
    exact ⟨congrArg Prod.fst hx, hq, congrArg (fun x : Word × List Byte => l.store x.2) hx⟩
  | netif_add input => exact ⟨rfl, hv, rfl⟩
  | pbuf_alloc length => exact ⟨rfl, hv, rfl⟩
  | memcpy q => exact ⟨rfl, hv, rfl⟩
  | ethhdr_type p => exact ⟨rfl, hv, rfl⟩
  | netif_input netif => exact ⟨rfl, hv, rfl⟩
  | ethernet_input p netif => exact ⟨rfl, hv, rfl⟩
  | pbuf_free p => exact ⟨rfl, hv, rfl⟩
  | jump address => exact ⟨rfl, hv, rfl⟩

theorem packetReceive_buffered : Only Buffered True packetReceive := by
  unfold packetReceive
  refine Only.bind ⟨by unfold Buffered; decide, fun _ => trivial⟩ fun recvlen => ?_
  by_cases h0 : recvlen = 0
  · rw [if_pos h0]
    exact Only.pure _
  rw [if_neg h0]
  refine Only.bind (Only.perform trivial) fun p => ?_
  cases p with
  | none => exact Only.pure _
  | some p => exact (Only.perform trivial).bind fun _ => Only.pure _

theorem ethernetifInput_buffered {call : InputFn → ℕ → NetifPtr → NetProg Byte}
    (hcall : ∀ input p netif, Only Buffered True (call input p netif)) (netif : NetifPtr) :
    Only Buffered True (ethernetifInput call netif) := by
  unfold ethernetifInput lowLevelInput
  refine packetReceive_buffered.bind fun p => ?_
  cases p with
  | none => exact Only.pure _
  | some p =>
    refine Only.bind (Only.perform trivial) fun type => ?_
    by_cases ht : type = ETHTYPE_IP ∨ type = ETHTYPE_ARP
    · rw [if_pos ht]
      refine Only.bind (Only.perform trivial) fun input => ?_
      refine (hcall input p netif).bind fun result => ?_
      by_cases hr : result ≠ ERR_OK
      · rw [if_pos hr]
        exact (Only.perform trivial).bind fun _ => Only.pure _
      · rw [if_neg hr]
        exact Only.pure _
    · rw [if_neg ht]
      exact Only.bind (Only.perform trivial) fun _ => Only.pure _

theorem callInput_buffered (depth : ℕ) (input : InputFn) (p : ℕ) (netif : NetifPtr) :
    Only Buffered True (callInput depth input p netif) := by
  induction depth generalizing input p netif with
  | zero =>
    cases input with
    | ethernet_input => exact Only.perform trivial
    | ethernetif_input => trivial
    | code address => exact Only.bind (Only.perform trivial) fun _ => trivial
  | succ depth ih =>
    cases input with
    | ethernet_input => exact Only.perform trivial
    | ethernetif_input => exact (ethernetifInput_buffered ih _).bind fun _ => Only.pure _
    | code address => exact Only.bind (Only.perform trivial) fun _ => trivial

theorem receiveInput_buffered (netif : NetifPtr) : Only Buffered True (receiveInput netif) :=
  ethernetifInput_buffered (callInput_buffered 1) netif

theorem processMac_buffered (spin : ℕ) : Only Buffered True (processMac spin) :=
  Only.waitWhile ((receiveInput_buffered _).bind fun _ => Only.pure _) spin

/- On a silent line a run on the chip is the run on the queue. -/
theorem processMac_views {env : Env} (henv : ∀ n, env.events n = []) (net : NetEnv) (spin : ℕ)
    {all q : List Frame} {s : Sys} (h : Views all s q) (l : Lwip) :
    (run (board (chipReceive env) net) (processMac spin) (s, l)).1 =
        (run (board queueReceive net) (processMac spin) (q, l)).1 ∧
      Views all (run (board (chipReceive env) net) (processMac spin) (s, l)).2.1
          (run (board queueReceive net) (processMac spin) (q, l)).2.1 ∧
        (run (board (chipReceive env) net) (processMac spin) (s, l)).2.2 =
          (run (board queueReceive net) (processMac spin) (q, l)).2.2 := by
  exact (processMac_buffered spin).simulates
    (R := fun (st : Sys × Lwip) (qt : List Frame × Lwip) => Views all st.1 qt.1 ∧ st.2 = qt.2)
    (board_views henv net all) ⟨h, rfl⟩

/-! ### One turn of the loop -/

/- What `ethernetif_input` does with a frame when `pbuf_alloc` has been called `k` times:
nothing is obtained for it, it goes through `netif->input`, or it is freed at once. -/
inductive Fate
  | dropped
  | passed
  | freed
  deriving DecidableEq

def byteAt (net : NetEnv) (k : ℕ) (f : Frame) (i : ℕ) : Byte :=
  if i < frameLength f then f.data.getD i 0 else net.heap k i

def fate (net : NetEnv) (k : ℕ) (f : Frame) : Fate :=
  if frameLength f = 0 ∨ net.grants k = false then .dropped
  else if IpOrArp (byteAt net k f 12 ++ byteAt net k f 13) then .passed
  else .freed

/- The calls of `pbuf_alloc` after the frame. -/
def asks (k : ℕ) (f : Frame) : ℕ := if frameLength f = 0 then k else k + 1

variable {net : NetEnv} {l : Lwip} {f f' : Frame} {q : List Frame}

theorem filled_byteAt (i : ℕ) :
    (filled net l (answer 1500 f)).payload i = byteAt net l.asked f i := by
  unfold byteAt
  by_cases hi : i < frameLength f
  · rw [if_pos hi, filled_byte net l hi]
  · rw [if_neg hi]
    change (if i < (filled net l (answer 1500 f)).len then _ else net.heap l.asked i) = _
    rw [filled_len net l f, if_neg hi]

theorem fate_dropped : fate net l.asked f = .dropped ↔
    (answer 1500 f).1 = 0 ∨ net.grants l.asked = false := by
  unfold fate
  rw [answer_zero]
  split_ifs with h1 h2
  · exact ⟨fun _ => h1, fun _ => rfl⟩
  · exact ⟨fun h => (nomatch h), fun h => absurd h h1⟩
  · exact ⟨fun h => (nomatch h), fun h => absurd h h1⟩

theorem fate_obtained (h : fate net l.asked f ≠ .dropped) :
    (answer 1500 f).1 ≠ 0 ∧ net.grants l.asked = true := by
  have hno := fate_dropped.not.mp h
  exact ⟨fun h0 => hno (Or.inl h0), by simpa using fun hg => hno (Or.inr hg)⟩

theorem fate_passed (h : fate net l.asked f = .passed) :
    IpOrArp (filled net l (answer 1500 f)).type := by
  unfold Pbuf.type
  rw [filled_byteAt, filled_byteAt]
  unfold fate at h
  split_ifs at h with h1 h2
  exact h2

theorem fate_freed (h : fate net l.asked f = .freed) :
    ¬ IpOrArp (filled net l (answer 1500 f)).type := by
  unfold Pbuf.type
  rw [filled_byteAt, filled_byteAt]
  unfold fate at h
  split_ifs at h with h1 h2
  exact h2

def Lwip.take (net : NetEnv) (l : Lwip) (f : Frame) : Lwip :=
  (l.obtain net (answer 1500 f)).emit (.inspected l.pbufs.length)

theorem asked_take (h : fate net l.asked f ≠ .dropped) : (l.take net f).asked = asks l.asked f := by
  have h0 : frameLength f ≠ 0 := fun h0 => (fate_obtained h).1 ((answer_zero f).mpr h0)
  unfold asks
  rw [if_neg h0]
  rfl

/- All that one call on the interface can do. Through `netif->input` the next frame is read into
a pbuf of its own; the first pbuf is freed only if that call returns 1. -/
inductive Turn (net : NetEnv) (l : Lwip) : List Frame → Option Word → List Frame → Lwip → Prop
  | empty : Turn net l [] (some 0) [] (l.passOver (0, []))
  | dropped {f : Frame} {q : List Frame} (hf : fate net l.asked f = .dropped) :
      Turn net l (f :: q) (some 0) q (l.passOver (answer 1500 f))
  | freed {f : Frame} {q : List Frame} (hf : fate net l.asked f = .freed) :
      Turn net l (f :: q) (some 1) q ((l.take net f).emit (.freed l.pbufs.length))
  | last {f : Frame} (hf : fate net l.asked f = .passed) :
      Turn net l [f] (some 1) [] ((l.take net f).passOver (0, []))
  | leaked {f f' : Frame} {q : List Frame} (hf : fate net l.asked f = .passed)
      (hf' : fate net (l.take net f).asked f' = .dropped) :
      Turn net l (f :: f' :: q) (some 1) q ((l.take net f).passOver (answer 1500 f'))
  | both {f f' : Frame} {q : List Frame} (hf : fate net l.asked f = .passed)
      (hf' : fate net (l.take net f).asked f' = .freed) :
      Turn net l (f :: f' :: q) (some 1) q ((((l.take net f).take net f').emit
        (.freed (l.take net f).pbufs.length)).emit (.freed l.pbufs.length))
  | lost {f f' : Frame} {q : List Frame} {l' : Lwip} (hf : fate net l.asked f = .passed)
      (hf' : fate net (l.take net f).asked f' = .passed) : Turn net l (f :: f' :: q) none q l'

section Device
variable {σ : Type} {receive : Word → σ → (Word × List Byte) × σ} {s s' : σ} {l' : Lwip} {p : ℕ}

/- The call through `netif->input`, made for the pbuf `p`: what it returns is taken for an error
code. -/
theorem passUp_run (hreg : l.input = .ethernetif_input) :
    run (board receive net) (passUp (callInput 1) .enc28j60_netif p) (s, l) =
      run (board receive net) (do
        if (← ethernetifInput (callInput 0) (.pbuf p)).setWidth 8 ≠ ERR_OK then
          perform (NetOp.pbuf_free p)
        return 1) (s, l) := by
  unfold passUp
  rw [run_act]
  change run _ (callInput 1 l.input p .enc28j60_netif >>= _) (s, l) = _
  rw [hreg]
  unfold callInput
  rw [run_bind, run_bind, run_bind]
  cases run (board receive net) (ethernetifInput (callInput 0) (.pbuf p)) (s, l) with
  | mk w st =>
    cases w with
    | none => rfl
    | some w => rfl

theorem passUp_ok (hreg : l.input = .ethernetif_input)
    (hrun : run (board receive net) (ethernetifInput (callInput 0) (.pbuf p)) (s, l) =
      (some 0, s', l')) :
    run (board receive net) (passUp (callInput 1) .enc28j60_netif p) (s, l) =
      (some 1, s', l') := by
  rw [passUp_run hreg, run_bind_of hrun]
  rfl

theorem passUp_error (hreg : l.input = .ethernetif_input)
    (hrun : run (board receive net) (ethernetifInput (callInput 0) (.pbuf p)) (s, l) =
      (some 1, s', l')) :
    run (board receive net) (passUp (callInput 1) .enc28j60_netif p) (s, l) =
      (some 1, s', l'.emit (.freed p)) := by
  rw [passUp_run hreg, run_bind_of hrun]
  rfl

theorem passUp_lost (hreg : l.input = .ethernetif_input)
    (hrun : run (board receive net) (ethernetifInput (callInput 0) (.pbuf p)) (s, l) =
      (none, s', l')) :
    run (board receive net) (passUp (callInput 1) .enc28j60_netif p) (s, l) =
      (none, s', l') := by
  rw [passUp_run hreg, run_bind, hrun]

/- Made by the nested call, it runs into the bytes of the frame. -/
theorem passUp_jumps {p' : ℕ} :
    run (board receive net) (passUp (callInput 0) (.pbuf p) p') (s, l) =
      (none, s, l.emit (.jumped (l.pbuf p).word)) := rfl

end Device

theorem turn_run (net : NetEnv) (q : List Frame) (hreg : l.input = .ethernetif_input) : ∃ w q' l',
    run (board queueReceive net) (receiveInput .enc28j60_netif) (q, l) = (w, q', l') ∧
      Turn net l q w q' l' := by
  unfold receiveInput
  cases q with
  | nil => exact ⟨_, _, _, ethernetifInput_refused _ _ rfl (Or.inl rfl), .empty⟩
  | cons f q =>
    have hrec : queueReceive 1500 (f :: q) = (answer 1500 f, q) := rfl
    cases hf : fate net l.asked f with
    | dropped => exact ⟨_, _, _, ethernetifInput_refused _ _ hrec (fate_dropped.mp hf), .dropped hf⟩
    | freed =>
      obtain ⟨h0, hg⟩ := fate_obtained (hf.trans_ne Fate.noConfusion)
      exact ⟨_, _, _, ethernetifInput_other _ _ hrec h0 hg (fate_freed hf), .freed hf⟩
    | passed =>
      obtain ⟨h0, hg⟩ := fate_obtained (hf.trans_ne Fate.noConfusion)
      rw [ethernetifInput_up _ _ hrec h0 hg (fate_passed hf)]
      have hreg' : (l.take net f).input = .ethernetif_input := hreg
      cases q with
      | nil => exact ⟨_, _, _, passUp_ok hreg' (ethernetifInput_refused _ _ rfl (Or.inl rfl)),
          .last hf⟩
      | cons f' q =>
        have hrec' : queueReceive 1500 (f' :: q) = (answer 1500 f', q) := rfl
        cases hf' : fate net (l.take net f).asked f' with
        | dropped => exact ⟨_, _, _, passUp_ok hreg' (ethernetifInput_refused _ _ hrec'
            (fate_dropped.mp hf')), .leaked hf hf'⟩
        | freed =>
          obtain ⟨h0', hg'⟩ := fate_obtained (hf'.trans_ne Fate.noConfusion)
          exact ⟨_, _, _, passUp_error hreg' (ethernetifInput_other _ _ hrec' h0' hg'
            (fate_freed hf')), .both hf hf'⟩
        | passed =>
          obtain ⟨h0', hg'⟩ := fate_obtained (hf'.trans_ne Fate.noConfusion)
          exact ⟨_, _, _, passUp_lost hreg' ((ethernetifInput_up _ _ hrec' h0' hg'
            (fate_passed hf')).trans passUp_jumps), .lost hf hf'⟩

/-! ### What a run settles -/

/- How often `p` was passed to `ethernet_input` or freed. -/
def settlings (p : ℕ) (log : List NetEvent) : ℕ := (inputs p log).length + frees p log

/- Every pbuf obtained between two states is passed up or freed between them, once. -/
def AllSettled (l l' : Lwip) : Prop :=
  ∀ p, l.pbufs.length ≤ p → p < l'.pbufs.length → settlings p (l'.log.drop l.log.length) = 1

theorem settlings_append (p : ℕ) (log log' : List NetEvent) :
    settlings p (log ++ log') = settlings p log + settlings p log' := by
  unfold settlings frees
  rw [inputs_append, List.length_append, List.count_append]
  omega

theorem settlings_inspected (p q : ℕ) : settlings p [.inspected q] = 0 := rfl

theorem settlings_freed (p q : ℕ) : settlings p [.freed q] = if q = p then 1 else 0 := by
  unfold settlings frees inputs inputs
  rw [List.count_singleton]
  simp

/- `l'` is a later state: its log goes on with events about the pbufs obtained since. -/
structure Later (l l' : Lwip) (new : List NetEvent) : Prop where
  input : l'.input = l.input
  pbufs : l.pbufs.length ≤ l'.pbufs.length
  log : l'.log = l.log ++ new
  within : ∀ p, p < l.pbufs.length ∨ l'.pbufs.length ≤ p → settlings p new = 0

variable {l₁ l₂ : Lwip} {new new' : List NetEvent}

theorem Later.trans (h : Later l l₁ new) (h' : Later l₁ l₂ new') : Later l l₂ (new ++ new') := by
  have h1 := h.pbufs
  have h2 := h'.pbufs
  refine ⟨h'.input.trans h.input, h1.trans h2, ?_, fun p hp => ?_⟩
  · rw [h'.log, h.log, List.append_assoc]
  · rw [settlings_append, h.within p (by omega), h'.within p (by omega)]

theorem Later.settled (h : Later l l₁ new) : AllSettled l l₁ ↔
    ∀ p, l.pbufs.length ≤ p → p < l₁.pbufs.length → settlings p new = 1 := by
  unfold AllSettled
  rw [h.log, List.drop_left]

theorem Later.split (h : Later l l₁ new) (h' : Later l₁ l₂ new') :
    AllSettled l l₂ ↔ AllSettled l l₁ ∧ AllSettled l₁ l₂ := by
  have h1 := h.pbufs
  have h2 := h'.pbufs
  rw [h.settled, h'.settled, (h.trans h').settled]
  constructor
  · intro hall
    refine ⟨fun p hp hlt => ?_, fun p hp hlt => ?_⟩
    · have hone := hall p hp (by omega)
      rwa [settlings_append, h'.within p (by omega), Nat.add_zero] at hone
    · have hone := hall p (by omega) hlt
      rwa [settlings_append, h.within p (by omega), Nat.zero_add] at hone
  · intro ⟨hall, hall'⟩ p hp hlt
    rw [settlings_append]
    by_cases hlast : p < l₁.pbufs.length
    · rw [hall p hp hlast, h'.within p (by omega)]
    · rw [hall' p (by omega) hlt, h.within p (by omega)]

/- The queues that are emptied with every pbuf settled: a frame that is dropped comes last, and a
frame that goes through `netif->input` is followed by one that is freed. -/
def Drains (net : NetEnv) : ℕ → List Frame → Prop
  | _, [] => True
  | k, [f] => fate net k f ≠ .passed
  | k, f :: f' :: q => match fate net k f with
    | .dropped => False
    | .freed => Drains net (asks k f) (f' :: q)
    | .passed => fate net (asks k f) f' = .freed ∧ Drains net (asks (asks k f) f') q

theorem drains_freed {k : ℕ} (hf : fate net k f = .freed) :
    Drains net k (f :: q) ↔ Drains net (asks k f) q := by
  cases q with
  | nil =>
    unfold Drains
    rw [hf]
    exact iff_of_true Fate.noConfusion trivial
  | cons f' q =>
    conv_lhs => unfold Drains
    rw [hf]

theorem drains_passed {k : ℕ} (hf : fate net k f = .passed) :
    Drains net k (f :: f' :: q) ↔
      fate net (asks k f) f' = .freed ∧ Drains net (asks (asks k f) f') q := by
  conv_lhs => unfold Drains
  rw [hf]

theorem drains_dropped {k : ℕ} (hf : fate net k f = .dropped) :
    Drains net k (f :: q) ↔ q = [] := by
  cases q with
  | nil =>
    unfold Drains
    rw [hf]
    exact iff_of_true Fate.noConfusion rfl
  | cons f' q =>
    unfold Drains
    rw [hf]
    exact iff_of_false id (List.cons_ne_nil _ _)

/-! ### Turns and runs -/

theorem later_passOver (x : Word × List Byte) : Later l (l.passOver x) [] := by
  refine ⟨passOver_input l x, ?_, ?_, fun _ _ => rfl⟩
  · rw [passOver_pbufs]
  · rw [passOver_log, List.append_nil]

theorem take_length (net : NetEnv) (l : Lwip) (f : Frame) : (l.take net f).pbufs.length = l.pbufs.length + 1 := by
  change (l.pbufs ++ [_]).length = _
  rw [List.length_append]
  rfl

theorem later_take (net : NetEnv) (l : Lwip) (f : Frame) : Later l (l.take net f) [.inspected l.pbufs.length] := by
  refine ⟨rfl, ?_, rfl, fun p _ => settlings_inspected p _⟩
  rw [take_length]
  exact Nat.le_succ _

/- Freeing a pbuf obtained since `l`. -/
theorem Later.freed (h : Later l l₁ new) {p : ℕ} (hp : l.pbufs.length ≤ p) (hlt : p < l₁.pbufs.length) :
    Later l (l₁.emit (.freed p)) (new ++ [.freed p]) := by
  refine ⟨h.input, h.pbufs, ?_, fun q hq => ?_⟩
  · change l₁.log ++ [_] = _
    rw [h.log, List.append_assoc]
  · have hq' : q < l.pbufs.length ∨ l₁.pbufs.length ≤ q := hq
    rw [settlings_append, h.within q hq', settlings_freed, if_neg (by omega)]

section Loop
variable {σ : Type} {receive : Word → σ → (Word × List Byte) × σ} {s s' : σ} {l' : Lwip} {spin : ℕ}

theorem processMac_turn {w : Word}
    (h : run (board receive net) (receiveInput .enc28j60_netif) (s, l) = (some w, s', l')) :
    run (board receive net) (processMac (spin + 1)) (s, l) =
      if w = 0 then (some (), s', l') else run (board receive net) (processMac spin) (s', l') := by
  unfold processMac
  conv_lhs => unfold waitWhile
  rw [run_bind, run_bind_of h]
  change run _ (if (w != 0) = true then _ else _) (s', l') = _
  by_cases hw : w = 0
  · rw [if_pos hw, hw]
    rfl
  · rw [if_neg hw, if_pos (by simpa using hw)]

theorem processMac_lost
    (h : run (board receive net) (receiveInput .enc28j60_netif) (s, l) = (none, s', l')) :
    run (board receive net) (processMac (spin + 1)) (s, l) = (none, s', l') := by
  unfold processMac
  conv_lhs => unfold waitWhile
  rw [run_bind, run_bind, h]

end Loop

/- The queue is empty at the end and every pbuf is settled. -/
def Drained (l : Lwip) (r : Option Unit × (List Frame × Lwip)) : Prop :=
  r.1 = some () ∧ r.2.1 = [] ∧ AllSettled l r.2.2

theorem Drained.after {r : Option Unit × (List Frame × Lwip)} (h : Later l l₁ new)
    (hr : r.1 = some () → ∃ new', Later l₁ r.2.2 new') :
    Drained l r ↔ AllSettled l l₁ ∧ Drained l₁ r := by
  unfold Drained
  constructor
  · intro ⟨hret, hnil, hall⟩
    obtain ⟨new', h'⟩ := hr hret
    obtain ⟨h1, h2⟩ := (h.split h').mp hall
    exact ⟨h1, hret, hnil, h2⟩
  · intro ⟨h1, hret, hnil, h2⟩
    obtain ⟨new', h'⟩ := hr hret
    exact ⟨hret, hnil, (h.split h').mpr ⟨h1, h2⟩⟩

theorem settled_passOver (x : Word × List Byte) : AllSettled l (l.passOver x) := by
  intro p hp hlt
  rw [passOver_pbufs] at hlt
  omega

theorem settled_freed : AllSettled l ((l.take net f).emit (.freed l.pbufs.length)) := by
  have hlater := (later_take net l f).freed (Nat.le_refl _)
    (by rw [take_length]; exact Nat.lt_succ_self _)
  rw [hlater.settled]
  intro p hp hlt
  have hlt' : p < (l.take net f).pbufs.length := hlt
  rw [take_length] at hlt'
  rw [settlings_append, settlings_inspected, settlings_freed, if_pos (by omega)]

theorem not_settled_taken (x : Word × List Byte) :
    ¬ AllSettled l ((l.take net f).passOver x) := by
  have hlater := (later_take net l f).trans (later_passOver x)
  rw [hlater.settled]
  intro hall
  have hone := hall l.pbufs.length (Nat.le_refl _)
    (by rw [passOver_pbufs, take_length]; exact Nat.lt_succ_self _)
  exact absurd hone Nat.zero_ne_one

theorem later_both : Later l ((((l.take net f).take net f').emit
    (.freed (l.take net f).pbufs.length)).emit (.freed l.pbufs.length))
      ([.inspected l.pbufs.length] ++ [.inspected (l.take net f).pbufs.length] ++
        [.freed (l.take net f).pbufs.length] ++ [.freed l.pbufs.length]) := by
  have hlen := take_length net l f
  have hlen' := take_length net (l.take net f) f'
  refine (((later_take net l f).trans (later_take net _ f')).freed (by omega) (by omega)).freed (Nat.le_refl _) ?_
  change _ < ((l.take net f).take net f').pbufs.length
  omega

theorem settled_both : AllSettled l ((((l.take net f).take net f').emit
    (.freed (l.take net f).pbufs.length)).emit (.freed l.pbufs.length)) := by
  rw [later_both.settled]
  intro p hp hlt
  have hlt' : p < ((l.take net f).take net f').pbufs.length := hlt
  rw [take_length, take_length] at hlt'
  simp only [settlings_append, settlings_inspected, settlings_freed, take_length]
  split_ifs <;> omega

theorem processMac_run (net : NetEnv) (spin : ℕ) (q : List Frame) (l : Lwip)
    (hreg : l.input = .ethernetif_input) (hspin : q.length < spin) :
    ((run (board queueReceive net) (processMac spin) (q, l)).1 = some () →
      ∃ new, Later l (run (board queueReceive net) (processMac spin) (q, l)).2.2 new) ∧
    (Drained l (run (board queueReceive net) (processMac spin) (q, l)) ↔
      Drains net l.asked q) := by
  induction spin generalizing q l with
  | zero => exact absurd hspin (Nat.not_lt_zero _)
  | succ spin ih =>
    -- a turn that goes on leaves a shorter queue to the rest of the loop
    have hnext : ∀ {q₁ : List Frame} {l₁ : Lwip} {new : List NetEvent}, Later l l₁ new →
        q₁.length < spin →
        ((run (board queueReceive net) (processMac spin) (q₁, l₁)).1 = some () →
          ∃ new, Later l (run (board queueReceive net) (processMac spin) (q₁, l₁)).2.2 new) ∧
        (Drained l (run (board queueReceive net) (processMac spin) (q₁, l₁)) ↔
          AllSettled l l₁ ∧ Drains net l₁.asked q₁) := by
      intro q₁ l₁ new h hlen
      obtain ⟨hlater, hiff⟩ := ih q₁ l₁ (h.input.trans hreg) hlen
      refine ⟨fun hr => ?_, (Drained.after h hlater).trans (and_congr_right fun _ => hiff)⟩
      obtain ⟨new', h'⟩ := hlater hr
      exact ⟨_, h.trans h'⟩
    obtain ⟨w, q', l', hrun, hturn⟩ := turn_run net q hreg
    cases hturn with
    | empty =>
      rw [processMac_turn hrun, if_pos rfl]
      exact ⟨fun _ => ⟨[], later_passOver (0, [])⟩,
        iff_of_true ⟨rfl, rfl, settled_passOver _⟩ trivial⟩
    | @dropped f q hf =>
      rw [processMac_turn hrun, if_pos rfl, drains_dropped hf]
      exact ⟨fun _ => ⟨[], later_passOver (answer 1500 f)⟩,
        ⟨fun h => h.2.1, fun h => ⟨rfl, h, settled_passOver _⟩⟩⟩
    | @freed f q hf =>
      rw [processMac_turn hrun, if_neg (by decide), drains_freed hf,
        ← asked_take (hf.trans_ne Fate.noConfusion)]
      have hlater := (later_take net l f).freed (Nat.le_refl _)
        (by rw [take_length]; exact Nat.lt_succ_self _)
      obtain ⟨h1, h2⟩ := hnext hlater (Nat.lt_of_succ_lt_succ hspin)
      exact ⟨h1, h2.trans (and_iff_right settled_freed)⟩
    | @last f hf =>
      rw [processMac_turn hrun, if_neg (by decide)]
      obtain ⟨h1, h2⟩ := hnext ((later_take net l f).trans (later_passOver (0, [])))
        (Nat.lt_of_succ_lt_succ hspin)
      refine ⟨h1, iff_of_false (fun h => not_settled_taken _ (h2.mp h).1) fun h => ?_⟩
      exact h hf
    | @leaked f f' q hf hf' =>
      rw [processMac_turn hrun, if_neg (by decide), drains_passed hf,
        ← asked_take (hf.trans_ne Fate.noConfusion), hf']
      obtain ⟨h1, h2⟩ := hnext ((later_take net l f).trans (later_passOver (answer 1500 f')))
        ((Nat.lt_succ_self _).trans (Nat.lt_of_succ_lt_succ hspin))
      exact ⟨h1, iff_of_false (fun h => not_settled_taken _ (h2.mp h).1) fun h => nomatch h.1⟩
    | @both f f' q hf hf' =>
      have hask := asked_take (hf.trans_ne Fate.noConfusion)
      have hask' := asked_take (hf'.trans_ne Fate.noConfusion)
      rw [processMac_turn hrun, if_neg (by decide), drains_passed hf, ← hask, ← hask']
      obtain ⟨h1, h2⟩ := hnext later_both ((Nat.lt_succ_self _).trans (Nat.lt_of_succ_lt_succ hspin))
      exact ⟨h1, h2.trans (and_congr (iff_of_true settled_both hf') Iff.rfl)⟩
    | @lost f f' q l' hf hf' =>
      rw [processMac_lost hrun, drains_passed hf, ← asked_take (hf.trans_ne Fate.noConfusion), hf']
      exact ⟨fun h => (nomatch h), iff_of_false (fun h => (nomatch h.1)) fun h => (nomatch h.1)⟩

/- `process_mac` has returned with EPKTCNT 0, every frame of `all` taken and every pbuf settled. -/
def Emptied (all : List Frame) (l : Lwip) (r : Option Unit × (Sys × Lwip)) : Prop :=
  r.1 = some () ∧ r.2.1.unread = 0 ∧ r.2.1.received = all ∧ Ready all.length r.2.1 ∧
    AllSettled l r.2.2

theorem views_empty {all : List Frame} {s : Sys} (h : Views all s q) :
    q = [] ↔ s.unread = 0 ∧ s.received = all ∧ Ready all.length s := by
  obtain ⟨hall, m, hready, rfl⟩ := h
  have hcount := hready.queue.count
  have htaken := hready.queue.taken
  rw [List.length_drop] at hcount
  rw [List.drop_eq_nil_iff]
  constructor
  · intro hle
    have hm : m = all.length := by rw [← hall]; omega
    exact ⟨by omega, hall, hm ▸ hready⟩
  · intro h
    omega

theorem emptied_drained {env : Env} (henv : ∀ n, env.events n = []) (net : NetEnv) {m : ℕ} {s : Sys}
    (hready : Ready m s) (l : Lwip) (spin : ℕ) :
    Emptied s.received l (run (board (chipReceive env) net) (processMac spin) (s, l)) ↔
      Drained l (run (board queueReceive net) (processMac spin) (s.received.drop m, l)) := by
  obtain ⟨hret, hviews, hlwip⟩ := processMac_views henv net spin
    (⟨rfl, m, hready, rfl⟩ : Views s.received s (s.received.drop m)) l
  unfold Emptied Drained
  rw [hret, hlwip, views_empty hviews]
  tauto

/-- On a silent line `process_mac` empties the queue and settles every frame exactly if a frame
that is dropped is the last one, and every frame that goes through `netif->input` is followed by
one that is freed. -/
theorem processMac_emptied_iff {env : Env} (henv : ∀ n, env.events n = []) (net : NetEnv) {m : ℕ}
    {s : Sys} (l₀ l : Lwip) (hready : Ready m s)
    (hl : l = (run (board (chipReceive env) net) lwipInitTask (s, l₀)).2.2) {spin : ℕ}
    (hspin : (s.received.drop m).length < spin) :
    Emptied s.received l (run (board (chipReceive env) net) (processMac spin) (s, l)) ↔
      Drains net l.asked (s.received.drop m) := by
  have hreg : l.input = .ethernetif_input := hl ▸ rfl
  exact (emptied_drained henv net hready l spin).trans (processMac_run net spin _ l hreg hspin).2

def badFrame : Frame := ⟨[0x45, 1, 2, 3, 4, 5], 0, 0, by decide⟩

/- A frame of another type than IP and ARP. -/
def otherFrame : Frame :=
  ⟨[0x04, 0x02, 0x35, 0x00, 0x00, 0x01, 2, 2, 2, 2, 2, 2, 0x88, 0xb5, 0x45, 1, 2, 3, 4], 0x80, 0,
    by decide⟩

theorem processMac_emptied_iff_badFrame : ∃ s, Ready 0 s ∧ s.received = [otherFrame, badFrame] ∧
    (Emptied s.received { freshLwip with input := .ethernetif_input }
        (run (board (chipReceive silentEnv) fullHeap) (processMac 3)
          (s, { freshLwip with input := .ethernetif_input })) ↔
      Drains fullHeap 0 (s.received.drop 0)) := by
  obtain ⟨s, hready, hrec, -⟩ := pending_queue [otherFrame, badFrame] (by decide) (by decide)
  have hspin : (s.received.drop 0).length < 3 := by
    rw [hrec]
    decide
  exact ⟨s, hready, hrec,
    processMac_emptied_iff (fun _ => rfl) fullHeap freshLwip _ hready rfl hspin⟩

theorem processMac_stops_at_badFrame :
    let s := queued [badFrame, otherFrame]
    let l := (run (board (chipReceive silentEnv) fullHeap) lwipInitTask (s, freshLwip)).2.2
    (∀ n, silentEnv.events n = []) ∧ Ready 0 s ∧ s.received = [badFrame, otherFrame] ∧
      ¬ ∃ turns, ∀ spin ≥ turns,
        Emptied s.received l (run (board (chipReceive silentEnv) fullHeap) (processMac spin) (s, l)) := by
  intro s l
  obtain ⟨hready, hrec, -⟩ := queued_ready [badFrame, otherFrame] (by decide) (by decide)
  refine ⟨fun _ => rfl, hready, hrec, ?_⟩
  rintro ⟨turns, hturns⟩
  have hemptied := (emptied_drained (fun _ => rfl) fullHeap hready _ _).mp
    (hturns (turns + 3) (Nat.le_add_right _ _))
  have hhead : s.received.drop 0 = [badFrame, otherFrame] := hrec
  rw [hhead] at hemptied
  have hdrains := (processMac_run fullHeap (turns + 3) [badFrame, otherFrame] _ rfl
    (Nat.lt_of_lt_of_le (by decide) (Nat.le_add_left 3 turns))).2.mp hemptied
  have hbad : fate fullHeap 0 badFrame = .dropped := rfl
  exact List.cons_ne_nil _ _ ((drains_dropped hbad).mp hdrains)

end MultiEmbedded.Net
