import MultiEmbedded.Net.Ethernetif

/-!
# Where a received frame goes

With `ethernetif_input` registered as its own input function an IP or ARP frame never
reaches `ethernet_input`, and the type field is inspected whatever the length.
-/

namespace MultiEmbedded.Net
open Prog Enc

/-! ### The pbuf of a frame -/

def frameLength (f : Frame) : ℕ :=
  if f.status &&& 0x80 = 0 then 0 else min (f.data.length - 4) 1499

def etherType (f : Frame) : Half := f.data.getD 12 0 ++ f.data.getD 13 0

theorem frameLength_lt (f : Frame) : frameLength f < 65536 := by
  unfold frameLength
  split_ifs <;> omega

theorem answer_eq (f : Frame) : (answer 1500 f).1 = BitVec.ofNat 32 (frameLength f) ∧
    (frameLength f ≠ 0 → (answer 1500 f).2 = f.data.take (frameLength f) ++ [0]) := by
  unfold answer frameLength
  by_cases hs : f.status &&& 0x80 = 0
  · rw [if_pos hs, if_pos hs]
    exact ⟨rfl, fun h => absurd rfl h⟩
  · rw [if_neg hs, if_neg hs]
    exact ⟨rfl, fun _ => rfl⟩

theorem answer_zero (f : Frame) : (answer 1500 f).1 = 0 ↔ frameLength f = 0 := by
  have hlt := frameLength_lt f
  rw [(answer_eq f).1]
  constructor
  · intro h
    have hn := congrArg BitVec.toNat h
    rw [BitVec.toNat_ofNat, Nat.mod_eq_of_lt (by omega)] at hn
    exact hn
  · intro h
    rw [h]
    rfl

theorem filled_len (env : NetEnv) (l : Lwip) (f : Frame) : (filled env l (answer 1500 f)).len = frameLength f := by
  have hlt := frameLength_lt f
  change ((answer 1500 f).1.setWidth 16).toNat = _
  rw [(answer_eq f).1, BitVec.toNat_setWidth, BitVec.toNat_ofNat]
  omega

theorem filled_byte (env : NetEnv) (l : Lwip) {f : Frame} {i : ℕ} (hi : i < frameLength f) :
    (filled env l (answer 1500 f)).payload i = f.data.getD i 0 := by
  have hlen : (filled env l (answer 1500 f)).len = frameLength f := filled_len env l f
  have hdata : frameLength f ≤ f.data.length := by
    unfold frameLength
    split_ifs <;> omega
  change (if i < (filled env l (answer 1500 f)).len then
    (answer 1500 f).2.getD i (l.MyRecvbuf i) else _) = _
  rw [hlen, if_pos hi, (answer_eq f).2 (by omega), List.getD_eq_getElem?_getD,
    List.getElem?_append_left (by rw [List.length_take]; omega), List.getElem?_take_of_lt hi,
    List.getD_eq_getElem?_getD, List.getElem?_eq_getElem (by omega : i < f.data.length)]
  rfl

theorem filled_type (env : NetEnv) (l : Lwip) {f : Frame} (h : 14 ≤ frameLength f) :
    (filled env l (answer 1500 f)).type = etherType f := by
  unfold Pbuf.type etherType
  rw [filled_byte env l (by omega), filled_byte env l (by omega)]

/-! ### What is expected for each pbuf -/

variable {env : NetEnv} {l : Lwip} {f : Frame}

/- The calls of `ethernet_input` for `p`. -/
def inputs (p : ℕ) : List NetEvent → List (NetifPtr × Byte)
  | [] => []
  | .input q netif result :: log =>
    if q = p then (netif, result) :: inputs p log else inputs p log
  | _ :: log => inputs p log

def frees (p : ℕ) (log : List NetEvent) : ℕ := log.count (.freed p)

/-- IP and ARP frames go up once, with the interface, and are freed if that fails; all other
frames are freed. The type is inspected only behind a complete header. -/
structure Dispatched (p : ℕ) (b : Pbuf) (log : List NetEvent) : Prop where
  header : .inspected p ∈ log → 14 ≤ b.len
  passed : 14 ≤ b.len → IpOrArp b.type → ∃ result, inputs p log = [(.enc28j60_netif, result)] ∧
    frees p log = if result = ERR_OK then 0 else 1
  dropped : ¬ (14 ≤ b.len ∧ IpOrArp b.type) → inputs p log = [] ∧ frees p log = 1

/- Every pbuf obtained between two states is dispatched between them. -/
def AllDispatched (l l' : Lwip) : Prop :=
  ∀ p b, l.pbufs.length ≤ p → l'.pbufs[p]? = some b →
    Dispatched p b (l'.log.drop l.log.length)

theorem inputs_append (p : ℕ) (log log' : List NetEvent) :
    inputs p (log ++ log') = inputs p log ++ inputs p log' := by
  induction log with
  | nil => rfl
  | cons e log ih =>
    cases e with
    | input q netif result =>
      change (if q = p then (netif, result) :: inputs p (log ++ log') else inputs p (log ++ log')) =
        (if q = p then (netif, result) :: inputs p log else inputs p log) ++ inputs p log'
      rw [ih]
      split_ifs <;> rfl
    | inspected q => exact ih
    | freed q => exact ih
    | jumped address => exact ih

/-! ### The frame at the head of the queue -/

theorem chipReceive_head (env : Env) {m : ℕ} {s : Sys} (h : Ready m s)
    (hf : s.received[m]? = some f) : ∃ t, chipReceive env 1500 s = (answer 1500 f, t) ∧
      Ready (m + 1) t := by
  have hdoes : Does env False _ (enc28j60PacketReceive 1500) s := packetReceive_does h (by decide)
  obtain ⟨x, t, hrun, before, after, m', -, -, hcall, hready⟩ := wp_total hdoes
  obtain ⟨rfl, rfl⟩ := hcall.pending h hf
  refine ⟨t, ?_, hready⟩
  unfold chipReceive
  rw [hrun]
  rfl

/-! ### An IP or ARP frame is not delivered -/

def Harmless (p : ℕ) : NetOp → Prop
  | .ethernet_input _ _ => False
  | .memcpy q => q ≠ p
  | _ => True

/- `p` has been inspected since `l` and not passed to `ethernet_input`. -/
def Undelivered (l : Lwip) (p : ℕ) (b : Pbuf) (l' : Lwip) : Prop :=
  l'.pbufs[p]? = some b ∧
    ∃ new, l'.log = l.log ++ new ∧ .inspected p ∈ new ∧ inputs p new = []

theorem Undelivered.emit {p : ℕ} {b : Pbuf} {l' : Lwip} (h : Undelivered l p b l') {e : NetEvent}
    (he : inputs p [e] = []) : Undelivered l p b (l'.emit e) := by
  obtain ⟨hb, new, hnew, hin, hnone⟩ := h
  refine ⟨hb, new ++ [e], ?_, List.mem_append_left _ hin, ?_⟩
  · change l'.log ++ [e] = _
    rw [hnew, List.append_assoc]
  · rw [inputs_append, hnone, he]
    rfl

theorem Undelivered.step {σ : Type} {receive : Word → σ → (Word × List Byte) × σ} {p : ℕ} {b : Pbuf}
    (o : NetOp) (st : σ × Lwip) (ho : Harmless p o) (h : Undelivered l p b st.2) :
    Undelivered l p b (board receive env o st).2.2 := by
  cases o with
  | netif_add input => exact h
  | enc28j60PacketReceive maxlen => exact h
  | pbuf_alloc length =>
    refine ⟨?_, ?_⟩
    · change (st.2.alloc env _).2.pbufs[p]? = some b
      unfold Lwip.alloc
      by_cases hg : env.grants st.2.asked = true
      · rw [if_pos hg]
        exact (List.getElem?_append_left (List.getElem?_eq_some_iff.mp h.1).1).trans h.1
      · rw [if_neg hg]
        exact h.1
    · change ∃ new, (st.2.alloc env _).2.log = _ ∧ _
      unfold Lwip.alloc
      by_cases hg : env.grants st.2.asked = true
      · rw [if_pos hg]
        exact h.2
      · rw [if_neg hg]
        exact h.2
  | memcpy q => exact ⟨(List.getElem?_modify_ne _ _ ho).trans h.1, h.2⟩
  | ethhdr_type q => exact h.emit rfl
  | netif_input netif => exact h
  | ethernet_input q netif => exact ho.elim
  | pbuf_free q => exact h.emit rfl
  | jump address => exact h.emit rfl

section Device
variable {σ : Type} {receive : Word → σ → (Word × List Byte) × σ}

abbrev Harms (receive : Word → σ → (Word × List Byte) × σ) (env : NetEnv) (p : ℕ) {α : Type}
    (x : NetProg α) (st : σ × Lwip) : Prop :=
  wp (board receive env) (fun o _ => Harmless p o) True (fun _ _ => True) x st

theorem Harms.bind {p : ℕ} {α β : Type} {x : NetProg α} {f : α → NetProg β} {st : σ × Lwip}
    (hx : Harms receive env p x st) (hf : ∀ a st', Harms receive env p (f a) st') :
    Harms receive env p (x >>= f) st :=
  (wp_bind _ _ _).mpr (wp_mono hx fun a st' _ => hf a st')

/- A new pbuf lies behind all others. -/
theorem packetReceive_harmless {p : ℕ} (s : σ) {l : Lwip} (hp : p < l.pbufs.length) :
    Harms receive env p packetReceive (s, l) := by
  unfold packetReceive
  refine (wp_perform _ _ _).mpr ⟨trivial, ?_⟩
  cases hrec : receive 1500 s with
  | mk x s' =>
    rw [board_receive hrec]
    by_cases h0 : x.1 = 0
    · rw [if_pos h0]
      trivial
    rw [if_neg h0]
    refine (wp_perform _ _ _).mpr ⟨trivial, ?_⟩
    cases hg : env.grants (l.store x.2).asked with
    | false =>
      rw [board_refuses hg]
      trivial
    | true =>
      rw [board_grants hg]
      exact ⟨Nat.ne_of_gt hp, trivial⟩

/- A further call through the pbuf taken for a netif runs into the bytes of the frame. -/
theorem nested_harmless {p : ℕ} (s : σ) {l : Lwip} (hp : p < l.pbufs.length) :
    Harms receive env p (ethernetifInput (callInput 0) (.pbuf p)) (s, l) := by
  unfold ethernetifInput lowLevelInput
  refine (packetReceive_harmless s hp).bind fun q st => ?_
  cases q with
  | none => trivial
  | some q =>
    refine (wp_perform _ _ _).mpr ⟨trivial, ?_⟩
    generalize (board receive env (.ethhdr_type q) st).1 = type
    by_cases ht : type = ETHTYPE_IP ∨ type = ETHTYPE_ARP
    · rw [if_pos ht]
      exact ⟨trivial, trivial, trivial⟩
    · rw [if_neg ht]
      exact ⟨trivial, trivial⟩

theorem passUp_harmless {p : ℕ} (s : σ) {l : Lwip} (hp : p < l.pbufs.length)
    (hreg : l.input = .ethernetif_input) :
    Harms receive env p (passUp (callInput 1) .enc28j60_netif p) (s, l) := by
  unfold passUp
  refine (wp_perform _ _ _).mpr ⟨trivial, ?_⟩
  change Harms receive env p (callInput 1 l.input p .enc28j60_netif >>= _) (s, l)
  rw [hreg]
  unfold callInput
  refine Harms.bind ((nested_harmless s hp).bind fun _ _ => trivial) fun result st => ?_
  by_cases hr : result ≠ ERR_OK
  · rw [if_pos hr]
    exact ⟨trivial, trivial⟩
  · rw [if_neg hr]
    trivial

theorem AllDispatched.of_new {l' : Lwip} (new : List NetEvent) (b : Pbuf)
    (hb : l'.pbufs = l.pbufs ++ [b]) (hlog : l'.log = l.log ++ new) :
    AllDispatched l l' ↔ Dispatched l.pbufs.length b new := by
  have hdrop : l'.log.drop l.log.length = new := by rw [hlog, List.drop_left]
  unfold AllDispatched
  rw [hdrop, hb]
  constructor
  · intro h
    exact h _ b (Nat.le_refl _) (by rw [List.getElem?_append_right (Nat.le_refl _), Nat.sub_self]; rfl)
  · intro h p b' hp hb'
    rw [List.getElem?_append_right hp] at hb'
    obtain ⟨hlt, rfl⟩ := List.getElem?_eq_some_iff.mp hb'
    have hlen : p = l.pbufs.length := by
      rw [List.length_singleton] at hlt
      omega
    subst hlen
    simpa using h

theorem dispatched_freed (p : ℕ) (b : Pbuf) (ht : ¬ IpOrArp b.type) :
    Dispatched p b [.inspected p, .freed p] ↔ 14 ≤ b.len := by
  constructor
  · intro h
    exact h.header (List.mem_cons_self ..)
  · intro h
    refine ⟨fun _ => h, fun _ hip => absurd hip ht, fun _ => ⟨rfl, ?_⟩⟩
    unfold frees
    rw [List.count_cons_of_ne (by simp), List.count_cons_self]
    rfl

theorem Undelivered.not_dispatched {p : ℕ} {b : Pbuf} {l' : Lwip} (h : Undelivered l p b l')
    (hp : l.pbufs.length ≤ p) (hip : 14 ≤ b.len → IpOrArp b.type) : ¬ AllDispatched l l' := by
  obtain ⟨hb, new, hnew, hin, hnone⟩ := h
  intro hall
  have hd := hall p b hp hb
  rw [hnew, List.drop_left] at hd
  have hlen := hd.header hin
  obtain ⟨result, hresult, -⟩ := hd.passed hlen (hip hlen)
  rw [hnone] at hresult
  exact List.cons_ne_nil _ _ hresult.symm

theorem receiveInput_undelivered {s s' : σ} {x : Word × List Byte} (hrec : receive 1500 s = (x, s'))
    (h0 : x.1 ≠ 0) (hg : env.grants l.asked = true) (ht : IpOrArp (filled env l x).type)
    (hreg : l.input = .ethernetif_input) :
    Undelivered l l.pbufs.length (filled env l x)
      (run (board receive env) (receiveInput .enc28j60_netif) (s, l)).2.2 := by
  unfold receiveInput
  rw [ethernetifInput_up _ _ hrec h0 hg ht]
  have hlast : (l.obtain env x).pbufs[l.pbufs.length]? = some (filled env l x) := by
    change (l.pbufs ++ [filled env l x])[l.pbufs.length]? = _
    rw [List.getElem?_append_right (Nat.le_refl _), Nat.sub_self]
    rfl
  have hstart : Undelivered l l.pbufs.length (filled env l x)
      ((l.obtain env x).emit (.inspected l.pbufs.length)) :=
    ⟨hlast, [.inspected l.pbufs.length], rfl, List.mem_singleton_self _, rfl⟩
  exact wp_final (I := fun st : σ × Lwip => Undelivered l l.pbufs.length (filled env l x) st.2)
    (passUp_harmless s' (List.getElem?_eq_some_iff.mp hlast).1 hreg)
    (fun o st ho h => h.step o st ho) hstart

end Device

/-- With the interface as `lwip_init_task` adds it, the pbuf of a pending frame is dispatched
exactly if there is none, or the frame has a complete header with another type than IP and ARP. -/
theorem receiveInput_dispatched_iff (env : Env) (net : NetEnv) {m : ℕ} {s : Sys} {f : Frame}
    (l₀ l : Lwip) (hready : Ready m s) (hf : s.received[m]? = some f)
    (hl : l = (run (board (chipReceive env) net) lwipInitTask (s, l₀)).2.2) :
    AllDispatched l (run (board (chipReceive env) net) (receiveInput .enc28j60_netif) (s, l)).2.2 ↔
      frameLength f = 0 ∨ net.grants l.asked = false ∨
        (14 ≤ frameLength f ∧ ¬ IpOrArp (etherType f)) := by
  have hreg : l.input = .ethernetif_input := hl ▸ rfl
  obtain ⟨t, hrec, -⟩ := chipReceive_head env hready hf
  by_cases hx : (answer 1500 f).1 = 0 ∨ net.grants l.asked = false
  · have hright : frameLength f = 0 ∨ net.grants l.asked = false ∨
        (14 ≤ frameLength f ∧ ¬ IpOrArp (etherType f)) :=
      hx.elim (fun h0 => Or.inl ((answer_zero f).mp h0)) fun hg => Or.inr (Or.inl hg)
    refine ⟨fun _ => hright, fun _ => ?_⟩
    unfold receiveInput
    rw [ethernetifInput_refused _ _ hrec hx]
    intro p b hp hb
    rw [passOver_pbufs] at hb
    exact absurd (List.getElem?_eq_some_iff.mp hb).1 (Nat.not_lt_of_le hp)
  · have h0 : (answer 1500 f).1 ≠ 0 := fun h => hx (Or.inl h)
    have hg : net.grants l.asked = true := by simpa using fun h => hx (Or.inr h)
    have hlen : (filled net l (answer 1500 f)).len = frameLength f := filled_len net l f
    have hright : (frameLength f = 0 ∨ net.grants l.asked = false ∨
        (14 ≤ frameLength f ∧ ¬ IpOrArp (etherType f))) ↔
          14 ≤ frameLength f ∧ ¬ IpOrArp (etherType f) := by
      have hpos : frameLength f ≠ 0 := fun h => h0 ((answer_zero f).mpr h)
      simp only [hpos, hg, Bool.true_eq_false, false_or]
    rw [hright]
    by_cases ht : IpOrArp (filled net l (answer 1500 f)).type
    · have hno := (receiveInput_undelivered hrec h0 hg ht hreg).not_dispatched (Nat.le_refl _)
        fun _ => ht
      refine ⟨fun h => absurd h hno, fun h => ?_⟩
      rw [filled_type net l h.1] at ht
      exact absurd ht h.2
    · unfold receiveInput
      rw [ethernetifInput_other _ _ hrec h0 hg ht]
      rw [AllDispatched.of_new [.inspected l.pbufs.length, .freed l.pbufs.length]
        (filled net l (answer 1500 f)) rfl (List.append_assoc _ _ _),
        dispatched_freed _ _ ht, hlen]
      refine ⟨fun h => ⟨h, ?_⟩, And.left⟩
      rw [← filled_type net l h]
      exact ht

/- An IP frame for the interface, with one byte behind the header. -/
def ipFrame : Frame :=
  ⟨[0x04, 0x02, 0x35, 0x00, 0x00, 0x01, 2, 2, 2, 2, 2, 2, 0x08, 0x00, 0x45, 1, 2, 3, 4], 0x80, 0,
    by decide⟩

def fullHeap : NetEnv := ⟨fun _ => true, fun _ _ => 0, fun _ => ERR_OK⟩

def freshLwip : Lwip := ⟨.ethernet_input, fun _ => 0, [], 0, []⟩

theorem receiveInput_dispatched_iff_ipFrame : ∃ s, Ready 0 s ∧ s.received = [ipFrame] ∧
    (AllDispatched { freshLwip with input := .ethernetif_input }
        (run (board (chipReceive silentEnv) fullHeap) (receiveInput .enc28j60_netif)
          (s, { freshLwip with input := .ethernetif_input })).2.2 ↔
      frameLength ipFrame = 0 ∨ fullHeap.grants 0 = false ∨
        (14 ≤ frameLength ipFrame ∧ ¬ IpOrArp (etherType ipFrame))) := by
  obtain ⟨s, hready, hrec, -⟩ := pending_queue [ipFrame] (by decide) (by decide)
  have hf : s.received[0]? = some ipFrame := by
    rw [hrec]
    rfl
  exact ⟨s, hready, hrec,
    receiveInput_dispatched_iff silentEnv fullHeap freshLwip _ hready hf rfl⟩

/- The frame is taken out of the chip, stored and freed. -/
theorem receiveInput_loses_ipFrame :
    let l := (run (board (chipReceive silentEnv) fullHeap) lwipInitTask (queued [ipFrame], freshLwip)).2.2
    Ready 0 (queued [ipFrame]) ∧ (queued [ipFrame]).received[0]? = some ipFrame ∧
      ¬ AllDispatched l
        (run (board (chipReceive silentEnv) fullHeap) (receiveInput .enc28j60_netif) (queued [ipFrame], l)).2.2 := by
  intro l
  obtain ⟨hready, hrec, -⟩ := queued_ready [ipFrame] (by decide) (by decide)
  have hf : (queued [ipFrame]).received[0]? = some ipFrame := by
    rw [hrec]
    rfl
  refine ⟨hready, hf, fun hall => ?_⟩
  obtain ⟨t, hreceive, -⟩ := chipReceive_head silentEnv hready hf
  have hip : IpOrArp (etherType ipFrame) := by decide
  refine (receiveInput_undelivered hreceive (by decide) rfl ?_ rfl).not_dispatched
    (Nat.le_refl _) (fun _ => ?_) hall
  · rw [filled_type fullHeap _ (by decide)]
    exact hip
  · rw [filled_type fullHeap _ (by decide)]
    exact hip

end MultiEmbedded.Net
