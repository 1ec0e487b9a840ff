import MultiEmbedded.Net.Ethernetif
import Mathlib

/-!
# Frames from the driver to lwIP: PacketReceive

The chip is seen through the bytes its receive buffer yields, in the order in
which they are read: two bytes of link, the byte count, the status, the data.
Any bytes can stand there. The pbuf chain that takes the frame can be cut in
any way.
-/

namespace MultiEmbedded.Net.Chains
open Prog Enc

/- A chip with a frame waiting: `taken` bytes of the buffer have been read. -/
structure Feed where
  bytes : ℕ → Byte
  taken : ℕ
  unread : Byte
  waiting : unread ≠ 0
  Enc28j60Bank : Byte
  NextPacketPtr : Word

def feed : (o : Op) → Feed → o.Res × Feed
  | .readOp op _, s =>
    if op = ENC28J60_READ_BUF_MEM then (s.bytes s.taken, { s with taken := s.taken + 1 })
    else (s.unread, s)
  | .readBuffer len, s =>
    ((List.range' s.taken len.toNat).map s.bytes, { s with taken := s.taken + len.toNat })
  | .loadBank, s => (s.Enc28j60Bank, s)
  | .storeBank bank, s => ((), { s with Enc28j60Bank := bank })
  | .loadNext, s => (s.NextPacketPtr, s)
  | .storeNext next, s => ((), { s with NextPacketPtr := next })
  | .writeOp _ _ _, s => ((), s)
  | .writeBuffer _, s => ((), s)
  | .csHigh, s => ((), s)

/-- The copy loop: MyRecvbuf from index `i` on into the pbufs `q`, `q->next`, ... of a chain. -/
def fillChain (recvlen : ℕ) (MyRecvbuf : ℕ → Byte) : ℕ → List (List Byte) → List (List Byte)
  | _, [] => []
  | i, q :: next =>
    let payload := (List.range' i q.length).map MyRecvbuf
    let i := i + q.length
    if i ≥ recvlen then payload :: next else payload :: fillChain recvlen MyRecvbuf i next

/-- The chain returned and the number of bytes stored in MyRecvbuf, whose contents before the
call are `old`. -/
def packetReceive (pbuf_alloc : BitVec 16 → Option (List (List Byte))) (old : ℕ → Byte) :
    Drv (Option (List (List Byte)) × ℕ) := do
  let (recvlen, stored) ← enc28j60PacketReceive 1500
  if recvlen = 0 then return (none, stored.length)
  match pbuf_alloc (recvlen.setWidth 16) with
  | none => return (none, stored.length)
  | some p =>
    return (some (fillChain recvlen.toNat (fun i => stored.getD i (old i)) 0 p), stored.length)

/-! ### The driver on any bytes -/

abbrev Yields {α : Type} (Q : α → Feed → Prop) (x : Drv α) (s : Feed) : Prop :=
  wp feed (fun _ _ => True) False Q x s

/- `n` more bytes have been read. -/
def Advanced (s : Feed) (n : ℕ) (t : Feed) : Prop := t.bytes = s.bytes ∧ t.taken = s.taken + n

theorem setBank_yields (address : Byte) {s s0 : Feed} {n : ℕ} (h : Advanced s0 n s) :
    Yields (fun _ t => Advanced s0 n t) (enc28j60SetBank address) s := by
  unfold enc28j60SetBank
  refine (wp_perform _ _ _).mpr ⟨trivial, ?_⟩
  change Yields _ (if address &&& BANK_MASK ≠ s.Enc28j60Bank then _ else _) s
  split
  · exact ⟨trivial, trivial, trivial, h⟩
  · exact h

theorem write_yields (address data : Byte) {s s0 : Feed} {n : ℕ} (h : Advanced s0 n s) :
    Yields (fun _ t => Advanced s0 n t) (enc28j60Write address data) s := by
  unfold enc28j60Write
  refine (wp_bind _ _ _).mpr (wp_mono (setBank_yields address h) fun _ t ht => ?_)
  exact ⟨trivial, ht⟩

theorem read_yields (address : Byte) {s s0 : Feed} {n : ℕ} (h : Advanced s0 n s) :
    Yields (fun b t => b ≠ 0 ∧ Advanced s0 n t) (enc28j60Read address) s := by
  unfold enc28j60Read
  refine (wp_bind _ _ _).mpr (wp_mono (setBank_yields address h) fun _ t ht => ?_)
  exact ⟨trivial, t.waiting, ht⟩

theorem next_yields {s s0 : Feed} {n : ℕ} (h : Advanced s0 n s) :
    Yields (fun b t => b = s0.bytes (s0.taken + n) ∧ Advanced s0 (n + 1) t)
      (enc28j60ReadOp ENC28J60_READ_BUF_MEM 0) s := by
  refine ⟨trivial, ?_, h.1, ?_⟩
  · change s.bytes s.taken = _
    rw [h.1, h.2]
  · change s.taken + 1 = _
    rw [h.2, Nat.add_assoc]

def field (low high : Byte) : Word := low.setWidth 32 ||| high.setWidth 32 <<< 8

theorem readField_yields {s s0 : Feed} {n : ℕ} (h : Advanced s0 n s) :
    Yields (fun w t => w = field (s0.bytes (s0.taken + n)) (s0.bytes (s0.taken + (n + 1))) ∧
      Advanced s0 (n + 2) t) readField s := by
  unfold readField
  refine (wp_bind _ _ _).mpr (wp_mono (next_yields h) fun low t ht => ?_)
  refine (wp_bind _ _ _).mpr (wp_mono (next_yields ht.2) fun high u hu => ?_)
  refine ⟨?_, hu.2⟩
  rw [ht.1, hu.1]
  rfl

/-- What the driver makes of the bytes: the length it returns and what it stores. -/
def received (maxlen : Word) (bytes : ℕ → Byte) : Word × List Byte :=
  let len := field (bytes 2) (bytes 3) - 4
  let len := if len > maxlen - 1 then maxlen - 1 else len
  if field (bytes 4) (bytes 5) &&& 0x80 = 0 then (0, [])
  else (len, (List.range' 6 len.toNat).map bytes ++ [0])

theorem packetReceive_yields (maxlen : Word) {s : Feed} (h0 : s.taken = 0) :
    Yields (fun x _ => x = received maxlen s.bytes) (enc28j60PacketReceive maxlen) s := by
  have hs : Advanced s 0 s := ⟨rfl, rfl⟩
  unfold enc28j60PacketReceive
  refine (wp_bind _ _ _).mpr (wp_mono (read_yields _ hs) fun count t ht => ?_)
  rw [if_neg ht.1]
  refine (wp_perform _ _ _).mpr ⟨trivial, ?_⟩
  refine (wp_bind _ _ _).mpr (wp_mono (write_yields _ _ ht.2) fun _ t ht => ?_)
  refine (wp_perform _ _ _).mpr ⟨trivial, ?_⟩
  refine (wp_bind _ _ _).mpr (wp_mono (write_yields _ _ ht) fun _ t ht => ?_)
  refine (wp_bind _ _ _).mpr (wp_mono (next_yields ht) fun low t ht => ?_)
  refine (wp_perform _ _ _).mpr ⟨trivial, ?_⟩
  have hlow : Advanced s 1 (feed (.storeNext (low.setWidth 32)) t).2 := ht.2
  refine (wp_bind _ _ _).mpr (wp_mono (next_yields hlow) fun high u hu => ?_)
  refine (wp_perform _ _ _).mpr ⟨trivial, (wp_perform _ _ _).mpr ⟨trivial, ?_⟩⟩
  have hlink : Advanced s 2 (feed (.storeNext ((feed .loadNext u).1 ||| high.setWidth 32 <<< 8))
    (feed .loadNext u).2).2 := hu.2
  refine (wp_bind _ _ _).mpr (wp_mono (readField_yields hlink) fun len t ht => ?_)
  obtain ⟨hlen, ht⟩ := ht
  refine (wp_bind _ _ _).mpr (wp_mono (readField_yields ht) fun rxstat t ht => ?_)
  obtain ⟨hstat, ht⟩ := ht
  rw [h0] at hlen hstat
  -- the data, and the release of the frame behind them
  have hdata : Yields (fun x t => x = received maxlen s.bytes ∧ t.bytes = s.bytes)
      (if rxstat &&& 0x80 = 0 then pure (0, [])
        else Prod.mk (if len - 4 > maxlen - 1 then maxlen - 1 else len - 4) <$>
          enc28j60ReadBuffer (if len - 4 > maxlen - 1 then maxlen - 1 else len - 4)) t := by
    unfold received
    rw [hlen, hstat]
    split
    · exact ⟨rfl, ht.1⟩
    · refine ⟨trivial, ?_, ht.1⟩
      change (_, (List.range' t.taken _).map t.bytes ++ [0]) = _
      rw [ht.1, ht.2, h0]
  refine (wp_bind _ _ _).mpr (wp_mono hdata fun x t hx => ?_)
  refine (wp_perform _ _ _).mpr ⟨trivial, ?_⟩
  have ht : Advanced t 0 t := ⟨rfl, rfl⟩
  refine (wp_bind _ _ _).mpr (wp_mono (write_yields _ _ ht) fun _ t ht => ?_)
  refine (wp_perform _ _ _).mpr ⟨trivial, ?_⟩
  refine (wp_bind _ _ _).mpr (wp_mono (write_yields _ _ ht) fun _ t ht => ?_)
  exact ⟨trivial, hx.1⟩

/-! ### The chain -/

theorem fillChain_flatten {recvlen : ℕ} (MyRecvbuf : ℕ → Byte) {i : ℕ} {p : List (List Byte)}
    (h : i + p.flatten.length = recvlen) :
    (fillChain recvlen MyRecvbuf i p).flatten = (List.range' i p.flatten.length).map MyRecvbuf := by
  induction p generalizing i with
  | nil => rfl
  | cons q next ih =>
    rw [List.flatten_cons, List.length_append] at h ⊢
    rw [← List.range'_append_1, List.map_append]
    unfold fillChain
    by_cases hend : i + q.length ≥ recvlen
    · have hnil : next.flatten = [] := List.eq_nil_of_length_eq_zero (by omega)
      simp only [hend, if_true, List.flatten_cons, hnil, List.length_nil, List.range'_zero,
        List.map_nil]
    · simp only [hend, if_false, List.flatten_cons]
      rw [ih (by omega)]

/- `pbuf_alloc` as the interface has it: one pbuf, or none. -/
def onePbuf (env : NetEnv) (l : Lwip) (length : Half) : Option (List (List Byte)) :=
  if env.grants l.asked then some [(List.range length.toNat).map (env.heap l.asked)] else none

def octets (b : Pbuf) : List Byte := (List.range b.len).map b.payload

/-- On chains of one pbuf this is what the interface calls: it ends with the same pbuf, if the driver
returns the same. -/
theorem packetReceive_onePbuf {σ τ : Type} {receive : Word → σ → (Word × List Byte) × σ}
    {h : (o : Op) → τ → o.Res × τ} {env : NetEnv} {s s' : σ} {t t' : τ} {l : Lwip} {x : Word × List Byte}
    (hrec : receive 1500 s = (x, s')) (hrun : run h (enc28j60PacketReceive 1500) t = (some x, t')) :
    ∃ r l', run (board receive env) Net.packetReceive (s, l) = (some r, s', l') ∧
      run h (packetReceive (onePbuf env l) l.MyRecvbuf) t =
        (some (r.map fun p => [octets (l'.pbuf p)], x.2.length), t') := by
  unfold packetReceive
  rw [run_bind_of hrun]
  by_cases hx : x.1 = 0
  · refine ⟨none, _, packetReceive_refused hrec (.inl hx), ?_⟩
    dsimp only
    rw [if_pos hx]
    rfl
  by_cases hg : env.grants l.asked = true
  · refine ⟨some l.pbufs.length, _, packetReceive_obtained hrec hx hg, ?_⟩
    have hpbuf : (l.obtain env x).pbuf l.pbufs.length = filled env l x := by
      show (l.pbufs ++ [filled env l x]).getD l.pbufs.length _ = _
      rw [List.getD_eq_getElem?_getD, List.getElem?_append_right (Nat.le_refl _), Nat.sub_self]
      rfl
    have hfill : fillChain x.1.toNat (fun i => x.2.getD i (l.MyRecvbuf i)) 0
        [(List.range (x.1.setWidth 16 : Half).toNat).map (env.heap l.asked)] = [octets (filled env l x)] := by
      have hone (recvlen : ℕ) (q : List Byte) (MyRecvbuf : ℕ → Byte) :
          fillChain recvlen MyRecvbuf 0 [q] = [(List.range q.length).map MyRecvbuf] := by
        unfold fillChain
        rw [List.range_eq_range']
        dsimp only
        split <;> rfl
      rw [hone, List.length_map, List.length_range]
      refine congrArg (fun q => [q]) (List.map_congr_left fun i hi => ?_)
      exact (if_pos (List.mem_range.mp hi)).symm
    dsimp only
    rw [if_neg hx, onePbuf, if_pos hg]
    dsimp only
    rw [hfill, Option.map_some, hpbuf]
    rfl
  · rw [Bool.not_eq_true] at hg
    refine ⟨none, _, packetReceive_refused hrec (.inr hg), ?_⟩
    dsimp only
    rw [if_neg hx, onePbuf, hg]
    rfl

/- An allocator whose chains have the length asked for, however they are cut. -/
structure Pool where
  chain : BitVec 16 → List (List Byte)
  total : ∀ n, (chain n).flatten.length = n.toNat

def byteCount (bytes : ℕ → Byte) : ℕ := (bytes 2).toNat + 256 * (bytes 3).toNat

/- The data of the frame: what the byte count covers, without the four bytes of its CRC. -/
def frameData (bytes : ℕ → Byte) : List Byte := (List.range' 6 (byteCount bytes - 4)).map bytes

def ReceivedOk (bytes : ℕ → Byte) : Prop := bytes 4 &&& 0x80 ≠ 0

/- What the caller is owed: of the chain returned and the number of bytes stored. -/
structure RecvContract (bytes : ℕ → Byte) (out : Option (List (List Byte)) × ℕ) : Prop where
  content : ∀ c, out.1 = some c → 4 ≤ byteCount bytes ∧ c.flatten = frameData bytes
  inside : out.2 ≤ 1500
  whole : ReceivedOk bytes → 5 ≤ byteCount bytes → byteCount bytes ≤ 1518 → out.1.isSome

theorem status_field (low high : Byte) : field low high &&& 0x80 = 0 ↔ low &&& 0x80 = 0 := by
  have hhigh : ∀ b : Byte, (b.setWidth 32 <<< 8 : Word) &&& 0x80 = 0#32 := by decide +kernel
  have hlow : ∀ b : Byte, (b.setWidth 32 : Word) &&& 0x80 = 0 ↔ b &&& 0x80 = 0 := by decide +kernel
  unfold field
  rw [BitVec.and_comm, BitVec.and_or_distrib_left, BitVec.and_comm, BitVec.and_comm 0x80, hhigh,
    BitVec.or_zero]
  exact hlow low

/-- What the subtraction and the clamp make of the byte count. -/
def clamped (count : ℕ) : ℕ := if count < 4 then 1499 else min (count - 4) 1499

theorem clamped_toNat (low high : Byte) :
    (if field low high - 4 > (1500 : Word) - 1 then (1500 : Word) - 1 else field low high - 4).toNat =
      clamped (low.toNat + 256 * high.toNat) := by
  have hl := low.isLt
  have hh := high.isLt
  have hfield : (field low high).toNat = low.toNat + 256 * high.toNat := field_toNat low high
  unfold clamped
  by_cases h4 : low.toNat + 256 * high.toNat < 4
  · -- the subtraction wraps
    have hwrap : (field low high - 4).toNat = 4294967292 + (field low high).toNat := by
      rw [BitVec.toNat_sub, hfield]
      change (4294967296 - 4 + _) % 4294967296 = _
      omega
    have hgt : field low high - 4 > (1500 : Word) - 1 := by
      apply BitVec.lt_def.mpr
      rw [hwrap]
      change 1499 < _
      omega
    rw [if_pos hgt, if_pos h4]
    rfl
  · rw [if_neg h4, length_limit (by decide) (by rw [hfield]; omega), hfield]
    rfl

theorem received_ok {bytes : ℕ → Byte} (h : ReceivedOk bytes) :
    ∃ len : Word, len.toNat = clamped (byteCount bytes) ∧
      received 1500 bytes = (len, (List.range' 6 len.toNat).map bytes ++ [0]) := by
  refine ⟨_, clamped_toNat (bytes 2) (bytes 3), ?_⟩
  have hok : ¬ (field (bytes 4) (bytes 5) &&& 0x80 = 0) := fun hz => h ((status_field _ _).mp hz)
  unfold received
  rw [if_neg hok]

theorem received_bad {bytes : ℕ → Byte} (h : ¬ ReceivedOk bytes) : received 1500 bytes = (0, []) := by
  have hbad : field (bytes 4) (bytes 5) &&& 0x80 = 0 :=
    (status_field _ _).mpr (Classical.not_not.mp h)
  unfold received
  rw [if_pos hbad]

/- One call, in terms of what the driver returned and stored. -/
def delivered (pool : Pool) (old : ℕ → Byte) (x : Word × List Byte) : Option (List (List Byte)) × ℕ :=
  if x.1 = 0 then (none, x.2.length)
  else (some (fillChain x.1.toNat (fun i => x.2.getD i (old i)) 0 (pool.chain (x.1.setWidth 16))),
    x.2.length)

theorem packetReceive_run (pool : Pool) (old : ℕ → Byte) (s : Feed) :
    ∃ t, run feed (packetReceive (fun n => some (pool.chain n)) old) { s with taken := 0 } =
      (some (delivered pool old (received 1500 s.bytes)), t) := by
  have h : Yields (fun out _ => out = delivered pool old (received 1500 s.bytes))
      (packetReceive (fun n => some (pool.chain n)) old) { s with taken := 0 } := by
    unfold packetReceive
    refine (wp_bind _ _ _).mpr (wp_mono
      (packetReceive_yields 1500 (s := { s with taken := 0 }) rfl) fun x t hx => ?_)
    rw [hx]
    unfold delivered
    change Yields _ (if (received 1500 s.bytes).1 = 0 then _ else _) t
    split
    · rfl
    · rfl
  obtain ⟨out, t, hrun, rfl⟩ := wp_total h
  exact ⟨t, hrun⟩

/- A frame with data whose clamped length is not 0 comes back as a chain of that many bytes. -/
theorem delivered_chain (pool : Pool) (old : ℕ → Byte) {bytes : ℕ → Byte} (h : ReceivedOk bytes)
    (hpos : 0 < clamped (byteCount bytes)) :
    ∃ c, delivered pool old (received 1500 bytes) = (some c, clamped (byteCount bytes) + 1) ∧
      c.flatten = (List.range' 6 (clamped (byteCount bytes))).map bytes := by
  obtain ⟨len, hlen, hrec⟩ := received_ok h
  have hmax : clamped (byteCount bytes) ≤ 1499 := by
    unfold clamped
    split
    · exact Nat.le_refl _
    · exact Nat.min_le_right ..
  have hne : len ≠ 0 := by
    rintro rfl
    have hzero : (0 : Word).toNat = 0 := rfl
    omega
  have htotal : 0 + (pool.chain (len.setWidth 16)).flatten.length = len.toNat := by
    rw [pool.total, BitVec.toNat_setWidth]
    omega
  rw [hrec]
  unfold delivered
  rw [if_neg hne]
  refine ⟨_, Prod.ext rfl ?_, ?_⟩
  · simp [hlen]
  · rw [fillChain_flatten _ htotal]
    have hchain : (pool.chain (len.setWidth 16)).flatten.length = len.toNat := by omega
    rw [hchain, hlen]
    apply List.ext_getElem
    · simp
    · intro k h1 h2
      have hk : k < clamped (byteCount bytes) := by simpa using h1
      have hstored : k < ((List.range' 6 (clamped (byteCount bytes))).map bytes).length := by
        simpa using hk
      simp only [List.getElem_map, List.getElem_range', Nat.one_mul, Nat.zero_add]
      rw [List.getD_append _ _ _ _ hstored, List.getD_eq_getElem _ _ hstored]
      simp

theorem packetReceive_contract_iff (pool : Pool) (old : ℕ → Byte) (s : Feed) :
    (∃ out t, run feed (packetReceive (fun n => some (pool.chain n)) old) { s with taken := 0 } =
        (some out, t) ∧ RecvContract s.bytes out) ↔
      ¬ ReceivedOk s.bytes ∨ (4 ≤ byteCount s.bytes ∧ byteCount s.bytes ≤ 1503) := by
  obtain ⟨t, hrun⟩ := packetReceive_run pool old s
  have hout : (∃ out t, run feed (packetReceive (fun n => some (pool.chain n)) old)
      { s with taken := 0 } = (some out, t) ∧ RecvContract s.bytes out) ↔
      RecvContract s.bytes (delivered pool old (received 1500 s.bytes)) := by
    constructor
    · rintro ⟨out, t', hrun', hc⟩
      rw [hrun] at hrun'
      cases hrun'
      exact hc
    · intro hc
      exact ⟨_, t, hrun, hc⟩
  rw [hout]
  by_cases hok : ReceivedOk s.bytes
  · have hcases : (¬ ReceivedOk s.bytes ∨ (4 ≤ byteCount s.bytes ∧ byteCount s.bytes ≤ 1503)) ↔
        4 ≤ byteCount s.bytes ∧ byteCount s.bytes ≤ 1503 := by simp only [hok, not_true, false_or]
    rw [hcases]
    by_cases h4 : byteCount s.bytes = 4
    · -- a frame without data is dropped
      obtain ⟨len, hlen, hrec⟩ := received_ok hok
      have hzero : len = 0 := by
        apply BitVec.eq_of_toNat_eq
        rw [hlen, h4]
        rfl
      subst hzero
      rw [hrec]
      refine iff_of_true ⟨fun c hc => (nomatch hc), ?_, fun _ h5 _ => ?_⟩ ⟨by omega, by omega⟩
      · exact (by decide : 1 ≤ 1500)
      · omega
    · have hpos : 0 < clamped (byteCount s.bytes) := by
        unfold clamped
        split <;> omega
      obtain ⟨c, hdel, hflat⟩ := delivered_chain pool old hok hpos
      rw [hdel]
      constructor
      · intro hc
        obtain ⟨hge, hdata⟩ := hc.content c rfl
        have hlen := congrArg List.length (hflat.symm.trans hdata)
        simp only [frameData, List.length_map, List.length_range'] at hlen
        refine ⟨hge, ?_⟩
        unfold clamped at hlen
        rw [if_neg (by omega)] at hlen
        omega
      · rintro ⟨hge, hle⟩
        have hclamp : clamped (byteCount s.bytes) = byteCount s.bytes - 4 := by
          unfold clamped
          rw [if_neg (by omega)]
          omega
        refine ⟨fun c' hc' => ?_, ?_, fun _ _ _ => rfl⟩
        · cases hc'
          refine ⟨hge, ?_⟩
          rw [hflat, hclamp]
          rfl
        · change clamped (byteCount s.bytes) + 1 ≤ 1500
          omega
  · rw [received_bad hok]
    exact iff_of_true ⟨fun c hc => (nomatch hc), Nat.zero_le _, fun h => absurd h hok⟩ (Or.inl hok)

/- A frame of 1514 data bytes, received well. -/
def longFrame : Feed where
  bytes n := if n = 2 then 0xee else if n = 3 then 0x05 else if n = 4 then 0x80 else 0
  taken := 0
  unread := 1
  waiting := by decide
  Enc28j60Bank := 0
  NextPacketPtr := 0

/- Every chain of one pbuf. -/
def wholePool : Pool where
  chain n := [List.replicate n.toNat 0]
  total n := by simp

/- It arrives as 1499 bytes. -/
theorem packetReceive_truncates :
    ¬ ∃ out t, run feed (packetReceive (fun n => some (wholePool.chain n)) fun _ => 0)
      { longFrame with taken := 0 } = (some out, t) ∧ RecvContract longFrame.bytes out := by
  rintro ⟨out, t', hrun', hc⟩
  obtain ⟨t, hrun⟩ := packetReceive_run wholePool (fun _ => 0) longFrame
  have hok : ReceivedOk longFrame.bytes := by
    change (0x80 : Byte) &&& 0x80 ≠ 0
    decide
  have hcount : byteCount longFrame.bytes = 1518 := rfl
  obtain ⟨c, hdel, hflat⟩ := delivered_chain wholePool (fun _ => 0) hok (by rw [hcount]; decide)
  rw [hrun, hdel] at hrun'
  cases hrun'
  have hlen := congrArg List.length (hflat.symm.trans (hc.content c rfl).2)
  simp only [frameData, List.length_map, List.length_range', hcount] at hlen
  exact absurd hlen (by decide)

end MultiEmbedded.Net.Chains
