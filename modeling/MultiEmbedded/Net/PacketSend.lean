import MultiEmbedded.Enc.Driver
import Mathlib

/-!
# Frames from lwIP to the driver: PacketSend

The segments of a pbuf chain are copied one after the other into MySendbuf. The
length is checked after each copy, so a segment that does not fit has been
stored before it is refused.
-/

namespace MultiEmbedded.Net
open Prog Enc

def ERR_BUF : BitVec 8 := -2

/- The chain at `p`: `p->tot_len`, and for each pbuf the `len` bytes of its payload. -/
structure PbufChain where
  tot_len : BitVec 16
  segments : List (List Byte)
  first : segments ≠ []
  lens : ∀ q ∈ segments, q.length < 2 ^ 16

/- The memory from MySendbuf on, and the indices stored to. The array has 1500 bytes. -/
structure Sendbuf where
  bytes : ℕ → Byte
  stored : List ℕ

def MYSENDBUF_SIZE : ℕ := 1500

/- `memcpy(&MySendbuf[i], payload, len)` -/
def Sendbuf.memcpy (b : Sendbuf) (i : ℕ) (payload : List Byte) : Sendbuf where
  bytes x := if i ≤ x ∧ x < i + payload.length then payload.getD (x - i) 0 else b.bytes x
  stored := b.stored ++ List.range' i payload.length

/- The loop over the chain: `templen` behind the last segment, or `none` for the return of
ERR_BUF inside. `templen` never exceeds 1500 by more than one segment, so it does not wrap. -/
def copySegments (tot_len : ℕ) : List (List Byte) → ℕ → Sendbuf → Option ℕ × Sendbuf
  | [], templen, b => (some templen, b)
  | q :: qs, templen, b =>
    let b := b.memcpy templen q
    let templen := templen + q.length
    if templen > 1500 ∨ templen > tot_len then (none, b) else copySegments tot_len qs templen b

def packetSend (spin : ℕ) (p : PbufChain) (b : Sendbuf) : Drv (BitVec 8 × Sendbuf) :=
  match copySegments p.tot_len.toNat p.segments 0 b with
  | (none, b) => return (ERR_BUF, b)
  | (some templen, b) =>
    if templen = p.tot_len.toNat then do
      enc28j60PacketSend spin (BitVec.ofNat 32 templen) b.bytes
      return (0, b)
    else return (ERR_BUF, b)

def lowLevelOutput (spin : ℕ) (p : PbufChain) (b : Sendbuf) : Drv (BitVec 8 × Sendbuf) :=
  packetSend spin p b

/-! ### The copy -/

theorem memcpy_memcpy (b : Sendbuf) (i : ℕ) (xs ys : List Byte) :
    (b.memcpy i xs).memcpy (i + xs.length) ys = b.memcpy i (xs ++ ys) := by
  have hstored : b.stored ++ List.range' i xs.length ++ List.range' (i + xs.length) ys.length =
      b.stored ++ List.range' i (xs ++ ys).length := by
    rw [List.append_assoc, List.range'_append_1, List.length_append]
  have hbytes : ((b.memcpy i xs).memcpy (i + xs.length) ys).bytes = (b.memcpy i (xs ++ ys)).bytes := by
    funext x
    simp only [Sendbuf.memcpy, List.length_append]
    by_cases h1 : i + xs.length ≤ x ∧ x < i + xs.length + ys.length
    · have hsub : x - i - xs.length = x - (i + xs.length) := by omega
      rw [if_pos h1, if_pos (by omega), List.getD_append_right _ _ _ _ (by omega), hsub]
    · rw [if_neg h1]
      by_cases h2 : i ≤ x ∧ x < i + xs.length
      · rw [if_pos h2, if_pos (by omega), List.getD_append _ _ _ _ (by omega)]
      · rw [if_neg h2, if_neg (by omega)]
  exact congrArg₂ Sendbuf.mk hbytes hstored

theorem memcpy_read (b : Sendbuf) (i : ℕ) (xs : List Byte) :
    (List.range' i xs.length).map (b.memcpy i xs).bytes = xs := by
  apply List.ext_getElem
  · simp
  · intro k h1 h2
    have hk : i ≤ i + k ∧ i + k < i + xs.length := by omega
    have hsub : i + k - i = k := by omega
    rw [List.getElem_map, List.getElem_range', Nat.one_mul]
    simp only [Sendbuf.memcpy, hk, and_self, if_true, hsub]
    exact List.getD_eq_getElem xs 0 h2

/-! ### The loop -/

/- Bytes in the first `k` segments. -/
def leadLen (qs : List (List Byte)) (k : ℕ) : ℕ := (qs.take k).flatten.length

theorem leadLen_succ (q : List Byte) (qs : List (List Byte)) (k : ℕ) :
    leadLen (q :: qs) (k + 1) = q.length + leadLen qs k := by
  unfold leadLen
  rw [List.take_succ_cons, List.flatten_cons, List.length_append]

theorem leadLen_le (qs : List (List Byte)) (k : ℕ) : leadLen qs k ≤ qs.flatten.length := by
  unfold leadLen
  exact ((List.take_sublist k qs).flatten).length_le

theorem leadLen_end {qs : List (List Byte)} {k : ℕ} (hk : qs.length ≤ k) :
    leadLen qs k = qs.flatten.length := by
  unfold leadLen
  rw [List.take_of_length_le hk]

/-- What `templen` may reach. -/
def limit (tot_len : ℕ) : ℕ := min 1500 tot_len

theorem stops_iff (tot_len n : ℕ) : (n > 1500 ∨ n > tot_len) ↔ limit tot_len < n := by
  unfold limit
  omega

theorem copySegments_within (tot_len : ℕ) {qs : List (List Byte)} (templen : ℕ) (b : Sendbuf)
    (h : ∀ k, templen + leadLen qs k ≤ limit tot_len) :
    ∃ b', copySegments tot_len qs templen b = (some (templen + qs.flatten.length), b') ∧
      b'.bytes = (b.memcpy templen qs.flatten).bytes ∧
      b'.stored = (b.memcpy templen qs.flatten).stored := by
  induction qs generalizing templen b with
  | nil =>
    refine ⟨b, rfl, ?_, ?_⟩
    · funext x
      exact (if_neg (by simp only [List.flatten_nil, List.length_nil]; omega)).symm
    · exact (List.append_nil b.stored).symm
  | cons q qs ih =>
    have hq := h 1
    rw [leadLen_succ] at hq
    have hgo : ¬ (templen + q.length > 1500 ∨ templen + q.length > tot_len) := by
      rw [stops_iff]
      omega
    obtain ⟨b', hrun, hbytes, hstored⟩ := ih (templen + q.length) (b.memcpy templen q) fun k => by
      have hk := h (k + 1)
      rw [leadLen_succ] at hk
      omega
    rw [memcpy_memcpy, ← List.flatten_cons] at hbytes hstored
    refine ⟨b', ?_, hbytes, hstored⟩
    unfold copySegments
    simp only [hgo, if_false, hrun, List.flatten_cons, List.length_append]
    rw [Nat.add_assoc]

theorem copySegments_exceeds (tot_len : ℕ) {qs : List (List Byte)} (templen : ℕ) {k : ℕ} (b : Sendbuf)
    (hk : k < qs.length) (h : ∀ j, j ≤ k → templen + leadLen qs j ≤ limit tot_len)
    (hx : limit tot_len < templen + leadLen qs (k + 1)) :
    copySegments tot_len qs templen b = (none, b.memcpy templen (qs.take (k + 1)).flatten) := by
  induction qs generalizing templen k b with
  | nil => exact absurd hk (Nat.not_lt_zero k)
  | cons q qs ih =>
    rw [leadLen_succ] at hx
    cases k with
    | zero =>
      have hstop : templen + q.length > 1500 ∨ templen + q.length > tot_len := by
        rw [stops_iff]
        exact hx
      unfold copySegments
      simp [hstop]
    | succ k =>
      have hq := h 1 (by omega)
      rw [leadLen_succ] at hq
      have hgo : ¬ (templen + q.length > 1500 ∨ templen + q.length > tot_len) := by
        rw [stops_iff]
        omega
      have hrest := ih (templen + q.length) (b.memcpy templen q) (Nat.lt_of_succ_lt_succ hk)
        (fun j hj => by
          have hj' := h (j + 1) (by omega)
          rw [leadLen_succ] at hj'
          omega) (by omega)
      rw [memcpy_memcpy] at hrest
      unfold copySegments
      simp only [hgo, if_false, hrest, List.take_succ_cons, List.flatten_cons]

/- Either no prefix exceeds the limit, or some segment is the first to do so. -/
theorem within_or_exceeds (tot_len : ℕ) (qs : List (List Byte)) :
    (∀ k, leadLen qs k ≤ limit tot_len) ∨
      ∃ k, k < qs.length ∧ (∀ j, j ≤ k → leadLen qs j ≤ limit tot_len) ∧
        limit tot_len < leadLen qs (k + 1) := by
  by_cases h : ∀ k, leadLen qs k ≤ limit tot_len
  · exact Or.inl h
  · obtain ⟨k, hk⟩ := not_forall.mp h
    have hex : ∃ k, limit tot_len < leadLen qs k := ⟨k, Nat.lt_of_not_le hk⟩
    have hfirst := Nat.find_spec hex
    have hmin : ∀ j, j < Nat.find hex → leadLen qs j ≤ limit tot_len := fun j hj =>
      Nat.le_of_not_lt (Nat.find_min hex hj)
    cases hn : Nat.find hex with
    | zero =>
      rw [hn] at hfirst
      exact absurd hfirst (Nat.not_lt_zero _)
    | succ n =>
      rw [hn] at hfirst hmin
      refine Or.inr ⟨n, ?_, fun j hj => hmin j (Nat.lt_succ_of_le hj), hfirst⟩
      by_contra hlen
      have h1 := hmin n (Nat.lt_succ_self n)
      rw [leadLen_end (by omega)] at h1
      rw [leadLen_end (by omega)] at hfirst
      omega

/-! ### The contract -/

def PbufChain.data (p : PbufChain) : List Byte := p.segments.flatten

/- A chain lwIP may pass is sent whole from inside the buffer; every other one is refused
with nothing sent. Neither makes the copy leave the buffer. -/
def SendContract (spin : ℕ) (p : PbufChain) (mem : ℕ → Byte) : Prop :=
  ∃ b, (∀ i ∈ b.stored, i < MYSENDBUF_SIZE) ∧
    if p.data.length = p.tot_len.toNat ∧ p.tot_len.toNat ≤ 1514 then
      packetSend spin p ⟨mem, []⟩ = (do
        enc28j60PacketSend spin (BitVec.ofNat 32 p.data.length) b.bytes
        return (0, b)) ∧
      (List.range p.data.length).map b.bytes = p.data
    else packetSend spin p ⟨mem, []⟩ = pure (ERR_BUF, b)

/- No segment that is the first to exceed `tot_len` reaches beyond 1500 bytes. -/
def NoOverrun (p : PbufChain) : Prop :=
  ∀ k, (∀ j, j ≤ k → leadLen p.segments j ≤ limit p.tot_len.toNat) →
    leadLen p.segments (k + 1) ≤ 1500

/- A frame that is sent makes the driver wait for the one before it. -/
theorem packetSend_acts {α : Type} (spin : ℕ) (len : Word) (packet : ℕ → Byte)
    (f : Unit → Drv α) (a : α) : (enc28j60PacketSend spin len packet >>= f) ≠ pure a := by
  cases spin with
  | zero => exact fun h => nomatch h
  | succ spin => exact fun h => nomatch h

theorem packetSend_refused (spin : ℕ) {p : PbufChain} {b b' : Sendbuf}
    (h : copySegments p.tot_len.toNat p.segments 0 b = (none, b')) :
    packetSend spin p b = pure (ERR_BUF, b') := by
  unfold packetSend
  rw [h]

theorem packetSend_contract_iff (spin : ℕ) (p : PbufChain) (mem : ℕ → Byte) :
    SendContract spin p mem ↔ NoOverrun p := by
  have hlimit : limit p.tot_len.toNat ≤ 1500 := Nat.min_le_left ..
  rcases within_or_exceeds p.tot_len.toNat p.segments with hall | ⟨k, hk, hbefore, hover⟩
  · -- the whole chain is copied
    have hno : NoOverrun p := fun k _ => (hall (k + 1)).trans hlimit
    refine iff_of_true ?_ hno
    obtain ⟨b, hrun, hbytes, hstored⟩ := copySegments_within p.tot_len.toNat 0 ⟨mem, []⟩
      fun k => by rw [Nat.zero_add]; exact hall k
    rw [Nat.zero_add] at hrun
    have hdata : p.data.length ≤ limit p.tot_len.toNat := by
      have hend := hall p.segments.length
      rw [leadLen_end (Nat.le_refl _)] at hend
      exact hend
    have hin : ∀ i ∈ b.stored, i < MYSENDBUF_SIZE := by
      intro i hi
      rw [hstored] at hi
      have hlt := (List.mem_range'_1.mp hi).2
      change i < 0 + p.data.length at hlt
      change i < 1500
      omega
    refine ⟨b, hin, ?_⟩
    unfold packetSend
    rw [hrun]
    by_cases heq : p.data.length = p.tot_len.toNat
    · have hmtu : p.tot_len.toNat ≤ 1514 := by omega
      have hflat : p.segments.flatten.length = p.tot_len.toNat := heq
      rw [if_pos ⟨heq, hmtu⟩]
      refine ⟨if_pos hflat, ?_⟩
      rw [hbytes, List.range_eq_range']
      exact memcpy_read ⟨mem, []⟩ 0 p.data
    · have hflat : p.segments.flatten.length ≠ p.tot_len.toNat := heq
      rw [if_neg (fun h => heq h.1)]
      exact if_neg hflat
  · -- a segment is refused after it was stored
    have hrun := copySegments_exceeds p.tot_len.toNat 0 ⟨mem, []⟩ hk
      (fun j hj => by rw [Nat.zero_add]; exact hbefore j hj) (by rw [Nat.zero_add]; exact hover)
    have hret := packetSend_refused spin hrun
    have hlast : NoOverrun p ↔ leadLen p.segments (k + 1) ≤ 1500 := by
      constructor
      · intro h
        exact h k hbefore
      · intro h k' hk'
        rcases Nat.lt_trichotomy k' k with hlt | rfl | hgt
        · exact (hbefore (k' + 1) hlt).trans hlimit
        · exact h
        · exact absurd (hk' (k + 1) hgt) (Nat.not_le_of_lt hover)
    rw [hlast]
    constructor
    · rintro ⟨b, hin, hcase⟩
      split at hcase
      · rw [hret] at hcase
        exact absurd hcase.1.symm (packetSend_acts spin _ _ _ _)
      · rw [hret] at hcase
        cases hcase
        by_contra hgt
        have hbad := hin 1500 (List.mem_range'_1.mpr ⟨Nat.zero_le _, by
          change 1500 < 0 + leadLen p.segments (k + 1)
          omega⟩)
        exact absurd hbad (Nat.lt_irrefl 1500)
    · intro hfits
      refine ⟨Sendbuf.memcpy ⟨mem, []⟩ 0 (p.segments.take (k + 1)).flatten, fun i hi => ?_, ?_⟩
      · have hlt := (List.mem_range'_1.mp hi).2
        change i < 0 + leadLen p.segments (k + 1) at hlt
        change i < 1500
        omega
      · have hle := leadLen_le p.segments (k + 1)
        rw [if_neg, hret]
        rintro ⟨heq, -⟩
        change p.segments.flatten.length = _ at heq
        unfold limit at hover
        omega

/- A frame of 1510 bytes in two segments: the link header and 1496 bytes behind it. -/
def fullFrame : PbufChain where
  tot_len := 1510
  segments := [List.replicate 14 0, List.replicate 1496 0]
  first := List.cons_ne_nil _ _
  lens q hq := by
    have h : q.length = 14 ∨ q.length = 1496 := by
      rcases List.mem_pair.mp hq with rfl | rfl
      · exact Or.inl (List.length_replicate ..)
      · exact Or.inr (List.length_replicate ..)
    omega

/- What the MTU of 1500 and a link header of 14 bytes admit and MySendbuf does not hold. -/
theorem packetSend_tooLong (spin : ℕ) {p : PbufChain} (mem : ℕ → Byte)
    (hlen : p.data.length = p.tot_len.toNat) (hlong : 1500 < p.tot_len.toNat)
    (hmtu : p.tot_len.toNat ≤ 1514) : ¬ SendContract spin p mem := by
  have hlimit : limit p.tot_len.toNat ≤ 1500 := Nat.min_le_left ..
  rintro ⟨b, -, hcase⟩
  rw [if_pos ⟨hlen, hmtu⟩] at hcase
  rcases within_or_exceeds p.tot_len.toNat p.segments with hall | ⟨k, hk, hbefore, hover⟩
  · have hend := hall p.segments.length
    rw [leadLen_end (Nat.le_refl _)] at hend
    change p.data.length ≤ _ at hend
    omega
  · have hrun := copySegments_exceeds p.tot_len.toNat 0 ⟨mem, []⟩ hk
      (fun j hj => by rw [Nat.zero_add]; exact hbefore j hj) (by rw [Nat.zero_add]; exact hover)
    rw [packetSend_refused spin hrun] at hcase
    exact absurd hcase.1.symm (packetSend_acts spin _ _ _ _)

/- The interface admits it; it is refused, with ten bytes stored behind MySendbuf. -/
theorem packetSend_fullFrame : ¬ SendContract 1 fullFrame fun _ => 0 := by
  have hlen : fullFrame.data.length = 1510 := by
    unfold PbufChain.data fullFrame
    rw [List.flatten_cons, List.flatten_cons, List.length_append, List.length_append,
      List.length_replicate, List.length_replicate]
    rfl
  exact packetSend_tooLong 1 _ hlen (by decide) (by decide)

end MultiEmbedded.Net
