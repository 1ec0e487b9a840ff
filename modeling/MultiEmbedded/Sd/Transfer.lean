import MultiEmbedded.Sd.Driver
import Mathlib.Data.List.Basic
import Mathlib.Logic.Function.Basic

/-!
# What each primitive of the card driver does

One equation for each function below the block transfers, in terms of the
positions at which the card's bytes end the polling loops. The callers are
reasoned about through these equations and never unfold a loop.
-/

namespace MultiEmbedded.Sd
open Search

/-! ### State-passing programs -/

/-- Runs the first part of a sequence whose effect is known. -/
theorem bind_of {α β : Type} {x : Run α} {s s' : State} {a : α} (h : x s = (a, s'))
    (f : α → Run β) : (x >>= f) s = f a s' := by
  have hx : (x >>= f) s = f (x s).1 (x s).2 := rfl
  rw [hx, h]

theorem pure_run {α : Type} (a : α) (s : State) : (pure a : Run α) s = (a, s) := rfl

theorem ite_run {α : Type} (p : Prop) [Decidable p] (x y : Run α) (s : State) :
    (if p then x else y) s = if p then x s else y s := by
  split <;> rfl

theorem get_run (s : State) : (get : Run State) s = (s, s) := rfl

/-! ### Bytes out and in -/

/-- Number of exchanges so far. -/
def State.pos (s : State) : ℕ := s.sent.length

def State.send (s : State) (bs : List Byte) : State := { s with sent := s.sent ++ bs }

/-- `n` more exchanges with MOSI held high. -/
def State.idle (s : State) (n : ℕ) : State := s.send (List.replicate n 0xff)

@[simp] theorem send_sent (s : State) (bs : List Byte) : (s.send bs).sent = s.sent ++ bs := rfl
@[simp] theorem send_mem (s : State) (bs : List Byte) : (s.send bs).mem = s.mem := rfl
@[simp] theorem send_stackReads (s : State) (bs : List Byte) :
    (s.send bs).stackReads = s.stackReads := rfl
@[simp] theorem send_SD_Type (s : State) (bs : List Byte) : (s.send bs).SD_Type = s.SD_Type := rfl
@[simp] theorem send_pos (s : State) (bs : List Byte) : (s.send bs).pos = s.pos + bs.length := by
  simp [State.pos]
@[simp] theorem idle_mem (s : State) (n : ℕ) : (s.idle n).mem = s.mem := rfl
@[simp] theorem idle_stackReads (s : State) (n : ℕ) : (s.idle n).stackReads = s.stackReads := rfl
@[simp] theorem idle_SD_Type (s : State) (n : ℕ) : (s.idle n).SD_Type = s.SD_Type := rfl
@[simp] theorem idle_pos (s : State) (n : ℕ) : (s.idle n).pos = s.pos + n := by
  simp [State.idle]
@[simp] theorem idle_sent (s : State) (n : ℕ) :
    (s.idle n).sent = s.sent ++ List.replicate n 0xff := rfl

theorem send_send (s : State) (a b : List Byte) : (s.send a).send b = s.send (a ++ b) := by
  simp [State.send]

@[simp] theorem send_nil (s : State) : s.send [] = s := by
  simp [State.send]

@[simp] theorem idle_zero (s : State) : s.idle 0 = s := by simp [State.idle]

theorem idle_idle (s : State) (m n : ℕ) : (s.idle m).idle n = s.idle (m + n) := by
  simp only [State.idle, send_send, List.replicate_append_replicate]

theorem send_one_idle (s : State) (n : ℕ) : (s.send [0xff]).idle n = s.idle (n + 1) := by
  simp only [State.idle, send_send]
  rfl

theorem spi1ReadWriteByte_run (c : Card) (b : Byte) (s : State) :
    spi1ReadWriteByte c b s = (c.miso s.pos, s.send [b]) := rfl

theorem bind_spi {α : Type} (c : Card) (b : Byte) (f : Byte → Run α) (s : State) :
    (spi1ReadWriteByte c b >>= f) s = f (c.miso s.pos) (s.send [b]) := rfl

theorem sendBytes_run (c : Card) (bs : List Byte) (s : State) :
    sendBytes c bs s = ((), s.send bs) := by
  induction bs generalizing s with
  | nil => simp [sendBytes, pure_run]
  | cons b bs ih =>
    simp only [sendBytes, bind_spi, ih, send_send]
    rfl

/-- Memory after the `n` bytes `f 0, …, f (n - 1)` were stored from `buf` on. -/
def store (mem : ℕ → Byte) (buf n : ℕ) (f : ℕ → Byte) : ℕ → Byte := fun a =>
  if buf ≤ a ∧ a < buf + n then f (a - buf) else mem a

theorem store_at (mem : ℕ → Byte) (buf n : ℕ) (f : ℕ → Byte) {i : ℕ} (hi : i < n) :
    store mem buf n f (buf + i) = f i := by
  have h : buf ≤ buf + i ∧ buf + i < buf + n := by omega
  simp [store, hi]

theorem store_outside (mem : ℕ → Byte) (buf n : ℕ) (f : ℕ → Byte) {a : ℕ}
    (ha : a < buf ∨ buf + n ≤ a) : store mem buf n f a = mem a := by
  have h : ¬(buf ≤ a ∧ a < buf + n) := by omega
  simp [store, h]

def State.withMem (s : State) (mem : ℕ → Byte) : State := { s with mem := mem }

@[simp] theorem withMem_pos (s : State) (m : ℕ → Byte) : (s.withMem m).pos = s.pos := rfl
@[simp] theorem withMem_mem (s : State) (m : ℕ → Byte) : (s.withMem m).mem = m := rfl
@[simp] theorem withMem_sent (s : State) (m : ℕ → Byte) : (s.withMem m).sent = s.sent := rfl
@[simp] theorem withMem_stackReads (s : State) (m : ℕ → Byte) :
    (s.withMem m).stackReads = s.stackReads := rfl
@[simp] theorem withMem_withMem (s : State) (m m' : ℕ → Byte) :
    (s.withMem m).withMem m' = s.withMem m' := rfl
theorem withMem_send (s : State) (m : ℕ → Byte) (bs : List Byte) :
    (s.withMem m).send bs = (s.send bs).withMem m := rfl
theorem withMem_idle (s : State) (m : ℕ → Byte) (n : ℕ) :
    (s.withMem m).idle n = (s.idle n).withMem m := rfl

theorem recvBytes_run (c : Card) (buf n : ℕ) (s : State) :
    recvBytes c buf n s =
      ((), (s.idle n).withMem (store s.mem buf n fun i => c.miso (s.pos + i))) := by
  induction n generalizing buf s with
  | zero =>
    have h : store s.mem buf 0 (fun i => c.miso (s.pos + i)) = s.mem := by
      funext a; exact store_outside _ _ _ _ (by omega)
    rw [h]
    simp [recvBytes, pure_run, State.withMem]
  | succ n ih =>
    have hround : recvBytes c buf (n + 1) s = recvBytes c (buf + 1) n
        ((s.send [0xff]).withMem (Function.update s.mem buf (c.miso s.pos))) := rfl
    have hmem : store (Function.update s.mem buf (c.miso s.pos)) (buf + 1) n
        (fun i => c.miso (s.pos + 1 + i)) = store s.mem buf (n + 1) fun i => c.miso (s.pos + i) := by
      funext a
      by_cases ha : a = buf
      · subst ha
        rw [store_outside _ _ _ _ (by omega), Function.update_self]
        simp [store]
      · by_cases hr : buf + 1 ≤ a ∧ a < buf + 1 + n
        · have h1 : buf ≤ a ∧ a < buf + (n + 1) := by omega
          have h2 : s.pos + 1 + (a - (buf + 1)) = s.pos + (a - buf) := by omega
          simp only [store, hr, h1, and_self, if_true, h2]
        · rw [store_outside _ _ _ _ (by omega), store_outside _ _ _ _ (by omega),
            Function.update_of_ne ha]
    rw [hround, ih, withMem_idle, send_one_idle, withMem_withMem]
    simp only [withMem_pos, withMem_mem, send_pos, List.length_singleton, hmem]

/-! ### Waiting for ready -/

/-- Rounds the loop of `SD_Waite_Ready` can make from the initial value `i`. -/
def waitLimit (i : Word) : ℕ :=
  if i = 0xffffffff then 0x1000000 else if i < 0xffffff then 0xffffff - i.toNat else 1

theorem waitLimit_pos (i : Word) : 0 < waitLimit i := by
  unfold waitLimit
  split
  · omega
  · split
    · rename_i h
      have : i.toNat < 0xffffff := by simpa [BitVec.lt_def] using h
      omega
    · omega

theorem waitLimit_le (i : Word) : waitLimit i ≤ 0x1000000 := by
  unfold waitLimit
  split
  · omega
  · split <;> omega

/-- One round: the loop goes on exactly when a round is left. -/
theorem waitLimit_step (i : Word) :
    waitLimit i = if i + 1 < 0xffffff then waitLimit (i + 1) + 1 else 1 := by
  have hlim : (16777215 : Word).toNat = 16777215 := rfl
  by_cases hm : i = 0xffffffff
  · subst hm; decide
  · have hi := i.isLt
    have hne : i.toNat ≠ 4294967295 := fun h => hm (BitVec.eq_of_toNat_eq h)
    have hs : (i + 1).toNat = i.toNat + 1 := by
      rw [BitVec.toNat_add]
      exact Nat.mod_eq_of_lt (by show i.toNat + 1 < 4294967296; omega)
    simp only [waitLimit, hm, if_false, BitVec.lt_def, hs, hlim]
    by_cases h : i.toNat + 1 < 16777215
    · have h1 : i + 1 ≠ 0xffffffff := by
        intro h2
        have h3 : (i + 1).toNat = 4294967295 := by rw [h2]; rfl
        omega
      have h4 : i.toNat < 16777215 := by omega
      simp only [h, h1, h4, if_true, if_false]
      omega
    · simp only [h, if_false]
      split <;> omega

def isHigh (b : Byte) : Bool := b == 0xff
def isResponse (b : Byte) : Bool := b != 0xff
def isToken (b : Byte) : Bool := b == 0xfe

/-- Where the ready wait that starts at exchange `p` sees `0xff`, if it does;
`k` numbers the call. -/
def readyAt (c : Card) (k p : ℕ) : Option ℕ := find isHigh c.miso (waitLimit (c.stack k)) p

theorem waiteReadyLoop_eq (c : Card) (fuel : ℕ) (i : Word) (s : State)
    (hf : waitLimit i ≤ fuel) :
    waiteReadyLoop c fuel i s = match find isHigh c.miso (waitLimit i) s.pos with
      | some j => (0, s.idle (j + 1 - s.pos))
      | none => (0xff, s.idle (waitLimit i)) := by
  induction fuel generalizing i s with
  | zero => have := waitLimit_pos i; omega
  | succ fuel ih =>
    simp only [waiteReadyLoop, bind_spi, ite_run, pure_run]
    obtain ⟨n, hn⟩ : ∃ n, waitLimit i = n + 1 := ⟨waitLimit i - 1, by have := waitLimit_pos i; omega⟩
    have hstep := waitLimit_step i
    by_cases hff : c.miso s.pos = 0xff
    · rw [hn, find]
      simp [hff, isHigh, State.idle]
    · have hh : isHigh (c.miso s.pos) = false := by simpa [isHigh] using hff
      rw [hn, find]
      simp only [hff, hh, if_false, Bool.false_eq_true]
      by_cases hlt : i + 1 < 0xffffff
      · simp only [hlt, if_true] at hstep ⊢
        have hn' : waitLimit (i + 1) = n := by omega
        rw [ih (i + 1) (s.send [0xff]) (by omega), hn', send_pos]
        simp only [List.length_singleton]
        cases hfind : find isHigh c.miso n (s.pos + 1) with
        | none => simp only [send_one_idle]
        | some j =>
          have := (find_some hfind).1
          have he : j + 1 - (s.pos + 1) + 1 = j + 1 - s.pos := by omega
          simp only [send_one_idle, he]
      · simp only [hlt, if_false] at hstep ⊢
        have hn' : n = 0 := by omega
        subst hn'
        simp [find, State.idle]

/-- State after the read of the uninitialised counter. -/
def State.readStack (s : State) : State := { s with stackReads := s.stackReads + 1 }

@[simp] theorem readStack_pos (s : State) : s.readStack.pos = s.pos := rfl
@[simp] theorem readStack_sent (s : State) : s.readStack.sent = s.sent := rfl
@[simp] theorem readStack_mem (s : State) : s.readStack.mem = s.mem := rfl

theorem sdWaiteReady_run (c : Card) (s : State) :
    sdWaiteReady c s = match readyAt c s.stackReads s.pos with
      | some j => (0, s.readStack.idle (j + 1 - s.pos))
      | none => (0xff, s.readStack.idle (waitLimit (c.stack s.stackReads))) := by
  have h : sdWaiteReady c s = waiteReadyLoop c 0x1000000 (c.stack s.stackReads) s.readStack := rfl
  rw [h, waiteReadyLoop_eq c _ _ _ (waitLimit_le _)]
  rfl

/-! ### Select and commands -/

def State.withPins (s : State) (cs : Bool) (uerr : Byte) : State :=
  { s with SD_CS := cs, UERR := uerr }

@[simp] theorem withPins_pos (s : State) (l : Bool) (u : Byte) : (s.withPins l u).pos = s.pos := rfl
@[simp] theorem withPins_sent (s : State) (l : Bool) (u : Byte) :
    (s.withPins l u).sent = s.sent := rfl
@[simp] theorem withPins_mem (s : State) (l : Bool) (u : Byte) : (s.withPins l u).mem = s.mem := rfl
@[simp] theorem withPins_stackReads (s : State) (l : Bool) (u : Byte) :
    (s.withPins l u).stackReads = s.stackReads := rfl
@[simp] theorem withPins_SD_Type (s : State) (l : Bool) (u : Byte) :
    (s.withPins l u).SD_Type = s.SD_Type := rfl

theorem withPins_idle (s : State) (l : Bool) (u : Byte) (n : ℕ) :
    (s.withPins l u).idle n = (s.idle n).withPins l u := rfl
theorem withPins_readStack (s : State) (l : Bool) (u : Byte) :
    (s.withPins l u).readStack = s.readStack.withPins l u := rfl
theorem idle_readStack (s : State) (n : ℕ) : (s.idle n).readStack = s.readStack.idle n := rfl
@[simp] theorem withPins_UERR (s : State) (l : Bool) (u : Byte) : (s.withPins l u).UERR = u := rfl
theorem withPins_withPins (s : State) (l l' : Bool) (u u' : Byte) :
    (s.withPins l u).withPins l' u' = s.withPins l' u' := rfl

theorem setCS_run (level : Bool) (s : State) :
    setCS level s = ((), s.withPins level s.UERR) := rfl

theorem sdDisSel_run (c : Card) (s : State) :
    sdDisSel c s = ((), (s.idle 1).withPins true (c.miso s.pos)) := rfl

theorem sdSelect_ready (c : Card) (s : State) {j : ℕ}
    (h : readyAt c s.stackReads s.pos = some j) :
    sdSelect c s = (0, (s.readStack.idle (j + 1 - s.pos)).withPins false s.UERR) := by
  have hw := sdWaiteReady_run c (s.withPins false s.UERR)
  simp only [withPins_stackReads, withPins_pos, h, withPins_readStack, withPins_idle] at hw
  unfold sdSelect
  rw [bind_of (setCS_run false s), bind_of hw]
  rfl

theorem sdSelect_busy (c : Card) (s : State) (h : readyAt c s.stackReads s.pos = none) :
    sdSelect c s = (1, (s.readStack.idle (waitLimit (c.stack s.stackReads) + 1)).withPins true
      (c.miso (s.pos + waitLimit (c.stack s.stackReads)))) := by
  have hw := sdWaiteReady_run c (s.withPins false s.UERR)
  simp only [withPins_stackReads, withPins_pos, h, withPins_readStack, withPins_idle] at hw
  have hne : ¬ ((0xff : Byte) = 0) := by decide
  unfold sdSelect
  rw [bind_of (setCS_run false s), bind_of hw]
  simp only [hne, if_false]
  rw [bind_of (sdDisSel_run c _), ← idle_idle]
  simp only [withPins_idle, withPins_withPins, withPins_pos, idle_pos, readStack_pos]
  rfl

theorem responseLoop_run (c : Card) (n : ℕ) (s : State) :
    responseLoop c n s = match find isResponse c.miso n s.pos with
      | some r => ((c.miso r, n - (r + 1 - s.pos)), s.idle (r + 1 - s.pos))
      | none => ((0xff, 0), s.idle n) := by
  induction n generalizing s with
  | zero => simp [responseLoop, find, pure_run]
  | succ n ih =>
    simp only [responseLoop, bind_spi, ite_run, pure_run, find]
    by_cases hff : c.miso s.pos = 0xff
    · have hr : isResponse (c.miso s.pos) = false := by simp [isResponse, hff]
      simp only [hr, Bool.false_eq_true, if_false]
      simp only [hff, true_and]
      cases n with
      | zero => simp [find, State.idle]
      | succ n =>
        simp only [ne_eq, Nat.add_eq_zero_iff, Nat.one_ne_zero, and_false, not_false_eq_true,
          if_true]
        rw [ih, send_pos, List.length_singleton]
        cases hfind : find isResponse c.miso (n + 1) (s.pos + 1) with
        | none => simp only [send_one_idle]
        | some r =>
          have hle := (find_some hfind).1
          have h1 : r + 1 - (s.pos + 1) + 1 = r + 1 - s.pos := by omega
          have h2 : n + 1 - (r + 1 - (s.pos + 1)) = n + 1 + 1 - (r + 1 - s.pos) := by omega
          simp only [send_one_idle, h1, h2]
    · have hr : isResponse (c.miso s.pos) = true := by simpa [isResponse] using hff
      have hstop : ¬ (c.miso s.pos = 0xff ∧ n ≠ 0) := fun hb => hff hb.1
      have h1 : s.pos + 1 - s.pos = 1 := by omega
      simp only [hstop, hr, if_true, if_false, h1]
      rfl

-- What `SendCmd` makes of the bytes from `q` on: the last of its 31 polls is lost.
def reply (c : Card) (q : ℕ) : Byte :=
  match find isResponse c.miso 30 q with
  | some r => c.miso r
  | none => 0xff

def polled (c : Card) (q : ℕ) : ℕ :=
  match find isResponse c.miso 31 q with
  | some r => r + 1 - q
  | none => 31

theorem response_run (c : Card) (s : State) :
    (responseLoop c 0x1f >>= fun x => pure (if x.2 = 0 then 0xff else x.1) : Run Byte) s =
      (reply c s.pos, s.idle (polled c s.pos)) := by
  have hl := responseLoop_run c 31 s
  unfold reply polled
  cases h : find isResponse c.miso 31 s.pos with
  | none =>
    rw [h] at hl
    have h30 : find isResponse c.miso 30 s.pos = none := find_none_mono h (by omega)
    simp only [bind_of hl, h30, pure_run, if_true]
  | some r =>
    rw [h] at hl
    obtain ⟨h1, h2, -, -⟩ := find_some h
    by_cases hlast : r = s.pos + 30
    · have h30 : find isResponse c.miso 30 s.pos = none := by
        cases h3 : find isResponse c.miso 30 s.pos with
        | none => rfl
        | some r' =>
          have heq := find_mono h3 (show 30 ≤ 31 by omega)
          rw [h] at heq
          have hlt := (find_some h3).2.1
          have : r = r' := Option.some.inj heq
          omega
      have h0 : 31 - (r + 1 - s.pos) = 0 := by omega
      simp only [bind_of hl, h30, h0, pure_run, if_true]
    · have h30 : find isResponse c.miso 30 s.pos = some r := find_restrict h (by omega)
      have h0 : 31 - (r + 1 - s.pos) ≠ 0 := by omega
      simp only [bind_of hl, h30, h0, pure_run, if_false]

/-- Every byte of a command: six, and the stuff byte after `CMD12`. -/
def cmdBytes (cmd : Byte) (arg : Word) (crc : Byte) : List Byte :=
  frame cmd arg crc ++ if cmd = CMD12 then [0xff] else []

theorem sendCmd_ready (c : Card) (cmd : Byte) (arg : Word) (crc : Byte) (s : State) {j : ℕ}
    (h : readyAt c s.stackReads (s.pos + 1) = some j) :
    sendCmd c cmd arg crc s =
      (reply c (j + 1 + (cmdBytes cmd arg crc).length),
        (((s.readStack.idle (j + 1 - s.pos)).send (cmdBytes cmd arg crc)).idle
          (polled c (j + 1 + (cmdBytes cmd arg crc).length))).withPins false (c.miso s.pos)) := by
  obtain ⟨hj, -, -, -⟩ := find_some h
  have hsel := sdSelect_ready c ((s.idle 1).withPins true (c.miso s.pos)) (j := j) (by
    simpa only [withPins_stackReads, idle_stackReads, withPins_pos, idle_pos] using h)
  have hn : 1 + (j + 1 - (s.pos + 1)) = j + 1 - s.pos := by omega
  simp only [withPins_readStack, withPins_idle, idle_readStack, idle_idle, withPins_pos, idle_pos,
    hn, withPins_UERR, withPins_withPins] at hsel
  have hpos : (((s.readStack.idle (j + 1 - s.pos)).withPins false (c.miso s.pos)).send
      (cmdBytes cmd arg crc)).pos = j + 1 + (cmdBytes cmd arg crc).length := by
    simp only [send_pos, withPins_pos, idle_pos, readStack_pos]
    omega
  have hresp := response_run c (((s.readStack.idle (j + 1 - s.pos)).withPins false
    (c.miso s.pos)).send (cmdBytes cmd arg crc))
  rw [hpos] at hresp
  unfold sendCmd
  rw [bind_of (sdDisSel_run c s), bind_of hsel]
  simp only [ne_eq, not_true_eq_false, if_false]
  rw [bind_of (sendBytes_run c _ _)]
  by_cases h12 : cmd = CMD12
  · simp only [cmdBytes, h12, if_true] at hresp ⊢
    rw [bind_of (sendBytes_run c _ _), send_send]
    exact hresp
  · simp only [cmdBytes, h12, if_false, List.append_nil] at hresp ⊢
    exact hresp

theorem sendCmd_busy (c : Card) (cmd : Byte) (arg : Word) (crc : Byte) (s : State)
    (h : readyAt c s.stackReads (s.pos + 1) = none) :
    sendCmd c cmd arg crc s =
      (0xff, (s.readStack.idle (waitLimit (c.stack s.stackReads) + 2)).withPins true
        (c.miso (s.pos + 1 + waitLimit (c.stack s.stackReads)))) := by
  have hsel := sdSelect_busy c ((s.idle 1).withPins true (c.miso s.pos)) (by
    simpa only [withPins_stackReads, idle_stackReads, withPins_pos, idle_pos] using h)
  have hn : 1 + (waitLimit (c.stack s.stackReads) + 1) = waitLimit (c.stack s.stackReads) + 2 := by
    omega
  simp only [withPins_stackReads, idle_stackReads, withPins_readStack, withPins_idle,
    idle_readStack, idle_idle, withPins_pos, idle_pos, hn, withPins_withPins] at hsel
  have hne : (1 : Byte) ≠ 0 := by decide
  unfold sendCmd
  rw [bind_of (sdDisSel_run c s), bind_of hsel]
  simp only [hne, ne_eq, not_false_eq_true, if_true]
  rfl

/-! ### The start token and a data block -/

theorem getResponseLoop_run (c : Card) (response : Byte) (n : ℕ) (s : State) :
    getResponseLoop c response n s =
      match find (fun b => b == response) c.miso (n + 1) s.pos with
      | some t => (n - (t - s.pos), s.idle (t + 1 - s.pos))
      | none => (0xffff, s.idle (n + 1)) := by
  induction n generalizing s with
  | zero =>
    simp only [getResponseLoop, bind_spi, pure_run, find]
    by_cases hb : c.miso s.pos = response
    · simp [hb, State.idle]
    · simp only [hb, if_false, beq_iff_eq]
      rfl
  | succ n ih =>
    simp only [getResponseLoop, bind_spi, ite_run, pure_run]
    rw [find]
    by_cases hb : c.miso s.pos = response
    · simp [hb, State.idle]
    · simp only [hb, if_false, beq_iff_eq]
      rw [ih, send_pos, List.length_singleton]
      cases hfind : find (fun b => b == response) c.miso (n + 1) (s.pos + 1) with
      | none => simp only [send_one_idle]
      | some t =>
        have hle := (find_some hfind).1
        have h1 : t + 1 - (s.pos + 1) + 1 = t + 1 - s.pos := by omega
        have h2 : n - (t - (s.pos + 1)) = n + 1 - (t - s.pos) := by omega
        simp only [send_one_idle, h1, h2]

/- `GetResponse`: where the awaited byte comes in time, at the last poll, or not at all. -/
theorem getResponse_found (c : Card) (response : Byte) (s : State) {t : ℕ}
    (h : find (fun b => b == response) c.miso 0x10000 s.pos = some t) (ht : t < s.pos + 0xffff) :
    getResponse c response s = (MSD_RESPONSE_NO_ERROR, s.idle (t + 1 - s.pos)) := by
  have hl := getResponseLoop_run c response 0xffff s
  simp only [Nat.reduceAdd, h] at hl
  have h1 := (find_some h).1
  have h0 : 0xffff - (t - s.pos) ≠ 0 := by omega
  unfold getResponse
  rw [bind_of hl]
  simp only [h0, if_false]
  rfl

theorem getResponse_late (c : Card) (response : Byte) (s : State)
    (h : find (fun b => b == response) c.miso 0x10000 s.pos = some (s.pos + 0xffff)) :
    getResponse c response s = (MSD_RESPONSE_FAILURE, s.idle 0x10000) := by
  have hl := getResponseLoop_run c response 0xffff s
  simp only [Nat.reduceAdd, h] at hl
  have hn : s.pos + 0xffff + 1 - s.pos = 0x10000 := by omega
  have h0 : 0xffff - (s.pos + 0xffff - s.pos) = 0 := by omega
  rw [hn, h0] at hl
  unfold getResponse
  rw [bind_of hl]
  rfl

theorem getResponse_silent (c : Card) (response : Byte) (s : State)
    (h : find (fun b => b == response) c.miso 0x10000 s.pos = none) :
    getResponse c response s = (MSD_RESPONSE_NO_ERROR, s.idle 0x10000) := by
  have hl := getResponseLoop_run c response 0xffff s
  simp only [Nat.reduceAdd, h] at hl
  unfold getResponse
  rw [bind_of hl]
  rfl

/-- The token wait that starts at exchange `p`: where it sees `0xfe`, if it does. -/
def tokenFrom (c : Card) (p : ℕ) : Option ℕ := find isToken c.miso 0x10000 p

/-- The token came in time, so the `len` bytes after it are stored. -/
theorem sdRevData_token (c : Card) (buf len : ℕ) (s : State) {t : ℕ}
    (h : tokenFrom c s.pos = some t) (ht : t < s.pos + 0xffff) :
    sdRevData c buf len s = (0, (s.idle (t + 1 - s.pos + len + 2)).withMem
      (store s.mem buf len fun i => c.miso (t + 1 + i))) := by
  obtain ⟨h1, -, -, -⟩ := find_some h
  have hpos : s.pos + (t + 1 - s.pos) = t + 1 := by omega
  have hg : getResponse c 0xfe s = (0, s.idle (t + 1 - s.pos)) := getResponse_found c 0xfe s h ht
  unfold sdRevData
  rw [bind_of hg]
  simp only [ne_eq, not_true_eq_false, if_false]
  rw [bind_of (recvBytes_run c _ _ _), bind_of (sendBytes_run c _ _)]
  simp only [pure_run, idle_pos, idle_mem, hpos, withMem_send, ← idle_idle]
  rfl

/-- The token came with the last byte of the wait, which `GetResponse` takes for a time-out. -/
theorem sdRevData_late (c : Card) (buf len : ℕ) (s : State)
    (h : tokenFrom c s.pos = some (s.pos + 0xffff)) :
    sdRevData c buf len s = (0xff, s.idle 0x10000) := by
  unfold sdRevData
  rw [bind_of (getResponse_late c 0xfe s h)]
  rfl

/-- No token at all: `count` has wrapped to `0xffff`, and whatever comes next is stored. -/
theorem sdRevData_silent (c : Card) (buf len : ℕ) (s : State) (h : tokenFrom c s.pos = none) :
    sdRevData c buf len s = (0, (s.idle (0x10000 + len + 2)).withMem
      (store s.mem buf len fun i => c.miso (s.pos + 0x10000 + i))) := by
  have hg : getResponse c 0xfe s = (0, s.idle 0x10000) := getResponse_silent c 0xfe s h
  unfold sdRevData
  rw [bind_of hg]
  simp only [ne_eq, not_true_eq_false, if_false]
  rw [bind_of (recvBytes_run c _ _ _), bind_of (sendBytes_run c _ _)]
  simp only [pure_run, idle_pos, idle_mem, withMem_send, ← idle_idle]
  rfl

end MultiEmbedded.Sd
