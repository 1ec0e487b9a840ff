import MultiEmbedded.Sd.Read

/-!
# SendCmd

The bytes of a command, and the answer to it among the 31 polls that follow. The
countdown reaches 0 at the last poll and then overrides what that poll has read.
-/

namespace MultiEmbedded.Sd
open Search

/-- From exchange `p` on the card says ready for the first time at `j`. -/
structure ReadyFirst (c : Card) (p j : ℕ) : Prop where
  start : p ≤ j
  ready : c.miso j = 0xff
  busy : ∀ k, p ≤ k → k < j → c.miso k ≠ 0xff

def Silent (c : Card) (q n : ℕ) : Prop := ∀ i < n, c.miso (q + i) = 0xff

/- The exchange of the first poll for an answer. -/
def answerFrom (cmd : Byte) (arg : Word) (crc : Byte) (j : ℕ) : ℕ := j + 1 + (cmdBytes cmd arg crc).length

structure CommandContract (c : Card) (cmd : Byte) (arg : Word) (crc : Byte) (s : State) (j : ℕ) : Prop where
  bytes : ∃ n ≤ 31, (sendCmd c cmd arg crc s).2.sent =
    s.sent ++ List.replicate (j + 1 - s.pos) 0xff ++ cmdBytes cmd arg crc ++ List.replicate n 0xff
  first : ∀ i < 31, Silent c (answerFrom cmd arg crc j) i → c.miso (answerFrom cmd arg crc j + i) ≠ 0xff →
    (sendCmd c cmd arg crc s).1 = c.miso (answerFrom cmd arg crc j + i)
  none : (sendCmd c cmd arg crc s).1 = 0xff → Silent c (answerFrom cmd arg crc j) 31

theorem readyAt_first {c : Card} {k p j : ℕ} (h : ReadyFirst c p j) (hlim : j < p + waitLimit (c.stack k)) :
    readyAt c k p = some j := by
  apply find_of_first h.start hlim
  · show (c.miso j == 0xff) = true
    rw [h.ready]
    rfl
  · intro i hi hij
    exact beq_eq_false_iff_ne.mpr (h.busy i hi hij)

theorem readyAt_late {c : Card} {k p j : ℕ} (h : ReadyFirst c p j) (hlim : p + waitLimit (c.stack k) ≤ j) :
    readyAt c k p = none := by
  apply find_eq_none
  intro i hi hij
  exact beq_eq_false_iff_ne.mpr (h.busy i hi (Nat.lt_of_lt_of_le hij hlim))

theorem cmdBytes_six (cmd : Byte) (arg : Word) (crc : Byte) : 6 ≤ (cmdBytes cmd arg crc).length := by
  unfold cmdBytes
  rw [List.length_append]
  exact Nat.le_add_right 6 _

theorem polled_le (c : Card) (q : ℕ) : polled c q ≤ 31 := by
  unfold polled
  cases h : find isResponse c.miso 31 q with
  | none => exact Nat.le_refl 31
  | some r =>
    have hlt := (find_some h).2.1
    show r + 1 - q ≤ 31
    omega

/- An answer within 30 polls is the first byte that is not 0xff. -/
theorem reply_some {c : Card} {q r : ℕ} (h : find isResponse c.miso 30 q = some r) :
    c.miso r ≠ 0xff ∧ ∀ i, Silent c q i → c.miso (q + i) ≠ 0xff → q + i = r := by
  obtain ⟨hq, _, hr, hbefore⟩ := find_some h
  have hne : c.miso r ≠ 0xff := bne_iff_ne.mp hr
  refine ⟨hne, fun i hsilent hi => ?_⟩
  rcases Nat.lt_trichotomy (q + i) r with hlt | heq | hgt
  · have hmiss := hbefore (q + i) (Nat.le_add_right q i) hlt
    exact absurd (bne_eq_false_iff_eq.mp hmiss) hi
  · exact heq
  · have hff := hsilent (r - q) (by omega)
    rw [Nat.add_sub_cancel' hq] at hff
    exact absurd hff hne

theorem silent_of_none {c : Card} {q n : ℕ} (h : find isResponse c.miso n q = none) : Silent c q n := by
  intro i hi
  exact bne_eq_false_iff_eq.mp (find_none h (q + i) (Nat.le_add_right q i) (by omega))

/- The two reasons for which the contract is broken: the wait for ready ends too
early, or the answer comes at the last poll. -/
theorem sendCmd_contract_iff (c : Card) (cmd : Byte) (arg : Word) (crc : Byte) (s : State) (j : ℕ)
    (hj : ReadyFirst c (s.pos + 1) j) :
    CommandContract c cmd arg crc s j ↔ j < s.pos + 1 + waitLimit (c.stack s.stackReads) ∧
      ¬ (Silent c (answerFrom cmd arg crc j) 30 ∧ c.miso (answerFrom cmd arg crc j + 30) ≠ 0xff) := by
  have hstart := hj.start
  by_cases hlim : j < s.pos + 1 + waitLimit (c.stack s.stackReads)
  · have hrun := sendCmd_ready c cmd arg crc s (readyAt_first hj hlim)
    have hbytes : ∃ n ≤ 31, (sendCmd c cmd arg crc s).2.sent =
        s.sent ++ List.replicate (j + 1 - s.pos) 0xff ++ cmdBytes cmd arg crc ++ List.replicate n 0xff := by
      refine ⟨polled c (answerFrom cmd arg crc j), polled_le c _, ?_⟩
      rw [hrun]
      rfl
    have hcode : (sendCmd c cmd arg crc s).1 = reply c (answerFrom cmd arg crc j) := by
      rw [hrun]
      rfl
    cases hfind : find isResponse c.miso 30 (answerFrom cmd arg crc j) with
    | some r =>
      obtain ⟨hne, hfirst⟩ := reply_some hfind
      have hvalue : reply c (answerFrom cmd arg crc j) = c.miso r := by
        unfold reply
        rw [hfind]
      obtain ⟨hge, hlt, -, -⟩ := find_some hfind
      apply iff_of_true
      · refine ⟨hbytes, fun i _ hsilent hi => ?_, fun hff => ?_⟩
        · rw [hcode, hvalue, hfirst i hsilent hi]
        · rw [hcode, hvalue] at hff
          exact absurd hff hne
      · refine ⟨hlim, fun hlast => ?_⟩
        have hff := hlast.1 (r - answerFrom cmd arg crc j) (by omega)
        rw [Nat.add_sub_cancel' hge] at hff
        exact hne hff
    | none =>
      have hsilent := silent_of_none hfind
      have hvalue : reply c (answerFrom cmd arg crc j) = 0xff := by
        unfold reply
        rw [hfind]
      by_cases hlast : c.miso (answerFrom cmd arg crc j + 30) = 0xff
      · have hall : Silent c (answerFrom cmd arg crc j) 31 := by
          intro i hi
          rcases Nat.lt_or_eq_of_le (Nat.le_of_lt_succ hi) with hlt | rfl
          · exact hsilent i hlt
          · exact hlast
        apply iff_of_true
        · exact ⟨hbytes, fun i hi _ hne => absurd (hall i hi) hne, fun _ => hall⟩
        · exact ⟨hlim, fun h => h.2 hlast⟩
      · apply iff_of_false
        · intro h
          exact hlast (h.none (hcode.trans hvalue) 30 (by decide))
        · intro h
          exact h.2 ⟨hsilent, hlast⟩
  · -- no byte of the command is sent
    have hrun := sendCmd_busy c cmd arg crc s (readyAt_late hj (by omega))
    have hsix := cmdBytes_six cmd arg crc
    apply iff_of_false
    · intro h
      obtain ⟨n, _, hsent⟩ := h.bytes
      rw [hrun] at hsent
      have hlen := congrArg List.length hsent
      have hpos : s.pos = s.sent.length := rfl
      simp only [withPins_sent, State.idle, State.send, State.readStack, List.length_append,
        List.length_replicate] at hlen
      omega
    · intro h
      exact hlim h.1

/- CMD0 to a card that answers 0x01 at the second poll, and to one that answers at the 31st. -/
def answering (n : ℕ) : Card where
  miso i := if i = n then 0x01 else 0xff
  stack _ := 0

theorem answering_ready (n : ℕ) (hn : 1 < n) : ReadyFirst (answering n) (powerUp.pos + 1) 1 := by
  refine ⟨Nat.le_refl 1, if_neg (Nat.ne_of_lt hn), fun k h1 h2 => ?_⟩
  exact absurd h2 (Nat.not_lt.mpr h1)

theorem sendCmd_contract_iff_answering :
    CommandContract (answering 9) CMD0 0 0x95 powerUp 1 ↔
      1 < powerUp.pos + 1 + waitLimit ((answering 9).stack powerUp.stackReads) ∧
        ¬ (Silent (answering 9) (answerFrom CMD0 0 0x95 1) 30 ∧
          (answering 9).miso (answerFrom CMD0 0 0x95 1 + 30) ≠ 0xff) :=
  sendCmd_contract_iff (answering 9) CMD0 0 0x95 powerUp 1 (answering_ready 9 (by decide))

theorem sendCmd_lastPoll : ¬ CommandContract (answering 38) CMD0 0 0x95 powerUp 1 := by
  intro h
  have hsilent : Silent (answering 38) (answerFrom CMD0 0 0x95 1) 30 := by
    intro i hi
    exact if_neg (show 8 + i ≠ 38 by omega)
  have hcode := h.first 30 (by decide) hsilent (by decide)
  have hrun := sendCmd_ready (answering 38) CMD0 0 0x95 powerUp
    (readyAt_first (answering_ready 38 (by decide)) (Nat.lt_add_of_pos_right (waitLimit_pos _)))
  rw [hrun] at hcode
  exact absurd (show (0xff : Byte) = 0x01 from hcode) (by decide)

end MultiEmbedded.Sd
