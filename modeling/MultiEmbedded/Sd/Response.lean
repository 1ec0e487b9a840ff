import MultiEmbedded.Sd.Read

/-!
# Waiting for a byte: GetResponse, SD_RevData, SD_GetCSD, SD_GetCID

The post-decrement of `count` leaves 0 after a match at the last poll and
`0xffff` after 65536 misses, while the verdict tests for 0. The contracts below
say what the verdict and the data functions built on it owe their callers; each
theorem gives the streams on which the code keeps them.
-/

namespace MultiEmbedded.Sd
open Search

def NoMatch (c : Card) (response : Byte) (p n : ℕ) : Prop :=
  ∀ k, p ≤ k → k < p + n → c.miso k ≠ response

/- The awaited byte among those read decides the verdict, and at most 65536 are read. -/
structure ResponseContract (c : Card) (response : Byte) (s : State) : Prop where
  reads : (getResponse c response s).2.pos ≤ s.pos + 0x10000
  success : (getResponse c response s).1 = MSD_RESPONSE_NO_ERROR ↔
    ∃ k, s.pos ≤ k ∧ k < (getResponse c response s).2.pos ∧ c.miso k = response
  failure : (getResponse c response s).1 = MSD_RESPONSE_FAILURE ↔
    ¬ ∃ k, s.pos ≤ k ∧ k < (getResponse c response s).2.pos ∧ c.miso k = response

theorem find_response {c : Card} {response : Byte} {n p t : ℕ}
    (h : find (fun b => b == response) c.miso n p = some t) :
    p ≤ t ∧ t < p + n ∧ c.miso t = response ∧ NoMatch c response p (t - p) := by
  obtain ⟨h1, h2, h3, h4⟩ := find_some h
  have hnone : NoMatch c response p (t - p) := by
    intro k hk1 hk2 heq
    have hk := h4 k hk1 (by omega)
    rw [heq, beq_self_eq_true] at hk
    cases hk
  exact ⟨h1, h2, by simpa using h3, hnone⟩

theorem find_response_none {c : Card} {response : Byte} {n p : ℕ}
    (h : find (fun b => b == response) c.miso n p = none) : NoMatch c response p n := by
  intro k hk1 hk2 heq
  have hk := find_none h k hk1 hk2
  rw [heq, beq_self_eq_true] at hk
  cases hk

/- Whether the byte comes before the last poll is all that matters. -/
theorem getResponse_contract (c : Card) (response : Byte) (s : State) :
    ResponseContract c response s ↔ ∃ k, k < 0xffff ∧ c.miso (s.pos + k) = response := by
  have hne : MSD_RESPONSE_FAILURE ≠ MSD_RESPONSE_NO_ERROR := by decide
  cases h : find (fun b => b == response) c.miso 0x10000 s.pos with
  | none =>
    -- 65536 misses: reported as success
    have hmiss := find_response_none h
    have hrun := getResponse_silent c response s h
    refine iff_of_false (fun hc => ?_) ?_
    · obtain ⟨k, hk1, hk2, hk3⟩ := hc.success.mp (by rw [hrun])
      rw [hrun] at hk2
      exact hmiss k hk1 (by simpa using hk2) hk3
    · rintro ⟨k, hk, heq⟩
      exact hmiss (s.pos + k) (by omega) (by omega) heq
  | some t =>
    obtain ⟨h1, h2, h3, h4⟩ := find_response h
    by_cases ht : t < s.pos + 0xffff
    · have hrun := getResponse_found c response s h ht
      have hpos : (s.idle (t + 1 - s.pos)).pos = t + 1 := by
        rw [idle_pos]
        omega
      have hread : ∃ k, s.pos ≤ k ∧ k < t + 1 ∧ c.miso k = response := ⟨t, h1, by omega, h3⟩
      refine iff_of_true ⟨?_, ?_, ?_⟩ ⟨t - s.pos, by omega, ?_⟩
      · rw [hrun, hpos]
        omega
      · rw [hrun, hpos]
        exact iff_of_true rfl hread
      · rw [hrun, hpos]
        exact iff_of_false hne.symm (not_not_intro hread)
      · rw [Nat.add_sub_cancel' h1, h3]
    · -- a match at the last poll: reported as failure
      have hlast : t = s.pos + 0xffff := by omega
      have hrun := getResponse_late c response s (by rw [h, hlast])
      refine iff_of_false (fun hc => ?_) ?_
      · refine hc.failure.mp (by rw [hrun]) ⟨t, h1, ?_, h3⟩
        rw [hrun, idle_pos]
        exact h2
      · rintro ⟨k, hk, heq⟩
        exact h4 (s.pos + k) (by omega) (by omega) heq

/-! ### Data behind a start token -/

/-- A start token comes within the 65536 polls that begin at exchange `p`. -/
def TokenWithin (c : Card) (p : ℕ) : Prop := ∃ t, p ≤ t ∧ t < p + 0x10000 ∧ c.miso t = 0xfe

/- `mem'` is `mem`, or holds `len` bytes that stood behind a start token of the wait at `p`. -/
def FilledFrom (c : Card) (p buf len : ℕ) (mem mem' : ℕ → Byte) : Prop :=
  mem' = mem ∨ ∃ t, p ≤ t ∧ t < p + 0x10000 ∧ c.miso t = 0xfe ∧
    mem' = store mem buf len fun i => c.miso (t + 1 + i)

theorem tokenWithin_iff (c : Card) (p : ℕ) : TokenWithin c p ↔ (tokenFrom c p).isSome := by
  cases h : tokenFrom c p with
  | none =>
    have hmiss : NoMatch c 0xfe p 0x10000 := find_response_none h
    simp only [Option.isSome_none, Bool.false_eq_true, iff_false]
    rintro ⟨t, h1, h2, h3⟩
    exact hmiss t h1 h2 h3
  | some t =>
    obtain ⟨h1, h2, h3, -⟩ : p ≤ t ∧ t < p + 0x10000 ∧ c.miso t = 0xfe ∧ _ := find_response h
    simp only [Option.isSome_some, iff_true]
    exact ⟨t, h1, h2, h3⟩

/- With a token in the wait the data, if any is stored, is the token's. -/
theorem sdRevData_within (c : Card) (buf len : ℕ) (s : State) (h : TokenWithin c s.pos) :
    FilledFrom c s.pos buf len s.mem (sdRevData c buf len s).2.mem := by
  rw [tokenWithin_iff] at h
  obtain ⟨t, ht⟩ := Option.isSome_iff_exists.mp h
  obtain ⟨h1, h2, h3, -⟩ : s.pos ≤ t ∧ t < s.pos + 0x10000 ∧ c.miso t = 0xfe ∧ _ :=
    find_response ht
  by_cases hin : t < s.pos + 0xffff
  · rw [sdRevData_token c buf len s ht hin]
    exact Or.inr ⟨t, h1, h2, h3, rfl⟩
  · have hlast : t = s.pos + 0xffff := by omega
    rw [hlast] at ht
    rw [sdRevData_late c buf len s ht]
    exact Or.inl rfl

/- Without one it reports success all the same. -/
theorem sdRevData_without (c : Card) (buf len : ℕ) (s : State) (h : ¬ TokenWithin c s.pos) :
    (sdRevData c buf len s).1 = 0 := by
  rw [tokenWithin_iff, Option.not_isSome_iff_eq_none] at h
  rw [sdRevData_silent c buf len s h]

structure RevContract (c : Card) (buf len : ℕ) (s : State) : Prop where
  filled : FilledFrom c s.pos buf len s.mem (sdRevData c buf len s).2.mem
  silent : ¬ TokenWithin c s.pos → (sdRevData c buf len s).1 = 0xff

theorem sdRevData_contract (c : Card) (buf len : ℕ) (s : State) :
    RevContract c buf len s ↔ TokenWithin c s.pos := by
  by_cases h : TokenWithin c s.pos
  · exact iff_of_true ⟨sdRevData_within c buf len s h, fun hn => absurd h hn⟩ h
  · refine iff_of_false (fun hc => ?_) h
    have hbad := hc.silent h
    rw [sdRevData_without c buf len s h] at hbad
    exact absurd hbad (by decide)

/-! ### The registers -/

/- What a register read owes: data only from behind the token that follows the accepted
command, and a failure when there is none. `r` is the exchange that carried `R1 = 0`. -/
structure RegisterContract (c : Card) (buf : ℕ) (s : State) (out : Byte × State) : Prop where
  filled : out.2.mem = s.mem ∨ ∃ r, R1Within c s 30 r ∧ TokenWithin c (r + 1) ∧
    FilledFrom c (r + 1) buf 16 s.mem out.2.mem
  silent : (¬ ∃ r, R1Within c s 30 r ∧ TokenWithin c (r + 1)) → out.1 = 0xff

theorem getRegister_refused (c : Card) (cmd : Byte) (buf : ℕ) {s s1 : State} {e : Byte}
    (h1 : sendCmd c cmd 0 0x01 s = (e, s1)) (he : e ≠ 0) :
    getRegister c cmd buf s = (0xff, (s1.idle 1).withPins true (c.miso s1.pos)) := by
  unfold getRegister
  rw [bind_of h1]
  simp only [he, if_false]
  rw [bind_of (pure_run e s1), bind_of (sdDisSel_run c s1)]
  simp only [he, ne_eq, not_false_eq_true, if_true]
  rfl

theorem getRegister_accepted (c : Card) (cmd : Byte) (buf : ℕ) {s s1 s2 : State} {e : Byte}
    (h1 : sendCmd c cmd 0 0x01 s = (0, s1)) (h2 : sdRevData c buf 16 s1 = (e, s2)) :
    getRegister c cmd buf s =
      (if e ≠ 0 then 0xff else 0, (s2.idle 1).withPins true (c.miso s2.pos)) := by
  unfold getRegister
  rw [bind_of h1]
  simp only [if_true]
  rw [bind_of h2, bind_of (sdDisSel_run c s2)]
  rfl

theorem getRegister_contract (c : Card) (cmd : Byte) (hcmd : cmd ≠ CMD12) (buf : ℕ) (s : State) :
    RegisterContract c buf s (getRegister c cmd buf s) ↔
      ∀ r, R1Within c s 30 r → TokenWithin c (r + 1) := by
  have hlen : (cmdBytes cmd 0 0x01).length = 6 := by
    rw [cmdBytes_length, if_neg hcmd]
  obtain ⟨s1, hrun, hadv⟩ := sendCmd_run c cmd 0 0x01 s
  rw [hlen] at hrun hadv
  by_cases hzero : ∃ r, R1Within c s 30 r
  · obtain ⟨r, hr⟩ := hzero
    have hpos : s1.pos = r + 1 := by
      rw [hadv.pos, cmdEnd_of_R1 (hr.mono (by omega))]
    rw [(cmdValue_zero c s).mpr ⟨r, hr⟩] at hrun
    have hout := getRegister_accepted c cmd buf hrun
      (show sdRevData c buf 16 s1 = ((sdRevData c buf 16 s1).1, (sdRevData c buf 16 s1).2) from rfl)
    by_cases htok : TokenWithin c (r + 1)
    · have hfill := sdRevData_within c buf 16 s1 (by rw [hpos]; exact htok)
      rw [hpos, hadv.mem] at hfill
      refine iff_of_true ⟨Or.inr ⟨r, hr, htok, ?_⟩, fun hn => absurd ⟨r, hr, htok⟩ hn⟩ ?_
      · rw [hout]
        exact hfill
      · intro r' hr'
        rw [hr'.unique hr]
        exact htok
    · refine iff_of_false (fun hc => ?_) fun hall => htok (hall r hr)
      have hbad := hc.silent (by
        rintro ⟨r', hr', htok'⟩
        rw [hr'.unique hr] at htok'
        exact htok htok')
      rw [hout, sdRevData_without c buf 16 s1 (by rw [hpos]; exact htok)] at hbad
      exact absurd hbad (show ¬ ((0 : Byte) = 0xff) by decide)
  · have hne : cmdValue c s.stackReads s.pos 6 ≠ 0 := fun h0 => hzero ((cmdValue_zero c s).mp h0)
    have hout := getRegister_refused c cmd buf hrun hne
    refine iff_of_true ⟨Or.inl ?_, fun _ => ?_⟩ fun r hr => absurd ⟨r, hr⟩ hzero
    · rw [hout]
      exact hadv.mem
    · rw [hout]

/- All four functions: each is right on exactly these streams. -/
theorem getResponse_callers_iff (c : Card) (s : State) :
    (∀ response, ResponseContract c response s ↔
      ∃ k, k < 0xffff ∧ c.miso (s.pos + k) = response) ∧
    (∀ buf len, RevContract c buf len s ↔ TokenWithin c s.pos) ∧
    (∀ buf, RegisterContract c buf s (sdGetCSD c buf s) ↔
      ∀ r, R1Within c s 30 r → TokenWithin c (r + 1)) ∧
    ∀ cid_data, RegisterContract c cid_data s (sdGetCID c cid_data s) ↔
      ∀ r, R1Within c s 30 r → TokenWithin c (r + 1) :=
  ⟨fun response => getResponse_contract c response s,
    fun buf len => sdRevData_contract c buf len s,
    fun buf => getRegister_contract c CMD9 (by decide) buf s,
    fun cid_data => getRegister_contract c CMD10 (by decide) cid_data s⟩

/- The card that accepts the command and then stays silent: a CSD is reported all the same. -/
theorem getResponse_silentCard : ¬ RegisterContract silentCard 0 powerUp (sdGetCSD silentCard 0 powerUp) := by
  intro hcsd
  obtain ⟨t, h1, h2, h3⟩ :=
    (getRegister_contract silentCard CMD9 (by decide) 0 powerUp).mp hcsd 8 silentCard_R1
  have hmiss : NoMatch silentCard 0xfe 9 0x10000 := find_response_none silentCard_token
  exact hmiss t h1 h2 h3

end MultiEmbedded.Sd
