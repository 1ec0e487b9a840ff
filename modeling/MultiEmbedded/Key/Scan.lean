import Mathlib.Data.Nat.Notation
import Mathlib.Tactic.Common

/-!
# The key (board/key/key.c, board/Process)

The timer interrupt runs the tasks, every fifth tick the key is scanned, and the
scans for which it is held are counted in 16 bits. A pressed key reads 0.
-/

namespace MultiEmbedded.Key

structure State where
  SR : BitVec 16
  TimeMs_Led : BitVec 16
  KeyDown : BitVec 8
  Keycnt : BitVec 16
  KeyTime : BitVec 16

/-- `mode` is not read and the result is always 0. -/
def keyScan (key1 : Bool) (s : State) : State :=
  if key1 = false then { s with KeyDown := 1, Keycnt := s.Keycnt + 1 }
  else
    let s :=
      if s.KeyDown = 1 then
        let s := { s with KeyDown := 0 }
        if s.Keycnt > 10 then { s with KeyTime := s.Keycnt } else s
      else s
    { s with Keycnt := 0 }

def taskProcess (key1 : Bool) (s : State) : State :=
  let s := { s with TimeMs_Led := s.TimeMs_Led + 1 }
  if s.TimeMs_Led = 5 then keyScan key1 { s with TimeMs_Led := 0 } else s

def tim3IrqHandler (key1 : Bool) (s : State) : State :=
  let s := if s.SR &&& 0x0001 ≠ 0 then taskProcess key1 s else s
  { s with SR := s.SR &&& ~~~0x0001 }

/-- The timer raises its flag and the interrupt is taken. -/
def tick (key1 : Bool) (s : State) : State := tim3IrqHandler key1 { s with SR := s.SR ||| 0x0001 }

/-- The state after `n` ticks. The key has `level n` at the tick after them. -/
def after (level : ℕ → Bool) : ℕ → State
  | 0 => ⟨0, 0, 0, 0, 0⟩
  | n + 1 => tick (level n) (after level n)

/-! ### Presses -/

/- The level at the `k`-th scan. -/
def scans (level : ℕ → Bool) (k : ℕ) : Bool := level (5 * k + 4)

/-- Among the first `m` scans, a press of `len` scans that is over at scan `e`. -/
structure CompletedPress (scan : ℕ → Bool) (m e len : ℕ) : Prop where
  done : e < m
  released : scan e = true
  pos : 0 < len
  fits : len ≤ e
  held : ∀ i, e - len ≤ i → i < e → scan i = false
  first : len = e ∨ scan (e - len - 1) = true

/-- `t` is the length of the last press of more than 10 scans, or 0 without one. -/
def Shows (scan : ℕ → Bool) (m t : ℕ) : Prop :=
  (t = 0 ∧ ∀ e len, CompletedPress scan m e len → len ≤ 10) ∨
    ∃ e, CompletedPress scan m e t ∧ 10 < t ∧
      ∀ e' len, CompletedPress scan m e' len → 10 < len → e' ≤ e

/- The scans for which the key has been held so far. -/
def heldFor (scan : ℕ → Bool) : ℕ → ℕ
  | 0 => 0
  | m + 1 => if scan m = false then heldFor scan m + 1 else 0

variable {scan : ℕ → Bool}

theorem heldFor_le (m : ℕ) : heldFor scan m ≤ m := by
  induction m with
  | zero => exact Nat.le_refl 0
  | succ m ih =>
    unfold heldFor
    split <;> omega

theorem heldFor_held {m i : ℕ} (hi : m - heldFor scan m ≤ i) (him : i < m) : scan i = false := by
  induction m with
  | zero => exact absurd him (Nat.not_lt_zero i)
  | succ m ih =>
    unfold heldFor at hi
    by_cases hm : scan m = false
    · rw [if_pos hm] at hi
      rcases Nat.lt_or_eq_of_le (Nat.le_of_lt_succ him) with hlt | rfl
      · exact ih (by omega) hlt
      · exact hm
    · rw [if_neg hm] at hi
      omega

theorem heldFor_first (m : ℕ) : heldFor scan m = m ∨ scan (m - heldFor scan m - 1) = true := by
  induction m with
  | zero => exact Or.inl rfl
  | succ m ih =>
    unfold heldFor
    by_cases hm : scan m = false
    · rw [if_pos hm]
      rcases ih with hall | hrel
      · exact Or.inl (by rw [hall])
      · right
        have hidx : m + 1 - (heldFor scan m + 1) - 1 = m - heldFor scan m - 1 := by omega
        rw [hidx]
        exact hrel
    · rw [if_neg hm]
      exact Or.inr (by simpa using hm)

/- A press is determined by the scan at which it is over. -/
theorem completedPress_iff (m e len : ℕ) :
    CompletedPress scan m e len ↔ e < m ∧ scan e = true ∧ 0 < len ∧ len = heldFor scan e := by
  have hle : heldFor scan e ≤ e := heldFor_le e
  constructor
  · intro h
    refine ⟨h.done, h.released, h.pos, ?_⟩
    have hfits := h.fits
    rcases Nat.lt_trichotomy len (heldFor scan e) with hlt | heq | hgt
    · rcases h.first with hall | hrel
      · omega
      · have hheld : scan (e - len - 1) = false := heldFor_held (m := e) (by omega) (by omega)
        rw [hheld] at hrel
        cases hrel
    · exact heq
    · have hstart : heldFor scan e = e ∨ scan (e - heldFor scan e - 1) = true := heldFor_first e
      rcases hstart with hall | hrel
      · omega
      · rw [h.held _ (by omega) (by omega)] at hrel
        cases hrel
  · rintro ⟨hdone, hrel, hpos, rfl⟩
    exact ⟨hdone, hrel, hpos, hle, fun i h1 h2 => heldFor_held h1 h2, heldFor_first e⟩

theorem completedPress_succ (m e len : ℕ) : CompletedPress scan (m + 1) e len ↔
    CompletedPress scan m e len ∨ (e = m ∧ scan m = true ∧ 0 < len ∧ len = heldFor scan m) := by
  rw [completedPress_iff, completedPress_iff]
  constructor
  · rintro ⟨hdone, hrest⟩
    rcases Nat.lt_or_eq_of_le (Nat.le_of_lt_succ hdone) with hlt | rfl
    · exact Or.inl ⟨hlt, hrest⟩
    · exact Or.inr ⟨rfl, hrest⟩
  · rintro (⟨hdone, hrest⟩ | ⟨rfl, hrest⟩)
    · exact ⟨Nat.lt_succ_of_lt hdone, hrest⟩
    · exact ⟨Nat.lt_succ_self e, hrest⟩

/- A scan that ends no long press keeps what is shown. -/
theorem Shows.keep {m t : ℕ} (h : Shows scan m t) (hend : scan m = true → heldFor scan m ≤ 10) :
    Shows scan (m + 1) t := by
  rcases h with ⟨rfl, hnone⟩ | ⟨e, hpress, hlong, hlast⟩
  · left
    refine ⟨rfl, fun e len hp => ?_⟩
    rcases (completedPress_succ m e len).mp hp with hold | ⟨_, hrel, _, rfl⟩
    · exact hnone e len hold
    · exact hend hrel
  · right
    refine ⟨e, (completedPress_succ m e t).mpr (Or.inl hpress), hlong, fun e' len hp hl => ?_⟩
    rcases (completedPress_succ m e' len).mp hp with hold | ⟨_, hrel, _, rfl⟩
    · exact hlast e' len hold hl
    · have hshort := hend hrel
      omega

theorem shows_new {m : ℕ} (hrel : scan m = true) (hlong : 10 < heldFor scan m) :
    Shows scan (m + 1) (heldFor scan m) := by
  right
  refine ⟨m, (completedPress_succ m m _).mpr (Or.inr ⟨rfl, hrel, by omega, rfl⟩), hlong, ?_⟩
  intro e' len hp _
  exact Nat.le_of_lt_succ hp.done

/- A press of 65536 scans or more is never what 16 bits show when it is over. -/
theorem not_shows_long {e len : ℕ} {t : BitVec 16} (hp : CompletedPress scan (e + 1) e len) (hlen : 65536 ≤ len) :
    ¬ Shows scan (e + 1) t.toNat := by
  have ht := t.isLt
  rintro (⟨_, hnone⟩ | ⟨e', hpress, _, hlast⟩)
  · have hshort := hnone e len hp
    omega
  · have hle := hlast e len hp (by omega)
    have hlt := hpress.done
    obtain rfl : e' = e := by omega
    have hlen₁ := ((completedPress_iff _ _ _).mp hpress).2.2.2
    have hlen₂ := ((completedPress_iff _ _ _).mp hp).2.2.2
    omega

/-! ### The counters -/

/- What the counters hold after `m` scans. -/
structure Counts (scan : ℕ → Bool) (m : ℕ) (s : State) : Prop where
  down : s.KeyDown = if heldFor scan m = 0 then 0 else 1
  count : s.Keycnt.toNat = heldFor scan m % 65536

theorem keyScan_counts {m : ℕ} {s : State} (h : Counts scan m s) : Counts scan (m + 1) (keyScan (scan m) s) := by
  have hone : BitVec.toNat (1 : BitVec 16) = 1 := rfl
  unfold keyScan
  cases hm : scan m with
  | false =>
    have hheld : heldFor scan (m + 1) = heldFor scan m + 1 := if_pos hm
    rw [if_pos rfl]
    constructor
    · rw [hheld, if_neg (Nat.succ_ne_zero _)]
    · show (s.Keycnt + 1).toNat = _
      rw [hheld, BitVec.toNat_add, h.count, hone]
      omega
  | true =>
    have hheld : heldFor scan (m + 1) = 0 := if_neg (by rw [hm]; decide)
    rw [if_neg (by decide)]
    constructor
    · rw [hheld, if_pos rfl]
      by_cases hdown : s.KeyDown = 1
      · simp only [hdown, if_true]
        split <;> rfl
      · simp only [hdown, if_false]
        have hzero := h.down
        split at hzero
        · exact hzero
        · exact absurd hzero hdown
    · rw [hheld]
      rfl

/- What a scan makes of KeyTime. -/
theorem keyScan_keyTime {m : ℕ} {s : State} (h : Counts scan m s) : (keyScan (scan m) s).KeyTime =
    if scan m = true ∧ 10 < heldFor scan m % 65536 then s.Keycnt else s.KeyTime := by
  have hlong : s.Keycnt > 10 ↔ 10 < heldFor scan m % 65536 := by
    rw [← h.count]
    exact Iff.rfl
  unfold keyScan
  cases hm : scan m with
  | false => rfl
  | true =>
    rw [if_neg (by decide)]
    by_cases hdown : s.KeyDown = 1
    · simp only [hdown, if_true, hlong, true_and]
      split <;> rfl
    · have hzero : heldFor scan m = 0 := by
        by_contra hne
        exact hdown (h.down.trans (if_neg hne))
      simp only [hdown, if_false, hzero, true_and]
      rfl

theorem keyScan_shows {m : ℕ} {s : State} (h : Counts scan m s) (hs : Shows scan m s.KeyTime.toNat)
    (hbound : scan m = true → heldFor scan m < 65536) :
    Shows scan (m + 1) (keyScan (scan m) s).KeyTime.toNat := by
  rw [keyScan_keyTime h]
  split
  · rename_i hend
    have hlt := hbound hend.1
    rw [Nat.mod_eq_of_lt hlt] at hend
    rw [h.count, Nat.mod_eq_of_lt hlt]
    exact shows_new hend.1 hend.2
  · rename_i hend
    apply hs.keep
    intro hrel
    have hlt := hbound hrel
    rw [Nat.mod_eq_of_lt hlt] at hend
    exact Nat.le_of_not_lt fun hlong => hend ⟨hrel, hlong⟩

/-! ### Ticks -/

theorem keyScan_led (key1 : Bool) (s : State) : (keyScan key1 s).TimeMs_Led = s.TimeMs_Led := by
  unfold keyScan
  split
  · rfl
  · dsimp only
    split
    · split <;> rfl
    · rfl

def State.withSR (s : State) (sr : BitVec 16) : State := { s with SR := sr }

/- The flag is set at every tick, so that the tasks run. -/
theorem tick_eq (key1 : Bool) (s : State) :
    ∃ sr, tick key1 s = (taskProcess key1 (s.withSR (s.SR ||| 0x0001))).withSR sr := by
  have hflag : (s.SR ||| 0x0001) &&& 0x0001 ≠ 0 := by
    intro h
    have hbit := congrArg (fun x : BitVec 16 => x.getLsbD 0) h
    simp at hbit
  refine ⟨(taskProcess key1 (s.withSR (s.SR ||| 0x0001))).SR &&& ~~~0x0001, ?_⟩
  unfold tick tim3IrqHandler
  rw [if_pos hflag]
  rfl

theorem tick_idle {s : State} (h : s.TimeMs_Led + 1 ≠ 5) (key1 : Bool) :
    ∃ sr, tick key1 s = { s with SR := sr, TimeMs_Led := s.TimeMs_Led + 1 } := by
  obtain ⟨sr, htick⟩ := tick_eq key1 s
  refine ⟨sr, htick.trans ?_⟩
  unfold taskProcess
  rw [if_neg (by exact h)]
  rfl

theorem tick_scan {s : State} (h : s.TimeMs_Led + 1 = 5) (key1 : Bool) :
    ∃ sr, tick key1 s =
      (keyScan key1 { s with SR := s.SR ||| 0x0001, TimeMs_Led := 0 }).withSR sr := by
  obtain ⟨sr, htick⟩ := tick_eq key1 s
  refine ⟨sr, htick.trans ?_⟩
  unfold taskProcess
  rw [if_pos (by exact h)]
  rfl

/- The state after `n` ticks: one scan every fifth tick. -/
structure Follows (level : ℕ → Bool) (n : ℕ) (s : State) : Prop where
  led : s.TimeMs_Led = BitVec.ofNat 16 (n % 5)
  counts : Counts (scans level) (n / 5) s

theorem led_last {n : ℕ} : BitVec.ofNat 16 (n % 5) + 1 = (5 : BitVec 16) ↔ n % 5 = 4 := by
  have hcases : ∀ r < 5, (BitVec.ofNat 16 r + 1 = (5 : BitVec 16) ↔ r = 4) := by decide
  exact hcases (n % 5) (Nat.mod_lt n (by decide))

variable {level : ℕ → Bool}

/- The two kinds of ticks. -/
theorem tick_cases {n : ℕ} {s : State} (h : Follows level n s) :
    ((n + 1) / 5 = n / 5 + 1 ∧ (n + 1) % 5 = 0 ∧ ∃ sr, tick (level n) s =
        (keyScan (scans level (n / 5)) { s with SR := s.SR ||| 0x0001, TimeMs_Led := 0 }).withSR sr) ∨
      ((n + 1) / 5 = n / 5 ∧ (n + 1) % 5 = n % 5 + 1 ∧
        ∃ sr, tick (level n) s = { s with SR := sr, TimeMs_Led := s.TimeMs_Led + 1 }) := by
  by_cases hlast : n % 5 = 4
  · have hled : s.TimeMs_Led + 1 = 5 := by
      rw [h.led]
      exact led_last.mpr hlast
    have hlevel : level n = scans level (n / 5) := by
      unfold scans
      rw [← hlast, Nat.div_add_mod]
    rw [← hlevel]
    exact Or.inl ⟨by omega, by omega, tick_scan hled (level n)⟩
  · have hled : s.TimeMs_Led + 1 ≠ 5 := by
      rw [h.led]
      exact fun heq => hlast (led_last.mp heq)
    exact Or.inr ⟨by omega, by omega, tick_idle hled (level n)⟩

theorem tick_follows {n : ℕ} {s : State} (h : Follows level n s) : Follows level (n + 1) (tick (level n) s) := by
  rcases tick_cases h with ⟨hdiv, hmod, sr, htick⟩ | ⟨hdiv, hmod, sr, htick⟩
  · have hcounts := keyScan_counts (s := { s with SR := s.SR ||| 0x0001, TimeMs_Led := 0 })
      ⟨h.counts.down, h.counts.count⟩
    rw [htick]
    constructor
    · rw [hmod]
      exact keyScan_led _ _
    · rw [hdiv]
      exact ⟨hcounts.down, hcounts.count⟩
  · rw [htick]
    constructor
    · rw [hmod, BitVec.ofNat_add, ← h.led]
      rfl
    · rw [hdiv]
      exact ⟨h.counts.down, h.counts.count⟩

theorem after_follows (n : ℕ) : Follows level n (after level n) := by
  induction n with
  | zero => exact ⟨rfl, rfl, rfl⟩
  | succ n ih => exact tick_follows ih

theorem tick_shows {n : ℕ} {s : State} (h : Follows level n s)
    (hs : Shows (scans level) (n / 5) s.KeyTime.toNat)
    (hbound : ∀ e len, CompletedPress (scans level) ((n + 1) / 5) e len → len < 65536) :
    Shows (scans level) ((n + 1) / 5) (tick (level n) s).KeyTime.toNat := by
  rcases tick_cases h with ⟨hdiv, _, sr, htick⟩ | ⟨hdiv, _, sr, htick⟩
  · rw [hdiv] at hbound ⊢
    rw [htick]
    apply keyScan_shows (s := { s with SR := s.SR ||| 0x0001, TimeMs_Led := 0 })
      ⟨h.counts.down, h.counts.count⟩ hs
    intro hrel
    rcases Nat.eq_zero_or_pos (heldFor (scans level) (n / 5)) with hzero | hpos
    · rw [hzero]
      decide
    · exact hbound (n / 5) _ ((completedPress_iff _ _ _).mpr ⟨Nat.lt_succ_self _, hrel, hpos, rfl⟩)
  · rw [htick, hdiv]
    exact hs

/-- KeyTime is right after each of `n` ticks exactly if every press that is over by
then was shorter than 65536 scans. -/
theorem keyTime_iff (level : ℕ → Bool) (n : ℕ) :
    (∀ k ≤ n, Shows (scans level) (k / 5) (after level k).KeyTime.toNat) ↔
      ∀ e len, CompletedPress (scans level) (n / 5) e len → len < 65536 := by
  constructor
  · intro hshows e len hp
    by_contra hlen
    have hdone := hp.done
    have hdiv : 5 * (e + 1) / 5 = e + 1 := Nat.mul_div_cancel_left _ (by decide)
    have hthen := hshows (5 * (e + 1)) (by omega)
    rw [hdiv] at hthen
    obtain ⟨_, hrest⟩ := (completedPress_iff _ _ _).mp hp
    have hover := (completedPress_iff (e + 1) e len).mpr ⟨Nat.lt_succ_self e, hrest⟩
    exact not_shows_long hover (by omega) hthen
  · intro hbound k hk
    induction k with
    | zero => exact Or.inl ⟨rfl, fun e len hp => absurd hp.done (Nat.not_lt_zero e)⟩
    | succ k ih =>
      apply tick_shows (after_follows k) (ih (by omega))
      intro e len hp
      obtain ⟨hdone, hrest⟩ := (completedPress_iff _ _ _).mp hp
      have hmono : (k + 1) / 5 ≤ n / 5 := Nat.div_le_div_right hk
      exact hbound e len ((completedPress_iff _ _ _).mpr ⟨by omega, hrest⟩)

/- A key that is held for the first 65536 scans: KeyTime stays 0. -/
theorem keyTime_wraps : ¬ Shows (scans fun n => decide (5 * 65536 ≤ n)) 65537
    (after (fun n => decide (5 * 65536 ≤ n)) (5 * 65537)).KeyTime.toNat := by
  intro h
  have hp : CompletedPress (scans fun n => decide (5 * 65536 ≤ n)) (65536 + 1) 65536 65536 := by
    refine ⟨by decide, rfl, by decide, Nat.le_refl _, fun i _ hi => ?_, Or.inl rfl⟩
    exact decide_eq_false (by omega)
  exact not_shows_long hp (Nat.le_refl _) h

end MultiEmbedded.Key
