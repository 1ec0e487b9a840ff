import Mathlib.Data.Nat.Notation
import Mathlib.Tactic.Common

/-!
# Spreading steps over rounds

An error accumulator gets `d` added in each round; when it exceeds `D` it is
lowered by `D` and a step is taken. With `d ≤ D` this spreads steps evenly:
`moves d D k` is the number of steps in the first `k` rounds and `rest d D k`
what is left in the accumulator.
-/

namespace MultiEmbedded.Spread

def moves (d D k : ℕ) : ℕ := (k * d - 1) / D

def rest (d D k : ℕ) : ℕ := k * d - D * moves d D k

variable {d D : ℕ}

theorem moves_zero (d D : ℕ) : moves d D 0 = 0 := by
  unfold moves
  rw [Nat.zero_mul, Nat.zero_sub, Nat.zero_div]

theorem rest_zero (d D : ℕ) : rest d D 0 = 0 := by
  unfold rest
  rw [Nat.zero_mul, Nat.zero_sub]

theorem moves_nil (D k : ℕ) : moves 0 D k = 0 := by
  unfold moves
  rw [Nat.mul_zero, Nat.zero_sub, Nat.zero_div]

theorem moves_mul_le (d D k : ℕ) : D * moves d D k ≤ k * d - 1 := Nat.mul_div_le (k * d - 1) D

theorem lt_moves_succ_mul (k : ℕ) (hD : 0 < D) : k * d - 1 < D * moves d D k + D :=
  Nat.lt_mul_div_succ (k * d - 1) hD

theorem moves_eq {k m : ℕ} (hlow : D * m ≤ k * d - 1) (hhigh : k * d - 1 < D * m + D) : moves d D k = m := by
  apply Nat.div_eq_of_lt_le
  · rw [Nat.mul_comm]
    exact hlow
  · rw [Nat.succ_mul, Nat.mul_comm m D]
    exact hhigh

/- One round: the step is taken if the accumulator exceeds the bound. -/
theorem moves_succ (h : d ≤ D) (k : ℕ) :
    moves d D (k + 1) = if D < rest d D k + d then moves d D k + 1 else moves d D k := by
  rcases Nat.eq_zero_or_pos D with rfl | hD
  · obtain rfl := Nat.le_zero.mp h
    have hrest : rest 0 0 k = 0 := by
      unfold rest
      rw [Nat.mul_zero, Nat.zero_sub]
    rw [moves_nil, moves_nil, hrest]
    rfl
  · have hle := moves_mul_le d D k
    have hlt : k * d - 1 < D * moves d D k + D := lt_moves_succ_mul k hD
    have hsucc : (k + 1) * d = k * d + d := Nat.succ_mul k d
    unfold rest
    split
    · apply moves_eq
      · rw [Nat.mul_succ, hsucc]
        omega
      · rw [Nat.mul_succ, hsucc]
        omega
    · apply moves_eq
      · rw [hsucc]
        omega
      · rw [hsucc]
        omega

theorem rest_succ (h : d ≤ D) (k : ℕ) :
    rest d D (k + 1) = if D < rest d D k + d then rest d D k + d - D else rest d D k + d := by
  have hle := moves_mul_le d D k
  have hsucc : (k + 1) * d = k * d + d := Nat.succ_mul k d
  have hmoves := moves_succ h k
  have hrest : rest d D k = k * d - D * moves d D k := rfl
  have hrest' : rest d D (k + 1) = (k + 1) * d - D * moves d D (k + 1) := rfl
  split
  · rename_i hstep
    rw [if_pos hstep] at hmoves
    rw [hrest', hmoves, Nat.mul_succ, hsucc]
    omega
  · rename_i hstay
    rw [if_neg hstay] at hmoves
    rw [hrest', hmoves, hsucc]
    omega

/- After `D + 1` rounds all `d` steps have been taken. -/
theorem moves_last (h : d ≤ D) : moves d D (D + 1) = d := by
  rcases Nat.eq_zero_or_pos d with rfl | hd
  · exact moves_nil D (D + 1)
  · have hsucc : (D + 1) * d = D * d + d := Nat.succ_mul D d
    apply moves_eq
    · rw [hsucc]
      omega
    · rw [hsucc]
      omega

theorem moves_mono (d D : ℕ) {j k : ℕ} (h : j ≤ k) : moves d D j ≤ moves d D k :=
  Nat.div_le_div_right (Nat.sub_le_sub_right (Nat.mul_le_mul_right d h) 1)

theorem moves_le (h : d ≤ D) {k : ℕ} (hk : k ≤ D + 1) : moves d D k ≤ d := by
  have hmono := moves_mono d D hk
  rw [moves_last h] at hmono
  exact hmono

/- A full accumulator steps in every round but the first. -/
theorem moves_full (hD : 0 < D) (k : ℕ) : moves D D k = k - 1 := by
  cases k with
  | zero => exact moves_zero D D
  | succ k =>
    have hsucc : (k + 1) * D = D * k + D := by rw [Nat.succ_mul, Nat.mul_comm]
    apply moves_eq
    · rw [hsucc, Nat.add_sub_cancel]
      omega
    · rw [hsucc, Nat.add_sub_cancel]
      omega

/- The steps taken are less than one away from their even share. -/
theorem moves_near (h : d ≤ D) (hD : 0 < D) (k : ℕ) :
    D * moves d D k < (k - 1) * d + D ∧ (k - 1) * d < D * moves d D k + D := by
  rcases Nat.eq_zero_or_pos d with rfl | hd
  · rw [moves_nil, Nat.mul_zero, Nat.mul_zero]
    omega
  · cases k with
    | zero =>
      rw [moves_zero, Nat.zero_sub, Nat.zero_mul, Nat.mul_zero]
      omega
    | succ k =>
      have hle := moves_mul_le d D (k + 1)
      have hlt : (k + 1) * d - 1 < D * moves d D (k + 1) + D := lt_moves_succ_mul (k + 1) hD
      rw [Nat.succ_mul] at hle hlt
      rw [Nat.add_sub_cancel]
      omega

end MultiEmbedded.Spread
