import Mathlib.Data.Nat.Notation
import Mathlib.Tactic.Common

/-!
# Bounded retry loops

`do x while (!stop && n--)` on a machine of state `σ`: a round answers and moves
the state, the loop ends with the first answer that satisfies `stop`, or with
the round that finds the budget used up. `last` is the index of the final
round, and every fact about the loop is a fact about the sequence of rounds.
-/

namespace MultiEmbedded.Retry

variable {σ α : Type*} (step : σ → α × σ) (stop : α → Bool)

/-- State after `n` rounds. -/
def after : ℕ → σ → σ
  | 0, s => s
  | n + 1, s => after n (step s).2

/-- Answer of round `n`, whether or not a loop gets there. -/
def answer (n : ℕ) (s : σ) : α := (step (after step n s)).1

/-- The loop with a budget of `n` retries. -/
def loop : ℕ → σ → α × σ
  | 0, s => step s
  | n + 1, s => if stop (step s).1 then step s else loop n (step s).2

/-- Index of its final round. -/
def last : ℕ → σ → ℕ
  | 0, _ => 0
  | n + 1, s => if stop (step s).1 then 0 else last n (step s).2 + 1

theorem answer_succ (n : ℕ) (s : σ) : answer step (n + 1) s = answer step n (step s).2 := rfl

theorem last_le (n : ℕ) (s : σ) : last step stop n s ≤ n := by
  induction n generalizing s with
  | zero => exact Nat.le_refl _
  | succ n ih =>
    unfold last
    split
    · omega
    · exact Nat.succ_le_succ (ih _)

theorem loop_eq (n : ℕ) (s : σ) :
    loop step stop n s =
      (answer step (last step stop n s) s, after step (last step stop n s + 1) s) := by
  induction n generalizing s with
  | zero => rfl
  | succ n ih =>
    unfold loop last
    split
    · rfl
    · exact ih _

theorem stop_false_of_lt (n : ℕ) (s : σ) {k : ℕ} (hk : k < last step stop n s) :
    stop (answer step k s) = false := by
  induction n generalizing s k with
  | zero => exact absurd hk (Nat.not_lt_zero k)
  | succ n ih =>
    unfold last at hk
    split at hk
    · exact absurd hk (Nat.not_lt_zero k)
    · rename_i hs
      cases k with
      | zero => exact Bool.eq_false_iff.mpr hs
      | succ k =>
        rw [answer_succ]
        exact ih _ (Nat.lt_of_succ_lt_succ hk)

theorem stop_or_last (n : ℕ) (s : σ) :
    stop (answer step (last step stop n s) s) = true ∨ last step stop n s = n := by
  induction n generalizing s with
  | zero => exact Or.inr rfl
  | succ n ih =>
    unfold last
    split
    · rename_i hs
      exact Or.inl hs
    · cases ih (step s).2 with
      | inl h => exact Or.inl h
      | inr h => exact Or.inr (congrArg (· + 1) h)

/-- The loop ends with a stopping answer exactly when one of its rounds would give one. -/
theorem loop_stop_iff (n : ℕ) (s : σ) :
    stop (loop step stop n s).1 = true ↔ ∃ k, k ≤ n ∧ stop (answer step k s) = true := by
  rw [loop_eq]
  constructor
  · intro h
    exact ⟨last step stop n s, last_le step stop n s, h⟩
  · rintro ⟨k, hk, hs⟩
    cases stop_or_last step stop n s with
    | inl h => exact h
    | inr h =>
      rcases Nat.lt_or_ge k (last step stop n s) with hlt | hge
      · rw [stop_false_of_lt step stop n s hlt] at hs
        cases hs
      · have heq : k = last step stop n s := by omega
        rw [← heq]
        exact hs

end MultiEmbedded.Retry
