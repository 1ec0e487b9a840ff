import Mathlib.Data.Nat.Notation
import Mathlib.Tactic.Common
import Mathlib.Order.Basic

/-!
# Bounded search in a stream

A polling loop reads a stream element by element until a predicate holds or a
retry budget is used up. `find p s n i` is the position such a loop stops at:
the first position at or after `i`, among the next `n`, where `p` holds.
-/

namespace MultiEmbedded.Search

variable {α : Type*} {p : α → Bool} {s : ℕ → α}

/-- First position in `[i, i + n)` whose element satisfies `p`. -/
def find (p : α → Bool) (s : ℕ → α) : ℕ → ℕ → Option ℕ
  | 0, _ => none
  | n + 1, i => if p (s i) then some i else find p s n (i + 1)

theorem find_some {n i j : ℕ} (h : find p s n i = some j) :
    i ≤ j ∧ j < i + n ∧ p (s j) = true ∧ ∀ k, i ≤ k → k < j → p (s k) = false := by
  induction n generalizing i with
  | zero => cases h
  | succ n ih =>
    simp only [find] at h
    by_cases hp : p (s i) = true
    · simp only [hp, if_true, Option.some.injEq] at h
      subst h
      exact ⟨Nat.le_refl _, by omega, hp, fun k h1 h2 => absurd h1 (by omega)⟩
    · simp only [hp, if_false, Bool.false_eq_true] at h
      obtain ⟨h1, h2, h3, h4⟩ := ih h
      refine ⟨by omega, by omega, h3, fun k hk1 hk2 => ?_⟩
      rcases Nat.eq_or_lt_of_le hk1 with rfl | hlt
      · simpa using hp
      · exact h4 k hlt hk2

theorem find_none {n i : ℕ} (h : find p s n i = none) :
    ∀ k, i ≤ k → k < i + n → p (s k) = false := by
  induction n generalizing i with
  | zero => intro k h1 h2; omega
  | succ n ih =>
    simp only [find] at h
    by_cases hp : p (s i) = true
    · simp [hp] at h
    · simp only [hp, if_false, Bool.false_eq_true] at h
      intro k hk1 hk2
      rcases Nat.eq_or_lt_of_le hk1 with rfl | hlt
      · simpa using hp
      · exact ih h k hlt (by omega)

theorem find_of_first {n i j : ℕ} (hi : i ≤ j) (hj : j < i + n) (hp : p (s j) = true)
    (hf : ∀ k, i ≤ k → k < j → p (s k) = false) : find p s n i = some j := by
  cases h : find p s n i with
  | none => rw [find_none h j hi hj] at hp; cases hp
  | some m =>
    obtain ⟨h1, _, h3, h4⟩ := find_some h
    rcases Nat.lt_trichotomy m j with hlt | rfl | hgt
    · rw [hf m h1 hlt] at h3; cases h3
    · rfl
    · rw [h4 j hi hgt] at hp; cases hp

theorem find_eq_none {n i : ℕ} (hf : ∀ k, i ≤ k → k < i + n → p (s k) = false) :
    find p s n i = none := by
  cases h : find p s n i with
  | none => rfl
  | some m =>
    obtain ⟨h1, h2, h3, _⟩ := find_some h
    rw [hf m h1 h2] at h3; cases h3

/-- A hit of the short search is the hit of every longer one. -/
theorem find_mono {m n i j : ℕ} (h : find p s m i = some j) (hmn : m ≤ n) :
    find p s n i = some j := by
  obtain ⟨h1, h2, h3, h4⟩ := find_some h
  exact find_of_first h1 (by omega) h3 h4

/-- A hit of the long search that lies in the short window is the short search's hit. -/
theorem find_restrict {m n i j : ℕ} (h : find p s n i = some j) (hj : j < i + m) :
    find p s m i = some j := by
  obtain ⟨h1, _, h3, h4⟩ := find_some h
  exact find_of_first h1 hj h3 h4

theorem find_none_mono {m n i : ℕ} (h : find p s n i = none) (hmn : m ≤ n) :
    find p s m i = none :=
  find_eq_none fun k h1 h2 => find_none h k h1 (by omega)

end MultiEmbedded.Search
