import Mathlib.Data.Nat.Notation
import Mathlib.Tactic.Common

/-!
# Sums with the carry brought round

16-bit words are added and what does not fit in 16 bits is added again. The result
depends on the sum modulo 65535, and tells 0 from the other multiples of it.
-/

namespace MultiEmbedded.OnesSum

/- The two halves added up. -/
def fold (n : ℕ) : ℕ := n / 65536 + n % 65536

def swap (n : ℕ) : ℕ := n % 256 * 256 + n / 256 % 256

/- What is left of a sum in 16 bits. -/
def residue (n : ℕ) : ℕ := if n = 0 then 0 else (n - 1) % 65535 + 1

/- The sums that leave the same. -/
structure Alike (m n : ℕ) : Prop where
  zero : m = 0 ↔ n = 0
  mod : m % 65535 = n % 65535

variable {k l m n : ℕ}

theorem Alike.refl (n : ℕ) : Alike n n := ⟨Iff.rfl, rfl⟩

theorem Alike.of_eq (h : m = n) : Alike m n := ⟨by rw [h], by rw [h]⟩

theorem Alike.symm (h : Alike m n) : Alike n m := ⟨h.zero.symm, h.mod.symm⟩

theorem Alike.trans (h : Alike k m) (h' : Alike m n) : Alike k n := ⟨h.zero.trans h'.zero, h.mod.trans h'.mod⟩

theorem Alike.add (h : Alike k l) (h' : Alike m n) : Alike (k + m) (l + n) := by
  have hz := h.zero
  have hz' := h'.zero
  have hm := h.mod
  have hm' := h'.mod
  exact ⟨by omega, by omega⟩

theorem Alike.shift (h : Alike m n) : Alike (256 * m) (256 * n) := by
  have hz := h.zero
  have hm := h.mod
  exact ⟨by omega, by omega⟩

/- Two shifts are none. -/
theorem shift_twice (n : ℕ) : Alike (256 * (256 * n)) n := ⟨by omega, by omega⟩

theorem fold_alike (n : ℕ) : Alike (fold n) n := by
  unfold fold
  exact ⟨by omega, by omega⟩

theorem swap_alike (h : n ≤ 65535) : Alike (swap n) (256 * n) := by
  -- the high octet has 65536 in place of 1
  have hsplit : 256 * n = 65535 * (n / 256) + swap n := by
    unfold swap
    omega
  rw [hsplit]
  constructor
  · unfold swap
    omega
  · omega

theorem swap_le (n : ℕ) : swap n ≤ 65535 := by
  unfold swap
  omega

theorem fold_le (h : n ≤ 131070) : fold n ≤ 65535 := by
  unfold fold
  omega

theorem fold_twice_le (h : n < 4294967296) : fold (fold n) ≤ 65535 := by
  unfold fold
  omega

theorem residue_alike (n : ℕ) : Alike (residue n) n := by
  unfold residue
  split_ifs with h
  · exact ⟨by omega, by omega⟩
  · exact ⟨by omega, by omega⟩

theorem residue_le (n : ℕ) : residue n ≤ 65535 := by
  unfold residue
  split_ifs
  · omega
  · omega

/-- In 16 bits a sum is determined by what it is alike. -/
theorem Alike.residue (h : Alike m n) (hm : m ≤ 65535) : m = residue n := by
  have hz := h.zero
  have hmod := h.mod
  unfold OnesSum.residue
  split_ifs with hn
  · omega
  · omega

theorem residue_congr (h : Alike m n) : residue m = residue n :=
  ((residue_alike m).trans h).residue (residue_le m)

theorem swap_residue (n : ℕ) : swap (residue n) = residue (256 * n) :=
  ((swap_alike (residue_le n)).trans (residue_alike n).shift).residue (swap_le _)

theorem fold_residue (h : n < 4294967296) : fold (fold n) = residue n :=
  ((fold_alike _).trans (fold_alike n)).residue (fold_twice_le h)

/- A sum with its complement. -/
theorem residue_complement (n : ℕ) : residue (n + (65535 - residue n)) = 65535 := by
  have hle := residue_le n
  have hz := (residue_alike n).zero
  have hmod := (residue_alike n).mod
  generalize residue n = r at hle hz hmod
  unfold residue
  rw [if_neg (by omega)]
  omega

/-! ### Octets -/

/- The words of a text, the low octet first. -/
def octetSum : List (BitVec 8) → ℕ
  | [] => 0
  | [b] => b.toNat
  | b :: c :: data => b.toNat + 256 * c.toNat + octetSum data

theorem octetSum_cons (b : BitVec 8) (data : List (BitVec 8)) :
    Alike (octetSum (b :: data)) (b.toNat + 256 * octetSum data) := by
  induction data using octetSum.induct generalizing b with
  | case1 => exact .refl _
  | case2 c => exact .refl _
  | case3 c d data ih =>
    have hrest := ih d
    show Alike (b.toNat + 256 * c.toNat + octetSum (d :: data)) (b.toNat + 256 * (c.toNat + 256 * d.toNat + octetSum data))
    have hd : Alike (octetSum (d :: data)) (256 * (256 * d.toNat + octetSum data)) := by
      refine hrest.trans ?_
      have htwice := (shift_twice d.toNat).symm.add (Alike.refl (256 * octetSum data))
      have hsplit : 256 * (256 * d.toNat + octetSum data) = 256 * (256 * d.toNat) + 256 * octetSum data := by omega
      rw [hsplit]
      exact htwice
    have hsum := (Alike.refl (b.toNat + 256 * c.toNat)).add hd
    have hgoal : b.toNat + 256 * (c.toNat + 256 * d.toNat + octetSum data) =
        b.toNat + 256 * c.toNat + 256 * (256 * d.toNat + octetSum data) := by omega
    rw [hgoal]
    exact hsum

/-- Behind an odd number of octets a text counts with its octets swapped. -/
theorem octetSum_append (xs ys : List (BitVec 8)) : Alike (octetSum (xs ++ ys))
    (octetSum xs + if xs.length % 2 = 0 then octetSum ys else 256 * octetSum ys) := by
  induction xs using octetSum.induct with
  | case1 =>
    show Alike (octetSum ys) (0 + octetSum ys)
    rw [Nat.zero_add]
    exact .refl _
  | case2 b => exact octetSum_cons b ys
  | case3 b c data ih =>
    have hparity : (b :: c :: data).length % 2 = data.length % 2 := by
      rw [List.length_cons, List.length_cons]
      omega
    rw [hparity]
    show Alike (b.toNat + 256 * c.toNat + octetSum (data ++ ys)) (b.toNat + 256 * c.toNat + octetSum data + _)
    rw [Nat.add_assoc (b.toNat + 256 * c.toNat) (octetSum data)]
    exact (Alike.refl _).add ih

theorem octetSum_eq_zero (data : List (BitVec 8)) : octetSum data = 0 ↔ ∀ b ∈ data, b = 0 := by
  induction data using octetSum.induct with
  | case1 => exact ⟨fun _ b hb => absurd hb List.not_mem_nil, fun _ => rfl⟩
  | case2 b =>
    rw [List.forall_mem_singleton, BitVec.toNat_eq]
    exact Iff.rfl
  | case3 b c data ih =>
    unfold octetSum
    rw [List.forall_mem_cons, List.forall_mem_cons, ← ih, BitVec.toNat_eq, BitVec.toNat_eq]
    show _ ↔ b.toNat = 0 ∧ c.toNat = 0 ∧ _
    omega

end MultiEmbedded.OnesSum
