import Mathlib.Tactic.SplitIfs
import Mathlib.Data.Nat.Notation

/-!
# Records in a ring of cells

Cells `0, …, N - 1` in a circle, and a chain of records laid one behind the other,
each of which may hold the cell where the next one starts.
-/

namespace MultiEmbedded.RingCells
variable {α ρ : Type}

/- The cell `i` places behind `a`, for `a < N` and `i ≤ N`. -/
def slot (N a i : ℕ) : ℕ := if a + i < N then a + i else a + i - N

theorem slot_lt {N a i : ℕ} (ha : a < N) (hi : i ≤ N) : slot N a i < N := by
  unfold slot
  split_ifs <;> omega

theorem slot_slot {N a i j : ℕ} (ha : a < N) (hij : i + j ≤ N) :
    slot N (slot N a i) j = slot N a (i + j) := by
  unfold slot
  split_ifs <;> omega

theorem slot_zero {N a : ℕ} (ha : a < N) : slot N a 0 = a := by
  unfold slot
  rw [Nat.add_zero, if_pos ha]

/- How far cell `a` lies behind `start`. -/
def offset (N start a : ℕ) : ℕ := if start ≤ a then a - start else a + N - start

def blit (N : ℕ) (mem : ℕ → α) (start : ℕ) (xs : List α) (a : ℕ) : α :=
  if a < N then (xs[offset N start a]?).getD (mem a) else mem a

/-- The cells from `a` on hold `xs`. -/
def Holds (N : ℕ) (mem : ℕ → α) (a : ℕ) (xs : List α) : Prop :=
  ∀ i x, xs[i]? = some x → mem (slot N a i) = x

theorem holds_blit {N start : ℕ} (mem : ℕ → α) {xs : List α} (hs : start < N)
    (hx : xs.length ≤ N) : Holds N (blit N mem start xs) start xs := by
  intro i x hi
  have hlt : i < xs.length := (List.getElem?_eq_some_iff.mp hi).1
  have hoff : offset N start (slot N start i) = i := by
    unfold offset slot
    split_ifs <;> omega
  unfold blit
  rw [if_pos (slot_lt hs (by omega)), hoff, hi]
  rfl

theorem Holds.blit {N a d : ℕ} {mem : ℕ → α} {xs ys : List α} (h : Holds N mem a xs) (ha : a < N)
    (hd : xs.length ≤ d) (hy : d + ys.length ≤ N) : Holds N (blit N mem (slot N a d) ys) a xs := by
  intro i x hi
  have hlt : i < xs.length := (List.getElem?_eq_some_iff.mp hi).1
  have hoff : ys.length ≤ offset N (slot N a d) (slot N a i) := by
    unfold offset slot
    split_ifs <;> omega
  unfold RingCells.blit
  rw [List.getElem?_eq_none hoff, h i x hi]
  exact ite_self _

theorem Holds.getElem {N a : ℕ} {mem : ℕ → α} {xs : List α} (h : Holds N mem a xs) {i : ℕ}
    (hi : i < xs.length) : mem (slot N a i) = xs[i] := h i xs[i] (List.getElem?_eq_getElem hi)

theorem Holds.congr {N a : ℕ} {mem mem' : ℕ → α} {xs : List α} (h : Holds N mem a xs) (ha : a < N)
    (hx : xs.length ≤ N) (hmem : ∀ j, j < N → mem j = mem' j) : Holds N mem' a xs := by
  intro i x hi
  have hlt : i < xs.length := (List.getElem?_eq_some_iff.mp hi).1
  rw [← hmem _ (slot_lt ha (by omega))]
  exact h i x hi

/- Reading cell after cell gives the contents. -/
theorem Holds.map_range {N a k n : ℕ} {mem : ℕ → α} {xs : List α} (h : Holds N mem a xs)
    (hn : k + n ≤ xs.length) :
    (List.range n).map (fun i => mem (slot N a (k + i))) = (xs.drop k).take n := by
  refine List.ext_getElem (by simp; omega) fun i h1 h2 => ?_
  rw [List.getElem_map, List.getElem_range, List.getElem_take, List.getElem_drop]
  have hi : i < n := by simpa using h1
  exact h.getElem (by omega)

section Chain
variable (size : ρ → ℕ) (bytes : ρ → ℕ → List α)

def total : List ρ → ℕ
  | [] => 0
  | r :: rs => size r + total rs

/-- The records `rs` lie one behind the other from cell `a` up to cell `b`. -/
def Chain (N : ℕ) (mem : ℕ → α) : ℕ → List ρ → ℕ → Prop
  | a, [], b => a = b
  | a, r :: rs, b => Holds N mem a (bytes r (slot N a (size r))) ∧
      Chain N mem (slot N a (size r)) rs b

variable {size bytes}

@[simp] theorem total_cons (r : ρ) (rs : List ρ) : total size (r :: rs) = size r + total size rs :=
  rfl

@[simp] theorem total_append (rs ss : List ρ) :
    total size (rs ++ ss) = total size rs + total size ss := by
  induction rs with
  | nil => exact (Nat.zero_add _).symm
  | cons r rs ih =>
    rw [List.cons_append, total_cons, total_cons, ih, Nat.add_assoc]

theorem Chain.stop {N : ℕ} {mem : ℕ → α} {a b : ℕ} {rs : List ρ} (h : Chain size bytes N mem a rs b)
    (ha : a < N) (ht : total size rs ≤ N) : b = slot N a (total size rs) := by
  induction rs generalizing a with
  | nil => exact h.symm.trans (slot_zero ha).symm
  | cons r rs ih =>
    rw [total_cons] at ht ⊢
    rw [ih h.2 (slot_lt ha (by omega)) (by omega), slot_slot ha ht]

/- Writing at least as far behind `a` as the chain reaches leaves the chain alone. -/
theorem Chain.blit {N : ℕ} {mem : ℕ → α} {a b d : ℕ} {rs : List ρ}
    (hbytes : ∀ r n, (bytes r n).length ≤ size r) (h : Chain size bytes N mem a rs b)
    (ys : List α) (ha : a < N) (hd : total size rs ≤ d) (hy : d + ys.length ≤ N) :
    Chain size bytes N (RingCells.blit N mem (slot N a d) ys) a rs b := by
  induction rs generalizing a d with
  | nil => exact h
  | cons r rs ih =>
    rw [total_cons] at hd
    have hlen := hbytes r (slot N a (size r))
    have hpos : slot N (slot N a (size r)) (d - size r) = slot N a d := by
      rw [slot_slot ha (by omega)]
      congr 1
      omega
    refine ⟨h.1.blit ha (by omega) hy, ?_⟩
    have hrest := ih h.2 (slot_lt ha (by omega)) (d := d - size r) (by omega) (by omega)
    rw [hpos] at hrest
    exact hrest

theorem Chain.congr {N : ℕ} {mem mem' : ℕ → α} {a b : ℕ} {rs : List ρ}
    (hbytes : ∀ r n, (bytes r n).length ≤ size r) (h : Chain size bytes N mem a rs b) (ha : a < N)
    (ht : total size rs ≤ N) (hmem : ∀ j, j < N → mem j = mem' j) : Chain size bytes N mem' a rs b := by
  induction rs generalizing a with
  | nil => exact h
  | cons r rs ih =>
    rw [total_cons] at ht
    have hlen := hbytes r (slot N a (size r))
    exact ⟨h.1.congr ha (by omega) hmem, ih h.2 (slot_lt ha (by omega)) (by omega)⟩

theorem Chain.snoc {N : ℕ} {mem : ℕ → α} {a b : ℕ} {rs : List ρ} {r : ρ}
    (h : Chain size bytes N mem a rs b) (hr : Holds N mem b (bytes r (slot N b (size r)))) :
    Chain size bytes N mem a (rs ++ [r]) (slot N b (size r)) := by
  induction rs generalizing a with
  | nil =>
    obtain rfl : a = b := h
    exact ⟨hr, rfl⟩
  | cons s rs ih => exact ⟨h.1, ih h.2⟩

/-- A record that fits behind the chain can be added there. -/
theorem Chain.push {N : ℕ} {mem : ℕ → α} {a b : ℕ} {rs : List ρ} {r : ρ}
    (hbytes : ∀ r n, (bytes r n).length ≤ size r) (h : Chain size bytes N mem a rs b) (ha : a < N)
    (ht : total size rs + size r ≤ N) :
    Chain size bytes N (RingCells.blit N mem b (bytes r (slot N b (size r)))) a (rs ++ [r])
      (slot N b (size r)) := by
  have hb := h.stop ha (by omega)
  have hlen := hbytes r (slot N b (size r))
  have hkeep : Chain size bytes N (RingCells.blit N mem b (bytes r (slot N b (size r)))) a rs b := by
    have hk := h.blit hbytes (bytes r (slot N b (size r))) ha (Nat.le_refl _) (by omega)
    rwa [← hb] at hk
  refine hkeep.snoc (holds_blit mem ?_ (by omega))
  rw [hb]
  exact slot_lt ha (by omega)

end Chain
end MultiEmbedded.RingCells
