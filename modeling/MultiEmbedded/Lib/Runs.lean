import Mathlib

/-!
# Runs of blocks

Consecutive blocks handed out together, and a table that stores in every block
the length of the run it belongs to (0 for a free block). The table determines
which blocks are taken, and adding or removing a run changes it on that run only.
-/

namespace MultiEmbedded.Runs

structure Span where
  start : ℕ
  len : ℕ

namespace Span

def blocks (r : Span) : Finset ℕ := Finset.Ico r.start (r.start + r.len)

@[simp] theorem mem_blocks {r : Span} {b : ℕ} :
    b ∈ r.blocks ↔ r.start ≤ b ∧ b < r.start + r.len := Finset.mem_Ico

@[simp] theorem card_blocks (r : Span) : r.blocks.card = r.len := by
  unfold blocks
  rw [Nat.card_Ico, Nat.add_sub_cancel_left]

end Span

/-- The table entry of block `b`. -/
def tag (runs : List Span) (b : ℕ) : ℕ :=
  (runs.map fun r => if b ∈ r.blocks then r.len else 0).sum

theorem tag_middle (l₁ l₂ : List Span) (r : Span) (b : ℕ) :
    tag (l₁ ++ r :: l₂) b = (if b ∈ r.blocks then r.len else 0) + tag (l₁ ++ l₂) b := by
  unfold tag
  simp only [List.map_append, List.map_cons, List.sum_append, List.sum_cons]
  omega

theorem tag_cons (r : Span) (runs : List Span) (b : ℕ) :
    tag (r :: runs) b = (if b ∈ r.blocks then r.len else 0) + tag runs b := tag_middle [] runs r b

theorem tag_eq_zero {runs : List Span} {b : ℕ} :
    tag runs b = 0 ↔ ∀ r ∈ runs, b ∉ r.blocks := by
  induction runs with
  | nil => exact iff_of_true rfl fun r hr => nomatch hr
  | cons r runs ih =>
    rw [tag_cons, Nat.add_eq_zero_iff, ih, List.forall_mem_cons]
    refine and_congr_left fun _ => ?_
    by_cases hb : b ∈ r.blocks
    · have hlt := Span.mem_blocks.mp hb
      rw [if_pos hb]
      exact iff_of_false (by omega) (fun h => h hb)
    · exact iff_of_true (if_neg hb) hb

theorem sublist_middle (l₁ l₂ : List Span) (r : Span) : (l₁ ++ l₂).Sublist (l₁ ++ r :: l₂) :=
  (List.append_sublist_append_left l₁).mpr (List.sublist_cons_self r l₂)

/-- Non-empty runs inside blocks `0, …, N - 1` that share no block. -/
structure Layout (N : ℕ) where
  runs : List Span
  pos : ∀ r ∈ runs, 0 < r.len
  inside : ∀ r ∈ runs, r.start + r.len ≤ N
  apart : runs.Pairwise fun r t => Disjoint r.blocks t.blocks

namespace Layout
variable {N : ℕ}

def empty (N : ℕ) : Layout N where
  runs := []
  pos := fun _ h => nomatch h
  inside := fun _ h => nomatch h
  apart := List.Pairwise.nil

/-- A run of blocks that are free in the table can be handed out. -/
def add (lay : Layout N) (r : Span) (hpos : 0 < r.len) (hin : r.start + r.len ≤ N)
    (hfree : ∀ b ∈ r.blocks, tag lay.runs b = 0) : Layout N where
  runs := r :: lay.runs
  pos := List.forall_mem_cons.mpr ⟨hpos, lay.pos⟩
  inside := List.forall_mem_cons.mpr ⟨hin, lay.inside⟩
  apart := List.pairwise_cons.mpr ⟨fun t ht => Finset.disjoint_left.mpr fun b hb =>
    tag_eq_zero.mp (hfree b hb) t ht, lay.apart⟩

/-- A run that is handed out can be taken back. -/
def remove (lay : Layout N) {l₁ l₂ : List Span} {r : Span} (h : lay.runs = l₁ ++ r :: l₂) :
    Layout N where
  runs := l₁ ++ l₂
  pos := fun t ht => lay.pos t (h ▸ (sublist_middle l₁ l₂ r).subset ht)
  inside := fun t ht => lay.inside t (h ▸ (sublist_middle l₁ l₂ r).subset ht)
  apart := (h ▸ lay.apart).sublist (sublist_middle l₁ l₂ r)

theorem disjoint_middle (lay : Layout N) {l₁ l₂ : List Span} {r : Span}
    (h : lay.runs = l₁ ++ r :: l₂) : ∀ t ∈ l₁ ++ l₂, Disjoint r.blocks t.blocks := by
  have hap := lay.apart
  rw [h, List.pairwise_middle fun hd => hd.symm, List.pairwise_cons] at hap
  exact hap.1

theorem tag_of_mem (lay : Layout N) {r : Span} (hr : r ∈ lay.runs) {b : ℕ} (hb : b ∈ r.blocks) :
    tag lay.runs b = r.len := by
  obtain ⟨l₁, l₂, h⟩ := List.append_of_mem hr
  have hrest : tag (l₁ ++ l₂) b = 0 :=
    tag_eq_zero.mpr fun t ht => Finset.disjoint_left.mp (lay.disjoint_middle h t ht) hb
  rw [h, tag_middle, if_pos hb, hrest, Nat.add_zero]

/- The taken blocks of a prefix of the list, counted run by run. -/
theorem card_tagged (runs : List Span) (h : runs.Pairwise fun r t => Disjoint r.blocks t.blocks)
    (hin : ∀ r ∈ runs, r.start + r.len ≤ N) :
    ((Finset.range N).filter fun b => tag runs b ≠ 0).card = (runs.map Span.len).sum := by
  induction runs with
  | nil =>
    rw [Finset.filter_false_of_mem fun b _ hb => hb rfl]
    rfl
  | cons r runs ih =>
    obtain ⟨hr, hrest⟩ := List.pairwise_cons.mp h
    obtain ⟨hrin, hrestin⟩ := List.forall_mem_cons.mp hin
    have hsplit : ((Finset.range N).filter fun b => tag (r :: runs) b ≠ 0) =
        r.blocks ∪ ((Finset.range N).filter fun b => tag runs b ≠ 0) := by
      ext b
      rw [Finset.mem_filter, Finset.mem_union, Finset.mem_filter, Finset.mem_range, tag_cons]
      by_cases hb : b ∈ r.blocks
      · have hlt := Span.mem_blocks.mp hb
        rw [if_pos hb]
        exact iff_of_true ⟨by omega, by omega⟩ (Or.inl hb)
      · rw [if_neg hb, Nat.zero_add]
        exact ⟨Or.inr, fun h => h.resolve_left hb⟩
    have hdis : Disjoint r.blocks ((Finset.range N).filter fun b => tag runs b ≠ 0) := by
      refine Finset.disjoint_left.mpr fun b hb hmem => (Finset.mem_filter.mp hmem).2 ?_
      exact tag_eq_zero.mpr fun t ht => Finset.disjoint_left.mp (hr t ht) hb
    rw [hsplit, Finset.card_union_of_disjoint hdis, ih hrest hrestin, Span.card_blocks]
    rfl

end Layout
end MultiEmbedded.Runs
