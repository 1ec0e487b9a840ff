import Mathlib.Data.List.Chain
import Mathlib.Data.Nat.Notation
import Mathlib.Tactic.Common

/-!
# A region laid out in tiles

Tiles lie one behind the other, some of them taken. Space is given out by the tile, and
given back by fusing a free tile with the free tiles beside it.
-/

namespace MultiEmbedded.Tiling

structure Tile where
  taken : Bool
  len : ℕ
  deriving DecidableEq

def total : List Tile → ℕ
  | [] => 0
  | t :: tiles => t.len + total tiles

/- Where the last tile starts, or `prev`. -/
def lastAt (prev start : ℕ) : List Tile → ℕ
  | [] => prev
  | t :: tiles => lastAt start (start + t.len) tiles

def firstFree (start : ℕ) : List Tile → ℕ
  | [] => start
  | t :: tiles => if t.taken then firstFree (start + t.len) tiles else start

/- The taken tiles, each with its start. -/
def spans (start : ℕ) : List Tile → List (ℕ × ℕ)
  | [] => []
  | t :: tiles =>
    if t.taken then (start, t.len) :: spans (start + t.len) tiles else spans (start + t.len) tiles

/- A free tile with the one behind it, if that is free. -/
def fuse (n : ℕ) : List Tile → ℕ × List Tile
  | ⟨false, m⟩ :: tiles => (n + m, tiles)
  | tiles => (n, tiles)

/- No two free tiles side by side. -/
def Parted (tiles : List Tile) : Prop := tiles.IsChain fun s t => s.taken = true ∨ t.taken = true

variable {start prev n m k : ℕ} {t : Tile} {tiles xs ys : List Tile}

@[simp] theorem total_append (xs ys : List Tile) : total (xs ++ ys) = total xs + total ys := by
  induction xs with
  | nil => exact (Nat.zero_add _).symm
  | cons t xs ih =>
    show t.len + total (xs ++ ys) = t.len + total xs + total ys
    rw [ih, Nat.add_assoc]

theorem le_total (ht : t ∈ tiles) : t.len ≤ total tiles := by
  induction tiles with
  | nil => cases ht
  | cons s tiles ih =>
    unfold total
    rcases List.mem_cons.mp ht with rfl | ht
    · exact Nat.le_add_right _ _
    · exact Nat.le_trans (ih ht) (Nat.le_add_left _ _)

theorem lastAt_append (xs : List Tile) (t : Tile) : lastAt prev start (xs ++ [t]) = start + total xs := by
  induction xs generalizing prev start with
  | nil => rfl
  | cons s xs ih =>
    show lastAt start (start + s.len) (xs ++ [t]) = start + (s.len + total xs)
    rw [ih, Nat.add_assoc]

theorem spans_append (xs ys : List Tile) : spans start (xs ++ ys) = spans start xs ++ spans (start + total xs) ys := by
  induction xs generalizing start with
  | nil => rfl
  | cons t xs ih =>
    show (if t.taken then _ :: spans (start + t.len) (xs ++ ys) else spans (start + t.len) (xs ++ ys)) =
      (if t.taken then _ :: spans (start + t.len) xs else spans (start + t.len) xs) ++ spans (start + (t.len + total xs)) ys
    rw [ih, Nat.add_assoc]
    cases t.taken with
    | false => rfl
    | true => rfl

/- A span lies in the region. -/
theorem spans_bounds {a : ℕ × ℕ} (ha : a ∈ spans start tiles) : start ≤ a.1 ∧ a.1 + a.2 ≤ start + total tiles := by
  induction tiles generalizing start with
  | nil => cases ha
  | cons t tiles ih =>
    unfold spans at ha
    unfold total
    split at ha
    · rcases List.mem_cons.mp ha with rfl | ha
      · exact ⟨Nat.le_refl _, by show start + t.len ≤ _; omega⟩
      · have h := ih ha
        omega
    · have h := ih ha
      omega

/-- Taken tiles lie apart. -/
theorem spans_apart (start : ℕ) (tiles : List Tile) : (spans start tiles).Pairwise fun a b => a.1 + a.2 ≤ b.1 := by
  induction tiles generalizing start with
  | nil => exact .nil
  | cons t tiles ih =>
    unfold spans
    split
    · exact .cons (fun b hb => (spans_bounds hb).1) (ih _)
    · exact ih _

/- A span is a tile between others. -/
theorem spans_split {a : ℕ × ℕ} (ha : a ∈ spans start tiles) :
    ∃ xs ys, tiles = xs ++ ⟨true, a.2⟩ :: ys ∧ a.1 = start + total xs := by
  induction tiles generalizing start with
  | nil => cases ha
  | cons t tiles ih =>
    have hrest (h : a ∈ spans (start + t.len) tiles) :
        ∃ xs ys, t :: tiles = xs ++ ⟨true, a.2⟩ :: ys ∧ a.1 = start + total xs := by
      obtain ⟨xs, ys, rfl, hat⟩ := ih h
      refine ⟨t :: xs, ys, rfl, ?_⟩
      rw [hat, Nat.add_assoc]
      rfl
    obtain ⟨taken, len⟩ := t
    cases taken with
    | false => exact hrest ha
    | true =>
      rcases List.mem_cons.mp ha with rfl | ha
      · exact ⟨[], tiles, rfl, rfl⟩
      · exact hrest ha

theorem spans_free (n : ℕ) (tiles : List Tile) : spans start (⟨false, n⟩ :: tiles) = spans (start + n) tiles := rfl

theorem spans_fuse (n : ℕ) (tiles : List Tile) : spans (start + (fuse n tiles).1) (fuse n tiles).2 = spans (start + n) tiles := by
  unfold fuse
  split
  · rw [spans_free, Nat.add_assoc]
  · rfl

theorem total_fuse (n : ℕ) (tiles : List Tile) : (fuse n tiles).1 + total (fuse n tiles).2 = n + total tiles := by
  unfold fuse
  split
  · exact Nat.add_assoc _ _ _
  · rfl

/-! ### The first free tile -/

theorem firstFree_bounds : start ≤ firstFree start tiles ∧ firstFree start tiles ≤ start + total tiles := by
  induction tiles generalizing start with
  | nil => exact ⟨Nat.le_refl _, Nat.le_refl _⟩
  | cons t tiles ih =>
    unfold firstFree total
    split
    · have h := @ih (start + t.len)
      omega
    · omega

theorem firstFree_append (hxs : ∀ t ∈ xs, 0 < t.len) : firstFree start (xs ++ ys) =
    if firstFree start xs < start + total xs then firstFree start xs else firstFree (start + total xs) ys := by
  induction xs generalizing start with
  | nil => exact (if_neg (Nat.lt_irrefl _)).symm
  | cons t xs ih =>
    have ht := hxs t (List.mem_cons_self ..)
    show (if t.taken then firstFree (start + t.len) (xs ++ ys) else start) =
      if (if t.taken then firstFree (start + t.len) xs else start) < start + (t.len + total xs) then
        (if t.taken then firstFree (start + t.len) xs else start)
      else firstFree (start + (t.len + total xs)) ys
    cases t.taken with
    | false => exact (if_pos (show start < start + (t.len + total xs) by omega)).symm
    | true =>
      rw [← Nat.add_assoc]
      exact ih fun s hs => hxs s (List.mem_cons_of_mem _ hs)

theorem firstFree_free (hxs : ∀ t ∈ xs, 0 < t.len) (n : ℕ) (ys : List Tile) :
    firstFree start (xs ++ ⟨false, n⟩ :: ys) = firstFree start xs := by
  rw [firstFree_append hxs]
  have hle := (@firstFree_bounds start xs).2
  split_ifs with h
  · rfl
  · exact (Nat.le_antisymm hle (Nat.not_lt.mp h)).symm

theorem firstFree_taken (hxs : ∀ t ∈ xs, t.taken = true) (ys : List Tile) :
    firstFree start (xs ++ ys) = firstFree (start + total xs) ys := by
  induction xs generalizing start with
  | nil => rfl
  | cons t xs ih =>
    rw [List.forall_mem_cons] at hxs
    show (if t.taken then firstFree (start + t.len) (xs ++ ys) else start) = firstFree (start + (t.len + total xs)) ys
    rw [hxs.1, if_pos rfl, ih hxs.2, Nat.add_assoc]

/-- Either there is a first free tile, behind taken ones, or all are taken. -/
theorem firstFree_split (start : ℕ) (tiles : List Tile) : ∃ us vs, tiles = us ++ vs ∧
    firstFree start tiles = start + total us ∧ (∀ t ∈ us, t.taken = true) ∧ ∀ t ∈ vs.head?, t.taken = false := by
  induction tiles generalizing start with
  | nil => exact ⟨[], [], rfl, rfl, fun _ h => (by cases h), fun _ h => (by cases h)⟩
  | cons t tiles ih =>
    cases ht : t.taken with
    | false =>
      refine ⟨[], t :: tiles, rfl, ?_, fun _ h => (by cases h), fun s hs => ?_⟩
      · unfold firstFree
        rw [ht]
        rfl
      · cases hs
        exact ht
    | true =>
      obtain ⟨us, vs, rfl, hfirst, hus, hvs⟩ := ih (start + t.len)
      refine ⟨t :: us, vs, rfl, ?_, List.forall_mem_cons.mpr ⟨ht, hus⟩, hvs⟩
      unfold firstFree
      rw [ht, if_pos rfl, hfirst, Nat.add_assoc]
      rfl

/-! ### Giving out and giving back -/

/- A free tile with the one in front of it, if that is free. -/
def fuseBack (xs : List Tile) (n : ℕ) (ys : List Tile) : List Tile :=
  match xs.getLast? with
  | some ⟨false, m⟩ => xs.dropLast ++ ⟨false, m + n⟩ :: ys
  | _ => xs ++ ⟨false, n⟩ :: ys

/- A tile among others becomes free; `xs` lies in front of it and `ys` behind it. -/
def release (xs : List Tile) (n : ℕ) (ys : List Tile) : List Tile := fuseBack xs (fuse n ys).1 (fuse n ys).2

theorem fuseBack_free (ws : List Tile) (m n : ℕ) (ys : List Tile) :
    fuseBack (ws ++ [⟨false, m⟩]) n ys = ws ++ ⟨false, m + n⟩ :: ys := by
  unfold fuseBack
  rw [List.getLast?_concat, List.dropLast_concat]

theorem fuseBack_taken (hxs : ∀ t ∈ xs.getLast?, t.taken = true) (n : ℕ) (ys : List Tile) :
    fuseBack xs n ys = xs ++ ⟨false, n⟩ :: ys := by
  unfold fuseBack
  split
  case h_1 m hm => cases hxs _ hm
  case h_2 => rfl

theorem release_free (ws : List Tile) (m n : ℕ) (ys : List Tile) :
    release (ws ++ [⟨false, m⟩]) n ys = ws ++ ⟨false, m + (fuse n ys).1⟩ :: (fuse n ys).2 := fuseBack_free ws m _ _

theorem release_taken (hxs : ∀ t ∈ xs.getLast?, t.taken = true) (n : ℕ) (ys : List Tile) :
    release xs n ys = xs ++ ⟨false, (fuse n ys).1⟩ :: (fuse n ys).2 := fuseBack_taken hxs _ _

/- Either the tile in front is free, or there is none or it is taken. -/
theorem last_cases (xs : List Tile) :
    (∃ ws m, xs = ws ++ [⟨false, m⟩]) ∨ ∀ t ∈ xs.getLast?, t.taken = true := by
  rcases List.eq_nil_or_concat xs with rfl | ⟨ws, t, rfl⟩
  · right
    intro t ht
    cases ht
  · obtain ⟨taken, m⟩ := t
    cases taken with
    | false => exact .inl ⟨ws, m, List.concat_eq_append⟩
    | true =>
      right
      intro t ht
      rw [List.concat_eq_append, List.getLast?_concat] at ht
      cases ht
      rfl

/-- A region of `size` laid out, the lengths as `P` wants them. -/
structure Laid (P : ℕ → Prop) (size : ℕ) (tiles : List Tile) : Prop where
  total_eq : total tiles = size
  parted : Parted tiles
  lens : ∀ t ∈ tiles, P t.len

theorem parted_around (xs : List Tile) (t : Tile) (ys : List Tile) :
    Parted (xs ++ t :: ys) ↔ (Parted xs ∧ ∀ s ∈ xs.getLast?, s.taken = true ∨ t.taken = true) ∧
      (∀ s ∈ ys.head?, t.taken = true ∨ s.taken = true) ∧ Parted ys := by
  unfold Parted
  rw [List.isChain_append, List.isChain_cons]
  constructor
  · intro ⟨hxs, ⟨hhead, hys⟩, hlast⟩
    exact ⟨⟨hxs, fun s hs => hlast s hs t rfl⟩, hhead, hys⟩
  · intro ⟨⟨hxs, hlast⟩, hhead, hys⟩
    refine ⟨hxs, ⟨hhead, hys⟩, fun s hs r hr => ?_⟩
    cases hr
    exact hlast s hs

theorem fuse_parted (h : Parted ys) (n : ℕ) :
    Parted (fuse n ys).2 ∧ ∀ t ∈ (fuse n ys).2.head?, t.taken = true := by
  unfold fuse
  split
  case h_1 m tiles =>
    obtain ⟨-, hhead, htiles⟩ := (parted_around [] ⟨false, m⟩ tiles).mp h
    exact ⟨htiles, fun t ht => (hhead t ht).resolve_left Bool.false_ne_true⟩
  case h_2 hfree =>
    refine ⟨h, fun t ht => ?_⟩
    cases ys with
    | nil => cases ht
    | cons s ys =>
      cases ht
      obtain ⟨taken, m⟩ := t
      cases taken with
      | false => exact (hfree m ys rfl).elim
      | true => rfl

section Laid
variable {P : ℕ → Prop} {size : ℕ}

theorem fuse_len (hadd : ∀ m n, P m → P n → P (m + n)) (hn : P n) (hys : ∀ t ∈ ys, P t.len) : P (fuse n ys).1 := by
  unfold fuse
  split
  · rw [List.forall_mem_cons] at hys
    exact hadd _ _ hn hys.1
  · exact hn

theorem fuse_lens (n : ℕ) (hys : ∀ t ∈ ys, P t.len) : ∀ t ∈ (fuse n ys).2, P t.len := by
  unfold fuse
  split
  · rw [List.forall_mem_cons] at hys
    exact hys.2
  · exact hys

theorem lens_around {t : Tile} : (∀ s ∈ xs ++ t :: ys, P s.len) ↔
    (∀ s ∈ xs, P s.len) ∧ P t.len ∧ ∀ s ∈ ys, P s.len := by
  rw [List.forall_mem_append, List.forall_mem_cons]

/- A free tile taken as it is. -/
theorem Laid.keep (h : Laid P size (xs ++ ⟨false, n⟩ :: ys)) : Laid P size (xs ++ ⟨true, n⟩ :: ys) := by
  obtain ⟨htotal, hparted, hlens⟩ := h
  rw [parted_around] at hparted
  obtain ⟨⟨hxs, -⟩, -, hys⟩ := hparted
  rw [total_append] at htotal
  refine ⟨?_, ?_, ?_⟩
  · rw [total_append]
    exact htotal
  · rw [parted_around]
    exact ⟨⟨hxs, fun _ _ => .inr rfl⟩, fun _ _ => .inl rfl, hys⟩
  · rw [lens_around] at hlens ⊢
    exact hlens

/- A free tile cut in two, the first part taken. -/
theorem Laid.cut (h : Laid P size (xs ++ ⟨false, k + m⟩ :: ys)) (hk : P k) (hm : P m) :
    Laid P size (xs ++ ⟨true, k⟩ :: ⟨false, m⟩ :: ys) := by
  obtain ⟨htotal, hparted, hlens⟩ := h
  rw [parted_around] at hparted
  obtain ⟨⟨hxs, -⟩, hhead, hys⟩ := hparted
  rw [total_append] at htotal
  refine ⟨?_, ?_, ?_⟩
  · rw [total_append]
    show total xs + (k + (m + total ys)) = size
    rw [← htotal, ← Nat.add_assoc k]
    rfl
  · rw [parted_around]
    refine ⟨⟨hxs, fun _ _ => .inr rfl⟩, fun _ _ => .inl rfl, ?_⟩
    exact (parted_around [] ⟨false, m⟩ ys).mpr ⟨⟨.nil, fun _ hs => (by cases hs)⟩, hhead, hys⟩
  · rw [lens_around] at hlens
    rw [lens_around, List.forall_mem_cons]
    exact ⟨hlens.1, hk, hm, hlens.2.2⟩

/- The end of a taken tile given back. -/
theorem Laid.shrink (h : Laid P size (xs ++ ⟨true, k + m⟩ :: ys)) (hk : P k) (hm : P (fuse m ys).1) :
    Laid P size (xs ++ ⟨true, k⟩ :: ⟨false, (fuse m ys).1⟩ :: (fuse m ys).2) := by
  obtain ⟨htotal, hparted, hlens⟩ := h
  rw [parted_around] at hparted
  obtain ⟨⟨hxs, -⟩, -, hys⟩ := hparted
  obtain ⟨hfused, hhead⟩ := fuse_parted hys m
  rw [total_append] at htotal
  rw [lens_around] at hlens
  refine ⟨?_, ?_, ?_⟩
  · rw [total_append]
    show total xs + (k + ((fuse m ys).1 + total (fuse m ys).2)) = size
    rw [total_fuse, ← htotal, ← Nat.add_assoc k]
    rfl
  · rw [parted_around]
    refine ⟨⟨hxs, fun _ _ => .inr rfl⟩, fun _ _ => .inl rfl, ?_⟩
    exact (parted_around [] ⟨false, _⟩ _).mpr
      ⟨⟨.nil, fun _ hs => (by cases hs)⟩, fun s hs => .inr (hhead s hs), hfused⟩
  · rw [lens_around, List.forall_mem_cons]
    exact ⟨hlens.1, hk, hm, fuse_lens m hlens.2.2⟩

/-- A tile given back. -/
theorem Laid.release (h : Laid P size (xs ++ ⟨true, n⟩ :: ys)) (hadd : ∀ m n, P m → P n → P (m + n)) :
    Laid P size (release xs n ys) := by
  obtain ⟨htotal, hparted, hlens⟩ := h
  rw [parted_around] at hparted
  obtain ⟨⟨hxs, -⟩, -, hys⟩ := hparted
  obtain ⟨hfused, hhead⟩ := fuse_parted hys n
  rw [total_append] at htotal
  rw [lens_around] at hlens
  have hfirst := fuse_len hadd hlens.2.1 hlens.2.2
  have hrest := fuse_lens n hlens.2.2
  have hfuse := total_fuse n ys
  rcases last_cases xs with ⟨ws, m, rfl⟩ | hlast
  · rw [release_free]
    obtain ⟨⟨hws, hm⟩, -⟩ := (parted_around ws ⟨false, m⟩ []).mp hxs
    rw [lens_around] at hlens
    rw [total_append] at htotal
    refine ⟨?_, ?_, ?_⟩
    · rw [total_append]
      have hsum : total ws + (m + 0) + (n + total ys) = size := htotal
      show total ws + (m + (fuse n ys).1 + total (fuse n ys).2) = size
      omega
    · rw [parted_around]
      exact ⟨⟨hws, hm⟩, fun s hs => .inr (hhead s hs), hfused⟩
    · rw [lens_around]
      exact ⟨hlens.1.1, hadd _ _ hlens.1.2.1 hfirst, hrest⟩
  · rw [release_taken hlast]
    refine ⟨?_, ?_, ?_⟩
    · rw [total_append, ← htotal]
      show total xs + ((fuse n ys).1 + total (fuse n ys).2) = total xs + (n + total ys)
      rw [hfuse]
    · rw [parted_around]
      exact ⟨⟨hxs, fun s hs => .inl (hlast s hs)⟩, fun s hs => .inr (hhead s hs), hfused⟩
    · rw [lens_around]
      exact ⟨hlens.1, hfirst, hrest⟩

end Laid

theorem spans_around (xs : List Tile) (n : ℕ) (ys : List Tile) : spans start (xs ++ ⟨true, n⟩ :: ys) =
    spans start xs ++ (start + total xs, n) :: spans (start + total xs + n) ys := spans_append xs _

theorem spans_around_free (xs : List Tile) (n : ℕ) (ys : List Tile) : spans start (xs ++ ⟨false, n⟩ :: ys) =
    spans start xs ++ spans (start + total xs + n) ys := spans_append xs _

theorem spans_release (xs : List Tile) (n : ℕ) (ys : List Tile) :
    spans start (release xs n ys) = spans start xs ++ spans (start + total xs + n) ys := by
  rcases last_cases xs with ⟨ws, m, rfl⟩ | hlast
  · rw [release_free, spans_around_free, spans_around_free, ← Nat.add_assoc, spans_fuse]
    show _ = spans start ws ++ [] ++ _
    rw [List.append_nil, total_append, ← Nat.add_assoc start]
    rfl
  · rw [release_taken hlast, spans_around_free, spans_fuse]

theorem firstFree_release (hxs : ∀ t ∈ xs, 0 < t.len) (n : ℕ) (ys : List Tile) :
    firstFree start (release xs n ys) = firstFree start xs := by
  rcases last_cases xs with ⟨ws, m, rfl⟩ | hlast
  · have hws : ∀ t ∈ ws, 0 < t.len := fun t ht => hxs t (List.mem_append_left _ ht)
    rw [release_free, firstFree_free hws, firstFree_free hws]
  · rw [release_taken hlast, firstFree_free hxs]

/-- With nothing taken there is one free tile. -/
theorem single_of_spans (h : Parted tiles) (hspans : spans start tiles = []) (hne : tiles ≠ []) :
    tiles = [⟨false, total tiles⟩] := by
  cases tiles with
  | nil => exact (hne rfl).elim
  | cons t tiles =>
    obtain ⟨taken, n⟩ := t
    cases taken with
    | true => cases hspans
    | false =>
      cases tiles with
      | nil => rfl
      | cons s tiles =>
        obtain ⟨-, hhead, -⟩ := (parted_around [] ⟨false, n⟩ (s :: tiles)).mp h
        have hs : s.taken = true := (hhead s rfl).resolve_left Bool.false_ne_true
        have hrest : spans (start + n) (s :: tiles) = [] := hspans
        unfold spans at hrest
        rw [hs] at hrest
        cases hrest

/-- Free space that is nowhere taken lies in one tile. -/
theorem gap_in_tile {g : ℕ} (h : Parted tiles) (hm : 0 < m) (hstart : start ≤ g) (hend : g + m ≤ start + total tiles)
    (hgap : ∀ a ∈ spans start tiles, a.1 + a.2 ≤ g ∨ g + m ≤ a.1) : ∃ t ∈ tiles, t.taken = false ∧ m ≤ t.len := by
  induction tiles generalizing start with
  | nil =>
    unfold total at hend
    omega
  | cons t tiles ih =>
    obtain ⟨-, hhead, htiles⟩ := (parted_around [] t tiles).mp h
    obtain ⟨taken, len⟩ := t
    have hend : g + m ≤ start + len + total tiles := by
      rw [Nat.add_assoc]
      exact hend
    have hbehind (hpast : start + len ≤ g) (hrest : ∀ a ∈ spans (start + len) tiles, a.1 + a.2 ≤ g ∨ g + m ≤ a.1) :
        ∃ t ∈ ⟨taken, len⟩ :: tiles, t.taken = false ∧ m ≤ t.len := by
      obtain ⟨t, ht, hfree⟩ := ih htiles hpast hend hrest
      exact ⟨t, List.mem_cons_of_mem _ ht, hfree⟩
    cases taken with
    | true =>
      have hfirst := hgap (start, len) (List.mem_cons_self ..)
      dsimp only at hfirst
      exact hbehind (by omega) fun a ha => hgap a (List.mem_cons_of_mem _ ha)
    | false =>
      have hrest : ∀ a ∈ spans (start + len) tiles, a.1 + a.2 ≤ g ∨ g + m ≤ a.1 := hgap
      by_cases hpast : start + len ≤ g
      · exact hbehind hpast hrest
      refine ⟨_, List.mem_cons_self .., rfl, ?_⟩
      cases tiles with
      | nil =>
        have hlast : g + m ≤ start + len := hend
        show m ≤ len
        omega
      | cons s tiles =>
        have hs : s.taken = true := (hhead s rfl).resolve_left Bool.false_ne_true
        have hnext := hrest (start + len, s.len) (by unfold spans; rw [hs]; exact List.mem_cons_self ..)
        dsimp only at hnext
        show m ≤ len
        omega

end MultiEmbedded.Tiling
