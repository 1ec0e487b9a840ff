import MultiEmbedded.Lib.Spread
import Mathlib

/-!
# LCD_DrawLine (board/TftLcd/backup/ILI93xx.c)

Two error accumulators share one loop. The calls of LCD_DrawPoint, in their
order, are what the function returns here; `none` means that the loop has not
ended within its fuel.
-/

namespace MultiEmbedded.Lcd
open Spread

abbrev Point := BitVec 16 × BitVec 16

/-- The error of an axis and the coordinate on it (`xerr` and `uRow`, `yerr` and `uCol`). -/
structure Axis where
  err : ℤ
  pos : ℤ

/- The increment and the distance of an axis. -/
def direction (delta : ℤ) : ℤ × ℤ :=
  if delta > 0 then (1, delta) else if delta = 0 then (0, delta) else (-1, -delta)

def axisStep (delta distance inc : ℤ) (a : Axis) : Axis :=
  let err := a.err + delta
  if err > distance then ⟨err - distance, a.pos + inc⟩ else ⟨err, a.pos⟩

def lineLoop (delta_x delta_y distance incx incy : ℤ) : ℕ → BitVec 16 → Axis → Axis → Option (List Point)
  | 0, _, _, _ => none
  | fuel + 1, t, x, y =>
    if (t.toNat : ℤ) ≤ distance + 1 then do
      let points ← lineLoop delta_x delta_y distance incx incy fuel (t + 1) (axisStep delta_x distance incx x)
        (axisStep delta_y distance incy y)
      return (BitVec.ofInt 16 x.pos, BitVec.ofInt 16 y.pos) :: points
    else return []

def lcdDrawLine (x1 y1 x2 y2 : BitVec 16) (fuel : ℕ) : Option (List Point) :=
  let (incx, delta_x) := direction ((x2.toNat : ℤ) - x1.toNat)
  let (incy, delta_y) := direction ((y2.toNat : ℤ) - y1.toNat)
  let distance := if delta_x > delta_y then delta_x else delta_y
  lineLoop delta_x delta_y distance incx incy fuel 0 ⟨0, x1.toNat⟩ ⟨0, y1.toNat⟩

/-! ### One axis -/

def heading (a b : BitVec 16) : ℤ := ((b.toNat : ℤ) - a.toNat).sign

def span (a b : BitVec 16) : ℕ := ((b.toNat : ℤ) - a.toNat).natAbs

theorem direction_eq (a b : BitVec 16) : direction ((b.toNat : ℤ) - a.toNat) = (heading a b, (span a b : ℤ)) := by
  unfold direction heading span
  rcases Int.lt_trichotomy ((b.toNat : ℤ) - a.toNat) 0 with hneg | hzero | hpos
  · rw [if_neg (by omega), if_neg (by omega), Int.sign_eq_neg_one_of_neg hneg]
    congr 1
    omega
  · rw [hzero]
    rfl
  · rw [if_pos hpos, Int.sign_eq_one_of_pos hpos]
    congr 1
    omega

/- The heading leads from one end to the other. -/
theorem heading_span (a b : BitVec 16) : (a.toNat : ℤ) + heading a b * span a b = b.toNat := by
  unfold heading span
  rw [Int.sign_mul_natAbs]
  omega

theorem heading_cases (a b : BitVec 16) :
    (heading a b = 1 ∧ a.toNat + span a b = b.toNat) ∨ (heading a b = 0 ∧ span a b = 0 ∧ a = b) ∨
      (heading a b = -1 ∧ b.toNat + span a b = a.toNat) := by
  unfold heading span
  rcases Int.lt_trichotomy ((b.toNat : ℤ) - a.toNat) 0 with hneg | hzero | hpos
  · exact Or.inr (Or.inr ⟨Int.sign_eq_neg_one_of_neg hneg, by omega⟩)
  · have heq : a.toNat = b.toNat := by omega
    exact Or.inr (Or.inl ⟨by rw [hzero]; rfl, by omega, BitVec.eq_of_toNat_eq heq⟩)
  · exact Or.inl ⟨Int.sign_eq_one_of_pos hpos, by omega⟩

/-- The axis after `k` rounds. -/
def axisAt (d D : ℕ) (inc start : ℤ) (k : ℕ) : Axis := ⟨rest d D k, start + inc * moves d D k⟩

theorem axisStep_at {d D : ℕ} (h : d ≤ D) (inc start : ℤ) (k : ℕ) :
    axisStep d D inc (axisAt d D inc start k) = axisAt d D inc start (k + 1) := by
  have hmoves := moves_succ h k
  have hrest := rest_succ h k
  unfold axisStep axisAt
  dsimp only
  by_cases hstep : D < rest d D k + d
  · rw [if_pos hstep] at hmoves hrest
    rw [if_pos (by omega), hmoves, hrest]
    congr 1
    · omega
    · push_cast
      ring
  · rw [if_neg hstep] at hmoves hrest
    rw [if_neg (by omega), hmoves, hrest]
    congr 1

theorem axisAt_zero (d D : ℕ) (inc start : ℤ) : axisAt d D inc start 0 = ⟨0, start⟩ := by
  unfold axisAt
  rw [rest_zero, moves_zero, Int.natCast_zero, mul_zero, add_zero]

/-! ### The loop -/

/-- The distance along the major axis. -/
def lineLength (x1 y1 x2 y2 : BitVec 16) : ℕ := max (span x1 x2) (span y1 y2)

/- The coordinate in round `k` on an axis from `a` to `b`. -/
def coordAt (a b : BitVec 16) (D k : ℕ) : BitVec 16 := BitVec.ofInt 16 (a.toNat + heading a b * moves (span a b) D k)

def pointAt (x1 y1 x2 y2 : BitVec 16) (k : ℕ) : Point :=
  (coordAt x1 x2 (lineLength x1 y1 x2 y2) k, coordAt y1 y2 (lineLength x1 y1 x2 y2) k)

theorem lineLoop_at {dx dy D : ℕ} (hx : dx ≤ D) (hy : dy ≤ D) (hD : D + 2 < 65536) (incx incy x1 y1 : ℤ)
    (n k fuel : ℕ) (hk : k + n = D + 2) (hfuel : n < fuel) :
    lineLoop dx dy D incx incy fuel (BitVec.ofNat 16 k) (axisAt dx D incx x1 k) (axisAt dy D incy y1 k) =
      some ((List.range' k n).map fun i =>
        (BitVec.ofInt 16 (axisAt dx D incx x1 i).pos, BitVec.ofInt 16 (axisAt dy D incy y1 i).pos)) := by
  induction n generalizing k fuel with
  | zero =>
    obtain ⟨fuel, rfl⟩ := Nat.exists_eq_succ_of_ne_zero (Nat.ne_of_gt hfuel)
    have ht : (BitVec.ofNat 16 k).toNat = k := by
      rw [BitVec.toNat_ofNat]
      omega
    unfold lineLoop
    rw [ht, if_neg (by omega)]
    rfl
  | succ n ih =>
    obtain ⟨fuel, rfl⟩ := Nat.exists_eq_succ_of_ne_zero (Nat.ne_of_gt (Nat.lt_of_le_of_lt (Nat.zero_le _) hfuel))
    have ht : (BitVec.ofNat 16 k).toNat = k := by
      rw [BitVec.toNat_ofNat]
      omega
    unfold lineLoop
    rw [ht, if_pos (by omega), axisStep_at hx, axisStep_at hy]
    have hnext : BitVec.ofNat 16 k + 1 = BitVec.ofNat 16 (k + 1) := (BitVec.ofNat_add k 1).symm
    rw [hnext, ih (k + 1) fuel (by omega) (by omega)]
    rfl

/-- The loop ends, and its points are those of the rounds 0 to distance + 1. -/
theorem lcdDrawLine_run (x1 y1 x2 y2 : BitVec 16) (hlen : lineLength x1 y1 x2 y2 + 2 < 65536) {fuel : ℕ}
    (hfuel : lineLength x1 y1 x2 y2 + 2 < fuel) :
    lcdDrawLine x1 y1 x2 y2 fuel =
      some ((List.range (lineLength x1 y1 x2 y2 + 2)).map (pointAt x1 y1 x2 y2)) := by
  have hx : span x1 x2 ≤ lineLength x1 y1 x2 y2 := Nat.le_max_left ..
  have hy : span y1 y2 ≤ lineLength x1 y1 x2 y2 := Nat.le_max_right ..
  have hloop := lineLoop_at hx hy hlen (heading x1 x2) (heading y1 y2) x1.toNat y1.toNat
    (lineLength x1 y1 x2 y2 + 2) 0 fuel (Nat.zero_add _) hfuel
  rw [axisAt_zero, axisAt_zero] at hloop
  have hdist : (if (span x1 x2 : ℤ) > span y1 y2 then (span x1 x2 : ℤ) else span y1 y2) =
      (lineLength x1 y1 x2 y2 : ℤ) := by
    unfold lineLength
    split <;> omega
  unfold lcdDrawLine
  rw [direction_eq, direction_eq]
  dsimp only
  rw [hdist, List.range_eq_range']
  exact hloop

/-! ### What is drawn -/

theorem coordAt_toNat {a b : BitVec 16} {D k : ℕ} (hD : span a b ≤ D) (hk : k ≤ D + 1) :
    ((coordAt a b D k).toNat : ℤ) = a.toNat + heading a b * moves (span a b) D k := by
  have hmoves := moves_le hD hk
  have ha := a.isLt
  have hb := b.isLt
  unfold coordAt
  rw [BitVec.toNat_ofInt, Int.toNat_of_nonneg (Int.emod_nonneg _ (by decide))]
  apply Int.emod_eq_of_lt
  · rcases heading_cases a b with ⟨hs, _⟩ | ⟨hs, _⟩ | ⟨hs, _⟩ <;> rw [hs] <;> omega
  · rcases heading_cases a b with ⟨hs, _⟩ | ⟨hs, _⟩ | ⟨hs, _⟩ <;> rw [hs] <;> omega

theorem coordAt_first {a b : BitVec 16} {D : ℕ} (hD : span a b ≤ D) : coordAt a b D 0 = a := by
  apply BitVec.eq_of_toNat_eq
  have h := coordAt_toNat hD (Nat.zero_le (D + 1))
  rw [moves_zero] at h
  omega

theorem coordAt_last {a b : BitVec 16} {D : ℕ} (hD : span a b ≤ D) : coordAt a b D (D + 1) = b := by
  apply BitVec.eq_of_toNat_eq
  have h := coordAt_toNat hD (Nat.le_refl (D + 1))
  rw [moves_last hD, heading_span] at h
  omega

/-- At most one apart. -/
def Adjacent (a b : BitVec 16) : Prop := a.toNat ≤ b.toNat + 1 ∧ b.toNat ≤ a.toNat + 1

/-- Between the two ends, in either order. -/
def Between (a b c : BitVec 16) : Prop := min a.toNat b.toNat ≤ c.toNat ∧ c.toNat ≤ max a.toNat b.toNat

theorem coordAt_adjacent {a b : BitVec 16} {D k : ℕ} (hD : span a b ≤ D) (hk : k + 1 ≤ D + 1) :
    Adjacent (coordAt a b D k) (coordAt a b D (k + 1)) := by
  have h := coordAt_toNat hD (Nat.le_of_succ_le hk)
  have h' := coordAt_toNat hD hk
  have hmoves := moves_succ hD k
  have hstep : moves (span a b) D (k + 1) = moves (span a b) D k ∨
      moves (span a b) D (k + 1) = moves (span a b) D k + 1 := by
    split at hmoves
    · exact Or.inr hmoves
    · exact Or.inl hmoves
  unfold Adjacent
  rcases heading_cases a b with ⟨hs, _⟩ | ⟨hs, _⟩ | ⟨hs, _⟩ <;> rw [hs] at h h' <;> omega

theorem coordAt_between {a b : BitVec 16} {D k : ℕ} (hD : span a b ≤ D) (hk : k ≤ D + 1) :
    Between a b (coordAt a b D k) := by
  have h := coordAt_toNat hD hk
  have hmoves := moves_le hD hk
  unfold Between
  rcases heading_cases a b with ⟨hs, _⟩ | ⟨hs, _⟩ | ⟨hs, _⟩ <;> rw [hs] at h <;> omega

/-- How far `(u, v)` lies beside the segment from `(a, a')` to `(b, b')`, along the second axis. -/
def offLine (a b a' b' u v : BitVec 16) : ℚ :=
  (v.toNat : ℚ) - (a'.toNat + ((u.toNat : ℚ) - a.toNat) * (((b'.toNat : ℚ) - a'.toNat) / ((b.toNat : ℚ) - a.toNat)))

/- The share of the minor steps that belongs to `k - 1` steps along the major axis. -/
theorem moves_share {d D : ℕ} (h : d ≤ D) (hD : 0 < D) (k : ℕ) :
    |(moves d D k : ℚ) - ((k - 1 : ℕ) : ℚ) * (d / D)| < 1 := by
  obtain ⟨hhigh, hlow⟩ := moves_near h hD k
  have hpos : (0 : ℚ) < D := by exact_mod_cast hD
  have hhigh' : (D : ℚ) * moves d D k < ((k - 1 : ℕ) : ℚ) * d + D := by exact_mod_cast hhigh
  have hlow' : ((k - 1 : ℕ) : ℚ) * d < (D : ℚ) * moves d D k + D := by exact_mod_cast hlow
  have hfrac : (moves d D k : ℚ) - ((k - 1 : ℕ) : ℚ) * (d / D) =
      ((D : ℚ) * moves d D k - ((k - 1 : ℕ) : ℚ) * d) / D := by
    field_simp
  rw [hfrac, abs_div, abs_of_pos hpos, div_lt_one hpos, abs_lt]
  constructor <;> linarith

theorem coordAt_near {a b a' b' : BitVec 16} {D k : ℕ} (hmajor : span a b = D) (hminor : span a' b' ≤ D)
    (hk : k ≤ D + 1) : |offLine a b a' b' (coordAt a b D k) (coordAt a' b' D k)| < 1 := by
  have hu := coordAt_toNat (Nat.le_of_eq hmajor) hk
  have hv := coordAt_toNat hminor hk
  have hend := heading_span a b
  have hend' := heading_span a' b'
  rw [hmajor] at hu hend
  rcases Nat.eq_zero_or_pos D with rfl | hD
  · -- both ends are the same point
    rw [Nat.le_zero.mp hminor] at hv hend'
    rw [moves_nil] at hv
    have hstay : (coordAt a' b' 0 k).toNat = a'.toNat := by omega
    have hsame : b'.toNat = a'.toNat := by omega
    unfold offLine
    rw [hstay, hsame, sub_self, zero_div, mul_zero, add_zero, sub_self, abs_zero]
    exact one_pos
  · rw [moves_full hD] at hu
    have hoff : offLine a b a' b' (coordAt a b D k) (coordAt a' b' D k) =
        (heading a' b' : ℚ) * ((moves (span a' b') D k : ℚ) - ((k - 1 : ℕ) : ℚ) * (span a' b' / D)) := by
      have hu' : ((coordAt a b D k).toNat : ℚ) = a.toNat + heading a b * ((k - 1 : ℕ) : ℚ) := by exact_mod_cast hu
      have hv' : ((coordAt a' b' D k).toNat : ℚ) = a'.toNat + heading a' b' * moves (span a' b') D k := by
        exact_mod_cast hv
      have hb : (b.toNat : ℚ) - a.toNat = heading a b * D := by
        rw [sub_eq_iff_eq_add']
        exact_mod_cast hend.symm
      have hb' : (b'.toNat : ℚ) - a'.toNat = heading a' b' * span a' b' := by
        rw [sub_eq_iff_eq_add']
        exact_mod_cast hend'.symm
      have hne : (heading a b : ℚ) ≠ 0 := by
        rcases heading_cases a b with ⟨hs, _⟩ | ⟨_, hzero, _⟩ | ⟨hs, _⟩
        · rw [hs]
          norm_num
        · omega
        · rw [hs]
          norm_num
      have hDne : (D : ℚ) ≠ 0 := by exact_mod_cast Nat.ne_of_gt hD
      unfold offLine
      rw [hu', hv', hb, hb']
      field_simp
      ring
    have hshare := moves_share hminor hD k
    rw [hoff, abs_mul]
    rcases heading_cases a' b' with ⟨hs, _⟩ | ⟨hs, _⟩ | ⟨hs, _⟩
    · rw [hs]
      simpa using hshare
    · rw [hs]
      simp
    · rw [hs]
      simpa using hshare

/-- The points drawn for a line, in their order. -/
structure LineContract (x1 y1 x2 y2 : BitVec 16) (points : List Point) : Prop where
  first : points.head? = some (x1, y1)
  last : points.getLast? = some (x2, y2)
  step : ∀ i p q, points[i]? = some p → points[i + 1]? = some q → Adjacent p.1 q.1 ∧ Adjacent p.2 q.2
  inside : ∀ p ∈ points, Between x1 x2 p.1 ∧ Between y1 y2 p.2
  near : ∀ p ∈ points, if span y1 y2 ≤ span x1 x2 then |offLine x1 x2 y1 y2 p.1 p.2| < 1
    else |offLine y1 y2 x1 x2 p.2 p.1| < 1

theorem pointAt_contract (x1 y1 x2 y2 : BitVec 16) :
    LineContract x1 y1 x2 y2 ((List.range (lineLength x1 y1 x2 y2 + 2)).map (pointAt x1 y1 x2 y2)) := by
  have hx : span x1 x2 ≤ lineLength x1 y1 x2 y2 := Nat.le_max_left ..
  have hy : span y1 y2 ≤ lineLength x1 y1 x2 y2 := Nat.le_max_right ..
  constructor
  · rw [List.head?_map, List.range_succ_eq_map, List.head?_cons]
    show some (pointAt x1 y1 x2 y2 0) = _
    unfold pointAt
    rw [coordAt_first hx, coordAt_first hy]
  · rw [List.range_succ, List.map_append, List.map_singleton, List.getLast?_concat]
    unfold pointAt
    rw [coordAt_last hx, coordAt_last hy]
  · intro i p q hp hq
    rw [List.getElem?_map, Option.map_eq_some_iff] at hp hq
    obtain ⟨k, hk, rfl⟩ := hp
    obtain ⟨k', hk', rfl⟩ := hq
    obtain ⟨hlt, rfl⟩ := List.getElem?_eq_some_iff.mp hk
    obtain ⟨hlt', rfl⟩ := List.getElem?_eq_some_iff.mp hk'
    rw [List.getElem_range, List.getElem_range]
    rw [List.length_range] at hlt'
    exact ⟨coordAt_adjacent hx (by omega), coordAt_adjacent hy (by omega)⟩
  · intro p hp
    obtain ⟨k, hk, rfl⟩ := List.mem_map.mp hp
    rw [List.mem_range] at hk
    exact ⟨coordAt_between hx (by omega), coordAt_between hy (by omega)⟩
  · intro p hp
    obtain ⟨k, hk, rfl⟩ := List.mem_map.mp hp
    rw [List.mem_range] at hk
    split
    · rename_i hmajor
      have hlen : span x1 x2 = lineLength x1 y1 x2 y2 := (Nat.max_eq_left hmajor).symm
      exact coordAt_near hlen hy (by omega)
    · rename_i hmajor
      have hlen : span y1 y2 = lineLength x1 y1 x2 y2 := (Nat.max_eq_right (by omega)).symm
      exact coordAt_near hlen hx (by omega)

/-- A line on the panel: the loop ends, and what it draws is the line. -/
theorem lcdDrawLine_contract (x1 y1 x2 y2 : BitVec 16) (hx1 : x1.toNat < 800) (hy1 : y1.toNat < 800)
    (hx2 : x2.toNat < 800) (hy2 : y2.toNat < 800) :
    ∃ points, (∀ fuel ≥ 802, lcdDrawLine x1 y1 x2 y2 fuel = some points) ∧ LineContract x1 y1 x2 y2 points := by
  have hlen : lineLength x1 y1 x2 y2 ≤ 799 := by
    unfold lineLength span
    omega
  refine ⟨_, fun fuel hfuel => ?_, pointAt_contract x1 y1 x2 y2⟩
  exact lcdDrawLine_run x1 y1 x2 y2 (by omega) (by omega)

theorem lcdDrawLine_contract_short : ∃ points, (∀ fuel ≥ 802, lcdDrawLine 3 9 10 7 fuel = some points) ∧
    LineContract 3 9 10 7 points :=
  lcdDrawLine_contract 3 9 10 7 (by decide) (by decide) (by decide) (by decide)

end MultiEmbedded.Lcd
