import MultiEmbedded.Fat.Entry
import Mathlib.Order.Interval.Finset.Nat

/-!
# Cluster chains (src/ff.c)

Clusters are taken in the order after the last one taken, and freed from the head of
their chain on.
-/

namespace MultiEmbedded.Fat
open Chains

variable (drv : Drive) (g : Geometry)

def clust2sect (clst : ℕ) : ℕ :=
  if dword (clst + 2 ^ 32 - 2) ≥ dword (g.n_fatent + 2 ^ 32 - 2) then 0
  else dword (dword (clst + 2 ^ 32 - 2) * g.csize + g.database)

def countFreed (v : Volume) : Volume :=
  if v.free_clust ≠ 0xFFFFFFFF then
    { v with free_clust := dword (v.free_clust + 1), fsi_flag := v.fsi_flag ||| 1 }
  else v

def countTaken (v : Volume) : Volume :=
  if v.free_clust ≠ 0xFFFFFFFF then
    { v with free_clust := dword (v.free_clust + 2 ^ 32 - 1), fsi_flag := v.fsi_flag ||| 1 }
  else v

/- The `while` of `remove_chain`; `fuel` bounds the rounds. -/
def removeLoop : ℕ → ℕ → Volume → Option (FResult × Volume)
  | 0, _, _ => none
  | fuel + 1, clst, v =>
    if clst < g.n_fatent then
      match getFat drv g clst v with
      | (nxt, v) =>
        if nxt = 0 then some (.FR_OK, v)
        else if nxt = 1 then some (.FR_INT_ERR, v)
        else if nxt = 0xFFFFFFFF then some (.FR_DISK_ERR, v)
        else
          match putFat drv g clst 0 v with
          | (.FR_OK, v) => removeLoop fuel nxt (countFreed v)
          | (res, v) => some (res, v)
    else some (.FR_OK, v)

def removeChain (fuel clst : ℕ) (v : Volume) : Option (FResult × Volume) :=
  if clst < 2 ∨ clst ≥ g.n_fatent then some (.FR_INT_ERR, v) else removeLoop drv g fuel clst v

/- The `for` of `create_chain`: a free cluster, or what the function returns without one. -/
def scanLoop : ℕ → ℕ → ℕ → Volume → Option (Except ℕ ℕ × Volume)
  | 0, _, _, _ => none
  | fuel + 1, scl, ncl, v =>
    if ncl + 1 ≥ g.n_fatent ∧ 2 > scl then some (.error 0, v)
    else
      let ncl := if ncl + 1 ≥ g.n_fatent then 2 else ncl + 1
      match getFat drv g ncl v with
      | (cs, v) =>
        if cs = 0 then some (.ok ncl, v)
        else if cs = 0xFFFFFFFF ∨ cs = 1 then some (.error cs, v)
        else if ncl = scl then some (.error 0, v)
        else scanLoop fuel scl ncl v

/- The cluster found becomes the end of a chain, that of `clst` unless it is 0. -/
def linkNew (ncl clst : ℕ) (v : Volume) : ℕ × Volume :=
  let r := putFat drv g ncl 0x0FFFFFFF#32 v
  let r := if r.1 = .FR_OK ∧ clst ≠ 0 then putFat drv g clst (BitVec.ofNat 32 ncl) r.2 else r
  if r.1 = .FR_OK then (ncl, countTaken { r.2 with last_clust := ncl })
  else (if r.1 = .FR_DISK_ERR then 0xFFFFFFFF else 1, r.2)

/- From the search on. -/
def linkFree (fuel clst scl : ℕ) (v : Volume) : Option (ℕ × Volume) :=
  match scanLoop drv g fuel scl scl v with
  | none => none
  | some (.error code, v) => some (code, v)
  | some (.ok ncl, v) => some (linkNew drv g ncl clst v)

/- 0: no free cluster, 1: internal error, 0xFFFFFFFF: disk error, else the new cluster. -/
def createChain (fuel clst : ℕ) (v : Volume) : Option (ℕ × Volume) :=
  if clst = 0 then
    let scl := if v.last_clust = 0 ∨ v.last_clust ≥ g.n_fatent then 1 else v.last_clust
    linkFree drv g fuel clst scl v
  else
    match getFat drv g clst v with
    | (cs, v) =>
      if cs < 2 then some (1, v)
      else if cs = 0xFFFFFFFF then some (cs, v)
      else if cs < g.n_fatent then some (cs, v)
      else linkFree drv g fuel clst clst v

/-! ### The FAT as a table of links -/

def slotOf (n x : ℕ) : Slot ℕ := if x = 0 then .free else if x < n then .next x else .last

def clusters (g : Geometry) : Finset ℕ := Finset.Ico 2 g.n_fatent

def table (g : Geometry) (v : Volume) (c : ℕ) : Slot ℕ :=
  if c ∈ clusters g then slotOf g.n_fatent (entry g v c) else .free

variable {drv g} {v v' : Volume} {c n fuel : ℕ} {res : FResult}

@[simp] theorem mem_clusters : c ∈ clusters g ↔ 2 ≤ c ∧ c < g.n_fatent := by
  simp [clusters]

theorem slotOf_free {x : ℕ} : slotOf n x = .free ↔ x = 0 := by
  unfold slotOf
  split <;> simp_all
  split <;> simp

theorem table_free (hc : c ∈ clusters g) : table g v c = .free ↔ entry g v c = 0 := by
  simp only [table, hc, if_true, slotOf_free]

theorem table_kept (hg : g.Sound) (h : Kept g v v') : table g v' = table g v := by
  funext d
  unfold table
  split
  · rename_i hd
    rw [entry_kept hg h (mem_clusters.mp hd).2]
  · rfl

theorem table_touched {x : ℕ} (hc : c ∈ clusters g) (h : Touched g c v v') (hx : entry g v' c = x) :
    table g v' = Function.update (table g v) c (slotOf g.n_fatent x) := by
  funext d
  by_cases hd : d = c
  · subst hd
    simp only [table, hc, if_true, hx, Function.update_self]
  · rw [Function.update_of_ne hd]
    unfold table
    split
    · rename_i hmem
      rw [h.entry d (mem_clusters.mp hmem).2 hd]
    · rfl

/- The counters say nothing of the table. -/
theorem countFreed_eq (v : Volume) : ∃ k x, countFreed v = { v with free_clust := k, fsi_flag := x } := by
  unfold countFreed
  split
  · exact ⟨_, _, rfl⟩
  · exact ⟨v.free_clust, v.fsi_flag, rfl⟩

theorem countTaken_eq (v : Volume) : ∃ k x, countTaken v = { v with free_clust := k, fsi_flag := x } := by
  unfold countTaken
  split
  · exact ⟨_, _, rfl⟩
  · exact ⟨v.free_clust, v.fsi_flag, rfl⟩

/- From `v` to `v'` nothing outside the FAT has changed. -/
structure Spared (g : Geometry) (v v' : Volume) : Prop where
  view : ∀ s, ¬ g.InTable s → v'.view s = v.view s
  coherent : Coherent v'
  near : v'.winsect = v.winsect ∨ g.InTable v'.winsect

theorem Spared.refl (h : Coherent v) : Spared g v v := ⟨fun _ _ => rfl, h, .inl rfl⟩

theorem Spared.trans {v₁ : Volume} (h₁ : Spared g v v₁) (h₂ : Spared g v₁ v') : Spared g v v' where
  view s hs := (h₂.view s hs).trans (h₁.view s hs)
  coherent := h₂.coherent
  near := by
    cases h₂.near with
    | inl hsame => rw [hsame]; exact h₁.near
    | inr hin => exact .inr hin

theorem Inside.spared (h : Inside g v v') : Spared g v v' := ⟨h.view, h.coherent, h.near⟩

theorem Spared.freed (h : Spared g v v') : Spared g v (countFreed v') := by
  obtain ⟨k, x, heq⟩ := countFreed_eq v'
  rw [heq]
  exact ⟨h.view, ⟨h.coherent.clean, h.coherent.range⟩, h.near⟩

theorem Spared.taken (h : Spared g v v') : Spared g v (countTaken v') := by
  obtain ⟨k, x, heq⟩ := countTaken_eq v'
  rw [heq]
  exact ⟨h.view, ⟨h.coherent.clean, h.coherent.range⟩, h.near⟩

@[simp] theorem table_countFreed (v : Volume) : table g (countFreed v) = table g v := by
  obtain ⟨k, x, heq⟩ := countFreed_eq v
  rw [heq]
  rfl

@[simp] theorem table_countTaken (v : Volume) : table g (countTaken v) = table g v := by
  obtain ⟨k, x, heq⟩ := countTaken_eq v
  rw [heq]
  rfl

theorem entry_countTaken (v : Volume) (d : ℕ) : entry g (countTaken v) d = entry g v d := by
  obtain ⟨k, x, heq⟩ := countTaken_eq v
  rw [heq]
  rfl

/-! ### The number of free clusters -/

def freeClusters (g : Geometry) (v : Volume) : ℕ := freeCells (clusters g) (table g v)

/- The number kept is right, or there is none. -/
def Counted (g : Geometry) (v : Volume) : Prop := v.free_clust = 0xFFFFFFFF ∨ v.free_clust = freeClusters g v

theorem freeClusters_le (g : Geometry) (v : Volume) : freeClusters g v ≤ g.n_fatent - 2 := by
  have hle := Finset.card_filter_le (clusters g) fun a => table g v a = .free
  simpa [freeClusters, freeCells, clusters] using hle

theorem endMark_lt (ty : FsType) : endMark ty < 2 ^ 28 := by
  cases ty <;> decide

/-! ### Removing a chain -/

theorem getFat_read {v₁ : Volume} {nxt : ℕ} (hg : g.Sound) (h : Coherent v) (hc : c ∈ clusters g)
    (hget : getFat drv g c v = (nxt, v₁)) (hdisk : nxt ≠ 0xFFFFFFFF) : nxt = entry g v c ∧ Kept g v v₁ := by
  obtain ⟨hlow, hhigh⟩ := mem_clusters.mp hc
  have hread := getFat_spec drv hg h hlow hhigh
  rw [hget] at hread
  cases hread with
  | inl hfail => exact absurd hfail.1 hdisk
  | inr hread => exact hread

theorem Touched.after {v₁ : Volume} (hg : g.Sound) (h : Touched g c v₁ v') (hkept : Kept g v v₁) : Touched g c v v' :=
  ⟨hkept.inside.trans h.toInside, fun d hd hne => (h.entry d hd hne).trans (entry_kept hg hkept hd)⟩

theorem putFat_written {val : BitVec 32} (hg : g.Sound) (h : Coherent v) (hc : c ∈ clusters g)
    (hput : putFat drv g c val v = (.FR_OK, v')) : Touched g c v v' ∧
    table g v' = Function.update (table g v) c (slotOf g.n_fatent (val &&& mask g.fs_type).toNat) := by
  obtain ⟨hlow, hhigh⟩ := mem_clusters.mp hc
  have hwrite := putFat_spec drv hg h hlow hhigh val
  rw [hput] at hwrite
  cases hwrite with
  | inr hfail => simp at hfail
  | inl hwrite => exact ⟨hwrite.2.1, table_touched hc hwrite.2.1 hwrite.2.2⟩

/- What an access that failed leaves. -/
structure Undone (drv : Drive) (g : Geometry) (v v' : Volume) : Prop where
  failed : ¬ drv.Healthy
  legible : drv.Legible → Inside g v v' ∧ (g.fs_type ≠ .FAT12 → table g v' = table g v)

theorem getFat_failed {v₁ : Volume} (hg : g.Sound) (h : Coherent v) (hc : c ∈ clusters g)
    (hget : getFat drv g c v = (0xFFFFFFFF, v₁)) : Undone drv g v v₁ := by
  obtain ⟨hlow, hhigh⟩ := mem_clusters.mp hc
  have hread := getFat_spec drv hg h hlow hhigh
  rw [hget] at hread
  constructor
  · intro hd
    have hok := getFat_healthy hg hd hlow hhigh v
    rw [hget] at hok
    exact hok rfl
  intro hlegible
  cases hread with
  | inl hfail => exact ⟨(hfail.2 hlegible).inside, fun _ => table_kept hg (hfail.2 hlegible)⟩
  | inr hread => exact ⟨hread.2.inside, fun _ => table_kept hg hread.2⟩

theorem putFat_failed {val : BitVec 32} (hg : g.Sound) (h : Coherent v) (hc : c ∈ clusters g)
    (hput : putFat drv g c val v = (res, v')) (hres : res ≠ .FR_OK) : res = .FR_DISK_ERR ∧ Undone drv g v v' := by
  obtain ⟨hlow, hhigh⟩ := mem_clusters.mp hc
  have hwrite := putFat_spec drv hg h hlow hhigh val
  rw [hput] at hwrite
  cases hwrite with
  | inl hwrite => exact absurd hwrite.1 hres
  | inr hfail =>
    refine ⟨hfail.1, ?_, ?_⟩
    · intro hd
      have hok := putFat_healthy hg hd hlow hhigh val v
      rw [hput] at hok
      exact hres hok
    intro hlegible
    obtain ⟨htouched, hentry⟩ := hfail.2 hlegible
    refine ⟨htouched.toInside, ?_⟩
    intro hty
    rw [table_touched hc htouched (hentry hty)]
    have hslot : slotOf g.n_fatent (entry g v c) = table g v c := by simp only [table, hc, if_true]
    rw [hslot, Function.update_eq_self]

theorem Undone.after {v₁ : Volume} (hg : g.Sound) (h : Undone drv g v₁ v') (hkept : Kept g v v₁) : Undone drv g v v' := by
  refine ⟨h.failed, ?_⟩
  intro hlegible
  obtain ⟨hinside, htable⟩ := h.legible hlegible
  exact ⟨hkept.inside.trans hinside, fun hty => (htable hty).trans (table_kept hg hkept)⟩

/-- What one round does. -/
theorem removeLoop_step (drv : Drive) (fuel : ℕ) (hg : g.Sound) (h : Coherent v) (hc : c ∈ clusters g) :
    (∃ v₁, table g v c = .free ∧ Kept g v v₁ ∧ removeLoop drv g (fuel + 1) c v = some (.FR_OK, v₁)) ∨
    (∃ v₁, entry g v c = 1 ∧ Kept g v v₁ ∧ removeLoop drv g (fuel + 1) c v = some (.FR_INT_ERR, v₁)) ∨
    (∃ v₁, Undone drv g v v₁ ∧ removeLoop drv g (fuel + 1) c v = some (.FR_DISK_ERR, v₁)) ∨
    ∃ v₁, 2 ≤ entry g v c ∧ Touched g c v v₁ ∧ table g v₁ = Function.update (table g v) c .free ∧
      removeLoop drv g (fuel + 1) c v = removeLoop drv g fuel (entry g v c) (countFreed v₁) := by
  rw [removeLoop, if_pos (mem_clusters.mp hc).2]
  cases hget : getFat drv g c v with
  | mk nxt v₁ =>
    by_cases hdisk : nxt = 0xFFFFFFFF
    · subst hdisk
      exact .inr (.inr (.inl ⟨v₁, getFat_failed hg h hc hget, rfl⟩))
    · obtain ⟨hnxt, hkept⟩ := getFat_read hg h hc hget hdisk
      subst hnxt
      dsimp only
      by_cases hzero : entry g v c = 0
      · rw [if_pos hzero]
        exact .inl ⟨v₁, (table_free hc).mpr hzero, hkept, rfl⟩
      · rw [if_neg hzero]
        by_cases hone : entry g v c = 1
        · rw [if_pos hone]
          exact .inr (.inl ⟨v₁, hone, hkept, rfl⟩)
        · rw [if_neg hone, if_neg hdisk]
          cases hput : putFat drv g c 0 v₁ with
          | mk put v₂ =>
            by_cases hok : put = .FR_OK
            · subst hok
              obtain ⟨htouched, htable⟩ := putFat_written hg hkept.coherent hc hput
              refine .inr (.inr (.inr ⟨v₂, by omega, htouched.after hg hkept, ?_, rfl⟩))
              rw [htable, table_kept hg hkept]
              simp [slotOf]
            · obtain ⟨hfail, hundone⟩ := putFat_failed hg hkept.coherent hc hput hok
              subst hfail
              exact .inr (.inr (.inl ⟨v₂, hundone.after hg hkept, rfl⟩))

theorem removeLoop_out (hc : ¬ c < g.n_fatent) : removeLoop drv g (fuel + 1) c v = some (.FR_OK, v) := by
  rw [removeLoop, if_neg hc]

theorem removeLoop_freed (hg : g.Sound) (h : Coherent v) (hc : 2 ≤ c)
    (hrun : removeLoop drv g fuel c v = some (.FR_OK, v')) :
    Freed (table g v) c (table g v') ∧ Spared g v v' := by
  induction fuel generalizing c v with
  | zero => simp [removeLoop] at hrun
  | succ fuel ih =>
    by_cases hin : c < g.n_fatent
    · have hmem : c ∈ clusters g := mem_clusters.mpr ⟨hc, hin⟩
      obtain ⟨v₁, hfree, hkept, hr⟩ | ⟨v₁, -, -, hr⟩ | ⟨v₁, -, hr⟩ | ⟨v₁, hnext, htouched, htable, hr⟩ :=
        removeLoop_step drv fuel hg h hmem
      · simp only [hr, Option.some.injEq, Prod.mk.injEq, true_and] at hrun
        subst hrun
        rw [table_kept hg hkept]
        exact ⟨freed_free hfree, hkept.inside.spared⟩
      · simp [hr] at hrun
      · simp [hr] at hrun
      · rw [hr] at hrun
        have hspared := htouched.toInside.spared.freed
        obtain ⟨hfreed, hrest⟩ := ih hspared.coherent hnext hrun
        rw [table_countFreed, htable] at hfreed
        refine ⟨?_, hspared.trans hrest⟩
        have hzero : entry g v c ≠ 0 := by omega
        by_cases hlink : entry g v c < g.n_fatent
        · apply freed_step _ hfreed
          simp [table, slotOf, hc, hin, hzero, hlink]
        · have hout : Function.update (table g v) c .free (entry g v c) = .free := by
            rw [Function.update_apply]
            split
            · rfl
            · simp [table, hlink]
          rw [freed_same hfreed hout]
          apply freed_end
          simp [table, slotOf, hc, hin, hzero, hlink]
    · simp only [removeLoop_out hin, Option.some.injEq, Prod.mk.injEq, true_and] at hrun
      subst hrun
      exact ⟨freed_free (by simp [table, hin]), Spared.refl h⟩

/- The clusters that can be reached from `c` are free, and all other entries, those of 0 and 1 too, are as before. -/
def Emptied (g : Geometry) (c : ℕ) (v v' : Volume) : Prop :=
  ∀ d < g.n_fatent, (d ∈ clusters g ∧ Reaches (table g v) c d → entry g v' d = 0) ∧
    (¬ (d ∈ clusters g ∧ Reaches (table g v) c d) → entry g v' d = entry g v d)

theorem countFreed_counted {t : ℕ → Slot ℕ} (hg : g.Sound) (hcount : v.free_clust = 0xFFFFFFFF ∨
    v.free_clust = freeCells (clusters g) t) (htable : table g v = Function.update t c .free) (hc : c ∈ clusters g)
    (hused : t c ≠ .free) : Counted g (countFreed v) := by
  have hmore := freeCells_free hc hused
  have hle := freeClusters_le g v
  have hlimit := hg.limit
  have hsmall := endMark_lt g.fs_type
  unfold Counted freeClusters at *
  rw [table_countFreed, htable]
  rw [htable] at hle
  unfold countFreed
  split
  · unfold dword
    dsimp only
    omega
  · left
    omega

/-- Round for round the number of free clusters goes up by one. -/
theorem removeLoop_counted (hg : g.Sound) (h : Coherent v) (hc : 2 ≤ c) (hcount : Counted g v)
    (hrun : removeLoop drv g fuel c v = some (.FR_OK, v')) : Counted g v' := by
  induction fuel generalizing c v with
  | zero => simp [removeLoop] at hrun
  | succ fuel ih =>
    by_cases hin : c < g.n_fatent
    · have hmem : c ∈ clusters g := mem_clusters.mpr ⟨hc, hin⟩
      obtain ⟨v₁, hfree, hkept, hr⟩ | ⟨v₁, -, -, hr⟩ | ⟨v₁, -, hr⟩ | ⟨v₁, hnext, htouched, htable, hr⟩ :=
        removeLoop_step drv fuel hg h hmem
      · simp only [hr, Option.some.injEq, Prod.mk.injEq, true_and] at hrun
        subst hrun
        unfold Counted freeClusters at *
        rw [hkept.free_clust, table_kept hg hkept]
        exact hcount
      · simp [hr] at hrun
      · simp [hr] at hrun
      · rw [hr] at hrun
        apply ih htouched.toInside.spared.freed.coherent hnext _ hrun
        apply countFreed_counted hg _ htable hmem
        · rw [Ne, table_free hmem]
          omega
        · rw [htouched.free_clust]
          exact hcount
    · simp only [removeLoop_out hin, Option.some.injEq, Prod.mk.injEq, true_and] at hrun
      subst hrun
      exact hcount

/-- Every round but the last frees a cluster, so that a chain that leads back to itself ends too. -/
theorem removeLoop_returns (drv : Drive) (hg : g.Sound) (h : Coherent v) (hc : 2 ≤ c)
    (hfuel : g.n_fatent - 2 < fuel + freeClusters g v) : ∃ r, removeLoop drv g fuel c v = some r := by
  induction fuel generalizing c v with
  | zero =>
    have hle := freeClusters_le g v
    omega
  | succ fuel ih =>
    by_cases hin : c < g.n_fatent
    · have hmem : c ∈ clusters g := mem_clusters.mpr ⟨hc, hin⟩
      obtain ⟨v₁, -, -, hr⟩ | ⟨v₁, -, -, hr⟩ | ⟨v₁, -, hr⟩ | ⟨v₁, hnext, htouched, htable, hr⟩ :=
        removeLoop_step drv fuel hg h hmem
      · exact ⟨_, hr⟩
      · exact ⟨_, hr⟩
      · exact ⟨_, hr⟩
      · rw [hr]
        apply ih htouched.toInside.spared.freed.coherent hnext
        have hused : table g v c ≠ .free := by
          rw [Ne, table_free hmem]
          omega
        have hmore := freeCells_free hmem hused
        unfold freeClusters at *
        rw [table_countFreed, htable, hmore]
        omega
    · exact ⟨_, removeLoop_out hin⟩

/-- What is left of a chain whose first cluster was freed leads no further than the chain did. -/
theorem reaches_rest {x : ℕ} (hc : c ∈ clusters g) (hlow : 2 ≤ entry g v c) (hx : x ∈ clusters g) (hxc : x ≠ c)
    (hreach : Reaches (Function.update (table g v) c .free) (entry g v c) x) : Reaches (table g v) c x := by
  have hzero : entry g v c ≠ 0 := by omega
  by_cases hlink : entry g v c < g.n_fatent
  · have hslot : table g v c = .next (entry g v c) := by simp only [table, slotOf, hc, hzero, hlink, if_true, if_false]
    rw [reaches_update hslot hxc] at hreach
    exact (reaches_iff hslot).mpr (.inr hreach)
  · have hstop : ∀ b, Function.update (table g v) c .free (entry g v c) ≠ .next b := by
      intro b
      rw [Function.update_apply]
      split
      · simp
      · simp [table, hlink]
    rw [reaches_end hstop] at hreach
    subst hreach
    exact absurd (mem_clusters.mp hx).2 hlink

/-- If no reading fails, a removal that stops early has changed clusters of the chain only. -/
theorem removeLoop_legible (hg : g.Sound) (hd : drv.Legible) (hty : g.fs_type ≠ .FAT12) (h : Coherent v) (hc : 2 ≤ c)
    (hrun : removeLoop drv g fuel c v = some (res, v')) :
    Spared g v v' ∧ ∀ x, ¬ Reaches (table g v) c x → table g v' x = table g v x := by
  induction fuel generalizing c v with
  | zero => simp [removeLoop] at hrun
  | succ fuel ih =>
    by_cases hin : c < g.n_fatent
    · have hmem : c ∈ clusters g := mem_clusters.mpr ⟨hc, hin⟩
      obtain ⟨v₁, -, hkept, hr⟩ | ⟨v₁, -, hkept, hr⟩ | ⟨v₁, hundone, hr⟩ | ⟨v₁, hnext, htouched, htable, hr⟩ :=
        removeLoop_step drv fuel hg h hmem
      · rw [hr] at hrun
        cases hrun
        exact ⟨hkept.inside.spared, fun x _ => congrFun (table_kept hg hkept) x⟩
      · rw [hr] at hrun
        cases hrun
        exact ⟨hkept.inside.spared, fun x _ => congrFun (table_kept hg hkept) x⟩
      · rw [hr] at hrun
        cases hrun
        obtain ⟨hinside, htable⟩ := hundone.legible hd
        exact ⟨hinside.spared, fun x _ => congrFun (htable hty) x⟩
      · rw [hr] at hrun
        have hspared := htouched.toInside.spared.freed
        obtain ⟨hrest, hkeep⟩ := ih hspared.coherent hnext hrun
        rw [table_countFreed, htable] at hkeep
        refine ⟨hspared.trans hrest, ?_⟩
        intro x hx
        have hxc : x ≠ c := fun heq => hx (heq ▸ .refl)
        by_cases hmemx : x ∈ clusters g
        · rw [hkeep x fun hreach => hx (reaches_rest hmem hnext hmemx hxc hreach), Function.update_of_ne hxc]
        · simp only [table, hmemx, if_false]
    · rw [removeLoop_out hin] at hrun
      cases hrun
      exact ⟨Spared.refl h, fun _ _ => rfl⟩

end MultiEmbedded.Fat
