import MultiEmbedded.Fat.Chain

/-!
# Taking clusters (src/ff.c)

What `create_chain` does to the FAT: the search goes once around, and a cluster is
marked as the end of a chain before it is linked to one.
-/

namespace MultiEmbedded.Fat
open Chains

/-! ### Looking for a free cluster -/

variable {drv : Drive} {g : Geometry} {v v' : Volume} {c n fuel scl ncl : ℕ}

def nextOf (g : Geometry) (ncl : ℕ) : ℕ := if ncl + 1 ≥ g.n_fatent then 2 else ncl + 1

/- `d` comes before `b` in the order after `scl`. -/
def Before (scl d b : ℕ) : Prop := if scl < b then scl < d ∧ d < b else scl < d ∨ d < b

/- `d` has been looked at once `ncl` has. -/
def Seen (scl ncl d : ℕ) : Prop := if scl ≤ ncl then scl < d ∧ d ≤ ncl else scl < d ∨ d ≤ ncl

theorem scanLoop_succ (drv : Drive) (g : Geometry) (fuel scl ncl : ℕ) (v : Volume) :
    scanLoop drv g (fuel + 1) scl ncl v =
      if ncl + 1 ≥ g.n_fatent ∧ 2 > scl then some (.error 0, v)
      else
        match getFat drv g (nextOf g ncl) v with
        | (cs, v) =>
          if cs = 0 then some (.ok (nextOf g ncl), v)
          else if cs = 0xFFFFFFFF ∨ cs = 1 then some (.error cs, v)
          else if nextOf g ncl = scl then some (.error 0, v)
          else scanLoop drv g fuel scl (nextOf g ncl) v := rfl

/-- What one step of the search does. -/
theorem scanLoop_step (drv : Drive) (fuel : ℕ) (hg : g.Sound) (h : Coherent v) (hncl : 1 ≤ ncl) :
    (g.n_fatent ≤ ncl + 1 ∧ scl < 2 ∧ scanLoop drv g (fuel + 1) scl ncl v = some (.error 0, v)) ∨
    nextOf g ncl ∈ clusters g ∧
      ((∃ v₁, Undone drv g v v₁ ∧ scanLoop drv g (fuel + 1) scl ncl v = some (.error 0xFFFFFFFF, v₁)) ∨
      ∃ v₁, Kept g v v₁ ∧
        (entry g v (nextOf g ncl) = 0 ∧ scanLoop drv g (fuel + 1) scl ncl v = some (.ok (nextOf g ncl), v₁) ∨
        entry g v (nextOf g ncl) = 1 ∧ scanLoop drv g (fuel + 1) scl ncl v = some (.error 1, v₁) ∨
        entry g v (nextOf g ncl) ≠ 0 ∧ nextOf g ncl = scl ∧
          scanLoop drv g (fuel + 1) scl ncl v = some (.error 0, v₁) ∨
        entry g v (nextOf g ncl) ≠ 0 ∧ nextOf g ncl ≠ scl ∧
          scanLoop drv g (fuel + 1) scl ncl v = scanLoop drv g fuel scl (nextOf g ncl) v₁)) := by
  rw [scanLoop_succ]
  by_cases hover : ncl + 1 ≥ g.n_fatent ∧ 2 > scl
  · rw [if_pos hover]
    exact .inl ⟨hover.1, hover.2, rfl⟩
  · rw [if_neg hover]
    have hdata := hg.data
    have hmem : nextOf g ncl ∈ clusters g := by
      rw [mem_clusters]
      unfold nextOf
      split <;> omega
    refine .inr ⟨hmem, ?_⟩
    cases hget : getFat drv g (nextOf g ncl) v with
    | mk cs v₁ =>
      by_cases hdisk : cs = 0xFFFFFFFF
      · subst hdisk
        exact .inl ⟨v₁, getFat_failed hg h hmem hget, rfl⟩
      · obtain ⟨hcs, hkept⟩ := getFat_read hg h hmem hget hdisk
        subst hcs
        refine .inr ⟨v₁, hkept, ?_⟩
        dsimp only
        by_cases hzero : entry g v (nextOf g ncl) = 0
        · rw [if_pos hzero]
          exact .inl ⟨hzero, rfl⟩
        · rw [if_neg hzero]
          by_cases hone : entry g v (nextOf g ncl) = 1
          · rw [if_pos (.inr hone)]
            exact .inr (.inl ⟨hone, by rw [hone]⟩)
          · rw [if_neg (by simp [hdisk, hone])]
            by_cases hend : nextOf g ncl = scl
            · rw [if_pos hend]
              exact .inr (.inr (.inl ⟨hzero, hend, rfl⟩))
            · rw [if_neg hend]
              exact .inr (.inr (.inr ⟨hzero, hend, rfl⟩))

theorem before_seen {d : ℕ} (hd : d ∈ clusters g) (hscl : scl < g.n_fatent) (h : Before scl d (nextOf g ncl)) :
    Seen scl ncl d := by
  have hmem := mem_clusters.mp hd
  unfold Before nextOf at h
  unfold Seen
  split at h <;> split at h <;> split <;> omega

theorem seen_before {d b : ℕ} (h : Seen scl b d) (hne : d ≠ b) : Before scl d b := by
  unfold Seen at h
  unfold Before
  split at h <;> split <;> omega

/- What a search that started after `scl` ends with. -/
def Scan (drv : Drive) (g : Geometry) (scl : ℕ) (v : Volume) : Except ℕ ℕ × Volume → Prop
  | (.ok b, v') => b ∈ clusters g ∧ entry g v b = 0 ∧ (∀ d ∈ clusters g, Before scl d b → entry g v d ≠ 0) ∧ Kept g v v'
  | (.error code, v') =>
    code = 0 ∧ (∀ d ∈ clusters g, entry g v d ≠ 0) ∧ Kept g v v' ∨
      code = 1 ∧ (∃ d ∈ clusters g, entry g v d = 1) ∧ Kept g v v' ∨
      code = 0xFFFFFFFF ∧ Undone drv g v v'

theorem Scan.after {r : Except ℕ ℕ × Volume} {v₁ : Volume} (hg : g.Sound) (h : Scan drv g scl v₁ r) (hkept : Kept g v v₁) :
    Scan drv g scl v r := by
  have hentry : ∀ d ∈ clusters g, entry g v₁ d = entry g v d :=
    fun d hd => entry_kept hg hkept (mem_clusters.mp hd).2
  obtain ⟨b | b, v₂⟩ := r
  · obtain ⟨hb, hall, hrest⟩ | ⟨hb, ⟨d, hd, hone⟩, hrest⟩ | ⟨hb, hrest⟩ := h
    · exact .inl ⟨hb, fun d hd => hentry d hd ▸ hall d hd, hkept.trans hrest⟩
    · exact .inr (.inl ⟨hb, ⟨d, hd, hentry d hd ▸ hone⟩, hkept.trans hrest⟩)
    · exact .inr (.inr ⟨hb, hrest.after hg hkept⟩)
  · obtain ⟨hb, hzero, hall, hrest⟩ := h
    exact ⟨hb, hentry b hb ▸ hzero, fun d hd hbefore => hentry d hd ▸ hall d hd hbefore, hkept.trans hrest⟩

/-- The search finds the first free cluster after `scl`, if there is one. -/
theorem scanLoop_spec {r : Except ℕ ℕ × Volume} (hg : g.Sound) (h : Coherent v) (hscl : scl < g.n_fatent)
    (hncl : 1 ≤ ncl) (hseen : ∀ d ∈ clusters g, Seen scl ncl d → entry g v d ≠ 0)
    (hrun : scanLoop drv g fuel scl ncl v = some r) : Scan drv g scl v r := by
  induction fuel generalizing ncl v with
  | zero => simp [scanLoop] at hrun
  | succ fuel ih =>
    obtain ⟨hover, hone, hr⟩ | ⟨hmem, ⟨v₁, hundone, hr⟩ | ⟨v₁, hkept, hcase⟩⟩ := scanLoop_step drv fuel hg h hncl
    · rw [hr] at hrun
      cases hrun
      refine .inl ⟨rfl, ?_, Kept.refl h⟩
      intro d hd
      have hrange := mem_clusters.mp hd
      apply hseen d hd
      unfold Seen
      split <;> omega
    · rw [hr] at hrun
      cases hrun
      exact .inr (.inr ⟨rfl, hundone⟩)
    · have hbefore : ∀ d ∈ clusters g, Before scl d (nextOf g ncl) → entry g v d ≠ 0 :=
        fun d hd hb => hseen d hd (before_seen hd hscl hb)
      obtain ⟨hzero, hr⟩ | ⟨hone, hr⟩ | ⟨hused, hend, hr⟩ | ⟨hused, hend, hr⟩ := hcase
      · rw [hr] at hrun
        cases hrun
        exact ⟨hmem, hzero, hbefore, hkept⟩
      · rw [hr] at hrun
        cases hrun
        exact .inr (.inl ⟨rfl, ⟨_, hmem, hone⟩, hkept⟩)
      · rw [hr] at hrun
        cases hrun
        refine .inl ⟨rfl, ?_, hkept⟩
        intro d hd
        by_cases hne : d = scl
        · rw [hne, ← hend]
          exact hused
        · apply hbefore d hd
          rw [hend]
          unfold Before
          split <;> omega
      · rw [hr] at hrun
        have hstart : ∀ d ∈ clusters g, Seen scl (nextOf g ncl) d → entry g v₁ d ≠ 0 := by
          intro d hd hd'
          rw [entry_kept hg hkept (mem_clusters.mp hd).2]
          by_cases hne : d = nextOf g ncl
          · rw [hne]
            exact hused
          · exact hbefore d hd (seen_before hd' hne)
        exact (ih hkept.coherent (by have := mem_clusters.mp hmem; omega) hstart hrun).after hg hkept

/-- The search ends whatever is in the FAT. -/
theorem scanLoop_returns (drv : Drive) (hn : 2 < g.n_fatent) (hscl : scl < g.n_fatent) (hncl : ncl < g.n_fatent)
    (hfuel : (if scl ≤ ncl then g.n_fatent - ncl + scl else scl - ncl) ≤ fuel) (v : Volume) :
    ∃ r, scanLoop drv g fuel scl ncl v = some r := by
  induction fuel generalizing ncl v with
  | zero => split at hfuel <;> omega
  | succ fuel ih =>
    rw [scanLoop_succ]
    by_cases hover : ncl + 1 ≥ g.n_fatent ∧ 2 > scl
    · rw [if_pos hover]
      exact ⟨_, rfl⟩
    · rw [if_neg hover]
      have hnext : nextOf g ncl < g.n_fatent ∧ (nextOf g ncl ≠ scl →
          (if scl ≤ nextOf g ncl then g.n_fatent - nextOf g ncl + scl else scl - nextOf g ncl) ≤ fuel) := by
        unfold nextOf
        split at hfuel <;> split <;> refine ⟨by omega, fun hne => ?_⟩ <;> split <;> omega
      dsimp only
      split
      · exact ⟨_, rfl⟩
      · split
        · exact ⟨_, rfl⟩
        · split
          · exact ⟨_, rfl⟩
          · rename_i hend
            exact ih hnext.1 (hnext.2 hend) _

/-! ### Taking a cluster -/

variable {clst b : ℕ}

/- The chain that ends at `clst` goes on with `b`; 0 stands for no chain. -/
def withLink (t : ℕ → Slot ℕ) (clst b : ℕ) : ℕ → Slot ℕ :=
  if clst = 0 then Function.update t b .last else Function.update (Function.update t b .last) clst (.next b)

/- What a call that failed leaves; if reading never fails, at most a cluster is lost. -/
structure Halfway (drv : Drive) (g : Geometry) (v v' : Volume) : Prop where
  failed : ¬ drv.Healthy
  legible : drv.Legible → Spared g v v' ∧ (g.fs_type ≠ .FAT12 → table g v' = table g v ∨
    ∃ b ∈ clusters g, table g v b = .free ∧ table g v' = Function.update (table g v) b .last)

/- What `create_chain` leaves with the cluster it returns. -/
structure Linked (g : Geometry) (scl clst b : ℕ) (v v' : Volume) : Prop where
  mem : b ∈ clusters g
  free : table g v b = .free
  first : ∀ d ∈ clusters g, Before scl d b → table g v d ≠ .free
  table : table g v' = withLink (table g v) clst b
  entry : ∀ d < g.n_fatent, d ≠ b → (clst = 0 ∨ d ≠ clst) → entry g v' d = entry g v d
  spared : Spared g v v'
  last_clust : v'.last_clust = b
  counted : Counted g v → Counted g v'

theorem slotOf_end (hg : g.Sound) : slotOf g.n_fatent (0x0FFFFFFF#32 &&& mask g.fs_type).toNat = .last := by
  have hdata := hg.data
  have hlimit := hg.limit
  have hmounted := hg.mounted
  have hmark : (0x0FFFFFFF#32 &&& mask g.fs_type).toNat = endMark g.fs_type := by
    cases hty : g.fs_type with
    | none => exact absurd hty hmounted
    | _ => rfl
  rw [hmark]
  unfold slotOf
  rw [if_neg (by omega), if_neg (by omega)]

theorem slotOf_link (hg : g.Sound) (hb : b ∈ clusters g) :
    slotOf g.n_fatent (BitVec.ofNat 32 b &&& mask g.fs_type).toNat = .next b := by
  have hmem := mem_clusters.mp hb
  have hlimit := hg.limit
  have hsmall := endMark_lt g.fs_type
  have hmask : (BitVec.ofNat 32 b &&& mask g.fs_type).toNat = b := by
    have hb : (BitVec.ofNat 32 b).toNat = b := by
      rw [BitVec.toNat_ofNat]
      omega
    have hlow : ∀ k, k ≤ 32 → b < 2 ^ k → (BitVec.ofNat 32 b &&& BitVec.ofNat 32 (2 ^ k - 1)).toNat = b := by
      intro k hk hlt
      rw [and_mask _ k hk, hb, Nat.mod_eq_of_lt hlt]
    cases hty : g.fs_type with
    | none => exact absurd hty hg.mounted
    | FAT12 => exact hlow 12 (by decide) (by simp only [hty, endMark] at hlimit; omega)
    | FAT16 => exact hlow 16 (by decide) (by simp only [hty, endMark] at hlimit; omega)
    | FAT32 => exact hlow 28 (by decide) (by simp only [hty, endMark] at hlimit; omega)
  rw [hmask]
  unfold slotOf
  rw [if_neg (by omega), if_pos hmem.2]

theorem countTaken_counted {t : ℕ → Slot ℕ} (hfree : t b = .free) (hb : b ∈ clusters g)
    (hcount : v.free_clust = 0xFFFFFFFF ∨ v.free_clust = freeCells (clusters g) t)
    (htable : freeClusters g v = freeCells (clusters g) (Function.update t b .last))
    (hle : freeCells (clusters g) t < 0xFFFFFFFF) : Counted g (countTaken v) := by
  have hless := freeCells_take (s := .last) hb hfree (by simp)
  unfold Counted freeClusters at *
  rw [table_countTaken, htable]
  unfold countTaken
  split
  · unfold dword
    dsimp only
    omega
  · left
    omega

def Taken (drv : Drive) (g : Geometry) (scl clst : ℕ) (v : Volume) (r : ℕ × Volume) : Prop :=
  Linked g scl clst r.1 v r.2 ∨
    r.1 = 0 ∧ (∀ d ∈ clusters g, table g v d ≠ .free) ∧ Kept g v r.2 ∨
    r.1 = 1 ∧ (∃ d ∈ clusters g, entry g v d = 1) ∧ Kept g v r.2 ∨
    r.1 = 0xFFFFFFFF ∧ Halfway drv g v r.2

theorem Undone.halfway (h : Undone drv g v v') : Halfway drv g v v' := by
  refine ⟨h.failed, ?_⟩
  intro hlegible
  obtain ⟨hinside, htable⟩ := h.legible hlegible
  exact ⟨hinside.spared, fun hty => .inl (htable hty)⟩

/-- The two entries are put, that of the cluster taken first. -/
/- The link to the new cluster takes no other one. -/
theorem freeCells_withLink {t : ℕ → Slot ℕ} (hclst : clst = 0 ∨ t clst ≠ .free) :
    freeCells (clusters g) (withLink t clst b) = freeCells (clusters g) (Function.update t b .last) := by
  unfold withLink
  split
  · rfl
  · rename_i hne
    apply freeCells_same _ (by simp)
    rw [Function.update_apply]
    split
    · simp
    · exact hclst.resolve_left hne

/- What the writes leave is what was promised, once the cluster is counted. -/
theorem linked_of {v₂ : Volume} (hg : g.Sound) (hb : b ∈ clusters g) (hzero : entry g v b = 0)
    (hfirst : ∀ d ∈ clusters g, Before scl d b → entry g v d ≠ 0)
    (hclst : clst = 0 ∨ clst ∈ clusters g ∧ entry g v clst ≠ 0) (hinside : Inside g v v₂)
    (htable : table g v₂ = withLink (table g v) clst b)
    (hentry : ∀ d < g.n_fatent, d ≠ b → (clst = 0 ∨ d ≠ clst) → entry g v₂ d = entry g v d) :
    Linked g scl clst b v (countTaken { v₂ with last_clust := b }) := by
  have hfree : table g v b = .free := (table_free hb).mpr hzero
  have hlarge : freeCells (clusters g) (table g v) < 0xFFFFFFFF := by
    have hle := freeClusters_le g v
    have hlimit := hg.limit
    have hsmall := endMark_lt g.fs_type
    unfold freeClusters at hle
    omega
  have hspared : Spared g v { v₂ with last_clust := b } :=
    ⟨hinside.view, ⟨hinside.coherent.clean, hinside.coherent.range⟩, hinside.near⟩
  refine ⟨hb, hfree, fun d hd hbefore => ?_, ?_, fun d hd hne hout => ?_, hspared.taken, ?_, fun hcount => ?_⟩
  · rw [Ne, table_free hd]
    exact hfirst d hd hbefore
  · rw [table_countTaken]
    exact htable
  · rw [entry_countTaken]
    exact hentry d hd hne hout
  · obtain ⟨k, x, heq⟩ := countTaken_eq { v₂ with last_clust := b }
    rw [heq]
  · apply countTaken_counted hfree hb _ _ hlarge
    · unfold Counted freeClusters at hcount
      rw [← hinside.free_clust] at hcount
      exact hcount
    · have hused : clst = 0 ∨ table g v clst ≠ .free := hclst.imp_right fun h => by
        rw [Ne, table_free h.1]
        exact h.2
      exact (congrArg (freeCells (clusters g)) htable).trans (freeCells_withLink hused)

theorem linkNew_spec {v₁ : Volume} (hg : g.Sound) (hkept : Kept g v v₁) (hb : b ∈ clusters g) (hzero : entry g v b = 0)
    (hfirst : ∀ d ∈ clusters g, Before scl d b → entry g v d ≠ 0)
    (hclst : clst = 0 ∨ clst ∈ clusters g ∧ entry g v clst ≠ 0) : Taken drv g scl clst v (linkNew drv g b clst v₁) := by
  have hfree : table g v b = .free := (table_free hb).mpr hzero
  unfold linkNew
  cases hput : putFat drv g b 0x0FFFFFFF#32 v₁ with
  | mk res v₂ =>
    by_cases hres : res = .FR_OK
    · subst hres
      obtain ⟨htouched, htable⟩ := putFat_written hg hkept.coherent hb hput
      have hinside := htouched.toInside
      have hend := htouched.after hg hkept
      rw [slotOf_end hg, table_kept hg hkept] at htable
      by_cases hnone : clst = 0
      · have hif : ¬ ((FResult.FR_OK, v₂).1 = .FR_OK ∧ clst ≠ 0) := by simp [hnone]
        dsimp only
        rw [if_neg hif, if_pos rfl]
        apply Or.inl
        apply linked_of hg hb hzero hfirst hclst (hkept.inside.trans hinside)
        · rw [htable, withLink, if_pos hnone]
        · exact fun d hd hne _ => hend.entry d hd hne
      · have hif : (FResult.FR_OK, v₂).1 = .FR_OK ∧ clst ≠ 0 := ⟨rfl, hnone⟩
        have hmem : clst ∈ clusters g := (hclst.resolve_left hnone).1
        dsimp only
        rw [if_pos hif]
        cases hlink : putFat drv g clst (BitVec.ofNat 32 b) v₂ with
        | mk res v₃ =>
          by_cases hres : res = .FR_OK
          · subst hres
            obtain ⟨htouched', htable'⟩ := putFat_written hg hinside.coherent hmem hlink
            rw [slotOf_link hg hb, htable] at htable'
            rw [if_pos rfl]
            apply Or.inl
            apply linked_of hg hb hzero hfirst hclst ((hkept.inside.trans hinside).trans htouched'.toInside)
            · rw [htable', withLink, if_neg hnone]
            · intro d hd hne hout
              exact (htouched'.entry d hd (hout.resolve_left hnone)).trans (hend.entry d hd hne)
          · obtain ⟨hdisk, hundone⟩ := putFat_failed hg hinside.coherent hmem hlink hres
            subst hdisk
            refine .inr (.inr (.inr ⟨rfl, hundone.failed, ?_⟩))
            intro hlegible
            obtain ⟨hinside', htable'⟩ := hundone.legible hlegible
            refine ⟨((hkept.inside.trans hinside).trans hinside').spared, ?_⟩
            intro hty
            exact .inr ⟨b, hb, hfree, (htable' hty).trans htable⟩
    · obtain ⟨hdisk, hundone⟩ := putFat_failed hg hkept.coherent hb hput hres
      subst hdisk
      exact .inr (.inr (.inr ⟨rfl, (hundone.after hg hkept).halfway⟩))

theorem linkFree_spec {r : ℕ × Volume} (hg : g.Sound) (h : Coherent v) (hscl : 1 ≤ scl) (hlow : scl < g.n_fatent)
    (hclst : clst = 0 ∨ clst ∈ clusters g ∧ entry g v clst ≠ 0)
    (hrun : linkFree drv g fuel clst scl v = some r) : Taken drv g scl clst v r := by
  unfold linkFree at hrun
  cases hscan : scanLoop drv g fuel scl scl v with
  | none => simp [hscan] at hrun
  | some found =>
    have hspec := scanLoop_spec hg h hlow hscl (by
      intro d _ hseen
      unfold Seen at hseen
      split at hseen <;> omega) hscan
    obtain ⟨code | b, v₁⟩ := found
    · simp only [hscan, Option.some.injEq] at hrun
      subst hrun
      obtain ⟨hcode, hall, hkept⟩ | hcode | ⟨hcode, hundone⟩ := hspec
      · refine .inr (.inl ⟨hcode, fun d hd => ?_, hkept⟩)
        rw [Ne, table_free hd]
        exact hall d hd
      · exact .inr (.inr (.inl hcode))
      · exact .inr (.inr (.inr ⟨hcode, hundone.halfway⟩))
    · obtain ⟨hb, hzero, hfirst, hkept⟩ := hspec
      simp only [hscan, Option.some.injEq] at hrun
      subst hrun
      exact linkNew_spec hg hkept hb hzero hfirst hclst

theorem Kept.counted (hg : g.Sound) (h : Kept g v v') (hcount : Counted g v) : Counted g v' := by
  unfold Counted freeClusters at *
  rw [h.free_clust, table_kept hg h]
  exact hcount

theorem Taken.after {r : ℕ × Volume} {v₁ : Volume} (hg : g.Sound) (h : Taken drv g scl clst v₁ r) (hkept : Kept g v v₁) :
    Taken drv g scl clst v r := by
  have htable := table_kept hg hkept
  unfold Taken at *
  obtain hlinked | ⟨hb, hall, hrest⟩ | ⟨hb, ⟨d, hd, hone⟩, hrest⟩ | ⟨hb, hhalf⟩ := h
  · refine .inl ⟨hlinked.mem, htable ▸ hlinked.free, fun d hd hbefore => htable ▸ hlinked.first d hd hbefore,
      htable ▸ hlinked.table, fun d hd hne hout => ?_, hkept.inside.spared.trans hlinked.spared, hlinked.last_clust, ?_⟩
    · exact (hlinked.entry d hd hne hout).trans (entry_kept hg hkept hd)
    exact fun hcount => hlinked.counted (hkept.counted hg hcount)
  · exact .inr (.inl ⟨hb, fun d hd => htable ▸ hall d hd, hkept.trans hrest⟩)
  · exact .inr (.inr (.inl ⟨hb, ⟨d, hd, entry_kept hg hkept (mem_clusters.mp hd).2 ▸ hone⟩, hkept.trans hrest⟩))
  · refine .inr (.inr (.inr ⟨hb, hhalf.failed, ?_⟩))
    intro hlegible
    obtain ⟨hspared, htab⟩ := hhalf.legible hlegible
    exact ⟨hkept.inside.spared.trans hspared, fun hty => htable ▸ htab hty⟩

/- Where the search for a cluster starts. -/
def startOf (g : Geometry) (v : Volume) (clst : ℕ) : ℕ :=
  if clst = 0 then (if v.last_clust = 0 ∨ v.last_clust ≥ g.n_fatent then 1 else v.last_clust) else clst

theorem getFat_out (hc : c ∉ clusters g) : getFat drv g c v = (1, v) := by
  rw [mem_clusters] at hc
  unfold getFat
  rw [if_pos (by omega)]

theorem table_slot (hc : c ∈ clusters g) : table g v c = slotOf g.n_fatent (entry g v c) := by
  simp only [table, hc, if_true]

/-- The first free cluster after the last one taken, or after `clst`, is taken for the chain; one that `clst`
leads to already is only returned. -/
theorem createChain_spec {r : ℕ × Volume} (hg : g.Sound) (h : Coherent v)
    (hrun : createChain drv g fuel clst v = some r) :
    clst ≠ 0 ∧ table g v clst = .next r.1 ∧ Kept g v r.2 ∨
    clst ≠ 0 ∧ r.1 = 1 ∧ (clst ∈ clusters g → entry g v clst < 2) ∧ Kept g v r.2 ∨
    r.1 = 0xFFFFFFFF ∧ Undone drv g v r.2 ∨
    (clst = 0 ∨ table g v clst = .last) ∧ Taken drv g (startOf g v clst) clst v r := by
  have hdata := hg.data
  unfold createChain at hrun
  by_cases hnone : clst = 0
  · rw [if_pos hnone] at hrun
    have hstart : startOf g v clst = if v.last_clust = 0 ∨ v.last_clust ≥ g.n_fatent then 1 else v.last_clust := if_pos hnone
    refine .inr (.inr (.inr ⟨.inl hnone, ?_⟩))
    rw [hstart]
    apply linkFree_spec hg h _ _ (.inl hnone) hrun
    · split <;> omega
    · split <;> omega
  · rw [if_neg hnone] at hrun
    by_cases hmem : clst ∈ clusters g
    · cases hget : getFat drv g clst v with
      | mk cs v₁ =>
        simp only [hget] at hrun
        by_cases hdisk : cs = 0xFFFFFFFF
        · subst hdisk
          simp only [Nat.reduceLT, if_false, if_true, Option.some.injEq] at hrun
          subst hrun
          exact .inr (.inr (.inl ⟨rfl, getFat_failed hg h hmem hget⟩))
        · obtain ⟨hcs, hkept⟩ := getFat_read hg h hmem hget hdisk
          subst hcs
          by_cases hlow : entry g v clst < 2
          · rw [if_pos hlow] at hrun
            cases hrun
            exact .inr (.inl ⟨hnone, rfl, fun _ => hlow, hkept⟩)
          · rw [if_neg hlow, if_neg hdisk] at hrun
            by_cases hnext : entry g v clst < g.n_fatent
            · rw [if_pos hnext] at hrun
              cases hrun
              refine .inl ⟨hnone, ?_, hkept⟩
              rw [table_slot hmem, slotOf, if_neg (by omega), if_pos hnext]
            · rw [if_neg hnext] at hrun
              have hrange := mem_clusters.mp hmem
              have hlast : table g v clst = .last := by
                rw [table_slot hmem, slotOf, if_neg (by omega), if_neg hnext]
              have hentry := entry_kept hg hkept hrange.2
              have htaken := linkFree_spec hg hkept.coherent (by omega) hrange.2
                (.inr ⟨hmem, by omega⟩) hrun
              refine .inr (.inr (.inr ⟨.inr hlast, ?_⟩))
              rw [startOf, if_neg hnone]
              exact htaken.after hg hkept
    · rw [getFat_out hmem] at hrun
      cases hrun
      exact .inr (.inl ⟨hnone, rfl, fun hin => absurd hin hmem, Kept.refl h⟩)

theorem createChain_returns (drv : Drive) (clst : ℕ) (hg : g.Sound) (hfuel : g.n_fatent ≤ fuel) (v : Volume) :
    ∃ r, createChain drv g fuel clst v = some r := by
  have hdata := hg.data
  have hlink : ∀ scl < g.n_fatent, ∀ w, ∃ r, linkFree drv g fuel clst scl w = some r := by
    intro scl hscl w
    obtain ⟨r, hr⟩ := scanLoop_returns drv hdata hscl hscl
      (by rw [if_pos (Nat.le_refl _)]; omega : _ ≤ fuel) w
    unfold linkFree
    rw [hr]
    obtain ⟨_ | _, _⟩ := r
    · exact ⟨_, rfl⟩
    · exact ⟨_, rfl⟩
  unfold createChain
  split
  · apply hlink
    split <;> omega
  · dsimp only
    split
    · exact ⟨_, rfl⟩
    · split
      · exact ⟨_, rfl⟩
      · split
        · exact ⟨_, rfl⟩
        · rename_i hlow _ _
          apply hlink
          by_cases hmem : clst ∈ clusters g
          · exact (mem_clusters.mp hmem).2
          · rw [getFat_out hmem] at hlow
            omega

end MultiEmbedded.Fat
