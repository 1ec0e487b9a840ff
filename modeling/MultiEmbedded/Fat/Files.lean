import MultiEmbedded.Fat.Alloc

/-!
# The chains of the files (src/ff.c)

Every file and directory has a chain of clusters, or none yet. The functions on files
ask for clusters and give them back in any order; a file that is written grows between
two clusters of another. No cluster comes to lie in two chains.
-/

namespace MultiEmbedded.Fat
open Chains

section Source
variable (drv : Drive) (g : Geometry)

/- `f_truncate` in the middle of a file: the clusters behind `clust` are removed. -/
def truncateRest (fuel clust : ℕ) (v : Volume) : Option (FResult × Volume) :=
  match getFat drv g clust v with
  | (ncl, v) =>
    if ncl = 0xFFFFFFFF then some (.FR_DISK_ERR, v)
    else if ncl = 1 then some (.FR_INT_ERR, v)
    else if ncl < g.n_fatent then
      match putFat drv g clust 0x0FFFFFFF#32 v with
      | (.FR_OK, v) => removeChain drv g fuel ncl v
      | (res, v) => some (res, v)
    else some (.FR_OK, v)

variable {ι : Type*} [DecidableEq ι]

/- `sclust` is the start cluster in the file object or the directory entry, 0 for no cluster. -/
structure World (ι : Type*) where
  vol : Volume
  sclust : ι → ℕ

/- Where the functions on files call the functions on chains. -/
inductive Call (ι : Type*) where
  -- `f_write` and, with `seek`, `f_lseek` in a file without clusters
  | create (seek : Bool) (i : ι)
  -- `f_write` and `f_lseek` at the end of a cluster
  | follow (i : ι) (clust : ℕ)
  | truncate (i : ι) (clust : ℕ)
  -- `f_truncate` at the top, `f_unlink`, and `f_open` over an old file
  | remove (i : ι)

def Call.file : Call ι → ι
  | create _ i => i
  | follow i _ => i
  | truncate i _ => i
  | remove i => i

/- The checks before the call; `clust` is one of the clusters of the file. -/
def Call.Meant (w : World ι) : Call ι → Prop
  | .create _ i => w.sclust i = 0
  | .follow i clust => clust ∈ clusters g ∧ Reaches (table g w.vol) (w.sclust i) clust
  | .truncate i clust => clust ∈ clusters g ∧ Reaches (table g w.vol) (w.sclust i) clust
  | .remove i => w.sclust i ≠ 0

/- The new start cluster; `f_write` sets it to the code of an error too. -/
def started (seek : Bool) (b : ℕ) : ℕ := if seek = true ∧ (b = 1 ∨ b = 0xFFFFFFFF) then 0 else b

/- Whether there was no error (a full volume is none), and what is left. -/
def Call.run (fuel : ℕ) (w : World ι) : Call ι → Option (Bool × World ι)
  | .create seek i => (createChain drv g fuel 0 w.vol).map fun r =>
      (decide (r.1 ≠ 1 ∧ r.1 ≠ 0xFFFFFFFF), ⟨r.2, Function.update w.sclust i (started seek r.1)⟩)
  | .follow _ clust => (createChain drv g fuel clust w.vol).map fun r =>
      (decide (r.1 ≠ 1 ∧ r.1 ≠ 0xFFFFFFFF), ⟨r.2, w.sclust⟩)
  | .truncate _ clust => (truncateRest drv g fuel clust w.vol).map fun r => (decide (r.1 = .FR_OK), ⟨r.2, w.sclust⟩)
  | .remove i => (removeChain drv g fuel (w.sclust i) w.vol).map fun r =>
      (decide (r.1 = .FR_OK), ⟨r.2, Function.update w.sclust i 0⟩)

end Source

variable {drv : Drive} {g : Geometry} {v v' : Volume} {c b fuel : ℕ} {res : FResult}

/-! ### What the functions on chains do -/

theorem mem_of_used (h : table g v c ≠ .free) : c ∈ clusters g := by
  by_contra hout
  simp [table, hout] at h

theorem code_not_mem (hg : g.Sound) (hb : b = 0 ∨ b = 1 ∨ b = 0xFFFFFFFF) : b ∉ clusters g := by
  have hlimit := hg.limit
  have hsmall := endMark_lt g.fs_type
  rw [mem_clusters]
  omega

theorem started_mem (hg : g.Sound) (seek : Bool) (hb : b ∈ clusters g) : started seek b = b := by
  have hcode : ¬ (b = 1 ∨ b = 0xFFFFFFFF) := fun hb' => code_not_mem hg (.inr hb') hb
  simp only [started, hcode, and_false, if_false]

theorem started_not_mem (hg : g.Sound) (seek : Bool) (hb : b ∉ clusters g) : started seek b ∉ clusters g := by
  unfold started
  split
  · exact code_not_mem hg (.inl rfl)
  · exact hb

/- The errors after which the chains are still sound. -/
def Mild (drv : Drive) (g : Geometry) : Prop := drv.Legible ∧ g.fs_type ≠ .FAT12

theorem createChain_cases {clst : ℕ} (hg : g.Sound) (h : Coherent v)
    (hrun : createChain drv g fuel clst v = some (b, v')) :
    (clst = 0 ∨ table g v clst = .last) ∧ Linked g (startOf g v clst) clst b v v' ∨
      Kept g v v' ∧ (clst = 0 → b = 0 ∨ b = 1) ∨ b = 0xFFFFFFFF ∧ Halfway drv g v v' := by
  obtain ⟨hne, -, hkept⟩ | ⟨hne, -, -, hkept⟩ | ⟨hb, hundone⟩ | ⟨hend, htaken⟩ := createChain_spec hg h hrun
  · exact .inr (.inl ⟨hkept, fun heq => absurd heq hne⟩)
  · exact .inr (.inl ⟨hkept, fun heq => absurd heq hne⟩)
  · exact .inr (.inr ⟨hb, hundone.halfway⟩)
  · obtain hlinked | ⟨hb, -, hkept⟩ | ⟨hb, -, hkept⟩ | ⟨hb, hhalf⟩ := htaken
    · exact .inl ⟨hend, hlinked⟩
    · exact .inr (.inl ⟨hkept, fun _ => .inl hb⟩)
    · exact .inr (.inl ⟨hkept, fun _ => .inr hb⟩)
    · exact .inr (.inr ⟨hb, hhalf⟩)

theorem removeChain_cases (hg : g.Sound) (h : Coherent v) (hc : c ∈ clusters g)
    (hrun : removeChain drv g fuel c v = some (res, v')) (hok : res = .FR_OK ∨ Mild drv g) :
    Spared g v v' ∧ (∀ x, ¬ Reaches (table g v) c x → table g v' x = table g v x) ∧
      (res = .FR_OK → (∀ x, Reaches (table g v) c x → table g v' x = .free) ∧ (Counted g v → Counted g v')) := by
  obtain ⟨hlow, hhigh⟩ := mem_clusters.mp hc
  unfold removeChain at hrun
  rw [if_neg (by omega)] at hrun
  by_cases hres : res = .FR_OK
  · subst hres
    obtain ⟨hfreed, hspared⟩ := removeLoop_freed hg h hlow hrun
    refine ⟨hspared, fun x => (hfreed x).2, fun _ => ⟨fun x => (hfreed x).1, ?_⟩⟩
    intro hcount
    exact removeLoop_counted hg h hlow hcount hrun
  · have hmild := hok.resolve_left hres
    obtain ⟨hspared, hkeep⟩ := removeLoop_legible hg hmild.1 hmild.2 h hlow hrun
    exact ⟨hspared, hkeep, fun heq => absurd heq hres⟩

/-- Of the chain from `clust` on, only `clust` is left. -/
theorem truncateRest_cases (hg : g.Sound) (h : Coherent v) (hc : c ∈ clusters g) (hused : table g v c ≠ .free)
    (hrun : truncateRest drv g fuel c v = some (res, v')) (hok : res = .FR_OK ∨ Mild drv g) :
    (table g v' = table g v ∧ Spared g v v' ∧ (res = .FR_OK → table g v c = .last ∧ (Counted g v → Counted g v'))) ∨
      ∃ n v₁, table g v c = .next n ∧ Spared g v v₁ ∧ table g v₁ = Function.update (table g v) c .last ∧
        (Counted g v → Counted g v₁) ∧ removeChain drv g fuel n v₁ = some (res, v') := by
  unfold truncateRest at hrun
  cases hget : getFat drv g c v with
  | mk ncl v₁ =>
    rw [hget] at hrun
    dsimp only at hrun
    by_cases hdisk : ncl = 0xFFFFFFFF
    · subst hdisk
      rw [if_pos rfl] at hrun
      cases hrun
      have hmild := hok.resolve_left (by simp)
      obtain ⟨hinside, htable⟩ := (getFat_failed hg h hc hget).legible hmild.1
      exact .inl ⟨htable hmild.2, hinside.spared, by simp⟩
    · obtain ⟨hncl, hkept⟩ := getFat_read hg h hc hget hdisk
      have hslot := table_slot (v := v) hc
      rw [← hncl] at hslot
      rw [if_neg hdisk] at hrun
      by_cases hone : ncl = 1
      · rw [if_pos hone] at hrun
        cases hrun
        exact .inl ⟨table_kept hg hkept, hkept.inside.spared, by simp⟩
      · rw [if_neg hone] at hrun
        have hzero : ncl ≠ 0 := by
          intro hzero
          simp [hslot, hzero, slotOf] at hused
        by_cases hlink : ncl < g.n_fatent
        · rw [if_pos hlink] at hrun
          have hnext : table g v c = .next ncl := by simp [hslot, slotOf, hzero, hlink]
          cases hput : putFat drv g c 0x0FFFFFFF#32 v₁ with
          | mk res₁ v₂ =>
            rw [hput] at hrun
            by_cases hres : res₁ = .FR_OK
            · subst hres
              dsimp only at hrun
              obtain ⟨htouched, htable⟩ := putFat_written hg hkept.coherent hc hput
              rw [slotOf_end hg, table_kept hg hkept] at htable
              refine .inr ⟨ncl, v₂, hnext, hkept.inside.spared.trans htouched.toInside.spared, htable, ?_, hrun⟩
              intro hcount
              unfold Counted freeClusters at *
              rw [htouched.free_clust, hkept.free_clust, htable, freeCells_same hused (by simp)]
              exact hcount
            · obtain ⟨hfail, hundone⟩ := putFat_failed hg hkept.coherent hc hput hres
              subst hfail
              dsimp only at hrun
              cases hrun
              have hmild := hok.resolve_left (by simp)
              obtain ⟨hinside, htable⟩ := hundone.legible hmild.1
              have hspared := hkept.inside.spared.trans hinside.spared
              exact .inl ⟨(htable hmild.2).trans (table_kept hg hkept), hspared, by simp⟩
        · rw [if_neg hlink] at hrun
          cases hrun
          refine .inl ⟨table_kept hg hkept, hkept.inside.spared, fun _ => ⟨?_, hkept.counted hg⟩⟩
          simp [hslot, slotOf, hzero, hlink]

/-! ### Every call returns -/

theorem removeChain_returns (drv : Drive) (c : ℕ) (hg : g.Sound) (h : Coherent v) (hfuel : g.n_fatent ≤ fuel) :
    ∃ r, removeChain drv g fuel c v = some r := by
  have hdata := hg.data
  unfold removeChain
  split
  · exact ⟨_, rfl⟩
  · apply removeLoop_returns drv hg h (by omega)
    omega

theorem truncateRest_returns (drv : Drive) (hg : g.Sound) (h : Coherent v) (hc : c ∈ clusters g)
    (hfuel : g.n_fatent ≤ fuel) : ∃ r, truncateRest drv g fuel c v = some r := by
  unfold truncateRest
  cases hget : getFat drv g c v with
  | mk ncl v₁ =>
    dsimp only
    by_cases hdisk : ncl = 0xFFFFFFFF
    · rw [if_pos hdisk]
      exact ⟨_, rfl⟩
    · obtain ⟨-, hkept⟩ := getFat_read hg h hc hget hdisk
      rw [if_neg hdisk]
      split
      · exact ⟨_, rfl⟩
      · split
        · cases hput : putFat drv g c 0x0FFFFFFF#32 v₁ with
          | mk res v₂ =>
            by_cases hres : res = .FR_OK
            · subst hres
              obtain ⟨htouched, -⟩ := putFat_written hg hkept.coherent hc hput
              exact removeChain_returns drv ncl hg htouched.coherent hfuel
            · obtain ⟨hfail, -⟩ := putFat_failed hg hkept.coherent hc hput hres
              subst hfail
              exact ⟨_, rfl⟩
        · exact ⟨_, rfl⟩

/-! ### On a card without faults -/

variable {ι : Type*} {w w' : World ι} {files : ι → List ℕ} {i : ι} {l : List ℕ} {done : Bool}

/- `files` are the chains: no cluster is in two of them or free, and each starts at the start cluster of its file. -/
structure Tidy (g : Geometry) (w : World ι) (files : ι → List ℕ) : Prop where
  coherent : Coherent w.vol
  holds : Holds (table g w.vol) files
  starts : ∀ i, files i = [] ∧ w.sclust i ∉ clusters g ∨ (files i).head? = some (w.sclust i)

/- No cluster is lost, and the number of free ones is right. -/
structure Full (g : Geometry) (w : World ι) (files : ι → List ℕ) : Prop where
  covers : Covers (table g w.vol) files
  counted : Counted g w.vol
  empty : ∀ i, w.sclust i ∉ clusters g → w.sclust i = 0

structure Exact (g : Geometry) (w : World ι) (files : ι → List ℕ) : Prop extends Tidy g w files, Full g w files

theorem Tidy.same (h : Tidy g w files) (hcoherent : Coherent v') (htable : table g v' = table g w.vol) :
    Tidy g ⟨v', w.sclust⟩ files := ⟨hcoherent, htable ▸ h.holds, h.starts⟩

theorem Tidy.absent (h : Tidy g w files) (hout : w.sclust i ∉ clusters g) : files i = [] := by
  obtain ⟨hnone, -⟩ | hhead := h.starts i
  · exact hnone
  · cases hfile : files i with
    | nil => rfl
    | cons a l =>
      rw [hfile, List.head?_cons, Option.some.injEq] at hhead
      subst hhead
      have hchain := h.holds.chained i (by simp [hfile])
      exact absurd (mem_of_used (hchain.taken (by simp [hfile]))) hout

theorem Tidy.present (h : Tidy g w files) (hin : w.sclust i ∈ clusters g) : ∃ l, files i = w.sclust i :: l := by
  obtain ⟨-, hout⟩ | hhead := h.starts i
  · exact absurd hin hout
  · exact List.head?_eq_some_iff.mp hhead

/-- A cluster that the links lead to is one of the file's own. -/
theorem Tidy.split (h : Tidy g w files) (hc : c ∈ clusters g) (hreach : Reaches (table g w.vol) (w.sclust i) c) :
    ∃ l r, files i = l ++ c :: r ∧ Chain (table g w.vol) (l ++ c :: r) := by
  by_cases hin : w.sclust i ∈ clusters g
  · obtain ⟨l, hfile⟩ := h.present hin
    have hchain := h.holds.chained i (by simp [hfile])
    rw [hfile] at hchain
    obtain ⟨front, rear, hsplit⟩ := List.append_of_mem (hchain.reaches.mp hreach)
    exact ⟨front, rear, hfile.trans hsplit, hsplit ▸ hchain⟩
  · have hstop : ∀ b, table g w.vol (w.sclust i) ≠ .next b := by simp [table, hin]
    rw [reaches_end hstop] at hreach
    exact absurd (hreach ▸ hc) hin

variable [DecidableEq ι]

/- What a call for the file `i` leaves; without an error nothing is lost. -/
def Settled (g : Geometry) (w : World ι) (files : ι → List ℕ) (i : ι) (done : Bool) (w' : World ι) : Prop :=
  ∃ l, Tidy g w' (Function.update files i l) ∧
    (done = true → Full g w files → Full g w' (Function.update files i l)) ∧
    ∀ s, ¬ g.InTable s → w'.vol.view s = w.vol.view s

theorem Tidy.put (h : Tidy g w files) (hcoherent : Coherent v') (hholds : Holds (table g v') (Function.update files i l))
    (hstart : l = [] ∧ c ∉ clusters g ∨ l.head? = some c) :
    Tidy g ⟨v', Function.update w.sclust i c⟩ (Function.update files i l) := by
  refine ⟨hcoherent, hholds, ?_⟩
  intro j
  by_cases hj : j = i
  · subst hj
    simpa only [Function.update_self] using hstart
  · simpa only [Function.update_of_ne hj] using h.starts j

/- The chain of a file changes, and its start cluster stays. -/
theorem Tidy.reshape (h : Tidy g w files) (hcoherent : Coherent v') (hholds : Holds (table g v') (Function.update files i l))
    (hstart : l.head? = (files i).head?) (hfile : files i ≠ []) : Tidy g ⟨v', w.sclust⟩ (Function.update files i l) := by
  have hput := h.put (c := w.sclust i) hcoherent hholds
  rw [Function.update_eq_self] at hput
  apply hput
  right
  obtain ⟨hnone, -⟩ | hhead := h.starts i
  · exact absurd hnone hfile
  · exact hstart.trans hhead

/- A file without a chain gets none. -/
theorem Tidy.vacant (h : Tidy g w files) (hnone : files i = []) (hcoherent : Coherent v')
    (hholds : Holds (table g v') files) (hout : c ∉ clusters g) : Tidy g ⟨v', Function.update w.sclust i c⟩ files := by
  have hempty : Function.update files i [] = files := by rw [← hnone, Function.update_eq_self]
  have hput := h.put (i := i) (l := []) hcoherent (by rw [hempty]; exact hholds) (.inl ⟨rfl, hout⟩)
  rwa [hempty] at hput

omit [DecidableEq ι] in
/- After a call that failed halfway a cluster may be lost. -/
theorem Tidy.halfway (h : Tidy g w files) (hmild : Mild drv g) (hhalf : Halfway drv g w.vol v') :
    Spared g w.vol v' ∧ Holds (table g v') files := by
  obtain ⟨hspared, htable⟩ := hhalf.legible hmild.1
  refine ⟨hspared, ?_⟩
  cases htable hmild.2 with
  | inl hsame =>
    rw [hsame]
    exact h.holds
  | inr hlost =>
    obtain ⟨d, -, hfree, hd⟩ := hlost
    rw [hd]
    exact h.holds.lose hfree

/- The chains are as before. -/
theorem Tidy.settled (h : Tidy g w' files) (hview : ∀ s, ¬ g.InTable s → w'.vol.view s = w.vol.view s)
    (hfull : done = true → Full g w files → Full g w' files) : Settled g w files i done w' := by
  refine ⟨files i, ?_⟩
  rw [Function.update_eq_self]
  exact ⟨h, hfull, hview⟩

omit [DecidableEq ι] in
theorem Full.same (hg : g.Sound) (h : Full g w files) (hkept : Kept g w.vol v') : Full g ⟨v', w.sclust⟩ files :=
  ⟨table_kept hg hkept ▸ h.covers, hkept.counted hg h.counted, h.empty⟩

theorem Full.start (h : Full g w files) (hc : c ∉ clusters g → c = 0) (j : ι)
    (hout : Function.update w.sclust i c j ∉ clusters g) : Function.update w.sclust i c j = 0 := by
  by_cases hj : j = i
  · subst hj
    rw [Function.update_self] at hout ⊢
    exact hc hout
  · rw [Function.update_of_ne hj] at hout ⊢
    exact h.empty j hout

theorem create_settled {seek : Bool} (hg : g.Sound) (h : Tidy g w files) (hmeant : (Call.create seek i).Meant g w)
    (hrun : (Call.create seek i).run drv g fuel w = some (done, w')) (hok : done = true ∨ Mild drv g) :
    Settled g w files i done w' := by
  simp only [Call.run, Option.map_eq_some_iff] at hrun
  obtain ⟨⟨b, v'⟩, hrun, heq⟩ := hrun
  cases heq
  have hzero : w.sclust i = 0 := hmeant
  have hnone : files i = [] := h.absent (hzero ▸ code_not_mem hg (.inl rfl))
  obtain ⟨-, hlinked⟩ | ⟨hkept, hcode⟩ | ⟨hb, hhalf⟩ := createChain_cases hg h.coherent hrun
  · have htable := hlinked.table
    simp only [withLink, if_true] at htable
    refine ⟨[b], ?_, ?_, hlinked.spared.view⟩
    · apply h.put hlinked.spared.coherent
      · rw [htable]
        exact h.holds.create hlinked.free
      · simp [started_mem hg seek hlinked.mem]
    · intro _ hfull
      rw [started_mem hg seek hlinked.mem]
      refine ⟨?_, hlinked.counted hfull.counted, hfull.start fun hout => absurd hlinked.mem hout⟩
      dsimp only
      rw [htable]
      exact hfull.covers.create hnone
  · have htable := table_kept hg hkept
    have hout := started_not_mem hg seek (code_not_mem hg ((hcode rfl).imp_right .inl))
    have hvacant := h.vacant hnone hkept.coherent (htable ▸ h.holds) hout
    apply hvacant.settled hkept.inside.view
    intro hdone hfull
    have hzero : started seek b = 0 := by
      simp only [decide_eq_true_eq] at hdone
      have hb : b = 0 := (hcode rfl).resolve_right hdone.1
      simp [started, hb]
    have hsame := hfull.same hg hkept
    exact ⟨hsame.covers, hsame.counted, hfull.start fun _ => hzero⟩
  · subst hb
    have hmild := hok.resolve_left (by simp)
    obtain ⟨hspared, hholds⟩ := h.halfway hmild hhalf
    have hout := started_not_mem hg seek (code_not_mem hg (.inr (.inr rfl)))
    exact (h.vacant hnone hspared.coherent hholds hout).settled hspared.view (by simp)

theorem follow_settled (hg : g.Sound) (h : Tidy g w files) (hmeant : (Call.follow i c).Meant g w)
    (hrun : (Call.follow i c).run drv g fuel w = some (done, w')) (hok : done = true ∨ Mild drv g) :
    Settled g w files i done w' := by
  simp only [Call.run, Option.map_eq_some_iff] at hrun
  obtain ⟨⟨b, v'⟩, hrun, heq⟩ := hrun
  cases heq
  obtain ⟨hc, hreach⟩ := hmeant
  obtain ⟨l, r, hfile, hchain⟩ := h.split hc hreach
  have hne : c ≠ 0 := by
    have hlow := (mem_clusters.mp hc).1
    omega
  obtain ⟨hend, hlinked⟩ | ⟨hkept, -⟩ | ⟨hb, hhalf⟩ := createChain_cases hg h.coherent hrun
  · have hrest := hchain.ends (hend.resolve_left hne)
    subst hrest
    have htable := hlinked.table
    simp only [withLink, hne, if_false] at htable
    refine ⟨l ++ [c, b], ?_, ?_, hlinked.spared.view⟩
    · apply h.reshape hlinked.spared.coherent
      · rw [htable]
        exact h.holds.grow hfile hlinked.free
      · cases l <;> simp [hfile]
      · simp [hfile]
    · intro _ hfull
      refine ⟨?_, hlinked.counted hfull.counted, hfull.empty⟩
      dsimp only
      rw [htable]
      exact hfull.covers.grow hfile
  · exact (h.same hkept.coherent (table_kept hg hkept)).settled hkept.inside.view fun _ hfull => hfull.same hg hkept
  · subst hb
    have hmild := hok.resolve_left (by simp)
    obtain ⟨hspared, hholds⟩ := h.halfway hmild hhalf
    exact Tidy.settled ⟨hspared.coherent, hholds, h.starts⟩ hspared.view (by simp)

theorem truncate_settled (hg : g.Sound) (h : Tidy g w files) (hmeant : (Call.truncate i c).Meant g w)
    (hrun : (Call.truncate i c).run drv g fuel w = some (done, w')) (hok : done = true ∨ Mild drv g) :
    Settled g w files i done w' := by
  simp only [Call.run, Option.map_eq_some_iff] at hrun
  obtain ⟨⟨res, v'⟩, hrun, heq⟩ := hrun
  cases heq
  rw [decide_eq_true_iff] at hok
  obtain ⟨hc, hreach⟩ := hmeant
  obtain ⟨l, r, hfile, hchain⟩ := h.split hc hreach
  have hused : table g w.vol c ≠ .free := hchain.taken (by simp)
  obtain ⟨htable, hspared, hcount⟩ | ⟨n, v₁, hnext, hspared₁, htable, hcount, hremove⟩ :=
    truncateRest_cases hg h.coherent hc hused hrun hok
  · apply (h.same hspared.coherent htable).settled hspared.view
    intro hdone hfull
    exact ⟨htable ▸ hfull.covers, (hcount (by simpa using hdone)).2 hfull.counted, hfull.empty⟩
  · obtain ⟨r', hr⟩ := hchain.follows hnext
    subst hr
    have hout : c ∉ n :: r' := by
      have hnodup := hchain.suffix.nodup
      exact (List.nodup_cons.mp hnodup).1
    have hrest : Chain (table g v₁) (n :: r') := by
      have hsuffix : Chain (table g w.vol) (n :: r') := by
        have happ : l ++ c :: n :: r' = (l ++ [c]) ++ n :: r' := by simp
        exact (happ ▸ hchain).suffix
      apply hsuffix.congr
      intro x hx
      have hxc : x ≠ c := fun heq => hout (heq ▸ hx)
      rw [htable, Function.update_of_ne hxc]
    have hn : n ∈ clusters g := mem_of_used (hrest.taken (by simp))
    obtain ⟨hspared, hkeep, hfreed⟩ := removeChain_cases hg hspared₁.coherent hn hremove hok
    have hmine : ∀ x, x ∉ n :: r' → table g v' x = Function.update (table g w.vol) c .last x := by
      intro x hx
      rw [hkeep x fun hreach => hx (hrest.reaches.mp hreach), htable]
    have hother : ∀ x, x ∉ n :: r' → x ≠ c → table g v' x = table g w.vol x := by
      intro x hx hxc
      rw [hmine x hx, Function.update_of_ne hxc]
    refine ⟨l ++ [c], ?_, ?_, (hspared₁.trans hspared).view⟩
    · apply h.reshape hspared.coherent
      · apply h.holds.cut hfile _ hother
        rw [hmine c hout, Function.update_self]
      · cases l <;> simp [hfile]
      · simp [hfile]
    · intro hdone hfull
      obtain ⟨hfree, hcounted⟩ := hfreed (by simpa using hdone)
      refine ⟨?_, hcounted (hcount hfull.counted), hfull.empty⟩
      apply hfull.covers.cut hfile _ hother
      intro x hx
      exact hfree x (hrest.reaches.mpr hx)

theorem remove_settled (hg : g.Sound) (h : Tidy g w files) (hrun : (Call.remove i).run drv g fuel w = some (done, w'))
    (hok : done = true ∨ Mild drv g) : Settled g w files i done w' := by
  simp only [Call.run, Option.map_eq_some_iff] at hrun
  obtain ⟨⟨res, v'⟩, hrun, heq⟩ := hrun
  cases heq
  rw [decide_eq_true_iff] at hok
  have hzero : 0 ∉ clusters g := code_not_mem hg (.inl rfl)
  by_cases hin : w.sclust i ∈ clusters g
  · obtain ⟨l, hfile⟩ := h.present hin
    have hchain := h.holds.chained i (by simp [hfile])
    rw [hfile] at hchain
    obtain ⟨hspared, hkeep, hfreed⟩ := removeChain_cases hg h.coherent hin hrun hok
    have hother : ∀ x, x ∉ files i → table g v' x = table g w.vol x := by
      intro x hx
      exact hkeep x fun hreach => hx (hfile ▸ hchain.reaches.mp hreach)
    refine ⟨[], h.put hspared.coherent (h.holds.drop hother) (.inl ⟨rfl, hzero⟩), ?_, hspared.view⟩
    intro hdone hfull
    obtain ⟨hfree, hcounted⟩ := hfreed (by simpa using hdone)
    refine ⟨?_, hcounted hfull.counted, hfull.start fun _ => rfl⟩
    apply hfull.covers.drop _ hother
    intro x hx
    exact hfree x (hchain.reaches.mpr (hfile ▸ hx))
  · have hnone := h.absent hin
    have hrange : w.sclust i < 2 ∨ w.sclust i ≥ g.n_fatent := by
      rw [mem_clusters] at hin
      omega
    unfold removeChain at hrun
    rw [if_pos hrange] at hrun
    cases hrun
    exact (h.vacant hnone h.coherent h.holds hzero).settled (fun _ _ => rfl) (by simp)

/-- One call of a file function keeps the chains apart. -/
theorem Call.settled {a : Call ι} (hg : g.Sound) (h : Tidy g w files) (hmeant : a.Meant g w)
    (hrun : a.run drv g fuel w = some (done, w')) (hok : done = true ∨ Mild drv g) : Settled g w files a.file done w' := by
  cases a with
  | create seek i => exact create_settled hg h hmeant hrun hok
  | follow i clust => exact follow_settled hg h hmeant hrun hok
  | truncate i clust => exact truncate_settled hg h hmeant hrun hok
  | remove i => exact remove_settled hg h hrun hok

theorem Call.returns {a : Call ι} (drv : Drive) (hg : g.Sound) (hfuel : g.n_fatent ≤ fuel) (h : Coherent w.vol)
    (hmeant : a.Meant g w) : ∃ r, a.run drv g fuel w = some r := by
  cases a with
  | create seek i =>
    obtain ⟨r, hrun⟩ := createChain_returns drv 0 hg hfuel w.vol
    exact ⟨_, by rw [Call.run, hrun]; rfl⟩
  | follow i clust =>
    obtain ⟨r, hrun⟩ := createChain_returns drv clust hg hfuel w.vol
    exact ⟨_, by rw [Call.run, hrun]; rfl⟩
  | truncate i clust =>
    obtain ⟨r, hrun⟩ := truncateRest_returns drv hg h hmeant.1 hfuel
    exact ⟨_, by rw [Call.run, hrun]; rfl⟩
  | remove i =>
    obtain ⟨r, hrun⟩ := removeChain_returns drv (w.sclust i) hg h hfuel
    exact ⟨_, by rw [Call.run, hrun]; rfl⟩

/- What all other functions of the file system leave of the first FAT and of the count. -/
structure Aside (g : Geometry) (v v' : Volume) : Prop where
  coherent : Coherent v'
  view : ∀ s, g.InTable s → ¬ g.InCopy s → v'.view s = v.view s
  free_clust : v'.free_clust = v.free_clust

theorem table_aside (hg : g.Sound) (h : Aside g v v') : table g v' = table g v := by
  have hbyte : ∀ k, k < g.fsize * SS → fatByte g v' k = fatByte g v k := by
    intro k hk
    have hdiv : k / SS < g.fsize := Nat.div_lt_of_lt_mul (by rwa [Nat.mul_comm])
    unfold fatByte
    rw [h.view _ (inTable hg hk)]
    unfold Geometry.InCopy
    omega
  funext d
  unfold table
  split
  · rename_i hd
    have hhigh := (mem_clusters.mp hd).2
    have hsame : entry g v' d = entry g v d := by
      unfold entry
      rw [decode_congr hhigh]
      intro k hk
      have hroom := hg.room
      exact hbyte k (by omega)
    rw [hsame]
  · rfl

/- Calls for the files of the list, the last one first, with other accesses between them; `faults` says whether calls
may have reported errors. -/
inductive Run (drv : Drive) (g : Geometry) (fuel : ℕ) (faults : Bool) : World ι → List ι → World ι → Prop
  | refl (w : World ι) : Run drv g fuel faults w [] w
  | call {w w₁ w' : World ι} {who : List ι} {a : Call ι} {done : Bool} (before : Run drv g fuel faults w who w₁)
      (hmeant : a.Meant g w₁) (hrun : a.run drv g fuel w₁ = some (done, w')) (hdone : faults = false → done = true) :
      Run drv g fuel faults w (a.file :: who) w'
  | aside {w w₁ : World ι} {who : List ι} {v' : Volume} (before : Run drv g fuel faults w who w₁)
      (haside : Aside g w₁.vol v') : Run drv g fuel faults w who ⟨v', w₁.sclust⟩

theorem Run.exact {who : List ι} (hg : g.Sound) (h : Exact g w files) (hrun : Run drv g fuel false w who w') :
    ∃ files', Exact g w' files' ∧ ∀ j, j ∉ who → files' j = files j := by
  induction hrun with
  | refl => exact ⟨files, h, fun _ _ => rfl⟩
  | call before hmeant hrun hdone ih =>
    obtain ⟨files₁, hexact, hothers⟩ := ih
    have hgood := hdone rfl
    obtain ⟨l, htidy, hfull, -⟩ := Call.settled hg hexact.toTidy hmeant hrun (.inl hgood)
    refine ⟨_, ⟨htidy, hfull hgood hexact.toFull⟩, ?_⟩
    intro j hj
    simp only [List.mem_cons, not_or] at hj
    rw [Function.update_of_ne hj.1, hothers j hj.2]
  | aside before haside ih =>
    obtain ⟨files₁, hexact, hothers⟩ := ih
    have htable := table_aside hg haside
    refine ⟨files₁, ⟨hexact.toTidy.same haside.coherent htable, htable ▸ hexact.covers, ?_, hexact.empty⟩, hothers⟩
    have hcounted := hexact.counted
    unfold Counted freeClusters at *
    rw [haside.free_clust, htable]
    exact hcounted

theorem Run.tidy {who : List ι} (hg : g.Sound) (hmild : Mild drv g) (h : Tidy g w files)
    (hrun : Run drv g fuel true w who w') : ∃ files', Tidy g w' files' ∧ ∀ j, j ∉ who → files' j = files j := by
  induction hrun with
  | refl => exact ⟨files, h, fun _ _ => rfl⟩
  | call before hmeant hrun _ ih =>
    obtain ⟨files₁, htidy, hothers⟩ := ih
    obtain ⟨l, hnew, -⟩ := Call.settled hg htidy hmeant hrun (.inr hmild)
    refine ⟨_, hnew, ?_⟩
    intro j hj
    simp only [List.mem_cons, not_or] at hj
    rw [Function.update_of_ne hj.1, hothers j hj.2]
  | aside before haside ih =>
    obtain ⟨files₁, htidy, hothers⟩ := ih
    exact ⟨files₁, htidy.same haside.coherent (table_aside hg haside), hothers⟩

/- What a call made of the blank volume. -/
theorem first_call {i : ι} {seek : Bool} (hrun : (Call.create seek i).run drv g fuel ⟨v, fun _ => 0⟩ = some (done, w)) {j : ι} (hj : j ≠ i) :
    w.sclust j = 0 := by
  simp only [Call.run, Option.map_eq_some_iff, Prod.mk.injEq] at hrun
  obtain ⟨r, -, -, heq⟩ := hrun
  subst heq
  simp [Function.update_of_ne hj]

/-- When writing fails clusters may be lost, but still none is in two chains, and no chain leads to a free one. -/
theorem run_tidy {who : List ι} (hg : g.Sound) (hfuel : g.n_fatent ≤ fuel) (hmild : Mild drv g) (h : Tidy g w files)
    (hrun : Run drv g fuel true w who w') :
    ∃ files', Tidy g w' files' ∧ (∀ j, j ∉ who → files' j = files j) ∧
      ∀ a : Call ι, a.Meant g w' → ∃ r, a.run drv g fuel w' = some r := by
  obtain ⟨files', htidy, hothers⟩ := hrun.tidy hg hmild h
  exact ⟨files', htidy, hothers, fun a hmeant => Call.returns drv hg hfuel htidy.coherent hmeant⟩

/- One FAT of twenty sectors. -/
def stick : Geometry where
  fs_type := .FAT16
  csize := 1
  n_fats := 1
  n_rootdir := 16
  n_fatent := 5002
  fsize := 20
  volbase := 0
  fatbase := 1
  dirbase := 21
  database := 22

theorem stick_sound : stick.Sound where
  mounted := by decide
  copies := by decide
  data := by decide
  limit := by decide
  room := by decide
  area := by decide

/- No write succeeds. -/
def lockedDrive : Drive := ⟨fun _ => none, fun _ => some fun _ _ => 0xFF, fun _ => true⟩

/- The window has an entry of the root directory that is not on the card yet. -/
def editedVolume : Volume := { blankVolume with win := fun _ => 0xE5, winsect := 21, wflag := true }

theorem edited_tidy : Tidy stick ⟨editedVolume, fun _ : Bool => 0⟩ fun _ => [] :=
  ⟨⟨by simp [editedVolume], by decide⟩, ⟨by simp, by simp⟩, fun _ => .inl ⟨rfl, code_not_mem stick_sound (.inl rfl)⟩⟩

theorem run_tidy_locked : ∃ w' : World Bool, Run lockedDrive stick 5002 true ⟨editedVolume, fun _ => 0⟩ [false] w' ∧
    w'.sclust false = 0xFFFFFFFF ∧ ∃ files, Tidy stick w' files := by
  have hmild : Mild lockedDrive stick := ⟨fun _ => rfl, by decide⟩
  obtain ⟨⟨done, w'⟩, hcall⟩ := Call.returns (w := ⟨editedVolume, fun _ : Bool => 0⟩) (a := .create false false) lockedDrive stick_sound
    (Nat.le_refl 5002) edited_tidy.coherent rfl
  have hcode : ((Call.create false false).run lockedDrive stick 5002 ⟨editedVolume, fun _ : Bool => 0⟩).map
      (fun r => r.2.sclust false) = some 0xFFFFFFFF := by decide
  rw [hcall] at hcode
  have hrun : Run lockedDrive stick 5002 true ⟨editedVolume, fun _ => 0⟩ [false] w' :=
    .call (.refl _) (a := .create false false) rfl hcall (by simp)
  obtain ⟨files, htidy, -⟩ := run_tidy stick_sound (Nat.le_refl 5002) hmild edited_tidy hrun
  exact ⟨w', hrun, by simpa using hcode, files, htidy⟩

end MultiEmbedded.Fat
