import MultiEmbedded.Fat.Files

/-!
# The contents of the files (src/ff.c)

The sectors of a file are those of its clusters. They are written past the window, and
the sectors of a directory through it. What is done to one file reaches no other.
-/

namespace MultiEmbedded.Fat
open Chains

/- `disk_write` of `count` sectors of a file from a buffer. -/
def dataWrite (drv : Drive) (sect count : ℕ) (buf : ℕ → Sector) (v : Volume) : Bool × Volume :=
  let put (data : ℕ → Sector) : Volume :=
    { v with
      disk := fun s => if sect ≤ s ∧ s < sect + count then data (s - sect) else v.disk s
      transfers := v.transfers + 1 }
  match drv.write v.transfers with
  | none => (true, put buf)
  | some junk => (false, put junk)

/- The data area lies behind the FAT and ends on the card. -/
structure Geometry.Roomy (g : Geometry) : Prop where
  size : 1 ≤ g.csize
  behind : g.fatbase + g.n_fats * g.fsize ≤ g.database
  fits : g.database + (g.n_fatent - 2) * g.csize ≤ 2 ^ 32

def Geometry.InCluster (g : Geometry) (c s : ℕ) : Prop := clust2sect g c ≤ s ∧ s < clust2sect g c + g.csize

def content (g : Geometry) (v : Volume) (l : List ℕ) : List Sector :=
  l.flatMap fun c => (List.range g.csize).map fun k => v.view (clust2sect g c + k)

variable {drv : Drive} {g : Geometry} {v v' : Volume} {c d s fuel : ℕ} {l : List ℕ}

/-! ### Clusters and sectors -/

theorem clust2sect_eq (hg : g.Sound) (hroom : g.Roomy) (hc : c ∈ clusters g) :
    clust2sect g c = g.database + (c - 2) * g.csize := by
  obtain ⟨hlow, hhigh⟩ := mem_clusters.mp hc
  have hlimit := hg.limit
  have hsmall := endMark_lt g.fs_type
  have hsize := hroom.size
  have hfits := hroom.fits
  have hnext : (c - 2) * g.csize + g.csize ≤ (g.n_fatent - 2) * g.csize := by
    rw [← Nat.succ_mul]
    exact Nat.mul_le_mul_right _ (by omega)
  have hc : dword (c + 2 ^ 32 - 2) = c - 2 := by
    unfold dword
    omega
  have hn : dword (g.n_fatent + 2 ^ 32 - 2) = g.n_fatent - 2 := by
    unfold dword
    omega
  unfold clust2sect
  rw [hc, hn, if_neg (by omega)]
  unfold dword
  omega

theorem cluster_unique (hg : g.Sound) (hroom : g.Roomy) (hc : c ∈ clusters g) (hd : d ∈ clusters g)
    (hcs : g.InCluster c s) (hds : g.InCluster d s) : c = d := by
  have hquot : ∀ e ∈ clusters g, g.InCluster e s → (s - g.database) / g.csize = e - 2 := by
    intro e he hes
    obtain ⟨hlow, hhigh⟩ := hes
    rw [clust2sect_eq hg hroom he] at hlow hhigh
    apply Nat.div_eq_of_lt_le
    · omega
    · rw [Nat.succ_mul]
      omega
  have hlowc := (mem_clusters.mp hc).1
  have hlowd := (mem_clusters.mp hd).1
  have heq := (hquot c hc hcs).symm.trans (hquot d hd hds)
  omega

theorem cluster_out (hg : g.Sound) (hroom : g.Roomy) (hc : c ∈ clusters g) (hs : g.InCluster c s) : ¬ g.InTable s := by
  have hbehind := hroom.behind
  obtain ⟨hlow, -⟩ := hs
  rw [clust2sect_eq hg hroom hc] at hlow
  unfold Geometry.InTable
  omega

theorem content_congr (h : ∀ c ∈ l, ∀ s, g.InCluster c s → v'.view s = v.view s) : content g v' l = content g v l := by
  unfold content
  apply List.flatMap_congr
  intro c hc
  apply List.map_congr_left
  intro k hk
  exact h c hc _ ⟨Nat.le_add_right _ _, Nat.add_lt_add_left (List.mem_range.mp hk) _⟩

/-! ### Accesses -/

variable {ι : Type*} {w w' : World ι} {files : ι → List ℕ} {i : ι} {done : Bool}

/- What a function on the file `i` may change besides the chains: sectors of its own clusters, and those that are
neither in the FAT nor in the data area. -/
structure Access (g : Geometry) (w : World ι) (i : ι) (v' : Volume) : Prop where
  coherent : Coherent v'
  free_clust : v'.free_clust = w.vol.free_clust
  view : ∀ s, ¬ g.InCopy s → (g.InTable s ∨ ∃ c ∈ clusters g, g.InCluster c s) →
    (∀ c ∈ clusters g, Reaches (table g w.vol) (w.sclust i) c → ¬ g.InCluster c s) → v'.view s = w.vol.view s

theorem Access.aside (hg : g.Sound) (hroom : g.Roomy) (h : Access g w i v') : Aside g w.vol v' := by
  refine ⟨h.coherent, ?_, h.free_clust⟩
  intro s hs hcopy
  exact h.view s hcopy (.inl hs) fun c hc _ hin => cluster_out hg hroom hc hin hs

variable [DecidableEq ι]

omit [DecidableEq ι] in
/- The contents of the files that the access is not for. -/
theorem Access.content (hg : g.Sound) (hroom : g.Roomy) (h : Tidy g w files) (haccess : Access g w i v') {j : ι}
    (hj : j ≠ i) : content g v' (files j) = content g w.vol (files j) := by
  apply content_congr
  intro c hc s hs
  have hin : c ∈ clusters g := mem_of_used ((h.holds.chained j (List.ne_nil_of_mem hc)).taken hc)
  apply haccess.view s
  · have hout := cluster_out hg hroom hin hs
    unfold Geometry.InTable at hout
    unfold Geometry.InCopy
    omega
  · exact .inr ⟨c, hin, hs⟩
  · intro d hd hreach hds
    obtain ⟨l, r, hfile, -⟩ := h.split hd hreach
    have heq := cluster_unique hg hroom hd hin hds hs
    subst heq
    exact hj (h.holds.apart j i d hc (by simp [hfile]))

end MultiEmbedded.Fat
