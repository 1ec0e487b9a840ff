import MultiEmbedded.Fat.Content

/-!
# Finding the volume (src/ff.c)

The volume is described in its boot sector, which is sector 0 of the card or the first
of a partition. A description that the checks let through, and whose sums do not go
over 32 bits, is one the functions on the FAT are right for.
-/

namespace MultiEmbedded.Fat

/- The fields of the boot sector that are looked at; `fatSz` and `totSec` are the 32-bit ones if the others are 0. -/
structure Bpb where
  bytsPerSec : ℕ
  secPerClus : ℕ
  rsvdSecCnt : ℕ
  numFATs : ℕ
  rootEntCnt : ℕ
  totSec : ℕ
  fatSz : ℕ
  rootClus : ℕ
  fsInfo : ℕ

def wordOf (b : Sector) (i : ℕ) : BitVec 16 := LD_WORD (b (place i)) (b (place (i + 1)))

def dwordOf (b : Sector) (i : ℕ) : BitVec 32 :=
  LD_DWORD (b (place i)) (b (place (i + 1))) (b (place (i + 2))) (b (place (i + 3)))

def bpbOf (b : Sector) : Bpb where
  bytsPerSec := (wordOf b 11).toNat
  secPerClus := (b (place 13)).toNat
  rsvdSecCnt := (wordOf b 14).toNat
  numFATs := (b (place 16)).toNat
  rootEntCnt := (wordOf b 17).toNat
  totSec := if wordOf b 19 = 0 then (dwordOf b 32).toNat else (wordOf b 19).toNat
  fatSz := if wordOf b 22 = 0 then (dwordOf b 36).toNat else (wordOf b 22).toNat
  rootClus := (dwordOf b 44).toNat
  fsInfo := (wordOf b 48).toNat

namespace Bpb
variable (b : Bpb)

def fasize : ℕ := dword (b.fatSz * b.numFATs)

/- The sectors in front of the data area. -/
def sysect : ℕ := dword (b.rsvdSecCnt + b.fasize + b.rootEntCnt / (SS / 32))

def nclst : ℕ := (b.totSec - b.sysect) / b.secPerClus

def fmt : FsType := if b.nclst ≥ 65526 then .FAT32 else if b.nclst ≥ 4086 then .FAT16 else .FAT12

/- The octets that a FAT needs. -/
def szbfat : ℕ :=
  let n := dword (b.nclst + 2)
  match b.fmt with
  | .FAT32 => dword (n * 4)
  | .FAT16 => dword (n * 2)
  | _ => dword (dword (n * 3) / 2 + n % 2)

/- What `find_volume` asks of a boot sector. -/
structure Valid : Prop where
  bytsPerSec : b.bytsPerSec = SS
  numFATs : b.numFATs = 1 ∨ b.numFATs = 2
  secPerClus : b.secPerClus ≠ 0 ∧ b.secPerClus &&& (b.secPerClus - 1) = 0
  rootEntCnt : b.rootEntCnt % (SS / 32) = 0
  rsvdSecCnt : b.rsvdSecCnt ≠ 0
  totSec : b.sysect ≤ b.totSec
  nclst : b.nclst ≠ 0
  root : b.fmt = .FAT32 ↔ b.rootEntCnt = 0
  fatSz : dword (b.szbfat + (SS - 1)) / SS ≤ b.fatSz

instance : Decidable b.Valid :=
  decidable_of_iff (b.bytsPerSec = SS ∧ (b.numFATs = 1 ∨ b.numFATs = 2) ∧
      (b.secPerClus ≠ 0 ∧ b.secPerClus &&& (b.secPerClus - 1) = 0) ∧ b.rootEntCnt % (SS / 32) = 0 ∧ b.rsvdSecCnt ≠ 0 ∧
      b.sysect ≤ b.totSec ∧ b.nclst ≠ 0 ∧ (b.fmt = .FAT32 ↔ b.rootEntCnt = 0) ∧ dword (b.szbfat + (SS - 1)) / SS ≤ b.fatSz)
    ⟨fun ⟨h₁, h₂, h₃, h₄, h₅, h₆, h₇, h₈, h₉⟩ => ⟨h₁, h₂, h₃, h₄, h₅, h₆, h₇, h₈, h₉⟩,
      fun h => ⟨h.1, h.2, h.3, h.4, h.5, h.6, h.7, h.8, h.9⟩⟩

def geometry (bsect : ℕ) : Option Geometry :=
  if b.Valid then
    some {
      fs_type := b.fmt
      csize := b.secPerClus
      n_fats := b.numFATs
      n_rootdir := b.rootEntCnt
      n_fatent := dword (b.nclst + 2)
      fsize := b.fatSz
      volbase := bsect
      fatbase := dword (bsect + b.rsvdSecCnt)
      dirbase := if b.fmt = .FAT32 then b.rootClus else dword (dword (bsect + b.rsvdSecCnt) + b.fasize)
      database := dword (bsect + b.sysect) }
  else none

/- The sums stay below 2^32, and the clusters have numbers below the end mark. -/
structure Fits (bsect : ℕ) : Prop where
  system : b.rsvdSecCnt + b.fatSz * b.numFATs + b.rootEntCnt / (SS / 32) < 2 ^ 32
  volume : bsect + b.totSec ≤ 2 ^ 32
  clusters : b.nclst + 2 ≤ 0x0FFFFFFF

end Bpb

section Source
variable (drv : Drive) (g : Geometry)

/- 0: a FAT boot sector, 1: another boot sector, 2: no boot sector, 3: disk error. -/
def checkFs (sect : ℕ) (v : Volume) : ℕ × Volume :=
  match moveWindow drv g sect { v with wflag := false, winsect := 0xFFFFFFFF } with
  | (.FR_OK, v) =>
    if wordOf v.win 510 ≠ 0xAA55 then (2, v)
    else if dwordOf v.win 54 &&& 0xFFFFFF#32 = 0x544146 then (0, v)
    else if dwordOf v.win 82 &&& 0xFFFFFF#32 = 0x544146 then (0, v)
    else (1, v)
  | (_, v) => (3, v)

/- Where the four partitions start, 0 without one. -/
def partitions (b : Sector) : List ℕ :=
  (List.range 4).map fun i => if b (place (446 + i * 16 + 4)) ≠ 0 then (dwordOf b (446 + i * 16 + 8)).toNat else 0

/- The `do` loop: what the last check said, and of which sector. -/
def searchLoop (fmt bsect : ℕ) : List ℕ → Volume → ℕ × ℕ × Volume
  | [], v => (fmt, bsect, v)
  | start :: rest, v =>
    let r := if start ≠ 0 then checkFs drv g start v else (2, v)
    if r.1 ≠ 0 then searchLoop r.1 start rest r.2 else (0, start, r.2)

/- The counters, from the FSINFO sector if there is one. -/
def loadInfo (fsInfo bsect : ℕ) (v : Volume) : Volume :=
  let v := { v with last_clust := 0xFFFFFFFF, free_clust := 0xFFFFFFFF, fsi_flag := 0x80 }
  if g.fs_type = .FAT32 ∧ fsInfo = 1 then
    match moveWindow drv g (dword (bsect + 1)) v with
    | (.FR_OK, v) =>
      let v := { v with fsi_flag := 0 }
      if wordOf v.win 510 = 0xAA55 ∧ dwordOf v.win 0 = 0x41615252 ∧ dwordOf v.win 484 = 0x61417272 then
        { v with free_clust := (dwordOf v.win 488).toNat, last_clust := (dwordOf v.win 492).toNat }
      else v
    | (_, v) => v
  else v

/- `find_volume` once the card is initialized; `g` is what is left of the volume mounted before. -/
def findVolume (v : Volume) : FResult × Option Geometry × Volume :=
  let r := checkFs drv g 0 v
  let r := if r.1 = 1 then searchLoop drv g r.1 0 (partitions r.2.win) r.2 else (r.1, 0, r.2)
  if r.1 = 3 then (.FR_DISK_ERR, none, r.2.2)
  else if r.1 ≠ 0 then (.FR_NO_FILESYSTEM, none, r.2.2)
  else
    match (bpbOf r.2.2.win).geometry r.2.1 with
    | none => (.FR_NO_FILESYSTEM, none, r.2.2)
    | some g => (.FR_OK, some g, loadInfo drv g (bpbOf r.2.2.win).fsInfo r.2.1 r.2.2)

end Source

/-! ### The layout -/

variable {b : Bpb} {bsect : ℕ} {g g' : Geometry} {drv : Drive} {v v' : Volume}

theorem dword_of_lt {x : ℕ} (h : x < 2 ^ 32) : dword x = x := Nat.mod_eq_of_lt h

theorem Bpb.sysect_eq (h : b.Fits bsect) : b.sysect = b.rsvdSecCnt + b.fatSz * b.numFATs + b.rootEntCnt / (SS / 32) := by
  have hsystem := h.system
  have hle : b.fatSz * b.numFATs ≤ b.rsvdSecCnt + b.fatSz * b.numFATs + b.rootEntCnt / (SS / 32) :=
    Nat.le_trans (Nat.le_add_left _ _) (Nat.le_add_right _ _)
  have hfasize : b.fasize = b.fatSz * b.numFATs := dword_of_lt (Nat.lt_of_le_of_lt hle hsystem)
  unfold sysect
  rw [hfasize, dword_of_lt hsystem]

theorem Bpb.nclst_eq (h : b.Fits bsect) : dword (b.nclst + 2) = b.nclst + 2 := by
  have hclusters := h.clusters
  apply dword_of_lt
  omega

theorem Bpb.fmt_mounted (b : Bpb) : b.fmt ≠ .none := by
  unfold fmt
  split
  · simp
  · split <;> simp

theorem Bpb.nclst_limit (h : b.Fits bsect) : b.nclst + 2 ≤ endMark b.fmt := by
  unfold fmt
  split
  · exact h.clusters
  · split
    · simp only [endMark]
      omega
    · simp only [endMark]
      omega

/-- The octets that a FAT needs for all its entries. -/
theorem Bpb.szbfat_eq (h : b.Fits bsect) : b.szbfat = tableBytes b.fmt (b.nclst + 2) := by
  have hclusters := h.clusters
  unfold szbfat
  simp only [nclst_eq h]
  cases hfmt : b.fmt with
  | none => exact absurd hfmt b.fmt_mounted
  | FAT12 =>
    simp only [tableBytes]
    rw [dword_of_lt (by omega : (b.nclst + 2) * 3 < 2 ^ 32), dword_of_lt (by omega)]
  | FAT16 => exact dword_of_lt (by omega)
  | FAT32 => exact dword_of_lt (by omega)

/-- The division rounds up. -/
theorem Bpb.room (h : b.Fits bsect) (hvalid : b.Valid) : tableBytes b.fmt (b.nclst + 2) ≤ b.fatSz * SS := by
  have hclusters := h.clusters
  have hfatSz := hvalid.fatSz
  rw [szbfat_eq h] at hfatSz
  have hsmall : tableBytes b.fmt (b.nclst + 2) ≤ (b.nclst + 2) * 4 := by
    cases b.fmt <;> simp only [tableBytes] <;> omega
  unfold SS at *
  rw [dword_of_lt (by omega)] at hfatSz
  omega

theorem geometry_sound (hgeo : b.geometry bsect = some g) (hfits : b.Fits bsect) : g.Sound ∧ g.Roomy := by
  unfold Bpb.geometry at hgeo
  split at hgeo
  · rename_i hvalid
    cases hgeo
    have hvolume := hfits.volume
    have hsysect := Bpb.sysect_eq hfits
    have htotal := hvalid.totSec
    have hsome := hvalid.nclst
    have hdata : b.nclst * b.secPerClus ≤ b.totSec - b.sysect := Nat.div_mul_le_self _ _
    have hsize : 1 ≤ b.secPerClus := Nat.one_le_iff_ne_zero.mpr hvalid.secPerClus.1
    have hmore : 1 * 1 ≤ b.nclst * b.secPerClus := Nat.mul_le_mul (by omega) hsize
    have hsystem : b.rsvdSecCnt + b.numFATs * b.fatSz ≤ b.sysect := by
      rw [hsysect, Nat.mul_comm b.numFATs]
      exact Nat.le_add_right _ _
    have hbase : dword (bsect + b.rsvdSecCnt) = bsect + b.rsvdSecCnt := dword_of_lt (by omega)
    have hstart : dword (bsect + b.sysect) = bsect + b.sysect := dword_of_lt (by omega)
    constructor
    · constructor
      · exact b.fmt_mounted
      · have hcopies := hvalid.numFATs
        dsimp only
        omega
      · dsimp only
        rw [Bpb.nclst_eq hfits]
        omega
      · dsimp only
        rw [Bpb.nclst_eq hfits]
        exact Bpb.nclst_limit hfits
      · dsimp only
        rw [Bpb.nclst_eq hfits]
        exact Bpb.room hfits hvalid
      · dsimp only
        rw [hbase]
        omega
    · constructor
      · exact hsize
      · dsimp only
        rw [hbase, hstart]
        omega
      · dsimp only
        rw [Bpb.nclst_eq hfits, hstart, Nat.add_sub_cancel]
        omega
  · simp at hgeo

/-! ### The boot sector -/

/- The window has the sector, and nothing was written. -/
structure Loaded (v : Volume) (sect : ℕ) (v' : Volume) : Prop where
  disk : v'.disk = v.disk
  wflag : v'.wflag = false
  win : v'.win = v.disk sect
  winsect : v'.winsect = sect

theorem moveWindow_loads (drv : Drive) (g : Geometry) (sect : ℕ) (hflag : v.wflag = false) :
    (moveWindow drv g sect v).2.disk = v.disk ∧ (moveWindow drv g sect v).2.wflag = false ∧
      ((moveWindow drv g sect v).1 = .FR_OK → sect ≠ v.winsect → Loaded v sect (moveWindow drv g sect v).2) := by
  have hsync : syncWindow drv g v = (.FR_OK, v) := by simp [syncWindow, hflag]
  unfold moveWindow
  rw [hsync]
  by_cases hsame : sect = v.winsect
  · simp [hsame, hflag]
  · simp only [ne_eq, hsame, not_false_eq_true, if_true, diskRead]
    cases drv.read v.transfers with
    | none => exact ⟨rfl, hflag, fun _ _ => ⟨rfl, hflag, rfl, rfl⟩⟩
    | some junk => exact ⟨rfl, hflag, fun hok => by simp at hok⟩

theorem checkFs_loads (drv : Drive) (g : Geometry) (sect : ℕ) (v : Volume) : (checkFs drv g sect v).2.disk = v.disk ∧
    ((checkFs drv g sect v).1 ≠ 3 → sect ≠ 0xFFFFFFFF → Loaded v sect (checkFs drv g sect v).2) := by
  obtain ⟨hdisk, -, hloads⟩ := moveWindow_loads drv g sect (v := { v with wflag := false, winsect := 0xFFFFFFFF }) rfl
  unfold checkFs
  cases hmove : moveWindow drv g sect { v with wflag := false, winsect := 0xFFFFFFFF } with
  | mk res v₁ =>
    rw [hmove] at hdisk hloads
    cases res with
    | FR_OK =>
      have hloaded : sect ≠ 0xFFFFFFFF → Loaded v sect v₁ := by
        intro hsect
        have hnew := hloads rfl hsect
        exact ⟨hnew.disk, hnew.wflag, hnew.win, hnew.winsect⟩
      dsimp only
      split
      · exact ⟨hdisk, fun _ => hloaded⟩
      · split
        · exact ⟨hdisk, fun _ => hloaded⟩
        · split
          · exact ⟨hdisk, fun _ => hloaded⟩
          · exact ⟨hdisk, fun _ => hloaded⟩
    | _ => exact ⟨hdisk, fun hfmt => absurd rfl hfmt⟩

/-- The loop stops at the first FAT boot sector. -/
theorem searchLoop_found {fmt bs : ℕ} {l : List ℕ} (hfmt : fmt ≠ 0) (hne : bsect ≠ 0xFFFFFFFF)
    (hrun : searchLoop drv g fmt bs l v = (0, bsect, v')) : Loaded v bsect v' := by
  induction l generalizing fmt bs v with
  | nil =>
    cases hrun
    exact absurd rfl hfmt
  | cons start rest ih =>
    unfold searchLoop at hrun
    by_cases hstart : start = 0
    · simp only [hstart, ne_eq, not_true_eq_false, if_false] at hrun
      exact ih (by decide) hrun
    · simp only [ne_eq, hstart, not_false_eq_true, if_true] at hrun
      obtain ⟨hdisk, hloads⟩ := checkFs_loads drv g start v
      split at hrun
      · rename_i hnot
        have hloaded := ih hnot hrun
        exact ⟨hloaded.disk.trans hdisk, hloaded.wflag, hdisk ▸ hloaded.win, hloaded.winsect⟩
      · rename_i hzero
        simp only [Decidable.not_not] at hzero
        cases hrun
        exact hloads (by rw [hzero]; decide) hne

theorem Loaded.coherent (h : Loaded v bsect v') (hlt : bsect < 2 ^ 32) : Coherent v' := by
  refine ⟨fun _ => ?_, h.winsect ▸ hlt⟩
  rw [h.disk, h.winsect, h.win]

theorem loadInfo_loads {fsInfo : ℕ} (hflag : v.wflag = false) : (loadInfo drv g fsInfo bsect v).disk = v.disk := by
  unfold loadInfo
  dsimp only
  split
  · obtain ⟨hdisk, -⟩ := moveWindow_loads drv g (dword (bsect + 1))
      (v := { v with last_clust := 0xFFFFFFFF, free_clust := 0xFFFFFFFF, fsi_flag := 0x80 }) hflag
    cases hmove : moveWindow drv g (dword (bsect + 1))
        { v with last_clust := 0xFFFFFFFF, free_clust := 0xFFFFFFFF, fsi_flag := 0x80 } with
    | mk res v₁ =>
      rw [hmove] at hdisk
      cases res with
      | FR_OK =>
        dsimp only
        split <;> exact hdisk
      | _ => exact hdisk
  · rfl

theorem loadInfo_coherent {fsInfo : ℕ} (hg : g.Sound) (hd : drv.Legible) (h : Coherent v) :
    Coherent (loadInfo drv g fsInfo bsect v) := by
  unfold loadInfo
  dsimp only
  split
  · have hsect : dword (bsect + 1) < 2 ^ 32 := Nat.mod_lt _ (by decide)
    have hstart : Coherent { v with last_clust := 0xFFFFFFFF, free_clust := 0xFFFFFFFF, fsi_flag := 0x80 } :=
      ⟨h.clean, h.range⟩
    have hcoherent := (moveWindow_moved hg hstart hsect (.inr hd)).coherent
    cases hmove : moveWindow drv g (dword (bsect + 1))
        { v with last_clust := 0xFFFFFFFF, free_clust := 0xFFFFFFFF, fsi_flag := 0x80 } with
    | mk res v₁ =>
      rw [hmove] at hcoherent
      cases res with
      | FR_OK =>
        dsimp only
        split <;> exact ⟨hcoherent.clean, hcoherent.range⟩
      | _ => exact hcoherent
  · exact ⟨h.clean, h.range⟩

theorem geometry_volbase (hgeo : b.geometry bsect = some g) : g.volbase = bsect := by
  unfold Bpb.geometry at hgeo
  split at hgeo
  · cases hgeo
    rfl
  · simp at hgeo

/- A volume that starts at the last of all sectors is described by what the window had before. -/
theorem findVolume_found (hrun : findVolume drv g v = (.FR_OK, some g', v')) (hlast : g'.volbase ≠ 0xFFFFFFFF) :
    ∃ v₁, Loaded v g'.volbase v₁ ∧ (bpbOf (v.disk g'.volbase)).geometry g'.volbase = some g' ∧
      v' = loadInfo drv g' (bpbOf (v.disk g'.volbase)).fsInfo g'.volbase v₁ := by
  obtain ⟨hdisk, hloads⟩ := checkFs_loads drv g 0 v
  have hfound : ∀ bsect v₁, (bsect ≠ 0xFFFFFFFF → Loaded v bsect v₁) →
      (match (bpbOf v₁.win).geometry bsect with
        | none => (FResult.FR_NO_FILESYSTEM, none, v₁)
        | some g => (.FR_OK, some g, loadInfo drv g (bpbOf v₁.win).fsInfo bsect v₁)) = (.FR_OK, some g', v') →
      ∃ v₁, Loaded v g'.volbase v₁ ∧ (bpbOf (v.disk g'.volbase)).geometry g'.volbase = some g' ∧
        v' = loadInfo drv g' (bpbOf (v.disk g'.volbase)).fsInfo g'.volbase v₁ := by
    intro bsect v₁ hloaded hmatch
    cases hgeo : (bpbOf v₁.win).geometry bsect with
    | none => simp [hgeo] at hmatch
    | some g₁ =>
      simp only [hgeo, Prod.mk.injEq, true_and, Option.some.injEq] at hmatch
      obtain ⟨hg, hv⟩ := hmatch
      subst hg
      have hbase := geometry_volbase hgeo
      have hloaded := hloaded (hbase ▸ hlast)
      rw [hloaded.win] at hgeo hv
      rw [hbase]
      exact ⟨v₁, hloaded, hgeo, hv.symm⟩
  unfold findVolume at hrun
  cases hcheck : checkFs drv g 0 v with
  | mk fmt v₀ =>
    rw [hcheck] at hrun hdisk hloads
    by_cases hone : fmt = 1
    · subst hone
      simp only [if_true] at hrun
      cases hsearch : searchLoop drv g 1 0 (partitions v₀.win) v₀ with
      | mk fmt' rest =>
        obtain ⟨bsect, v₁⟩ := rest
        rw [hsearch] at hrun
        dsimp only at hrun
        split at hrun
        · simp at hrun
        · split at hrun
          · simp at hrun
          · rename_i hzero
            simp only [Decidable.not_not] at hzero
            subst hzero
            apply hfound bsect v₁ _ hrun
            intro hne
            have hnew := searchLoop_found (by decide) hne hsearch
            exact ⟨hnew.disk.trans hdisk, hnew.wflag, hdisk ▸ hnew.win, hnew.winsect⟩
    · simp only [hone, if_false] at hrun
      split at hrun
      · simp at hrun
      · split at hrun
        · simp at hrun
        · rename_i hthree _
          exact hfound 0 v₀ (hloads hthree) hrun

/-- A volume that is found is one on which the functions on the FAT are right, if the sums of its description do not
go over; finding it writes nothing. -/
theorem findVolume_sound (hrun : findVolume drv g v = (.FR_OK, some g', v')) (hlast : g'.volbase ≠ 0xFFFFFFFF)
    (hfits : (bpbOf (v.disk g'.volbase)).Fits g'.volbase) :
    g'.Sound ∧ g'.Roomy ∧ v'.disk = v.disk ∧ (drv.Legible → Coherent v') := by
  obtain ⟨v₁, hloaded, hgeo, hv⟩ := findVolume_found hrun hlast
  obtain ⟨hsound, hroomy⟩ := geometry_sound hgeo hfits
  have hlt : g'.volbase < 2 ^ 32 := by
    have hvolume := hfits.volume
    have htotal : (bpbOf (v.disk g'.volbase)).totSec ≠ 0 := by
      intro hzero
      have hvalid : (bpbOf (v.disk g'.volbase)).Valid := by
        by_contra hnot
        simp [Bpb.geometry, hnot] at hgeo
      apply hvalid.nclst
      simp [Bpb.nclst, hzero]
    omega
  refine ⟨hsound, hroomy, ?_, ?_⟩
  · rw [hv]
    exact (loadInfo_loads hloaded.wflag).trans hloaded.disk
  · intro hd
    rw [hv]
    exact loadInfo_coherent hsound hd (hloaded.coherent hlt)

/- The boot sector of `floppy`. -/
def floppyBoot : Sector := fun i =>
  match i.val with
  | 12 => 0x02
  | 13 => 1
  | 14 => 1
  | 16 => 2
  | 17 => 16
  | 19 => 0x5C
  | 20 => 0x01
  | 22 => 2
  | 54 => 0x46
  | 55 => 0x41
  | 56 => 0x54
  | 510 => 0x55
  | 511 => 0xAA
  | _ => 0

def bootVolume : Volume := { blankVolume with disk := fun s => if s = 0 then floppyBoot else fun _ => 0 }

theorem findVolume_sound_floppy : ∃ v', findVolume steadyDrive floppy bootVolume = (.FR_OK, some floppy, v') ∧
    v'.disk = bootVolume.disk ∧ Coherent v' := by
  have hrun : (findVolume steadyDrive floppy bootVolume).1 = .FR_OK ∧
      (findVolume steadyDrive floppy bootVolume).2.1 = some floppy := by decide
  have heq : findVolume steadyDrive floppy bootVolume =
      (.FR_OK, some floppy, (findVolume steadyDrive floppy bootVolume).2.2) := by
    rw [← hrun.1, ← hrun.2]
  obtain ⟨-, -, hdisk, hcoherent⟩ := findVolume_sound heq (by decide) ⟨by decide, by decide, by decide⟩
  exact ⟨_, heq, hdisk, hcoherent fun _ => rfl⟩

end MultiEmbedded.Fat
