import MultiEmbedded.Lib.Chains
import Mathlib.Algebra.Group.Nat.Defs

/-!
# The access window of a volume (src/ff.c)

FatFs looks at the card one sector at a time, through a window in memory. A sector
changed in the window is written back when the window moves on, into every copy of
the FAT if it is one of its sectors. Each transfer may fail and then leaves anything
behind it, in the window or on the sector.
-/

namespace MultiEmbedded.Fat

abbrev Byte := BitVec 8
abbrev Sector := Fin 512 → Byte

def SS : ℕ := 512

/- Of a sum of type DWORD. -/
def dword (x : ℕ) : ℕ := x % 2 ^ 32

inductive FResult where
  | FR_OK
  | FR_DISK_ERR
  | FR_INT_ERR
  | FR_NO_FILESYSTEM
  | FR_NOT_ENOUGH_CORE
  deriving DecidableEq, Repr

inductive FsType where
  | none
  | FAT12
  | FAT16
  | FAT32
  deriving DecidableEq, Repr

/- What is set when a volume is mounted. -/
structure Geometry where
  fs_type : FsType
  csize : ℕ
  n_fats : ℕ
  n_rootdir : ℕ
  n_fatent : ℕ
  fsize : ℕ
  volbase : ℕ
  fatbase : ℕ
  dirbase : ℕ
  database : ℕ
  deriving DecidableEq

/- What happens to the transfers, by their number: one that fails leaves the sectors given. -/
structure Drive where
  read : ℕ → Option (ℕ → Sector)
  write : ℕ → Option (ℕ → Sector)
  sync : ℕ → Bool

structure Volume where
  disk : ℕ → Sector
  transfers : ℕ
  win : Sector
  winsect : ℕ
  wflag : Bool
  fsi_flag : Byte
  last_clust : ℕ
  free_clust : ℕ

variable (drv : Drive) (g : Geometry)

def diskRead (sector : ℕ) (v : Volume) : Bool × Volume :=
  match drv.read v.transfers with
  | none => (true, { v with win := v.disk sector, transfers := v.transfers + 1 })
  | some junk => (false, { v with win := junk 0, transfers := v.transfers + 1 })

def diskWrite (sector : ℕ) (v : Volume) : Bool × Volume :=
  match drv.write v.transfers with
  | none => (true, { v with disk := Function.update v.disk sector v.win, transfers := v.transfers + 1 })
  | some junk => (false, { v with disk := Function.update v.disk sector (junk 0), transfers := v.transfers + 1 })

/- The other copies of the FAT; what becomes of these writes is not looked at. -/
def reflect : ℕ → ℕ → Volume → Volume
  | 0, _, v => v
  | nf + 1, wsect, v => reflect nf (dword (wsect + g.fsize)) (diskWrite drv (dword (wsect + g.fsize)) v).2

def syncWindow (v : Volume) : FResult × Volume :=
  if v.wflag then
    match diskWrite drv v.winsect v with
    | (false, v) => (.FR_DISK_ERR, v)
    | (true, v) =>
      let v := { v with wflag := false }
      if dword (v.winsect + 2 ^ 32 - g.fatbase) < g.fsize then
        (.FR_OK, reflect drv g (g.n_fats - 1) v.winsect v)
      else (.FR_OK, v)
  else (.FR_OK, v)

def moveWindow (sector : ℕ) (v : Volume) : FResult × Volume :=
  if sector ≠ v.winsect then
    match syncWindow drv g v with
    | (.FR_OK, v) =>
      match diskRead drv sector v with
      | (true, v) => (.FR_OK, { v with winsect := sector })
      | (false, v) => (.FR_DISK_ERR, v)
    | (_, v) => (.FR_DISK_ERR, v)
  else (.FR_OK, v)

/-! ### What the window shows -/

/- The card as it is once the window is written back. -/
def Volume.view (v : Volume) (s : ℕ) : Sector := if s = v.winsect then v.win else v.disk s

structure Coherent (v : Volume) : Prop where
  clean : v.wflag = false → v.disk v.winsect = v.win
  range : v.winsect < 2 ^ 32

/- The sectors of the second copy on. -/
def Geometry.InCopy (g : Geometry) (s : ℕ) : Prop := g.fatbase + g.fsize ≤ s ∧ s < g.fatbase + g.n_fats * g.fsize

/- The sectors of all copies. -/
def Geometry.InTable (g : Geometry) (s : ℕ) : Prop := g.fatbase ≤ s ∧ s < g.fatbase + g.n_fats * g.fsize

def tableBytes : FsType → ℕ → ℕ
  | .none, _ => 0
  | .FAT12, n => n * 3 / 2 + n % 2
  | .FAT16, n => n * 2
  | .FAT32, n => n * 4

def endMark : FsType → ℕ
  | .none => 0
  | .FAT12 => 0xFFF
  | .FAT16 => 0xFFFF
  | .FAT32 => 0x0FFFFFFF

structure Geometry.Sound (g : Geometry) : Prop where
  mounted : g.fs_type ≠ .none
  copies : 1 ≤ g.n_fats
  data : 2 < g.n_fatent
  limit : g.n_fatent ≤ endMark g.fs_type
  room : tableBytes g.fs_type g.n_fatent ≤ g.fsize * SS
  area : g.fatbase + g.n_fats * g.fsize ≤ 2 ^ 32

/- From `v` to `v'` no sector has changed but those of the other copies. -/
structure Kept (g : Geometry) (v v' : Volume) : Prop where
  view : ∀ s, ¬ g.InCopy s → v'.view s = v.view s
  coherent : Coherent v'
  last_clust : v'.last_clust = v.last_clust
  free_clust : v'.free_clust = v.free_clust
  fsi_flag : v'.fsi_flag = v.fsi_flag
  near : v'.winsect = v.winsect ∨ g.InTable v'.winsect

def Drive.Legible (drv : Drive) : Prop := ∀ n, drv.read n = none

/- No transfer fails. -/
structure Drive.Healthy (drv : Drive) : Prop where
  read : ∀ n, drv.read n = none
  write : ∀ n, drv.write n = none

variable {drv g} {v v₁ v₂ v' : Volume}

theorem Kept.refl (h : Coherent v) : Kept g v v := ⟨fun _ _ => rfl, h, rfl, rfl, rfl, .inl rfl⟩

theorem Kept.trans (h₁ : Kept g v v₁) (h₂ : Kept g v₁ v₂) : Kept g v v₂ where
  view s hs := (h₂.view s hs).trans (h₁.view s hs)
  coherent := h₂.coherent
  last_clust := h₂.last_clust.trans h₁.last_clust
  free_clust := h₂.free_clust.trans h₁.free_clust
  fsi_flag := h₂.fsi_flag.trans h₁.fsi_flag
  near := by
    cases h₂.near with
    | inl hsame => rw [hsame]; exact h₁.near
    | inr hin => exact .inr hin

theorem Volume.view_win (v : Volume) : v.view v.winsect = v.win := by
  simp [Volume.view]

theorem Coherent.view_clean (h : Coherent v) (hflag : v.wflag = false) : v.view = v.disk := by
  funext s
  unfold Volume.view
  split
  · rename_i hs
    rw [hs, h.clean hflag]
  · rfl

theorem Geometry.Sound.fsize_le (hg : g.Sound) : g.fatbase + g.fsize ≤ 2 ^ 32 := by
  have hcopies := Nat.mul_le_mul_right g.fsize hg.copies
  have harea := hg.area
  omega

theorem diskWrite_eq (drv : Drive) (sector : ℕ) (v : Volume) : ∃ x, (diskWrite drv sector v).2 =
    { v with disk := Function.update v.disk sector x, transfers := v.transfers + 1 } ∧
      ((diskWrite drv sector v).1 = true → x = v.win) := by
  unfold diskWrite
  cases drv.write v.transfers with
  | none => exact ⟨v.win, rfl, fun _ => rfl⟩
  | some junk => exact ⟨junk 0, rfl, fun hok => by simp at hok⟩

/-- The other copies are written from the window, which stays as it is. -/
theorem reflect_eq (drv : Drive) (g : Geometry) (nf wsect : ℕ) (v : Volume) :
    ∃ disk n, reflect drv g nf wsect v = { v with disk := disk, transfers := n } ∧
    ∀ s, (∀ k, 1 ≤ k → k ≤ nf → s ≠ dword (wsect + k * g.fsize)) → disk s = v.disk s := by
  induction nf generalizing wsect v with
  | zero => exact ⟨v.disk, v.transfers, rfl, fun _ _ => rfl⟩
  | succ nf ih =>
    obtain ⟨x, hx, -⟩ := diskWrite_eq drv (dword (wsect + g.fsize)) v
    obtain ⟨disk, n, heq, hkeep⟩ := ih (dword (wsect + g.fsize)) (diskWrite drv (dword (wsect + g.fsize)) v).2
    refine ⟨disk, n, by rw [reflect, heq, hx], ?_⟩
    intro s hs
    rw [hkeep, hx]
    · have hfirst := hs 1 (by omega) (by omega)
      rw [Nat.one_mul] at hfirst
      simp [Function.update_of_ne hfirst]
    · intro k hk hle
      have hnext := hs (k + 1) (by omega) (by omega)
      have hsum : dword (dword (wsect + g.fsize) + k * g.fsize) = dword (wsect + (k + 1) * g.fsize) := by
        unfold dword
        rw [Nat.mod_add_mod, Nat.add_mul]
        congr 1
        omega
      rwa [hsum]

/-- A copy of a sector of the FAT is in another copy of the FAT. -/
theorem Geometry.Sound.copy (hg : g.Sound) {s : ℕ} (hs : s < 2 ^ 32) (hfat : dword (s + 2 ^ 32 - g.fatbase) < g.fsize) :
    (g.fatbase ≤ s ∧ s < g.fatbase + g.fsize) ∧
      ∀ k, 1 ≤ k → k ≤ g.n_fats - 1 → dword (s + k * g.fsize) = s + k * g.fsize ∧ g.InCopy (s + k * g.fsize) := by
  have hsize := hg.fsize_le
  have hin : g.fatbase ≤ s ∧ s < g.fatbase + g.fsize := by
    unfold dword at hfat
    by_cases hle : g.fatbase ≤ s <;> omega
  refine ⟨hin, ?_⟩
  intro k hk hle
  have hlow : 1 * g.fsize ≤ k * g.fsize := Nat.mul_le_mul_right _ hk
  have hhigh : (k + 1) * g.fsize ≤ g.n_fats * g.fsize := Nat.mul_le_mul_right _ (by omega)
  have harea := hg.area
  rw [Nat.add_mul] at hhigh
  unfold dword Geometry.InCopy
  omega

theorem kept_disk (h : Coherent v) {disk : ℕ → Sector} {n : ℕ} {flag : Bool}
    (hdisk : ∀ s, s ≠ v.winsect → ¬ g.InCopy s → disk s = v.disk s)
    (hclean : flag = false → disk v.winsect = v.win) :
    Kept g v { v with disk := disk, transfers := n, wflag := flag } := by
  constructor
  · intro s hs
    by_cases hwin : s = v.winsect
    · simp [Volume.view, hwin]
    · simp [Volume.view, hwin, hdisk s hwin hs]
  · exact ⟨hclean, h.range⟩
  · rfl
  · rfl
  · rfl
  · exact .inl rfl

theorem syncWindow_kept (drv : Drive) (hg : g.Sound) (h : Coherent v) : Kept g v (syncWindow drv g v).2 ∧
    (syncWindow drv g v).2.winsect = v.winsect ∧
    ((syncWindow drv g v).1 = .FR_OK → (syncWindow drv g v).2.wflag = false) := by
  unfold syncWindow
  cases hflag : v.wflag with
  | false => exact ⟨Kept.refl h, rfl, fun _ => hflag⟩
  | true =>
    obtain ⟨x, hx, hwin⟩ := diskWrite_eq drv v.winsect v
    have hother : ∀ s, s ≠ v.winsect → Function.update v.disk v.winsect x s = v.disk s :=
      fun s hs => Function.update_of_ne hs _ _
    cases hwrite : diskWrite drv v.winsect v with
    | mk ok v₁ =>
      simp only [hwrite] at hx hwin
      subst hx
      cases ok with
      | false =>
        simp only [if_true]
        have hkept : Kept g v { v with disk := _, transfers := v.transfers + 1, wflag := true } :=
          kept_disk h (fun s hs _ => hother s hs) (by simp)
        rw [← hflag] at hkept
        exact ⟨hkept, trivial, by simp⟩
      | true =>
        have hx := hwin rfl
        subst hx
        simp only [if_true]
        split
        · rename_i hfat
          obtain ⟨disk, n, heq, hkeep⟩ := reflect_eq drv g (g.n_fats - 1) v.winsect
            { v with disk := Function.update v.disk v.winsect v.win, transfers := v.transfers + 1, wflag := false }
          obtain ⟨hin, hcopies⟩ := hg.copy h.range hfat
          have hfar : ∀ s, ¬ g.InCopy s → disk s = Function.update v.disk v.winsect v.win s := by
            intro s hs
            apply hkeep
            intro k hk hle heq
            obtain ⟨hsum, hcopy⟩ := hcopies k hk hle
            exact hs (heq.trans hsum ▸ hcopy)
          rw [heq]
          refine ⟨kept_disk h (fun s hs hout => (hfar s hout).trans (hother s hs)) ?_, rfl, fun _ => rfl⟩
          intro _
          rw [hfar v.winsect (fun hcopy => by unfold Geometry.InCopy at hcopy; omega), Function.update_self]
        · exact ⟨kept_disk h (fun s hs _ => hother s hs) (by simp), rfl, fun _ => rfl⟩

theorem moveWindow_winsect {sector : ℕ} (hok : (moveWindow drv g sector v).1 = .FR_OK) :
    (moveWindow drv g sector v).2.winsect = sector := by
  unfold moveWindow at hok ⊢
  by_cases hs : sector = v.winsect
  · simp [hs]
  · simp only [ne_eq, hs, not_false_eq_true, if_true] at hok ⊢
    split at hok
    · split at hok
      · simp_all
      · simp at hok
    · simp at hok

/- The window is at `sector` if it has moved, and nothing else is seen of it. -/
structure Moved (g : Geometry) (sector : ℕ) (v v' : Volume) : Prop where
  view : ∀ s, ¬ g.InCopy s → v'.view s = v.view s
  coherent : Coherent v'
  last_clust : v'.last_clust = v.last_clust
  free_clust : v'.free_clust = v.free_clust
  fsi_flag : v'.fsi_flag = v.fsi_flag
  winsect : v'.winsect = v.winsect ∨ v'.winsect = sector

/-- If the window has moved, or reading never fails, the card shows the same as before. -/
theorem moveWindow_moved (hg : g.Sound) (h : Coherent v) {sector : ℕ} (hs : sector < 2 ^ 32)
    (hok : (moveWindow drv g sector v).1 = .FR_OK ∨ drv.Legible) : Moved g sector v (moveWindow drv g sector v).2 := by
  unfold moveWindow at hok ⊢
  by_cases hsame : sector = v.winsect
  · rw [if_neg (not_not_intro hsame)]
    exact ⟨fun _ _ => rfl, h, rfl, rfl, rfl, .inl rfl⟩
  · simp only [ne_eq, hsame, not_false_eq_true, if_true] at hok ⊢
    obtain ⟨hkept, hwinsect, hflag⟩ := syncWindow_kept drv hg h
    cases hsync : syncWindow drv g v with
    | mk res v₁ =>
      simp only [hsync] at hok hkept hwinsect hflag ⊢
      cases res with
      | FR_OK =>
        have hclean := hflag rfl
        have hread : (diskRead drv sector v₁) = (true, { v₁ with win := v₁.disk sector, transfers := v₁.transfers + 1 }) := by
          unfold diskRead at hok ⊢
          cases hr : drv.read v₁.transfers with
          | none => rfl
          | some junk =>
            simp only [hr] at hok
            cases hok with
            | inl hfail => simp at hfail
            | inr hlegible => simp [hlegible v₁.transfers] at hr
        have hnew : Coherent { v₁ with win := v₁.disk sector, transfers := v₁.transfers + 1, winsect := sector } :=
          ⟨fun _ => rfl, hs⟩
        dsimp only
        rw [hread]
        refine ⟨?_, hnew, hkept.last_clust, hkept.free_clust, hkept.fsi_flag, .inr rfl⟩
        intro s hcopy
        rw [hnew.view_clean hclean, ← hkept.view s hcopy, hkept.coherent.view_clean hclean]
      | _ => exact ⟨hkept.view, hkept.coherent, hkept.last_clust, hkept.free_clust, hkept.fsi_flag, .inl hwinsect⟩

theorem moveWindow_kept (hg : g.Sound) (h : Coherent v) {sector : ℕ} (hs : g.InTable sector)
    (hok : (moveWindow drv g sector v).1 = .FR_OK ∨ drv.Legible) : Kept g v (moveWindow drv g sector v).2 := by
  have hmoved := moveWindow_moved hg h (Nat.lt_of_lt_of_le hs.2 hg.area) hok
  refine ⟨hmoved.view, hmoved.coherent, hmoved.last_clust, hmoved.free_clust, hmoved.fsi_flag, ?_⟩
  cases hmoved.winsect with
  | inl hsame => exact .inl hsame
  | inr hsector =>
    right
    rw [hsector]
    exact hs

theorem diskWrite_healthy (hd : drv.Healthy) (sector : ℕ) (v : Volume) : (diskWrite drv sector v).1 = true := by
  simp [diskWrite, hd.write]

theorem syncWindow_healthy (hd : drv.Healthy) (v : Volume) : (syncWindow drv g v).1 = .FR_OK := by
  unfold syncWindow
  split
  · cases hwrite : diskWrite drv v.winsect v with
    | mk ok v₁ =>
      have hok := diskWrite_healthy hd v.winsect v
      rw [hwrite] at hok
      simp only at hok
      subst hok
      dsimp only
      split <;> rfl
  · rfl

theorem moveWindow_healthy (hd : drv.Healthy) (sector : ℕ) (v : Volume) : (moveWindow drv g sector v).1 = .FR_OK := by
  unfold moveWindow
  split
  · cases hsync : syncWindow drv g v with
    | mk res v₁ =>
      have hok := syncWindow_healthy (g := g) hd v
      rw [hsync] at hok
      simp only at hok
      subst hok
      simp [diskRead, hd.read]
  · rfl

/- Two copies of a FAT of two sectors, from sector 1 on, and 342 clusters of one sector. -/
def floppy : Geometry where
  fs_type := .FAT12
  csize := 1
  n_fats := 2
  n_rootdir := 16
  n_fatent := 344
  fsize := 2
  volbase := 0
  fatbase := 1
  dirbase := 5
  database := 6

def steadyDrive : Drive := ⟨fun _ => none, fun _ => none, fun _ => true⟩

def blankVolume : Volume where
  disk _ _ := 0
  transfers := 0
  win _ := 0
  winsect := 0
  wflag := false
  fsi_flag := 0x80
  last_clust := 0
  free_clust := 342

end MultiEmbedded.Fat
