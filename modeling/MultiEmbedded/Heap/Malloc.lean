import MultiEmbedded.Lib.Runs
import Mathlib.Logic.Function.Basic

/-!
# The block heap (malloc.c)

A pool of 320 blocks of 32 bytes and a table `memmap` with one entry per block:
0 for a free block, otherwise the length of the run the block was given out in.
An access to the table outside its 320 entries is a fault (`none`).
-/

namespace MultiEmbedded.Heap

abbrev Byte := BitVec 8
abbrev Half := BitVec 16
abbrev Word := BitVec 32

def MEM_BLOCK_SIZE : ℕ := 32
def MEM_MAX_SIZE : ℕ := 10 * 1024
def MEM_ALLOC_TABLE_SIZE : ℕ := MEM_MAX_SIZE / MEM_BLOCK_SIZE

/- `mallco_dev` with the two arrays it points to. -/
structure MallcoDev where
  membase : ℕ → Byte
  memmap : ℕ → Half
  memrdy : Byte

/- The statics before the first call. -/
def uninitialised : MallcoDev where
  membase _ := 0
  memmap _ := 0
  memrdy := 0

def mymemset (m : ℕ → Byte) (s : ℕ) (c : Byte) : ℕ → ℕ → Byte
  | 0 => m
  | count + 1 => mymemset (Function.update m s c) (s + 1) c count

/- The first `mymemset` of the source clears the table, two bytes an entry. -/
def memInit (d : MallcoDev) : MallcoDev where
  membase := mymemset d.membase 0 0 MEM_MAX_SIZE
  memmap i := if i < MEM_ALLOC_TABLE_SIZE then 0 else d.memmap i
  memrdy := 1

def memPerused (d : MallcoDev) : Byte :=
  let used : Word := (List.range MEM_ALLOC_TABLE_SIZE).foldl
    (fun used i => if d.memmap i ≠ 0 then used + 1 else used) 0
  BitVec.setWidth 8 (used * 100 / BitVec.ofNat 32 MEM_ALLOC_TABLE_SIZE)

def load (m : ℕ → Half) (i : ℕ) : Option Half :=
  if i < MEM_ALLOC_TABLE_SIZE then some (m i) else none

def store (m : ℕ → Half) (i : ℕ) (v : Half) : Option (ℕ → Half) :=
  if i < MEM_ALLOC_TABLE_SIZE then some (Function.update m i v) else none

/- `for(i=0;i<n;i++) memmap[index+i]=v` -/
def mark (v : Half) : (ℕ → Half) → ℕ → ℕ → Option (ℕ → Half)
  | m, _, 0 => some m
  | m, index, n + 1 => (store m index v).bind fun m => mark v m (index + 1) n

/- The search of `mem_malloc`, from the top of the table down; the first argument
is the number of entries still to be visited. -/
def memMallocLoop (nmemb : Half) : ℕ → Half → MallcoDev → Option (Word × MallcoDev)
  | 0, _, d => some (0xffffffff, d)
  | offset + 1, cmemb, d => do
    let v ← load d.memmap offset
    let cmemb := if v = 0 then cmemb + 1 else 0
    if cmemb = nmemb then
      let m ← mark nmemb d.memmap offset nmemb.toNat
      return (BitVec.ofNat 32 (offset * MEM_BLOCK_SIZE), { d with memmap := m })
    else memMallocLoop nmemb offset cmemb d

def memMalloc (size : Word) (d : MallcoDev) : Option (Word × MallcoDev) :=
  let d := if d.memrdy = 0 then memInit d else d
  if size = 0 then some (0xffffffff, d)
  else
    let nmemb : Half := (size / BitVec.ofNat 32 MEM_BLOCK_SIZE).setWidth 16
    let nmemb := if size % BitVec.ofNat 32 MEM_BLOCK_SIZE ≠ 0 then nmemb + 1 else nmemb
    memMallocLoop nmemb MEM_ALLOC_TABLE_SIZE 0 d

def memFree (offset : Word) (d : MallcoDev) : Option (Byte × MallcoDev) :=
  if d.memrdy = 0 then some (1, memInit d)
  else if offset.toNat < MEM_MAX_SIZE then do
    let index := offset.toNat / MEM_BLOCK_SIZE
    let nmemb ← load d.memmap index
    let m ← mark 0 d.memmap index nmemb.toNat
    return (0, { d with memmap := m })
  else some (2, d)

/-! ### What one call does -/

theorem memInit_memmap (d : MallcoDev) {i : ℕ} (hi : i < MEM_ALLOC_TABLE_SIZE) :
    (memInit d).memmap i = 0 := if_pos hi

theorem mark_eq (v : Half) (m : ℕ → Half) (index n : ℕ) (h : index + n ≤ MEM_ALLOC_TABLE_SIZE) :
    mark v m index n = some fun i => if index ≤ i ∧ i < index + n then v else m i := by
  induction n generalizing m index with
  | zero =>
    unfold mark
    congr 1
    funext i
    rw [if_neg (by omega)]
  | succ n ih =>
    unfold mark store
    rw [if_pos (by omega), Option.bind_some, ih _ _ (by omega)]
    congr 1
    funext i
    rcases Nat.lt_trichotomy i index with hlt | rfl | hgt
    · rw [if_neg (by omega), if_neg (by omega), Function.update_of_ne (by omega)]
    · rw [if_neg (by omega), if_pos (by omega), Function.update_self]
    · rw [Function.update_of_ne (by omega)]
      exact if_congr (by omega) rfl rfl

/- Blocks `o, …, o + n - 1` exist and are free. -/
def FreeRun (m : ℕ → Half) (n o : ℕ) : Prop :=
  o + n ≤ MEM_ALLOC_TABLE_SIZE ∧ ∀ i, o ≤ i → i < o + n → m i = 0

def marked (m : ℕ → Half) (o : ℕ) (v : Half) : ℕ → Half :=
  fun i => if o ≤ i ∧ i < o + v.toNat then v else m i

/- Above `k` the search has seen no run of `nmemb` free blocks, and `cmemb` is the length
of the free run that starts at `k`. -/
structure Searched (m : ℕ → Half) (nmemb cmemb : Half) (k : ℕ) : Prop where
  inside : k + cmemb.toNat ≤ MEM_ALLOC_TABLE_SIZE
  free : ∀ i, k ≤ i → i < k + cmemb.toNat → m i = 0
  edge : k + cmemb.toNat = MEM_ALLOC_TABLE_SIZE ∨ m (k + cmemb.toNat) ≠ 0
  short : cmemb.toNat < nmemb.toNat
  none : ∀ o, k ≤ o → ¬ FreeRun m nmemb.toNat o

/- What the search ends with: the highest free run, or nothing. -/
inductive Found (d : MallcoDev) (nmemb : Half) : Option (Word × MallcoDev) → Prop
  | run (o : ℕ) : FreeRun d.memmap nmemb.toNat o →
      (∀ o', o < o' → ¬ FreeRun d.memmap nmemb.toNat o') →
      Found d nmemb (some (BitVec.ofNat 32 (o * MEM_BLOCK_SIZE),
        { d with memmap := marked d.memmap o nmemb }))
  | fail : (∀ o, ¬ FreeRun d.memmap nmemb.toNat o) → Found d nmemb (some (0xffffffff, d))

theorem Searched.start (m : ℕ → Half) {nmemb : Half} (hn : 0 < nmemb.toNat) :
    Searched m nmemb 0 MEM_ALLOC_TABLE_SIZE where
  inside := Nat.le_refl _
  free i h1 h2 := absurd h2 (Nat.not_lt.mpr h1)
  edge := Or.inl rfl
  short := hn
  none o h1 h2 := absurd h2.1 (by omega)

/- An entry that is taken ends the free run below it. -/
theorem Searched.taken {m : ℕ → Half} {nmemb cmemb : Half} {k : ℕ}
    (h : Searched m nmemb cmemb (k + 1)) (hk : m k ≠ 0) : Searched m nmemb 0 k where
  inside := by
    have := h.inside
    change k + 0 ≤ _
    omega
  free i h1 h2 := absurd h2 (Nat.not_lt.mpr h1)
  edge := Or.inr hk
  short := Nat.lt_of_le_of_lt (Nat.zero_le _) h.short
  none o h1 h2 := by
    rcases Nat.eq_or_lt_of_le h1 with rfl | hlt
    · exact hk (h2.2 k (Nat.le_refl _) (Nat.lt_add_of_pos_right (Nat.zero_lt_of_lt h.short)))
    · exact h.none o hlt h2

/- A free entry makes the run one block longer; still too short unless the search is over. -/
theorem Searched.grown {m : ℕ → Half} {nmemb cmemb : Half} {k : ℕ}
    (h : Searched m nmemb cmemb (k + 1)) (hk : m k = 0) :
    (cmemb + 1).toNat = cmemb.toNat + 1 ∧ (∀ i, k ≤ i → i < k + (cmemb.toNat + 1) → m i = 0) ∧
      (cmemb + 1 ≠ nmemb → Searched m nmemb (cmemb + 1) k) := by
  have hin := h.inside
  have hsize : MEM_ALLOC_TABLE_SIZE = 320 := rfl
  have hadd : (cmemb + 1).toNat = cmemb.toNat + 1 := by
    rw [BitVec.toNat_add]
    change (cmemb.toNat + 1) % 65536 = _
    omega
  have hfree : ∀ i, k ≤ i → i < k + (cmemb.toNat + 1) → m i = 0 := by
    intro i h1 h2
    rcases Nat.eq_or_lt_of_le h1 with rfl | hlt
    · exact hk
    · exact h.free i hlt (by omega)
  refine ⟨hadd, hfree, fun hne => ?_⟩
  have hlt : cmemb.toNat + 1 < nmemb.toNat := by
    have hne' : (cmemb + 1).toNat ≠ nmemb.toNat := fun he => hne (BitVec.eq_of_toNat_eq he)
    have := h.short
    omega
  have hpos : k + 1 + cmemb.toNat = k + (cmemb.toNat + 1) := by omega
  have hedge := h.edge
  rw [hpos] at hedge
  exact {
    inside := by omega
    free := by rw [hadd]; exact hfree
    edge := by rw [hadd]; exact hedge
    short := by rw [hadd]; exact hlt
    none := fun o h1 h2 => by
      rcases Nat.eq_or_lt_of_le h1 with rfl | hgt
      · -- a run from `k` on would reach over the edge
        rcases hedge with hend | htaken
        · exact absurd h2.1 (by omega)
        · exact htaken (h2.2 _ (by omega) (by omega))
      · exact h.none o hgt h2 }

theorem memMallocLoop_found (nmemb : Half) (d : MallcoDev) (k : ℕ) (cmemb : Half)
    (h : Searched d.memmap nmemb cmemb k) : Found d nmemb (memMallocLoop nmemb k cmemb d) := by
  induction k generalizing cmemb with
  | zero => exact .fail fun o => h.none o (Nat.zero_le _)
  | succ k ih =>
    have hin := h.inside
    have hshort := h.short
    have hload : load d.memmap k = some (d.memmap k) := if_pos (by omega)
    unfold memMallocLoop
    rw [hload]
    simp only [Option.bind_eq_bind, Option.bind_some]
    by_cases hk : d.memmap k = 0
    · obtain ⟨hadd, hfree, hgrown⟩ := h.grown hk
      rw [if_pos hk]
      by_cases hc : cmemb + 1 = nmemb
      · have hrun : FreeRun d.memmap nmemb.toNat k := by
          rw [← hc, hadd]
          exact ⟨by omega, hfree⟩
        rw [if_pos hc, mark_eq _ _ _ _ hrun.1]
        exact .run k hrun fun o' ho' => h.none o' ho'
      · rw [if_neg hc]
        exact ih _ (hgrown hc)
    · have hne : ¬ (0 : Half) = nmemb := fun he => by
        rw [← he] at hshort
        exact absurd hshort (Nat.not_lt_zero _)
      rw [if_neg hk, if_neg hne]
      exact ih _ (h.taken hk)

/- Number of blocks `mem_malloc` looks for. -/
def blocksFor (size : Word) : ℕ := (size.toNat + 31) / 32

/- The heap once `mem_malloc` or `mem_free` has seen to it that it is initialised. -/
def ready (d : MallcoDev) : MallcoDev := if d.memrdy = 0 then memInit d else d

theorem memMalloc_zero (d : MallcoDev) : memMalloc 0 d = some (0xffffffff, ready d) := rfl

/- The count in its sixteen bits, from the two assignments of the source. -/
theorem nmemb_eq (size : Word) :
    (if size % BitVec.ofNat 32 MEM_BLOCK_SIZE ≠ 0
      then (size / BitVec.ofNat 32 MEM_BLOCK_SIZE).setWidth 16 + 1
      else (size / BitVec.ofNat 32 MEM_BLOCK_SIZE).setWidth 16 : Half) =
      BitVec.ofNat 16 (blocksFor size) := by
  have hdiv : (size / BitVec.ofNat 32 MEM_BLOCK_SIZE).toNat = size.toNat / 32 := BitVec.toNat_udiv
  have hmod : (size % BitVec.ofNat 32 MEM_BLOCK_SIZE).toNat = size.toNat % 32 := BitVec.toNat_umod
  apply BitVec.eq_of_toNat_eq
  unfold blocksFor
  by_cases hr : size % BitVec.ofNat 32 MEM_BLOCK_SIZE = 0
  · have hr' : size.toNat % 32 = 0 := by rw [← hmod, hr]; rfl
    rw [if_neg (not_not_intro hr), BitVec.toNat_setWidth, hdiv, BitVec.toNat_ofNat]
    omega
  · have hr' : size.toNat % 32 ≠ 0 := fun h => hr (BitVec.eq_of_toNat_eq (hmod.trans h))
    rw [if_pos hr, BitVec.toNat_add, BitVec.toNat_setWidth, hdiv, BitVec.toNat_ofNat]
    change (size.toNat / 32 % 65536 + 1) % 65536 = _
    omega

theorem blocksFor_pos {size : Word} (h0 : size ≠ 0) : 0 < blocksFor size := by
  have hpos : 0 < size.toNat := Nat.pos_of_ne_zero fun h => h0 (BitVec.eq_of_toNat_eq h)
  unfold blocksFor
  omega

theorem memMalloc_eq {size : Word} (h0 : size ≠ 0) (d : MallcoDev) :
    memMalloc size d =
      memMallocLoop (BitVec.ofNat 16 (blocksFor size)) MEM_ALLOC_TABLE_SIZE 0 (ready d) := by
  unfold memMalloc
  rw [if_neg h0]
  simp only [nmemb_eq]
  rfl

/- The search finds as many blocks as are left of the count in sixteen bits. -/
theorem memMalloc_found {size : Word} (h0 : size ≠ 0) (hpos : 0 < blocksFor size % 65536)
    (d : MallcoDev) :
    ∃ nmemb : Half, nmemb.toNat = blocksFor size % 65536 ∧ Found (ready d) nmemb (memMalloc size d) := by
  have hn : (BitVec.ofNat 16 (blocksFor size)).toNat = blocksFor size % 65536 := BitVec.toNat_ofNat ..
  refine ⟨BitVec.ofNat 16 (blocksFor size), hn, ?_⟩
  rw [memMalloc_eq h0]
  exact memMallocLoop_found _ _ _ _ (Searched.start _ (by rw [hn]; exact hpos))

/- With a count of 0 nothing is marked, whatever the answer. -/
theorem memMallocLoop_none {k : ℕ} {cmemb : Half} {d : MallcoDev} (hk : k ≤ MEM_ALLOC_TABLE_SIZE) :
    memMallocLoop 0 k cmemb d = some (0xffffffff, d) ∨
      ∃ o < k, memMallocLoop 0 k cmemb d = some (BitVec.ofNat 32 (o * MEM_BLOCK_SIZE), d) := by
  induction k generalizing cmemb with
  | zero => exact Or.inl rfl
  | succ k ih =>
    have hload : load d.memmap k = some (d.memmap k) := if_pos (by omega)
    unfold memMallocLoop
    rw [hload]
    simp only [Option.bind_eq_bind, Option.bind_some]
    by_cases hc : (if d.memmap k = 0 then cmemb + 1 else 0) = 0
    · rw [if_pos hc]
      exact Or.inr ⟨k, Nat.lt_succ_self k, rfl⟩
    · rw [if_neg hc]
      refine (ih (by omega)).imp id fun h => ?_
      obtain ⟨o, ho, hrun⟩ := h
      exact ⟨o, Nat.lt_succ_of_lt ho, hrun⟩

theorem memMalloc_none {size : Word} (h0 : size ≠ 0) (hzero : blocksFor size % 65536 = 0) (d : MallcoDev) :
    memMalloc size d = some (0xffffffff, ready d) ∨
      ∃ o < MEM_ALLOC_TABLE_SIZE, memMalloc size d = some (BitVec.ofNat 32 (o * MEM_BLOCK_SIZE), ready d) := by
  have hn : BitVec.ofNat 16 (blocksFor size) = 0 :=
    BitVec.eq_of_toNat_eq ((BitVec.toNat_ofNat ..).trans hzero)
  rw [memMalloc_eq h0, hn]
  exact memMallocLoop_none (Nat.le_refl _)

theorem blocksFor_lt {size : Word} (hsize : size.toNat ≤ 65535 * 32) : blocksFor size < 65536 := by
  unfold blocksFor
  omega

theorem offset_toNat {o : ℕ} (ho : o ≤ MEM_ALLOC_TABLE_SIZE) :
    (BitVec.ofNat 32 (o * MEM_BLOCK_SIZE)).toNat = 32 * o := by
  have hsize : MEM_ALLOC_TABLE_SIZE = 320 := rfl
  rw [BitVec.toNat_ofNat]
  change o * 32 % 4294967296 = 32 * o
  omega

theorem offset_ne {o : ℕ} (ho : o ≤ MEM_ALLOC_TABLE_SIZE) :
    BitVec.ofNat 32 (o * MEM_BLOCK_SIZE) ≠ 0xffffffff := by
  intro he
  have hsize : MEM_ALLOC_TABLE_SIZE = 320 := rfl
  have h := offset_toNat ho
  rw [he] at h
  change 4294967295 = 32 * o at h
  omega

/- All that a call can do to a heap that is set up: nothing, or mark a free run. -/
theorem memMalloc_cases {size offset : Word} {d d' : MallcoDev} (h : memMalloc size d = some (offset, d')) :
    (offset = 0xffffffff ∧ d' = ready d) ∨
    (blocksFor size % 65536 = 0 ∧ d' = ready d ∧
      ∃ o < MEM_ALLOC_TABLE_SIZE, offset = BitVec.ofNat 32 (o * MEM_BLOCK_SIZE)) ∨
    ∃ (nmemb : Half) (o : ℕ), nmemb.toNat = blocksFor size % 65536 ∧ 0 < nmemb.toNat ∧
      FreeRun (ready d).memmap nmemb.toNat o ∧ offset = BitVec.ofNat 32 (o * MEM_BLOCK_SIZE) ∧
      d' = { ready d with memmap := marked (ready d).memmap o nmemb } := by
  by_cases h0 : size = 0
  · subst h0
    rw [memMalloc_zero] at h
    cases h
    exact Or.inl ⟨rfl, rfl⟩
  rcases Nat.eq_zero_or_pos (blocksFor size % 65536) with hzero | hpos
  · rcases memMalloc_none h0 hzero d with hnone | ⟨o, ho, hrun⟩
    · rw [hnone] at h
      cases h
      exact Or.inl ⟨rfl, rfl⟩
    · rw [hrun] at h
      cases h
      exact Or.inr (Or.inl ⟨hzero, rfl, o, ho, rfl⟩)
  · obtain ⟨nmemb, hn, hfound⟩ := memMalloc_found h0 hpos d
    rw [← hn] at hpos
    rw [h] at hfound
    cases hfound with
    | run o hrun _ => exact Or.inr (Or.inr ⟨nmemb, o, hn, hpos, hrun, rfl, rfl⟩)
    | fail _ => exact Or.inl ⟨rfl, rfl⟩

theorem memFree_ready {offset : Word} {d : MallcoDev} (hr : d.memrdy ≠ 0)
    (ho : offset.toNat < MEM_MAX_SIZE)
    (hin : offset.toNat / 32 + (d.memmap (offset.toNat / 32)).toNat ≤ MEM_ALLOC_TABLE_SIZE) :
    memFree offset d = some (0, { d with
      memmap := fun i => if offset.toNat / 32 ≤ i ∧
        i < offset.toNat / 32 + (d.memmap (offset.toNat / 32)).toNat then 0 else d.memmap i }) := by
  have hlt : offset.toNat / 32 < MEM_ALLOC_TABLE_SIZE := by
    change offset.toNat < 10240 at ho
    change _ < 320
    omega
  have hload : load d.memmap (offset.toNat / MEM_BLOCK_SIZE) =
      some (d.memmap (offset.toNat / 32)) := if_pos hlt
  unfold memFree
  rw [if_neg hr, if_pos ho]
  simp only [hload, Option.bind_eq_bind, Option.bind_some]
  rw [show offset.toNat / MEM_BLOCK_SIZE = offset.toNat / 32 from rfl, mark_eq _ _ _ _ hin]
  rfl

end MultiEmbedded.Heap
