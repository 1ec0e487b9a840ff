import MultiEmbedded.Heap.Live

/-!
# What mem_malloc and mem_free do for every argument

`mem_malloc` keeps the number of blocks in sixteen bits, so a size from 2 MiB on
is served as a smaller one. `mem_free` clears as many entries as the run it
falls in is long, starting where it falls and not where the run does.
-/

namespace MultiEmbedded.Heap
open Runs

/-! ### mem_malloc -/

/- Heaps after any calls that stayed inside the table. -/
inductive Called : MallcoDev → Prop
  | start : Called uninitialised
  | malloc {d d' : MallcoDev} {size offset : Word} :
      Called d → memMalloc size d = some (offset, d') → Called d'
  | free {d d' : MallcoDev} {offset : Word} {r : Byte} :
      Called d → memFree offset d = some (r, d') → Called d'

def HighestRun (m : ℕ → Half) (n o : ℕ) : Prop :=
  FreeRun m n o ∧ ∀ o', o < o' → ¬ FreeRun m n o'

theorem HighestRun.unique {m : ℕ → Half} {n o o' : ℕ} (h : HighestRun m n o) (h' : HighestRun m n o') : o' = o := by
  rcases Nat.lt_trichotomy o' o with hlt | heq | hgt
  · exact absurd h.1 (h'.2 o hlt)
  · exact heq
  · exact absurd h'.1 (h.2 o' hgt)

/- Of the answer `off` and the heap `d'` after it. -/
structure MallocContract (size : Word) (d : MallcoDev) (off : Word) (d' : MallcoDev) : Prop where
  verdict : off = 0xffffffff ↔ size = 0 ∨ ∀ o, ¬ FreeRun d.memmap (blocksFor size) o
  refused : off = 0xffffffff → ∀ i < MEM_ALLOC_TABLE_SIZE, d'.memmap i = d.memmap i
  served : off ≠ 0xffffffff → ∃ o, HighestRun d.memmap (blocksFor size) o ∧
    off.toNat = 32 * o ∧ off.toNat + size.toNat ≤ MEM_MAX_SIZE ∧
    ∀ i < MEM_ALLOC_TABLE_SIZE, (d'.memmap i).toNat =
      if o ≤ i ∧ i < o + blocksFor size then blocksFor size else (d.memmap i).toNat

/- The count fits sixteen bits, or what is left of it is refused as well: a count of 0 by
a table without a taken block, every other by a table without such a run. -/
def CountFits (size : Word) (d : MallcoDev) : Prop :=
  blocksFor size < 65536 ∨
    if blocksFor size % 65536 = 0 then ∀ i < MEM_ALLOC_TABLE_SIZE, d.memmap i = 0
    else ∀ o, ¬ FreeRun d.memmap (blocksFor size % 65536) o

theorem memMallocLoop_ready {nmemb : Half} {k : ℕ} {cmemb : Half} {d d' : MallcoDev} {off : Word}
    (h : memMallocLoop nmemb k cmemb d = some (off, d')) : d'.memrdy = d.memrdy := by
  induction k generalizing cmemb with
  | zero =>
    cases h
    rfl
  | succ k ih =>
    unfold memMallocLoop at h
    cases hload : load d.memmap k with
    | none =>
      rw [hload] at h
      cases h
    | some v =>
      rw [hload] at h
      simp only [Option.bind_eq_bind, Option.bind_some] at h
      by_cases hc : (if v = 0 then cmemb + 1 else 0) = nmemb
      · rw [if_pos hc] at h
        cases hm : mark nmemb d.memmap k nmemb.toNat with
        | none =>
          rw [hm] at h
          cases h
        | some m =>
          rw [hm] at h
          cases h
          rfl
      · rw [if_neg hc] at h
        exact ih h

theorem memMalloc_ready {size off : Word} {d d' : MallcoDev}
    (h : memMalloc size d = some (off, d')) : d'.memrdy ≠ 0 := by
  have hr := ready_memrdy d
  by_cases h0 : size = 0
  · rw [h0, memMalloc_zero] at h
    cases h
    exact hr
  · rw [memMalloc_eq h0] at h
    rw [memMallocLoop_ready h]
    exact hr

/- A call on a heap that is set up changes nothing but the table. -/
theorem memFree_frame {off : Word} {d d' : MallcoDev} {r : Byte} (hr : d.memrdy ≠ 0)
    (h : memFree off d = some (r, d')) : d'.memrdy = d.memrdy ∧ d'.membase = d.membase := by
  unfold memFree at h
  rw [if_neg hr] at h
  by_cases ho : off.toNat < MEM_MAX_SIZE
  · rw [if_pos ho] at h
    cases hl : load d.memmap (off.toNat / MEM_BLOCK_SIZE) with
    | none =>
      simp only [hl, Option.bind_eq_bind, Option.bind_none] at h
      cases h
    | some n =>
      simp only [hl, Option.bind_eq_bind, Option.bind_some] at h
      cases hm : mark 0 d.memmap (off.toNat / MEM_BLOCK_SIZE) n.toNat with
      | none =>
        rw [hm] at h
        cases h
      | some m =>
        rw [hm] at h
        cases h
        exact ⟨rfl, rfl⟩
  · rw [if_neg ho] at h
    cases h
    exact ⟨rfl, rfl⟩

theorem memFree_memrdy {off : Word} {d d' : MallcoDev} {r : Byte}
    (h : memFree off d = some (r, d')) : d'.memrdy ≠ 0 := by
  by_cases hr : d.memrdy = 0
  · unfold memFree at h
    rw [if_pos hr] at h
    cases h
    exact (by decide : (1 : Byte) ≠ 0)
  · rw [(memFree_frame hr h).1]
    exact hr

/- The initialisation of the first call clears a table that is clear already. -/
theorem Called.table {d : MallcoDev} (h : Called d) :
    ∀ i < MEM_ALLOC_TABLE_SIZE, (ready d).memmap i = d.memmap i := by
  intro i hi
  unfold ready
  cases h with
  | start => exact memInit_memmap uninitialised hi
  | malloc _ hcall => rw [if_neg (memMalloc_ready hcall)]
  | free _ hcall => rw [if_neg (memFree_memrdy hcall)]

/- With a count of 0 the search passes free entries and stops at the first taken one. -/
theorem memMallocLoop_passes {d : MallcoDev} {k : ℕ} {cmemb : Half}
    (hk : k + cmemb.toNat ≤ MEM_ALLOC_TABLE_SIZE) (hfree : ∀ i < k, d.memmap i = 0) :
    memMallocLoop 0 k cmemb d = some (0xffffffff, d) := by
  have hsize : MEM_ALLOC_TABLE_SIZE = 320 := rfl
  induction k generalizing cmemb with
  | zero => rfl
  | succ k ih =>
    have hload : load d.memmap k = some (d.memmap k) := if_pos (by omega)
    have hadd : (cmemb + 1).toNat = cmemb.toNat + 1 := by
      rw [BitVec.toNat_add]
      change (cmemb.toNat + 1) % 65536 = _
      omega
    have hne : ¬ cmemb + 1 = 0 := fun he => by
      rw [he] at hadd
      exact absurd hadd.symm (Nat.succ_ne_zero _)
    unfold memMallocLoop
    rw [hload]
    simp only [Option.bind_eq_bind, Option.bind_some]
    rw [if_pos (hfree k (Nat.lt_succ_self k)), if_neg hne]
    exact ih (by omega) fun i hi => hfree i (by omega)

theorem memMallocLoop_stops {d : MallcoDev} {k i : ℕ} {cmemb : Half}
    (hk : k ≤ MEM_ALLOC_TABLE_SIZE) (hi : i < k) (htaken : d.memmap i ≠ 0) :
    ∃ o d', o < MEM_ALLOC_TABLE_SIZE ∧
      memMallocLoop 0 k cmemb d = some (BitVec.ofNat 32 (o * MEM_BLOCK_SIZE), d') := by
  induction k generalizing cmemb with
  | zero => exact absurd hi (Nat.not_lt_zero i)
  | succ k ih =>
    have hload : load d.memmap k = some (d.memmap k) := if_pos (by omega)
    unfold memMallocLoop
    rw [hload]
    simp only [Option.bind_eq_bind, Option.bind_some]
    by_cases hc : (if d.memmap k = 0 then cmemb + 1 else 0) = 0
    · rw [if_pos hc]
      exact ⟨k, _, by omega, rfl⟩
    · rw [if_neg hc]
      rcases Nat.eq_or_lt_of_le (Nat.le_of_lt_succ hi) with rfl | hlt
      · rw [if_neg htaken] at hc
        exact absurd rfl hc
      · exact ih (by omega) hlt

theorem FreeRun.congr {m m' : ℕ → Half} (h : ∀ i < MEM_ALLOC_TABLE_SIZE, m i = m' i) (n o : ℕ) :
    FreeRun m n o ↔ FreeRun m' n o := by
  refine and_congr_right fun hin => forall_congr' fun i => forall_congr' fun _ =>
    forall_congr' fun hlt => ?_
  rw [h i (by omega)]

/- The search for as many blocks as the size needs. -/
theorem malloc_fitting {d d₀ : MallcoDev} (htab : ∀ i < MEM_ALLOC_TABLE_SIZE,
    d₀.memmap i = d.memmap i) {size : Word} (h0 : size ≠ 0) {nmemb : Half}
    (hn : nmemb.toNat = blocksFor size) {out : Option (Word × MallcoDev)}
    (hout : Found d₀ nmemb out) : ∃ off d', out = some (off, d') ∧ MallocContract size d off d' := by
  cases hout with
  | fail hnone =>
    refine ⟨_, _, rfl, iff_of_true rfl (Or.inr fun o => ?_), fun _ => htab, fun h => absurd rfl h⟩
    rw [← FreeRun.congr htab, ← hn]
    exact hnone o
  | run o hrun hhigh =>
    have hin := hrun.1
    have hle : o ≤ MEM_ALLOC_TABLE_SIZE := by omega
    have hne := offset_ne hle
    have hfree : FreeRun d.memmap (blocksFor size) o := by
      rw [← FreeRun.congr htab, ← hn]
      exact hrun
    refine ⟨_, _, rfl, iff_of_false hne ?_, fun h => absurd h hne, fun _ => ⟨o, ⟨hfree, ?_⟩,
      offset_toNat hle, ?_, fun i hi => ?_⟩⟩
    · rintro (h | h)
      · exact h0 h
      · exact h o hfree
    · intro o' ho'
      rw [← FreeRun.congr htab, ← hn]
      exact hhigh o' ho'
    · rw [offset_toNat hle]
      rw [hn] at hin
      unfold blocksFor at hin
      change _ ≤ 320 at hin
      change _ ≤ 10240
      omega
    · change (marked d₀.memmap o nmemb i).toNat = _
      unfold marked
      rw [hn]
      by_cases hb : o ≤ i ∧ i < o + blocksFor size
      · rw [if_pos hb, if_pos hb, hn]
      · rw [if_neg hb, if_neg hb, htab i hi]

theorem too_long {m : ℕ → Half} {n : ℕ} (hn : 65536 ≤ n) (o : ℕ) : ¬ FreeRun m n o := fun h => by
  have hin : o + n ≤ 320 := h.1
  omega

/- A served request for more blocks than the table has breaks the contract. -/
theorem served_too_long {d d' : MallcoDev} {size off : Word} (hn : 65536 ≤ blocksFor size)
    (hne : off ≠ 0xffffffff) : ¬ MallocContract size d off d' := fun h =>
  hne (h.verdict.mpr (Or.inr (too_long hn)))

theorem memMalloc_contract {d : MallcoDev} (h : Called d) {size : Word}
    (hfit : blocksFor size < 65536) :
    ∃ off d', memMalloc size d = some (off, d') ∧ MallocContract size d off d' := by
  have htab := h.table
  by_cases h0 : size = 0
  · subst h0
    exact ⟨_, _, memMalloc_zero d, iff_of_true rfl (Or.inl rfl), fun _ => htab,
      fun hne => absurd rfl hne⟩
  · have hn : (BitVec.ofNat 16 (blocksFor size)).toNat = blocksFor size := by
      rw [BitVec.toNat_ofNat]
      exact Nat.mod_eq_of_lt hfit
    have hfound := memMallocLoop_found (BitVec.ofNat 16 (blocksFor size)) (ready d)
      MEM_ALLOC_TABLE_SIZE 0 (Searched.start _ (by rw [hn]; exact blocksFor_pos h0))
    rw [memMalloc_eq h0]
    exact malloc_fitting htab h0 hn hfound

theorem memMalloc_contract_iff {d : MallcoDev} (h : Called d) (size : Word) :
    (∃ off d', memMalloc size d = some (off, d') ∧ MallocContract size d off d') ↔
      CountFits size d := by
  by_cases hfit : blocksFor size < 65536
  · exact iff_of_true (memMalloc_contract h hfit) (Or.inl hfit)
  -- the count is cut: the contract asks for a refusal
  have htab := h.table
  have hlong : 65536 ≤ blocksFor size := by omega
  have h0 : size ≠ 0 := by
    rintro rfl
    exact hfit (by decide)
  have hcount : (BitVec.ofNat 16 (blocksFor size)).toNat = blocksFor size % 65536 :=
    BitVec.toNat_ofNat ..
  have hrefused : ∀ {d' : MallcoDev}, (∀ i < MEM_ALLOC_TABLE_SIZE, d'.memmap i = d.memmap i) →
      MallocContract size d 0xffffffff d' := fun hsame =>
    ⟨iff_of_true rfl (Or.inr (too_long hlong)), fun _ => hsame, fun hne => absurd rfl hne⟩
  rw [memMalloc_eq h0]
  unfold CountFits
  simp only [hfit, false_or]
  by_cases hzero : blocksFor size % 65536 = 0
  · have hn : BitVec.ofNat 16 (blocksFor size) = 0 := BitVec.eq_of_toNat_eq (hcount.trans hzero)
    rw [if_pos hzero, hn]
    by_cases hfree : ∀ i < MEM_ALLOC_TABLE_SIZE, d.memmap i = 0
    · refine iff_of_true ⟨_, _, memMallocLoop_passes (Nat.le_refl _) fun i hi => ?_,
        hrefused htab⟩ hfree
      rw [htab i hi, hfree i hi]
    · refine iff_of_false ?_ hfree
      rintro ⟨off, d', hrun, hc⟩
      obtain ⟨i, hi⟩ := not_forall.mp hfree
      obtain ⟨hlt, htaken⟩ := Classical.not_imp.mp hi
      obtain ⟨o, d'', ho, hstop⟩ := memMallocLoop_stops (Nat.le_refl _) hlt
        (show (ready d).memmap i ≠ 0 by rw [htab i hlt]; exact htaken)
      rw [hstop] at hrun
      cases hrun
      exact served_too_long hlong (offset_ne (Nat.le_of_lt ho)) hc
  · have hpos : 0 < (BitVec.ofNat 16 (blocksFor size)).toNat := by omega
    have hfound := memMallocLoop_found (BitVec.ofNat 16 (blocksFor size)) (ready d)
      MEM_ALLOC_TABLE_SIZE 0 (Searched.start _ hpos)
    rw [if_neg hzero]
    generalize hout : memMallocLoop (BitVec.ofNat 16 (blocksFor size)) MEM_ALLOC_TABLE_SIZE 0
      (ready d) = out at hfound
    cases hfound with
    | run o hrun _ =>
      refine iff_of_false ?_ fun hnone => ?_
      · rintro ⟨off, d', hrun', hc⟩
        cases hrun'
        exact served_too_long hlong (offset_ne (by have := hrun.1; omega)) hc
      · refine hnone o ?_
        rw [← FreeRun.congr htab, ← hcount]
        exact hrun
    | fail hnone =>
      refine iff_of_true ⟨_, _, rfl, hrefused htab⟩ fun o => ?_
      rw [← FreeRun.congr htab, ← hcount]
      exact hnone o

theorem Reach.stays {d : MallcoDev} {live : List Alloc} (h : Reach d live) : Called d := by
  induction h with
  | start => exact .start
  | malloc _ _ hcall _ ih => exact .malloc ih hcall
  | refused _ _ hcall ih => exact .malloc ih hcall
  | free _ hcall ih => exact .free ih hcall

/- 200 bytes fit between the two runs of the fragmented pool. -/
theorem memMalloc_contract_iff_fragmented :
    Called fragmented ∧
      ((∃ off d', memMalloc 200 fragmented = some (off, d') ∧ MallocContract 200 fragmented off d') ↔
        CountFits 200 fragmented) :=
  ⟨fragmented_reach.stays, memMalloc_contract_iff fragmented_reach.stays 200⟩

/- 2 MiB and 32 bytes are 65537 blocks; the first call grants one. -/
theorem memMalloc_grants_tooMuch :
    ¬ ∃ off d', memMalloc 0x200020 uninitialised = some (off, d') ∧
      MallocContract 0x200020 uninitialised off d' := by
  rintro ⟨off, d', hrun, hc⟩
  have hoff : (memMalloc 0x200020 uninitialised).map Prod.fst = some (319 * 32) := by
    decide +kernel
  rw [hrun] at hoff
  have heq : off = 319 * 32 := Option.some.inj hoff
  exact served_too_long (by decide) (by rw [heq]; decide) hc

/-! ### mem_free -/

/- Of the answer to `mem_free(offset)`: it stayed inside the table, and unless it changed nothing
one live allocation contains the offset's block, all that changed are entries of this allocation,
and every other one keeps its blocks. -/
def FreeContract (offset : Word) (d : MallcoDev) (live : List Alloc) : Prop :=
  ∃ r d', memFree offset d = some (r, d') ∧
    ((∀ b < MEM_ALLOC_TABLE_SIZE, d'.memmap b = d.memmap b) ∨
      ∃ l₁ a l₂, live = l₁ ++ a :: l₂ ∧ offset.toNat / 32 ∈ a.owned.blocks ∧
        (∀ b < MEM_ALLOC_TABLE_SIZE, d'.memmap b ≠ d.memmap b → b ∈ a.owned.blocks) ∧
        ∀ a' ∈ l₁ ++ l₂, ∀ b ∈ a'.owned.blocks, d'.memmap b = d.memmap b)

/- `b` is one of the entries that the loop clears: from block `k` on, as many as entry `k` says. -/
def Cleared (d : MallcoDev) (k b : ℕ) : Prop := k ≤ b ∧ b < k + (d.memmap k).toNat

/- The offset lies past the pool or in a free block, or in a live allocation such that every entry
cleared exists, and if it is taken is this allocation's and no other's. -/
def ClearsOwn (offset : Word) (d : MallcoDev) (live : List Alloc) : Prop :=
  MEM_MAX_SIZE ≤ offset.toNat ∨ d.memmap (offset.toNat / 32) = 0 ∨
    ∃ l₁ a l₂, live = l₁ ++ a :: l₂ ∧ offset.toNat / 32 ∈ a.owned.blocks ∧
      ∀ b, Cleared d (offset.toNat / 32) b → b < MEM_ALLOC_TABLE_SIZE ∧
        (d.memmap b ≠ 0 → b ∈ a.owned.blocks ∧ ∀ a' ∈ l₁ ++ l₂, b ∉ a'.owned.blocks)

/- The entries cleared behind the allocation that contains the offset exist and are free. -/
def TailFree (offset : Word) (d : MallcoDev) (live : List Alloc) : Prop :=
  ∀ a ∈ live, offset.toNat / 32 ∈ a.owned.blocks →
    ∀ b, a.owned.start + a.owned.len ≤ b → b < offset.toNat / 32 + a.owned.len →
      b < MEM_ALLOC_TABLE_SIZE ∧ d.memmap b = 0

theorem mark_isSome {v : Half} {m : ℕ → Half} {index n : ℕ} (h : (mark v m index n).isSome)
    (hn : 0 < n) : index + n ≤ MEM_ALLOC_TABLE_SIZE := by
  induction n generalizing m index with
  | zero => exact absurd hn (Nat.lt_irrefl 0)
  | succ n ih =>
    unfold mark store at h
    by_cases hi : index < MEM_ALLOC_TABLE_SIZE
    · rw [if_pos hi, Option.bind_some] at h
      cases n with
      | zero => exact hi
      | succ n =>
        have hrest := ih h (Nat.succ_pos n)
        omega
    · rw [if_neg hi] at h
      cases h

theorem memFree_isSome {offset : Word} {d : MallcoDev} (hr : d.memrdy ≠ 0)
    (ho : offset.toNat < MEM_MAX_SIZE) (hpos : 0 < (d.memmap (offset.toNat / 32)).toNat)
    (h : (memFree offset d).isSome) :
    offset.toNat / 32 + (d.memmap (offset.toNat / 32)).toNat ≤ MEM_ALLOC_TABLE_SIZE := by
  have hload : load d.memmap (offset.toNat / MEM_BLOCK_SIZE) =
      some (d.memmap (offset.toNat / 32)) := by
    refine if_pos ?_
    change offset.toNat < 10240 at ho
    change offset.toNat / 32 < 320
    omega
  unfold memFree at h
  rw [if_neg hr, if_pos ho] at h
  simp only [hload, Option.bind_eq_bind, Option.bind_some] at h
  rw [show offset.toNat / MEM_BLOCK_SIZE = offset.toNat / 32 from rfl] at h
  cases hm : mark 0 d.memmap (offset.toNat / 32) (d.memmap (offset.toNat / 32)).toNat with
  | none =>
    rw [hm] at h
    cases h
  | some m => exact mark_isSome (by rw [hm]; rfl) hpos

/- Before the first call nothing is live, and the table is clear. -/
theorem History.fresh {Freed : Alloc → Prop} {d : MallcoDev} {live : List Alloc} (h : History Freed d live)
    (hr : d.memrdy = 0) : d = uninitialised ∧ live = [] := by
  cases h with
  | start => exact ⟨rfl, rfl⟩
  | malloc _ hcall _ => exact absurd hr (memMalloc_ready hcall)
  | refused _ hcall => exact absurd hr (memMalloc_ready hcall)
  | free _ _ hcall => exact absurd hr (memFree_memrdy hcall)

theorem History.memrdy {Freed : Alloc → Prop} {d : MallcoDev} {live : List Alloc} (h : History Freed d live)
    (hne : live ≠ []) : d.memrdy ≠ 0 := fun hr => hne (h.fresh hr).2

theorem History.weaken {Freed Freed' : Alloc → Prop} {d : MallcoDev} {live : List Alloc}
    (h : History Freed d live) (hf : ∀ a, Freed a → Freed' a) : History Freed' d live := by
  induction h with
  | start => exact .start
  | malloc _ hcall hok ih => exact .malloc ih hcall hok
  | refused _ hcall ih => exact .refused ih hcall
  | free _ hfreed hcall ih => exact .free ih (hf _ hfreed) hcall

/- What a call that stays inside the table leaves in it. -/
theorem memFree_cleared {offset : Word} {d : MallcoDev} (hr : d.memrdy ≠ 0)
    (ho : offset.toNat < MEM_MAX_SIZE)
    (hin : offset.toNat / 32 + (d.memmap (offset.toNat / 32)).toNat ≤ MEM_ALLOC_TABLE_SIZE) :
    ∃ d', memFree offset d = some (0, d') ∧
      (∀ b, Cleared d (offset.toNat / 32) b → d'.memmap b = 0) ∧
      ∀ b, ¬ Cleared d (offset.toNat / 32) b → d'.memmap b = d.memmap b :=
  ⟨_, memFree_ready hr ho hin, fun _ hb => if_pos hb, fun _ hb => if_neg hb⟩

theorem pos_of_ne {v : Half} (h : v ≠ 0) : 0 < v.toNat :=
  Nat.pos_of_ne_zero fun h0 => h (BitVec.eq_of_toNat_eq h0)

/- On a heap that is set up. -/
theorem free_iff_ready {offset : Word} {d : MallcoDev} (live : List Alloc) (hr : d.memrdy ≠ 0) :
    FreeContract offset d live ↔ ClearsOwn offset d live := by
  have hsize : MEM_ALLOC_TABLE_SIZE = 320 := rfl
  by_cases hpast : MEM_MAX_SIZE ≤ offset.toNat
  · have hrun : memFree offset d = some (2, d) := by
      unfold memFree
      rw [if_neg hr, if_neg (Nat.not_lt_of_le hpast)]
    exact iff_of_true ⟨2, d, hrun, Or.inl fun _ _ => rfl⟩ (Or.inl hpast)
  have ho : offset.toNat < MEM_MAX_SIZE := Nat.lt_of_not_le hpast
  have hk : offset.toNat / 32 < MEM_ALLOC_TABLE_SIZE := by
    change offset.toNat < 10240 at ho
    omega
  by_cases hzero : d.memmap (offset.toNat / 32) = 0
  · have hnone : ∀ b, ¬ Cleared d (offset.toNat / 32) b := by
      rintro b ⟨h1, h2⟩
      rw [hzero] at h2
      exact absurd h2 (Nat.not_lt_of_le h1)
    obtain ⟨d', hrun, -, hsame⟩ := memFree_cleared hr ho (by rw [hzero]; exact Nat.le_of_lt hk)
    exact iff_of_true ⟨0, d', hrun, Or.inl fun b _ => hsame b (hnone b)⟩ (Or.inr (Or.inl hzero))
  have hpos := pos_of_ne hzero
  have hfirst : Cleared d (offset.toNat / 32) (offset.toNat / 32) := ⟨Nat.le_refl _, by omega⟩
  unfold ClearsOwn
  rw [or_iff_right hpast, or_iff_right hzero]
  constructor
  · rintro ⟨r, d', hrun, hcase⟩
    have hfits := memFree_isSome hr ho hpos (by rw [hrun]; rfl)
    obtain ⟨d'', hrun', hclear, -⟩ := memFree_cleared hr ho hfits
    rw [hrun'] at hrun
    cases hrun
    rcases hcase with hsame | ⟨l₁, a, l₂, hlive, hmem, honly, hothers⟩
    · exact absurd ((hsame _ hk).symm.trans (hclear _ hfirst)) hzero
    · refine ⟨l₁, a, l₂, hlive, hmem, fun b hb => ⟨Nat.lt_of_lt_of_le hb.2 hfits, fun hne => ?_⟩⟩
      have hchanged : d'.memmap b ≠ d.memmap b := by
        rw [hclear b hb]
        exact hne.symm
      exact ⟨honly b (Nat.lt_of_lt_of_le hb.2 hfits) hchanged, fun a' ha' hb' =>
        hchanged (hothers a' ha' b hb')⟩
  · rintro ⟨l₁, a, l₂, hlive, hmem, hown⟩
    have hlast := (hown (offset.toNat / 32 + (d.memmap (offset.toNat / 32)).toNat - 1)
      ⟨by omega, by omega⟩).1
    obtain ⟨d', hrun, hclear, hsame⟩ := memFree_cleared hr ho (by omega)
    have hchanged : ∀ b, d'.memmap b ≠ d.memmap b → Cleared d (offset.toNat / 32) b ∧ d.memmap b ≠ 0 := by
      intro b hne
      by_cases hb : Cleared d (offset.toNat / 32) b
      · rw [hclear b hb] at hne
        exact ⟨hb, hne.symm⟩
      · exact absurd (hsame b hb) hne
    refine ⟨0, d', hrun, Or.inr ⟨l₁, a, l₂, hlive, hmem, fun b _ hne => ?_, fun a' ha' b hb => ?_⟩⟩
    · obtain ⟨hb, htaken⟩ := hchanged b hne
      exact ((hown b hb).2 htaken).1
    · by_contra hne
      obtain ⟨hb', htaken⟩ := hchanged b hne
      exact ((hown b hb').2 htaken).2 a' ha' hb

theorem Holds.taken {d : MallcoDev} {live : List Alloc} {lay : Layout MEM_ALLOC_TABLE_SIZE}
    (h : Holds d live lay) {a : Alloc} (ha : a ∈ live) {b : ℕ} (hb : b ∈ a.owned.blocks) :
    b < MEM_ALLOC_TABLE_SIZE ∧ (d.memmap b).toNat = a.owned.len := by
  obtain ⟨h1, h2⟩ := Span.mem_blocks.mp hb
  have howns : a.Owns := by
    unfold Alloc.Owns
    omega
  have hmem := h.mem ha howns
  have hin := lay.inside _ hmem
  have hlt : b < MEM_ALLOC_TABLE_SIZE := by omega
  exact ⟨hlt, (h.table b hlt).trans (lay.tag_of_mem hmem hb)⟩

theorem Holds.apart {d : MallcoDev} {l₁ l₂ : List Alloc} {a : Alloc} {lay : Layout MEM_ALLOC_TABLE_SIZE}
    (h : Holds d (l₁ ++ a :: l₂) lay) {b : ℕ} (hb : b ∈ a.owned.blocks) :
    ∀ a' ∈ l₁ ++ l₂, b ∉ a'.owned.blocks := by
  intro a' ha' hb'
  have howns : a.Owns := by
    have hlt := Span.mem_blocks.mp hb
    unfold Alloc.Owns
    omega
  have howns' : a'.Owns := by
    have hlt := Span.mem_blocks.mp hb'
    unfold Alloc.Owns
    omega
  have hmem : a'.owned ∈ (owners l₁).map Alloc.owned ++ (owners l₂).map Alloc.owned := by
    rw [← List.map_append, ← owners_append]
    exact List.mem_map_of_mem (List.mem_filter.mpr ⟨ha', decide_eq_true howns'⟩)
  exact Finset.disjoint_left.mp (lay.disjoint_middle (h.split howns) _ hmem) hb hb'

/- A taken block belongs to a live allocation. -/
theorem Holds.owner {d : MallcoDev} {live : List Alloc} {lay : Layout MEM_ALLOC_TABLE_SIZE}
    (h : Holds d live lay) {b : ℕ} (hb : b < MEM_ALLOC_TABLE_SIZE) (hne : d.memmap b ≠ 0) :
    ∃ a ∈ live, b ∈ a.owned.blocks := by
  by_contra hnone
  refine hne (BitVec.eq_of_toNat_eq ((h.table b hb).trans (tag_eq_zero.mpr fun t ht hbt => ?_)))
  rw [h.runs] at ht
  obtain ⟨a, ha, rfl⟩ := List.mem_map.mp ht
  exact hnone ⟨a, (List.mem_filter.mp ha).1, hbt⟩

/- Where the table is the one of the live allocations, only the tail can go wrong. -/
theorem clearsOwn_tail {offset : Word} {d : MallcoDev} {live : List Alloc}
    {lay : Layout MEM_ALLOC_TABLE_SIZE} (h : Holds d live lay) :
    ClearsOwn offset d live ↔ TailFree offset d live := by
  have hsize : MEM_ALLOC_TABLE_SIZE = 320 := rfl
  constructor
  · intro hown a ha hmem b hb1 hb2
    obtain ⟨hlt, hlen⟩ := h.taken ha hmem
    obtain ⟨hm1, hm2⟩ := Span.mem_blocks.mp hmem
    rcases hown with hpast | hzero | ⟨l₁, a', l₂, rfl, hmem', hall⟩
    · change 10240 ≤ offset.toNat at hpast
      omega
    · rw [hzero] at hlen
      change 0 = _ at hlen
      omega
    · have hb : Cleared d (offset.toNat / 32) b := by
        refine ⟨by omega, ?_⟩
        rw [hlen]
        exact hb2
      refine ⟨(hall b hb).1, by_contra fun hne => ?_⟩
      -- the allocation that contains the offset is this one
      have hsame : a.owned = a'.owned := by
        rcases List.mem_append.mp ha with ha | ha
        · exact absurd hmem (h.apart hmem' a (List.mem_append_left l₂ ha))
        · rcases List.mem_cons.mp ha with rfl | ha
          · rfl
          · exact absurd hmem (h.apart hmem' a (List.mem_append_right l₁ ha))
      have hin := ((hall b hb).2 hne).1
      rw [← hsame] at hin
      have hlast := (Span.mem_blocks.mp hin).2
      omega
  · intro htail
    by_cases hpast : MEM_MAX_SIZE ≤ offset.toNat
    · exact Or.inl hpast
    by_cases hzero : d.memmap (offset.toNat / 32) = 0
    · exact Or.inr (Or.inl hzero)
    have hk : offset.toNat / 32 < MEM_ALLOC_TABLE_SIZE := by
      change ¬ 10240 ≤ offset.toNat at hpast
      omega
    obtain ⟨a, ha, hmem⟩ := h.owner hk hzero
    obtain ⟨-, hlen⟩ := h.taken ha hmem
    have htaila := htail a ha hmem
    obtain ⟨l₁, l₂, rfl⟩ := List.append_of_mem ha
    refine Or.inr (Or.inr ⟨l₁, a, l₂, rfl, hmem, fun b hb => ?_⟩)
    obtain ⟨h1, h2⟩ := hb
    rw [hlen] at h2
    by_cases hin : b ∈ a.owned.blocks
    · exact ⟨(h.taken ha hin).1, fun _ => ⟨hin, h.apart hin⟩⟩
    · have hstart := (Span.mem_blocks.mp hmem).1
      have hend : a.owned.start + a.owned.len ≤ b := by
        by_contra hlt
        exact hin (Span.mem_blocks.mpr ⟨by omega, by omega⟩)
      obtain ⟨hlt, hfree⟩ := htaila b hend h2
      exact ⟨hlt, fun hne => absurd hfree hne⟩

/-- Every live allocation may be freed: also one that was given no block, because its count was cut
to 0. As long as none of these is freed, the table is the one of the live allocations. -/
theorem memFree_contract_iff {d : MallcoDev} {live : List Alloc} (h : History (fun _ => True) d live)
    (offset : Word) : (FreeContract offset d live ↔ ClearsOwn offset d live) ∧
      (History Alloc.Owns d live → (FreeContract offset d live ↔ TailFree offset d live)) := by
  have hiff : FreeContract offset d live ↔ ClearsOwn offset d live := by
    by_cases hr : d.memrdy = 0
    · obtain ⟨rfl, rfl⟩ := h.fresh hr
      exact iff_of_true ⟨1, _, rfl, Or.inl fun b hb => memInit_memmap uninitialised hb⟩
        (Or.inr (Or.inl rfl))
    · exact free_iff_ready live hr
  refine ⟨hiff, fun howns => ?_⟩
  obtain ⟨lay, hlay⟩ := howns.holds
  exact hiff.trans (clearsOwn_tail hlay)

theorem Reach.any {d : MallcoDev} {live : List Alloc} (h : Reach d live) : History (fun _ => True) d live :=
  h.history.weaken fun _ _ => trivial

/- One block more: 2 MiB and 32 bytes, served with the block below the allocation at the top. -/
def shortened : MallcoDev := afterCall (memMalloc 0x200020 fragmented) fragmented

def shortenedLive : List Alloc := [⟨315 * 32, 0x200020⟩, ⟨307 * 32, 64⟩, ⟨316 * 32, 100⟩]

theorem shortened_history : History Alloc.Owns shortened shortenedLive := by
  have hcall : (memMalloc 0x200020 fragmented).map Prod.fst = some (315 * 32) := by decide +kernel
  exact .malloc fragmented_reach.history (afterCall_eq hcall) (by decide)

theorem memFree_contract_iff_shortened : History Alloc.Owns shortened shortenedLive ∧
    (FreeContract (315 * 32) shortened shortenedLive ↔ ClearsOwn (315 * 32) shortened shortenedLive) ∧
    (FreeContract (315 * 32) shortened shortenedLive ↔ TailFree (315 * 32) shortened shortenedLive) := by
  have hany : History (fun _ => True) shortened shortenedLive := shortened_history.weaken fun _ _ => trivial
  obtain ⟨hiff, htail⟩ := memFree_contract_iff hany (315 * 32)
  exact ⟨shortened_history, hiff, htail shortened_history⟩

/- The second of the four topmost blocks: entry 320 is cleared, which the table has not. -/
theorem memFree_leaves_table :
    ∃ d, History (fun _ => True) d [⟨316 * 32, 100⟩] ∧ ¬ FreeContract (317 * 32) d [⟨316 * 32, 100⟩] := by
  obtain ⟨d, hcall, hreach⟩ := first_call
  refine ⟨d, hreach.any, ?_⟩
  rintro ⟨r, d', hrun, -⟩
  have hnone : ((memMalloc 100 uninitialised).bind fun x => memFree (317 * 32) x.2).isNone = true := by
    decide +kernel
  rw [hcall, Option.bind_some, hrun] at hnone
  cases hnone

end MultiEmbedded.Heap
