import MultiEmbedded.Heap.Malloc

/-!
# The live allocations of a heap

`Reach d live`: some sequence of `mem_malloc` and `mem_free` calls leads from the
uninitialised heap to `d`, with the allocations `live` obtained and not yet freed.
The table of `d` is then the one of a layout with exactly these runs. `History` is the
same for requests of any size, of which `mem_malloc` marks as many blocks as sixteen
bits can count.
-/

namespace MultiEmbedded.Heap
open Runs

structure Alloc where
  offset : Word
  size : Word

/- The blocks behind an offset that `mem_malloc` returned for `size` bytes. -/
def Alloc.span (a : Alloc) : Span := ⟨a.offset.toNat / 32, blocksFor a.size⟩

/- Those of them that it marked. -/
def Alloc.owned (a : Alloc) : Span := ⟨a.offset.toNat / 32, blocksFor a.size % 65536⟩

def Alloc.Owns (a : Alloc) : Prop := 0 < a.owned.len

instance (a : Alloc) : Decidable a.Owns := inferInstanceAs (Decidable (_ < _))

def owners (live : List Alloc) : List Alloc := live.filter fun a => a.Owns

theorem owners_pos {a : Alloc} (h : a.Owns) (live : List Alloc) : owners (a :: live) = a :: owners live :=
  List.filter_cons_of_pos (decide_eq_true h)

theorem owners_neg {a : Alloc} (h : ¬ a.Owns) (live : List Alloc) : owners (a :: live) = owners live :=
  List.filter_cons_of_neg (by simpa using h)

theorem owners_append (l₁ l₂ : List Alloc) : owners (l₁ ++ l₂) = owners l₁ ++ owners l₂ :=
  List.filter_append l₁ l₂

inductive Reach : MallcoDev → List Alloc → Prop
  | start : Reach uninitialised []
  | malloc {d d' : MallcoDev} {live : List Alloc} {size offset : Word} :
      Reach d live → size.toNat ≤ 65535 * 32 → memMalloc size d = some (offset, d') →
      offset ≠ 0xffffffff → Reach d' (⟨offset, size⟩ :: live)
  | refused {d d' : MallcoDev} {live : List Alloc} {size : Word} :
      Reach d live → size.toNat ≤ 65535 * 32 → memMalloc size d = some (0xffffffff, d') →
      Reach d' live
  | free {d d' : MallcoDev} {l₁ l₂ : List Alloc} {a : Alloc} {r : Byte} :
      Reach d (l₁ ++ a :: l₂) → memFree a.offset d = some (r, d') → Reach d' (l₁ ++ l₂)

/- With requests of any size; the allocations that are freed meet `Freed`. -/
inductive History (Freed : Alloc → Prop) : MallcoDev → List Alloc → Prop
  | start : History Freed uninitialised []
  | malloc {d d' : MallcoDev} {live : List Alloc} {size offset : Word} :
      History Freed d live → memMalloc size d = some (offset, d') → offset ≠ 0xffffffff →
      History Freed d' (⟨offset, size⟩ :: live)
  | refused {d d' : MallcoDev} {live : List Alloc} {size : Word} :
      History Freed d live → memMalloc size d = some (0xffffffff, d') → History Freed d' live
  | free {d d' : MallcoDev} {l₁ l₂ : List Alloc} {a : Alloc} {r : Byte} :
      History Freed d (l₁ ++ a :: l₂) → Freed a → memFree a.offset d = some (r, d') →
      History Freed d' (l₁ ++ l₂)

/- The heap `d` holds the layout `lay`, whose runs are the live allocations with a block. -/
structure Holds (d : MallcoDev) (live : List Alloc) (lay : Layout MEM_ALLOC_TABLE_SIZE) :
    Prop where
  runs : lay.runs = (owners live).map Alloc.owned
  table : ∀ i < MEM_ALLOC_TABLE_SIZE, (d.memmap i).toNat = tag lay.runs i
  aligned : ∀ a ∈ live, a.offset.toNat % 32 = 0
  ready : live ≠ [] → d.memrdy ≠ 0

theorem Holds.start : Holds uninitialised [] (Layout.empty _) where
  runs := rfl
  table _ _ := rfl
  aligned _ ha := nomatch ha
  ready h := absurd rfl h

/- Initialisation can only come before the first allocation. -/
theorem Holds.init {d : MallcoDev} {live : List Alloc} {lay : Layout MEM_ALLOC_TABLE_SIZE}
    (h : Holds d live lay) : Holds (Heap.ready d) live lay := by
  unfold Heap.ready
  by_cases hr : d.memrdy = 0
  · have hnil : live = [] := by
      by_contra hne
      exact h.ready hne hr
    subst hnil
    rw [if_pos hr]
    refine ⟨h.runs, fun i hi => ?_, h.aligned, fun _ => (by decide : (1 : Byte) ≠ 0)⟩
    rw [memInit_memmap d hi, h.runs]
    rfl
  · rw [if_neg hr]
    exact h

theorem ready_memrdy (d : MallcoDev) : (Heap.ready d).memrdy ≠ 0 := by
  unfold Heap.ready
  by_cases hr : d.memrdy = 0
  · rw [if_pos hr]
    exact (by decide : (1 : Byte) ≠ 0)
  · rw [if_neg hr]
    exact hr

theorem owned_offset {o : ℕ} (ho : o ≤ MEM_ALLOC_TABLE_SIZE) (size : Word) :
    Alloc.owned ⟨BitVec.ofNat 32 (o * MEM_BLOCK_SIZE), size⟩ = ⟨o, blocksFor size % 65536⟩ := by
  unfold Alloc.owned
  rw [offset_toNat ho, Nat.mul_div_cancel_left _ (by decide)]

theorem Holds.malloc {d : MallcoDev} {live : List Alloc} {lay : Layout MEM_ALLOC_TABLE_SIZE}
    (h : Holds d live lay) (hr : d.memrdy ≠ 0) {size : Word} {nmemb : Half} {o : ℕ}
    (hn : nmemb.toNat = blocksFor size % 65536) (hpos : 0 < blocksFor size % 65536)
    (hrun : FreeRun d.memmap nmemb.toNat o) :
    ∃ lay', Holds { d with memmap := marked d.memmap o nmemb }
      (⟨BitVec.ofNat 32 (o * MEM_BLOCK_SIZE), size⟩ :: live) lay' := by
  have hin := hrun.1
  have hle : o ≤ MEM_ALLOC_TABLE_SIZE := by omega
  have hspan := owned_offset hle size
  have howns : Alloc.Owns ⟨BitVec.ofNat 32 (o * MEM_BLOCK_SIZE), size⟩ := hpos
  rw [← hn] at hspan
  have hfree : ∀ b ∈ (Span.mk o nmemb.toNat).blocks, tag lay.runs b = 0 := by
    intro b hb
    obtain ⟨h1, h2⟩ := Span.mem_blocks.mp hb
    rw [← h.table b (by change b < o + nmemb.toNat at h2; omega), hrun.2 b h1 h2]
    rfl
  refine ⟨lay.add ⟨o, nmemb.toNat⟩ (hn ▸ hpos) hin hfree, ?_, ?_, ?_, fun _ => hr⟩
  · rw [owners_pos howns, List.map_cons, hspan, ← h.runs]
    rfl
  · intro i hi
    change (marked d.memmap o nmemb i).toNat = tag (⟨o, nmemb.toNat⟩ :: lay.runs) i
    rw [tag_cons]
    unfold marked
    by_cases hi' : i ∈ (Span.mk o nmemb.toNat).blocks
    · rw [if_pos hi', if_pos (Span.mem_blocks.mp hi'), hfree i hi']
      rfl
    · rw [if_neg hi', if_neg fun hc => hi' (Span.mem_blocks.mpr hc), h.table i hi, Nat.zero_add]
  · refine List.forall_mem_cons.mpr ⟨?_, h.aligned⟩
    rw [offset_toNat hle, Nat.mul_mod_right]

/- An allocation without a block changes no table. -/
theorem Holds.none {d : MallcoDev} {live : List Alloc} {lay : Layout MEM_ALLOC_TABLE_SIZE}
    (h : Holds d live lay) (hr : d.memrdy ≠ 0) {size : Word} {o : ℕ} (ho : o ≤ MEM_ALLOC_TABLE_SIZE)
    (hzero : blocksFor size % 65536 = 0) :
    Holds d (⟨BitVec.ofNat 32 (o * MEM_BLOCK_SIZE), size⟩ :: live) lay := by
  have hno : ¬ Alloc.Owns ⟨BitVec.ofNat 32 (o * MEM_BLOCK_SIZE), size⟩ := Nat.not_lt_of_le (Nat.le_of_eq hzero)
  refine ⟨?_, h.table, List.forall_mem_cons.mpr ⟨?_, h.aligned⟩, fun _ => hr⟩
  · rw [owners_neg hno]
    exact h.runs
  · rw [offset_toNat ho, Nat.mul_mod_right]

theorem Holds.mem {d : MallcoDev} {live : List Alloc} {lay : Layout MEM_ALLOC_TABLE_SIZE}
    (h : Holds d live lay) {a : Alloc} (ha : a ∈ live) (howns : a.Owns) : a.owned ∈ lay.runs :=
  h.runs ▸ List.mem_map_of_mem (List.mem_filter.mpr ⟨ha, decide_eq_true howns⟩)

theorem Holds.first {d : MallcoDev} {live : List Alloc} {lay : Layout MEM_ALLOC_TABLE_SIZE}
    (h : Holds d live lay) {a : Alloc} (ha : a ∈ live) (howns : a.Owns) :
    a.owned.start + a.owned.len ≤ MEM_ALLOC_TABLE_SIZE ∧
      (d.memmap a.owned.start).toNat = a.owned.len ∧ a.offset.toNat < MEM_MAX_SIZE := by
  have hmem := h.mem ha howns
  have hin := lay.inside _ hmem
  have hpos := lay.pos _ hmem
  have hsize : MEM_ALLOC_TABLE_SIZE = 320 := rfl
  refine ⟨hin, ?_, ?_⟩
  · rw [h.table _ (by omega)]
    exact lay.tag_of_mem hmem (Span.mem_blocks.mpr ⟨Nat.le_refl _, by omega⟩)
  · change a.offset.toNat / 32 + a.owned.len ≤ _ at hin
    change _ < 10240
    omega

theorem Holds.split {d : MallcoDev} {l₁ l₂ : List Alloc} {a : Alloc}
    {lay : Layout MEM_ALLOC_TABLE_SIZE} (h : Holds d (l₁ ++ a :: l₂) lay) (howns : a.Owns) :
    lay.runs = (owners l₁).map Alloc.owned ++ a.owned :: (owners l₂).map Alloc.owned := by
  rw [h.runs, owners_append, owners_pos howns, List.map_append, List.map_cons]

/- Freeing a live allocation clears exactly its run. -/
theorem Holds.free {d : MallcoDev} {l₁ l₂ : List Alloc} {a : Alloc}
    {lay : Layout MEM_ALLOC_TABLE_SIZE} (h : Holds d (l₁ ++ a :: l₂) lay) (howns : a.Owns) :
    ∃ d' lay', memFree a.offset d = some (0, d') ∧ Holds d' (l₁ ++ l₂) lay' := by
  have hmema : a ∈ l₁ ++ a :: l₂ := List.mem_append_right l₁ (List.mem_cons_self ..)
  obtain ⟨hin, hlen, hoff⟩ := h.first hmema howns
  have hr : d.memrdy ≠ 0 := h.ready (by simp)
  have hruns := h.split howns
  have hmem := h.mem hmema howns
  refine ⟨_, lay.remove hruns, memFree_ready hr hoff (by rw [← hlen] at hin; exact hin), ?_⟩
  refine ⟨?_, fun i hi => ?_, fun b hb => h.aligned b (List.perm_middle.mem_iff.mpr (List.mem_cons_of_mem a hb)),
    fun _ => hr⟩
  · rw [owners_append, List.map_append]
    rfl
  · change (if a.owned.start ≤ i ∧ i < a.owned.start + (d.memmap a.owned.start).toNat then (0 : Half)
      else d.memmap i).toNat = tag ((owners l₁).map Alloc.owned ++ (owners l₂).map Alloc.owned) i
    have htag := h.table i hi
    have hmid := tag_middle ((owners l₁).map Alloc.owned) ((owners l₂).map Alloc.owned) a.owned i
    rw [← hruns] at hmid
    rw [hlen]
    by_cases hi' : i ∈ a.owned.blocks
    · rw [if_pos (Span.mem_blocks.mp hi')]
      rw [if_pos hi', lay.tag_of_mem hmem hi'] at hmid
      change 0 = _
      omega
    · rw [if_neg fun hc => hi' (Span.mem_blocks.mpr hc), htag, hmid, if_neg hi', Nat.zero_add]

theorem History.holds {d : MallcoDev} {live : List Alloc} (h : History Alloc.Owns d live) :
    ∃ lay, Holds d live lay := by
  induction h with
  | start => exact ⟨_, Holds.start⟩
  | @malloc d d' live size offset _ hcall hok ih =>
    obtain ⟨lay, hlay⟩ := ih
    rcases memMalloc_cases hcall with ⟨hoff, -⟩ | ⟨hzero, rfl, o, ho, rfl⟩ | ⟨nmemb, o, hn, hpos, hrun, rfl, rfl⟩
    · exact absurd hoff hok
    · exact ⟨lay, hlay.init.none (ready_memrdy d) (Nat.le_of_lt ho) hzero⟩
    · exact hlay.init.malloc (ready_memrdy d) hn (hn ▸ hpos) hrun
  | @refused d d' live size _ hcall ih =>
    obtain ⟨lay, hlay⟩ := ih
    rcases memMalloc_cases hcall with ⟨-, rfl⟩ | ⟨-, -, o, ho, hoff⟩ | ⟨nmemb, o, -, -, hrun, hoff, -⟩
    · exact ⟨lay, hlay.init⟩
    · exact absurd hoff.symm (offset_ne (Nat.le_of_lt ho))
    · have hin := hrun.1
      exact absurd hoff.symm (offset_ne (by omega))
  | free _ howns hcall ih =>
    obtain ⟨lay, hlay⟩ := ih
    obtain ⟨d', lay', hfree, hlay'⟩ := hlay.free howns
    rw [hfree] at hcall
    cases hcall
    exact ⟨lay', hlay'⟩

/- Within the bound nothing is cut off the count. -/
theorem Reach.owned {d : MallcoDev} {live : List Alloc} (h : Reach d live) :
    ∀ a ∈ live, a.owned = a.span ∧ a.Owns := by
  induction h with
  | start => exact fun a ha => nomatch ha
  | @malloc d d' live size offset _ hsize hcall hok ih =>
    refine List.forall_mem_cons.mpr ⟨?_, ih⟩
    have h0 : size ≠ 0 := by
      rintro rfl
      rw [memMalloc_zero] at hcall
      exact hok (congrArg Prod.fst (Option.some.inj hcall)).symm
    have hmod := Nat.mod_eq_of_lt (blocksFor_lt hsize)
    refine ⟨?_, ?_⟩
    · unfold Alloc.owned Alloc.span
      rw [hmod]
    · change 0 < blocksFor size % 65536
      rw [hmod]
      exact blocksFor_pos h0
  | refused _ _ _ ih => exact ih
  | free _ _ ih =>
    intro b hb
    exact ih b (List.perm_middle.mem_iff.mpr (List.mem_cons_of_mem _ hb))

theorem Reach.history {d : MallcoDev} {live : List Alloc} (h : Reach d live) : History Alloc.Owns d live := by
  induction h with
  | start => exact .start
  | malloc _ _ hcall hok ih => exact .malloc ih hcall hok
  | refused _ _ hcall ih => exact .refused ih hcall
  | @free d d' l₁ l₂ a r hreach hcall ih =>
    have howned := hreach.owned a (List.mem_append_right l₁ (List.mem_cons_self ..))
    exact .free ih howned.2 hcall

theorem Reach.holds {d : MallcoDev} {live : List Alloc} (h : Reach d live) :
    ∃ lay, Holds d live lay ∧ lay.runs = live.map Alloc.span := by
  obtain ⟨lay, hlay⟩ := h.history.holds
  refine ⟨lay, hlay, ?_⟩
  have hall : owners live = live := List.filter_eq_self.mpr fun a ha => decide_eq_true (h.owned a ha).2
  rw [hlay.runs, hall]
  exact List.map_congr_left fun a ha => (h.owned a ha).1

/-! ### Use of the pool -/

theorem used_eq (m : ℕ → Half) (n : ℕ) :
    (List.range n).foldl (fun (used : Word) i => if m i ≠ 0 then used + 1 else used) 0 =
      BitVec.ofNat 32 ((Finset.range n).filter fun i => m i ≠ 0).card := by
  induction n with
  | zero => rfl
  | succ n ih =>
    rw [List.range_succ, List.foldl_append, ih, Finset.range_add_one, Finset.filter_insert]
    by_cases h : m n ≠ 0
    · rw [if_pos h, Finset.card_insert_of_notMem (by simp), BitVec.ofNat_add]
      exact if_pos h
    · rw [if_neg h]
      exact if_neg h

theorem memPerused_eq (d : MallcoDev) : (memPerused d).toNat =
    100 * ((Finset.range MEM_ALLOC_TABLE_SIZE).filter fun i => d.memmap i ≠ 0).card / 320 := by
  have hle : ((Finset.range MEM_ALLOC_TABLE_SIZE).filter fun i => d.memmap i ≠ 0).card ≤ 320 :=
    (Finset.card_filter_le _ _).trans (Nat.le_of_eq (Finset.card_range _))
  unfold memPerused
  rw [used_eq]
  generalize ((Finset.range MEM_ALLOC_TABLE_SIZE).filter fun i => d.memmap i ≠ 0).card = used at *
  simp only [BitVec.toNat_setWidth, BitVec.toNat_udiv, BitVec.toNat_mul, BitVec.toNat_ofNat]
  change used % 4294967296 * 100 % 4294967296 / 320 % 256 = 100 * used / 320
  rw [Nat.mod_eq_of_lt (by omega : used < 4294967296),
    Nat.mod_eq_of_lt (by omega : used * 100 < 4294967296), Nat.mul_comm used]
  exact Nat.mod_eq_of_lt (by omega)

/-- What the table says about the live allocations, and that it says enough: no further
call on them leaves the table. -/
structure Consistent (d : MallcoDev) (live : List Alloc) : Prop where
  disjoint : live.Pairwise fun a b => Disjoint a.span.blocks b.span.blocks
  inside : ∀ a ∈ live, a.offset.toNat = 32 * a.span.start ∧ a.span.blocks ⊆ Finset.range 320
  taken : ∀ a ∈ live, ∀ b ∈ a.span.blocks, (d.memmap b).toNat = blocksFor a.size
  free : ∀ b < 320, (∀ a ∈ live, b ∉ a.span.blocks) → d.memmap b = 0
  perused : (memPerused d).toNat = 100 * (live.map fun a => blocksFor a.size).sum / 320
  malloc : ∀ size : Word, size.toNat ≤ 65535 * 32 → (memMalloc size d).isSome
  release : ∀ a ∈ live, (memFree a.offset d).isSome

theorem heap_invariant {d : MallcoDev} {live : List Alloc} (h : Reach d live) :
    Consistent d live := by
  obtain ⟨lay, hlay, hruns⟩ := h.holds
  have hmem : ∀ a ∈ live, a.span ∈ lay.runs := fun a ha => hruns ▸ List.mem_map_of_mem ha
  have hlt : ∀ a ∈ live, ∀ b ∈ a.span.blocks, b < 320 := by
    intro a ha b hb
    have hin : a.span.start + a.span.len ≤ 320 := lay.inside _ (hmem a ha)
    have hb' := (Span.mem_blocks.mp hb).2
    omega
  refine ⟨?_, fun a ha => ⟨?_, fun b hb => ?_⟩, fun a ha b hb => ?_, fun b hb hfree => ?_, ?_,
    fun size hsize => ?_, fun a ha => ?_⟩
  · have hap := lay.apart
    rw [hruns, List.pairwise_map] at hap
    exact hap
  · have hal := hlay.aligned a ha
    change _ = 32 * (a.offset.toNat / 32)
    omega
  · exact Finset.mem_range.mpr (hlt a ha b hb)
  · rw [hlay.table b (hlt a ha b hb)]
    exact lay.tag_of_mem (hmem a ha) hb
  · refine BitVec.eq_of_toNat_eq ?_
    rw [hlay.table b hb, hruns]
    refine tag_eq_zero.mpr fun r hr => ?_
    obtain ⟨a, ha, rfl⟩ := List.mem_map.mp hr
    exact hfree a ha
  · have hcard := Layout.card_tagged lay.runs lay.apart lay.inside
    have hsame : ((Finset.range MEM_ALLOC_TABLE_SIZE).filter fun i => d.memmap i ≠ 0) =
        ((Finset.range MEM_ALLOC_TABLE_SIZE).filter fun i => tag lay.runs i ≠ 0) := by
      refine Finset.filter_congr fun i hi => not_congr ?_
      rw [← hlay.table i (Finset.mem_range.mp hi)]
      exact ⟨fun h => by rw [h]; rfl, fun h => BitVec.eq_of_toNat_eq h⟩
    rw [memPerused_eq, hsame, hcard, hruns, List.map_map]
    rfl
  · by_cases h0 : size = 0
    · subst h0
      rfl
    · have hpos := blocksFor_pos h0
      rw [← Nat.mod_eq_of_lt (blocksFor_lt hsize)] at hpos
      obtain ⟨nmemb, -, hfound⟩ := memMalloc_found h0 hpos d
      generalize memMalloc size d = result at hfound ⊢
      cases hfound with
      | run => rfl
      | fail => rfl
  · obtain ⟨l₁, l₂, rfl⟩ := List.append_of_mem ha
    obtain ⟨_, _, hfree, _⟩ := hlay.free (h.owned a ha).2
    rw [hfree]
    rfl

/- 100 bytes are the four blocks at the top of the pool. -/
theorem first_call : ∃ d, memMalloc 100 uninitialised = some (316 * 32, d) ∧
    Reach d [⟨316 * 32, 100⟩] := by
  have hcall : (memMalloc 100 uninitialised).map Prod.fst = some (316 * 32) := by decide +kernel
  obtain ⟨⟨_, d⟩, hd, rfl⟩ := Option.map_eq_some_iff.mp hcall
  exact ⟨d, hd, .malloc .start (by decide) hd (by decide)⟩

/- The heap behind a call that stayed inside the table. -/
def afterCall {α : Type} (x : Option (α × MallcoDev)) (d : MallcoDev) : MallcoDev := (x.map Prod.snd).getD d

theorem afterCall_eq {α : Type} {x : Option (α × MallcoDev)} {d : MallcoDev} {r : α}
    (h : x.map Prod.fst = some r) : x = some (r, afterCall x d) := by
  obtain ⟨⟨_, d'⟩, rfl, rfl⟩ := Option.map_eq_some_iff.mp h
  rfl

theorem Reach.called {d : MallcoDev} {live : List Alloc} (h : Reach d live) (size offset : Word)
    (hsize : size.toNat ≤ 65535 * 32) (hcall : (memMalloc size d).map Prod.fst = some offset)
    (hok : offset ≠ 0xffffffff) : Reach (afterCall (memMalloc size d) d) (⟨offset, size⟩ :: live) :=
  .malloc h hsize (afterCall_eq hcall) hok

/- 100, 200 and 64 bytes from the top of the pool down. -/
def filled : MallcoDev :=
  let d₁ := afterCall (memMalloc 100 uninitialised) uninitialised
  let d₂ := afterCall (memMalloc 200 d₁) d₁
  afterCall (memMalloc 64 d₂) d₂

/- The run in the middle is freed again: seven free blocks between two live allocations. -/
def fragmented : MallcoDev := afterCall (memFree (309 * 32) filled) filled

theorem fragmented_reach : Reach fragmented [⟨307 * 32, 64⟩, ⟨316 * 32, 100⟩] := by
  have h1 := Reach.start.called 100 (316 * 32) (by decide) (by decide +kernel) (by decide)
  have h2 := h1.called 200 (309 * 32) (by decide) (by decide +kernel) (by decide)
  have h3 := h2.called 64 (307 * 32) (by decide) (by decide +kernel) (by decide)
  have hlive : Reach filled ([⟨307 * 32, 64⟩] ++ ⟨309 * 32, 200⟩ :: [⟨316 * 32, 100⟩]) := h3
  have hfree : (memFree (309 * 32) filled).map Prod.fst = some 0 := by decide +kernel
  exact .free hlive (afterCall_eq hfree)

theorem heap_invariant_fragmented : Reach fragmented [⟨307 * 32, 64⟩, ⟨316 * 32, 100⟩] ∧
    Consistent fragmented [⟨307 * 32, 64⟩, ⟨316 * 32, 100⟩] :=
  ⟨fragmented_reach, heap_invariant fragmented_reach⟩

end MultiEmbedded.Heap
