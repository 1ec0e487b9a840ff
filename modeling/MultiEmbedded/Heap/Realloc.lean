import MultiEmbedded.Heap.Contract

/-!
# myrealloc

A new run is taken, the new size is copied from the old address, the old run is
freed. The copy reads as many bytes as the new size has, and the old run may
have fewer.
-/

namespace MultiEmbedded.Heap
open Runs

/- The copy, with the addresses it reads. Addresses are offsets into the pool; from
`MEM_MAX_SIZE` on they are whatever lies behind it. -/
def mymemcpy (m : ℕ → Byte) (des src : ℕ) : ℕ → (ℕ → Byte) × List ℕ
  | 0 => (m, [])
  | n + 1 =>
    let r := mymemcpy (Function.update m des (m src)) (des + 1) (src + 1) n
    (r.1, src :: r.2)

/- A pointer is `NULL` or an offset from `membase`. -/
abbrev Ptr := Option Word

def mymalloc (size : Word) (d : MallcoDev) : Option (Ptr × MallcoDev) := do
  let (offset, d) ← memMalloc size d
  return (if offset = 0xffffffff then none else some offset, d)

def myfree (ptr : Ptr) (d : MallcoDev) : Option MallcoDev :=
  match ptr with
  | none => some d
  | some offset => (memFree offset d).map Prod.snd

/- The result carries the addresses read. A copy from `NULL` is a fault. -/
def myrealloc (ptr : Ptr) (size : Word) (d : MallcoDev) : Option (Ptr × List ℕ × MallcoDev) := do
  let (offset, d) ← memMalloc size d
  if offset = 0xffffffff then return (none, [], d)
  let src ← ptr
  let copy := mymemcpy d.membase offset.toNat src.toNat size.toNat
  let d ← myfree ptr { d with membase := copy.1 }
  return (some offset, copy.2, d)

/-- `NULL` for exactly the requests that cannot be served, as long as the count fits. -/
theorem mymalloc_null {d : MallcoDev} (h : Called d) {size : Word}
    (hfit : blocksFor size < 65536) : ∃ q d', mymalloc size d = some (q, d') ∧
      (q = none ↔ size = 0 ∨ ∀ o, ¬ FreeRun d.memmap (blocksFor size) o) := by
  obtain ⟨off, d', hrun, hc⟩ := memMalloc_contract h hfit
  unfold mymalloc
  rw [hrun]
  refine ⟨_, d', rfl, ?_⟩
  rw [← hc.verdict]
  by_cases hoff : off = 0xffffffff
  · exact iff_of_true (if_pos hoff) hoff
  · rw [if_neg hoff]
    exact iff_of_false (Option.some_ne_none off) hoff

/-! ### The copy -/

theorem mymemcpy_reads (m : ℕ → Byte) (des src n : ℕ) :
    (mymemcpy m des src n).2 = List.range' src n := by
  induction n generalizing m des src with
  | zero => rfl
  | succ n ih =>
    unfold mymemcpy
    rw [List.range'_succ, ← ih]

theorem mymemcpy_outside (m : ℕ → Byte) (des src n : ℕ) {x : ℕ} (hx : x < des ∨ des + n ≤ x) :
    (mymemcpy m des src n).1 x = m x := by
  induction n generalizing m des src with
  | zero => rfl
  | succ n ih =>
    unfold mymemcpy
    rw [ih _ _ _ (by omega), Function.update_of_ne (by omega)]

/- A source byte that lies outside the destination arrives as it was. -/
theorem mymemcpy_copied (m : ℕ → Byte) (des src n : ℕ) {i : ℕ} (hi : i < n)
    (hout : src + i < des ∨ des + n ≤ src + i) :
    (mymemcpy m des src n).1 (des + i) = m (src + i) := by
  induction n generalizing m des src i with
  | zero => exact absurd hi (Nat.not_lt_zero i)
  | succ n ih =>
    unfold mymemcpy
    cases i with
    | zero =>
      rw [mymemcpy_outside _ _ _ _ (Or.inl (by omega))]
      exact Function.update_self ..
    | succ i =>
      have hd : des + (i + 1) = des + 1 + i := by omega
      have hs : src + (i + 1) = src + 1 + i := by omega
      rw [hd, ih _ _ _ (by omega) (by omega), hs, Function.update_of_ne (by omega)]

/-! ### The call -/

/- After a call that returned offset `o`. -/
structure Reallocated (d : MallcoDev) (others : List Alloc) (p : Alloc) (size o : Word)
    (reads : List ℕ) (d' : MallcoDev) : Prop where
  inside : o.toNat % 32 = 0 ∧ (Alloc.span ⟨o, size⟩).blocks ⊆ Finset.range 320
  taken : ∀ k ∈ (Alloc.span ⟨o, size⟩).blocks, (d'.memmap k).toNat = blocksFor size
  disjoint : ∀ b ∈ others, Disjoint (Alloc.span ⟨o, size⟩).blocks b.owned.blocks
  copied : ∀ i < min p.size.toNat size.toNat,
    d'.membase (o.toNat + i) = d.membase (p.offset.toNat + i)
  freed : ∀ k ∈ p.owned.blocks, d'.memmap k = 0
  kept : ∀ b ∈ others, (∀ k ∈ b.owned.blocks, d'.memmap k = d.memmap k) ∧
    ∀ i < 32 * b.owned.len, d'.membase (b.offset.toNat + i) = d.membase (b.offset.toNat + i)
  reads : ∀ x ∈ reads, p.offset.toNat ≤ x ∧ x < p.offset.toNat + 32 * p.owned.len

def ReallocContract (d : MallcoDev) (others : List Alloc) (p : Alloc) (size : Word) : Prop :=
  ∃ q reads d', myrealloc (some p.offset) size d = some (q, reads, d') ∧
    match q with
    | none => reads = [] ∧ d' = d
    | some o => Reallocated d others p size o reads d'

/- Blocks `o, …` are where the new run goes: nobody's, and what is freed with `p` behind it is all
of `p`, and of nobody else. -/
structure Undamaged (d : MallcoDev) (others : List Alloc) (p : Alloc) (size : Word) (o : ℕ) : Prop where
  fresh : ∀ a ∈ p :: others, Disjoint (Span.mk o (blocksFor size)).blocks a.owned.blocks
  cleared : ∀ b, Cleared d (p.offset.toNat / 32) b → b < MEM_ALLOC_TABLE_SIZE ∧
    b ∉ (Span.mk o (blocksFor size)).blocks ∧ (d.memmap b ≠ 0 → ∀ a ∈ others, b ∉ a.owned.blocks)
  rest : ∀ b ∈ p.owned.blocks, ¬ Cleared d (p.offset.toNat / 32) b → d.memmap b = 0

/- The offsets that `mem_malloc` returns are those of blocks of the table. -/
theorem History.offsets {Freed : Alloc → Prop} {d : MallcoDev} {live : List Alloc}
    (h : History Freed d live) :
    ∀ a ∈ live, a.offset.toNat % 32 = 0 ∧ a.offset.toNat < MEM_MAX_SIZE ∧
      a.owned.start + a.owned.len ≤ MEM_ALLOC_TABLE_SIZE := by
  have hsize : MEM_ALLOC_TABLE_SIZE = 320 := rfl
  induction h with
  | start => exact fun a ha => nomatch ha
  | @malloc d d' live size offset _ hcall hok ih =>
    refine List.forall_mem_cons.mpr ⟨?_, ih⟩
    have hat : ∃ o < MEM_ALLOC_TABLE_SIZE, offset = BitVec.ofNat 32 (o * MEM_BLOCK_SIZE) ∧
        o + blocksFor size % 65536 ≤ MEM_ALLOC_TABLE_SIZE := by
      rcases memMalloc_cases hcall with ⟨hoff, -⟩ | ⟨hzero, -, o, ho, hoff⟩ | ⟨nmemb, o, hn, hpos, hrun, hoff, -⟩
      · exact absurd hoff hok
      · exact ⟨o, ho, hoff, by omega⟩
      · have hin := hrun.1
        exact ⟨o, by omega, hoff, by omega⟩
    obtain ⟨o, ho, rfl, hin⟩ := hat
    rw [owned_offset (Nat.le_of_lt ho), offset_toNat (Nat.le_of_lt ho)]
    refine ⟨Nat.mul_mod_right 32 o, ?_, hin⟩
    change 32 * o < 10240
    omega
  | refused _ _ ih => exact ih
  | free _ _ _ ih =>
    intro b hb
    exact ih b (List.perm_middle.mem_iff.mpr (List.mem_cons_of_mem _ hb))

theorem byte_block {a : Alloc} (h : a.offset.toNat % 32 = 0) (x : ℕ) :
    x / 32 ∈ a.owned.blocks ↔
      a.offset.toNat ≤ x ∧ x < a.offset.toNat + 32 * a.owned.len := by
  rw [Span.mem_blocks]
  change a.offset.toNat / 32 ≤ x / 32 ∧ x / 32 < a.offset.toNat / 32 + a.owned.len ↔ _
  omega

theorem span_at {off : Word} {o : ℕ} (ho : off.toNat = 32 * o) (size : Word) : Alloc.span ⟨off, size⟩ = ⟨o, blocksFor size⟩ := by
  unfold Alloc.span
  rw [ho, Nat.mul_div_cancel_left _ (by decide)]

/- A copy of `size` bytes to block `o` stays clear of a run that has none of these blocks. -/
theorem copy_apart {a : Alloc} {size : Word} {o i : ℕ} (halign : a.offset.toNat % 32 = 0)
    (hapart : Disjoint (Span.mk o (blocksFor size)).blocks a.owned.blocks) (hi : i < 32 * a.owned.len) :
    a.offset.toNat + i < 32 * o ∨ 32 * o + size.toNat ≤ a.offset.toNat + i := by
  by_contra hover
  have hb := (byte_block halign (a.offset.toNat + i)).mpr ⟨by omega, by omega⟩
  refine Finset.disjoint_left.mp hapart (Span.mem_blocks.mpr ?_) hb
  change o ≤ (a.offset.toNat + i) / 32 ∧ (a.offset.toNat + i) / 32 < o + (size.toNat + 31) / 32
  omega

/- The heap between the copy and the release of `p`, the new run being at block `o`. -/
def copiedTo (d : MallcoDev) (p : Alloc) (size : Word) (nmemb : Half) (o : ℕ) : MallcoDev :=
  { d with
    membase := (mymemcpy d.membase (32 * o) p.offset.toNat size.toNat).1
    memmap := marked d.memmap o nmemb }

/- The three steps of a call that is served. -/
theorem myrealloc_served {d : MallcoDev} {p : Alloc} {size : Word} {nmemb : Half} {o : ℕ}
    (hle : o ≤ MEM_ALLOC_TABLE_SIZE)
    (hcall : memMalloc size d = some (BitVec.ofNat 32 (o * MEM_BLOCK_SIZE),
      { d with memmap := marked d.memmap o nmemb })) :
    myrealloc (some p.offset) size d = (memFree p.offset (copiedTo d p size nmemb o)).map fun x =>
      (some (BitVec.ofNat 32 (o * MEM_BLOCK_SIZE)), List.range' p.offset.toNat size.toNat, x.2) := by
  have hne := offset_ne hle
  have ho := offset_toNat hle
  unfold myrealloc myfree
  rw [hcall]
  simp only [Option.bind_eq_bind, Option.bind_some, hne, if_false, ho, mymemcpy_reads]
  change ((memFree p.offset (copiedTo d p size nmemb o)).map Prod.snd).bind _ = _
  cases memFree p.offset (copiedTo d p size nmemb o) with
  | none => rfl
  | some x => rfl

theorem marked_outside {m : ℕ → Half} {nmemb : Half} {o n b : ℕ} (hn : nmemb.toNat = n)
    (hb : b ∉ (Span.mk o n).blocks) : marked m o nmemb b = m b := by
  refine if_neg fun hc => hb (Span.mem_blocks.mpr ?_)
  rw [hn] at hc
  exact hc

/- The entry of `p` decides what is cleared, before and after the new run is marked. -/
theorem copiedTo_cleared {d : MallcoDev} (p : Alloc) (size : Word) {nmemb : Half} {o k : ℕ}
    (hentry : marked d.memmap o nmemb k = d.memmap k) (b : ℕ) :
    Cleared (copiedTo d p size nmemb o) k b ↔ Cleared d k b := by
  have hmap : (copiedTo d p size nmemb o).memmap k = d.memmap k := hentry
  unfold Cleared
  rw [hmap]

theorem myrealloc_refused {d : MallcoDev} {p : Alloc} {size : Word}
    (hcall : memMalloc size d = some (0xffffffff, d)) :
    myrealloc (some p.offset) size d = some (none, [], d) := by
  unfold myrealloc
  rw [hcall]
  rfl

theorem Undamaged.inside {d : MallcoDev} {others : List Alloc} {p : Alloc} {size : Word} {o : ℕ}
    (h : Undamaged d others p size o) (hp : p.offset.toNat / 32 ≤ MEM_ALLOC_TABLE_SIZE) :
    p.offset.toNat / 32 + (d.memmap (p.offset.toNat / 32)).toNat ≤ MEM_ALLOC_TABLE_SIZE := by
  by_contra hover
  have hlast := (h.cleared (p.offset.toNat / 32 + (d.memmap (p.offset.toNat / 32)).toNat - 1) ⟨by omega, by omega⟩).1
  omega

/- A served call, from the run found in the table, when the copy stays inside `p`. -/
theorem realloc_run {d : MallcoDev} {others : List Alloc} {p : Alloc} {size : Word} {nmemb : Half} {o : ℕ}
    (hr : d.memrdy ≠ 0) (halign : ∀ a ∈ p :: others, a.offset.toNat % 32 = 0)
    (hp : p.offset.toNat < MEM_MAX_SIZE) (hn : nmemb.toNat = blocksFor size)
    (hrun : FreeRun d.memmap nmemb.toNat o)
    (hcall : memMalloc size d = some (BitVec.ofNat 32 (o * MEM_BLOCK_SIZE),
      { d with memmap := marked d.memmap o nmemb }))
    (hpos : 1 ≤ size.toNat) (hfit : size.toNat ≤ 32 * p.owned.len) (hund : Undamaged d others p size o) :
    ReallocContract d others p size := by
  have hin := hrun.1
  have hsize : MEM_ALLOC_TABLE_SIZE = 320 := rfl
  have hmax : MEM_MAX_SIZE = 10240 := rfl
  have hle : o ≤ MEM_ALLOC_TABLE_SIZE := by omega
  have ho := offset_toNat hle
  have hserved := myrealloc_served (p := p) hle hcall
  generalize BitVec.ofNat 32 (o * MEM_BLOCK_SIZE) = off at *
  rw [hn] at hin
  have hspan := span_at ho size
  have hpmem : p ∈ p :: others := List.mem_cons_self ..
  have hpk : p.offset.toNat / 32 ∈ p.owned.blocks :=
    (byte_block (halign p hpmem) _).mpr ⟨Nat.le_refl _, by omega⟩
  have hold : ∀ a ∈ p :: others, ∀ b ∈ a.owned.blocks, b ∉ (Span.mk o (blocksFor size)).blocks :=
    fun a ha b hb hb' => Finset.disjoint_left.mp (hund.fresh a ha) hb' hb
  have hentry := marked_outside (m := d.memmap) hn (hold p hpmem _ hpk)
  have hfits : p.offset.toNat / 32 + (marked d.memmap o nmemb (p.offset.toNat / 32)).toNat ≤
      MEM_ALLOC_TABLE_SIZE := by
    rw [hentry]
    exact hund.inside (by omega)
  obtain ⟨d', hfree, hzero, hsame⟩ := memFree_cleared (d := copiedTo d p size nmemb o) hr hp hfits
  have hcleared := copiedTo_cleared p size hentry
  have hmem : d'.membase = (mymemcpy d.membase (32 * o) p.offset.toNat size.toNat).1 :=
    (memFree_frame (d := copiedTo d p size nmemb o) hr hfree).2
  rw [hfree] at hserved
  -- a byte of a run that was live before the call is not overwritten by the copy
  have hkeep : ∀ a ∈ p :: others, ∀ i < 32 * a.owned.len, a.offset.toNat + i < 32 * o ∨
      32 * o + size.toNat ≤ a.offset.toNat + i := fun a ha i hi => copy_apart (halign a ha) (hund.fresh a ha) hi
  refine ⟨some off, _, d', hserved, ⟨?_, fun b hb => ?_⟩, fun b hb => ?_, fun a ha => ?_, fun i hi => ?_,
    fun b hb => ?_, fun a ha => ⟨fun b hb => ?_, fun i hi => ?_⟩, fun x hx => ?_⟩
  · rw [ho]
    exact Nat.mul_mod_right 32 o
  · rw [hspan] at hb
    have hlt := (Span.mem_blocks.mp hb).2
    exact Finset.mem_range.mpr (by change b < o + blocksFor size at hlt; omega)
  · rw [hspan] at hb
    have hno : ¬ Cleared d (p.offset.toNat / 32) b := fun hc => (hund.cleared b hc).2.1 hb
    rw [hsame b fun hc => hno ((hcleared b).mp hc), ← hn]
    have hlt := Span.mem_blocks.mp hb
    rw [← hn] at hlt
    exact congrArg BitVec.toNat (if_pos hlt)
  · rw [hspan]
    exact hund.fresh a (List.mem_cons_of_mem p ha)
  · rw [hmem, ho]
    exact mymemcpy_copied _ _ _ _ (by omega) (hkeep p hpmem i (by omega))
  · by_cases hc : Cleared d (p.offset.toNat / 32) b
    · exact hzero b ((hcleared b).mpr hc)
    · rw [hsame b fun hc' => hc ((hcleared b).mp hc')]
      exact (marked_outside hn (hold p hpmem b hb)).trans (hund.rest b hb hc)
  · by_cases hc : Cleared d (p.offset.toNat / 32) b
    · rw [hzero b ((hcleared b).mpr hc)]
      by_contra hne'
      exact (hund.cleared b hc).2.2 (Ne.symm hne') a ha hb
    · rw [hsame b fun hc' => hc ((hcleared b).mp hc')]
      exact marked_outside hn (hold a (List.mem_cons_of_mem p ha) b hb)
  · rw [hmem]
    exact mymemcpy_outside _ _ _ _ (hkeep a (List.mem_cons_of_mem p ha) i hi)
  · obtain ⟨hx1, hx2⟩ := List.mem_range'_1.mp hx
    omega

/- The other way round: what a served call that keeps the contract says about the table. -/
theorem undamaged_of {d : MallcoDev} {others : List Alloc} {p : Alloc} {size : Word} {nmemb : Half} {o : ℕ}
    (hr : d.memrdy ≠ 0) (hpalign : p.offset.toNat % 32 = 0) (hp : p.offset.toNat < MEM_MAX_SIZE)
    (hn : nmemb.toNat = blocksFor size) (hpos : 1 ≤ size.toNat) (hrun : FreeRun d.memmap nmemb.toNat o)
    (hcall : memMalloc size d = some (BitVec.ofNat 32 (o * MEM_BLOCK_SIZE),
      { d with memmap := marked d.memmap o nmemb }))
    (h : ReallocContract d others p size) :
    size.toNat ≤ 32 * p.owned.len ∧ Undamaged d others p size o := by
  have hin := hrun.1
  have hsize : MEM_ALLOC_TABLE_SIZE = 320 := rfl
  have hmax : MEM_MAX_SIZE = 10240 := rfl
  have hle : o ≤ MEM_ALLOC_TABLE_SIZE := by omega
  have ho := offset_toNat hle
  obtain ⟨q, reads, d', hreal, hc⟩ := h
  rw [myrealloc_served hle hcall] at hreal
  generalize BitVec.ofNat 32 (o * MEM_BLOCK_SIZE) = off at *
  obtain ⟨⟨r, d''⟩, hfree, heq⟩ := Option.map_eq_some_iff.mp hreal
  cases heq
  have hspan := span_at ho size
  have hreads := hc.reads (p.offset.toNat + (size.toNat - 1)) (List.mem_range'_1.mpr ⟨by omega, by omega⟩)
  have hfit : size.toNat ≤ 32 * p.owned.len := by omega
  have hpk : p.offset.toNat / 32 ∈ p.owned.blocks := (byte_block hpalign _).mpr ⟨Nat.le_refl _, by omega⟩
  have htaken := hc.taken
  have hdisjoint := hc.disjoint
  rw [hspan] at htaken hdisjoint
  have hcount : 0 < blocksFor size := by
    unfold blocksFor
    omega
  -- the new run is taken behind the call, and `p` is free
  have hpnew : ∀ b ∈ p.owned.blocks, b ∉ (Span.mk o (blocksFor size)).blocks := by
    intro b hb hb'
    have hb0 := htaken b hb'
    rw [hc.freed b hb] at hb0
    exact absurd hb0.symm (Nat.ne_of_gt hcount)
  have hentry := marked_outside (m := d.memmap) hn (hpnew _ hpk)
  have hcleared := copiedTo_cleared p size hentry
  have hfits : p.offset.toNat / 32 + (marked d.memmap o nmemb (p.offset.toNat / 32)).toNat ≤
      MEM_ALLOC_TABLE_SIZE := by
    rcases Nat.eq_zero_or_pos (marked d.memmap o nmemb (p.offset.toNat / 32)).toNat with hz | hz
    · omega
    · exact memFree_isSome (d := copiedTo d p size nmemb o) hr hp hz (by rw [hfree]; rfl)
  obtain ⟨d₂, hfree', hzero, hsame⟩ := memFree_cleared (d := copiedTo d p size nmemb o) hr hp hfits
  rw [hfree] at hfree'
  cases hfree'
  refine ⟨hfit, List.forall_mem_cons.mpr ⟨?_, hdisjoint⟩,
    fun b hb => ⟨?_, fun hb' => ?_, fun hne a ha hb' => ?_⟩, fun b hb hno => ?_⟩
  · exact Finset.disjoint_left.mpr fun b hb hb' => hpnew b hb' hb
  · rw [hentry] at hfits
    exact Nat.lt_of_lt_of_le hb.2 hfits
  · have hb0 := htaken b hb'
    rw [hzero b ((hcleared b).mpr hb)] at hb0
    exact absurd hb0.symm (Nat.ne_of_gt hcount)
  · have hb0 := (hc.kept a ha).1 b hb'
    rw [hzero b ((hcleared b).mpr hb)] at hb0
    exact hne hb0.symm
  · have hstays := hsame b fun hb' => hno ((hcleared b).mp hb')
    rw [hc.freed b hb] at hstays
    exact (marked_outside (m := d.memmap) hn (hpnew b hb)).symm.trans hstays.symm

/- Where the table is the one of the live allocations, every free run will do. -/
theorem Holds.undamaged {d : MallcoDev} {l₁ l₂ : List Alloc} {p : Alloc} {size : Word} {o : ℕ}
    {lay : Layout MEM_ALLOC_TABLE_SIZE} (h : Holds d (l₁ ++ p :: l₂) lay) (howns : p.Owns)
    (hrun : FreeRun d.memmap (blocksFor size) o) : Undamaged d (l₁ ++ l₂) p size o := by
  have hmemp : p ∈ l₁ ++ p :: l₂ := List.mem_append_right l₁ (List.mem_cons_self ..)
  have hmem : ∀ a ∈ p :: (l₁ ++ l₂), a ∈ l₁ ++ p :: l₂ := fun a ha => List.perm_middle.mem_iff.mpr ha
  obtain ⟨hin, hlen, -⟩ := h.first hmemp howns
  have hfree : ∀ a ∈ l₁ ++ p :: l₂, ∀ b ∈ a.owned.blocks, b ∉ (Span.mk o (blocksFor size)).blocks := by
    intro a ha b hb hb'
    have htaken := (h.taken ha hb).2
    obtain ⟨h1, h2⟩ := Span.mem_blocks.mp hb'
    rw [hrun.2 b h1 h2] at htaken
    have hb := Span.mem_blocks.mp hb
    change 0 = _ at htaken
    omega
  have hown : ∀ b, Cleared d (p.offset.toNat / 32) b ↔ b ∈ p.owned.blocks := by
    intro b
    rw [Span.mem_blocks]
    unfold Cleared
    change _ ∧ b < p.owned.start + (d.memmap p.owned.start).toNat ↔ _
    rw [hlen]
    rfl
  refine ⟨fun a ha => Finset.disjoint_left.mpr fun b hb hb' => hfree a (hmem a ha) b hb' hb,
    fun b hb => ?_, fun b hb hno => absurd ((hown b).mpr hb) hno⟩
  have hb' := (hown b).mp hb
  exact ⟨(h.taken hmemp hb').1, hfree p hmemp b hb', fun _ a ha => h.apart hb' a ha⟩

/-- With any contents of the pool, `p` being any live allocation. As long as no allocation was
freed that had been given no block, nothing but the length of the copy can go wrong. -/
theorem myrealloc_contract_iff {d : MallcoDev} {l₁ l₂ : List Alloc} {p : Alloc}
    (h : History (fun _ => True) d (l₁ ++ p :: l₂)) (mem : ℕ → Byte) (size : Word)
    (hsize : 1 ≤ size.toNat ∧ size.toNat ≤ MEM_MAX_SIZE) :
    (ReallocContract { d with membase := mem } (l₁ ++ l₂) p size ↔
      (∀ o, ¬ FreeRun d.memmap (blocksFor size) o) ∨ size.toNat ≤ 32 * p.owned.len ∧
        ∀ o, HighestRun d.memmap (blocksFor size) o → Undamaged d (l₁ ++ l₂) p size o) ∧
    (History Alloc.Owns d (l₁ ++ p :: l₂) →
      (ReallocContract { d with membase := mem } (l₁ ++ l₂) p size ↔
        (∀ o, ¬ FreeRun d.memmap (blocksFor size) o) ∨ size.toNat ≤ 32 * p.owned.len)) := by
  have hmemp : p ∈ l₁ ++ p :: l₂ := List.mem_append_right l₁ (List.mem_cons_self ..)
  have hmem : ∀ a ∈ p :: (l₁ ++ l₂), a ∈ l₁ ++ p :: l₂ := fun a ha => List.perm_middle.mem_iff.mpr ha
  have hr : d.memrdy ≠ 0 := h.memrdy (List.ne_nil_of_mem hmemp)
  have halign : ∀ a ∈ p :: (l₁ ++ l₂), a.offset.toNat % 32 = 0 := fun a ha => (h.offsets a (hmem a ha)).1
  have hp := (h.offsets p hmemp).2.1
  have h0 : size ≠ 0 := by
    rintro rfl
    exact absurd hsize.1 (by decide)
  have hcount : blocksFor size < 65536 := by
    refine blocksFor_lt ?_
    have hmax : MEM_MAX_SIZE = 10240 := rfl
    omega
  have hpos := blocksFor_pos h0
  rw [← Nat.mod_eq_of_lt hcount] at hpos
  obtain ⟨nmemb, hn, hfound⟩ := memMalloc_found h0 hpos { d with membase := mem }
  rw [Nat.mod_eq_of_lt hcount] at hn
  have hready : ready { d with membase := mem } = { d with membase := mem } := if_neg hr
  rw [hready] at hfound
  generalize hout : memMalloc size { d with membase := mem } = out at hfound
  cases hfound with
  | fail hnone =>
    have hfail : ∀ o, ¬ FreeRun d.memmap (blocksFor size) o := by
      intro o
      rw [← hn]
      exact hnone o
    have hdone : ReallocContract { d with membase := mem } (l₁ ++ l₂) p size :=
      ⟨none, [], _, myrealloc_refused hout, rfl, rfl⟩
    exact ⟨iff_of_true hdone (Or.inl hfail), fun _ => iff_of_true hdone (Or.inl hfail)⟩
  | run o hrun hhigh =>
    have hhighest : HighestRun d.memmap (blocksFor size) o := by
      rw [← hn]
      exact ⟨hrun, hhigh⟩
    have hsome : ¬ ∀ o, ¬ FreeRun d.memmap (blocksFor size) o := fun hnone => hnone o hhighest.1
    have hiff : ReallocContract { d with membase := mem } (l₁ ++ l₂) p size ↔
        size.toNat ≤ 32 * p.owned.len ∧ Undamaged d (l₁ ++ l₂) p size o := by
      constructor
      · intro hc
        obtain ⟨hfit, hund⟩ := undamaged_of (d := { d with membase := mem }) hr
          (halign p (List.mem_cons_self ..)) hp hn hsize.1 hrun hout hc
        exact ⟨hfit, hund.fresh, hund.cleared, hund.rest⟩
      · rintro ⟨hfit, hund⟩
        exact realloc_run (d := { d with membase := mem }) hr halign hp hn hrun hout hsize.1 hfit
          ⟨hund.fresh, hund.cleared, hund.rest⟩
    rw [hiff, or_iff_right hsome, or_iff_right hsome]
    refine ⟨and_congr_right fun _ => ⟨fun hund o' ho' => ?_, fun hall => hall o hhighest⟩,
      fun hhist => and_iff_left_of_imp fun hfit => ?_⟩
    · rw [hhighest.unique ho']
      exact hund
    · obtain ⟨lay, hlay⟩ := hhist.holds
      have howns : p.Owns := by
        unfold Alloc.Owns
        omega
      exact hlay.undamaged howns hhighest.1

theorem myrealloc_contract_iff_shortened : History Alloc.Owns shortened shortenedLive ∧
    (ReallocContract { shortened with membase := fun _ => 0 } [⟨315 * 32, 0x200020⟩, ⟨307 * 32, 64⟩]
      ⟨316 * 32, 100⟩ 120 ↔ (∀ o, ¬ FreeRun shortened.memmap (blocksFor 120) o) ∨
        (120 : Word).toNat ≤ 32 * (Alloc.owned ⟨316 * 32, 100⟩).len) := by
  have hlive : shortenedLive = [⟨315 * 32, 0x200020⟩, ⟨307 * 32, 64⟩] ++ ⟨316 * 32, 100⟩ :: [] := rfl
  have howns := shortened_history
  have hany : History (fun _ => True) shortened shortenedLive := howns.weaken fun _ _ => trivial
  rw [hlive] at howns hany ⊢
  exact ⟨howns, (myrealloc_contract_iff hany (fun _ => 0) 120 (by decide)).2 howns⟩

/- The four topmost blocks grow to 200 bytes: the copy reads behind the end of the pool. -/
theorem myrealloc_reads_on : ∃ d, History (fun _ => True) d [⟨316 * 32, 100⟩] ∧
    ¬ ReallocContract { d with membase := fun _ => 0 } [] ⟨316 * 32, 100⟩ 200 := by
  obtain ⟨d, hcall, hreach⟩ := first_call
  refine ⟨d, hreach.any, ?_⟩
  rintro ⟨q, reads, d', hrun, hc⟩
  have hbad : ((memMalloc 100 uninitialised).bind fun x => myrealloc (some (316 * 32)) 200
      { x.2 with membase := fun _ => 0 }).map (fun y => (y.1.isSome, y.2.1.contains MEM_MAX_SIZE)) =
        some (true, true) := by
    decide +kernel
  rw [hcall, Option.bind_some, hrun, Option.map_some] at hbad
  obtain ⟨hq, hread⟩ := Prod.mk.inj (Option.some.inj hbad)
  cases q with
  | none => cases hq
  | some o =>
    have hlast := hc.reads MEM_MAX_SIZE (List.contains_iff_mem.mp hread)
    exact absurd hlast.2 (by decide)

end MultiEmbedded.Heap
