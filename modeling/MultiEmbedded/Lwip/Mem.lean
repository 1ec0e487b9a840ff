import MultiEmbedded.Lib.Tiling
import Mathlib.Logic.Function.Basic

/-!
# The heap of the stack (core/mem.c)

Every block starts with a `struct mem` that leads to the next and the previous one; it
lies in the same memory as the data. Addresses count from `ram`.
-/

namespace MultiEmbedded.Ram
open Tiling

abbrev MemSize := BitVec 16

def MEM_ALIGNMENT : ℕ := 4

def LWIP_MEM_ALIGN_SIZE (size : BitVec 32) : BitVec 32 := (size + 4 - 1) &&& ~~~(4 - 1)

def MIN_SIZE_ALIGNED : ℕ := 12
def SIZEOF_STRUCT_MEM : ℕ := 8
def MEM_SIZE_ALIGNED : ℕ := 1024 * 40

/- `ram_end` -/
def ramEnd : ℕ := MEM_SIZE_ALIGNED

abbrev Memory := ℕ → BitVec 8

/-! ### `struct mem` -/

structure Header where
  next : ℕ
  prev : ℕ
  used : BitVec 8
  deriving DecidableEq

def half (ram : Memory) (k : ℕ) : ℕ := (ram k).toNat + 256 * (ram (k + 1)).toNat

def setHalf (ram : Memory) (k v : ℕ) : Memory :=
  Function.update (Function.update ram k (BitVec.ofNat 8 v)) (k + 1) (BitVec.ofNat 8 (v / 256))

def readMem (ram : Memory) (k : ℕ) : Header := ⟨half ram k, half ram (k + 2), ram (k + 4)⟩

def setNext (ram : Memory) (k v : ℕ) : Memory := setHalf ram k v

def setPrev (ram : Memory) (k v : ℕ) : Memory := setHalf ram (k + 2) v

def setUsed (ram : Memory) (k : ℕ) (b : BitVec 8) : Memory := Function.update ram (k + 4) b

/-! ### The functions -/

structure Heap where
  ram : Memory
  lfree : ℕ

/- A size as the allocator counts: aligned and truncated to mem_size_t, not below MIN_SIZE. -/
def blockSize (size : MemSize) : ℕ :=
  let size := ((LWIP_MEM_ALIGN_SIZE (size.setWidth 32)).setWidth 16 : MemSize).toNat
  if size < MIN_SIZE_ALIGNED then MIN_SIZE_ALIGNED else size

def memInit (ram : Memory) : Heap where
  ram :=
    let ram := setNext ram 0 MEM_SIZE_ALIGNED
    let ram := setPrev ram 0 0
    let ram := setUsed ram 0 0
    let ram := setUsed ram ramEnd 1
    let ram := setNext ram ramEnd MEM_SIZE_ALIGNED
    setPrev ram ramEnd MEM_SIZE_ALIGNED
  lfree := 0

/- `none` of all functions: an assertion fails, or a loop does not end. -/
def plugForward (h : Heap) (mem : ℕ) : Heap :=
  let nmem := (readMem h.ram mem).next
  if mem ≠ nmem ∧ (readMem h.ram nmem).used = 0 ∧ nmem ≠ ramEnd then
    let ram := setNext h.ram mem (readMem h.ram nmem).next
    { ram := setPrev ram (readMem ram nmem).next mem
      lfree := if h.lfree = nmem then mem else h.lfree }
  else h

def plugBackward (h : Heap) (mem : ℕ) : Heap :=
  let pmem := (readMem h.ram mem).prev
  if pmem ≠ mem ∧ (readMem h.ram pmem).used = 0 then
    let ram := setNext h.ram pmem (readMem h.ram mem).next
    { ram := setPrev ram (readMem ram mem).next pmem
      lfree := if h.lfree = mem then pmem else h.lfree }
  else h

def plugHoles (h : Heap) (mem : ℕ) : Option Heap :=
  if mem < ramEnd ∧ (readMem h.ram mem).used = 0 ∧ (readMem h.ram mem).next ≤ MEM_SIZE_ALIGNED then
    some (plugBackward (plugForward h mem) mem)
  else none

def memFree (h : Heap) : Option ℕ → Option Heap
  | none => some h
  | some rmem =>
    if rmem % MEM_ALIGNMENT = 0 ∧ rmem < ramEnd then
      let mem := rmem - SIZEOF_STRUCT_MEM
      if (readMem h.ram mem).used ≠ 0 then
        plugHoles ⟨setUsed h.ram mem 0, if mem < h.lfree then mem else h.lfree⟩ mem
      else none
    else none

/- `mem_size_t size = mem->next - ptr - SIZEOF_STRUCT_MEM` -/
def trimSize (ram : Memory) (ptr : ℕ) : ℕ := ((readMem ram ptr).next + 65536 - (ptr + SIZEOF_STRUCT_MEM)) % 65536

/- mem2 is written at `ptr2` and linked between mem and `next`. -/
def insertMem (ram : Memory) (ptr ptr2 next : ℕ) : Memory :=
  let ram := setUsed ram ptr2 0
  let ram := setNext ram ptr2 next
  let ram := setPrev ram ptr2 ptr
  setNext ram ptr ptr2

/- `mem2->next->prev` points to mem2, unless that is the end of the heap. -/
def linkBack (ram : Memory) (ptr2 : ℕ) : Memory :=
  if (readMem ram ptr2).next ≠ MEM_SIZE_ALIGNED then setPrev ram (readMem ram ptr2).next ptr2 else ram

def trimTo (h : Heap) (ptr ptr2 next lfree : ℕ) : Heap where
  ram := linkBack (insertMem h.ram ptr ptr2 next) ptr2
  lfree := lfree

def memTrim (h : Heap) (rmem : ℕ) (newsize : MemSize) : Option (Option ℕ × Heap) :=
  let newsize := blockSize newsize
  if newsize > MEM_SIZE_ALIGNED then some (none, h)
  else if rmem < ramEnd then
    let ptr := rmem - SIZEOF_STRUCT_MEM
    let size := trimSize h.ram ptr
    if newsize ≤ size then
      if newsize = size then some (some rmem, h)
      else
        let mem2 := (readMem h.ram ptr).next
        let ptr2 := ptr + SIZEOF_STRUCT_MEM + newsize
        if (readMem h.ram mem2).used = 0 then
          some (some rmem, trimTo h ptr ptr2 (readMem h.ram mem2).next (if h.lfree = mem2 then ptr2 else h.lfree))
        else if newsize + SIZEOF_STRUCT_MEM + MIN_SIZE_ALIGNED ≤ size then
          some (some rmem, trimTo h ptr ptr2 mem2 (if ptr2 < h.lfree then ptr2 else h.lfree))
        else some (some rmem, h)
    else none
  else none

/- `mem->next - (ptr + SIZEOF_STRUCT_MEM)` is unsigned. -/
def userSize (ram : Memory) (ptr : ℕ) : ℕ :=
  ((readMem ram ptr).next + 4294967296 - (ptr + SIZEOF_STRUCT_MEM)) % 4294967296

/- The search for a free block that is big enough; `some none`: there is none. -/
def scan (ram : Memory) (size : ℕ) : ℕ → ℕ → Option (Option ℕ)
  | 0, _ => none
  | fuel + 1, ptr =>
    if ptr < MEM_SIZE_ALIGNED - size then
      if (readMem ram ptr).used = 0 ∧ userSize ram ptr ≥ size then some (some ptr)
      else scan ram size fuel (readMem ram ptr).next
    else some none

def takeBlock (ram : Memory) (mem size : ℕ) : Memory :=
  if userSize ram mem ≥ size + SIZEOF_STRUCT_MEM + MIN_SIZE_ALIGNED then
    let ptr2 := mem + SIZEOF_STRUCT_MEM + size
    let ram := insertMem ram mem ptr2 (readMem ram mem).next
    let ram := setUsed ram mem 1
    linkBack ram ptr2
  else setUsed ram mem 1

/- `while (cur->used && cur != ram_end) cur = &ram[cur->next];` -/
def nextFree (ram : Memory) : ℕ → ℕ → Option ℕ
  | 0, _ => none
  | fuel + 1, cur =>
    if (readMem ram cur).used ≠ 0 ∧ cur ≠ ramEnd then nextFree ram fuel (readMem ram cur).next else some cur

def adjustLfree (ram : Memory) (mem lfree : ℕ) : Option ℕ :=
  if mem = lfree then
    (nextFree ram (MEM_SIZE_ALIGNED + 1) lfree).bind fun cur =>
      if cur = ramEnd ∨ (readMem ram cur).used = 0 then some cur else none
  else some lfree

def memMalloc (h : Heap) (size : MemSize) : Option (Option ℕ × Heap) :=
  if size = 0 then some (none, h)
  else
    let size := blockSize size
    if size > MEM_SIZE_ALIGNED then some (none, h)
    else
      (scan h.ram size (MEM_SIZE_ALIGNED + 1) h.lfree).bind fun found =>
        match found with
        | none => some (none, h)
        | some mem =>
          let ram := takeBlock h.ram mem size
          (adjustLfree ram mem h.lfree).bind fun lfree =>
            if mem + SIZEOF_STRUCT_MEM + size ≤ ramEnd ∧ mem % MEM_ALIGNMENT = 0 then
              some (some (mem + SIZEOF_STRUCT_MEM), ⟨ram, lfree⟩)
            else none

/- The octets cleared are counted without truncation. -/
def memset (ram : Memory) (p n : ℕ) : Memory := fun i => if p ≤ i ∧ i < p + n then 0 else ram i

def memCalloc (h : Heap) (count size : MemSize) : Option (Option ℕ × Heap) :=
  (memMalloc h (count * size)).map fun r =>
    match r with
    | (none, h) => (none, h)
    | (some p, h) => (some p, ⟨memset h.ram p (count.toNat * size.toNat), h.lfree⟩)

/-! ### Memory -/

section Memory
variable {ram ram' : Memory} {j k v : ℕ}

theorem setHalf_ne {i : ℕ} (h : i < k ∨ k + 2 ≤ i) : setHalf ram k v i = ram i := by
  unfold setHalf
  rw [Function.update_of_ne (by omega), Function.update_of_ne (by omega)]

theorem half_setHalf (hv : v < 65536) : half (setHalf ram k v) k = v := by
  unfold half setHalf
  rw [Function.update_self, Function.update_of_ne (by omega), Function.update_self, BitVec.toNat_ofNat, BitVec.toNat_ofNat]
  omega

theorem half_congr (h : ∀ i, k ≤ i → i < k + 2 → ram' i = ram i) : half ram' k = half ram k := by
  unfold half
  rw [h k (by omega) (by omega), h (k + 1) (by omega) (by omega)]

/- A header is what lies in its eight octets. -/
theorem readMem_congr (h : ∀ i, k ≤ i → i < k + 8 → ram' i = ram i) : readMem ram' k = readMem ram k := by
  unfold readMem
  rw [half_congr fun i h₁ h₂ => h i h₁ (by omega), half_congr fun i h₁ h₂ => h i (by omega) (by omega),
    h (k + 4) (by omega) (by omega)]

theorem setNext_ne {i : ℕ} (h : i < k ∨ k + 8 ≤ i) : setNext ram k v i = ram i := setHalf_ne (by omega)

theorem setPrev_ne {i : ℕ} (h : i < k ∨ k + 8 ≤ i) : setPrev ram k v i = ram i := setHalf_ne (by omega)

theorem setUsed_ne {i : ℕ} {b : BitVec 8} (h : i < k ∨ k + 8 ≤ i) : setUsed ram k b i = ram i :=
  Function.update_of_ne (by omega) _ _

theorem readMem_setNext (hv : v < 65536) : readMem (setNext ram k v) k = { readMem ram k with next := v } := by
  have hprev : half (setNext ram k v) (k + 2) = half ram (k + 2) :=
    half_congr fun i h₁ _ => setHalf_ne (by omega)
  have hused : setNext ram k v (k + 4) = ram (k + 4) := setHalf_ne (by omega)
  unfold readMem
  rw [hprev, hused]
  exact congrArg (Header.mk · _ _) (half_setHalf hv)

theorem readMem_setPrev (hv : v < 65536) : readMem (setPrev ram k v) k = { readMem ram k with prev := v } := by
  have hnext : half (setPrev ram k v) k = half ram k := half_congr fun i _ h₂ => setHalf_ne (by omega)
  have hused : setPrev ram k v (k + 4) = ram (k + 4) := setHalf_ne (by omega)
  unfold readMem
  rw [hnext, hused]
  exact congrArg (Header.mk _ · _) (half_setHalf hv)

theorem readMem_setUsed (b : BitVec 8) : readMem (setUsed ram k b) k = { readMem ram k with used := b } := by
  have hnext : half (setUsed ram k b) k = half ram k :=
    half_congr fun i _ h₂ => Function.update_of_ne (by omega) _ _
  have hprev : half (setUsed ram k b) (k + 2) = half ram (k + 2) :=
    half_congr fun i _ h₂ => Function.update_of_ne (by omega) _ _
  unfold readMem
  rw [hnext, hprev]
  exact congrArg (Header.mk _ _ ·) (Function.update_self ..)

/- Headers that do not overlap. -/
def Apart (j k : ℕ) : Prop := j + 8 ≤ k ∨ k + 8 ≤ j

theorem readMem_setNext_ne (h : Apart j k) : readMem (setNext ram k v) j = readMem ram j :=
  readMem_congr fun i _ _ => setNext_ne (by unfold Apart at h; omega)

theorem readMem_setPrev_ne (h : Apart j k) : readMem (setPrev ram k v) j = readMem ram j :=
  readMem_congr fun i _ _ => setPrev_ne (by unfold Apart at h; omega)

theorem readMem_setUsed_ne (h : Apart j k) {b : BitVec 8} : readMem (setUsed ram k b) j = readMem ram j :=
  readMem_congr fun i _ _ => setUsed_ne (by unfold Apart at h; omega)

end Memory

/-! ### The list of blocks -/

def usedOctet (taken : Bool) : BitVec 8 := if taken then 1 else 0

/- The headers of tiles from `start` on; `prev` is the start of the one before. -/
def Linked (ram : Memory) : ℕ → ℕ → List Tile → Prop
  | _, _, [] => True
  | prev, start, t :: tiles =>
    readMem ram start = ⟨start + t.len, prev, usedOctet t.taken⟩ ∧ Linked ram start (start + t.len) tiles

/- A block has room for its header and MIN_SIZE octets, and ends aligned. -/
def BlockLen (n : ℕ) : Prop := SIZEOF_STRUCT_MEM + MIN_SIZE_ALIGNED ≤ n ∧ n % MEM_ALIGNMENT = 0

theorem BlockLen.add (m n : ℕ) (hm : BlockLen m) (hn : BlockLen n) : BlockLen (m + n) := by
  unfold BlockLen SIZEOF_STRUCT_MEM MIN_SIZE_ALIGNED MEM_ALIGNMENT at *
  omega

section Linked
variable {ram ram' : Memory} {prev start : ℕ} {tiles : List Tile}

theorem linked_append {xs ys : List Tile} : Linked ram prev start (xs ++ ys) ↔
    Linked ram prev start xs ∧ Linked ram (lastAt prev start xs) (start + total xs) ys := by
  induction xs generalizing prev start with
  | nil => exact ⟨fun h => ⟨trivial, h⟩, And.right⟩
  | cons t xs ih =>
    show _ ∧ Linked ram start (start + t.len) (xs ++ ys) ↔
      (_ ∧ Linked ram start (start + t.len) xs) ∧
        Linked ram (lastAt start (start + t.len) xs) (start + (t.len + total xs)) ys
    rw [ih, and_assoc, ← Nat.add_assoc]

/- The headers lie in the tiles. -/
theorem Linked.congr (h : Linked ram prev start tiles) (hlens : ∀ t ∈ tiles, BlockLen t.len)
    (hsame : ∀ i, start ≤ i → i < start + total tiles → ram' i = ram i) : Linked ram' prev start tiles := by
  induction tiles generalizing prev start with
  | nil => trivial
  | cons t tiles ih =>
    rw [List.forall_mem_cons] at hlens
    have hlen := hlens.1.1
    unfold SIZEOF_STRUCT_MEM MIN_SIZE_ALIGNED at hlen
    unfold total at hsame
    refine ⟨?_, ih h.2 hlens.2 fun i h₁ h₂ => hsame i (by omega) (by omega)⟩
    rw [← h.1]
    exact readMem_congr fun i h₁ h₂ => hsame i h₁ (by omega)

/- The first header gets another one before it. -/
theorem Linked.relink (h : Linked ram prev start tiles) (hlens : ∀ t ∈ tiles, BlockLen t.len) {v : ℕ}
    (hv : v < 65536) : Linked (setPrev ram start v) v start tiles := by
  cases tiles with
  | nil => trivial
  | cons t tiles =>
    rw [List.forall_mem_cons] at hlens
    have hlen := hlens.1.1
    unfold SIZEOF_STRUCT_MEM MIN_SIZE_ALIGNED at hlen
    refine ⟨?_, h.2.congr hlens.2 fun i h₁ _ => setPrev_ne (by omega)⟩
    rw [readMem_setPrev hv, h.1]

end Linked

/-- The heap holds these blocks, `lfree` is the lowest free one. -/
structure Holds (h : Heap) (tiles : List Tile) : Prop where
  laid : Laid BlockLen MEM_SIZE_ALIGNED tiles
  linked : Linked h.ram 0 0 tiles
  lowest : h.lfree = firstFree 0 tiles
  last : (readMem h.ram ramEnd).used = 1

theorem memInit_holds (ram : Memory) : Holds (memInit ram) [⟨false, MEM_SIZE_ALIGNED⟩] := by
  have hend : Apart 0 ramEnd := .inl (by decide)
  have hsize : MEM_SIZE_ALIGNED < 65536 := by decide
  refine ⟨⟨rfl, .singleton _, ?_⟩, ⟨?_, trivial⟩, rfl, ?_⟩
  · intro t ht
    rw [List.mem_singleton] at ht
    rw [ht]
    exact ⟨by decide, by decide⟩
  · show readMem (setPrev (setNext (setUsed (setUsed (setPrev (setNext ram 0 _) 0 _) 0 _) ramEnd _) ramEnd _) ramEnd _) 0 = _
    rw [readMem_setPrev_ne hend, readMem_setNext_ne hend, readMem_setUsed_ne hend, readMem_setUsed,
      readMem_setPrev (by decide), readMem_setNext hsize]
    rfl
  · show (readMem (setPrev (setNext (setUsed (setUsed (setPrev (setNext ram 0 _) 0 _) 0 _) ramEnd _) ramEnd _) ramEnd _)
      ramEnd).used = 1
    rw [readMem_setPrev hsize, readMem_setNext hsize, readMem_setUsed]

section Blocks
variable {h : Heap} {xs ys tiles : List Tile} {t : Tile} {n size : ℕ}

/- A block among others. -/
structure At (h : Heap) (xs : List Tile) (t : Tile) (ys : List Tile) : Prop where
  header : readMem h.ram (total xs) = ⟨total xs + t.len, lastAt 0 0 xs, usedOctet t.taken⟩
  sum : total xs + t.len + total ys = MEM_SIZE_ALIGNED
  len : 20 ≤ t.len
  aligned : t.len % 4 = 0
  front : Linked h.ram 0 0 xs
  back : Linked h.ram (total xs) (total xs + t.len) ys
  frontLens : ∀ s ∈ xs, BlockLen s.len
  backLens : ∀ s ∈ ys, BlockLen s.len

theorem Holds.at (hh : Holds h (xs ++ t :: ys)) : At h xs t ys := by
  have hlinked := linked_append.mp hh.linked
  have hsum := hh.laid.total_eq
  have hlens := lens_around.mp hh.laid.lens
  rw [Nat.zero_add] at hlinked
  rw [total_append] at hsum
  exact ⟨hlinked.2.1, by rw [← hsum, Nat.add_assoc]; rfl, hlens.2.1.1, hlens.2.1.2, hlinked.1, hlinked.2.2,
    hlens.1, hlens.2.2⟩

/- Starts of blocks are aligned. -/
theorem total_aligned (hlens : ∀ s ∈ xs, BlockLen s.len) : total xs % 4 = 0 := by
  induction xs with
  | nil => rfl
  | cons s xs ih =>
    rw [List.forall_mem_cons] at hlens
    have hs := hlens.1.2
    have hxs := ih hlens.2
    unfold total
    unfold MEM_ALIGNMENT at hs
    omega

/-! ### The search -/

/- Blocks that are taken or too small. -/
def Unfit (size : ℕ) (t : Tile) : Prop := t.taken = true ∨ t.len < size + SIZEOF_STRUCT_MEM

theorem userSize_eq {ram : Memory} {k next prev : ℕ} {b : BitVec 8} (hread : readMem ram k = ⟨next, prev, b⟩)
    (hle : k + 8 ≤ next) (hlt : next < 65536) : userSize ram k = next - (k + 8) := by
  unfold userSize SIZEOF_STRUCT_MEM
  rw [hread]
  show (next + 4294967296 - (k + 8)) % 4294967296 = _
  omega

theorem scan_eq {ram : Memory} {prev start fuel : ℕ} (hlinked : Linked ram prev start tiles)
    (hsum : start + total tiles = MEM_SIZE_ALIGNED) (hlens : ∀ s ∈ tiles, BlockLen s.len)
    (hsize : size ≤ MEM_SIZE_ALIGNED) (hfuel : total tiles < fuel) :
    (∃ us n vs, tiles = us ++ ⟨false, n⟩ :: vs ∧ size + SIZEOF_STRUCT_MEM ≤ n ∧ (∀ s ∈ us, Unfit size s) ∧
      scan ram size fuel start = some (some (start + total us))) ∨
    ((∀ s ∈ tiles, Unfit size s) ∧ scan ram size fuel start = some none) := by
  obtain ⟨fuel, rfl⟩ : ∃ f, fuel = f + 1 := ⟨fuel - 1, by omega⟩
  induction tiles generalizing prev start fuel with
  | nil =>
    have hend : ¬ start < MEM_SIZE_ALIGNED - size := by
      unfold total at hsum
      omega
    exact .inr ⟨fun s hs => (by cases hs), if_neg hend⟩
  | cons t tiles ih =>
    by_cases hroom : start < MEM_SIZE_ALIGNED - size
    · rw [List.forall_mem_cons] at hlens
      have hlen := hlens.1.1
      unfold SIZEOF_STRUCT_MEM MIN_SIZE_ALIGNED at hlen
      have hnext : start + t.len + total tiles = MEM_SIZE_ALIGNED := by rw [← hsum, Nat.add_assoc]; rfl
      have hsmall : MEM_SIZE_ALIGNED < 65536 := by decide
      have huser := userSize_eq hlinked.1 (by omega) (by omega)
      have hhead : scan ram size (fuel + 1) start =
          if (readMem ram start).used = 0 ∧ userSize ram start ≥ size then some (some start)
          else scan ram size fuel (readMem ram start).next := if_pos hroom
      rw [hlinked.1, huser] at hhead
      -- what is behind a block that does not do
      have hbehind (hunfit : Unfit size t) (hskip : scan ram size (fuel + 1) start = scan ram size fuel (start + t.len)) :
          (∃ us n vs, t :: tiles = us ++ ⟨false, n⟩ :: vs ∧ size + SIZEOF_STRUCT_MEM ≤ n ∧ (∀ s ∈ us, Unfit size s) ∧
            scan ram size (fuel + 1) start = some (some (start + total us))) ∨
          ((∀ s ∈ t :: tiles, Unfit size s) ∧ scan ram size (fuel + 1) start = some none) := by
        obtain ⟨fuel, rfl⟩ : ∃ f, fuel = f + 1 := ⟨fuel - 1, by unfold total at hfuel; omega⟩
        rcases ih hlinked.2 hnext hlens.2 fuel (by unfold total at hfuel; omega) with
          ⟨us, n, vs, rfl, hn, hus, hscan⟩ | ⟨hall, hscan⟩
        · refine .inl ⟨t :: us, n, vs, rfl, hn, List.forall_mem_cons.mpr ⟨hunfit, hus⟩, ?_⟩
          rw [hskip, hscan, Nat.add_assoc]
          rfl
        · exact .inr ⟨List.forall_mem_cons.mpr ⟨hunfit, hall⟩, hskip.trans hscan⟩
      obtain ⟨taken, len⟩ := t
      cases taken with
      | true => exact hbehind (.inl rfl) (hhead.trans (if_neg fun hused => absurd hused.1 (show ¬ (1 : BitVec 8) = 0 by decide)))
      | false =>
        by_cases hfits : start + len - (start + 8) ≥ size
        · refine .inl ⟨[], len, tiles, rfl, ?_, fun s hs => (by cases hs), hhead.trans (if_pos ⟨rfl, hfits⟩)⟩
          have hmin : 20 ≤ len := hlen
          show size + 8 ≤ len
          omega
        · refine hbehind (.inr ?_) (hhead.trans (if_neg fun hused => hfits hused.2))
          unfold SIZEOF_STRUCT_MEM
          show len < size + 8
          omega
    · refine .inr ⟨fun s hs => .inr ?_, if_neg hroom⟩
      have hle := le_total hs
      unfold SIZEOF_STRUCT_MEM
      omega

/- The loop that looks for the next free block. -/
theorem nextFree_eq {ram : Memory} {prev start fuel : ℕ} (hlinked : Linked ram prev start tiles)
    (hsum : start + total tiles = ramEnd) (hlens : ∀ s ∈ tiles, BlockLen s.len) (hfuel : total tiles < fuel) :
    nextFree ram fuel start = some (firstFree start tiles) := by
  obtain ⟨fuel, rfl⟩ : ∃ f, fuel = f + 1 := ⟨fuel - 1, by omega⟩
  induction tiles generalizing prev start fuel with
  | nil => exact if_neg fun h => h.2 hsum
  | cons t tiles ih =>
    rw [List.forall_mem_cons] at hlens
    have hlen := hlens.1.1
    unfold SIZEOF_STRUCT_MEM MIN_SIZE_ALIGNED at hlen
    have hnext : start + t.len + total tiles = ramEnd := by rw [← hsum, Nat.add_assoc]; rfl
    obtain ⟨fuel, rfl⟩ : ∃ f, fuel = f + 1 := ⟨fuel - 1, by unfold total at hfuel; omega⟩
    have hhead : nextFree ram (fuel + 1 + 1) start =
        if (readMem ram start).used ≠ 0 ∧ start ≠ ramEnd then nextFree ram (fuel + 1) (readMem ram start).next
        else some start := rfl
    rw [hlinked.1] at hhead
    obtain ⟨taken, len⟩ := t
    cases taken with
    | false => exact hhead.trans (if_neg fun h => h.1 rfl)
    | true =>
      have hmin : 20 ≤ len := hlen
      have hbelow : start + (len + total tiles) = ramEnd := hsum
      have hne : start ≠ ramEnd := by omega
      have hused : (usedOctet true ≠ 0) := by decide
      rw [hhead, if_pos ⟨hused, hne⟩]
      have hleft : len + total tiles < fuel + 1 + 1 := hfuel
      exact ih hlinked.2 hnext hlens.2 fuel (by omega)

/-! ### A new block -/

section Insert
variable {ram : Memory} {ptr ptr2 next : ℕ}

theorem insertMem_new (hapart : ptr + 8 ≤ ptr2) (hptr : ptr < 65536) (hnext : next < 65536) :
    readMem (insertMem ram ptr ptr2 next) ptr2 = ⟨next, ptr, 0⟩ := by
  show readMem (setNext (setPrev (setNext (setUsed ram ptr2 0) ptr2 next) ptr2 ptr) ptr ptr2) ptr2 = _
  rw [readMem_setNext_ne (.inr hapart), readMem_setPrev hptr, readMem_setNext hnext, readMem_setUsed]

theorem insertMem_old (hapart : ptr + 8 ≤ ptr2) (hptr2 : ptr2 < 65536) :
    readMem (insertMem ram ptr ptr2 next) ptr = { readMem ram ptr with next := ptr2 } := by
  show readMem (setNext (setPrev (setNext (setUsed ram ptr2 0) ptr2 next) ptr2 ptr) ptr ptr2) ptr = _
  rw [readMem_setNext hptr2, readMem_setPrev_ne (.inl hapart), readMem_setNext_ne (.inl hapart),
    readMem_setUsed_ne (.inl hapart)]

theorem insertMem_ne {i : ℕ} (hold : i < ptr ∨ ptr + 8 ≤ i) (hnew : i < ptr2 ∨ ptr2 + 8 ≤ i) :
    insertMem ram ptr ptr2 next i = ram i := by
  show setNext (setPrev (setNext (setUsed ram ptr2 0) ptr2 next) ptr2 ptr) ptr ptr2 i = _
  rw [setNext_ne hold, setPrev_ne hnew, setNext_ne hnew, setUsed_ne hnew]

theorem linkBack_ne {i : ℕ} (h : i < (readMem ram ptr2).next ∨ (readMem ram ptr2).next + 8 ≤ i) :
    linkBack ram ptr2 i = ram i := by
  unfold linkBack
  split
  · exact setPrev_ne h
  · rfl

/- Behind a block there is the end or another header. -/
theorem room_behind (hsum : next + total ys = MEM_SIZE_ALIGNED) (hlens : ∀ s ∈ ys, BlockLen s.len) :
    next = ramEnd ∧ ys = [] ∨ next + 8 ≤ ramEnd := by
  cases ys with
  | nil => exact .inl ⟨hsum, rfl⟩
  | cons s ys =>
    rw [List.forall_mem_cons] at hlens
    have hlen := hlens.1.1
    unfold SIZEOF_STRUCT_MEM MIN_SIZE_ALIGNED at hlen
    unfold total at hsum
    unfold ramEnd
    omega

/- The blocks behind the new one. -/
theorem linkBack_linked {prev : ℕ} (hread : (readMem ram ptr2).next = next) (hlinked : Linked ram prev next ys)
    (hsum : next + total ys = MEM_SIZE_ALIGNED) (hlens : ∀ s ∈ ys, BlockLen s.len) (hptr2 : ptr2 < 65536) :
    Linked (linkBack ram ptr2) ptr2 next ys ∧ (readMem (linkBack ram ptr2) ramEnd).used = (readMem ram ramEnd).used := by
  unfold linkBack
  rw [hread]
  rcases room_behind hsum hlens with ⟨hend, rfl⟩ | hroom
  · rw [if_neg fun hne => hne hend]
    exact ⟨trivial, rfl⟩
  · have hne : next ≠ MEM_SIZE_ALIGNED := by
      unfold ramEnd at hroom
      omega
    rw [if_pos hne]
    exact ⟨hlinked.relink hlens hptr2, by rw [readMem_setPrev_ne (.inr hroom)]⟩

/- The list with a block cut in two: `ram'` differs from `ram` in the two headers. -/
theorem insert_linked {ram' : Memory} {prev : ℕ} (hfront : Linked ram 0 0 xs) (hfrontLens : ∀ s ∈ xs, BlockLen s.len)
    (hback : Linked ram prev next ys) (hbackLens : ∀ s ∈ ys, BlockLen s.len) (hsum : next + total ys = MEM_SIZE_ALIGNED)
    (hnew : total xs + 20 ≤ ptr2) (hnext : ptr2 + 20 ≤ next)
    (hsame : ∀ i, i < total xs ∨ total xs + 8 ≤ i → i < ptr2 ∨ ptr2 + 8 ≤ i → ram' i = ram i)
    (hold : readMem ram' (total xs) = ⟨ptr2, lastAt 0 0 xs, 1⟩) (hread : readMem ram' ptr2 = ⟨next, total xs, 0⟩) :
    Linked (linkBack ram' ptr2) 0 0 (xs ++ ⟨true, ptr2 - total xs⟩ :: ⟨false, next - ptr2⟩ :: ys) ∧
      (readMem (linkBack ram' ptr2) ramEnd).used = (readMem ram ramEnd).used := by
  have hsize : MEM_SIZE_ALIGNED < 65536 := by decide
  have hle : next ≤ ramEnd := by
    unfold ramEnd
    omega
  have hkeep {i : ℕ} (hi : i < next) : linkBack ram' ptr2 i = ram' i := linkBack_ne (.inl (by rw [hread]; exact hi))
  have hback' : Linked ram' prev next ys :=
    hback.congr hbackLens fun i h₁ _ => hsame i (.inr (by omega)) (.inr (by omega))
  obtain ⟨hlinked, hused⟩ := linkBack_linked (congrArg Header.next hread) hback' hsum hbackLens (by omega)
  refine ⟨?_, hused.trans ?_⟩
  · rw [linked_append, Nat.zero_add]
    refine ⟨?_, ?_, ?_, ?_⟩
    · exact hfront.congr hfrontLens fun i _ h₂ => (hkeep (by omega)).trans (hsame i (.inl (by omega)) (.inl (by omega)))
    · rw [readMem_congr fun i _ h₂ => hkeep (by omega), hold]
      show Header.mk ptr2 _ _ = ⟨total xs + (ptr2 - total xs), _, _⟩
      rw [Nat.add_sub_cancel' (by omega)]
      rfl
    · show readMem _ (total xs + (ptr2 - total xs)) = ⟨total xs + (ptr2 - total xs) + (next - ptr2), _, _⟩
      rw [Nat.add_sub_cancel' (by omega), readMem_congr fun i _ h₂ => hkeep (by omega), hread,
        Nat.add_sub_cancel' (by omega)]
      rfl
    · show Linked _ (total xs + (ptr2 - total xs)) (total xs + (ptr2 - total xs) + (next - ptr2)) ys
      rw [Nat.add_sub_cancel' (by omega), Nat.add_sub_cancel' (by omega)]
      exact hlinked
  · rw [readMem_congr fun i h₁ _ => hsame i (.inr (by omega)) (.inr (by omega))]

end Insert

/- Another mark on a block. -/
theorem mark_linked (taken : Bool) (ha : At h xs t ys) (hlast : (readMem h.ram ramEnd).used = 1) :
    Linked (setUsed h.ram (total xs) (usedOctet taken)) 0 0 (xs ++ ⟨taken, t.len⟩ :: ys) ∧
      (readMem (setUsed h.ram (total xs) (usedOctet taken)) ramEnd).used = 1 := by
  have hsum := ha.sum
  have hlen := ha.len
  constructor
  · rw [linked_append, Nat.zero_add]
    refine ⟨?_, ?_, ?_⟩
    · exact ha.front.congr ha.frontLens fun i _ h₂ => setUsed_ne (.inl (by omega))
    · rw [readMem_setUsed, ha.header]
    · exact ha.back.congr ha.backLens fun i h₁ _ => setUsed_ne (.inr (by omega))
  · rw [readMem_setUsed_ne (.inr (by unfold ramEnd; omega))]
    exact hlast

/- What becomes of a free block. -/
def carve (size n : ℕ) : List Tile :=
  if n ≥ size + SIZEOF_STRUCT_MEM + (SIZEOF_STRUCT_MEM + MIN_SIZE_ALIGNED) then
    [⟨true, size + SIZEOF_STRUCT_MEM⟩, ⟨false, n - (size + SIZEOF_STRUCT_MEM)⟩]
  else [⟨true, n⟩]

theorem takeBlock_linked (hh : Holds h (xs ++ ⟨false, n⟩ :: ys)) (hmin : MIN_SIZE_ALIGNED ≤ size) :
    Linked (takeBlock h.ram (total xs) size) 0 0 (xs ++ (carve size n ++ ys)) ∧
      (readMem (takeBlock h.ram (total xs) size) ramEnd).used = 1 := by
  have ha := hh.at
  have hsum : total xs + n + total ys = MEM_SIZE_ALIGNED := ha.sum
  have hn : 20 ≤ n := ha.len
  have hsize : MEM_SIZE_ALIGNED < 65536 := by decide
  have huser : userSize h.ram (total xs) = total xs + n - (total xs + 8) :=
    userSize_eq ha.header (show total xs + 8 ≤ total xs + n by omega) (show total xs + n < 65536 by omega)
  unfold MIN_SIZE_ALIGNED at hmin
  unfold takeBlock carve
  rw [huser]
  unfold SIZEOF_STRUCT_MEM MIN_SIZE_ALIGNED
  by_cases hsplit : n ≥ size + 8 + (8 + 12)
  · rw [if_pos hsplit, if_pos (show total xs + n - (total xs + 8) ≥ size + 8 + 12 by omega), ha.header]
    have hnew : total xs + 8 ≤ total xs + 8 + size := by omega
    generalize hptr2 : total xs + 8 + size = ptr2 at hnew
    generalize hnext : total xs + n = next at hsum
    have hsame : ∀ i, i < total xs ∨ total xs + 8 ≤ i → i < ptr2 ∨ ptr2 + 8 ≤ i →
        setUsed (insertMem h.ram (total xs) ptr2 next) (total xs) 1 i = h.ram i :=
      fun i h₁ h₂ => by rw [setUsed_ne h₁, insertMem_ne h₁ h₂]
    have hold : readMem (setUsed (insertMem h.ram (total xs) ptr2 next) (total xs) 1) (total xs) =
        ⟨ptr2, lastAt 0 0 xs, 1⟩ := by
      rw [readMem_setUsed, insertMem_old hnew (by omega), ha.header]
    have hread : readMem (setUsed (insertMem h.ram (total xs) ptr2 next) (total xs) 1) ptr2 = ⟨next, total xs, 0⟩ := by
      rw [readMem_setUsed_ne (.inr hnew), insertMem_new hnew (by omega) (by omega)]
    have hback := ha.back
    rw [show total xs + Tile.len ⟨false, n⟩ = next from hnext] at hback
    obtain ⟨hlinked, hused⟩ := insert_linked ha.front ha.frontLens hback ha.backLens hsum (by omega) (by omega)
      hsame hold hread
    have hfirst : ptr2 - total xs = size + 8 := by omega
    have hsecond : next - ptr2 = n - (size + 8) := by omega
    rw [hfirst, hsecond] at hlinked
    exact ⟨hlinked, hused.trans hh.last⟩
  · rw [if_neg hsplit, if_neg (show ¬ total xs + n - (total xs + 8) ≥ size + 8 + 12 by omega)]
    exact mark_linked true ha hh.last

/- Only headers change: that of the block, of the rest cut off, and of the block behind. -/
theorem takeBlock_ne (hh : Holds h (xs ++ ⟨false, n⟩ :: ys)) {i : ℕ}
    (hi : i < total xs ∨ total xs + n ≤ i) (hnext : i < total xs + n ∨ total xs + n + 8 ≤ i) :
    takeBlock h.ram (total xs) size i = h.ram i := by
  have ha := hh.at
  have hsum : total xs + n + total ys = MEM_SIZE_ALIGNED := ha.sum
  have hn : 20 ≤ n := ha.len
  have hsize : MEM_SIZE_ALIGNED < 65536 := by decide
  have huser : userSize h.ram (total xs) = total xs + n - (total xs + 8) :=
    userSize_eq ha.header (show total xs + 8 ≤ total xs + n by omega) (show total xs + n < 65536 by omega)
  unfold takeBlock
  rw [huser]
  unfold SIZEOF_STRUCT_MEM MIN_SIZE_ALIGNED
  split
  case isFalse => exact setUsed_ne (by omega)
  case isTrue hsplit =>
    have hapart : total xs + 8 ≤ total xs + 8 + size := by omega
    have hheader : readMem h.ram (total xs) = ⟨total xs + n, lastAt 0 0 xs, 0⟩ := ha.header
    rw [hheader]
    dsimp only
    rw [linkBack_ne, setUsed_ne (by omega), insertMem_ne (by omega) (by omega)]
    rw [readMem_setUsed_ne (.inr hapart), insertMem_new hapart (by omega) (by omega)]
    exact hnext

/-! ### mem_malloc -/

theorem and_mask (n : ℕ) : n &&& 4294967292 = n / 4 % 1073741824 * 4 := by
  have hlow : (n &&& 4294967292) % 4 = 0 := by
    rw [show 4 = 2 ^ 2 from rfl, Nat.and_mod_two_pow]
    exact Nat.and_zero _
  have hhigh : (n &&& 4294967292) / 4 = n / 4 % 1073741824 := by
    rw [show 4 = 2 ^ 2 from rfl, ← Nat.shiftRight_eq_div_pow, Nat.shiftRight_and_distrib, Nat.shiftRight_eq_div_pow]
    exact Nat.and_two_pow_sub_one_eq_mod (n / 4) 30
  omega

theorem blockSize_eq (size : MemSize) : blockSize size =
    if (size.toNat + 3) / 4 * 4 % 65536 < MIN_SIZE_ALIGNED then MIN_SIZE_ALIGNED else (size.toNat + 3) / 4 * 4 % 65536 := by
  have hsize := size.isLt
  have halign : ((LWIP_MEM_ALIGN_SIZE (size.setWidth 32)).setWidth 16 : MemSize).toNat =
      (size.toNat + 3) / 4 * 4 % 65536 := by
    have hsum : (size.setWidth 32 + 4 - 1 : BitVec 32).toNat = size.toNat + 3 := by
      rw [BitVec.toNat_sub, BitVec.toNat_add, BitVec.toNat_setWidth_of_le (by decide)]
      show (4294967296 - 1 + (size.toNat + 4) % 4294967296) % 4294967296 = _
      omega
    unfold LWIP_MEM_ALIGN_SIZE
    rw [BitVec.toNat_setWidth, BitVec.toNat_and, hsum]
    show ((size.toNat + 3) &&& 4294967292) % 65536 = _
    rw [and_mask]
    omega
  unfold blockSize
  rw [halign]

theorem blockSize_facts (size : MemSize) : MIN_SIZE_ALIGNED ≤ blockSize size ∧ blockSize size % 4 = 0 := by
  rw [blockSize_eq]
  unfold MIN_SIZE_ALIGNED
  split_ifs
  · omega
  · omega

theorem carve_lens (hsize : MIN_SIZE_ALIGNED ≤ size) (haligned : size % 4 = 0) (hn : BlockLen n) :
    (carve size n = [⟨true, n⟩] ∧ n < size + SIZEOF_STRUCT_MEM + (SIZEOF_STRUCT_MEM + MIN_SIZE_ALIGNED)) ∨
      ∃ m, BlockLen (size + SIZEOF_STRUCT_MEM) ∧ BlockLen m ∧ n = size + SIZEOF_STRUCT_MEM + m ∧
        carve size n = [⟨true, size + SIZEOF_STRUCT_MEM⟩, ⟨false, m⟩] := by
  unfold carve
  split_ifs with hsplit
  · unfold BlockLen SIZEOF_STRUCT_MEM MIN_SIZE_ALIGNED MEM_ALIGNMENT at *
    exact .inr ⟨n - (size + 8), by omega, by omega, by omega, rfl⟩
  · exact .inl ⟨rfl, by omega⟩

theorem carve_laid (hlaid : Laid BlockLen MEM_SIZE_ALIGNED (xs ++ ⟨false, n⟩ :: ys)) (hsize : MIN_SIZE_ALIGNED ≤ size)
    (haligned : size % 4 = 0) : Laid BlockLen MEM_SIZE_ALIGNED (xs ++ (carve size n ++ ys)) := by
  have hn := (lens_around.mp hlaid.lens).2.1
  rcases carve_lens hsize haligned hn with ⟨hwhole, -⟩ | ⟨m, hk, hm, rfl, hcut⟩
  · rw [hwhole]
    exact hlaid.keep
  · rw [hcut]
    exact hlaid.cut hk hm

/- The lowest free block is free, or there is none. -/
theorem firstFree_used {ram : Memory} {prev start : ℕ} (hlinked : Linked ram prev start tiles) :
    firstFree start tiles = start + total tiles ∨ (readMem ram (firstFree start tiles)).used = 0 := by
  induction tiles generalizing prev start with
  | nil => exact .inl rfl
  | cons t tiles ih =>
    obtain ⟨taken, len⟩ := t
    cases taken with
    | false =>
      right
      show (readMem ram start).used = 0
      rw [hlinked.1]
      rfl
    | true =>
      show firstFree (start + len) tiles = start + (len + total tiles) ∨ _
      rw [← Nat.add_assoc]
      exact ih hlinked.2

/- `lfree` once the block at the lowest or another free one is taken. -/
theorem adjustLfree_eq {us as bs : List Tile} {ram : Memory} (hus : ∀ s ∈ us, s.taken = true)
    (hvs : ∀ s ∈ (as ++ ⟨false, n⟩ :: bs).head?, s.taken = false)
    (hlinked : Linked ram 0 0 (us ++ as ++ (carve size n ++ bs)))
    (hlaid : Laid BlockLen MEM_SIZE_ALIGNED (us ++ as ++ (carve size n ++ bs))) :
    adjustLfree ram (total (us ++ as)) (total us) = some (firstFree 0 (us ++ as ++ (carve size n ++ bs))) := by
  have hlens := List.forall_mem_append.mp hlaid.lens
  have hsum := hlaid.total_eq
  rw [total_append, total_append] at hsum
  rw [List.append_assoc, firstFree_taken hus, Nat.zero_add]
  unfold adjustLfree
  cases as with
  | nil =>
    rw [List.append_nil] at hlinked ⊢
    rw [if_pos rfl]
    have hlinked := (linked_append.mp hlinked).2
    rw [Nat.zero_add] at hlinked
    rw [nextFree_eq hlinked hsum hlens.2 (show total (carve size n ++ bs) < MEM_SIZE_ALIGNED + 1 by omega)]
    have hfree := firstFree_used hlinked
    rw [show total us + total (carve size n ++ bs) = ramEnd from hsum] at hfree
    exact if_pos hfree
  | cons t as =>
    have ht : t.taken = false := hvs t rfl
    have hlen := (hlens.1 t (List.mem_append_right _ (List.mem_cons_self ..))).1
    have hne : total (us ++ t :: as) ≠ total us := by
      rw [total_append]
      unfold total SIZEOF_STRUCT_MEM MIN_SIZE_ALIGNED at *
      omega
    rw [if_neg hne]
    show _ = some (if t.taken then firstFree (total us + t.len) _ else total us)
    rw [ht]
    rfl

/- A block is given out: the first one that is free and big enough. -/
structure Malloced (h : Heap) (size : ℕ) (xs : List Tile) (n : ℕ) (ys : List Tile) (h' : Heap) : Prop where
  fits : size + SIZEOF_STRUCT_MEM ≤ n
  first : ∀ s ∈ xs, Unfit size s
  holds : Holds h' (xs ++ (carve size n ++ ys))
  ram : h'.ram = takeBlock h.ram (total xs) size

theorem memMalloc_spec (hh : Holds h tiles) (size : MemSize) :
    (∃ xs n ys h', tiles = xs ++ ⟨false, n⟩ :: ys ∧ size ≠ 0 ∧ Malloced h (blockSize size) xs n ys h' ∧
      memMalloc h size = some (some (total xs + SIZEOF_STRUCT_MEM), h')) ∨
    ((size = 0 ∨ ∀ s ∈ tiles, Unfit (blockSize size) s) ∧ memMalloc h size = some (none, h)) := by
  obtain ⟨hmin, haligned⟩ := blockSize_facts size
  unfold memMalloc
  by_cases hzero : size = 0
  · rw [if_pos hzero]
    exact .inr ⟨.inl hzero, rfl⟩
  rw [if_neg hzero]
  generalize blockSize size = need at hmin haligned ⊢
  by_cases hbig : need > MEM_SIZE_ALIGNED
  · refine .inr ⟨.inr fun s hs => .inr ?_, if_pos hbig⟩
    have hle := le_total hs
    rw [hh.laid.total_eq] at hle
    exact Nat.lt_of_le_of_lt hle (Nat.lt_of_lt_of_le hbig (Nat.le_add_right _ _))
  dsimp only
  rw [if_neg hbig]
  obtain ⟨us, vs, rfl, hfirst, hus, hvs⟩ := firstFree_split 0 tiles
  have hlowest := hh.lowest.trans hfirst
  have hlinked := (linked_append.mp hh.linked).2
  have hlens := List.forall_mem_append.mp hh.laid.lens
  have hsum := hh.laid.total_eq
  rw [total_append] at hsum
  rw [Nat.zero_add] at hlowest hlinked
  rw [hlowest]
  rcases scan_eq hlinked hsum hlens.2 (Nat.not_lt.mp hbig) (show total vs < MEM_SIZE_ALIGNED + 1 by omega) with
    ⟨as, n, bs, rfl, hn, has, hscan⟩ | ⟨hall, hscan⟩
  · rw [hscan, ← total_append]
    rw [← List.append_assoc] at hh
    obtain ⟨htaken, hlast⟩ := takeBlock_linked hh hmin
    have hlaid := carve_laid hh.laid hmin haligned
    have ha := hh.at
    have hbound : total (us ++ as) + n + total bs = MEM_SIZE_ALIGNED := ha.sum
    have hstart := total_aligned ha.frontLens
    refine .inl ⟨us ++ as, n, bs, ⟨takeBlock h.ram (total (us ++ as)) need, firstFree 0 (us ++ as ++ (carve need n ++ bs))⟩,
      (List.append_assoc ..).symm, hzero, ⟨hn, ?_, ⟨hlaid, htaken, rfl, hlast⟩, rfl⟩, ?_⟩
    · rw [List.forall_mem_append]
      exact ⟨fun s hs => .inl (hus s hs), has⟩
    · show Option.bind (adjustLfree _ _ _) _ = _
      rw [adjustLfree_eq hus hvs htaken hlaid]
      refine if_pos ⟨?_, hstart⟩
      unfold ramEnd
      omega
  · rw [hscan]
    refine .inr ⟨.inr ?_, rfl⟩
    rw [List.forall_mem_append]
    exact ⟨fun s hs => .inl (hus s hs), hall⟩

/-! ### mem_free -/

/- Two blocks become one. -/
def joinNext (ram : Memory) (mem next : ℕ) : Memory := setPrev (setNext ram mem next) next mem

theorem joinNext_linked {ram : Memory} {k : ℕ} {b : Bool} (hlinked : Linked ram 0 0 (xs ++ ⟨false, n⟩ :: ⟨b, k⟩ :: ys))
    (hfrontLens : ∀ s ∈ xs, BlockLen s.len) (hbackLens : ∀ s ∈ ys, BlockLen s.len)
    (hsum : total xs + (n + k + total ys) = MEM_SIZE_ALIGNED) (hn : 20 ≤ n) :
    Linked (joinNext ram (total xs) (total xs + (n + k))) 0 0 (xs ++ ⟨false, n + k⟩ :: ys) ∧
      (readMem (joinNext ram (total xs) (total xs + (n + k))) ramEnd).used = (readMem ram ramEnd).used := by
  have hsize : MEM_SIZE_ALIGNED < 65536 := by decide
  rw [linked_append, Nat.zero_add] at hlinked
  obtain ⟨hfront, hheader, -, hback⟩ := hlinked
  have hback : Linked ram (total xs + n) (total xs + (n + k)) ys := by
    rw [← Nat.add_assoc]
    exact hback
  unfold joinNext
  generalize hnext : total xs + (n + k) = next at hback
  have hapart : total xs + 8 ≤ next := by omega
  constructor
  · rw [linked_append, Nat.zero_add]
    refine ⟨?_, ?_, ?_⟩
    · exact hfront.congr hfrontLens fun i _ h₂ => by rw [setPrev_ne (.inl (by omega)), setNext_ne (.inl (by omega))]
    · rw [readMem_setPrev_ne (.inl hapart), readMem_setNext (by omega), hheader]
      show Header.mk next _ _ = ⟨total xs + (n + k), _, _⟩
      rw [hnext]
    · show Linked _ (total xs) (total xs + (n + k)) ys
      rw [hnext]
      exact (hback.congr hbackLens fun i h₁ _ => setNext_ne (.inr (by omega))).relink hbackLens (by omega)
  · have hend : next + 8 ≤ ramEnd ∨ next = ramEnd := by
      rcases room_behind (show next + total ys = MEM_SIZE_ALIGNED by omega) hbackLens with h | h
      · exact .inr h.1
      · exact .inl h
    rcases hend with h | h
    · rw [readMem_setPrev_ne (.inr h), readMem_setNext_ne (.inr (by omega))]
    · rw [h, readMem_setPrev (by omega), readMem_setNext_ne (.inr (by omega))]

theorem joinNext_ne {ram : Memory} {mem next i : ℕ} (hmem : i < mem ∨ mem + 8 ≤ i) (hnext : i < next ∨ next + 8 ≤ i) :
    joinNext ram mem next i = ram i := by
  unfold joinNext
  rw [setPrev_ne hnext, setNext_ne hmem]

/- No header lies in the data of a block that is in use. -/
theorem data_apart {us vs : List Tile} {a : ℕ × ℕ} {i : ℕ} (ha : a ∈ spans 0 (us ++ vs)) (hfrom : a.1 + 8 ≤ i)
    (hto : i < a.1 + a.2) : i < total us ∨ total us + 8 ≤ i := by
  rw [spans_append, List.mem_append] at ha
  rcases ha with ha | ha
  · have h := spans_bounds ha
    omega
  · have h := spans_bounds ha
    omega

/- The octets of the blocks in use. -/
def Data (tiles : List Tile) (i : ℕ) : Prop := ∃ a ∈ spans 0 tiles, a.1 + SIZEOF_STRUCT_MEM ≤ i ∧ i < a.1 + a.2

theorem Data.apart {us vs : List Tile} {i : ℕ} (hi : Data (us ++ vs) i) : i < total us ∨ total us + 8 ≤ i := by
  obtain ⟨a, ha, hfrom, hto⟩ := hi
  exact data_apart ha hfrom hto

theorem Data.of_spans {us vs : List Tile} {i : ℕ} (hspans : spans 0 us = spans 0 vs) (hi : Data us i) : Data vs i := by
  obtain ⟨a, ha, hdata⟩ := hi
  rw [hspans] at ha
  exact ⟨a, ha, hdata⟩

theorem plugForward_spec (hh : Linked h.ram 0 0 (xs ++ ⟨false, n⟩ :: ys)) (hlast : (readMem h.ram ramEnd).used = 1)
    (hlaid : Laid BlockLen MEM_SIZE_ALIGNED (xs ++ ⟨true, n⟩ :: ys)) (hlfree : h.lfree ≤ total xs) :
    Linked (plugForward h (total xs)).ram 0 0 (xs ++ ⟨false, (fuse n ys).1⟩ :: (fuse n ys).2) ∧
      (readMem (plugForward h (total xs)).ram ramEnd).used = 1 ∧ (plugForward h (total xs)).lfree = h.lfree ∧
      ∀ i, Data (xs ++ ⟨false, n⟩ :: ys) i → (plugForward h (total xs)).ram i = h.ram i := by
  obtain ⟨hfrontLens, ⟨hn, -⟩, hbackLens⟩ := lens_around.mp hlaid.lens
  have hlinked := (linked_append.mp hh).2
  rw [Nat.zero_add] at hlinked
  obtain ⟨hheader, hback⟩ := hlinked
  have hsum : total xs + (n + total ys) = MEM_SIZE_ALIGNED := by
    rw [← hlaid.total_eq, total_append]
    rfl
  have hn : 20 ≤ n := hn
  have hskip (hno : ¬ (total xs ≠ total xs + n ∧ (readMem h.ram (total xs + n)).used = 0 ∧ total xs + n ≠ ramEnd)) :
      plugForward h (total xs) = h := by
    unfold plugForward
    rw [hheader]
    exact if_neg hno
  cases ys with
  | nil =>
    rw [hskip fun hyes => hyes.2.2 hsum]
    exact ⟨hh, hlast, rfl, fun _ _ => rfl⟩
  | cons t ys =>
    obtain ⟨taken, k⟩ := t
    have hnext : readMem h.ram (total xs + n) = ⟨total xs + n + k, total xs, usedOctet taken⟩ := hback.1
    rw [List.forall_mem_cons] at hbackLens
    obtain ⟨⟨hk, -⟩, hbackLens⟩ := hbackLens
    have hk : 20 ≤ k := hk
    have hsum : total xs + (n + (k + total ys)) = MEM_SIZE_ALIGNED := hsum
    cases taken with
    | true =>
      have hused : ¬ (readMem h.ram (total xs + n)).used = 0 := by
        rw [hnext]
        exact (by decide : ¬ usedOctet true = 0)
      rw [hskip fun hyes => hused hyes.2.1]
      exact ⟨hh, hlast, rfl, fun _ _ => rfl⟩
    | false =>
      have hplug : plugForward h (total xs) = ⟨joinNext h.ram (total xs) (total xs + (n + k)), h.lfree⟩ := by
        unfold plugForward
        rw [hheader]
        dsimp only
        rw [if_pos ⟨by omega, by rw [hnext]; rfl, by unfold ramEnd; omega⟩, if_neg (by omega),
          readMem_setNext_ne (.inr (by omega)), hnext, ← Nat.add_assoc]
        rfl
      obtain ⟨hjoined, hused⟩ := joinNext_linked hh hfrontLens hbackLens (by omega) hn
      rw [hplug]
      refine ⟨hjoined, hused.trans hlast, rfl, fun i hi => joinNext_ne hi.apart ?_⟩
      have hsplit : xs ++ ⟨false, n⟩ :: ⟨false, k⟩ :: ys = xs ++ [⟨false, n⟩, ⟨false, k⟩] ++ ys := by
        rw [List.append_assoc]
        rfl
      rw [hsplit] at hi
      have hapart := hi.apart
      rw [total_append] at hapart
      exact hapart

theorem plugBackward_spec (hh : Linked h.ram 0 0 (xs ++ ⟨false, n⟩ :: ys)) (hlast : (readMem h.ram ramEnd).used = 1)
    (hlens : ∀ s ∈ xs ++ ⟨false, n⟩ :: ys, BlockLen s.len) (hsum : total xs + (n + total ys) = MEM_SIZE_ALIGNED)
    (hlfree : h.lfree = firstFree 0 xs) :
    Linked (plugBackward h (total xs)).ram 0 0 (fuseBack xs n ys) ∧
      (readMem (plugBackward h (total xs)).ram ramEnd).used = 1 ∧ (plugBackward h (total xs)).lfree = h.lfree ∧
      ∀ i, Data (xs ++ ⟨false, n⟩ :: ys) i → (plugBackward h (total xs)).ram i = h.ram i := by
  obtain ⟨hfrontLens, ⟨hn, -⟩, hbackLens⟩ := lens_around.mp hlens
  obtain ⟨hfront, hlinked⟩ := linked_append.mp hh
  rw [Nat.zero_add] at hlinked
  obtain ⟨hheader, hback⟩ := hlinked
  have hn : 20 ≤ n := hn
  have hskip (hno : ¬ (lastAt 0 0 xs ≠ total xs ∧ (readMem h.ram (lastAt 0 0 xs)).used = 0)) :
      plugBackward h (total xs) = h := by
    unfold plugBackward
    rw [hheader]
    exact if_neg hno
  rcases List.eq_nil_or_concat xs with rfl | ⟨ws, t, rfl⟩
  · rw [hskip fun hyes => hyes.1 rfl]
    exact ⟨hh, hlast, rfl, fun _ _ => rfl⟩
  rw [List.concat_eq_append] at *
  rw [lastAt_append, Nat.zero_add] at hskip hheader
  obtain ⟨taken, k⟩ := t
  obtain ⟨hws, ⟨hmin, -⟩, -⟩ := lens_around.mp hfrontLens
  have hk : 20 ≤ k := hmin
  have hbefore : readMem h.ram (total ws) = ⟨total ws + k, lastAt 0 0 ws, usedOctet taken⟩ := by
    have hlinked := (linked_append.mp hfront).2.1
    rw [Nat.zero_add] at hlinked
    exact hlinked
  rw [total_append] at *
  have hsum : total ws + k + (n + total ys) = MEM_SIZE_ALIGNED := hsum
  cases taken with
  | true =>
    have hused : ¬ (readMem h.ram (total ws)).used = 0 := by
      rw [hbefore]
      exact (by decide : ¬ usedOctet true = 0)
    rw [hskip fun hyes => hused hyes.2, fuseBack_taken fun t ht => by rw [List.getLast?_concat] at ht; cases ht; rfl]
    exact ⟨hh, hlast, rfl, fun _ _ => rfl⟩
  | false =>
    have hpos : ∀ s ∈ ws, 0 < s.len := fun s hs => Nat.lt_of_lt_of_le (by decide) (hws s hs).1
    rw [firstFree_free hpos] at hlfree
    have hlow := (@firstFree_bounds 0 ws).2
    rw [← hlfree] at hlow
    have hplug : plugBackward h (total ws + k) = ⟨joinNext h.ram (total ws) (total ws + (k + n)), h.lfree⟩ := by
      have hheader : readMem h.ram (total ws + k) = ⟨total ws + k + n, total ws, 0⟩ := hheader
      unfold plugBackward
      rw [hheader]
      dsimp only
      rw [if_pos ⟨by omega, by rw [hbefore]; rfl⟩, if_neg (by omega), readMem_setNext_ne (.inr (by omega)), hheader,
        ← Nat.add_assoc]
      rfl
    rw [fuseBack_free]
    have hh : Linked h.ram 0 0 (ws ++ ⟨false, k⟩ :: ⟨false, n⟩ :: ys) := by
      rw [List.append_assoc] at hh
      exact hh
    obtain ⟨hjoined, hused⟩ := joinNext_linked hh hws hbackLens (by omega) hk
    show Linked (plugBackward h (total ws + k)).ram 0 0 _ ∧ (readMem (plugBackward h (total ws + k)).ram ramEnd).used = 1 ∧
      (plugBackward h (total ws + k)).lfree = h.lfree ∧ ∀ i, _ → (plugBackward h (total ws + k)).ram i = h.ram i
    rw [hplug]
    refine ⟨hjoined, hused.trans hlast, rfl, fun i hi => joinNext_ne ?_ ?_⟩
    · rw [List.append_assoc] at hi
      exact hi.apart
    · have hsplit : ws ++ [⟨false, k⟩] ++ ⟨false, n⟩ :: ys = ws ++ [⟨false, k⟩, ⟨false, n⟩] ++ ys := by
        rw [List.append_assoc, List.append_assoc]
        rfl
      rw [hsplit] at hi
      have hapart := hi.apart
      rw [total_append] at hapart
      exact hapart

/-- mem_free gives a block back and leaves the others as they are. -/
theorem memFree_spec (hh : Holds h (xs ++ ⟨true, n⟩ :: ys)) :
    ∃ h', memFree h (some (total xs + SIZEOF_STRUCT_MEM)) = some h' ∧ Holds h' (release xs n ys) ∧
      ∀ i, Data (release xs n ys) i → h'.ram i = h.ram i := by
  have ha := hh.at
  have hsum : total xs + n + total ys = MEM_SIZE_ALIGNED := ha.sum
  have hn : 20 ≤ n := ha.len
  have hstart := total_aligned ha.frontLens
  have hheader : readMem h.ram (total xs) = ⟨total xs + n, lastAt 0 0 xs, 1⟩ := ha.header
  have hpos : ∀ s ∈ xs, 0 < s.len := fun s hs => Nat.lt_of_lt_of_le (by decide) (ha.frontLens s hs).1
  obtain ⟨hmarked, hlast⟩ := mark_linked false ha hh.last
  -- the lowest free block once this one is free
  have hlfree : (if total xs < h.lfree then total xs else h.lfree) = firstFree 0 xs := by
    have hxs := (@firstFree_bounds 0 xs).2
    have hfirst : h.lfree = if firstFree 0 xs < 0 + total xs then firstFree 0 xs else firstFree (0 + total xs + n) ys :=
      hh.lowest.trans (firstFree_append hpos)
    have hrest := (@firstFree_bounds (0 + total xs + n) ys).1
    rw [hfirst]
    split_ifs with hbelow hless hless
    · omega
    · rfl
    · omega
    · omega
  have hlow : firstFree 0 xs ≤ total xs := Nat.le_trans (@firstFree_bounds 0 xs).2 (Nat.le_of_eq (Nat.zero_add _))
  have hmark : readMem (setUsed h.ram (total xs) 0) (total xs) = ⟨total xs + n, lastAt 0 0 xs, 0⟩ := by
    rw [readMem_setUsed, hheader]
  have hforward := @plugForward_spec ⟨setUsed h.ram (total xs) 0, firstFree 0 xs⟩ xs ys n hmarked hlast hh.laid hlow
  have hfree : memFree h (some (total xs + SIZEOF_STRUCT_MEM)) =
      some (plugBackward (plugForward ⟨setUsed h.ram (total xs) 0, firstFree 0 xs⟩ (total xs)) (total xs)) := by
    have hlegal : (total xs + SIZEOF_STRUCT_MEM) % MEM_ALIGNMENT = 0 ∧ total xs + SIZEOF_STRUCT_MEM < ramEnd := by
      unfold SIZEOF_STRUCT_MEM MEM_ALIGNMENT ramEnd
      omega
    have hused : (readMem h.ram (total xs)).used ≠ 0 := by
      rw [hheader]
      exact (by decide : (1 : BitVec 8) ≠ 0)
    unfold memFree
    dsimp only
    rw [if_pos hlegal, Nat.add_sub_cancel, if_pos hused, hlfree]
    unfold plugHoles
    dsimp only
    rw [hmark]
    exact if_pos ⟨by unfold ramEnd; omega, rfl, by show total xs + n ≤ _; omega⟩
  rw [hfree]
  generalize plugForward ⟨setUsed h.ram (total xs) 0, firstFree 0 xs⟩ (total xs) = f at hforward
  obtain ⟨hlinkedF, hlastF, hlfreeF, hsameF⟩ := hforward
  have hfirst := fuse_len BlockLen.add (lens_around.mp hh.laid.lens).2.1 ha.backLens
  have hrest := fuse_lens n ha.backLens
  have hfuse := total_fuse n ys
  obtain ⟨hlinkedB, hlastB, hlfreeB, hsameB⟩ := plugBackward_spec hlinkedF hlastF
    (lens_around.mpr ⟨ha.frontLens, hfirst, hrest⟩) (by omega) hlfreeF
  refine ⟨_, rfl, ⟨hh.laid.release BlockLen.add, hlinkedB, ?_, hlastB⟩, fun i hi => ?_⟩
  · rw [hlfreeB, hlfreeF, firstFree_release hpos]
  · have hblocks : spans 0 (release xs n ys) = spans 0 (xs ++ ⟨false, n⟩ :: ys) := by
      rw [spans_release, spans_around_free]
    have hfused : spans 0 (release xs n ys) = spans 0 (xs ++ ⟨false, (fuse n ys).1⟩ :: (fuse n ys).2) := by
      rw [spans_release, spans_around_free, spans_fuse]
    have hdata := hi.of_spans hblocks
    rw [hsameB i (hi.of_spans hfused), hsameF i hdata]
    exact setUsed_ne hdata.apart

/-! ### mem_trim -/

theorem trimTo_spec (hh : Holds h (xs ++ ⟨true, n⟩ :: ys)) {k next prev : ℕ} {zs : List Tile}
    (hmin : MIN_SIZE_ALIGNED ≤ k) (hroom : total xs + SIZEOF_STRUCT_MEM + k + 20 ≤ next)
    (hback : Linked h.ram prev next zs) (hlens : ∀ s ∈ zs, BlockLen s.len)
    (hsum : next + total zs = MEM_SIZE_ALIGNED) (lfree : ℕ) :
    Linked (trimTo h (total xs) (total xs + SIZEOF_STRUCT_MEM + k) next lfree).ram 0 0
        (xs ++ ⟨true, SIZEOF_STRUCT_MEM + k⟩ :: ⟨false, next - (total xs + SIZEOF_STRUCT_MEM + k)⟩ :: zs) ∧
      (readMem (trimTo h (total xs) (total xs + SIZEOF_STRUCT_MEM + k) next lfree).ram ramEnd).used = 1 ∧
      ∀ i, Data (xs ++ ⟨true, SIZEOF_STRUCT_MEM + k⟩ :: ⟨false, next - (total xs + SIZEOF_STRUCT_MEM + k)⟩ :: zs) i →
        (trimTo h (total xs) (total xs + SIZEOF_STRUCT_MEM + k) next lfree).ram i = h.ram i := by
  have ha := hh.at
  have hsize : MEM_SIZE_ALIGNED < 65536 := by decide
  unfold MIN_SIZE_ALIGNED at hmin
  have hfirst : SIZEOF_STRUCT_MEM + k = total xs + SIZEOF_STRUCT_MEM + k - total xs := by omega
  rw [hfirst]
  unfold SIZEOF_STRUCT_MEM at *
  generalize hptr2 : total xs + 8 + k = ptr2 at *
  have hapart : total xs + 8 ≤ ptr2 := by omega
  have hread : readMem (insertMem h.ram (total xs) ptr2 next) ptr2 = ⟨next, total xs, 0⟩ :=
    insertMem_new hapart (by omega) (by omega)
  have hold : readMem (insertMem h.ram (total xs) ptr2 next) (total xs) = ⟨ptr2, lastAt 0 0 xs, 1⟩ := by
    rw [insertMem_old hapart (by omega), ha.header]
    rfl
  obtain ⟨hlinked, hused⟩ := insert_linked ha.front ha.frontLens hback hlens hsum (by omega) (by omega)
    (fun i h₁ h₂ => insertMem_ne h₁ h₂) hold hread
  refine ⟨hlinked, hused.trans hh.last, fun i hi => ?_⟩
  have hsecond : xs ++ ⟨true, ptr2 - total xs⟩ :: ⟨false, next - ptr2⟩ :: zs =
      xs ++ [⟨true, ptr2 - total xs⟩] ++ ⟨false, next - ptr2⟩ :: zs := by
    rw [List.append_assoc]
    rfl
  have hthird : xs ++ ⟨true, ptr2 - total xs⟩ :: ⟨false, next - ptr2⟩ :: zs =
      xs ++ [⟨true, ptr2 - total xs⟩, ⟨false, next - ptr2⟩] ++ zs := by
    rw [List.append_assoc]
    rfl
  have hmem := hi.apart
  have hnew := (hsecond ▸ hi).apart
  have hbehind := (hthird ▸ hi).apart
  rw [total_append] at hnew hbehind
  simp only [total] at hnew hbehind
  show linkBack (insertMem h.ram (total xs) ptr2 next) ptr2 i = h.ram i
  rw [linkBack_ne (by rw [hread]; dsimp only; omega), insertMem_ne hmem (by omega)]

/- The lowest free block when there is a free one behind `xs` and a block in use. -/
theorem firstFree_behind {a b : ℕ} (hpos : ∀ s ∈ xs, 0 < s.len) (zs : List Tile) :
    firstFree 0 (xs ++ ⟨true, a⟩ :: ⟨false, b⟩ :: zs) =
      if firstFree 0 xs < total xs then firstFree 0 xs else total xs + a := by
  rw [firstFree_append hpos, Nat.zero_add]
  rfl

theorem spans_shrunk (a b : ℕ) (zs : List Tile) : spans 0 (xs ++ ⟨true, a⟩ :: ⟨false, b⟩ :: zs) =
    spans 0 xs ++ (total xs, a) :: spans (total xs + a + b) zs := by
  rw [spans_around, Nat.zero_add]
  rfl

/- Behind a block in use or at the end, nothing is fused. -/
theorem fuse_used (ha : At h xs t ys) (hlast : (readMem h.ram ramEnd).used = 1) (m : ℕ) :
    (∃ j zs, ys = ⟨false, j⟩ :: zs) ∨ (readMem h.ram (total xs + t.len)).used ≠ 0 ∧ fuse m ys = (m, ys) := by
  have hsum := ha.sum
  have hone : (1 : BitVec 8) ≠ 0 := by decide
  cases ys with
  | nil =>
    right
    have hend : total xs + t.len = ramEnd := hsum
    rw [hend, hlast]
    exact ⟨hone, rfl⟩
  | cons s ys =>
    obtain ⟨taken, j⟩ := s
    cases taken with
    | false => exact .inl ⟨j, ys, rfl⟩
    | true =>
      right
      rw [ha.back.1]
      exact ⟨hone, rfl⟩

/- The heap with the end of a block free, fused with what is behind. -/
theorem Holds.trimmed (hh : Holds h (xs ++ ⟨true, n⟩ :: ys)) {k m prev : ℕ} (next lfree : ℕ) (hn : n = SIZEOF_STRUCT_MEM + k + m)
    (hk : BlockLen (SIZEOF_STRUCT_MEM + k)) (hm : BlockLen (fuse m ys).1) (hnext : next = total xs + n - m + (fuse m ys).1)
    (hback : Linked h.ram prev next (fuse m ys).2)
    (hlfree : lfree = if firstFree 0 xs < total xs then firstFree 0 xs else total xs + SIZEOF_STRUCT_MEM + k) :
    Holds (trimTo h (total xs) (total xs + SIZEOF_STRUCT_MEM + k) next lfree)
        (xs ++ ⟨true, SIZEOF_STRUCT_MEM + k⟩ :: ⟨false, (fuse m ys).1⟩ :: (fuse m ys).2) ∧
      spans 0 (xs ++ ⟨true, SIZEOF_STRUCT_MEM + k⟩ :: ⟨false, (fuse m ys).1⟩ :: (fuse m ys).2) =
        spans 0 xs ++ (total xs, SIZEOF_STRUCT_MEM + k) :: spans (total xs + n) ys ∧
      ∀ i, Data (xs ++ ⟨true, SIZEOF_STRUCT_MEM + k⟩ :: ⟨false, (fuse m ys).1⟩ :: (fuse m ys).2) i →
        (trimTo h (total xs) (total xs + SIZEOF_STRUCT_MEM + k) next lfree).ram i = h.ram i := by
  have ha := hh.at
  have hlaid := hh.laid
  rw [hn] at hlaid
  have hshrunk := hlaid.shrink hk hm
  have hpos : ∀ s ∈ xs, 0 < s.len := fun s hs => Nat.lt_of_lt_of_le (by decide) (ha.frontLens s hs).1
  have hfuse := total_fuse m ys
  have hsum : total xs + n + total ys = MEM_SIZE_ALIGNED := ha.sum
  have hfirst := hm.1
  have hmin := hk.1
  unfold SIZEOF_STRUCT_MEM at hn hfirst hmin
  unfold MIN_SIZE_ALIGNED at hfirst hmin
  have hrest : next - (total xs + SIZEOF_STRUCT_MEM + k) = (fuse m ys).1 := by
    unfold SIZEOF_STRUCT_MEM
    omega
  obtain ⟨hlinked, hlast, hkeep⟩ := trimTo_spec hh (k := k) (by unfold MIN_SIZE_ALIGNED; omega)
    (by unfold SIZEOF_STRUCT_MEM; omega) hback (fuse_lens m ha.backLens) (by omega) lfree
  rw [hrest] at hlinked hkeep
  refine ⟨⟨hshrunk, hlinked, ?_, hlast⟩, ?_, hkeep⟩
  · rw [firstFree_behind hpos, ← Nat.add_assoc]
    exact hlfree
  · have hend : total xs + (SIZEOF_STRUCT_MEM + k) + m = total xs + n := by
      unfold SIZEOF_STRUCT_MEM
      omega
    rw [spans_shrunk, spans_fuse, hend]

/-- mem_trim makes a block not longer than asked for, or leaves it as it is; no octet that
still belongs to a block changes. -/
theorem memTrim_spec (hh : Holds h (xs ++ ⟨true, n⟩ :: ys)) (newsize : MemSize)
    (hle : blockSize newsize + SIZEOF_STRUCT_MEM ≤ n) :
    ∃ h' tiles n', memTrim h (total xs + SIZEOF_STRUCT_MEM) newsize = some (some (total xs + SIZEOF_STRUCT_MEM), h') ∧
      Holds h' tiles ∧ blockSize newsize + SIZEOF_STRUCT_MEM ≤ n' ∧ n' ≤ n ∧
      spans 0 tiles = spans 0 xs ++ (total xs, n') :: spans (total xs + n) ys ∧ ∀ i, Data tiles i → h'.ram i = h.ram i := by
  have ha := hh.at
  have hsum : total xs + n + total ys = MEM_SIZE_ALIGNED := ha.sum
  have hn : 20 ≤ n := ha.len
  have haligned : n % 4 = 0 := ha.aligned
  have hheader : readMem h.ram (total xs) = ⟨total xs + n, lastAt 0 0 xs, 1⟩ := ha.header
  have hpos : ∀ s ∈ xs, 0 < s.len := fun s hs => Nat.lt_of_lt_of_le (by decide) (ha.frontLens s hs).1
  obtain ⟨hmin, hmod⟩ := blockSize_facts newsize
  have hmax : MEM_SIZE_ALIGNED < 65536 := by decide
  have hsame : ∃ h' tiles n', some (some (total xs + SIZEOF_STRUCT_MEM), h) = some (some (total xs + SIZEOF_STRUCT_MEM), h') ∧
      Holds h' tiles ∧ blockSize newsize + SIZEOF_STRUCT_MEM ≤ n' ∧ n' ≤ n ∧
      spans 0 tiles = spans 0 xs ++ (total xs, n') :: spans (total xs + n) ys ∧ ∀ i, Data tiles i → h'.ram i = h.ram i := by
    refine ⟨h, _, n, rfl, hh, hle, Nat.le_refl _, ?_, fun _ _ => rfl⟩
    rw [spans_around, Nat.zero_add]
  unfold memTrim
  generalize blockSize newsize = k at *
  have htrim : trimSize h.ram (total xs) = n - SIZEOF_STRUCT_MEM := by
    unfold trimSize SIZEOF_STRUCT_MEM
    rw [hheader]
    show (total xs + n + 65536 - (total xs + 8)) % 65536 = _
    omega
  unfold MIN_SIZE_ALIGNED at hmin
  dsimp only
  rw [if_neg (show ¬ k > MEM_SIZE_ALIGNED by omega),
    if_pos (show total xs + SIZEOF_STRUCT_MEM < ramEnd by unfold SIZEOF_STRUCT_MEM ramEnd; omega), Nat.add_sub_cancel,
    htrim, if_pos (show k ≤ n - SIZEOF_STRUCT_MEM by omega)]
  by_cases hequal : k = n - SIZEOF_STRUCT_MEM
  · rw [if_pos hequal]
    exact hsame
  rw [if_neg hequal, hheader]
  dsimp only
  obtain ⟨m, hcut⟩ : ∃ m, n = SIZEOF_STRUCT_MEM + k + m := ⟨n - (SIZEOF_STRUCT_MEM + k), by omega⟩
  have hfirst : h.lfree = if firstFree 0 xs < total xs then firstFree 0 xs else firstFree (total xs + n) ys := by
    have happend := hh.lowest.trans (firstFree_append hpos)
    rw [Nat.zero_add] at happend
    exact happend
  have hblock : BlockLen (SIZEOF_STRUCT_MEM + k) := by
    unfold BlockLen SIZEOF_STRUCT_MEM MIN_SIZE_ALIGNED MEM_ALIGNMENT
    omega
  rcases fuse_used ha hh.last m with ⟨j, zs, rfl⟩ | ⟨hused, hfuse⟩
  · have hbehind : readMem h.ram (total xs + n) = ⟨total xs + n + j, total xs, 0⟩ := ha.back.1
    obtain ⟨hj, hjmod⟩ := ha.backLens _ (List.mem_cons_self ..)
    have hmerged : BlockLen (m + j) := by
      unfold SIZEOF_STRUCT_MEM at *
      exact ⟨Nat.le_trans hj (Nat.le_add_left _ _), by unfold MEM_ALIGNMENT at *; dsimp only at hjmod; omega⟩
    rw [hbehind, if_pos rfl]
    obtain ⟨hholds, hspans, hkeep⟩ := hh.trimmed (total xs + n + j)
      (if h.lfree = total xs + n then total xs + SIZEOF_STRUCT_MEM + k else h.lfree) hcut hblock hmerged
      (by show total xs + n + j = total xs + n - m + (m + j); omega) ha.back.2 (by
        have hfirst : h.lfree = if firstFree 0 xs < total xs then firstFree 0 xs else total xs + n := hfirst
        split_ifs at hfirst ⊢
        all_goals omega)
    exact ⟨_, _, _, rfl, hholds, by omega, by omega, hspans, hkeep⟩
  · rw [if_neg hused]
    by_cases hroom : k + SIZEOF_STRUCT_MEM + MIN_SIZE_ALIGNED ≤ n - SIZEOF_STRUCT_MEM
    · have hrest : BlockLen m := by
        unfold BlockLen SIZEOF_STRUCT_MEM MIN_SIZE_ALIGNED MEM_ALIGNMENT at *
        omega
      have hlow := (@firstFree_bounds (total xs + n) ys).1
      rw [if_pos hroom]
      obtain ⟨hholds, hspans, hkeep⟩ := hh.trimmed (total xs + n)
        (if total xs + SIZEOF_STRUCT_MEM + k < h.lfree then total xs + SIZEOF_STRUCT_MEM + k else h.lfree) hcut hblock
        (by rw [hfuse]; exact hrest) (by rw [hfuse]; dsimp only; omega) (by rw [hfuse]; exact ha.back) (by
          split_ifs at hfirst ⊢
          all_goals omega)
      exact ⟨_, _, _, rfl, hholds, by omega, by omega, hspans, hkeep⟩
    · rw [if_neg hroom]
      exact hsame

end Blocks

end MultiEmbedded.Ram
