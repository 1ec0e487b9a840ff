import MultiEmbedded.Lwip.Mem

/-!
# Programs that use the heap

A program holds what it was given until it gives it back, and writes there and nowhere else.
To it the heap is a store of octets that keeps what was written.
-/

namespace MultiEmbedded.Ram
open Tiling

inductive Op
  | malloc (size : MemSize)
  | calloc (count size : MemSize)
  | free (p : ℕ)
  | trim (p : ℕ) (newsize : MemSize)
  | write (i : ℕ) (b : BitVec 8)

/- `held p` is the number of octets asked for at `p`. -/
structure Client where
  heap : Heap
  held : ℕ → Option ℕ

def Client.given (c : Client) (n : ℕ) (r : Option ℕ × Heap) : Option ℕ × Client :=
  match r.1 with
  | none => (none, { c with heap := r.2 })
  | some p => (some p, ⟨r.2, Function.update c.held p (some n)⟩)

def Client.step (c : Client) : Op → Option (Option ℕ × Client)
  | .malloc size => (memMalloc c.heap size).map (c.given size.toNat)
  | .calloc count size => (memCalloc c.heap count size).map (c.given (count.toNat * size.toNat))
  | .free p => (memFree c.heap (some p)).map fun h => (none, ⟨h, Function.update c.held p none⟩)
  | .trim p newsize => (memTrim c.heap p newsize).map (c.given newsize.toNat)
  | .write i b => some (none, { c with heap := { c.heap with ram := Function.update c.heap.ram i b } })

/- The octets held. -/
def Owns (held : ℕ → Option ℕ) (i : ℕ) : Prop := ∃ p n, held p = some n ∧ p ≤ i ∧ i < p + n

/- What a program may do. Sizes that mem_size_t can align, blocks that it holds. -/
def Allowed (held : ℕ → Option ℕ) : Op → Prop
  | .malloc size => size.toNat ≤ 65532
  | .calloc count size => count.toNat * size.toNat ≤ 65532
  | .free p => ∃ n, held p = some n
  | .trim p newsize => ∃ n, held p = some n ∧ newsize.toNat ≤ n
  | .write i _ => Owns held i

/-! ### What the heap is for -/

structure Store where
  held : ℕ → Option ℕ
  octet : ℕ → BitVec 8

def Client.store (c : Client) : Store := ⟨c.held, c.heap.ram⟩

/- Octets that are held before and after are the same. -/
def Keeps (s s' : Store) : Prop := ∀ i, Owns s.held i → Owns s'.held i → s'.octet i = s.octet i

/- New space for `n` octets: aligned, in the heap, and none of it held. -/
structure Fresh (s : Store) (p n : ℕ) : Prop where
  aligned : p % MEM_ALIGNMENT = 0
  below : p + n ≤ MEM_SIZE_ALIGNED
  new : s.held p = none
  apart : ∀ i, p ≤ i → i < p + n → ¬ Owns s.held i

inductive Store.Step : Store → Op → Option ℕ → Store → Prop
  | null {s s' : Store} {op : Op} : (∃ size, op = .malloc size) ∨ (∃ count size, op = .calloc count size) →
      s'.held = s.held → Keeps s s' → Step s op none s'
  | malloc {s s' : Store} {size : MemSize} {p : ℕ} : Fresh s p size.toNat →
      s'.held = Function.update s.held p (some size.toNat) → Keeps s s' → Step s (.malloc size) (some p) s'
  | calloc {s s' : Store} {count size : MemSize} {p : ℕ} : Fresh s p (count.toNat * size.toNat) →
      s'.held = Function.update s.held p (some (count.toNat * size.toNat)) → Keeps s s' →
      (∀ i, p ≤ i → i < p + count.toNat * size.toNat → s'.octet i = 0) → Step s (.calloc count size) (some p) s'
  | free {s s' : Store} {p : ℕ} : s'.held = Function.update s.held p none → Keeps s s' → Step s (.free p) none s'
  | trim {s s' : Store} {p : ℕ} {newsize : MemSize} : s'.held = Function.update s.held p (some newsize.toNat) →
      Keeps s s' → Step s (.trim p newsize) (some p) s'
  | write {s : Store} {i : ℕ} {b : BitVec 8} : Step s (.write i b) none { s with octet := Function.update s.octet i b }

/-! ### The blocks a program holds -/

/- Every block in use is held, and has room for what was asked for. -/
structure Owned (held : ℕ → Option ℕ) (blocks : List (ℕ × ℕ)) : Prop where
  block : ∀ p n, held p = some n → ∃ s l, (s, l) ∈ blocks ∧ p = s + SIZEOF_STRUCT_MEM ∧ n + SIZEOF_STRUCT_MEM ≤ l
  held : ∀ s l, (s, l) ∈ blocks → ∃ n, held (s + SIZEOF_STRUCT_MEM) = some n

section Owned
variable {held : ℕ → Option ℕ} {tiles : List Tile} {A B : List (ℕ × ℕ)} {s l n i : ℕ}

theorem mem_middle {a b : ℕ × ℕ} : a ∈ A ++ b :: B ↔ a = b ∨ a ∈ A ++ B := by
  rw [List.mem_append, List.mem_append, List.mem_cons]
  tauto

theorem Owned.data (ho : Owned held (spans 0 tiles)) (hi : Owns held i) : Data tiles i := by
  obtain ⟨p, n, hp, hfrom, hto⟩ := hi
  obtain ⟨s, l, hs, rfl, hl⟩ := ho.block p n hp
  exact ⟨(s, l), hs, hfrom, by show i < s + l; omega⟩

/- A block more. -/
theorem Owned.insert (ho : Owned held (A ++ B)) (hn : n + SIZEOF_STRUCT_MEM ≤ l) :
    Owned (Function.update held (s + SIZEOF_STRUCT_MEM) (some n)) (A ++ (s, l) :: B) := by
  constructor
  · intro p m hp
    by_cases heq : p = s + SIZEOF_STRUCT_MEM
    · rw [heq, Function.update_self] at hp
      cases hp
      exact ⟨s, l, mem_middle.mpr (.inl rfl), heq, hn⟩
    · rw [Function.update_of_ne heq] at hp
      obtain ⟨s', l', hs', hat, hl'⟩ := ho.block p m hp
      exact ⟨s', l', mem_middle.mpr (.inr hs'), hat, hl'⟩
  · intro s' l' hs'
    by_cases heq : s' + SIZEOF_STRUCT_MEM = s + SIZEOF_STRUCT_MEM
    · exact ⟨n, by rw [heq, Function.update_self]⟩
    · rcases mem_middle.mp hs' with h | h
      · cases h
        exact (heq rfl).elim
      · rw [Function.update_of_ne heq]
        exact ho.held s' l' h

/- A block less. -/
theorem Owned.remove (ho : Owned held (A ++ (s, l) :: B)) (hne : ∀ a ∈ A ++ B, a.1 ≠ s) :
    Owned (Function.update held (s + SIZEOF_STRUCT_MEM) none) (A ++ B) := by
  constructor
  · intro p m hp
    by_cases heq : p = s + SIZEOF_STRUCT_MEM
    · rw [heq, Function.update_self] at hp
      cases hp
    · rw [Function.update_of_ne heq] at hp
      obtain ⟨s', l', hs', rfl, hl'⟩ := ho.block p m hp
      rcases mem_middle.mp hs' with h | h
      · cases h
        exact (heq rfl).elim
      · exact ⟨s', l', h, rfl, hl'⟩
  · intro s' l' hs'
    have hs : s' ≠ s := hne (s', l') hs'
    rw [Function.update_of_ne (by omega)]
    exact ho.held s' l' (mem_middle.mpr (.inr hs'))

end Owned

/- What the program holds is what is in use. -/
structure Sound (c : Client) (tiles : List Tile) : Prop where
  holds : Holds c.heap tiles
  owned : Owned c.held (spans 0 tiles)

section Sound
variable {h : Heap} {c : Client} {tiles xs ys : List Tile} {n size : ℕ}

theorem Linked.headers {ram ram' : Memory} {prev start : ℕ} (hlinked : Linked ram prev start tiles)
    (hsame : ∀ us t vs, tiles = us ++ t :: vs → readMem ram' (start + total us) = readMem ram (start + total us)) :
    Linked ram' prev start tiles := by
  induction tiles generalizing prev start with
  | nil => trivial
  | cons t tiles ih =>
    refine ⟨(hsame [] t tiles rfl).trans hlinked.1, ih hlinked.2 fun us s vs hsplit => ?_⟩
    have hrest := hsame (t :: us) s vs (by rw [hsplit]; rfl)
    rw [Nat.add_assoc]
    exact hrest

/- Writing where the blocks in use have their data. -/
theorem Holds.write (hh : Holds h tiles) {ram : Memory} (hsame : ∀ i, ¬ Data tiles i → ram i = h.ram i) :
    Holds ⟨ram, h.lfree⟩ tiles := by
  refine ⟨hh.laid, hh.linked.headers ?_, hh.lowest, ?_⟩
  · intro us t vs hsplit
    rw [Nat.zero_add]
    refine readMem_congr fun i hfrom hto => hsame i fun hi => ?_
    rw [hsplit] at hi
    have hapart := hi.apart
    omega
  · show (readMem ram ramEnd).used = 1
    rw [readMem_congr fun i hfrom _ => hsame i fun ⟨a, ha, _, hto⟩ => ?_, hh.last]
    have hbound := (spans_bounds ha).2
    rw [hh.laid.total_eq] at hbound
    unfold ramEnd at hfrom
    omega

theorem spans_len (hh : Holds h tiles) {a : ℕ × ℕ} (ha : a ∈ spans 0 tiles) : 20 ≤ a.2 ∧ a.2 % 4 = 0 := by
  obtain ⟨xs, ys, rfl, -⟩ := spans_split ha
  obtain ⟨-, hlen, -⟩ := lens_around.mp hh.laid.lens
  exact hlen

/- Blocks start at different places. -/
theorem spans_start_ne (hh : Holds h tiles) {A B : List (ℕ × ℕ)} {s l : ℕ} (hspans : spans 0 tiles = A ++ (s, l) :: B) :
    ∀ a ∈ A ++ B, a.1 ≠ s := by
  have hapart := spans_apart 0 tiles
  have hlen {a : ℕ × ℕ} (ha : a ∈ A ++ (s, l) :: B) : 20 ≤ a.2 := (spans_len hh (hspans ▸ ha)).1
  rw [hspans, List.pairwise_append, List.pairwise_cons] at hapart
  intro a ha
  have hpos := hlen (mem_middle.mpr (.inr ha))
  have hself := hlen (mem_middle.mpr (.inl rfl))
  rcases List.mem_append.mp ha with h | h
  · have hle := hapart.2.2 a h (s, l) (List.mem_cons_self ..)
    dsimp only at hle
    omega
  · have hle := hapart.2.1.1 a h
    dsimp only at hle hself
    omega

theorem spans_carve (xs : List Tile) (hsize : MIN_SIZE_ALIGNED ≤ size) (haligned : size % 4 = 0) (hn : BlockLen n)
    (hfits : size + SIZEOF_STRUCT_MEM ≤ n) (ys : List Tile) :
    ∃ l, size + SIZEOF_STRUCT_MEM ≤ l ∧ l ≤ n ∧
      spans 0 (xs ++ (carve size n ++ ys)) = spans 0 xs ++ (total xs, l) :: spans (total xs + n) ys := by
  rcases carve_lens hsize haligned hn with ⟨hwhole, -⟩ | ⟨m, -, -, rfl, hcut⟩
  · refine ⟨n, hfits, Nat.le_refl _, ?_⟩
    rw [hwhole]
    show spans 0 (xs ++ ⟨true, n⟩ :: ys) = _
    rw [spans_around, Nat.zero_add]
  · refine ⟨_, Nat.le_refl _, Nat.le_add_right _ _, ?_⟩
    rw [hcut, ← Nat.add_assoc]
    exact spans_shrunk _ _ ys

theorem blockSize_ge {size : MemSize} (hsize : size.toNat ≤ 65532) : size.toNat ≤ blockSize size := by
  rw [blockSize_eq]
  unfold MIN_SIZE_ALIGNED
  split_ifs
  · omega
  · omega

/- A block given out: new for the program, and the others as before. -/
structure Given (c : Client) (tiles : List Tile) (n p : ℕ) (h : Heap) (tiles' : List Tile) : Prop where
  fresh : Fresh c.store p n
  sound : Sound ⟨h, Function.update c.held p (some n)⟩ tiles'
  same : ∀ i, Data tiles i → h.ram i = c.heap.ram i
  data : ∀ i, p ≤ i → i < p + n → Data tiles' i

theorem Sound.malloc (hs : Sound c tiles) {size : MemSize} (hsize : size.toNat ≤ 65532) :
    memMalloc c.heap size = some (none, c.heap) ∨
      ∃ p h tiles', memMalloc c.heap size = some (some p, h) ∧ Given c tiles size.toNat p h tiles' := by
  obtain ⟨hmin, haligned⟩ := blockSize_facts size
  have hge := blockSize_ge hsize
  rcases memMalloc_spec hs.holds size with ⟨xs, n, ys, h, rfl, -, hgiven, heq⟩ | ⟨-, hnull⟩
  case inr => exact .inl hnull
  right
  have ha := hs.holds.at
  have hstart := total_aligned ha.frontLens
  have hsum : total xs + n + total ys = MEM_SIZE_ALIGNED := ha.sum
  have hn : 20 ≤ n := ha.len
  obtain ⟨l, hl, hln, hspans⟩ := spans_carve xs hmin haligned (lens_around.mp hs.holds.laid.lens).2.1 hgiven.fits ys
  have hold : spans 0 (xs ++ ⟨false, n⟩ :: ys) = spans 0 xs ++ spans (total xs + n) ys := by
    rw [spans_around_free, Nat.zero_add]
  have howned := hs.owned
  rw [hold] at howned
  have hfits := hgiven.fits
  -- no block in use reaches into the free one
  have hclear {i : ℕ} (hi : Data (xs ++ ⟨false, n⟩ :: ys) i) : i < total xs ∨ total xs + n + 8 ≤ i := by
    have hfront := hi.apart
    have hsplit : xs ++ ⟨false, n⟩ :: ys = xs ++ [⟨false, n⟩] ++ ys := by
      rw [List.append_assoc]
      rfl
    obtain ⟨a, ha, hfrom, hto⟩ := hi
    rw [hold, List.mem_append] at ha
    unfold SIZEOF_STRUCT_MEM at hfrom
    rcases ha with ha | ha
    · have hbound := spans_bounds ha
      omega
    · have hbound := spans_bounds ha
      omega
  unfold SIZEOF_STRUCT_MEM at hfits hl
  refine ⟨total xs + SIZEOF_STRUCT_MEM, h, _, heq, ⟨⟨?_, ?_, ?_, ?_⟩, ⟨hgiven.holds, ?_⟩, ?_, ?_⟩⟩
  · unfold SIZEOF_STRUCT_MEM MEM_ALIGNMENT
    omega
  · unfold SIZEOF_STRUCT_MEM
    omega
  · cases hheld : c.held (total xs + SIZEOF_STRUCT_MEM) with
    | none => exact hheld
    | some m =>
      obtain ⟨s, l', hmem, hat, -⟩ := hs.owned.block _ m hheld
      have hlen := (spans_len hs.holds hmem).1
      have hsame : s = total xs := by
        unfold SIZEOF_STRUCT_MEM at hat
        omega
      have hdata := hclear ⟨(s, l'), hmem, Nat.le_refl _, by unfold SIZEOF_STRUCT_MEM; dsimp only at *; omega⟩
      unfold SIZEOF_STRUCT_MEM at hdata
      dsimp only at hdata
      omega
  · intro i hfrom hto howns
    have hdata := hclear (hs.owned.data howns)
    unfold SIZEOF_STRUCT_MEM at hfrom hto
    omega
  · show Owned _ (spans 0 (xs ++ (carve (blockSize size) n ++ ys)))
    rw [hspans]
    exact howned.insert (by unfold SIZEOF_STRUCT_MEM; omega)
  · intro i hi
    rw [hgiven.ram]
    have hdata := hclear hi
    exact takeBlock_ne hs.holds (by omega) (by omega)
  · intro i hfrom hto
    refine ⟨(total xs, l), ?_, hfrom, ?_⟩
    · rw [hspans]
      exact mem_middle.mpr (.inl rfl)
    · unfold SIZEOF_STRUCT_MEM at hto
      dsimp only
      omega

theorem Sound.held_split (hs : Sound c tiles) {p m : ℕ} (hp : c.held p = some m) :
    ∃ xs l ys, tiles = xs ++ ⟨true, l⟩ :: ys ∧ p = total xs + SIZEOF_STRUCT_MEM ∧ m + SIZEOF_STRUCT_MEM ≤ l ∧ l % 4 = 0 ∧
      20 ≤ l := by
  obtain ⟨s, l, hmem, rfl, hl⟩ := hs.owned.block p m hp
  obtain ⟨hlen, haligned⟩ := spans_len hs.holds hmem
  obtain ⟨xs, ys, rfl, hat⟩ := spans_split hmem
  rw [Nat.zero_add] at hat
  exact ⟨xs, l, ys, rfl, by rw [← hat], hl, haligned, hlen⟩

theorem Sound.free (hs : Sound c tiles) {p m : ℕ} (hp : c.held p = some m) :
    ∃ h tiles', memFree c.heap (some p) = some h ∧ Sound ⟨h, Function.update c.held p none⟩ tiles' ∧
      ∀ i, Data tiles' i → h.ram i = c.heap.ram i := by
  obtain ⟨xs, l, ys, rfl, rfl, -⟩ := hs.held_split hp
  obtain ⟨h, hfree, hholds, hkeep⟩ := memFree_spec hs.holds
  have hspans : spans 0 (xs ++ ⟨true, l⟩ :: ys) = spans 0 xs ++ (total xs, l) :: spans (total xs + l) ys := by
    rw [spans_around, Nat.zero_add]
  have howned := hs.owned
  rw [hspans] at howned
  refine ⟨h, _, hfree, ⟨hholds, ?_⟩, hkeep⟩
  show Owned _ (spans 0 (release xs l ys))
  rw [spans_release, Nat.zero_add]
  exact howned.remove (spans_start_ne hs.holds hspans)

theorem Sound.trim (hs : Sound c tiles) {p m : ℕ} (hp : c.held p = some m) {newsize : MemSize} (hle : newsize.toNat ≤ m) :
    ∃ h tiles', memTrim c.heap p newsize = some (some p, h) ∧
      Sound ⟨h, Function.update c.held p (some newsize.toNat)⟩ tiles' ∧ ∀ i, Data tiles' i → h.ram i = c.heap.ram i := by
  obtain ⟨xs, l, ys, rfl, rfl, hm, haligned, hlen⟩ := hs.held_split hp
  have ha := hs.holds.at
  have hsum : total xs + l + total ys = MEM_SIZE_ALIGNED := ha.sum
  have hmax : MEM_SIZE_ALIGNED ≤ 65532 := by decide
  unfold SIZEOF_STRUCT_MEM at hm
  have hge := @blockSize_ge newsize (by omega)
  have hfits : blockSize newsize + SIZEOF_STRUCT_MEM ≤ l := by
    rw [blockSize_eq]
    unfold SIZEOF_STRUCT_MEM MIN_SIZE_ALIGNED
    split_ifs
    · omega
    · omega
  obtain ⟨h, tiles', n', htrim, hholds, hn', -, hspans', hkeep⟩ := memTrim_spec hs.holds newsize hfits
  have hspans : spans 0 (xs ++ ⟨true, l⟩ :: ys) = spans 0 xs ++ (total xs, l) :: spans (total xs + l) ys := by
    rw [spans_around, Nat.zero_add]
  have howned := hs.owned
  rw [hspans] at howned
  have hwithout := howned.remove (spans_start_ne hs.holds hspans)
  have hwith := @Owned.insert _ _ _ (total xs) n' newsize.toNat hwithout (by unfold SIZEOF_STRUCT_MEM at *; omega)
  rw [Function.update_idem] at hwith
  refine ⟨h, tiles', htrim, ⟨hholds, ?_⟩, hkeep⟩
  show Owned _ (spans 0 tiles')
  rw [hspans']
  exact hwith

theorem keeps_of_data {s s' : Store} (ho : Owned s.held (spans 0 tiles)) (hsame : ∀ i, Data tiles i → s'.octet i = s.octet i) :
    Keeps s s' := fun i hi _ => hsame i (ho.data hi)

theorem keeps_of_data' {s s' : Store} (ho : Owned s'.held (spans 0 tiles))
    (hsame : ∀ i, Data tiles i → s'.octet i = s.octet i) : Keeps s s' := fun i _ hi => hsame i (ho.data hi)

theorem memset_in {ram : Memory} {p n i : ℕ} (hfrom : p ≤ i) (hto : i < p + n) : memset ram p n i = 0 :=
  if_pos ⟨hfrom, hto⟩

theorem memset_out {ram : Memory} {p n i : ℕ} (h : ¬ (p ≤ i ∧ i < p + n)) : memset ram p n i = ram i := if_neg h

/- One step: no assertion fails, and the heap does what a store of octets does. -/
theorem Sound.step (hs : Sound c tiles) {op : Op} (hop : Allowed c.held op) :
    ∃ r c' tiles', c.step op = some (r, c') ∧ Sound c' tiles' ∧ c.store.Step op r c'.store := by
  cases op with
  | malloc size =>
    rcases hs.malloc hop with hnull | ⟨p, h, tiles', hgiven, hp⟩
    · refine ⟨none, c, tiles, ?_, hs, .null (.inl ⟨size, rfl⟩) rfl fun i _ _ => rfl⟩
      show (memMalloc c.heap size).map _ = _
      rw [hnull]
      rfl
    · refine ⟨some p, _, tiles', ?_, hp.sound, .malloc hp.fresh rfl (keeps_of_data hs.owned hp.same)⟩
      show (memMalloc c.heap size).map _ = _
      rw [hgiven]
      rfl
  | calloc count size =>
    have hproduct : (count * size).toNat = count.toNat * size.toNat := by
      have hle : count.toNat * size.toNat ≤ 65532 := hop
      rw [BitVec.toNat_mul]
      exact Nat.mod_eq_of_lt (by omega)
    have hsmall : (count * size).toNat ≤ 65532 := by
      rw [hproduct]
      exact hop
    rcases hs.malloc hsmall with hnull | ⟨p, h, tiles', hgiven, hp⟩
    · refine ⟨none, c, tiles, ?_, hs, .null (.inr ⟨count, size, rfl⟩) rfl fun i _ _ => rfl⟩
      show ((memMalloc c.heap (count * size)).map _).map _ = _
      rw [hnull]
      rfl
    · rw [hproduct] at hp
      have hout {i : ℕ} (hi : ¬ Data tiles' i) : memset h.ram p (count.toNat * size.toNat) i = h.ram i :=
        memset_out fun hin => hi (hp.data i hin.1 hin.2)
      refine ⟨some p, ⟨⟨memset h.ram p (count.toNat * size.toNat), h.lfree⟩, _⟩, tiles', ?_,
        ⟨hp.sound.holds.write fun i hi => hout hi, hp.sound.owned⟩, .calloc hp.fresh rfl ?_ fun i hfrom hto => memset_in hfrom hto⟩
      · show ((memMalloc c.heap (count * size)).map _).map _ = _
        rw [hgiven]
        rfl
      · intro i howns _
        show memset h.ram p (count.toNat * size.toNat) i = c.heap.ram i
        rw [memset_out fun hin => hp.fresh.apart i hin.1 hin.2 howns]
        exact hp.same i (hs.owned.data howns)
  | free p =>
    obtain ⟨m, hp⟩ := hop
    obtain ⟨h, tiles', hfree, hsound, hkeep⟩ := hs.free hp
    refine ⟨none, _, tiles', ?_, hsound, .free rfl (keeps_of_data' hsound.owned hkeep)⟩
    show (memFree c.heap (some p)).map _ = _
    rw [hfree]
    rfl
  | trim p newsize =>
    obtain ⟨m, hp, hle⟩ := hop
    obtain ⟨h, tiles', htrim, hsound, hkeep⟩ := hs.trim hp hle
    refine ⟨some p, _, tiles', ?_, hsound, .trim rfl (keeps_of_data' hsound.owned hkeep)⟩
    show (memTrim c.heap p newsize).map _ = _
    rw [htrim]
    rfl
  | write i b =>
    refine ⟨none, _, tiles, rfl, ⟨hs.holds.write fun j hj => ?_, hs.owned⟩, .write⟩
    have hne : j ≠ i := by
      rintro rfl
      exact hj (hs.owned.data hop)
    exact Function.update_of_ne hne b c.heap.ram

end Sound

/-! ### Whole runs -/

/- What a program can come to from mem_init on. -/
inductive Reach : Client → Prop
  | init (ram : Memory) : Reach ⟨memInit ram, fun _ => none⟩
  | step {c c' : Client} {op : Op} {r : Option ℕ} : Reach c → Allowed c.held op → c.step op = some (r, c') → Reach c'

theorem Reach.sound {c : Client} (hc : Reach c) : ∃ tiles, Sound c tiles := by
  induction hc with
  | init ram =>
    refine ⟨_, memInit_holds ram, ⟨fun p n hp => (by cases hp), fun s l hs => ?_⟩⟩
    have hnil : (s, l) ∈ ([] : List (ℕ × ℕ)) := hs
    cases hnil
  | step _ hop hstep ih =>
    obtain ⟨tiles, hs⟩ := ih
    obtain ⟨r', c'', tiles', heq, hs', -⟩ := hs.step hop
    rw [hstep] at heq
    cases heq
    exact ⟨tiles', hs'⟩

/-- Whatever a program has done with the heap: what it does next is answered, no assertion
fails and no search runs on, and the heap does what a store of octets does. -/
theorem heap_store {c : Client} (hc : Reach c) {op : Op} (hop : Allowed c.held op) :
    ∃ r c', c.step op = some (r, c') ∧ c.store.Step op r c'.store := by
  obtain ⟨tiles, hs⟩ := hc.sound
  obtain ⟨r, c', -, hstep, -, hspec⟩ := hs.step hop
  exact ⟨r, c', hstep, hspec⟩

/- What a call leaves. -/
def Client.next (c : Client) (op : Op) : Client := ((c.step op).map Prod.snd).getD c

theorem Reach.next {c : Client} (hc : Reach c) (op : Op) {r : Option ℕ} (hop : Allowed c.held op)
    (hcall : (c.step op).map Prod.fst = some r) : Reach (c.next op) := by
  obtain ⟨⟨r, c'⟩, hstep, -⟩ := Option.map_eq_some_iff.mp hcall
  have hnext : c.next op = c' := by
    unfold Client.next
    rw [hstep]
    rfl
  rw [hnext]
  exact hc.step hop hstep

/- Two blocks, of which the first is freed: a gap below the other one. -/
def initial : Client := ⟨memInit fun _ => 0, fun _ => none⟩

def twoHeld : Client := (initial.next (.malloc 100)).next (.malloc 200)

def gapped : Client := twoHeld.next (.free 8)

theorem twoHeld_reach : Reach twoHeld :=
  ((Reach.init fun _ => 0).next (.malloc 100) (by decide : (100 : MemSize).toNat ≤ 65532) rfl).next (.malloc 200)
    (by decide : (200 : MemSize).toNat ≤ 65532) rfl

theorem gapped_reach : Reach gapped := twoHeld_reach.next (.free 8) ⟨100, rfl⟩ rfl

theorem heap_store_gapped : ∃ r c', gapped.step (.calloc 5 20) = some (r, c') ∧
    gapped.store.Step (.calloc 5 20) r c'.store :=
  heap_store gapped_reach (by decide : (5 : MemSize).toNat * (20 : MemSize).toNat ≤ 65532)

/- The size rounded up to whole words, not below MIN_SIZE. -/
def rounded (size : MemSize) : ℕ := max MIN_SIZE_ALIGNED ((size.toNat + 3) / 4 * 4)

theorem blockSize_rounded {size : MemSize} (hsize : size.toNat ≤ 65532) : blockSize size = rounded size := by
  rw [blockSize_eq]
  unfold rounded
  rw [Nat.mod_eq_of_lt (by omega)]
  split_ifs with hshort
  · exact (Nat.max_eq_left (Nat.le_of_lt hshort)).symm
  · exact (Nat.max_eq_right (Nat.le_of_not_lt hshort)).symm

/- What mem_size_t cannot align becomes 0. -/
theorem blockSize_wraps {size : MemSize} (hsize : 65532 < size.toNat) : blockSize size = MIN_SIZE_ALIGNED := by
  have hlt := size.isLt
  have hzero : (size.toNat + 3) / 4 * 4 % 65536 = 0 := by omega
  rw [blockSize_eq, hzero]
  rfl

/- `n` octets in a row that no block in use has. -/
def Gap (tiles : List Tile) (n : ℕ) : Prop :=
  ∃ g, g + n ≤ MEM_SIZE_ALIGNED ∧ ∀ a ∈ spans 0 tiles, a.1 + a.2 ≤ g ∨ g + n ≤ a.1

theorem Sound.malloc_null {c : Client} {tiles : List Tile} (hs : Sound c tiles) (size : MemSize) :
    memMalloc c.heap size = some (none, c.heap) ↔ size = 0 ∨ ¬ Gap tiles (blockSize size + SIZEOF_STRUCT_MEM) := by
  rcases memMalloc_spec hs.holds size with ⟨xs, n, ys, h, rfl, hne, hgiven, heq⟩ | ⟨hno, hnull⟩
  · rw [heq]
    refine ⟨fun hnull => (by cases hnull), fun hno => ?_⟩
    have ha := hs.holds.at
    have hsum : total xs + n + total ys = MEM_SIZE_ALIGNED := ha.sum
    have hfits := hgiven.fits
    refine (hno.resolve_left hne ⟨total xs, by omega, fun a ha => ?_⟩).elim
    rw [spans_around_free, Nat.zero_add, List.mem_append] at ha
    rcases ha with ha | ha
    · have hbound := spans_bounds ha
      omega
    · have hbound := spans_bounds ha
      omega
  · refine ⟨fun _ => hno.imp_right fun hunfit ⟨g, hg, hgap⟩ => ?_, fun _ => hnull⟩
    have hpos : 0 < blockSize size + SIZEOF_STRUCT_MEM := Nat.lt_of_lt_of_le (by decide) (Nat.le_add_left _ _)
    rw [← hs.holds.laid.total_eq, ← Nat.zero_add (total tiles)] at hg
    obtain ⟨t, ht, hfree, hlen⟩ := gap_in_tile hs.holds.laid.parted hpos (Nat.zero_le g) hg hgap
    rcases hunfit t ht with htaken | hshort
    · rw [hfree] at htaken
      cases htaken
    · omega

/-- mem_malloc fails only where it must: nowhere between the blocks in use is there room for
the block, header included. The last three sizes are rounded to nothing and get the smallest one. -/
theorem heap_malloc_null {c : Client} (hc : Reach c) : ∃ tiles, Sound c tiles ∧ ∀ size : MemSize,
    (size.toNat ≤ 65532 → (memMalloc c.heap size = some (none, c.heap) ↔
      size = 0 ∨ ¬ Gap tiles (rounded size + SIZEOF_STRUCT_MEM))) ∧
    (65532 < size.toNat → (memMalloc c.heap size = some (none, c.heap) ↔
      ¬ Gap tiles (MIN_SIZE_ALIGNED + SIZEOF_STRUCT_MEM))) := by
  obtain ⟨tiles, hs⟩ := hc.sound
  refine ⟨tiles, hs, fun size => ⟨fun hsize => ?_, fun hsize => ?_⟩⟩
  · rw [← blockSize_rounded hsize]
    exact hs.malloc_null size
  · have hne : size ≠ 0 := by
      rintro rfl
      exact absurd hsize (by decide)
    rw [← blockSize_wraps hsize, hs.malloc_null size]
    exact or_iff_right hne

theorem heap_malloc_null_gapped : ∃ tiles, Sound gapped tiles ∧
    (memMalloc gapped.heap 40960 = some (none, gapped.heap) ↔ ¬ Gap tiles (40960 + SIZEOF_STRUCT_MEM)) := by
  obtain ⟨tiles, hs, hnull⟩ := heap_malloc_null gapped_reach
  exact ⟨tiles, hs, ((hnull 40960).1 (by decide)).trans (or_iff_right (by decide))⟩

/-- Once nothing is held any more the heap is whole again. -/
theorem heap_whole {c : Client} (hc : Reach c) (hnone : ∀ p, c.held p = none) (size : MemSize) :
    (∃ h, memMalloc c.heap size = some (some SIZEOF_STRUCT_MEM, h)) ↔
      size ≠ 0 ∧ (rounded size + SIZEOF_STRUCT_MEM ≤ MEM_SIZE_ALIGNED ∨ 65532 < size.toNat) := by
  obtain ⟨tiles, hs⟩ := hc.sound
  have hspans : spans 0 tiles = [] := by
    cases hlist : spans 0 tiles with
    | nil => rfl
    | cons a rest =>
      obtain ⟨n, hn⟩ := hs.owned.held a.1 a.2 (by rw [hlist]; exact List.mem_cons_self ..)
      rw [hnone] at hn
      cases hn
  have hne : tiles ≠ [] := by
    rintro rfl
    exact absurd hs.holds.laid.total_eq (by decide)
  have hsingle := single_of_spans hs.holds.laid.parted hspans hne
  rw [hs.holds.laid.total_eq] at hsingle
  have hroom : rounded size + SIZEOF_STRUCT_MEM ≤ MEM_SIZE_ALIGNED ∨ 65532 < size.toNat ↔
      blockSize size + SIZEOF_STRUCT_MEM ≤ MEM_SIZE_ALIGNED := by
    rcases Nat.lt_or_ge 65532 size.toNat with hlong | hshort
    · rw [blockSize_wraps hlong]
      exact ⟨fun _ => (by decide), fun _ => .inr hlong⟩
    · rw [blockSize_rounded hshort]
      exact or_iff_left (Nat.not_lt.mpr hshort)
  rw [hroom]
  rcases memMalloc_spec hs.holds size with ⟨xs, n, ys, h, hsplit, hsize, hgiven, heq⟩ | ⟨hno, hnull⟩
  · rw [hsingle] at hsplit
    cases xs with
    | nil =>
      cases hsplit
      rw [heq]
      exact ⟨fun _ => ⟨hsize, hgiven.fits⟩, fun _ => ⟨h, rfl⟩⟩
    | cons t xs =>
      have hlen : 1 = xs.length + 1 + (ys.length + 1) := by
        have hsame := congrArg List.length hsplit
        rw [List.length_append] at hsame
        exact hsame
      omega
  · rw [hnull]
    refine ⟨fun ⟨h, hsome⟩ => (by cases hsome), fun hfits => ?_⟩
    have hunfit := hno.resolve_left hfits.1 ⟨false, MEM_SIZE_ALIGNED⟩ (by rw [hsingle]; exact List.mem_cons_self ..)
    rcases hunfit with h | h
    · cases h
    · exact absurd hfits.2 (Nat.not_le.mpr h)

/- Both blocks are given back. -/
def returned : Client := gapped.next (.free 116)

theorem returned_reach : Reach returned := gapped_reach.next (.free 116) ⟨200, rfl⟩ rfl

theorem returned_held (p : ℕ) : returned.held p = none := by
  have hheld : returned.held = Function.update (Function.update (Function.update (Function.update (fun _ => none)
    8 (some 100)) 116 (some 200)) 8 none) 116 none := rfl
  rw [hheld]
  by_cases hupper : p = 116
  · rw [hupper, Function.update_self]
  rw [Function.update_of_ne hupper]
  by_cases hlower : p = 8
  · rw [hlower, Function.update_self]
  rw [Function.update_of_ne hlower, Function.update_of_ne hupper, Function.update_of_ne hlower]

theorem heap_whole_returned : ∃ h, memMalloc returned.heap 40952 = some (some SIZEOF_STRUCT_MEM, h) :=
  (heap_whole returned_reach returned_held 40952).mpr ⟨by decide, .inl (by decide)⟩

/-- mem_calloc counts the octets to clear without truncation: the heap outlasts a call that
gives out a block if and only if the product fits; else its end is wiped. -/
theorem memCalloc_intact {c : Client} (hc : Reach c) {count size : MemSize} {p : ℕ} {h : Heap}
    (hcalloc : memCalloc c.heap count size = some (some p, h)) :
    ((∃ tiles, Holds h tiles) ↔ count.toNat * size.toNat ≤ 65532) ∧
      (65532 < count.toNat * size.toNat → readMem h.ram ramEnd = ⟨0, 0, 0⟩) := by
  obtain ⟨tiles, hs⟩ := hc.sound
  have hwiped : 65532 < count.toNat * size.toNat → readMem h.ram ramEnd = ⟨0, 0, 0⟩ := by
    intro hbig
    obtain ⟨⟨q, h₀⟩, hmalloc, hset⟩ := Option.map_eq_some_iff.mp hcalloc
    rcases memMalloc_spec hs.holds (count * size) with ⟨xs, n, ys, h₁, rfl, -, hgiven, heq⟩ | ⟨-, hnull⟩
    · rw [heq] at hmalloc
      cases hmalloc
      cases hset
      have hsum : total xs + n + total ys = MEM_SIZE_ALIGNED := hs.holds.at.sum
      have hfits := hgiven.fits
      have hmax : MEM_SIZE_ALIGNED ≤ 60000 := by decide
      have hzero (i : ℕ) (hfrom : ramEnd ≤ i) (hto : i < ramEnd + 8) :
          memset h₀.ram (total xs + SIZEOF_STRUCT_MEM) (count.toNat * size.toNat) i = 0 :=
        memset_in (by unfold ramEnd at hfrom; omega) (by unfold ramEnd at hto; unfold SIZEOF_STRUCT_MEM; omega)
      dsimp only
      unfold readMem half
      rw [hzero _ (by omega) (by omega), hzero _ (by omega) (by omega), hzero _ (by omega) (by omega),
        hzero _ (by omega) (by omega), hzero _ (by omega) (by omega)]
      rfl
    · rw [hnull] at hmalloc
      cases hmalloc
      cases hset
  refine ⟨⟨fun ⟨tiles', hholds⟩ => ?_, fun hsmall => ?_⟩, hwiped⟩
  · by_contra hbig
    have hlast := hholds.last
    rw [hwiped (Nat.lt_of_not_le hbig)] at hlast
    exact absurd hlast (by decide)
  · obtain ⟨r, c', tiles', hstep, hsound, -⟩ := @Sound.step c tiles hs (.calloc count size) hsmall
    have hmap : (memCalloc c.heap count size).map (c.given (count.toNat * size.toNat)) = some (r, c') := hstep
    rw [hcalloc] at hmap
    cases hmap
    exact ⟨tiles', hsound.holds⟩

/- 256 objects of 257 octets: 256 octets are given out and 65792 cleared. -/
theorem memCalloc_intact_overrun :
    ∃ p h, memCalloc gapped.heap 256 257 = some (some p, h) ∧ (¬ ∃ tiles, Holds h tiles) ∧
      readMem h.ram ramEnd = ⟨0, 0, 0⟩ := by
  have hcalloc : ∃ p h, memCalloc gapped.heap 256 257 = some (some p, h) := ⟨_, _, rfl⟩
  obtain ⟨p, h, hcalloc⟩ := hcalloc
  obtain ⟨hintact, hwiped⟩ := memCalloc_intact gapped_reach hcalloc
  exact ⟨p, h, hcalloc, fun hholds => absurd (hintact.mp hholds) (by decide), hwiped (by decide)⟩

end MultiEmbedded.Ram
