import Mathlib.Data.Finset.Card
import Mathlib.Data.List.Basic
import Mathlib.Logic.Function.Basic
import Mathlib.Logic.Relation

/-!
# Chains of cells

A table says of each cell whether it is free, which cell follows it, or that none
does. Owners hold chains of cells; a cell belongs to at most one of them, and
every cell that is not free belongs to one.
-/

namespace MultiEmbedded.Chains

inductive Slot (α : Type*) where
  | free
  | next (a : α)
  | last
  deriving DecidableEq, Repr

variable {α ι : Type*} {t t' : α → Slot α} {a b c x y : α} {l r : List α}

inductive Chain (t : α → Slot α) : List α → Prop
  | last {a : α} (h : t a = .last) : Chain t [a]
  | next {a b : α} {l : List α} (h : t a = .next b) (rest : Chain t (b :: l)) : Chain t (a :: b :: l)

namespace Chain

theorem taken (h : Chain t l) (ha : a ∈ l) : t a ≠ .free := by
  induction h with
  | last h => simp_all
  | next h rest ih =>
    cases List.mem_cons.mp ha with
    | inl heq => simp [heq, h]
    | inr hmem => exact ih hmem

/-- The table decides how a chain goes on. -/
theorem unique (h : Chain t (a :: l)) (h' : Chain t (a :: r)) : l = r := by
  induction l generalizing a r with
  | nil =>
    cases h with | last hlast =>
    cases h' with
    | last => rfl
    | next hnext => simp [hlast] at hnext
  | cons b l ih =>
    cases h with | next hnext hrest =>
    cases h' with
    | last hlast => simp [hnext] at hlast
    | next hnext' hrest' =>
      have heq := Slot.next.inj (hnext.symm.trans hnext')
      subst heq
      rw [ih hrest hrest']

theorem suffix (h : Chain t (l ++ a :: r)) : Chain t (a :: r) := by
  induction l with
  | nil => exact h
  | cons b l ih =>
    cases l with
    | nil => cases h with | next _ hrest => exact hrest
    | cons d l => cases h with | next _ hrest => exact ih hrest

/-- A cell that came twice would be followed by rests of two lengths. -/
theorem nodup (h : Chain t l) : l.Nodup := by
  induction h with
  | last => simp
  | next hnext hrest ih =>
    rename_i a b l
    apply List.nodup_cons.mpr
    constructor
    · intro hmem
      obtain ⟨front, rear, hsplit⟩ := List.append_of_mem hmem
      have hagain : Chain t (a :: rear) := suffix (hsplit ▸ hrest)
      have heq := hagain.unique (.next hnext hrest)
      have hlen := congrArg List.length hsplit
      simp [heq] at hlen
      omega
    · exact ih

theorem congr (h : Chain t l) (hkeep : ∀ a ∈ l, t' a = t a) : Chain t' l := by
  induction h with
  | last h => exact .last ((hkeep _ (by simp)).trans h)
  | next h rest ih =>
    apply Chain.next ((hkeep _ (by simp)).trans h)
    apply ih
    intro d hd
    exact hkeep d (List.mem_cons_of_mem _ hd)

/-- A cell that no other follows is the end. -/
theorem ends (h : Chain t (l ++ a :: r)) (hlast : t a = .last) : r = [] := by
  cases h.suffix with
  | last => rfl
  | next hnext => simp [hlast] at hnext

theorem follows (h : Chain t (l ++ a :: r)) (hnext : t a = .next b) : ∃ r', r = b :: r' := by
  cases h.suffix with
  | last hlast => simp [hlast] at hnext
  | next hnext' =>
    have heq := Slot.next.inj (hnext.symm.trans hnext')
    exact ⟨_, by rw [heq]⟩

theorem grow (h : Chain t (l ++ [a])) (ha : t' a = .next b) (hb : t' b = .last)
    (hkeep : ∀ c ∈ l, t' c = t c) : Chain t' (l ++ [a, b]) := by
  induction l with
  | nil => exact .next ha (.last hb)
  | cons d l ih =>
    have hd := hkeep d (by simp)
    have hrest : ∀ c ∈ l, t' c = t c := fun c hc => hkeep c (List.mem_cons_of_mem _ hc)
    cases l with
    | nil => cases h with | next hnext hchain => exact .next (hd.trans hnext) (ih hchain hrest)
    | cons e l => cases h with | next hnext hchain => exact .next (hd.trans hnext) (ih hchain hrest)

theorem cut (h : Chain t (l ++ a :: r)) (ha : t' a = .last) (hkeep : ∀ c ∈ l, t' c = t c) :
    Chain t' (l ++ [a]) := by
  induction l with
  | nil => exact .last ha
  | cons d l ih =>
    have hd := hkeep d (by simp)
    have hrest : ∀ c ∈ l, t' c = t c := fun c hc => hkeep c (List.mem_cons_of_mem _ hc)
    cases l with
    | nil => cases h with | next hnext hchain => exact .next (hd.trans hnext) (ih hchain hrest)
    | cons e l => cases h with | next hnext hchain => exact .next (hd.trans hnext) (ih hchain hrest)

end Chain

/-! ### Following the links -/

/-- `x` can be reached from `a`. -/
def Reaches (t : α → Slot α) : α → α → Prop := Relation.ReflTransGen fun a b => t a = .next b

theorem reaches_iff (h : t a = .next b) : Reaches t a x ↔ x = a ∨ Reaches t b x := by
  constructor
  · intro hx
    cases Relation.ReflTransGen.cases_head hx with
    | inl heq => exact .inl heq.symm
    | inr hstep =>
      obtain ⟨d, hd, hrest⟩ := hstep
      have heq := Slot.next.inj (h.symm.trans hd)
      exact .inr (heq ▸ hrest)
  · intro hx
    cases hx with
    | inl heq => exact heq ▸ .refl
    | inr hrest => exact .head h hrest

theorem reaches_end (h : ∀ b, t a ≠ .next b) : Reaches t a x ↔ x = a := by
  constructor
  · intro hx
    cases Relation.ReflTransGen.cases_head hx with
    | inl heq => exact heq.symm
    | inr hstep =>
      obtain ⟨d, hd, _⟩ := hstep
      exact absurd hd (h d)
  · intro heq
    exact heq ▸ .refl

theorem Chain.reaches (h : Chain t (a :: l)) : Reaches t a x ↔ x ∈ a :: l := by
  induction l generalizing a with
  | nil => cases h with | last hlast => simp [reaches_end (t := t) (a := a) (by simp [hlast])]
  | cons b l ih => cases h with | next hnext hrest => simp [reaches_iff hnext, ih hrest]

/-- `t'` is `t` with the cells that can be reached from `a` freed. -/
def Freed (t : α → Slot α) (a : α) (t' : α → Slot α) : Prop :=
  ∀ x, (Reaches t a x → t' x = .free) ∧ (¬ Reaches t a x → t' x = t x)

/-! ### Owners -/

/-- Each owner holds nothing or one chain, and no cell is held twice. -/
structure Holds (t : α → Slot α) (files : ι → List α) : Prop where
  chained : ∀ i, files i ≠ [] → Chain t (files i)
  apart : ∀ i j a, a ∈ files i → a ∈ files j → i = j

/-- Every cell that is not free is held. -/
def Covers (t : α → Slot α) (files : ι → List α) : Prop := ∀ a, t a ≠ .free → ∃ i, a ∈ files i

variable {files : ι → List α} {i : ι}

theorem Holds.not_mem (h : Holds t files) (hfree : t a = .free) (j : ι) : a ∉ files j := by
  intro hmem
  exact (h.chained j (List.ne_nil_of_mem hmem)).taken hmem hfree

/-- One owner's chain becomes `l`, out of its own cells and free ones. -/
theorem Holds.change [DecidableEq ι] (h : Holds t files) (hchain : l ≠ [] → Chain t' l)
    (hsource : ∀ a ∈ l, a ∈ files i ∨ t a = .free)
    (hkeep : ∀ j, j ≠ i → ∀ a ∈ files j, t' a = t a) : Holds t' (Function.update files i l) := by
  have hforeign : ∀ j, j ≠ i → ∀ a ∈ l, a ∉ files j := by
    intro j hj a ha hmem
    cases hsource a ha with
    | inl hown => exact hj (h.apart j i a hmem hown)
    | inr hfree => exact h.not_mem hfree j hmem
  constructor
  · intro j hne
    by_cases hj : j = i
    · subst hj
      simp only [Function.update_self] at hne ⊢
      exact hchain hne
    · simp only [Function.update_of_ne hj] at hne ⊢
      exact (h.chained j hne).congr (hkeep j hj)
  · intro j k a hmemj hmemk
    by_cases hj : j = i
    · by_cases hk : k = i
      · rw [hj, hk]
      · rw [hj, Function.update_self] at hmemj
        rw [Function.update_of_ne hk] at hmemk
        exact absurd hmemk (hforeign k hk a hmemj)
    · rw [Function.update_of_ne hj] at hmemj
      by_cases hk : k = i
      · rw [hk, Function.update_self] at hmemk
        exact absurd hmemj (hforeign j hj a hmemk)
      · rw [Function.update_of_ne hk] at hmemk
        exact h.apart j k a hmemj hmemk

theorem Covers.change [DecidableEq ι] (h : Covers t files)
    (hcover : ∀ a, t' a ≠ .free → a ∈ l ∨ (a ∉ files i ∧ t a ≠ .free)) : Covers t' (Function.update files i l) := by
  intro a hused
  cases hcover a hused with
  | inl hmem => exact ⟨i, by simpa using hmem⟩
  | inr hother =>
    obtain ⟨j, hmem⟩ := h a hother.2
    have hj : j ≠ i := fun heq => hother.1 (heq ▸ hmem)
    exact ⟨j, by simpa [Function.update_of_ne hj] using hmem⟩

variable [DecidableEq α]

/-- Freeing a cell one came from loses none of the cells ahead, on a cycle either. -/
theorem reaches_update (h : t c = .next a) (hx : x ≠ c) :
    Reaches (Function.update t c .free) a x ↔ Reaches t a x := by
  constructor
  · intro hreach
    induction hreach with
    | refl => exact .refl
    | @tail y z _ hyz ih =>
      have hyc : y ≠ c := by
        intro heq
        simp [heq] at hyz
      apply Relation.ReflTransGen.tail (ih hyc)
      rwa [Function.update_of_ne hyc] at hyz
  · intro hreach
    induction hreach with
    | refl => exact .refl
    | @tail y z _ hyz ih =>
      by_cases hyc : y = c
      · have heq := Slot.next.inj (h.symm.trans (hyc ▸ hyz))
        exact heq ▸ .refl
      · apply Relation.ReflTransGen.tail (ih hyc)
        rwa [Function.update_of_ne hyc]

theorem freed_end (h : ∀ b, t a ≠ .next b) : Freed t a (Function.update t a .free) := by
  intro x
  simp only [reaches_end h]
  constructor
  · intro heq
    simp [heq]
  · intro hne
    exact Function.update_of_ne hne _ _

theorem freed_free (hfree : t a = .free) : Freed t a t := by
  have hend := freed_end (t := t) (a := a) (by simp [hfree])
  have hsame : Function.update t a .free = t := by
    rw [← hfree, Function.update_eq_self]
  rwa [hsame] at hend

theorem freed_same (h : Freed t a t') (hfree : t a = .free) : t' = t := by
  funext x
  have hx := h x
  rw [reaches_end (by simp [hfree])] at hx
  by_cases hxa : x = a
  · rw [hx.1 hxa, hxa, hfree]
  · exact hx.2 hxa

theorem freed_step (h : t a = .next b) (hrest : Freed (Function.update t a .free) b t') : Freed t a t' := by
  intro x
  rw [reaches_iff h]
  by_cases hxa : x = a
  · have hfree : t' x = .free := by
      by_cases hreach : Reaches (Function.update t a .free) b x
      · exact (hrest x).1 hreach
      · rw [(hrest x).2 hreach, hxa, Function.update_self]
    exact ⟨fun _ => hfree, fun hnot => absurd (.inl hxa) hnot⟩
  · have hx := hrest x
    rw [reaches_update h hxa, Function.update_of_ne hxa] at hx
    simpa [hxa] using hx

/-! ### How many cells are free -/

def freeCells (cells : Finset α) (t : α → Slot α) : ℕ := (cells.filter fun a => t a = .free).card

theorem freeCells_take {cells : Finset α} {s : Slot α} (ha : a ∈ cells) (hfree : t a = .free) (hs : s ≠ .free) :
    freeCells cells (Function.update t a s) + 1 = freeCells cells t := by
  have hset : cells.filter (fun x => Function.update t a s x = .free) =
      (cells.filter fun x => t x = .free).erase a := by
    ext x
    by_cases hx : x = a
    · simp [hx, hs]
    · simp [hx]
  unfold freeCells
  rw [hset]
  exact Finset.card_erase_add_one (by simp [ha, hfree])

theorem freeCells_free {cells : Finset α} (ha : a ∈ cells) (hused : t a ≠ .free) :
    freeCells cells (Function.update t a .free) = freeCells cells t + 1 := by
  have hback : Function.update (Function.update t a .free) a (t a) = t := by simp
  have htake := freeCells_take (t := Function.update t a .free) ha (Function.update_self _ _ _) hused
  rw [hback] at htake
  exact htake.symm

theorem freeCells_same {cells : Finset α} {s : Slot α} (hused : t a ≠ .free) (hs : s ≠ .free) :
    freeCells cells (Function.update t a s) = freeCells cells t := by
  unfold freeCells
  congr 1
  ext x
  by_cases hx : x = a
  · simp [hx, hs, hused]
  · simp [hx]

/-! ### What owners do -/

variable [DecidableEq ι]

namespace Holds

omit [DecidableEq ι] in
/-- A cell taken and then lost is nobody's. -/
theorem lose (h : Holds t files) (hfree : t b = .free) : Holds (Function.update t b .last) files := by
  constructor
  · intro j hne
    apply (h.chained j hne).congr
    intro a ha
    have hab : a ≠ b := fun heq => h.not_mem hfree j (heq ▸ ha)
    exact Function.update_of_ne hab _ _
  · exact h.apart

theorem create (h : Holds t files) (hfree : t b = .free) :
    Holds (Function.update t b .last) (Function.update files i [b]) := by
  apply h.change
  · intro _
    exact .last (Function.update_self _ _ _)
  · intro a ha
    exact .inr (by simp_all)
  · intro j _ a ha
    have hab : a ≠ b := fun heq => h.not_mem hfree j (heq ▸ ha)
    exact Function.update_of_ne hab _ _

theorem grow (h : Holds t files) (hfile : files i = l ++ [a]) (hfree : t b = .free) :
    Holds (Function.update (Function.update t b .last) a (.next b)) (Function.update files i (l ++ [a, b])) := by
  have hchain := h.chained i (by simp [hfile])
  rw [hfile] at hchain
  have hnodup := hchain.nodup
  have hb : b ∉ l ++ [a] := hfile ▸ h.not_mem hfree i
  simp only [List.mem_append, List.mem_singleton, not_or] at hb
  apply h.change
  · intro _
    apply hchain.grow
    · exact Function.update_self _ _ _
    · simp [Function.update_of_ne hb.2]
    · intro c hc
      have hca : c ≠ a := by
        intro heq
        simp only [List.nodup_append, List.mem_singleton, forall_eq] at hnodup
        exact hnodup.2.2 c hc heq
      have hcb : c ≠ b := fun heq => hb.1 (heq ▸ hc)
      simp [Function.update_of_ne hca, Function.update_of_ne hcb]
  · intro c hc
    by_cases hcb : c = b
    · exact .inr (hcb ▸ hfree)
    · left
      simpa [hfile, hcb] using hc
  · intro j hj c hc
    have hca : c ≠ a := fun heq => hj (h.apart j i c hc (by simp [hfile, heq]))
    have hcb : c ≠ b := fun heq => h.not_mem hfree j (heq ▸ hc)
    simp [Function.update_of_ne hca, Function.update_of_ne hcb]

omit [DecidableEq α] in
/-- Whatever becomes of the cells of an owner that gives them up. -/
theorem drop (h : Holds t files) (hkeep : ∀ c, c ∉ files i → t' c = t c) : Holds t' (Function.update files i []) := by
  apply h.change
  · simp
  · simp
  · intro j hj c hc
    exact hkeep c fun hmem => hj (h.apart j i c hc hmem)

omit [DecidableEq α] in
/-- Likewise of the cells behind the new end. -/
theorem cut (h : Holds t files) (hfile : files i = l ++ a :: r) (hend : t' a = .last)
    (hkeep : ∀ c, c ∉ r → c ≠ a → t' c = t c) : Holds t' (Function.update files i (l ++ [a])) := by
  have hchain := h.chained i (by simp [hfile])
  rw [hfile] at hchain
  have hnodup := hchain.nodup
  simp only [List.nodup_append, List.nodup_cons, List.mem_cons] at hnodup
  obtain ⟨-, -, hapart⟩ := hnodup
  apply h.change
  · intro _
    apply hchain.cut hend
    intro c hc
    exact hkeep c (fun hmem => hapart c hc c (.inr hmem) rfl) fun heq => hapart c hc a (.inl rfl) heq
  · intro c hc
    left
    simp only [hfile, List.mem_append, List.mem_cons] at hc ⊢
    tauto
  · intro j hj c hc
    have hout : c ∉ files i := fun hmem => hj (h.apart j i c hc hmem)
    simp only [hfile, List.mem_append, List.mem_cons, not_or] at hout
    exact hkeep c hout.2.2 hout.2.1

end Holds

namespace Covers

theorem create (h : Covers t files) (hnone : files i = []) :
    Covers (Function.update t b .last) (Function.update files i [b]) := by
  apply h.change
  intro a hused
  by_cases hab : a = b
  · simp [hab]
  · rw [Function.update_of_ne hab] at hused
    exact .inr ⟨by simp [hnone], hused⟩

theorem grow (h : Covers t files) (hfile : files i = l ++ [a]) :
    Covers (Function.update (Function.update t b .last) a (.next b)) (Function.update files i (l ++ [a, b])) := by
  apply h.change
  intro c hused
  by_cases hown : c ∈ l ++ [a, b]
  · exact .inl hown
  · simp only [List.mem_append, List.mem_cons, List.not_mem_nil, or_false, not_or] at hown
    right
    constructor
    · simp [hfile, hown]
    · simpa [Function.update_of_ne hown.2.1, Function.update_of_ne hown.2.2] using hused

omit [DecidableEq α] in
theorem drop (h : Covers t files) (hfreed : ∀ c ∈ files i, t' c = .free) (hkeep : ∀ c, c ∉ files i → t' c = t c) :
    Covers t' (Function.update files i []) := by
  apply h.change
  intro c hused
  right
  have hout : c ∉ files i := fun hmem => hused (hfreed c hmem)
  exact ⟨hout, hkeep c hout ▸ hused⟩

omit [DecidableEq α] in
theorem cut (h : Covers t files) (hfile : files i = l ++ a :: r) (hfreed : ∀ c ∈ r, t' c = .free)
    (hkeep : ∀ c, c ∉ r → c ≠ a → t' c = t c) : Covers t' (Function.update files i (l ++ [a])) := by
  apply h.change
  intro c hused
  by_cases hown : c ∈ l ++ [a]
  · exact .inl hown
  · have hout : c ∉ r := fun hmem => hused (hfreed c hmem)
    simp only [List.mem_append, List.mem_singleton, not_or] at hown
    right
    constructor
    · simp [hfile, hown, hout]
    · exact hkeep c hout hown.2 ▸ hused

end Covers

end MultiEmbedded.Chains
