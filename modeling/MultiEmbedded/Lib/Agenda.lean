import Mathlib.Data.List.Basic
import Mathlib.Data.Nat.Basic
import Mathlib.Tactic.Common

/-!
# Agendas

Entries with a date, the earliest first. A clerk serves what is due; an entry that is
served may put others on the agenda, counted from its own date.
-/

namespace MultiEmbedded.Agenda
variable {ε σ : Type}

def Sorted (l : List (ℕ × ε)) : Prop := l.Pairwise fun a b => a.1 ≤ b.1

/- An entry goes behind those with the same date. -/
def add (d : ℕ) (e : ε) : List (ℕ × ε) → List (ℕ × ε)
  | [] => [(d, e)]
  | a :: l => if d < a.1 then (d, e) :: a :: l else a :: add d e l

variable [DecidableEq ε]

def cancel (e : ε) (l : List (ℕ × ε)) : List (ℕ × ε) := l.eraseP fun a => a.2 = e

inductive Request (ε : Type)
  | start (wait : ℕ) (e : ε)
  | stop (e : ε)

def Request.apply (now : ℕ) : Request ε → List (ℕ × ε) → List (ℕ × ε)
  | .start wait e, l => add (now + wait) e l
  | .stop e, l => cancel e l

def applyAll (now : ℕ) (rs : List (Request ε)) (l : List (ℕ × ε)) : List (ℕ × ε) :=
  rs.foldl (fun l r => r.apply now l) l

/- `mark` is the date of the entry served last. -/
structure Clerk (ε σ : Type) where
  mark : ℕ
  list : List (ℕ × ε)
  world : σ
  served : List (ℕ × ε)

section Serve
variable (react : ε → σ → List (Request ε) × σ)

def Clerk.ask (rs : List (Request ε)) (c : Clerk ε σ) : Clerk ε σ :=
  { c with list := applyAll c.mark rs c.list }

def Clerk.next (a : ℕ × ε) (l : List (ℕ × ε)) (c : Clerk ε σ) : Clerk ε σ :=
  { mark := a.1
    list := applyAll a.1 (react a.2 c.world).1 l
    world := (react a.2 c.world).2
    served := c.served ++ [a] }

def Clerk.serve (limit : ℕ) : ℕ → Clerk ε σ → Option (Clerk ε σ)
  | 0, _ => none
  | fuel + 1, c =>
    match c.list with
    | [] => some c
    | a :: l => if a.1 ≤ limit then Clerk.serve limit fuel (c.next react a l) else some c

end Serve

/-! ### Requests -/

variable {react : ε → σ → List (Request ε) × σ} {c c' : Clerk ε σ} {l : List (ℕ × ε)} {e : ε}
  {d m limit fuel : ℕ}

omit [DecidableEq ε] in
theorem mem_add {a : ℕ × ε} : a ∈ add d e l ↔ a = (d, e) ∨ a ∈ l := by
  induction l with
  | nil => exact List.mem_singleton.trans (by simp)
  | cons b l ih =>
    unfold add
    split_ifs with h
    · exact List.mem_cons
    · simp only [List.mem_cons, ih]
      exact or_left_comm

omit [DecidableEq ε] in
theorem add_sorted (h : Sorted l) (d : ℕ) (e : ε) : Sorted (add d e l) := by
  induction l with
  | nil => exact List.pairwise_singleton _ _
  | cons a l ih =>
    obtain ⟨ha, hl⟩ := List.pairwise_cons.mp h
    unfold add
    split_ifs with hd
    · refine List.pairwise_cons.mpr ⟨fun b hb => ?_, h⟩
      rcases List.mem_cons.mp hb with rfl | hb
      · exact Nat.le_of_lt hd
      · exact Nat.le_trans (Nat.le_of_lt hd) (ha b hb)
    · refine List.pairwise_cons.mpr ⟨fun b hb => ?_, ih hl⟩
      rcases mem_add.mp hb with rfl | hb
      · exact Nat.le_of_not_lt hd
      · exact ha b hb

omit [DecidableEq ε] in
theorem add_perm (d : ℕ) (e : ε) (l : List (ℕ × ε)) : (add d e l).Perm ((d, e) :: l) := by
  induction l with
  | nil => exact List.Perm.refl _
  | cons a l ih =>
    unfold add
    split_ifs
    · exact List.Perm.refl _
    · exact (ih.cons a).trans (List.Perm.swap _ _ _)

/- The entries for `e`. -/
def only (e : ε) (l : List (ℕ × ε)) : List (ℕ × ε) := l.filter fun a => a.2 = e

theorem only_add_ne {e' : ε} (h : e' ≠ e) (d : ℕ) (l : List (ℕ × ε)) : only e (add d e' l) = only e l := by
  unfold only
  induction l with
  | nil => exact List.filter_cons_of_neg (by simpa using h)
  | cons a l ih =>
    unfold add
    split_ifs
    · exact List.filter_cons_of_neg (by simpa using h)
    · simp only [List.filter_cons, ih]

theorem only_add (h : only e l = []) (d : ℕ) : only e (add d e l) = [(d, e)] := by
  unfold only at h ⊢
  induction l with
  | nil => exact List.filter_cons_of_pos (by simp)
  | cons a l ih =>
    obtain ⟨ha, hl⟩ := List.filter_eq_nil_iff.mp h |> List.forall_mem_cons.mp
    unfold add
    split_ifs
    · rw [List.filter_cons_of_pos (by simp), h]
    · rw [List.filter_cons, if_neg ha, ih (List.filter_eq_nil_iff.mpr hl)]

theorem mem_cancel {a : ℕ × ε} (h : a ∈ cancel e l) : a ∈ l := List.mem_of_mem_eraseP h

theorem cancel_sorted (h : Sorted l) (e : ε) : Sorted (cancel e l) := h.sublist List.eraseP_sublist

theorem apply_sorted (h : Sorted l) (now : ℕ) (r : Request ε) : Sorted (r.apply now l) := by
  cases r with
  | start wait e => exact add_sorted h _ e
  | stop e => exact cancel_sorted h e

theorem applyAll_sorted (h : Sorted l) (now : ℕ) (rs : List (Request ε)) : Sorted (applyAll now rs l) := by
  induction rs generalizing l with
  | nil => exact h
  | cons r rs ih => exact ih (apply_sorted h now r)

/- The shortest wait that is asked for. -/
def Waits (n : ℕ) (r : Request ε) : Prop := ∀ wait e, r = .start wait e → n ≤ wait

omit [DecidableEq ε] in
theorem waits_zero (r : Request ε) : Waits 0 r := fun wait _ _ => Nat.zero_le wait

theorem mem_applyAll {rs : List (Request ε)} {now n : ℕ} (hrs : ∀ r ∈ rs, Waits n r) {a : ℕ × ε}
    (ha : a ∈ applyAll now rs l) : a ∈ l ∨ now + n ≤ a.1 := by
  induction rs generalizing l with
  | nil => exact Or.inl ha
  | cons r rs ih =>
    rcases ih (fun r hr => hrs r (List.mem_cons_of_mem _ hr)) ha with hmem | hlate
    · cases r with
      | start wait e =>
        rcases mem_add.mp hmem with rfl | hmem
        · have hwait := hrs _ (List.mem_cons_self ..) wait e rfl
          exact Or.inr (Nat.add_le_add_left hwait now)
        · exact Or.inl hmem
      | stop e => exact Or.inl (mem_cancel hmem)
    · exact Or.inr hlate

/-! ### What the clerk keeps -/

structure Clerk.Good (c : Clerk ε σ) : Prop where
  sorted : Sorted c.list
  ahead : ∀ a ∈ c.list, c.mark ≤ a.1
  inOrder : Sorted c.served
  past : ∀ a ∈ c.served, a.1 ≤ c.mark

theorem Clerk.Good.ask (h : c.Good) (rs : List (Request ε)) : (c.ask rs).Good := by
  refine ⟨applyAll_sorted h.sorted c.mark rs, fun a ha => ?_, h.inOrder, h.past⟩
  rcases mem_applyAll (fun r _ => waits_zero r) ha with hmem | hlate
  · exact h.ahead a hmem
  · exact hlate

theorem Clerk.Good.next (h : c.Good) {a : ℕ × ε} (hl : c.list = a :: l) : (c.next react a l).Good := by
  have hsorted := h.sorted
  have hahead := h.ahead
  rw [hl] at hsorted hahead
  obtain ⟨ha, hrest⟩ := List.pairwise_cons.mp hsorted
  have hmark := hahead a (List.mem_cons_self ..)
  refine ⟨applyAll_sorted hrest a.1 _, fun b hb => ?_, ?_, fun b hb => ?_⟩
  · rcases mem_applyAll (fun r _ => waits_zero r) hb with hmem | hlate
    · exact ha b hmem
    · exact hlate
  · refine List.pairwise_append.mpr ⟨h.inOrder, List.pairwise_singleton _ _, fun x hx y hy => ?_⟩
    obtain rfl := List.mem_singleton.mp hy
    exact Nat.le_trans (h.past x hx) hmark
  · rcases List.mem_append.mp hb with hb | hb
    · exact Nat.le_trans (h.past b hb) hmark
    · obtain rfl := List.mem_singleton.mp hb
      exact Nat.le_refl _

/- What a round has served, and what it leaves. -/
structure Clerk.Round (limit : ℕ) (c c' : Clerk ε σ) : Prop where
  good : c'.Good
  later : ∀ a ∈ c'.list, limit < a.1
  mark : c.mark ≤ c'.mark
  served : c' = c ∨ c.served.length < c'.served.length ∧ c'.mark ≤ limit
  new : ∃ new, c'.served = c.served ++ new ∧ ∀ a ∈ new, a.1 ≤ limit

theorem Clerk.serve_round (h : c.Good) (hserve : c.serve react limit fuel = some c') : c.Round limit c' := by
  induction fuel generalizing c with
  | zero => exact absurd hserve (Option.some_ne_none c').symm
  | succ fuel ih =>
    unfold Clerk.serve at hserve
    cases hl : c.list with
    | nil =>
      rw [hl] at hserve
      cases hserve
      exact ⟨h, fun a ha => absurd (hl ▸ ha) List.not_mem_nil, Nat.le_refl _, Or.inl rfl, [], by simp, by simp⟩
    | cons a l =>
      rw [hl] at hserve
      by_cases hdue : a.1 ≤ limit
      · have hround := ih (h.next hl) (by simpa [hdue] using hserve)
        obtain ⟨new, hnew, hlimit⟩ := hround.new
        have hmark : c.mark ≤ a.1 := h.ahead a (hl ▸ List.mem_cons_self ..)
        have hone : (c.next react a l).served.length = c.served.length + 1 := List.length_append
        refine ⟨hround.good, hround.later, Nat.le_trans hmark hround.mark, Or.inr ?_, a :: new, ?_, ?_⟩
        · rcases hround.served with rfl | ⟨hmore, hle⟩
          · exact ⟨by omega, hdue⟩
          · exact ⟨by omega, hle⟩
        · rw [hnew]
          show c.served ++ [a] ++ new = _
          rw [List.append_assoc]
          rfl
        · intro b hb
          rcases List.mem_cons.mp hb with rfl | hb
          · exact hdue
          · exact hlimit b hb
      · have hc : c = c' := by simpa [hdue] using hserve
        subst hc
        have hsorted := h.sorted
        rw [hl] at hsorted
        refine ⟨h, fun b hb => ?_, Nat.le_refl _, Or.inl rfl, [], by simp, by simp⟩
        rw [hl] at hb
        rcases List.mem_cons.mp hb with rfl | hb
        · exact Nat.lt_of_not_le hdue
        · exact Nat.lt_of_lt_of_le (Nat.lt_of_not_le hdue) ((List.pairwise_cons.mp hsorted).1 b hb)

theorem Clerk.serve_grows (hserve : c.serve react limit fuel = some c') : c.served.length ≤ c'.served.length := by
  induction fuel generalizing c with
  | zero => exact absurd hserve (Option.some_ne_none c').symm
  | succ fuel ih =>
    unfold Clerk.serve at hserve
    cases hl : c.list with
    | nil =>
      rw [hl] at hserve
      cases hserve
      exact Nat.le_refl _
    | cons a l =>
      rw [hl] at hserve
      by_cases hdue : a.1 ≤ limit
      · have hrest := ih (c := c.next react a l) (by simpa [hdue] using hserve)
        have hone : (c.next react a l).served.length = c.served.length + 1 := List.length_append
        omega
      · have hc : c = c' := by simpa [hdue] using hserve
        rw [hc]

/-! ### A round ends -/

theorem Clerk.serve_mono {fuel' : ℕ} (hserve : c.serve react limit fuel = some c') (hle : fuel ≤ fuel') :
    c.serve react limit fuel' = some c' := by
  induction fuel generalizing c fuel' with
  | zero => exact absurd hserve (Option.some_ne_none c').symm
  | succ fuel ih =>
    cases fuel' with
    | zero => exact absurd hle (Nat.not_succ_le_zero fuel)
    | succ fuel' =>
      unfold Clerk.serve at hserve ⊢
      cases hl : c.list with
      | nil =>
        rw [hl] at hserve
        exact hserve
      | cons a l =>
        rw [hl] at hserve
        by_cases hdue : a.1 ≤ limit
        · have hrest : (c.next react a l).serve react limit fuel = some c' := by simpa [hdue] using hserve
          simpa [hdue] using ih hrest (Nat.le_of_succ_le_succ hle)
        · simpa [hdue] using hserve

/- Entries whose date has come. -/
def due (m : ℕ) (l : List (ℕ × ε)) : ℕ := l.countP fun a => a.1 ≤ m

omit [DecidableEq ε] in
theorem due_add (h : m < d) (e : ε) (l : List (ℕ × ε)) : due m (add d e l) = due m l := by
  unfold due
  induction l with
  | nil => simp [add, h]
  | cons a l ih =>
    unfold add
    split_ifs
    · simp [h]
    · simp only [List.countP_cons, ih]

theorem due_applyAll {rs : List (Request ε)} (hrs : ∀ r ∈ rs, Waits 1 r) (l : List (ℕ × ε)) :
    due m (applyAll m rs l) ≤ due m l := by
  induction rs generalizing l with
  | nil => exact Nat.le_refl _
  | cons r rs ih =>
    refine Nat.le_trans (ih (fun r hr => hrs r (List.mem_cons_of_mem _ hr)) (r.apply m l)) ?_
    cases r with
    | start wait e =>
      have hwait := hrs _ (List.mem_cons_self ..) wait e rfl
      exact Nat.le_of_eq (due_add (by omega) e l)
    | stop e => exact List.eraseP_sublist.countP_le

/-- A round ends if no entry puts another one on the agenda for its own date. -/
theorem Clerk.serve_ends (h : c.Good) (hreact : ∀ e w, ∀ r ∈ (react e w).1, Waits 1 r) (limit : ℕ) :
    ∃ fuel c', c.serve react limit fuel = some c' := by
  -- by the time that is left, and then by the entries with the date of the mark
  induction hleft : limit + 1 - c.mark using Nat.strongRecOn generalizing c with
  | ind left ihleft =>
    induction hcount : due c.mark c.list using Nat.strongRecOn generalizing c with
    | ind count ihcount =>
      cases hl : c.list with
      | nil => exact ⟨1, c, by unfold Clerk.serve; rw [hl]⟩
      | cons a l =>
        by_cases hdue : a.1 ≤ limit
        · have hmark : c.mark ≤ a.1 := h.ahead a (hl ▸ List.mem_cons_self ..)
          have hrest : ∃ fuel c', (c.next react a l).serve react limit fuel = some c' := by
            rcases Nat.lt_or_eq_of_le hmark with hlt | heq
            · exact ihleft (limit + 1 - a.1) (by omega) (h.next hl) rfl
            · have hsame : limit + 1 - (c.next react a l).mark = left := by
                show limit + 1 - a.1 = left
                rw [← heq]
                exact hleft
              have hfewer : due a.1 (applyAll a.1 (react a.2 c.world).1 l) < count := by
                have hrest := due_applyAll (m := a.1) (hreact a.2 c.world) l
                have hhead : due c.mark c.list = due a.1 l + 1 := by
                  unfold due
                  rw [hl, heq, List.countP_cons]
                  simp
                omega
              exact ihcount _ hfewer (h.next hl) hsame rfl
          obtain ⟨fuel, c', hrest⟩ := hrest
          refine ⟨fuel + 1, c', ?_⟩
          unfold Clerk.serve
          rw [hl]
          simpa [hdue] using hrest
        · refine ⟨1, c, ?_⟩
          unfold Clerk.serve
          rw [hl]
          simp [hdue]

/-! ### An entry that comes again -/

def Request.entry : Request ε → ε
  | .start _ e => e
  | .stop e => e

theorem only_cancel_ne {e' : ε} (h : e' ≠ e) (l : List (ℕ × ε)) : only e (cancel e' l) = only e l := by
  unfold only cancel
  induction l with
  | nil => rfl
  | cons a l ih =>
    by_cases ha : a.2 = e'
    · have hne : ¬ a.2 = e := fun heq => h (ha.symm.trans heq)
      have herase : (a :: l).eraseP (fun a => a.2 = e') = l := List.eraseP_cons_of_pos (decide_eq_true ha)
      rw [herase, List.filter_cons, if_neg (by simpa using hne)]
    · have herase : (a :: l).eraseP (fun a => a.2 = e') = a :: l.eraseP (fun a => a.2 = e') :=
        List.eraseP_cons_of_neg (by simpa using ha)
      rw [herase, List.filter_cons, List.filter_cons, ih]

theorem only_applyAll {rs : List (Request ε)} (hrs : ∀ r ∈ rs, r.entry ≠ e) (now : ℕ) (l : List (ℕ × ε)) :
    only e (applyAll now rs l) = only e l := by
  induction rs generalizing l with
  | nil => rfl
  | cons r rs ih =>
    have hr := hrs r (List.mem_cons_self ..)
    refine (ih (fun r hr => hrs r (List.mem_cons_of_mem _ hr)) _).trans ?_
    cases r with
    | start wait e' => exact only_add_ne hr _ l
    | stop e' => exact only_cancel_ne hr l

/- Serving `e` puts it on the agenda again, and nothing else does. -/
structure Periodic (react : ε → σ → List (Request ε) × σ) (e : ε) (period : ℕ) : Prop where
  again : ∀ w, (react e w).1 = [.start period e]
  alone : ∀ e' w, e' ≠ e → ∀ r ∈ (react e' w).1, r.entry ≠ e

/- It has been served at every multiple of the period since `begin`, and is due at the next one. -/
def Clerk.Beat (e : ε) (period begin : ℕ) (c : Clerk ε σ) : Prop :=
  ∃ n, only e c.served = (List.range n).map (fun k => (begin + period * (k + 1), e)) ∧
    only e c.list = [(begin + period * (n + 1), e)]

theorem Clerk.Beat.next {period begin : ℕ} (hreact : Periodic react e period) (h : c.Beat e period begin) {a : ℕ × ε}
    (hl : c.list = a :: l) : (c.next react a l).Beat e period begin := by
  obtain ⟨n, hserved, hlist⟩ := h
  rw [hl] at hlist
  by_cases ha : a.2 = e
  · have hhead : only e (a :: l) = a :: only e l := List.filter_cons_of_pos (decide_eq_true ha)
    rw [hhead] at hlist
    obtain ⟨rfl, hrest⟩ := List.cons.inj hlist
    refine ⟨n + 1, ?_, ?_⟩
    · show only e (c.served ++ [_]) = _
      unfold only at hserved ⊢
      rw [List.filter_append, hserved, List.range_succ, List.map_append]
      simp
    · show only e (applyAll _ (react e c.world).1 l) = _
      rw [hreact.again]
      show only e (add _ e l) = _
      rw [only_add hrest, Nat.mul_succ period (n + 1), Nat.add_assoc]
  · have hskip : only e (a :: l) = only e l := List.filter_cons_of_neg (by simpa using ha)
    rw [hskip] at hlist
    refine ⟨n, ?_, ?_⟩
    · show only e (c.served ++ [a]) = _
      unfold only at hserved ⊢
      rw [List.filter_append, hserved]
      simp [ha]
    · exact (only_applyAll (hreact.alone a.2 c.world ha) a.1 l).trans hlist

theorem Clerk.Beat.serve {period begin : ℕ} (hreact : Periodic react e period) (h : c.Beat e period begin)
    (hserve : c.serve react limit fuel = some c') : c'.Beat e period begin := by
  induction fuel generalizing c with
  | zero => exact absurd hserve (Option.some_ne_none c').symm
  | succ fuel ih =>
    unfold Clerk.serve at hserve
    cases hl : c.list with
    | nil =>
      rw [hl] at hserve
      cases hserve
      exact h
    | cons a l =>
      rw [hl] at hserve
      by_cases hdue : a.1 ≤ limit
      · exact ih (h.next hreact hl) (by simpa [hdue] using hserve)
      · have hc : c = c' := by simpa [hdue] using hserve
        exact hc ▸ h

theorem Clerk.Beat.ask {period begin : ℕ} (h : c.Beat e period begin) {rs : List (Request ε)}
    (hrs : ∀ r ∈ rs, r.entry ≠ e) : (c.ask rs).Beat e period begin := by
  obtain ⟨n, hserved, hlist⟩ := h
  exact ⟨n, hserved, (only_applyAll hrs c.mark c.list).trans hlist⟩

end MultiEmbedded.Agenda
