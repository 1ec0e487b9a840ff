import MultiEmbedded.Lib.Prog

/-!
# Preemption

A program is stopped after some of its operations, another one runs, and the rest
follows. `lower` replaces each operation by a program over finer ones; stopping
between two operations is then one of many ways to stop the finer program.
-/

namespace MultiEmbedded.Prog
variable {Op : Type} {Res : Op → Type} {Op' : Type} {Res' : Op' → Type} {α β γ σ τ : Type}

theorem bind_assoc (x : Prog Op Res α) (f : α → Prog Op Res β) (g : β → Prog Op Res γ) :
    bind (bind x f) g = bind x fun a => bind (f a) g := by
  induction x with
  | ret a => rfl
  | act o k ih => exact congrArg (act o) (funext fun r => ih r)
  | stuck => rfl

/-! ### Stopping after some operations -/

section Device
variable (h : (o : Op) → σ → Res o × σ)

/- What is left after `k` operations, and the state then. -/
def after : ℕ → Prog Op Res α → σ → Prog Op Res α × σ
  | 0, x, s => (x, s)
  | _ + 1, ret a, s => (ret a, s)
  | k + 1, act o g, s => after k (g (h o s).1) (h o s).2
  | _ + 1, stuck, s => (stuck, s)

variable {h}

theorem after_ret (k : ℕ) (a : α) (s : σ) : after h k (ret a : Prog Op Res α) s = (ret a, s) := by
  cases k with
  | zero => rfl
  | succ k => rfl

theorem after_stuck (k : ℕ) (s : σ) : after h k (stuck : Prog Op Res α) s = (stuck, s) := by
  cases k with
  | zero => rfl
  | succ k => rfl

/- The stop falls behind `y`, or within it. -/
theorem after_bind (k : ℕ) (y : Prog Op Res α) (f : α → Prog Op Res β) (s : σ) :
    (∃ a m t, m ≤ k ∧ run h y s = (some a, t) ∧ after h k (bind y f) s = after h (k - m) (f a) t) ∨
    ((∀ a, (after h k y s).1 ≠ ret a) ∧
      after h k (bind y f) s = (bind (after h k y s).1 f, (after h k y s).2)) := by
  induction y generalizing k s with
  | ret a => exact Or.inl ⟨a, 0, s, Nat.zero_le k, rfl, rfl⟩
  | stuck =>
    right
    rw [after_stuck]
    exact ⟨fun a h => (nomatch h), after_stuck k s⟩
  | act o g ih =>
    cases k with
    | zero => exact Or.inr ⟨fun a h => (nomatch h), rfl⟩
    | succ k =>
      rcases ih (h o s).1 k (h o s).2 with ⟨a, m, t, hm, hrun, hafter⟩ | hwithin
      · refine Or.inl ⟨a, m + 1, t, Nat.succ_le_succ hm, hrun, ?_⟩
        rw [Nat.add_sub_add_right]
        exact hafter
      · exact Or.inr hwithin

/- An invariant of the operations holds where a program is stopped. -/
theorem after_invariant {P : Op → Prop} {I : σ → Prop} {Hang : Prop}
    (hP : ∀ o, P o → ∀ s, I s → I (h o s).2) {x : Prog Op Res α} (hx : Only P Hang x) (k : ℕ) {s : σ}
    (hs : I s) : I (after h k x s).2 ∧ Only P Hang (after h k x s).1 := by
  induction x generalizing k s with
  | ret a =>
    rw [after_ret]
    exact ⟨hs, hx⟩
  | stuck =>
    rw [after_stuck]
    exact ⟨hs, hx⟩
  | act o g ih =>
    cases k with
    | zero => exact ⟨hs, hx⟩
    | succ k => exact ih (h o s).1 (hx.2 _) k (hP o hx.1 s hs)

theorem run_invariant {P : Op → Prop} {I : σ → Prop} {Hang : Prop}
    (hP : ∀ o, P o → ∀ s, I s → I (h o s).2) {x : Prog Op Res α} (hx : Only P Hang x) {s : σ}
    (hs : I s) : I (run h x s).2 := by
  induction x generalizing s with
  | ret a => exact hs
  | stuck => exact hs
  | act o g ih => exact ih (h o s).1 (hx.2 _) (hP o hx.1 s hs)

end Device

/-! ### Finer operations -/

def lower (f : (o : Op) → Prog Op' Res' (Res o)) : Prog Op Res α → Prog Op' Res' α
  | ret a => ret a
  | act o g => bind (f o) fun r => lower f (g r)
  | stuck => stuck

variable {f : (o : Op) → Prog Op' Res' (Res o)}

theorem lower_bind (x : Prog Op Res α) (g : α → Prog Op Res β) :
    lower f (x >>= g) = lower f x >>= fun a => lower f (g a) := by
  induction x with
  | ret a => rfl
  | stuck => rfl
  | act o k ih =>
    have hrest : (fun r => lower f (bind (k r) g)) = fun r => bind (lower f (k r)) fun a => lower f (g a) :=
      funext ih
    exact (congrArg (bind (f o)) hrest).trans (bind_assoc (f o) _ _).symm

theorem lower_perform (o : Op) : lower f (perform o) = f o := by
  have hret : ∀ x : Prog Op' Res' (Res o), bind x (fun r => ret r) = x := by
    intro x
    induction x with
    | ret a => rfl
    | stuck => rfl
    | act o g ih => exact congrArg (act o) (funext ih)
  exact hret (f o)

theorem Only.lower {P : Op → Prop} {P' : Op' → Prop} {Hang : Prop} (hf : ∀ o, P o → Only P' Hang (f o))
    {x : Prog Op Res α} (hx : Only P Hang x) : Only P' Hang (lower f x) := by
  induction x with
  | ret a => trivial
  | stuck => exact hx
  | act o g ih => exact (hf o hx.1).bind fun r => ih r (hx.2 r)

theorem only_true (x : Prog Op Res α) : Only (fun _ => True) True x := by
  induction x with
  | ret a => trivial
  | stuck => trivial
  | act o g ih => exact ⟨trivial, ih⟩

/- Behind operations in `Q` comes one in `P`. -/
def First (Q P : Op → Prop) : Prog Op Res α → Prop
  | ret _ => False
  | act o g => P o ∨ Q o ∧ ∀ r, First Q P (g r)
  | stuck => False

theorem First.bind {Q P : Op → Prop} {x : Prog Op Res α} (hx : First Q P x) (g : α → Prog Op Res β) :
    First Q P (x >>= g) := by
  induction x with
  | ret a => exact hx.elim
  | stuck => exact hx.elim
  | act o k ih =>
    rcases hx with hp | ⟨hq, hrest⟩
    · exact Or.inl hp
    · exact Or.inr ⟨hq, fun r => ih r (hrest r)⟩

theorem First.lower {Q P : Op → Prop} {Q' P' : Op' → Prop} (hP : ∀ o, P o → First Q' P' (f o))
    (hQ : ∀ o, Q o → ∃ (o' : Op') (v : Res' o' → Res o), f o = act o' (fun r => ret (v r)) ∧ Q' o') {x : Prog Op Res α} (hx : First Q P x) :
    First Q' P' (lower f x) := by
  induction x with
  | ret a => exact hx.elim
  | stuck => exact hx.elim
  | act o k ih =>
    rcases hx with hp | ⟨hq, hrest⟩
    · exact (hP o hp).bind _
    · obtain ⟨o', v, hfo, hq'⟩ := hQ o hq
      show First Q' P' (Prog.bind (f o) fun r => Prog.lower f (k r))
      rw [hfo]
      exact Or.inr ⟨hq', fun r => ih (v r) (hrest (v r))⟩

section Refine
variable {h : (o : Op) → σ → Res o × σ} {h' : (o : Op') → σ → Res' o × σ} {P : Op → Prop} {I : σ → Prop}
  {Hang : Prop}

/-- Each operation is done by its finer program, from the states in `I` on. -/
def Refines (h : (o : Op) → σ → Res o × σ) (h' : (o : Op') → σ → Res' o × σ)
    (f : (o : Op) → Prog Op' Res' (Res o)) (P : Op → Prop) (I : σ → Prop) : Prop :=
  ∀ o, P o → ∀ s, I s → run h' (f o) s = (some (h o s).1, (h o s).2) ∧ I (h o s).2

theorem run_lower (hf : Refines h h' f P I) {x : Prog Op Res α} (hx : Only P Hang x) {s : σ} (hs : I s) :
    run h' (lower f x) s = run h x s := by
  induction x generalizing s with
  | ret a => rfl
  | stuck => rfl
  | act o g ih =>
    obtain ⟨hrun, hnext⟩ := hf o hx.1 s hs
    exact (run_bind_of hrun).trans (ih (h o s).1 (hx.2 _) hnext)

end Refine

/-! ### Two runs of a program -/

section Twins
variable {h : (o : Op) → σ → Res o × σ} {h' : (o : Op) → τ → Res o × τ}

/-- From related states both runs return the same, in related states. -/
def Twin (h : (o : Op) → σ → Res o × σ) (h' : (o : Op) → τ → Res o × τ) (x : Prog Op Res α)
    (Q : α → σ → τ → Prop) (s : σ) (t : τ) : Prop :=
  ∃ a s' t', run h x s = (some a, s') ∧ run h' x t = (some a, t') ∧ Q a s' t'

theorem Twin.ret {Q : α → σ → τ → Prop} {a : α} {s : σ} {t : τ} (hq : Q a s t) :
    Twin h h' (Pure.pure a : Prog Op Res α) Q s t := ⟨a, s, t, rfl, rfl, hq⟩

theorem Twin.bind {Q : α → σ → τ → Prop} {Q' : β → σ → τ → Prop} {x : Prog Op Res α}
    {g : α → Prog Op Res β} {s : σ} {t : τ} (hx : Twin h h' x Q s t)
    (hg : ∀ a s' t', Q a s' t' → Twin h h' (g a) Q' s' t') : Twin h h' (x >>= g) Q' s t := by
  obtain ⟨a, s', t', hs, ht, hq⟩ := hx
  obtain ⟨b, s'', t'', hs', ht', hq'⟩ := hg a s' t' hq
  exact ⟨b, s'', t'', (run_bind_of hs).trans hs', (run_bind_of ht).trans ht', hq'⟩

theorem Twin.perform {o : Op} {Q : Res o → σ → τ → Prop} {s : σ} {t : τ} (hres : (h o s).1 = (h' o t).1)
    (hq : Q (h o s).1 (h o s).2 (h' o t).2) : Twin h h' (Prog.perform o) Q s t := by
  refine ⟨(h o s).1, (h o s).2, (h' o t).2, rfl, ?_, hq⟩
  rw [hres]
  rfl

theorem Twin.act {Q : α → σ → τ → Prop} {o : Op} {g : Res o → Prog Op Res α} {s : σ} {t : τ}
    (hres : (h o s).1 = (h' o t).1) (hg : Twin h h' (g (h o s).1) Q (h o s).2 (h' o t).2) :
    Twin h h' (Prog.perform o >>= g) Q s t := by
  obtain ⟨a, s', t', hs, ht, hq⟩ := hg
  refine ⟨a, s', t', hs, ?_, hq⟩
  rw [hres] at ht
  exact ht

end Twins

end MultiEmbedded.Prog
