import Mathlib.Data.Nat.Notation

/-!
# Programs over a set of operations

A driver is a program over the operations of its device; each device model is a
handler that answers them. `stuck` is a busy wait that outlasted the number of
turns it was given.
-/

namespace MultiEmbedded

inductive Prog (Op : Type) (Res : Op → Type) (α : Type) : Type
  | ret (a : α)
  | act (o : Op) (k : Res o → Prog Op Res α)
  | stuck

namespace Prog
variable {Op : Type} {Res : Op → Type} {α β σ : Type}

def bind : Prog Op Res α → (α → Prog Op Res β) → Prog Op Res β
  | ret a, f => f a
  | act o k, f => act o fun r => bind (k r) f
  | stuck, _ => stuck

instance : Monad (Prog Op Res) where
  pure := ret
  bind := bind

def perform (o : Op) : Prog Op Res (Res o) := act o ret

/- `while (body());` with at most `spin` turns. -/
def waitWhile (body : Prog Op Res Bool) : ℕ → Prog Op Res Unit
  | 0 => stuck
  | spin + 1 => do if ← body then waitWhile body spin else ret ()

/-! ### Running a program on a device -/

def run (h : (o : Op) → σ → Res o × σ) : Prog Op Res α → σ → Option α × σ
  | ret a, s => (some a, s)
  | act o k, s => run h (k (h o s).1) (h o s).2
  | stuck, s => (none, s)

/- The operations of a run, each with the state it finds. -/
def trace (h : (o : Op) → σ → Res o × σ) : Prog Op Res α → σ → List (Op × σ)
  | ret _, _ => []
  | act o k, s => (o, s) :: trace h (k (h o s).1) (h o s).2
  | stuck, _ => []

variable {h : (o : Op) → σ → Res o × σ}

@[simp] theorem run_pure (a : α) (s : σ) : run h (pure a) s = (some a, s) := rfl

@[simp] theorem run_perform (o : Op) (s : σ) :
    run h (perform o) s = (some (h o s).1, (h o s).2) := rfl

theorem run_act (o : Op) (f : Res o → Prog Op Res α) (s : σ) :
    run h (perform o >>= f) s = run h (f (h o s).1) (h o s).2 := rfl

theorem run_bind (x : Prog Op Res α) (f : α → Prog Op Res β) (s : σ) :
    run h (x >>= f) s = match run h x s with
      | (some a, s') => run h (f a) s'
      | (none, s') => (none, s') := by
  induction x generalizing s with
  | ret a => rfl
  | act o k ih => exact ih (h o s).1 (h o s).2
  | stuck => rfl

theorem run_bind_of {x : Prog Op Res α} {f : α → Prog Op Res β} {s s' : σ} {a : α}
    (hx : run h x s = (some a, s')) : run h (x >>= f) s = run h (f a) s' := by
  rw [run_bind, hx]

theorem run_returns {x : Prog Op Res α} {s : σ} {a : α} (hx : (run h x s).1 = some a) :
    run h x s = (some a, (run h x s).2) := Prod.ext hx rfl

/-! ### Conditions on every operation and on the result -/

/-- Every operation meets `Safe` in the state it finds and a result meets `Q`; `Hang` is what
is known when a busy wait ends the run (`True`: nothing is asked, `False`: it cannot happen). -/
def wp (h : (o : Op) → σ → Res o × σ) (Safe : Op → σ → Prop) (Hang : Prop) (Q : α → σ → Prop) :
    Prog Op Res α → σ → Prop
  | ret a, s => Q a s
  | act o k, s => Safe o s ∧ wp h Safe Hang Q (k (h o s).1) (h o s).2
  | stuck, _ => Hang

variable {Safe : Op → σ → Prop} {Hang : Prop}

theorem wp_iff (Q : α → σ → Prop) (x : Prog Op Res α) (s : σ) : wp h Safe Hang Q x s ↔
    (∀ e ∈ trace h x s, Safe e.1 e.2) ∧ (∀ a s', run h x s = (some a, s') → Q a s') ∧
      ((run h x s).1 = none → Hang) := by
  induction x generalizing s with
  | ret a =>
    refine ⟨fun hq => ⟨fun _ he => (nomatch he), fun a' s' he => ?_, fun he => (nomatch he)⟩,
      fun hq => hq.2.1 a s rfl⟩
    cases he
    exact hq
  | act o k ih =>
    unfold wp trace run
    rw [ih, List.forall_mem_cons, and_assoc]
  | stuck => exact ⟨fun hh => ⟨fun _ he => (nomatch he), fun _ _ he => (nomatch he), fun _ => hh⟩,
      fun hh => hh.2.2 rfl⟩

/-- A program whose busy waits all end returns, and its result meets the condition. -/
theorem wp_total {Q : α → σ → Prop} {x : Prog Op Res α} {s : σ} (hx : wp h Safe False Q x s) :
    ∃ a s', run h x s = (some a, s') ∧ Q a s' := by
  obtain ⟨-, hq, hn⟩ := (wp_iff Q x s).mp hx
  cases hr : run h x s with
  | mk a s' =>
    cases a with
    | none => exact (hn (by rw [hr])).elim
    | some a => exact ⟨a, s', rfl, hq a s' hr⟩

theorem wp_bind {Q : β → σ → Prop} (x : Prog Op Res α) (f : α → Prog Op Res β) (s : σ) :
    wp h Safe Hang Q (x >>= f) s ↔
      wp h Safe Hang (fun a s' => wp h Safe Hang Q (f a) s') x s := by
  induction x generalizing s with
  | ret a => exact Iff.rfl
  | act o k ih => exact and_congr_right fun _ => ih (h o s).1 (h o s).2
  | stuck => exact Iff.rfl

theorem wp_perform {Q : β → σ → Prop} (o : Op) (f : Res o → Prog Op Res β) (s : σ) :
    wp h Safe Hang Q (perform o >>= f) s ↔
      Safe o s ∧ wp h Safe Hang Q (f (h o s).1) (h o s).2 := Iff.rfl

theorem wp_mono {Q Q' : α → σ → Prop} {x : Prog Op Res α} {s : σ} (hx : wp h Safe Hang Q x s)
    (hq : ∀ a s', Q a s' → Q' a s') : wp h Safe Hang Q' x s := by
  induction x generalizing s with
  | ret a => exact hq a s hx
  | act o k ih => exact ⟨hx.1, ih (h o s).1 hx.2⟩
  | stuck => exact hx

theorem wp_and {Q Q' : α → σ → Prop} {x : Prog Op Res α} {s : σ} (hx : wp h Safe Hang Q x s)
    (hx' : wp h Safe Hang Q' x s) : wp h Safe Hang (fun a s' => Q a s' ∧ Q' a s') x s := by
  induction x generalizing s with
  | ret a => exact ⟨hx, hx'⟩
  | act o k ih => exact ⟨hx.1, ih (h o s).1 hx.2 hx'.2⟩
  | stuck => exact hx

/- A condition on the result also sees which run it is the result of. -/
theorem wp_run {Q : α → σ → Prop} {x : Prog Op Res α} {s : σ} (hx : wp h Safe Hang Q x s) :
    wp h Safe Hang (fun a s' => run h x s = (some a, s') ∧ Q a s') x s := by
  obtain ⟨hsafe, hq, hn⟩ := (wp_iff Q x s).mp hx
  exact (wp_iff _ x s).mpr ⟨hsafe, fun a s' hr => ⟨hr, hq a s' hr⟩, hn⟩

theorem wp_waitWhile {I J : σ → Prop} {body : Prog Op Res Bool}
    (hb : ∀ s, I s → wp h Safe True (fun _ => J) body s) (hJ : ∀ s, J s → I s) (spin : ℕ) {s : σ}
    (hs : I s) : wp h Safe True (fun _ => J) (waitWhile body spin) s := by
  induction spin generalizing s with
  | zero => trivial
  | succ spin ih =>
    refine (wp_bind body _ s).mpr (wp_mono (hb s hs) fun b s' hs' => ?_)
    cases b with
    | false => exact hs'
    | true => exact ih (hJ s' hs')

/-- From `I` on, the program does only what is safe and returns to `I`. -/
def Keeps (h : (o : Op) → σ → Res o × σ) (Safe : Op → σ → Prop) (I : σ → Prop)
    (x : Prog Op Res α) : Prop := ∀ s, I s → wp h Safe True (fun _ => I) x s

variable {I : σ → Prop}

theorem Keeps.seq {Q : β → σ → Prop} {x : Prog Op Res α} {f : α → Prog Op Res β} {s : σ}
    (hx : Keeps h Safe I x) (hs : I s) (hf : ∀ a t, I t → wp h Safe True Q (f a) t) :
    wp h Safe True Q (x >>= f) s := (wp_bind x f s).mpr (wp_mono (hx s hs) hf)

theorem Keeps.pure (a : α) : Keeps h Safe I (Pure.pure a : Prog Op Res α) := fun _ hs => hs

theorem Keeps.bind {x : Prog Op Res α} {f : α → Prog Op Res β} (hx : Keeps h Safe I x)
    (hf : ∀ a, Keeps h Safe I (f a)) : Keeps h Safe I (x >>= f) := fun _ hs =>
  hx.seq hs fun a t ht => hf a t ht

theorem Keeps.perform {o : Op} (ho : ∀ s, I s → Safe o s ∧ I (h o s).2) :
    Keeps h Safe I (Prog.perform o : Prog Op Res _) := fun s hs => ho s hs

theorem Keeps.waitWhile {body : Prog Op Res Bool} (hb : Keeps h Safe I body) (spin : ℕ) :
    Keeps h Safe I (Prog.waitWhile body spin) := fun _ hs => wp_waitWhile hb (fun _ hs' => hs') spin hs

/- What safe operations preserve holds where the run ends, also in a busy wait that hangs. -/
theorem wp_final {Q : α → σ → Prop} {x : Prog Op Res α} {s : σ} (hx : wp h Safe True Q x s)
    (hI : ∀ o s, Safe o s → I s → I (h o s).2) (hs : I s) : I (run h x s).2 := by
  induction x generalizing s with
  | ret a => exact hs
  | act o k ih => exact ih (h o s).1 hx.2 (hI o s hx.1 hs)
  | stuck => exact hs

/-! ### Programs that use some operations only -/

def Only (P : Op → Prop) (Hang : Prop) : Prog Op Res α → Prop
  | ret _ => True
  | act o k => P o ∧ ∀ r, Only P Hang (k r)
  | stuck => Hang

variable {P : Op → Prop}

theorem Only.mono {P' : Op → Prop} {x : Prog Op Res α} (hx : Only P Hang x) (h : ∀ o, P o → P' o) :
    Only P' Hang x := by
  induction x with
  | ret a => exact hx
  | act o k ih => exact ⟨h o hx.1, fun r => ih r (hx.2 r)⟩
  | stuck => exact hx

theorem Only.bind {x : Prog Op Res α} {f : α → Prog Op Res β} (hx : Only P Hang x)
    (hf : ∀ a, Only P Hang (f a)) : Only P Hang (x >>= f) := by
  induction x with
  | ret a => exact hf a
  | act o k ih => exact ⟨hx.1, fun r => ih r (hx.2 r)⟩
  | stuck => exact hx

theorem Only.pure (a : α) : Only P Hang (Pure.pure a : Prog Op Res α) := trivial

theorem Only.perform {o : Op} (ho : P o) : Only P Hang (Prog.perform o : Prog Op Res _) :=
  ⟨ho, fun _ => trivial⟩

theorem Only.waitWhile {body : Prog Op Res Bool} (hb : Only P True body) (spin : ℕ) :
    Only P True (Prog.waitWhile body spin) := by
  induction spin with
  | zero => trivial
  | succ spin ih =>
    refine hb.bind fun b => ?_
    cases b with
    | false => exact trivial
    | true => exact ih

theorem Only.wp {x : Prog Op Res α} (hx : Only P Hang x)
    (hP : ∀ o, P o → ∀ s, I s → Safe o s ∧ I (h o s).2) {s : σ} (hs : I s) :
    wp h Safe Hang (fun _ => I) x s := by
  induction x generalizing s with
  | ret a => exact hs
  | act o k ih =>
    obtain ⟨hsafe, hnext⟩ := hP o hx.1 s hs
    exact ⟨hsafe, ih (h o s).1 (hx.2 _) hnext⟩
  | stuck => exact hx

/-- Two devices that answer the operations of a program alike give the same run. -/
theorem Only.simulates {τ : Type} {h' : (o : Op) → τ → Res o × τ} {R : σ → τ → Prop}
    {x : Prog Op Res α} (hx : Only P Hang x)
    (hstep : ∀ o, P o → ∀ s t, R s t → (h o s).1 = (h' o t).1 ∧ R (h o s).2 (h' o t).2)
    {s : σ} {t : τ} (hR : R s t) :
    (run h x s).1 = (run h' x t).1 ∧ R (run h x s).2 (run h' x t).2 := by
  induction x generalizing s t with
  | ret a => exact ⟨rfl, hR⟩
  | act o k ih =>
    obtain ⟨hres, hnext⟩ := hstep o hx.1 s t hR
    unfold run
    rw [hres]
    exact ih _ (hx.2 _) hnext
  | stuck => exact ⟨rfl, hR⟩

end Prog
end MultiEmbedded
