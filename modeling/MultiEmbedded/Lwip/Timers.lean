import MultiEmbedded.Lib.Agenda
import Mathlib.Algebra.Group.Nat.Defs
import Mathlib.Data.List.Forall2
import Mathlib.Data.Nat.Notation

/-!
# Timeouts (core/timers.c)

A list in which each timeout counts from the one before it, and a check that calls
the handlers of those that have expired. Time is counted in 32 bits. A timeout that
finds its pool empty stops the program at an assertion.
-/

namespace MultiEmbedded.Lwip
open Agenda

abbrev U32 := BitVec 32

/- `struct sys_timeo`. -/
structure Timeo (H A : Type) where
  time : U32
  h : Option H
  arg : A

/- `memp` counts the free elements of MEMP_SYS_TIMEOUT. -/
structure Timers (H A : Type) where
  next_timeout : List (Timeo H A)
  timeouts_last_time : U32
  memp : ℕ

variable {H A σ : Type}

/- The loop of `sys_timeout`, from an element that does not expire later. -/
def insertAfter (timeout : Timeo H A) : List (Timeo H A) → List (Timeo H A)
  | [] => [timeout]
  | t :: rest =>
    let timeout := { timeout with time := timeout.time - t.time }
    match rest with
    | [] => [t, timeout]
    | n :: rest' =>
      if n.time > timeout.time then t :: timeout :: { n with time := n.time - timeout.time } :: rest'
      else t :: insertAfter timeout (n :: rest')

def sysTimeout (msecs : U32) (h : Option H) (arg : A) (s : Timers H A) : Option (Timers H A) :=
  if s.memp = 0 then none
  else
    let timeout : Timeo H A := ⟨msecs, h, arg⟩
    let list :=
      match s.next_timeout with
      | [] => [timeout]
      | t :: rest =>
        if t.time > msecs then timeout :: { t with time := t.time - msecs } :: rest
        else insertAfter timeout (t :: rest)
    some { s with next_timeout := list, memp := s.memp - 1 }

section Untimeout
variable [DecidableEq H] [DecidableEq A]

/- The list without the first match, and whether there was one. -/
def unlink (h : Option H) (arg : A) : List (Timeo H A) → List (Timeo H A) × Bool
  | [] => ([], false)
  | t :: rest =>
    if t.h = h ∧ t.arg = arg then
      match rest with
      | [] => ([], true)
      | n :: rest' => ({ n with time := n.time + t.time } :: rest', true)
    else (t :: (unlink h arg rest).1, (unlink h arg rest).2)

def sysUntimeout (h : Option H) (arg : A) (s : Timers H A) : Timers H A :=
  let r := unlink h arg s.next_timeout
  { s with next_timeout := r.1, memp := if r.2 then s.memp + 1 else s.memp }

inductive Call (H A : Type)
  | sys_timeout (msecs : U32) (h : Option H) (arg : A)
  | sys_untimeout (h : Option H) (arg : A)

def Call.exec : Call H A → Timers H A → Option (Timers H A)
  | .sys_timeout msecs h arg, s => sysTimeout msecs h arg s
  | .sys_untimeout h arg, s => some (sysUntimeout h arg s)

def execAll : List (Call H A) → Timers H A → Option (Timers H A)
  | [], s => some s
  | c :: cs, s => (c.exec s).bind (execAll cs)

/- `called` keeps the calls of handlers with the time of `clock`, of which `sys_now` returns the
low 32 bits. -/
structure Sys (H A σ : Type) where
  timers : Timers H A
  world : σ
  clock : ℕ
  called : List (ℕ × Option H × A)

def Sys.now (s : Sys H A σ) : U32 := BitVec.ofNat 32 s.clock

/- What a handler asks of the timers, and what it leaves. -/
abbrev Handler (H A σ : Type) := H → A → σ → List (Call H A) × σ

def handle (handler : Handler H A σ) : Option H → A → σ → List (Call H A) × σ
  | none, _, w => ([], w)
  | some h, arg, w => handler h arg w

section Check
variable (handler : Handler H A σ)

/- The `do … while(had_one)` of `sys_check_timeouts`, for at most `fuel` turns. -/
def expire (now : U32) : ℕ → U32 → Sys H A σ → Option (Sys H A σ)
  | 0, _, _ => none
  | fuel + 1, diff, s =>
    match s.timers.next_timeout with
    | [] => some s
    | t :: rest =>
      if t.time ≤ diff then do
        let timers := { next_timeout := rest, timeouts_last_time := now, memp := s.timers.memp + 1 }
        let timers ← execAll (handle handler t.h t.arg s.world).1 timers
        expire now fuel (diff - t.time)
          { s with
            timers := timers
            world := (handle handler t.h t.arg s.world).2
            called := s.called ++ [(s.clock, t.h, t.arg)] }
      else some s

def sysCheckTimeouts (fuel : ℕ) (s : Sys H A σ) : Option (Sys H A σ) :=
  if s.timers.next_timeout = [] then some s
  else expire handler s.now (fuel + 1) (s.now - s.timers.timeouts_last_time) s

end Check

def sysRestartTimeouts (s : Sys H A σ) : Sys H A σ :=
  { s with timers := { s.timers with timeouts_last_time := s.now } }

/- What the program does: time passes, the main loop checks, and other code runs. -/
inductive Step (H A σ : Type)
  | wait (ms : ℕ)
  | sys_check_timeouts
  | sys_restart_timeouts
  | code (f : σ → List (Call H A) × σ)

section Run
variable (handler : Handler H A σ) (fuel : ℕ)

def Step.exec : Step H A σ → Sys H A σ → Option (Sys H A σ)
  | .wait ms, s => some { s with clock := s.clock + ms }
  | .sys_check_timeouts, s => sysCheckTimeouts handler fuel s
  | .sys_restart_timeouts, s => some (sysRestartTimeouts s)
  | .code f, s => do
    let timers ← execAll (f s.world).1 s.timers
    return { s with timers := timers, world := (f s.world).2 }

def runSteps : List (Step H A σ) → Sys H A σ → Option (Sys H A σ)
  | [], s => some s
  | x :: xs, s => (x.exec handler fuel s).bind (runSteps xs)

end Run

/-! ### The agenda behind the list -/

def entry (t : Timeo H A) : Option H × A := (t.h, t.arg)

/- The dates, if the list counts from `m`. -/
def dates : ℕ → List (Timeo H A) → List (ℕ × (Option H × A))
  | _, [] => []
  | m, t :: rest => (m + t.time.toNat, entry t) :: dates (m + t.time.toNat) rest

def Call.request : Call H A → Request (Option H × A)
  | .sys_timeout msecs h arg => .start msecs.toNat (h, arg)
  | .sys_untimeout h arg => .stop (h, arg)

variable {m : ℕ} {t : Timeo H A} {rest ts : List (Timeo H A)} {s s' : Timers H A}

omit [DecidableEq H] [DecidableEq A] in
theorem sub_toNat {a b : U32} (h : b ≤ a) : (a - b).toNat = a.toNat - b.toNat := BitVec.toNat_sub_of_le h

omit [DecidableEq H] [DecidableEq A] in
/- An element in front takes its time off the next one. -/
theorem dates_front {timeout : Timeo H A} (h : t.time > timeout.time) :
    dates m (timeout :: { t with time := t.time - timeout.time } :: rest) =
      (m + timeout.time.toNat, entry timeout) :: dates m (t :: rest) := by
  have hlt : timeout.time.toNat < t.time.toNat := h
  have hsub : (t.time - timeout.time).toNat = t.time.toNat - timeout.time.toNat := sub_toNat (BitVec.le_of_lt h)
  have hdate : m + timeout.time.toNat + (t.time - timeout.time).toNat = m + t.time.toNat := by omega
  show _ :: (_ + (t.time - timeout.time).toNat, entry t) :: dates (_ + (t.time - timeout.time).toNat) rest = _
  rw [hdate]
  rfl

omit [DecidableEq H] [DecidableEq A] in
theorem insertAfter_dates {timeout : Timeo H A} (h : t.time ≤ timeout.time) :
    dates m (insertAfter timeout (t :: rest)) =
      add (m + timeout.time.toNat) (entry timeout) (dates m (t :: rest)) := by
  induction rest generalizing m t timeout with
  | nil =>
    have hle : t.time.toNat ≤ timeout.time.toNat := h
    have hsub := sub_toNat h
    have hlate : ¬ m + timeout.time.toNat < m + t.time.toNat := by omega
    have hdate : m + t.time.toNat + (timeout.time - t.time).toNat = m + timeout.time.toNat := by omega
    show [_, (m + t.time.toNat + (timeout.time - t.time).toNat, entry timeout)] = add _ _ [_]
    unfold add
    rw [hdate, if_neg hlate]
    rfl
  | cons n rest ih =>
    have hle : t.time.toNat ≤ timeout.time.toNat := h
    have hsub := sub_toNat h
    have hlate : ¬ m + timeout.time.toNat < m + t.time.toNat := by omega
    have hdate : m + t.time.toNat + (timeout.time - t.time).toNat = m + timeout.time.toNat := by omega
    have hadd : add (m + timeout.time.toNat) (entry timeout) (dates m (t :: n :: rest)) =
        (m + t.time.toNat, entry t) :: add (m + timeout.time.toNat) (entry timeout) (dates (m + t.time.toNat) (n :: rest)) := by
      show add _ _ (_ :: _) = _
      rw [add, if_neg hlate]
    rw [hadd, insertAfter]
    by_cases hn : n.time > timeout.time - t.time
    · have hn' : (timeout.time - t.time).toNat < n.time.toNat := hn
      have hfront : m + timeout.time.toNat < m + t.time.toNat + n.time.toNat := by omega
      simp only [hn, if_true]
      show _ :: dates (m + t.time.toNat) _ = _
      rw [dates_front hn]
      show _ = _ :: add _ _ (_ :: _)
      rw [add, if_pos hfront]
      show _ :: (m + t.time.toNat + (timeout.time - t.time).toNat, _) :: _ = _
      rw [hdate]
      rfl
    · simp only [hn, if_false]
      show _ :: dates (m + t.time.toNat) _ = _
      rw [ih (BitVec.not_lt.mp hn)]
      show _ :: add (m + t.time.toNat + (timeout.time - t.time).toNat) _ _ = _
      rw [hdate]
      rfl

omit [DecidableEq H] [DecidableEq A] in
theorem sysTimeout_dates {msecs : U32} {h : Option H} {arg : A} (hs : sysTimeout msecs h arg s = some s') :
    dates m s'.next_timeout = add (m + msecs.toNat) (h, arg) (dates m s.next_timeout) := by
  unfold sysTimeout at hs
  split_ifs at hs with hpool
  cases hs
  show dates m (match s.next_timeout with | [] => _ | t :: rest => _) = _
  cases hl : s.next_timeout with
  | nil => rfl
  | cons t rest =>
    by_cases hfirst : t.time > msecs
    · have hlt : m + msecs.toNat < m + t.time.toNat := Nat.add_lt_add_left hfirst m
      simp only [hfirst, if_true]
      rw [dates_front hfirst]
      show _ = add _ _ (_ :: _)
      rw [add, if_pos hlt]
      rfl
    · simp only [hfirst, if_false]
      exact insertAfter_dates (BitVec.not_lt.mp hfirst)

/- No date is as far away as the counter is long. -/
def Near (m : ℕ) (l : List (ℕ × (Option H × A))) : Prop := ∀ a ∈ l, a.1 < m + 2 ^ 32

theorem unlink_dates (h : Option H) (arg : A) (hnear : Near m (dates m ts)) :
    dates m (unlink h arg ts).1 = cancel (h, arg) (dates m ts) := by
  induction ts generalizing m with
  | nil => rfl
  | cons t rest ih =>
    unfold unlink
    have hentry : (entry t = (h, arg)) ↔ t.h = h ∧ t.arg = arg := Prod.mk.injEq .. ▸ Iff.rfl
    by_cases hmatch : t.h = h ∧ t.arg = arg
    · have hcancel : cancel (h, arg) (dates m (t :: rest)) = dates (m + t.time.toNat) rest :=
        List.eraseP_cons_of_pos (decide_eq_true (hentry.mpr hmatch))
      rw [if_pos hmatch, hcancel]
      cases rest with
      | nil => rfl
      | cons n rest =>
        have hn : m + t.time.toNat + n.time.toNat < m + 2 ^ 32 :=
          hnear _ (List.mem_cons_of_mem _ (List.mem_cons_self ..))
        have hsum : (n.time + t.time).toNat = n.time.toNat + t.time.toNat :=
          BitVec.toNat_add_of_lt (by omega)
        have hdate : m + (n.time + t.time).toNat = m + t.time.toNat + n.time.toNat := by omega
        show (m + (n.time + t.time).toNat, entry n) :: dates (m + (n.time + t.time).toNat) rest = _
        rw [hdate]
        rfl
    · have hcancel : cancel (h, arg) (dates m (t :: rest)) =
          (m + t.time.toNat, entry t) :: cancel (h, arg) (dates (m + t.time.toNat) rest) :=
        List.eraseP_cons_of_neg (by simp [hentry, hmatch])
      have hrest : Near (m + t.time.toNat) (dates (m + t.time.toNat) rest) := fun a ha =>
        Nat.lt_of_lt_of_le (hnear a (List.mem_cons_of_mem _ ha)) (by omega)
      rw [if_neg hmatch, hcancel, ← ih hrest]
      rfl

theorem Call.exec_dates {c : Call H A} (hs : c.exec s = some s') (hnear : Near m (dates m s.next_timeout)) :
    dates m s'.next_timeout = c.request.apply m (dates m s.next_timeout) ∧ Near m (dates m s'.next_timeout) := by
  cases c with
  | sys_timeout msecs h arg =>
    have hdates : dates m s'.next_timeout = add (m + msecs.toNat) (h, arg) (dates m s.next_timeout) := sysTimeout_dates hs
    refine ⟨hdates, fun a ha => ?_⟩
    rw [hdates] at ha
    rcases mem_add.mp ha with rfl | ha
    · exact Nat.add_lt_add_left msecs.isLt m
    · exact hnear a ha
  | sys_untimeout h arg =>
    cases hs
    have hdates := unlink_dates h arg hnear
    refine ⟨hdates, fun a ha => hnear a ?_⟩
    have hmem : a ∈ cancel (h, arg) (dates m s.next_timeout) := hdates ▸ ha
    exact mem_cancel hmem

theorem execAll_dates {cs : List (Call H A)} (hs : execAll cs s = some s') (hnear : Near m (dates m s.next_timeout)) :
    dates m s'.next_timeout = applyAll m (cs.map Call.request) (dates m s.next_timeout) ∧
      Near m (dates m s'.next_timeout) := by
  induction cs generalizing s with
  | nil =>
    cases hs
    exact ⟨rfl, hnear⟩
  | cons c cs ih =>
    obtain ⟨s₁, hc, hcs⟩ := Option.bind_eq_some_iff.mp hs
    obtain ⟨hdates, hnear'⟩ := Call.exec_dates hc hnear
    obtain ⟨hrest, hlast⟩ := ih hcs hnear'
    refine ⟨?_, hlast⟩
    rw [hrest, hdates]
    rfl

/- Only the check and the restart set the time stamp. -/
theorem execAll_last {cs : List (Call H A)} (hs : execAll cs s = some s') :
    s'.timeouts_last_time = s.timeouts_last_time := by
  induction cs generalizing s with
  | nil =>
    cases hs
    rfl
  | cons c cs ih =>
    obtain ⟨s₁, hc, hcs⟩ := Option.bind_eq_some_iff.mp hs
    rw [ih hcs]
    cases c with
    | sys_timeout msecs h arg =>
      replace hc : sysTimeout msecs h arg s = some s₁ := hc
      unfold sysTimeout at hc
      split_ifs at hc
      cases hc
      rfl
    | sys_untimeout h arg =>
      cases hc
      rfl

/-! ### The check serves the agenda -/

variable {handler : Handler H A σ} {c c' : Clerk (Option H × A) σ} {x x' : Sys H A σ}

def react (handler : Handler H A σ) (e : Option H × A) (w : σ) : List (Request (Option H × A)) × σ :=
  ((handle handler e.1 e.2 w).1.map Call.request, (handle handler e.1 e.2 w).2)

/- No handler is called before its date. -/
structure Rep (c : Clerk (Option H × A) σ) (x : Sys H A σ) : Prop where
  list : dates c.mark x.timers.next_timeout = c.list
  near : Near c.mark c.list
  world : x.world = c.world
  called : List.Forall₂ (fun call a => call.2 = a.2 ∧ a.1 ≤ call.1) x.called c.served

theorem Rep.expired (h : Rep c x) (hl : x.timers.next_timeout = t :: rest) {timers : Timers H A} {now : U32}
    (hexec : execAll (handle handler t.h t.arg x.world).1 ⟨rest, now, x.timers.memp + 1⟩ = some timers)
    (hdue : c.mark + t.time.toNat ≤ x.clock) :
    c.list = (c.mark + t.time.toNat, entry t) :: dates (c.mark + t.time.toNat) rest ∧
      Rep (c.next (react handler) (c.mark + t.time.toNat, entry t) (dates (c.mark + t.time.toNat) rest))
        { x with
          timers := timers
          world := (handle handler t.h t.arg x.world).2
          called := x.called ++ [(x.clock, t.h, t.arg)] } := by
  have hlist : c.list = (c.mark + t.time.toNat, entry t) :: dates (c.mark + t.time.toNat) rest := by
    rw [← h.list, hl]
    rfl
  have hnear : Near (c.mark + t.time.toNat) (dates (c.mark + t.time.toNat) rest) := by
    intro a ha
    have hfar := h.near a (hlist ▸ List.mem_cons_of_mem _ ha)
    omega
  obtain ⟨hdates, hnear'⟩ := execAll_dates hexec hnear
  have hreact : react handler (entry t) c.world = react handler (entry t) x.world := by rw [h.world]
  refine ⟨hlist, ⟨?_, ?_, ?_, ?_⟩⟩
  · show dates _ _ = applyAll _ (react handler (entry t) c.world).1 _
    rw [hreact]
    exact hdates
  · show Near _ (applyAll _ (react handler (entry t) c.world).1 _)
    rw [hreact]
    have hnear'' := hnear'
    rw [hdates] at hnear''
    exact hnear''
  · show _ = (react handler (entry t) c.world).2
    rw [hreact]
    rfl
  · exact List.rel_append h.called (List.Forall₂.cons ⟨rfl, hdue⟩ List.Forall₂.nil)

theorem expire_serves {now diff : U32} {fuel limit : ℕ} (h : Rep c x) (hlimit : c.mark + diff.toNat = limit)
    (hclock : limit ≤ x.clock) (hexp : expire handler now fuel diff x = some x') :
    ∃ c', c.serve (react handler) limit fuel = some c' ∧ Rep c' x' ∧ x'.clock = x.clock ∧
      x'.timers.timeouts_last_time =
        if c'.served.length = c.served.length then x.timers.timeouts_last_time else now := by
  induction fuel generalizing c x diff with
  | zero => exact absurd hexp (Option.some_ne_none x').symm
  | succ fuel ih =>
    unfold expire at hexp
    unfold Clerk.serve
    cases hl : x.timers.next_timeout with
    | nil =>
      have hlist : c.list = [] := by
        rw [← h.list, hl]
        rfl
      rw [hl] at hexp
      cases hexp
      rw [hlist]
      exact ⟨c, rfl, h, rfl, (if_pos rfl).symm⟩
    | cons t rest =>
      rw [hl] at hexp
      have hlist : c.list = (c.mark + t.time.toNat, entry t) :: dates (c.mark + t.time.toNat) rest := by
        rw [← h.list, hl]
        rfl
      by_cases hdue : t.time ≤ diff
      · have hle : t.time.toNat ≤ diff.toNat := hdue
        have hsub := sub_toNat hdue
        have hlate : c.mark + t.time.toNat ≤ limit := by omega
        simp only [hdue, if_true] at hexp
        obtain ⟨timers, hexec, hrest⟩ := Option.bind_eq_some_iff.mp hexp
        obtain ⟨-, hrep⟩ := h.expired hl hexec (Nat.le_trans hlate hclock)
        obtain ⟨c', hserve, hrep', hsame, hlast⟩ := ih hrep
          (show c.mark + t.time.toNat + (diff - t.time).toNat = limit by omega) hclock hrest
        refine ⟨c', ?_, hrep', hsame, ?_⟩
        · rw [hlist]
          simp only [hlate, if_true]
          exact hserve
        · have hgrows := Clerk.serve_grows hserve
          have hone : (c.next (react handler) (c.mark + t.time.toNat, entry t)
              (dates (c.mark + t.time.toNat) rest)).served.length = c.served.length + 1 := List.length_append
          have hstamp : timers.timeouts_last_time = now := execAll_last hexec
          rw [hlast, if_neg (by omega : ¬ c'.served.length = c.served.length)]
          split_ifs
          · exact hstamp
          · rfl
      · have hlt : diff.toNat < t.time.toNat := BitVec.lt_def.mp (BitVec.not_le.mp hdue)
        have hlate : ¬ c.mark + t.time.toNat ≤ limit := by omega
        simp only [hdue, if_false] at hexp
        cases hexp
        refine ⟨c, ?_, h, rfl, (if_pos rfl).symm⟩
        rw [hlist]
        simp only [hlate, if_false]

/- A property that every call of a handler keeps, and with which the pool is never empty. -/
def Kept (handler : Handler H A σ) (I : Sys H A σ → Prop) : Prop :=
  ∀ (x : Sys H A σ) t rest now, I x → x.timers.next_timeout = t :: rest → ∃ timers,
    execAll (handle handler t.h t.arg x.world).1 ⟨rest, now, x.timers.memp + 1⟩ = some timers ∧
    I { x with
      timers := timers
      world := (handle handler t.h t.arg x.world).2
      called := x.called ++ [(x.clock, t.h, t.arg)] }

theorem expire_kept {I : Sys H A σ → Prop} (hI : Kept handler I) {now diff : U32} {fuel limit : ℕ} (h : Rep c x) (hx : I x)
    (hlimit : c.mark + diff.toNat = limit) (hclock : limit ≤ x.clock)
    (hserve : c.serve (react handler) limit fuel = some c') :
    ∃ x', expire handler now fuel diff x = some x' ∧ I x' := by
  induction fuel generalizing c x diff with
  | zero => exact absurd hserve (Option.some_ne_none c').symm
  | succ fuel ih =>
    unfold expire
    unfold Clerk.serve at hserve
    cases hl : x.timers.next_timeout with
    | nil => exact ⟨x, rfl, hx⟩
    | cons t rest =>
      have hlist : c.list = (c.mark + t.time.toNat, entry t) :: dates (c.mark + t.time.toNat) rest := by
        rw [← h.list, hl]
        rfl
      rw [hlist] at hserve
      by_cases hdue : t.time ≤ diff
      · have hle : t.time.toNat ≤ diff.toNat := hdue
        have hsub := sub_toNat hdue
        have hlate : c.mark + t.time.toNat ≤ limit := by omega
        simp only [hlate, if_true] at hserve
        obtain ⟨timers, hexec, hnext⟩ := hI x t rest now hx hl
        obtain ⟨-, hrep⟩ := h.expired hl hexec (Nat.le_trans hlate hclock)
        obtain ⟨x', hexp, hx'⟩ := ih hrep hnext
          (show c.mark + t.time.toNat + (diff - t.time).toNat = limit by omega) hclock hserve
        refine ⟨x', ?_, hx'⟩
        simp only [hdue, if_true]
        exact Option.bind_eq_some_iff.mpr ⟨timers, hexec, hexp⟩
      · refine ⟨x, ?_, hx⟩
        simp only [hdue, if_false]

/-! ### Whole runs -/

/- The agenda of the program. Its clock stands still from the last entry served to the next
check; `base` is the time of the stamp. -/
structure Plan (H A σ : Type) where
  clerk : Clerk (Option H × A) σ
  base : ℕ
  clock : ℕ

/- The date up to which a check serves. -/
def Plan.limit (p : Plan H A σ) : ℕ := p.clerk.mark + (p.clock - p.base) % 2 ^ 32

def Step.plan (handler : Handler H A σ) (fuel : ℕ) : Step H A σ → Plan H A σ → Option (Plan H A σ)
  | .wait ms, p => some { p with clock := p.clock + ms }
  | .sys_check_timeouts, p => do
    let clerk ← p.clerk.serve (react handler) p.limit (fuel + 1)
    return { p with
      clerk := clerk
      base := if clerk.served.length = p.clerk.served.length then p.base else p.clock }
  | .sys_restart_timeouts, p => some { p with base := p.clock }
  | .code f, p =>
    let clerk := p.clerk.ask ((f p.clerk.world).1.map Call.request)
    some { p with clerk := { clerk with world := (f p.clerk.world).2 } }

def planSteps (handler : Handler H A σ) (fuel : ℕ) : List (Step H A σ) → Plan H A σ → Option (Plan H A σ)
  | [], p => some p
  | x :: xs, p => (x.plan handler fuel p).bind (planSteps handler fuel xs)

structure Follows (p : Plan H A σ) (x : Sys H A σ) : Prop where
  rep : Rep p.clerk x
  good : p.clerk.Good
  stamp : x.timers.timeouts_last_time = BitVec.ofNat 32 p.base
  clock : x.clock = p.clock
  behind : p.clerk.mark ≤ p.base ∧ p.base ≤ p.clock

variable {p p' : Plan H A σ} {fuel : ℕ}

omit [DecidableEq H] [DecidableEq A] in
theorem Follows.diff (h : Follows p x) :
    p.clerk.mark + (x.now - x.timers.timeouts_last_time).toNat = p.limit ∧ p.limit ≤ x.clock := by
  obtain ⟨hmark, hbase⟩ := h.behind
  have hsub : (BitVec.ofNat 32 p.clock - BitVec.ofNat 32 p.base).toNat = (p.clock - p.base) % 2 ^ 32 := by
    rw [BitVec.toNat_sub, BitVec.toNat_ofNat, BitVec.toNat_ofNat]
    omega
  have hmod : (p.clock - p.base) % 2 ^ 32 ≤ p.clock - p.base := Nat.mod_le _ _
  unfold Sys.now Plan.limit
  rw [h.stamp, h.clock, hsub]
  exact ⟨rfl, by omega⟩

theorem Step.follows {step : Step H A σ} (h : Follows p x) (hx : step.exec handler fuel x = some x') :
    ∃ p', step.plan handler fuel p = some p' ∧ Follows p' x' := by
  obtain ⟨hmark, hbase⟩ := h.behind
  cases step with
  | wait ms =>
    cases hx
    refine ⟨_, rfl, ⟨h.rep.list, h.rep.near, h.rep.world, h.rep.called⟩, h.good, h.stamp, ?_, hmark,
      Nat.le_trans hbase (Nat.le_add_right _ _)⟩
    exact congrArg (· + ms) h.clock
  | sys_check_timeouts =>
    obtain ⟨hlimit, hclock⟩ := h.diff
    replace hx : sysCheckTimeouts handler fuel x = some x' := hx
    unfold sysCheckTimeouts at hx
    have hserves : ∃ c', p.clerk.serve (react handler) p.limit (fuel + 1) = some c' ∧ Rep c' x' ∧ x'.clock = x.clock ∧
        x'.timers.timeouts_last_time =
          if c'.served.length = p.clerk.served.length then x.timers.timeouts_last_time else x.now := by
      by_cases hempty : x.timers.next_timeout = []
      · rw [if_pos hempty] at hx
        cases hx
        have hlist : p.clerk.list = [] := by
          rw [← h.rep.list, hempty]
          rfl
        refine ⟨p.clerk, ?_, h.rep, rfl, (if_pos rfl).symm⟩
        unfold Clerk.serve
        rw [hlist]
      · rw [if_neg hempty] at hx
        exact expire_serves h.rep hlimit hclock hx
    obtain ⟨c', hserve, hrep, hsame, hstamp⟩ := hserves
    have hround := Clerk.serve_round h.good hserve
    refine ⟨_, Option.bind_eq_some_iff.mpr ⟨c', hserve, rfl⟩, hrep, hround.good, ?_, hsame.trans h.clock, ?_⟩
    · rw [hstamp]
      split_ifs
      · exact h.stamp
      · unfold Sys.now
        rw [h.clock]
    · rw [h.clock] at hclock
      show c'.mark ≤ (if _ then _ else _) ∧ (if _ then _ else _) ≤ p.clock
      rcases hround.served with rfl | ⟨hmore, hle⟩
      · rw [if_pos rfl]
        exact ⟨hmark, hbase⟩
      · rw [if_neg (Nat.ne_of_gt hmore)]
        exact ⟨Nat.le_trans hle hclock, Nat.le_refl _⟩
  | sys_restart_timeouts =>
    cases hx
    refine ⟨_, rfl, ⟨h.rep.list, h.rep.near, h.rep.world, h.rep.called⟩, h.good, ?_, h.clock,
      Nat.le_trans hmark hbase, Nat.le_refl _⟩
    show x.now = _
    unfold Sys.now
    rw [h.clock]
  | code f =>
    obtain ⟨timers, hexec, hx⟩ := Option.bind_eq_some_iff.mp hx
    cases hx
    have hnear : Near p.clerk.mark (dates p.clerk.mark x.timers.next_timeout) := by
      rw [h.rep.list]
      exact h.rep.near
    obtain ⟨hdates, hnear'⟩ := execAll_dates hexec hnear
    have hlist : dates p.clerk.mark timers.next_timeout =
        applyAll p.clerk.mark ((f p.clerk.world).1.map Call.request) p.clerk.list := by
      rw [hdates, h.rep.list, h.rep.world]
    have hgood := h.good.ask ((f p.clerk.world).1.map Call.request)
    refine ⟨_, rfl, ⟨hlist, ?_, ?_, h.rep.called⟩, ⟨hgood.sorted, hgood.ahead, hgood.inOrder, hgood.past⟩, ?_,
      h.clock, hmark, hbase⟩
    · rw [hlist] at hnear'
      exact hnear'
    · show (f x.world).2 = (f p.clerk.world).2
      rw [h.rep.world]
    · exact (execAll_last hexec).trans h.stamp

theorem runSteps_keeps {steps : List (Step H A σ)} (h : Follows p x) (hrun : runSteps handler fuel steps x = some x') :
    ∃ p', planSteps handler fuel steps p = some p' ∧ Follows p' x' := by
  induction steps generalizing p x with
  | nil =>
    cases hrun
    exact ⟨p, rfl, h⟩
  | cons step steps ih =>
    obtain ⟨x₁, hx, hrest⟩ := Option.bind_eq_some_iff.mp hrun
    obtain ⟨p₁, hp, h₁⟩ := Step.follows h hx
    obtain ⟨p', hp', h'⟩ := ih h₁ hrest
    exact ⟨p', Option.bind_eq_some_iff.mpr ⟨p₁, hp, hp'⟩, h'⟩

def Step.Keeps (I : Sys H A σ → Prop) : Step H A σ → Prop
  | .wait ms => ∀ x, I x → I { x with clock := x.clock + ms }
  | .sys_check_timeouts => True
  | .sys_restart_timeouts => ∀ x, I x → I (sysRestartTimeouts x)
  | .code f => ∀ x, I x → ∃ timers, execAll (f x.world).1 x.timers = some timers ∧
      I { x with timers := timers, world := (f x.world).2 }

/- Neither the pool nor the fuel runs out in a step. -/
theorem Step.ends {I : Sys H A σ → Prop} (hI : Kept handler I) (hwaits : ∀ e w, ∀ r ∈ (react handler e w).1, Waits 1 r)
    {step : Step H A σ} (hstep : step.Keeps I) (hgood : p.clerk.Good) :
    ∃ n p', p'.clerk.Good ∧ ∀ fuel, n ≤ fuel → step.plan handler fuel p = some p' ∧
      ∀ x, Follows p x → I x → ∃ x', step.exec handler fuel x = some x' ∧ I x' := by
  cases step with
  | wait ms => exact ⟨0, { p with clock := p.clock + ms }, hgood, fun fuel _ => ⟨rfl, fun x _ hx => ⟨_, rfl, hstep x hx⟩⟩⟩
  | sys_check_timeouts =>
    obtain ⟨n, c', hserve⟩ := Clerk.serve_ends hgood hwaits p.limit
    refine ⟨n, { p with
      clerk := c'
      base := if c'.served.length = p.clerk.served.length then p.base else p.clock },
      (Clerk.serve_round hgood hserve).good, fun fuel hle => ?_⟩
    have hmore := Clerk.serve_mono hserve (Nat.le_trans hle (Nat.le_succ fuel))
    refine ⟨Option.bind_eq_some_iff.mpr ⟨c', hmore, rfl⟩, fun x h hx => ?_⟩
    obtain ⟨hlimit, hclock⟩ := h.diff
    show ∃ x', sysCheckTimeouts handler fuel x = some x' ∧ I x'
    unfold sysCheckTimeouts
    by_cases hempty : x.timers.next_timeout = []
    · rw [if_pos hempty]
      exact ⟨x, rfl, hx⟩
    · rw [if_neg hempty]
      exact expire_kept hI h.rep hx hlimit hclock hmore
  | sys_restart_timeouts => exact ⟨0, { p with base := p.clock }, hgood, fun fuel _ => ⟨rfl, fun x _ hx => ⟨_, rfl, hstep x hx⟩⟩⟩
  | code f =>
    have hask := hgood.ask ((f p.clerk.world).1.map Call.request)
    refine ⟨0, { p with clerk := { p.clerk.ask ((f p.clerk.world).1.map Call.request) with world := (f p.clerk.world).2 } },
      ⟨hask.sorted, hask.ahead, hask.inOrder, hask.past⟩, fun fuel _ => ⟨rfl, fun x _ hx => ?_⟩⟩
    obtain ⟨timers, hexec, hnext⟩ := hstep x hx
    exact ⟨_, Option.bind_eq_some_iff.mpr ⟨timers, hexec, rfl⟩, hnext⟩

/-- With enough fuel a run gives one result, if no handler asks for a timeout of 0 ms and the pool
never runs out. -/
theorem runSteps_ends {I : Sys H A σ → Prop} (hI : Kept handler I) (hwaits : ∀ e w, ∀ r ∈ (react handler e w).1, Waits 1 r)
    {steps : List (Step H A σ)} (hsteps : ∀ step ∈ steps, step.Keeps I) (hgood : p.clerk.Good) :
    ∃ n p', ∀ fuel, n ≤ fuel → planSteps handler fuel steps p = some p' ∧
      ∀ x, Follows p x → I x → ∃ x', runSteps handler fuel steps x = some x' ∧ Follows p' x' ∧ I x' := by
  induction steps generalizing p with
  | nil => exact ⟨0, p, fun fuel _ => ⟨rfl, fun x h hx => ⟨x, rfl, h, hx⟩⟩⟩
  | cons step steps ih =>
    obtain ⟨n, p₁, hgood₁, hstep⟩ := Step.ends hI hwaits (hsteps step (List.mem_cons_self ..)) hgood
    obtain ⟨n', p', hrest⟩ := ih (fun s hs => hsteps s (List.mem_cons_of_mem _ hs)) hgood₁
    refine ⟨n + n', p', fun fuel hle => ?_⟩
    obtain ⟨hplan, hexec⟩ := hstep fuel (by omega)
    obtain ⟨hplan', hexec'⟩ := hrest fuel (by omega)
    refine ⟨Option.bind_eq_some_iff.mpr ⟨p₁, hplan, hplan'⟩, fun x h hx => ?_⟩
    obtain ⟨x₁, hx₁, hI₁⟩ := hexec x h hx
    obtain ⟨p₁', hp₁, h₁⟩ := Step.follows h hx₁
    cases hplan.symm.trans hp₁
    obtain ⟨x', hx', h', hI'⟩ := hexec' x₁ h₁ hI₁
    exact ⟨x', Option.bind_eq_some_iff.mpr ⟨x₁, hx₁, hx'⟩, h', hI'⟩

/- No timeout is pending, and the stamp is that of `clock`. -/
def idle (w : σ) (clock pool : ℕ) : Sys H A σ := ⟨⟨[], BitVec.ofNat 32 clock, pool⟩, w, clock, []⟩

def blank (w : σ) (clock : ℕ) : Plan H A σ := ⟨⟨clock, [], w, []⟩, clock, clock⟩

omit [DecidableEq H] [DecidableEq A] in
theorem idle_follows (w : σ) (clock pool : ℕ) : Follows (blank w clock : Plan H A σ) (idle w clock pool) := by
  refine ⟨⟨rfl, fun a ha => absurd ha List.not_mem_nil, rfl, List.Forall₂.nil⟩, ⟨List.Pairwise.nil, ?_, List.Pairwise.nil, ?_⟩,
    rfl, rfl, Nat.le_refl _, Nat.le_refl _⟩
  · exact fun a ha => absurd ha List.not_mem_nil
  · exact fun a ha => absurd ha List.not_mem_nil

/-- Every run of the timers is one of the agenda: the same handlers are called in the same order,
by date, and none before its date, however the 32-bit clock wraps. -/
theorem runSteps_follows (handler : Handler H A σ) (fuel : ℕ) (w : σ) (clock pool : ℕ) (steps : List (Step H A σ))
    {x' : Sys H A σ} (hrun : runSteps handler fuel steps (idle w clock pool) = some x') :
    ∃ p', planSteps handler fuel steps (blank w clock) = some p' ∧ Follows p' x' :=
  runSteps_keeps (idle_follows w clock pool) hrun

end Untimeout

/- Two timeouts, the clock about to wrap, and a check behind both dates. -/
theorem runSteps_follows_wrap : ∃ (x' : Sys ℕ ℕ Unit) (p' : Plan ℕ ℕ Unit),
    planSteps (fun h arg _ => ([.sys_timeout 1000 (some h) arg], ())) 9
      [.code fun _ => ([.sys_timeout 300 (some 1) 7, .sys_timeout 200 (some 2) 8], ()), .wait 350, .sys_check_timeouts]
      (blank () 4294967200) = some p' ∧ Follows p' x' ∧ x'.called = [(4294967550, some 2, 8), (4294967550, some 1, 7)] := by
  obtain ⟨p', hp, hf⟩ := runSteps_follows (fun h arg _ => ([.sys_timeout 1000 (some h) arg], ())) 9 () 4294967200 3
    [.code fun _ => ([.sys_timeout 300 (some (1 : ℕ)) (7 : ℕ), .sys_timeout 200 (some 2) 8], ()), .wait 350, .sys_check_timeouts] rfl
  exact ⟨_, p', hp, hf, rfl⟩

end MultiEmbedded.Lwip
