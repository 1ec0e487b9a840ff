import MultiEmbedded.Lwip.Timers

/-!
# The timers of the stack (core/timers.c)

ARP and IP reassembly start themselves anew; the TCP timer runs while there are
connections. MEMP_SYS_TIMEOUT has one element for each.
-/

namespace MultiEmbedded.Lwip
open Agenda

def TCP_TMR_INTERVAL : U32 := 250
def IP_TMR_INTERVAL : U32 := 1000
def ARP_TMR_INTERVAL : U32 := 5000

def LWIP_TCP : ℕ := 1
def IP_REASSEMBLY : ℕ := 1
def LWIP_ARP : ℕ := 1
def LWIP_DHCP : ℕ := 0
def LWIP_AUTOIP : ℕ := 0
def LWIP_IGMP : ℕ := 0
def LWIP_DNS : ℕ := 0
def PPP_SUPPORT : ℕ := 0

def MEMP_NUM_SYS_TIMEOUT : ℕ :=
  LWIP_TCP + IP_REASSEMBLY + LWIP_ARP + 2 * LWIP_DHCP + LWIP_AUTOIP + LWIP_IGMP + LWIP_DNS + PPP_SUPPORT

inductive Timer
  | tcpip_tcp_timer
  | ip_reass_timer
  | arp_timer
  deriving DecidableEq

/- `looks` counts how often the lists of connections were looked at. -/
structure Stack where
  tcpip_tcp_timer_active : Bool
  looks : ℕ

section Handlers
variable (pcbs : ℕ → Bool)

/- `pcbs n` tells whether `tcp_active_pcbs` or `tcp_tw_pcbs` has a connection at the `n`-th look;
what `tcp_tmr`, `ip_reass_tmr` and `etharp_tmr` do asks nothing of the timers. -/
def stackHandler : Handler Timer Unit Stack
  | .tcpip_tcp_timer, _, w =>
    if pcbs w.looks then
      ([.sys_timeout TCP_TMR_INTERVAL (some .tcpip_tcp_timer) ()], { w with looks := w.looks + 1 })
    else ([], { tcpip_tcp_timer_active := false, looks := w.looks + 1 })
  | .ip_reass_timer, _, w => ([.sys_timeout IP_TMR_INTERVAL (some .ip_reass_timer) ()], w)
  | .arp_timer, _, w => ([.sys_timeout ARP_TMR_INTERVAL (some .arp_timer) ()], w)

def tcpTimerNeeded (w : Stack) : List (Call Timer Unit) × Stack :=
  if w.tcpip_tcp_timer_active then ([], w)
  else if pcbs w.looks then
    ([.sys_timeout TCP_TMR_INTERVAL (some .tcpip_tcp_timer) ()], { tcpip_tcp_timer_active := true, looks := w.looks + 1 })
  else ([], { w with looks := w.looks + 1 })

end Handlers

def sysTimeoutsInit (x : Sys Timer Unit Stack) : Option (Sys Timer Unit Stack) := do
  let timers ← execAll [.sys_timeout IP_TMR_INTERVAL (some .ip_reass_timer) (),
    .sys_timeout ARP_TMR_INTERVAL (some .arp_timer) ()] x.timers
  return { x with timers := { timers with timeouts_last_time := x.now } }

/- What the main loop and the packets it takes in can do to the timers. -/
inductive StackStep
  | wait (ms : ℕ)
  | sys_check_timeouts
  | sys_restart_timeouts
  | tcp_timer_needed

def StackStep.step (pcbs : ℕ → Bool) : StackStep → Step Timer Unit Stack
  | .wait ms => .wait ms
  | .sys_check_timeouts => .sys_check_timeouts
  | .sys_restart_timeouts => .sys_restart_timeouts
  | .tcp_timer_needed => .code (tcpTimerNeeded pcbs)

/-! ### The pool -/

def pending (active : Bool) : List (Option Timer × Unit) :=
  (some .ip_reass_timer, ()) :: (some .arp_timer, ()) :: if active then [(some .tcpip_tcp_timer, ())] else []

/- Each timer of the stack is pending once, the TCP timer while its flag is set. -/
structure Single (x : Sys Timer Unit Stack) : Prop where
  timers : (x.timers.next_timeout.map entry).Perm (pending x.world.tcpip_tcp_timer_active)
  pool : x.timers.memp + x.timers.next_timeout.length = MEMP_NUM_SYS_TIMEOUT

variable {pcbs : ℕ → Bool} {x x' : Sys Timer Unit Stack} {s s' : Timers Timer Unit}

theorem entries_dates (ts : List (Timeo Timer Unit)) (m : ℕ) : (dates m ts).map Prod.snd = ts.map entry := by
  induction ts generalizing m with
  | nil => rfl
  | cons t rest ih => exact congrArg (entry t :: ·) (ih _)

/- A new timeout takes an element of the pool. -/
theorem sysTimeout_entries (msecs : U32) (h : Option Timer) (hpool : s.memp ≠ 0) :
    ∃ s', sysTimeout msecs h () s = some s' ∧ (s'.next_timeout.map entry).Perm ((h, ()) :: s.next_timeout.map entry) ∧
      s'.memp + 1 = s.memp := by
  have hsome : ∃ s', sysTimeout msecs h () s = some s' ∧ s'.memp + 1 = s.memp := by
    unfold sysTimeout
    rw [if_neg hpool]
    exact ⟨_, rfl, Nat.succ_pred_eq_of_ne_zero hpool⟩
  obtain ⟨s', hs, hmemp⟩ := hsome
  refine ⟨s', hs, ?_, hmemp⟩
  have hdates := sysTimeout_dates (m := 0) hs
  rw [← entries_dates s'.next_timeout 0, ← entries_dates s.next_timeout 0, hdates]
  exact (add_perm _ _ _).map _

/- A handler that starts its timer anew. -/
theorem Single.again (hx : Single x) {t : Timeo Timer Unit} {rest : List (Timeo Timer Unit)} (now : U32)
    (hl : x.timers.next_timeout = t :: rest) (msecs : U32) (h : Timer) (hh : t.h = some h) :
    ∃ timers, execAll [.sys_timeout msecs (some h) ()] ⟨rest, now, x.timers.memp + 1⟩ = some timers ∧
      (timers.next_timeout.map entry).Perm (pending x.world.tcpip_tcp_timer_active) ∧
      timers.memp + timers.next_timeout.length = MEMP_NUM_SYS_TIMEOUT := by
  obtain ⟨timers, hs, hperm, hmemp⟩ :=
    sysTimeout_entries (s := ⟨rest, now, x.timers.memp + 1⟩) msecs (some h) (Nat.succ_ne_zero _)
  have htimers := hx.timers
  have hpool := hx.pool
  rw [hl] at htimers hpool
  have hentry : entry t = (some h, ()) := by
    unfold entry
    rw [hh]
  have hlen := hperm.length_eq
  rw [List.length_map, List.length_cons, List.length_map] at hlen
  refine ⟨timers, Option.bind_eq_some_iff.mpr ⟨timers, hs, rfl⟩, hperm.trans (hentry ▸ htimers), ?_⟩
  rw [List.length_cons] at hpool
  change timers.memp + 1 = x.timers.memp + 1 at hmemp
  change timers.next_timeout.length = rest.length + 1 at hlen
  omega

theorem pending_tcp {active : Bool} (h : (some Timer.tcpip_tcp_timer, ()) ∈ pending active) : active = true := by
  cases active with
  | true => rfl
  | false => exact absurd h (by decide)

theorem pending_some {active : Bool} (h : (none, ()) ∈ pending active) : False := by
  cases active with
  | true => exact absurd h (by decide)
  | false => exact absurd h (by decide)

theorem stackHandler_kept (pcbs : ℕ → Bool) : Kept (stackHandler pcbs) Single := by
  intro x t rest now hx hl
  have hmem : entry t ∈ pending x.world.tcpip_tcp_timer_active := by
    refine hx.timers.subset ?_
    rw [hl]
    exact List.mem_cons_self ..
  obtain ⟨time, h, ⟨⟩⟩ := t
  cases h with
  | none => exact (pending_some hmem).elim
  | some h =>
    cases h with
    | ip_reass_timer =>
      obtain ⟨timers, hs, hperm, hpool⟩ := hx.again now hl IP_TMR_INTERVAL .ip_reass_timer rfl
      exact ⟨timers, hs, hperm, hpool⟩
    | arp_timer =>
      obtain ⟨timers, hs, hperm, hpool⟩ := hx.again now hl ARP_TMR_INTERVAL .arp_timer rfl
      exact ⟨timers, hs, hperm, hpool⟩
    | tcpip_tcp_timer =>
      have hactive := pending_tcp hmem
      by_cases hneeded : pcbs x.world.looks = true
      · have hreact : handle (stackHandler pcbs) (some .tcpip_tcp_timer) () x.world =
            ([.sys_timeout TCP_TMR_INTERVAL (some .tcpip_tcp_timer) ()], { x.world with looks := x.world.looks + 1 }) :=
          if_pos hneeded
        obtain ⟨timers, hs, hperm, hpool⟩ := hx.again now hl TCP_TMR_INTERVAL .tcpip_tcp_timer rfl
        simp only [hreact]
        exact ⟨timers, hs, hperm, hpool⟩
      · have hreact : handle (stackHandler pcbs) (some .tcpip_tcp_timer) () x.world =
            ([], { tcpip_tcp_timer_active := false, looks := x.world.looks + 1 }) := if_neg hneeded
        have htimers := hx.timers
        have hpool := hx.pool
        rw [hl, hactive] at htimers
        rw [hl, List.length_cons] at hpool
        have hlast : (pending true).Perm ((some .tcpip_tcp_timer, ()) :: pending false) := by decide
        simp only [hreact]
        refine ⟨_, rfl, List.Perm.cons_inv (htimers.trans hlast), ?_⟩
        show x.timers.memp + 1 + rest.length = MEMP_NUM_SYS_TIMEOUT
        omega

theorem stackStep_keeps (pcbs : ℕ → Bool) (step : StackStep) : (step.step pcbs).Keeps Single := by
  cases step with
  | wait ms => exact fun x hx => ⟨hx.timers, hx.pool⟩
  | sys_check_timeouts => trivial
  | sys_restart_timeouts => exact fun x hx => ⟨hx.timers, hx.pool⟩
  | tcp_timer_needed =>
    intro x hx
    by_cases hactive : x.world.tcpip_tcp_timer_active = true
    · have hcode : tcpTimerNeeded pcbs x.world = ([], x.world) := if_pos hactive
      rw [hcode]
      exact ⟨_, rfl, hx.timers, hx.pool⟩
    have hidle : x.world.tcpip_tcp_timer_active = false := by simpa using hactive
    have htimers := hx.timers
    rw [hidle] at htimers
    by_cases hneeded : pcbs x.world.looks = true
    · have hcode : tcpTimerNeeded pcbs x.world =
          ([.sys_timeout TCP_TMR_INTERVAL (some .tcpip_tcp_timer) ()], ⟨true, x.world.looks + 1⟩) := by
        unfold tcpTimerNeeded
        rw [if_neg hactive, if_pos hneeded]
      have hlen := htimers.length_eq
      rw [List.length_map] at hlen
      have hpool := hx.pool
      change x.timers.next_timeout.length = 2 at hlen
      change x.timers.memp + x.timers.next_timeout.length = 3 at hpool
      obtain ⟨timers, hs, hperm, hmemp⟩ :=
        sysTimeout_entries (s := x.timers) TCP_TMR_INTERVAL (some .tcpip_tcp_timer) (by omega)
      have hlast : ((some Timer.tcpip_tcp_timer, ()) :: pending false).Perm (pending true) := by decide
      have hlen' := hperm.length_eq
      rw [List.length_map, List.length_cons, List.length_map] at hlen'
      rw [hcode]
      refine ⟨timers, Option.bind_eq_some_iff.mpr ⟨timers, hs, rfl⟩, hperm.trans ((htimers.cons _).trans hlast), ?_⟩
      show timers.memp + timers.next_timeout.length = 3
      omega
    · have hcode : tcpTimerNeeded pcbs x.world = ([], { x.world with looks := x.world.looks + 1 }) := by
        unfold tcpTimerNeeded
        rw [if_neg hactive, if_neg hneeded]
      rw [hcode]
      exact ⟨_, rfl, hx.timers, hx.pool⟩

/-! ### The periods -/

def entryOf (h : Timer) : Option Timer × Unit := (some h, ())

/- The calls of `h` up to now: the `k`-th is not before `k + 1` periods are over. -/
def OnTime (h : Timer) (period begin : ℕ) (x : Sys Timer Unit Stack) : Prop :=
  ∀ k call, (x.called.filter fun call => call.2 = entryOf h)[k]? = some call → begin + period * (k + 1) ≤ call.1

theorem stackHandler_requests (pcbs : ℕ → Bool) (e : Option Timer × Unit) (w : Stack) :
    ∀ r ∈ (react (stackHandler pcbs) e w).1, ∃ wait, r = .start wait e ∧ 1 ≤ wait := by
  obtain ⟨h, ⟨⟩⟩ := e
  intro r hr
  cases h with
  | none => exact absurd hr List.not_mem_nil
  | some h =>
    cases h with
    | ip_reass_timer =>
      obtain rfl := List.mem_singleton.mp hr
      exact ⟨1000, rfl, by decide⟩
    | arp_timer =>
      obtain rfl := List.mem_singleton.mp hr
      exact ⟨5000, rfl, by decide⟩
    | tcpip_tcp_timer =>
      change r ∈ (List.map Call.request (ite (pcbs w.looks = true) _ _ : List (Call Timer Unit) × Stack).1) at hr
      split_ifs at hr
      · obtain rfl := List.mem_singleton.mp hr
        exact ⟨250, rfl, by decide⟩
      · exact absurd hr List.not_mem_nil

theorem stackHandler_waits (pcbs : ℕ → Bool) (e : Option Timer × Unit) (w : Stack) :
    ∀ r ∈ (react (stackHandler pcbs) e w).1, Waits 1 r := by
  intro r hr wait' e' heq
  obtain ⟨wait, rfl, hwait⟩ := stackHandler_requests pcbs e w r hr
  cases heq
  exact hwait

theorem stackHandler_periodic (pcbs : ℕ → Bool) (h : Timer) (period : ℕ)
    (hagain : ∀ w, (react (stackHandler pcbs) (entryOf h) w).1 = [.start period (entryOf h)]) :
    Periodic (react (stackHandler pcbs)) (entryOf h) period := by
  refine ⟨hagain, fun e' w hne r hr => ?_⟩
  obtain ⟨wait, rfl, -⟩ := stackHandler_requests pcbs e' w r hr
  exact hne

theorem tcpTimerNeeded_alone (pcbs : ℕ → Bool) (w : Stack) {h : Timer} (hne : h ≠ .tcpip_tcp_timer) :
    ∀ r ∈ (tcpTimerNeeded pcbs w).1.map Call.request, r.entry ≠ entryOf h := by
  intro r hr
  unfold tcpTimerNeeded at hr
  split_ifs at hr
  · exact absurd hr List.not_mem_nil
  · obtain rfl := List.mem_singleton.mp hr
    exact fun heq => hne (Option.some.inj (congrArg Prod.fst heq)).symm
  · exact absurd hr List.not_mem_nil

theorem stackStep_beat {p p' : Plan Timer Unit Stack} {fuel period begin : ℕ} {h : Timer}
    (hperiodic : Periodic (react (stackHandler pcbs)) (entryOf h) period) (hne : h ≠ .tcpip_tcp_timer) (step : StackStep)
    (hbeat : p.clerk.Beat (entryOf h) period begin) (hp : (step.step pcbs).plan (stackHandler pcbs) fuel p = some p') :
    p'.clerk.Beat (entryOf h) period begin := by
  cases step with
  | wait ms =>
    cases hp
    exact hbeat
  | sys_check_timeouts =>
    obtain ⟨c', hserve, hp⟩ := Option.bind_eq_some_iff.mp hp
    cases hp
    exact hbeat.serve hperiodic hserve
  | sys_restart_timeouts =>
    cases hp
    exact hbeat
  | tcp_timer_needed =>
    cases hp
    exact hbeat.ask (tcpTimerNeeded_alone pcbs p.clerk.world hne)

theorem stackSteps_beat {p p' : Plan Timer Unit Stack} {fuel period begin : ℕ} {h : Timer}
    (hperiodic : Periodic (react (stackHandler pcbs)) (entryOf h) period) (hne : h ≠ .tcpip_tcp_timer) {steps : List StackStep}
    (hbeat : p.clerk.Beat (entryOf h) period begin)
    (hp : planSteps (stackHandler pcbs) fuel (steps.map (StackStep.step pcbs)) p = some p') :
    p'.clerk.Beat (entryOf h) period begin := by
  induction steps generalizing p with
  | nil =>
    cases hp
    exact hbeat
  | cons step steps ih =>
    obtain ⟨p₁, hp₁, hrest⟩ := Option.bind_eq_some_iff.mp hp
    exact ih (stackStep_beat hperiodic hne step hbeat hp₁) hrest

theorem forall₂_only {called : List (ℕ × Option Timer × Unit)} {served : List (ℕ × (Option Timer × Unit))}
    (e : Option Timer × Unit) (h : List.Forall₂ (fun call a => call.2 = a.2 ∧ a.1 ≤ call.1) called served) :
    List.Forall₂ (fun call a => call.2 = a.2 ∧ a.1 ≤ call.1) (called.filter fun call => call.2 = e) (only e served) := by
  unfold only
  induction h with
  | nil => exact List.Forall₂.nil
  | @cons call a called served hab _ ih =>
    by_cases ha : a.2 = e
    · rw [List.filter_cons, if_pos (by simpa [hab.1] using ha), List.filter_cons, if_pos (by simpa using ha)]
      exact List.Forall₂.cons hab ih
    · rw [List.filter_cons, if_neg (by simpa [hab.1] using ha), List.filter_cons, if_neg (by simpa using ha)]
      exact ih

theorem Follows.onTime {p : Plan Timer Unit Stack} (hf : Follows p x) {h : Timer} {period begin : ℕ}
    (hbeat : p.clerk.Beat (entryOf h) period begin) : OnTime h period begin x := by
  obtain ⟨n, hserved, -⟩ := hbeat
  intro k call hcall
  have hall := forall₂_only (entryOf h) hf.rep.called
  rw [hserved] at hall
  obtain ⟨hk, rfl⟩ := List.getElem?_eq_some_iff.mp hcall
  have hk' : k < n := by
    have hlen := hall.length_eq
    rw [List.length_map, List.length_range] at hlen
    omega
  have hpair := hall.get hk (by simpa using hk')
  simpa using hpair.2

/-! ### From sys_timeouts_init on -/

/- The state behind `sys_timeouts_init`. -/
def initiated (clock : ℕ) : Sys Timer Unit Stack :=
  ⟨⟨[⟨1000, some .ip_reass_timer, ()⟩, ⟨4000, some .arp_timer, ()⟩], BitVec.ofNat 32 clock, 1⟩, ⟨false, 0⟩, clock, []⟩

theorem sysTimeoutsInit_eq (clock : ℕ) :
    sysTimeoutsInit (idle ⟨false, 0⟩ clock MEMP_NUM_SYS_TIMEOUT) = some (initiated clock) := rfl

def initiatedPlan (clock : ℕ) : Plan Timer Unit Stack :=
  ⟨⟨clock, [(clock + 1000, entryOf .ip_reass_timer), (clock + 5000, entryOf .arp_timer)], ⟨false, 0⟩, []⟩, clock, clock⟩

theorem initiated_follows (clock : ℕ) : Follows (initiatedPlan clock) (initiated clock) := by
  have hlist : dates clock (initiated clock).timers.next_timeout = (initiatedPlan clock).clerk.list := by
    show [(clock + 1000, entryOf .ip_reass_timer), (clock + 1000 + 4000, entryOf .arp_timer)] = _
    rw [Nat.add_assoc]
    rfl
  have hdates : ∀ a ∈ (initiatedPlan clock).clerk.list, clock ≤ a.1 ∧ a.1 < clock + 2 ^ 32 := by
    intro a ha
    rcases List.mem_cons.mp ha with rfl | ha
    · exact ⟨Nat.le_add_right _ _, Nat.add_lt_add_left (by decide) _⟩
    · obtain rfl := List.mem_singleton.mp ha
      exact ⟨Nat.le_add_right _ _, Nat.add_lt_add_left (by decide) _⟩
  have hsorted : Sorted (initiatedPlan clock).clerk.list :=
    List.pairwise_pair.mpr (Nat.add_le_add_left (by decide : 1000 ≤ 5000) clock)
  refine ⟨⟨hlist, fun a ha => (hdates a ha).2, rfl, List.Forall₂.nil⟩, ⟨hsorted, fun a ha => (hdates a ha).1,
    List.Pairwise.nil, fun a ha => absurd ha List.not_mem_nil⟩, rfl, rfl, Nat.le_refl _, Nat.le_refl _⟩

/-- The timers of the stack never run out of their pool: from `sys_timeouts_init` on, whatever
comes in and whenever the main loop checks, every check ends, each timer is pending once, and
ARP and reassembly run at most once in 5000 ms and 1000 ms. -/
theorem stackTimers_run (pcbs : ℕ → Bool) (clock : ℕ) (steps : List StackStep) :
    ∃ x₀ n, sysTimeoutsInit (idle ⟨false, 0⟩ clock MEMP_NUM_SYS_TIMEOUT) = some x₀ ∧ ∀ fuel, n ≤ fuel →
      ∃ x, runSteps (stackHandler pcbs) fuel (steps.map (StackStep.step pcbs)) x₀ = some x ∧ Single x ∧
        OnTime .arp_timer 5000 clock x ∧ OnTime .ip_reass_timer 1000 clock x := by
  have hkeeps : ∀ step ∈ steps.map (StackStep.step pcbs), step.Keeps Single := by
    intro step hstep
    obtain ⟨s, -, rfl⟩ := List.mem_map.mp hstep
    exact stackStep_keeps pcbs s
  have hfollows := initiated_follows clock
  have hsingle : Single (initiated clock) := ⟨List.Perm.refl _, rfl⟩
  obtain ⟨n, p', hrun⟩ := runSteps_ends (stackHandler_kept pcbs) (stackHandler_waits pcbs) hkeeps hfollows.good
  refine ⟨initiated clock, n, sysTimeoutsInit_eq clock, fun fuel hle => ?_⟩
  obtain ⟨hplan, hexec⟩ := hrun fuel hle
  obtain ⟨x, hx, hf, hI⟩ := hexec _ hfollows hsingle
  have harp := stackHandler_periodic pcbs .arp_timer 5000 fun _ => rfl
  have hreass := stackHandler_periodic pcbs .ip_reass_timer 1000 fun _ => rfl
  refine ⟨x, hx, hI, hf.onTime (stackSteps_beat harp (by decide) ?_ hplan),
    hf.onTime (stackSteps_beat hreass (by decide) ?_ hplan)⟩
  · exact ⟨0, rfl, rfl⟩
  · exact ⟨0, rfl, rfl⟩

end MultiEmbedded.Lwip
