import MultiEmbedded.Enc.Line
import MultiEmbedded.Enc.Bank

/-!
# Sending beside a receiver

`enc28j60PacketSend` between its operations: as long as the next one needs no bank
that was selected before, the rest of the call does the same from any state with the
same transmit half, and leaves the receive half alone.
-/

namespace MultiEmbedded.Enc
open Prog RingCells

/- The transmit halves agree, and the hardware has been read as often. -/
structure Beside (a b : Line) : Prop where
  transmit : SameTransmit a.sys b.sys
  reads : a.reads = b.reads
  coherent : a.sys.core.Coherent ∧ b.sys.core.Coherent

variable {env : Env} {α β : Type} {a b a' b' c : Line} {s t u : Sys}

theorem Beside.refl (ha : a.sys.core.Coherent) : Beside a a := ⟨.refl _, rfl, ha, ha⟩

/-- Both runs return the same, and neither touches its receive half. -/
def Tandem (env : Env) (x : Drv α) (Q : α → Line → Line → Prop) (a b : Line) : Prop :=
  ∃ r a' b', run (line env) x a = (r, a') ∧ run (line env) x b = (r, b') ∧ Beside a' b' ∧
    SameReceive a.sys a'.sys ∧ SameReceive b.sys b'.sys ∧ ∀ v, r = some v → Q v a' b'

/- A register of its bank, and what `enc28j60SetBank` does once it has begun. -/
def Relies : Op → Prop
  | .readOp op address => RegisterOp op ∧ BankSpecific address
  | .writeOp op address data => RegisterOp op ∧ (BankSpecific address ∨
      op = ENC28J60_BIT_FIELD_SET ∧ address = ECON1 ∧ data &&& ~~~(ECON1_BSEL1 ||| ECON1_BSEL0) = 0)
  | .storeBank _ => True
  | _ => False

/- The next operation needs nothing that was selected before. -/
def Calm : Drv α → Prop
  | .act o _ => ¬ Relies o
  | _ => True

/-- The program and what is left of it where it is calm. -/
structure Movable (env : Env) (I : Line → Line → Prop) (x : Drv α) (Q : α → Line → Line → Prop) : Prop where
  tandem : ∀ a b, I a b → Beside a b → Tandem env x Q a b
  stops : ∀ a, I a a → a.sys.core.Coherent → ∀ j, SameReceive a.sys (after (line env) j x a).2.sys ∧
    ((∀ v, (after (line env) j x a).1 ≠ .ret v) → Calm (after (line env) j x a).1 →
      (after (line env) j x a).2.sys.core.Coherent ∧
      ∀ b, Beside (after (line env) j x a).2 b →
        Tandem env (after (line env) j x a).1 Q (after (line env) j x a).2 b)

theorem Tandem.pure {Q : α → Line → Line → Prop} {v : α} (h : Beside a b) (hq : Q v a b) :
    Tandem env (Pure.pure v) Q a b := by
  refine ⟨some v, a, b, rfl, rfl, h, .refl _, .refl _, fun w hw => ?_⟩
  cases hw
  exact hq

theorem Tandem.bind {Q : α → Line → Line → Prop} {Q' : β → Line → Line → Prop} {x : Drv α} {f : α → Drv β}
    (hx : Tandem env x Q a b) (hf : ∀ v a' b', Beside a' b' → Q v a' b' → Tandem env (f v) Q' a' b') :
    Tandem env (x >>= f) Q' a b := by
  obtain ⟨r, a₁, b₁, ha, hb, hbeside, hra, hrb, hq⟩ := hx
  cases r with
  | none =>
    refine ⟨none, a₁, b₁, ?_, ?_, hbeside, hra, hrb, fun v hv => (nomatch hv)⟩
    · rw [run_bind, ha]
    · rw [run_bind, hb]
  | some v =>
    obtain ⟨r', a₂, b₂, ha', hb', hbeside', hra', hrb', hq'⟩ := hf v a₁ b₁ hbeside (hq v rfl)
    exact ⟨r', a₂, b₂, (run_bind_of ha).trans ha', (run_bind_of hb).trans hb', hbeside', hra.trans hra',
      hrb.trans hrb', hq'⟩

theorem Tandem.mono {Q Q' : α → Line → Line → Prop} {x : Drv α} (hx : Tandem env x Q a b)
    (hq : ∀ v a' b', Q v a' b' → Q' v a' b') : Tandem env x Q' a b := by
  obtain ⟨r, a₁, b₁, ha, hb, hbeside, hra, hrb, hv⟩ := hx
  exact ⟨r, a₁, b₁, ha, hb, hbeside, hra, hrb, fun v h => hq v a₁ b₁ (hv v h)⟩

theorem Movable.bind {I : Line → Line → Prop} {Q : α → Line → Line → Prop} {Q' : β → Line → Line → Prop}
    {x : Drv α} {f : α → Drv β} (hx : Movable env I x Q) (hf : ∀ v, Movable env (Q v) (f v) Q') :
    Movable env I (x >>= f) Q' := by
  refine ⟨fun a b hi hab => (hx.tandem a b hi hab).bind fun v a' b' h hq => (hf v).tandem a' b' hq h, ?_⟩
  intro a hi hc j
  rcases after_bind (h := line env) j x f a with ⟨v, m, t, -, hrun, hafter⟩ | ⟨hopen, hafter⟩
  · -- the stop is behind `x`
    obtain ⟨r, a₁, b₁, ha, hb, hbeside, hra, -, hq⟩ := hx.tandem a a hi (.refl hc)
    rw [hrun] at ha hb
    cases ha
    cases hb
    obtain ⟨hrec, hcalm⟩ := (hf v).stops t (hq v rfl) hbeside.coherent.1 (j - m)
    have hat : after (line env) j (x >>= f) a = after (line env) (j - m) (f v) t := hafter
    rw [hat]
    exact ⟨hra.trans hrec, hcalm⟩
  · obtain ⟨hrec, hcalm⟩ := hx.stops a hi hc j
    have hat : after (line env) j (x >>= f) a = (Prog.bind (after (line env) j x a).1 f, (after (line env) j x a).2) :=
      hafter
    rw [hat]
    refine ⟨hrec, fun _ hnext => ?_⟩
    have hwithin : Calm (after (line env) j x a).1 := by
      revert hopen hnext
      cases (after (line env) j x a).1 with
      | ret v => exact fun hopen _ => absurd rfl (hopen v)
      | act o g => exact fun _ hnext => hnext
      | stuck => exact fun _ _ => trivial
    obtain ⟨hcoh, hrest⟩ := hcalm hopen hwithin
    exact ⟨hcoh, fun b hb => (hrest b hb).bind fun v a' b' h hq => (hf v).tandem a' b' hq h⟩

theorem Movable.mono {I J : Line → Line → Prop} {Q Q' : α → Line → Line → Prop} {x : Drv α}
    (hx : Movable env I x Q) (hi : ∀ a b, J a b → I a b) (hq : ∀ v a b, Q v a b → Q' v a b) :
    Movable env J x Q' := by
  refine ⟨fun a b hj hab => (hx.tandem a b (hi a b hj) hab).mono hq, fun a hj hc j => ?_⟩
  obtain ⟨hrec, hcalm⟩ := hx.stops a (hi a a hj) hc j
  refine ⟨hrec, fun hopen hnext => ?_⟩
  obtain ⟨hcoh, hrest⟩ := hcalm hopen hnext
  exact ⟨hcoh, fun b hb => (hrest b hb).mono hq⟩

theorem Movable.pure {I : Line → Line → Prop} {Q : α → Line → Line → Prop} {v : α} (hq : ∀ a b, I a b → Q v a b) :
    Movable env I (Pure.pure v) Q := by
  refine ⟨fun a b hi hab => .pure hab (hq a b hi), fun a _ _ j => ?_⟩
  have hat : after (line env) j (Pure.pure v) a = (Pure.pure v, a) := after_ret j v a
  rw [hat]
  exact ⟨.refl _, fun hopen => absurd rfl (hopen v)⟩

/- A stop in front of the only operation is a stop in front of all. -/
theorem Movable.op {I : Line → Line → Prop} {o : Op} {Q : α → Line → Line → Prop} {f : o.Res → α}
    (hop : ∀ a b, I a b → Beside a b → Tandem env (.act o fun r => .ret (f r)) Q a b)
    (hI : ¬ Relies o → ∀ a b, I a a → Beside a b → I a b) : Movable env I (.act o fun r => .ret (f r)) Q := by
  refine ⟨hop, fun a hi hc j => ?_⟩
  cases j with
  | zero =>
    exact ⟨.refl _, fun _ hnext => ⟨hc, fun b hb => hop a b (hI hnext a b hi hb) hb⟩⟩
  | succ j =>
    obtain ⟨r, a₁, b₁, ha, hb, hbeside, hra, -, hq⟩ := hop a a hi (.refl hc)
    have hat : after (line env) (j + 1) (.act o fun r => .ret (f r)) a =
        (.ret (f (line env o a).1), (line env o a).2) := after_ret j _ _
    have hend : a₁ = (line env o a).2 := (congrArg Prod.snd ha).symm
    rw [hat, ← hend]
    exact ⟨hra, fun hopen => absurd rfl (hopen _)⟩

theorem Movable.waitWhile {I : Line → Line → Prop} {body : Drv Bool} (hb : Movable env I body fun _ => I) (spin : ℕ) :
    Movable env I (Prog.waitWhile body spin) fun _ => I := by
  induction spin with
  | zero =>
    refine ⟨fun a b hi hab => ⟨none, a, b, rfl, rfl, hab, .refl _, .refl _, fun v hv => (nomatch hv)⟩, fun a _ hc j => ?_⟩
    have hat : after (line env) j (Prog.waitWhile body 0) a = (.stuck, a) := after_stuck j a
    rw [hat]
    exact ⟨.refl _, fun _ _ => ⟨hc, fun b hab => ⟨none, a, b, rfl, rfl, hab, .refl _, .refl _, fun v hv => (nomatch hv)⟩⟩⟩
  | succ spin ih =>
    refine hb.bind fun turn => ?_
    cases turn with
    | false => exact Movable.pure fun _ _ hi => hi
    | true => exact ih

/-! ### Selecting a bank -/

/- What holds of the transmit half alone. -/
def OfTransmit (P : Sys → Prop) : Prop := ∀ s u, SameTransmit s u → P s → P u

theorem selects_counts {o : Op} (ho : SelectsBank o) : counts o = 0 := by
  cases o with
  | readOp op address => exact ho.elim
  | _ => rfl

theorem line_selects (o : Op) (ho : SelectsBank o) (a : Line) : SameChip a.sys (line env o a).2.sys :=
  selects_same (still_silent env a.reads) o ho a.sys

theorem line_banked {x : Drv Unit} (hx : Only SelectsBank False x) {address : Byte}
    (hrun : ∃ u, run (chip (env.still a.reads)) x a.sys = (some (), u) ∧ SameChip a.sys u ∧ Banked address u.core) :
    ∃ a', run (line env) x a = (some (), a') ∧ SameChip a.sys a'.sys ∧ Banked address a'.sys.core ∧
      a'.reads = a.reads := by
  obtain ⟨u, hu, hsame, hbank⟩ := hrun
  obtain ⟨ps, hline⟩ := line_run (hx.mono fun o ho => selects_counts ho) a
  rw [hu] at hline
  exact ⟨_, hline, hsame, hbank, rfl⟩

/- Both runs end in the bank of `address`. -/
def Selected (P : Sys → Prop) (address : Byte) (a b : Line) : Prop :=
  P a.sys ∧ Banked address a.sys.core ∧ Banked address b.sys.core

theorem tandem_banked {x : Drv Unit} (hx : Only SelectsBank False x) {address : Byte} {P : Sys → Prop}
    (hP : OfTransmit P) (hrun : ∀ l : Line, l.sys.core.Coherent → ∃ u,
      run (chip (env.still l.reads)) x l.sys = (some (), u) ∧ SameChip l.sys u ∧ Banked address u.core)
    (hp : P a.sys) (h : Beside a b) : Tandem env x (fun _ => Selected P address) a b := by
  obtain ⟨a', ha, hsa, hba, hra⟩ := line_banked hx (hrun a h.coherent.1)
  obtain ⟨b', hb, hsb, hbb, hrb⟩ := line_banked hx (hrun b h.coherent.2)
  refine ⟨some (), a', b', ha, hb, ⟨?_, ?_, hba.1, hbb.1⟩, hsa.1, hsb.1, fun _ _ => ⟨hP _ _ hsa.2 hp, hba, hbb⟩⟩
  · exact (hsa.2.symm.trans h.transmit).trans hsb.2
  · rw [hra, hrb, h.reads]

theorem setBank_movable (address : Byte) {P : Sys → Prop} (hP : OfTransmit P) :
    Movable env (fun a _ => P a.sys) (enc28j60SetBank address) fun _ => Selected P address := by
  have htandem : ∀ a b : Line, P a.sys → Beside a b →
      Tandem env (enc28j60SetBank address) (fun _ => Selected P address) a b := fun a b hp h =>
    tandem_banked (setBank_selects address) hP (fun l hc => setBank_run (still_silent env l.reads) hc address) hp h
  refine ⟨htandem, fun a hp hc j => ?_⟩
  have hsel : Only SelectsBank True (enc28j60SetBank address) := setBank_selects address
  have hrec : SameReceive a.sys (after (line env) j (enc28j60SetBank address) a).2.sys :=
    (after_invariant (I := fun l : Line => SameReceive a.sys l.sys)
      (fun o ho l hl => hl.trans (line_selects o ho l).1) hsel j (.refl a.sys)).1
  refine ⟨hrec, ?_⟩
  cases j with
  | zero => exact fun _ _ => ⟨hc, fun b hb => htandem a b hp hb⟩
  | succ j =>
    generalize hl : (line env .loadBank a).2 = l
    have hsame : SameChip a.sys l.sys := hl ▸ line_selects .loadBank trivial a
    have hcl : l.sys.core.Coherent := by
      rw [← hl]
      show ((a.sys.tick (env.still a.reads)).core).Coherent
      rw [tick_core]
      exact hc
    have hat : after (line env) (j + 1) (enc28j60SetBank address) a =
        after (line env) j (if address &&& BANK_MASK ≠ (line env .loadBank a).1 then reselect address else pure ()) l := by
      rw [← hl]
      rfl
    rw [hat]
    by_cases hb : address &&& BANK_MASK ≠ (line env .loadBank a).1
    · rw [if_pos hb]
      cases j with
      | zero =>
        exact fun _ _ => ⟨hcl, fun b hb => tandem_banked (reselect_selects address) hP
          (fun l _ => reselect_run (still_silent env l.reads) l.sys address) (hP _ _ hsame.2 hp) hb⟩
      | succ j =>
        cases j with
        | zero =>
          have hrelies : Relies (.writeOp ENC28J60_BIT_FIELD_SET ECON1 ((address &&& BANK_MASK) >>> 5)) :=
            ⟨Or.inr (Or.inr (Or.inl rfl)), Or.inr ⟨rfl, rfl, bank_bits address⟩⟩
          exact fun _ hcalm => absurd hrelies hcalm
        | succ j =>
          cases j with
          | zero => exact fun _ hcalm => absurd trivial hcalm
          | succ j =>
            intro hopen
            exact absurd (congrArg Prod.fst (after_ret (h := line env) j () _)) (hopen ())
    · rw [if_neg hb]
      intro hopen
      exact absurd (congrArg Prod.fst (after_ret (h := line env) j () _)) (hopen ())

end MultiEmbedded.Enc
