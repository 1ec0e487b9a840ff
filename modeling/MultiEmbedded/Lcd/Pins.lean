import Mathlib.Data.Nat.Notation
import Mathlib.Tactic.Common

/-!
# The data pins of the display (board/TftLcd/ili9325.c)

The sixteen data lines lie scattered over ports D and E. Each pin has four mode
bits in CRL or CRH of its port, and the display driver turns all of them to
inputs for a read and back to outputs after it.
-/

namespace MultiEmbedded.Lcd

inductive LcdPin
  | D0 | D1 | D2 | D3 | D4 | D5 | D6 | D7 | D8 | D9 | D10 | D11 | D12 | D13 | D14 | D15
  | E0 | E1 | E2 | E3 | E4 | E5 | E6 | E7 | E8 | E9 | E10 | E11 | E12 | E13 | E14 | E15
  deriving DecidableEq

open LcdPin

def LcdPin.val (pin : LcdPin) : ℕ := pin.ctorIdx

def LcdDataPin : List LcdPin :=
  [D14, D15, D0, D1, E7, E8, E9, E10, E11, E12, E13, E14, E15, D8, D9, D10]

structure Gpio where
  CRL : BitVec 32
  CRH : BitVec 32
  ODR : BitVec 32

structure Ports where
  GPIOD : Gpio
  GPIOE : Gpio

/-- `reg &= ~mask; reg |= set`. -/
def clearSet (reg mask set : BitVec 32) : BitVec 32 := (reg &&& ~~~mask) ||| set

/- A bit written to BSRR sets the bit of ODR; BSRR itself reads as 0. -/
def Gpio.bsrr (g : Gpio) (bits : BitVec 32) : Gpio := { g with ODR := g.ODR ||| bits }

def Gpio.crl (g : Gpio) (mask set : BitVec 32) : Gpio := { g with CRL := clearSet g.CRL mask set }

def Gpio.crh (g : Gpio) (mask set : BitVec 32) : Gpio := { g with CRH := clearSet g.CRH mask set }

/-! ### The two loops -/

def pinOut (s : Ports) (pin : LcdPin) : Ports :=
  let n := pin.val
  if n < 16 then
    if n < 8 then { s with GPIOD := (s.GPIOD.crl (0xf <<< (n * 4)) (0x3 <<< (n * 4))).bsrr (1 <<< n) }
    else { s with GPIOD := (s.GPIOD.crh (0xf <<< ((n - 8) * 4)) (0x3 <<< ((n - 8) * 4))).bsrr (1 <<< n) }
  else
    if n - 16 < 8 then
      { s with GPIOE := (s.GPIOE.crl (0xf <<< ((n - 16) * 4)) (0x3 <<< ((n - 16) * 4))).bsrr (1 <<< (n - 16)) }
    else
      { s with
        GPIOE := (s.GPIOE.crh (0xf <<< ((n - 16 - 8) * 4)) (0x3 <<< ((n - 16 - 8) * 4))).bsrr (1 <<< (n - 16)) }

def lcdpingout (s : Ports) : Ports := LcdDataPin.foldl pinOut s

def pinIn (s : Ports) (pin : LcdPin) : Ports :=
  let n := pin.val
  if n < 16 then
    if n < 8 then { s with GPIOD := s.GPIOD.crl (0xf <<< (n * 4)) (0x8 <<< (n * 4)) }
    else { s with GPIOD := s.GPIOD.crh (0xf <<< ((n - 8) * 4)) (0x8 <<< ((n - 8) * 4)) }
  else
    -- the factor 4 is missing, first in the bits set and then in the bits cleared
    if n - 16 < 8 then { s with GPIOE := s.GPIOE.crl (0xf <<< ((n - 16) * 4)) (0x8 <<< (n - 16)) }
    else { s with GPIOE := s.GPIOE.crh (0xf <<< (n - 16)) (0x8 <<< ((n - 16 - 8) * 4)) }

def lcdpingin (s : Ports) : Ports := LcdDataPin.foldl pinIn s

/-! ### Mode bits -/

/-- The `k`-th group of four bits. -/
def nibble (reg : BitVec 32) (k : ℕ) : BitVec 4 := reg.extractLsb' (4 * k) 4

theorem nibble_and (a b : BitVec 32) (k : ℕ) : nibble (a &&& b) k = nibble a k &&& nibble b k :=
  BitVec.extractLsb'_and

theorem nibble_or (a b : BitVec 32) (k : ℕ) : nibble (a ||| b) k = nibble a k ||| nibble b k :=
  BitVec.extractLsb'_or

theorem nibble_mask : ∀ k < 8, ∀ j < 8, nibble (~~~(0xf <<< (k * 4))) j = if j = k then 0 else 0xf := by
  decide

theorem nibble_three : ∀ k < 8, ∀ j < 8, nibble (0x3 <<< (k * 4)) j = if j = k then 3 else 0 := by
  decide

theorem nibble_clearSet (reg : BitVec 32) {k j : ℕ} (hk : k < 8) (hj : j < 8) :
    nibble (clearSet reg (0xf <<< (k * 4)) (0x3 <<< (k * 4))) j = if j = k then 3 else nibble reg j := by
  have hbits : ∀ m : BitVec 4, (m &&& 0) ||| 3 = 3 ∧ (m &&& 0xf) ||| 0 = m := by decide
  unfold clearSet
  rw [nibble_or, nibble_and, nibble_mask k hk j hj, nibble_three k hk j hj]
  split
  · exact (hbits _).1
  · exact (hbits _).2

def Gpio.mode (g : Gpio) (k : ℕ) : BitVec 4 := if k < 8 then nibble g.CRL k else nibble g.CRH (k - 8)

/-- The mode bits of a pin. -/
def Ports.mode (s : Ports) (pin : LcdPin) : BitVec 4 :=
  if pin.val < 16 then s.GPIOD.mode pin.val else s.GPIOE.mode (pin.val - 16)

@[simp] theorem Gpio.mode_bsrr (g : Gpio) (bits : BitVec 32) (k : ℕ) : (g.bsrr bits).mode k = g.mode k := rfl

theorem Gpio.mode_crl (g : Gpio) {k j : ℕ} (hk : k < 8) :
    (g.crl (0xf <<< (k * 4)) (0x3 <<< (k * 4))).mode j = if j = k then 3 else g.mode j := by
  unfold Gpio.mode
  by_cases hj : j < 8
  · rw [if_pos hj, if_pos hj]
    exact nibble_clearSet g.CRL hk hj
  · rw [if_neg hj, if_neg hj, if_neg (by omega)]
    rfl

theorem Gpio.mode_crh (g : Gpio) {k j : ℕ} (hk : 8 ≤ k) (hk' : k < 16) (hj' : j < 16) :
    (g.crh (0xf <<< ((k - 8) * 4)) (0x3 <<< ((k - 8) * 4))).mode j = if j = k then 3 else g.mode j := by
  unfold Gpio.mode
  by_cases hj : j < 8
  · rw [if_pos hj, if_pos hj, if_neg (by omega)]
    rfl
  · have heq : j - 8 = k - 8 ↔ j = k := by omega
    rw [if_neg hj, if_neg hj]
    have hn := nibble_clearSet g.CRH (show k - 8 < 8 by omega) (show j - 8 < 8 by omega)
    simp only [heq] at hn
    exact hn

theorem val_lt (pin : LcdPin) : pin.val < 32 := by cases pin <;> decide

theorem val_inj {p q : LcdPin} : p.val = q.val ↔ p = q := by
  constructor
  · intro h
    have hback (r : LcdPin) : LcdPin.ofNat r.val = r := by cases r <;> rfl
    rw [← hback p, ← hback q, h]
  · intro h
    rw [h]

/- One round of the output loop sets one pin and no other. -/
theorem pinOut_mode (s : Ports) (p q : LcdPin) : (pinOut s p).mode q = if q = p then 3 else s.mode q := by
  have hp := val_lt p
  have hq := val_lt q
  have heq : q.val = p.val ↔ q = p := val_inj
  unfold pinOut Ports.mode
  by_cases hpD : p.val < 16
  · by_cases hqD : q.val < 16
    · by_cases hlow : p.val < 8
      · simp only [if_pos hpD, if_pos hqD, if_pos hlow, Gpio.mode_bsrr, Gpio.mode_crl _ hlow, heq]
      · simp only [if_pos hpD, if_pos hqD, if_neg hlow, Gpio.mode_bsrr]
        rw [Gpio.mode_crh _ (by omega) hpD hqD]
        simp only [heq]
    · have hne : q ≠ p := by
        rintro rfl
        exact hqD hpD
      by_cases hlow : p.val < 8
      · simp only [if_pos hpD, if_neg hqD, if_pos hlow, if_neg hne]
      · simp only [if_pos hpD, if_neg hqD, if_neg hlow, if_neg hne]
  · by_cases hqD : q.val < 16
    · have hne : q ≠ p := by
        rintro rfl
        exact hpD hqD
      by_cases hlow : p.val - 16 < 8
      · simp only [if_neg hpD, if_pos hqD, if_pos hlow, if_neg hne]
      · simp only [if_neg hpD, if_pos hqD, if_neg hlow, if_neg hne]
    · have heq' : q.val - 16 = p.val - 16 ↔ q = p := by
        rw [← heq]
        omega
      by_cases hlow : p.val - 16 < 8
      · simp only [if_neg hpD, if_neg hqD, if_pos hlow, Gpio.mode_bsrr, Gpio.mode_crl _ hlow, heq']
      · simp only [if_neg hpD, if_neg hqD, if_neg hlow, Gpio.mode_bsrr]
        rw [Gpio.mode_crh _ (by omega) (by omega) (by omega)]
        simp only [heq']

theorem pinsOut_mode (pins : List LcdPin) (s : Ports) (q : LcdPin) :
    (pins.foldl pinOut s).mode q = if q ∈ pins then 3 else s.mode q := by
  induction pins generalizing s with
  | nil => rfl
  | cons p pins ih =>
    rw [List.foldl_cons, ih, pinOut_mode]
    by_cases hmem : q ∈ pins
    · rw [if_pos hmem, if_pos (List.mem_cons_of_mem p hmem)]
    · rw [if_neg hmem]
      by_cases hqp : q = p
      · rw [if_pos hqp, if_pos (hqp ▸ List.mem_cons_self)]
      · rw [if_neg hqp, if_neg (by simp only [List.mem_cons, hqp, hmem, or_self, not_false_eq_true])]

/-- The output loop is right in every state. -/
theorem lcdpingout_mode (s : Ports) (pin : LcdPin) :
    (lcdpingout s).mode pin = if pin ∈ LcdDataPin then 3 else s.mode pin :=
  pinsOut_mode LcdDataPin s pin

/-! ### The input loop -/

/- What the input loop makes of the mode bits of a pin. -/
def inMode : LcdPin → BitVec 4 → BitVec 4
  | D0, _ | D1, _ | D8, _ | D9, _ | D10, _ | D14, _ | D15, _ | E12, _ => 0x8
  | E2, m => m ||| 0x4
  | E7, _ | E10, _ | E11, _ => 0
  | E8, m | E9, m | E13, m | E14, m | E15, m => m ||| 0x8
  | _, m => m

theorem lcdpingin_mode (s : Ports) (pin : LcdPin) : (lcdpingin s).mode pin = inMode pin (s.mode pin) := by
  -- the steps that reach each register, in the order of the table
  have hDL : (lcdpingin s).GPIOD.CRL = clearSet (clearSet s.GPIOD.CRL 0xf 0x8) 0xf0 0x80 := rfl
  have hDH : (lcdpingin s).GPIOD.CRH = clearSet (clearSet (clearSet (clearSet (clearSet s.GPIOD.CRH
      0xf000000 0x8000000) 0xf0000000 0x80000000) 0xf 0x8) 0xf0 0x80) 0xf00 0x800 := rfl
  have hEL : (lcdpingin s).GPIOE.CRL = clearSet s.GPIOE.CRL 0xf0000000 0x400 := rfl
  have hEH : (lcdpingin s).GPIOE.CRH = clearSet (clearSet (clearSet (clearSet (clearSet (clearSet (clearSet
      (clearSet s.GPIOE.CRH 0xf00 0x8) 0x1e00 0x80) 0x3c00 0x800) 0x7800 0x8000) 0xf000 0x80000)
      0x1e000 0x800000) 0x3c000 0x8000000) 0x78000 0x80000000 := rfl
  cases pin
  all_goals
    simp only [Ports.mode, Gpio.mode, LcdPin.val, LcdPin.ctorIdx, hDL, hDH, hEL, hEH, clearSet, nibble_and,
      nibble_or, Nat.reduceLT, if_true, if_false, Nat.reduceSub, inMode]
    generalize nibble _ _ = m
    revert m
    decide

/-- What a read of the display leaves: E2 is the only other pin whose mode changes. -/
theorem lcdpin_read_mode (s : Ports) (pin : LcdPin) :
    (lcdpingout (lcdpingin s)).mode pin =
      if pin ∈ LcdDataPin then 3 else if pin = E2 then s.mode pin ||| 0x4 else s.mode pin := by
  rw [lcdpingout_mode]
  split
  · rfl
  · rename_i hdata
    rw [lcdpingin_mode]
    cases pin
    all_goals first | rfl | exact absurd (by decide) hdata

/-- The data pins become inputs and then outputs, and no other pin is touched. -/
structure PinsContract (s : Ports) : Prop where
  input : ∀ pin, (lcdpingin s).mode pin = if pin ∈ LcdDataPin then 0x8 else s.mode pin
  output : ∀ pin, (lcdpingout (lcdpingin s)).mode pin = if pin ∈ LcdDataPin then 3 else s.mode pin

theorem pinsContract_never (s : Ports) : ¬ PinsContract s := by
  intro h
  have hE7 : (0 : BitVec 4) = 0x8 := (lcdpingin_mode s E7).symm.trans (h.input E7)
  exact absurd hE7 (by decide)

/- All pins are inputs after reset. -/
theorem lcdpingin_reset : ¬ PinsContract ⟨⟨0x44444444, 0x44444444, 0⟩, ⟨0x44444444, 0x44444444, 0⟩⟩ := by
  intro h
  have hE7 : (0 : BitVec 4) = 0x8 := h.input E7
  exact absurd hE7 (by decide)

end MultiEmbedded.Lcd
