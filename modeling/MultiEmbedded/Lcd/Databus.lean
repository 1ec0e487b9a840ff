import MultiEmbedded.Lcd.Pins
import Mathlib.Data.List.Nodup

/-!
# DATAOUT and DATAIN

A word goes out from its low bit up and is read from its high bit down, one pin
after the other. The bit accesses PDout, PDin, PEout and PEin are macros of a
header that the repository lacks; they are a parameter with what the two loops
rely on.
-/

namespace MultiEmbedded.Lcd
open LcdPin

structure PinAccess where
  PDout : ℕ → Bool → Ports → Ports
  PEout : ℕ → Bool → Ports → Ports
  PDin : ℕ → Ports → Bool
  PEin : ℕ → Ports → Bool

/-- A write drives one bit of ODR, and a pin reads back the level driven on it. -/
structure PinAccess.Driven (io : PinAccess) : Prop where
  PDout_D : ∀ n < 16, ∀ b s k, (io.PDout n b s).GPIOD.ODR.getLsbD k = if k = n then b else s.GPIOD.ODR.getLsbD k
  PDout_E : ∀ n b s, (io.PDout n b s).GPIOE.ODR = s.GPIOE.ODR
  PEout_E : ∀ n < 16, ∀ b s k, (io.PEout n b s).GPIOE.ODR.getLsbD k = if k = n then b else s.GPIOE.ODR.getLsbD k
  PEout_D : ∀ n b s, (io.PEout n b s).GPIOD.ODR = s.GPIOD.ODR
  PDin : ∀ n < 16, ∀ s, io.PDin n s = s.GPIOD.ODR.getLsbD n
  PEin : ∀ n < 16, ∀ s, io.PEin n s = s.GPIOE.ODR.getLsbD n

section
variable (io : PinAccess)

/- One round of DATAOUT, with the bit that is sent. -/
def sendBit (pin : LcdPin) (b : Bool) (s : Ports) : Ports :=
  if pin.val < 16 then io.PDout pin.val b s else io.PEout (pin.val - 16) b s

def dataoutLoop : List LcdPin → BitVec 16 → Ports → Ports
  | [], _, s => s
  | pin :: pins, data, s => dataoutLoop pins (data >>> 1) (sendBit io pin (data &&& 0x0001 != 0) s)

def dataout (data : BitVec 16) (s : Ports) : Ports := dataoutLoop io LcdDataPin data s

/- One round of DATAIN. -/
def readBit (pin : LcdPin) (s : Ports) : Bool :=
  if pin.val < 16 then io.PDin pin.val s else io.PEin (pin.val - 16) s

def datainLoop (s : Ports) : List LcdPin → BitVec 16 → BitVec 16
  | [], data => data
  | pin :: pins, data => datainLoop s pins (if readBit io pin s then data <<< (1 : ℕ) + 1 else data <<< (1 : ℕ))

/- `n` runs from 15 down to 0. -/
def datain (s : Ports) : BitVec 16 := datainLoop io s LcdDataPin.reverse 0

end

/-- The output bit of a pin. -/
def Ports.level (s : Ports) (pin : LcdPin) : Bool :=
  if pin.val < 16 then s.GPIOD.ODR.getLsbD pin.val else s.GPIOE.ODR.getLsbD (pin.val - 16)

variable {io : PinAccess}

theorem sendBit_level (hio : io.Driven) (p q : LcdPin) (b : Bool) (s : Ports) :
    (sendBit io p b s).level q = if q = p then b else s.level q := by
  have hp := val_lt p
  have heq : q.val = p.val ↔ q = p := val_inj
  unfold sendBit Ports.level
  by_cases hpD : p.val < 16
  · by_cases hqD : q.val < 16
    · rw [if_pos hpD, if_pos hqD, hio.PDout_D p.val hpD]
      simp only [heq, if_pos hqD]
    · have hne : q ≠ p := by
        rintro rfl
        exact hqD hpD
      rw [if_pos hpD, if_neg hqD, if_neg hne, hio.PDout_E, if_neg hqD]
  · by_cases hqD : q.val < 16
    · have hne : q ≠ p := by
        rintro rfl
        exact hpD hqD
      rw [if_neg hpD, if_pos hqD, if_neg hne, hio.PEout_D, if_pos hqD]
    · have heq' : q.val - 16 = p.val - 16 ↔ q = p := by
        rw [← heq]
        omega
      rw [if_neg hpD, if_neg hqD, hio.PEout_E (p.val - 16) (by omega)]
      simp only [heq', if_neg hqD]

theorem readBit_level (hio : io.Driven) (pin : LcdPin) (s : Ports) : readBit io pin s = s.level pin := by
  have hp := val_lt pin
  unfold readBit Ports.level
  split
  · rename_i hD
    exact hio.PDin pin.val hD s
  · exact hio.PEin (pin.val - 16) (by omega) s

theorem low_bit (data : BitVec 16) : (data &&& 0x0001 != 0) = data.getLsbD 0 := by
  have hand : data &&& 1#16 = BitVec.setWidth 16 (BitVec.ofBool (data.getLsbD 0)) :=
    BitVec.and_one_eq_setWidth_ofBool_getLsbD
  show (data &&& 1#16 != 0) = data.getLsbD 0
  rw [hand]
  cases data.getLsbD 0 <;> rfl

/- Each pin of the table ends with the bit of its position, and no other pin is touched. -/
theorem dataoutLoop_level (hio : io.Driven) {pins : List LcdPin} (hpins : pins.Nodup) (data : BitVec 16)
    (s : Ports) (q : LcdPin) : (dataoutLoop io pins data s).level q =
      if q ∈ pins then data.getLsbD (pins.idxOf q) else s.level q := by
  induction pins generalizing data s with
  | nil => rfl
  | cons p pins ih =>
    obtain ⟨hfresh, hrest⟩ := List.nodup_cons.mp hpins
    rw [dataoutLoop, ih hrest, sendBit_level hio, low_bit]
    by_cases hqp : q = p
    · rw [hqp, if_neg hfresh, if_pos rfl, if_pos List.mem_cons_self, List.idxOf_cons_self]
    · rw [if_neg hqp]
      by_cases hmem : q ∈ pins
      · rw [if_pos hmem, if_pos (List.mem_cons_of_mem p hmem), List.idxOf_cons_ne pins (Ne.symm hqp),
          BitVec.getLsbD_ushiftRight, Nat.add_comm]
      · rw [if_neg hmem, if_neg (by simp only [List.mem_cons, hqp, hmem, or_self, not_false_eq_true])]

theorem shiftIn_getLsbD (data : BitVec 16) (b : Bool) (i : ℕ) (hi : i < 16) :
    (if b then data <<< (1 : ℕ) + 1 else data <<< (1 : ℕ)).getLsbD i = if i = 0 then b else data.getLsbD (i - 1) := by
  have hdisjoint : data <<< (1 : ℕ) &&& 1#16 = 0#16 := by
    apply BitVec.eq_of_getLsbD_eq
    intro k hk
    cases k <;> simp
  have hor : data <<< (1 : ℕ) + 1 = data <<< (1 : ℕ) ||| 1#16 :=
    BitVec.add_eq_or_of_and_eq_zero (data <<< (1 : ℕ)) 1#16 hdisjoint
  rw [hor]
  cases b <;> cases i <;> simp
  all_goals omega

theorem datainLoop_append (s : Ports) (a b : List LcdPin) (data : BitVec 16) :
    datainLoop io s (a ++ b) data = datainLoop io s b (datainLoop io s a data) := by
  induction a generalizing data with
  | nil => rfl
  | cons pin a ih => exact ih _

theorem datainLoop_level (hio : io.Driven) (s : Ports) {pins : List LcdPin} (hlen : pins.length ≤ 16) {i : ℕ}
    {pin : LcdPin} (hpin : pins[i]? = some pin) :
    (datainLoop io s pins.reverse 0).getLsbD i = s.level pin := by
  induction pins generalizing i with
  | nil => cases hpin
  | cons p pins ih =>
    have hi := (List.getElem?_eq_some_iff.mp hpin).1
    rw [List.reverse_cons, datainLoop_append]
    show (if readBit io p s then datainLoop io s pins.reverse 0 <<< (1 : ℕ) + 1
      else datainLoop io s pins.reverse 0 <<< (1 : ℕ)).getLsbD i = s.level pin
    rw [shiftIn_getLsbD _ _ _ (by omega)]
    cases i with
    | zero =>
      cases hpin
      rw [if_pos rfl, readBit_level hio]
    | succ i =>
      rw [List.length_cons] at hlen
      rw [if_neg (Nat.succ_ne_zero i)]
      exact ih (by omega) hpin

theorem lcdDataPin_nodup : LcdDataPin.Nodup := by decide

/-- A word sent is read back, and only the data pins are driven. -/
theorem datain_dataout (io : PinAccess) (hio : io.Driven) (data : BitVec 16) (s : Ports) :
    datain io (dataout io data s) = data ∧
      ∀ pin, pin ∉ LcdDataPin → (dataout io data s).level pin = s.level pin := by
  constructor
  · apply BitVec.eq_of_getLsbD_eq
    intro i hi
    have hlen : i < LcdDataPin.length := hi
    unfold datain dataout
    rw [datainLoop_level hio _ (by decide) (List.getElem?_eq_getElem hlen),
      dataoutLoop_level hio lcdDataPin_nodup, if_pos (List.getElem_mem hlen),
      lcdDataPin_nodup.idxOf_getElem i hlen]
  · intro pin hpin
    unfold dataout
    rw [dataoutLoop_level hio lcdDataPin_nodup, if_neg hpin]

/- Bit accesses on ODR, with nothing else connected to the pins. -/
def putBit (reg : BitVec 32) (n : ℕ) (b : Bool) : BitVec 32 :=
  if b then reg ||| BitVec.twoPow 32 n else reg &&& ~~~BitVec.twoPow 32 n

def odrAccess : PinAccess where
  PDout n b s := { s with GPIOD := { s.GPIOD with ODR := putBit s.GPIOD.ODR n b } }
  PEout n b s := { s with GPIOE := { s.GPIOE with ODR := putBit s.GPIOE.ODR n b } }
  PDin n s := s.GPIOD.ODR.getLsbD n
  PEin n s := s.GPIOE.ODR.getLsbD n

theorem putBit_getLsbD (reg : BitVec 32) {n : ℕ} (hn : n < 16) (b : Bool) (k : ℕ) :
    (putBit reg n b).getLsbD k = if k = n then b else reg.getLsbD k := by
  have hn' : n < 32 := by omega
  unfold putBit
  by_cases hk : k = n
  · rw [if_pos hk, hk]
    cases b <;> simp [hn']
  · rw [if_neg hk]
    by_cases hwide : k < 32
    · have hbit : (BitVec.twoPow 32 n).getLsbD k = false := by
        rw [BitVec.getLsbD_twoPow]
        simp [Ne.symm hk]
      cases b
      · show (reg &&& ~~~BitVec.twoPow 32 n).getLsbD k = reg.getLsbD k
        rw [BitVec.getLsbD_and, BitVec.getLsbD_not, hbit]
        simp [hwide]
      · show (reg ||| BitVec.twoPow 32 n).getLsbD k = reg.getLsbD k
        rw [BitVec.getLsbD_or, hbit, Bool.or_false]
    · rw [BitVec.getLsbD_of_ge _ k (by omega), BitVec.getLsbD_of_ge _ k (by omega)]

theorem odrAccess_driven : odrAccess.Driven where
  PDout_D _ hn b s k := putBit_getLsbD s.GPIOD.ODR hn b k
  PDout_E _ _ _ := rfl
  PEout_E _ hn b s k := putBit_getLsbD s.GPIOE.ODR hn b k
  PEout_D _ _ _ := rfl
  PDin _ _ _ := rfl
  PEin _ _ _ := rfl

theorem datain_dataout_odr :
    datain odrAccess (dataout odrAccess 0x9325 ⟨⟨0, 0, 0x30⟩, ⟨0, 0, 0⟩⟩) = 0x9325 :=
  (datain_dataout odrAccess odrAccess_driven 0x9325 ⟨⟨0, 0, 0x30⟩, ⟨0, 0, 0⟩⟩).1

end MultiEmbedded.Lcd
