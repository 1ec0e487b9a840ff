import Mathlib.Data.Nat.Notation
import Mathlib.Tactic.Common

/-!
# The two-wire serial bus

A wave is the sequence of levels on the clock SCL and the data line SDA. SDA
moves under a high clock only for START and STOP; otherwise the rising clock
samples it, eight data bits and one acknowledge at a time. Histories are kept
latest event first.
-/

namespace MultiEmbedded.TwoWire

structure Level where
  scl : Bool
  sda : Bool

inductive Event
  | START
  | STOP
  | BYTE (b : BitVec 8)
  | ACK
  | NACK
  deriving DecidableEq

open Event

/-- `bits` are those of the current frame, latest first; none are taken outside START .. STOP. -/
structure Decoder where
  level : Level
  active : Bool
  bits : List Bool
  events : List Event

/-- The byte whose bits, most significant first, were received in the order of `bits.reverse`. -/
def byteOf : List Bool → BitVec 8
  | [] => 0
  | b :: bits => byteOf bits <<< 1 ||| (BitVec.ofBool b).setWidth 8

def acknowledge (b : Bool) : Event := if b then NACK else ACK

def Decoder.sample (d : Decoder) (b : Bool) : Decoder :=
  if d.active then
    if d.bits.length = 8 then
      { d with bits := [], events := acknowledge b :: d.events }
    else if d.bits.length = 7 then
      { d with bits := b :: d.bits, events := BYTE (byteOf (b :: d.bits)) :: d.events }
    else { d with bits := b :: d.bits }
  else d

def Decoder.step (d : Decoder) (l : Level) : Decoder :=
  match d.level, l with
  | ⟨true, true⟩, ⟨true, false⟩ => ⟨l, true, [], START :: d.events⟩
  | ⟨true, false⟩, ⟨true, true⟩ => ⟨l, false, [], STOP :: d.events⟩
  | ⟨false, _⟩, ⟨true, b⟩ => { d.sample b with level := l }
  | _, _ => { d with level := l }

/-- Both lines released, before the first START. -/
def Decoder.init : Decoder := ⟨⟨true, true⟩, false, [], []⟩

/-- The events of a wave that starts on a free bus, in order. -/
def decode (wave : List Level) : List Event :=
  (wave.foldl Decoder.step Decoder.init).events.reverse

theorem sample_events (d : Decoder) (b : Bool) : d.events <:+ (d.sample b).events := by
  unfold Decoder.sample
  split
  · split
    · exact List.suffix_cons _ _
    · split
      · exact List.suffix_cons _ _
      · exact List.suffix_refl _
  · exact List.suffix_refl _

theorem step_events (d : Decoder) (l : Level) : d.events <:+ (d.step l).events := by
  unfold Decoder.step
  split
  · exact List.suffix_cons _ _
  · exact List.suffix_cons _ _
  · exact sample_events d _
  · exact List.suffix_refl _

theorem foldl_events (wave : List Level) (d : Decoder) :
    d.events <:+ (wave.foldl Decoder.step d).events := by
  induction wave generalizing d with
  | nil => exact List.suffix_refl _
  | cons l wave ih => exact (step_events d l).trans (ih (d.step l))

/-- Histories that continue one past in two ways are different. -/
theorem ne_of_branch {past es es' : List Event} {e e' : Event} (hne : e ≠ e')
    (h : e :: past <:+ es) (h' : e' :: past <:+ es') : es ≠ es' := by
  intro heq
  subst heq
  cases (List.suffix_of_suffix_length_le h h' (Nat.le_refl _)).eq_of_length rfl
  exact hne rfl

/-! ### A slave on the bus -/

/-- `ack` answers a history that ends in a byte, `data` is what is sent after a history. Both
may depend on all that happened. -/
structure Slave where
  ack : List Event → Bool
  data : List Event → BitVec 8

/-- After the history the slave sends the next byte: the byte behind the last START was odd,
and every byte since was acknowledged. -/
def talking : List Event → Bool
  | ACK :: BYTE b :: START :: _ => b.getLsbD 0
  | ACK :: BYTE _ :: past => talking past
  | _ => false

/-- Whether SDA is pulled low in the clock to come: the ninth is the acknowledge of a byte that
the slave received, the others carry the byte it sends. -/
def Slave.pulls (sl : Slave) (d : Decoder) : Bool :=
  d.active &&
    if d.bits.length = 8 then !talking d.events.tail && sl.ack d.events
    else talking d.events && !(sl.data d.events).getMsbD d.bits.length

end MultiEmbedded.TwoWire
