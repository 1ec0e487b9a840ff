import MultiEmbedded.Sd.Response
import Mathlib

/-!
# The sector count computed from the CSD

The register's fields are read off as natural numbers; the code assembles them
in 8-bit and 16-bit temporaries. The version 1 formula is exact. The version 2
formula has no room for the upper six bits of `C_SIZE`, and its sum wraps when
the sixteen bits it does read are all ones.
-/

namespace MultiEmbedded.Sd

/-! ### The fields of the register -/

def CSD_STRUCTURE (csd : ℕ → Byte) : ℕ := (csd 0).toNat / 64

def C_SIZE_V2 (csd : ℕ → Byte) : ℕ :=
  (csd 7).toNat % 64 * 65536 + (csd 8).toNat * 256 + (csd 9).toNat

def READ_BL_LEN (csd : ℕ → Byte) : ℕ := (csd 5).toNat % 16

def C_SIZE (csd : ℕ → Byte) : ℕ :=
  (csd 6).toNat % 4 * 1024 + (csd 7).toNat * 4 + (csd 8).toNat / 64

def C_SIZE_MULT (csd : ℕ → Byte) : ℕ := (csd 9).toNat % 4 * 2 + (csd 10).toNat / 128

theorem C_SIZE_lt (csd : ℕ → Byte) : C_SIZE csd < 4096 := by
  have h7 := (csd 7).isLt
  have h8 := (csd 8).isLt
  unfold C_SIZE
  omega

theorem C_SIZE_MULT_lt (csd : ℕ → Byte) : C_SIZE_MULT csd < 8 := by
  have h10 := (csd 10).isLt
  unfold C_SIZE_MULT
  omega

theorem structure_mask (csd : ℕ → Byte) : csd 0 &&& 0xc0 = 0x40 ↔ CSD_STRUCTURE csd = 1 := by
  have h : ∀ b : Byte, b &&& 0xc0 = 0x40 ↔ b.toNat / 64 = 1 := by decide
  exact h (csd 0)

theorem nibble_toNat : ∀ b : Byte, (b &&& 15#8).toNat = b.toNat % 16 := by decide

theorem low_toNat : ∀ b : Byte, (b &&& 3#8).toNat = b.toNat % 4 := by decide

theorem low_shift_toNat : ∀ b : Byte, ((b &&& 3#8) <<< 1).toNat = b.toNat % 4 * 2 := by decide

theorem top_shift_toNat : ∀ b : Byte, ((b &&& 128#8) >>> 7).toNat = b.toNat / 128 := by decide

/-! ### The two formulas -/

theorem capacity_v2 (csd : ℕ → Byte) (h : CSD_STRUCTURE csd = 1) :
    (capacity csd).toNat = ((csd 8).toNat * 256 + (csd 9).toNat + 1) % 65536 * 1024 := by
  have h8 := (csd 8).isLt
  have h9 := (csd 9).isLt
  unfold capacity
  rw [if_pos ((structure_mask csd).mpr h)]
  simp only [BitVec.toNat_shiftLeft, BitVec.toNat_setWidth, BitVec.toNat_add, Nat.shiftLeft_eq,
    BitVec.toNat_ofNat]
  omega

/-- The exponent the code keeps in `n`. -/
def exponent (csd : ℕ → Byte) : ℕ := READ_BL_LEN csd + C_SIZE_MULT csd + 2

theorem n_toNat (csd : ℕ → Byte) :
    ((csd 5 &&& 15#8) + (csd 10 &&& 128#8) >>> 7 + (csd 9 &&& 3#8) <<< 1 + 2#8).toNat =
      exponent csd := by
  have h10 := (csd 10).isLt
  simp only [BitVec.toNat_add, nibble_toNat, top_shift_toNat, low_shift_toNat, BitVec.toNat_ofNat]
  unfold exponent READ_BL_LEN C_SIZE_MULT
  omega

theorem csize_toNat (csd : ℕ → Byte) :
    ((csd 8).setWidth 16 >>> 6 + (csd 7).setWidth 16 <<< 2 +
      (csd 6 &&& 3#8).setWidth 16 <<< 10 + 1#16).toNat = C_SIZE csd + 1 := by
  have h7 := (csd 7).isLt
  have h8 := (csd 8).isLt
  simp only [BitVec.toNat_add, BitVec.toNat_ushiftRight, BitVec.toNat_shiftLeft,
    BitVec.toNat_setWidth, low_toNat, Nat.shiftLeft_eq, Nat.shiftRight_eq_div_pow,
    BitVec.toNat_ofNat]
  unfold C_SIZE
  omega

theorem capacity_v1 (csd : ℕ → Byte) (h : CSD_STRUCTURE csd ≠ 1) :
    (capacity csd).toNat = (C_SIZE csd + 1) * 2 ^ (exponent csd - 9) % 2 ^ 32 := by
  have hlt := C_SIZE_lt csd
  unfold capacity
  rw [if_neg (fun hm => h ((structure_mask csd).mp hm))]
  simp only [BitVec.toNat_shiftLeft, BitVec.toNat_setWidth, csize_toNat, n_toNat, Nat.shiftLeft_eq]
  rw [Nat.mod_eq_of_lt (show C_SIZE csd + 1 < 2 ^ 32 by omega)]

/-! ### The count and the byte addresses below it -/

/- What the count owes its callers, for the register `csd` and the value `count` returned. -/
structure CountContract (csd : ℕ → Byte) (count : Word) : Prop where
  v2 : CSD_STRUCTURE csd = 1 → (C_SIZE_V2 csd + 1) * 1024 < 2 ^ 32 →
    count.toNat = (C_SIZE_V2 csd + 1) * 1024
  v1 : CSD_STRUCTURE csd = 0 → 9 ≤ READ_BL_LEN csd → READ_BL_LEN csd ≤ 11 →
    count.toNat = (C_SIZE csd + 1) * 2 ^ (C_SIZE_MULT csd + 2 + READ_BL_LEN csd - 9)
  -- the sums fit their temporaries and the shift fits 32 bits
  exact : CSD_STRUCTURE csd = 0 → 9 ≤ READ_BL_LEN csd → READ_BL_LEN csd ≤ 11 →
    READ_BL_LEN csd + C_SIZE_MULT csd + 2 < 2 ^ 8 ∧ C_SIZE csd + 1 < 2 ^ 16 ∧
      (C_SIZE csd + 1) * 2 ^ (READ_BL_LEN csd + C_SIZE_MULT csd + 2 - 9) < 2 ^ 32
  addresses : CSD_STRUCTURE csd = 0 → 9 ≤ READ_BL_LEN csd → READ_BL_LEN csd ≤ 11 →
    ∀ (type : Byte) (sector : Word), type ≠ SD_TYPE_V2HC → sector < count →
      (address type sector).toNat = sector.toNat * 2 ^ 9

/- The version 2 sum loses nothing: the upper six bits are 0 and the lower sixteen not all 1. -/
def CountHolds (csd : ℕ → Byte) : Prop :=
  CSD_STRUCTURE csd = 1 → (C_SIZE_V2 csd + 1) * 1024 < 2 ^ 32 →
    (csd 7).toNat % 64 = 0 ∧ ¬ ((csd 8).toNat = 255 ∧ (csd 9).toNat = 255)

theorem v1_bound (csd : ℕ → Byte) (hlen : READ_BL_LEN csd ≤ 11) :
    (C_SIZE csd + 1) * 2 ^ (exponent csd - 9) ≤ 2 ^ 23 := by
  have hsize := C_SIZE_lt csd
  have hmult := C_SIZE_MULT_lt csd
  calc (C_SIZE csd + 1) * 2 ^ (exponent csd - 9)
      ≤ 2 ^ 12 * 2 ^ 11 := by
        refine Nat.mul_le_mul (by omega) (Nat.pow_le_pow_right (by omega) ?_)
        unfold exponent
        omega
    _ = 2 ^ 23 := by decide

theorem capacity_v1_eq (csd : ℕ → Byte) (h0 : CSD_STRUCTURE csd = 0)
    (hlen : READ_BL_LEN csd ≤ 11) :
    (capacity csd).toNat = (C_SIZE csd + 1) * 2 ^ (exponent csd - 9) := by
  have hle := v1_bound csd hlen
  rw [capacity_v1 csd (by omega)]
  exact Nat.mod_eq_of_lt (by omega)

theorem address_bytes (type : Byte) (sector : Word) (ht : type ≠ SD_TYPE_V2HC)
    (hs : sector.toNat < 2 ^ 23) : (address type sector).toNat = sector.toNat * 2 ^ 9 := by
  unfold address
  rw [if_pos ht, BitVec.toNat_shiftLeft, Nat.shiftLeft_eq]
  exact Nat.mod_eq_of_lt (by omega)

theorem capacity_contract (csd : ℕ → Byte) : CountContract csd (capacity csd) ↔ CountHolds csd := by
  have h8 := (csd 8).isLt
  have h9 := (csd 9).isLt
  constructor
  · intro hc h1 hfit
    have hv := hc.v2 h1 hfit
    rw [capacity_v2 csd h1] at hv
    unfold C_SIZE_V2 at hv
    omega
  · intro hh
    refine ⟨fun h1 hfit => ?_, fun h0 _ hlen => ?_, fun h0 _ hlen => ?_,
      fun h0 _ hlen type sector ht hlt => ?_⟩
    · obtain ⟨h7, hones⟩ := hh h1 hfit
      rw [capacity_v2 csd h1]
      unfold C_SIZE_V2
      omega
    · have he : C_SIZE_MULT csd + 2 + READ_BL_LEN csd - 9 = exponent csd - 9 := by
        unfold exponent
        omega
      rw [he]
      exact capacity_v1_eq csd h0 hlen
    · have hsize := C_SIZE_lt csd
      have hmult := C_SIZE_MULT_lt csd
      have hle := v1_bound csd hlen
      unfold exponent at hle
      exact ⟨by omega, by omega, by omega⟩
    · have hle := v1_bound csd hlen
      rw [BitVec.lt_def, capacity_v1_eq csd h0 hlen] at hlt
      exact address_bytes type sector ht (by omega)

theorem sdGetSectorCount_delivered (c : Card) (csd : ℕ) (s : State) (h : (sdGetCSD c csd s).1 = 0) :
    sdGetSectorCount c csd s =
      (capacity fun i => (sdGetCSD c csd s).2.mem (csd + i), (sdGetCSD c csd s).2) := by
  have hrun : sdGetCSD c csd s = (0, (sdGetCSD c csd s).2) := Prod.ext h rfl
  unfold sdGetSectorCount
  rw [bind_of hrun]
  rfl

theorem sdGetSectorCount_iff (c : Card) (csd : ℕ) (s : State) (h : (sdGetCSD c csd s).1 = 0) :
    CountContract (fun i => (sdGetCSD c csd s).2.mem (csd + i)) (sdGetSectorCount c csd s).1 ↔
      CountHolds fun i => (sdGetCSD c csd s).2.mem (csd + i) := by
  rw [sdGetSectorCount_delivered c csd s h]
  exact capacity_contract _

/- A card that accepts CMD9 and sends `csd` behind the token: bytes 10 to 25 of the run. -/
def csdCard (csd : ℕ → Byte) : Card where
  miso n := if n = 8 then 0 else if n = 9 then 0xfe else if 10 ≤ n ∧ n < 26 then csd (n - 10)
    else 0xff
  stack _ := 0

theorem csdCard_R1 (csd : ℕ → Byte) : R1Within (csdCard csd) powerUp 30 8 := by
  refine ⟨1, ?_, ?_, rfl⟩
  · refine Search.find_of_first (Nat.le_refl _) ?_ rfl fun k h1 h2 => absurd h1 (by omega)
    exact Nat.lt_add_of_pos_right (waitLimit_pos _)
  · exact Search.find_of_first (Nat.le_refl _) (by decide) rfl fun k h1 h2 => absurd h1 (by omega)

theorem csdCard_delivers (csd : ℕ → Byte) :
    (sdGetCSD (csdCard csd) 0 powerUp).1 = 0 ∧
      ∀ i < 16, (sdGetCSD (csdCard csd) 0 powerUp).2.mem (0 + i) = csd i := by
  obtain ⟨s1, hrun, hadv⟩ := sendCmd_run (csdCard csd) CMD9 0 0x01 powerUp
  have hlen : (cmdBytes CMD9 0 0x01).length = 6 := rfl
  have hr := csdCard_R1 csd
  rw [hlen] at hrun hadv
  rw [(cmdValue_zero (csdCard csd) powerUp).mpr ⟨8, hr⟩] at hrun
  have hpos : s1.pos = 9 := by
    rw [hadv.pos, cmdEnd_of_R1 (hr.mono (by omega))]
  have htok : tokenFrom (csdCard csd) s1.pos = some 9 := by
    rw [hpos]
    exact Search.find_of_first (Nat.le_refl _) (by omega) rfl fun k h1 h2 => absurd h1 (by omega)
  have hrev := sdRevData_token (csdCard csd) 0 16 s1 htok (by omega)
  have hout : sdGetCSD (csdCard csd) 0 powerUp = _ := getRegister_accepted _ _ 0 hrun hrev
  rw [hout]
  refine ⟨rfl, fun i hi => ?_⟩
  have h10 : 9 + 1 + i ≠ 8 ∧ 9 + 1 + i ≠ 9 ∧ (10 ≤ 9 + 1 + i ∧ 9 + 1 + i < 26) := by omega
  have hsub : 9 + 1 + i - 10 = i := by omega
  simp only [withPins_mem, idle_mem, withMem_mem, store_at _ _ _ _ hi, csdCard, h10, hsub,
    if_true, if_false, and_self]

/- A version 2 register with `C_SIZE` 0x10000: a card of 32 GiB and a half MiB. -/
def largeCsd : ℕ → Byte := fun i => if i = 0 then 0x40 else if i = 7 then 1 else 0

theorem sdGetSectorCount_iff_large :
    CountContract (fun i => (sdGetCSD (csdCard largeCsd) 0 powerUp).2.mem (0 + i))
        (sdGetSectorCount (csdCard largeCsd) 0 powerUp).1 ↔
      CountHolds fun i => (sdGetCSD (csdCard largeCsd) 0 powerUp).2.mem (0 + i) :=
  sdGetSectorCount_iff (csdCard largeCsd) 0 powerUp (csdCard_delivers largeCsd).1

theorem largeCsd_fails {csd : ℕ → Byte} (h : ∀ i < 16, csd i = largeCsd i) :
    ¬ CountContract csd (capacity csd) := by
  have h1 : CSD_STRUCTURE csd = 1 := by
    rw [CSD_STRUCTURE, h 0 (by omega)]
    rfl
  have hsize : C_SIZE_V2 csd = 0x10000 := by
    rw [C_SIZE_V2, h 7 (by omega), h 8 (by omega), h 9 (by omega)]
    rfl
  intro hc
  obtain ⟨h7, -⟩ := (capacity_contract csd).mp hc h1 (by rw [hsize]; decide)
  rw [h 7 (by omega)] at h7
  exact absurd h7 (by decide)

/- Its 67109888 sectors are reported as 1024. -/
theorem sdGetSectorCount_largeCard :
    (sdGetCSD (csdCard largeCsd) 0 powerUp).1 = 0 ∧
      ¬ CountContract (fun i => (sdGetCSD (csdCard largeCsd) 0 powerUp).2.mem (0 + i))
        (sdGetSectorCount (csdCard largeCsd) 0 powerUp).1 := by
  obtain ⟨h0, hmem⟩ := csdCard_delivers largeCsd
  have hbad := largeCsd_fails hmem
  refine ⟨h0, ?_⟩
  simp only [sdGetSectorCount_delivered _ _ _ h0]
  exact hbad

end MultiEmbedded.Sd
