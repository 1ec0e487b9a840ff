import MultiEmbedded.Fat.Volume
import Mathlib.Tactic.IntervalCases

/-!
# Entries of the FAT (src/ff.c)

An entry has 12, 16 or 32 bits. One of 12 bits shares a byte with its neighbour and may
lie across two sectors; of one of 32 bits the top four are not the volume's.
-/

namespace MultiEmbedded.Fat

/- The place of byte `i` in its sector. -/
def place (i : ℕ) : Fin 512 := Fin.ofNat 512 i

def Volume.store (v : Volume) (i : ℕ) (x : Byte) : Volume := { v with win := Function.update v.win (place i) x }

/- The sector in the window is to be written back. -/
def Volume.mark (v : Volume) : Volume := { v with wflag := true }

def LD_WORD (p₀ p₁ : Byte) : BitVec 16 := p₁ ++ p₀

def LD_DWORD (p₀ p₁ p₂ p₃ : Byte) : BitVec 32 := p₃ ++ p₂ ++ p₁ ++ p₀

/- The double word at `i` in the window. -/
def Volume.dwordAt (v : Volume) (i : ℕ) : BitVec 32 :=
  LD_DWORD (v.win (place i)) (v.win (place (i + 1))) (v.win (place (i + 2))) (v.win (place (i + 3)))

variable (drv : Drive) (g : Geometry)

/- 0xFFFFFFFF after a disk error, 1 after an internal error. -/
def getFat (clst : ℕ) (v : Volume) : ℕ × Volume :=
  if clst < 2 ∨ clst ≥ g.n_fatent then (1, v)
  else
    match g.fs_type with
    | .FAT12 =>
      let bc := dword (clst + clst / 2)
      match moveWindow drv g (dword (g.fatbase + bc / SS)) v with
      | (.FR_OK, v) =>
        let lo := v.win (place bc)
        let bc := dword (bc + 1)
        match moveWindow drv g (dword (g.fatbase + bc / SS)) v with
        | (.FR_OK, v) =>
          let wc := LD_WORD lo (v.win (place bc))
          ((if clst % 2 = 1 then wc >>> 4 else wc &&& 0xFFF#16).toNat, v)
        | (_, v) => (0xFFFFFFFF, v)
      | (_, v) => (0xFFFFFFFF, v)
    | .FAT16 =>
      match moveWindow drv g (dword (g.fatbase + clst / (SS / 2))) v with
      | (.FR_OK, v) => ((LD_WORD (v.win (place (clst * 2))) (v.win (place (clst * 2 + 1)))).toNat, v)
      | (_, v) => (0xFFFFFFFF, v)
    | .FAT32 =>
      match moveWindow drv g (dword (g.fatbase + clst / (SS / 4))) v with
      | (.FR_OK, v) => ((v.dwordAt (clst * 4) &&& 0x0FFFFFFF#32).toNat, v)
      | (_, v) => (0xFFFFFFFF, v)
    | .none => (1, v)

/- The bytes of an entry of 12 bits, with what was in them before. -/
def low12 (clst : ℕ) (val : BitVec 32) (p : Byte) : Byte :=
  if clst % 2 = 1 then (p &&& 0x0F#8) ||| (val.setWidth 8 <<< 4) else val.setWidth 8

def high12 (clst : ℕ) (val : BitVec 32) (p : Byte) : Byte :=
  if clst % 2 = 1 then (val >>> 4).setWidth 8 else (p &&& 0xF0#8) ||| ((val >>> 8).setWidth 8 &&& 0x0F#8)

def putFat (clst : ℕ) (val : BitVec 32) (v : Volume) : FResult × Volume :=
  if clst < 2 ∨ clst ≥ g.n_fatent then (.FR_INT_ERR, v)
  else
    let r : FResult × Volume := match g.fs_type with
      | .FAT12 =>
        let bc := dword (clst + clst / 2)
        match moveWindow drv g (dword (g.fatbase + bc / SS)) v with
        | (.FR_OK, v) =>
          let v := v.store bc (low12 clst val (v.win (place bc)))
          let bc := dword (bc + 1)
          match moveWindow drv g (dword (g.fatbase + bc / SS)) v.mark with
          | (.FR_OK, v) => (.FR_OK, v.store bc (high12 clst val (v.win (place bc))))
          | (res, v) => (res, v)
        | (res, v) => (res, v)
      | .FAT16 =>
        match moveWindow drv g (dword (g.fatbase + clst / (SS / 2))) v with
        | (.FR_OK, v) =>
          (.FR_OK, (v.store (clst * 2) (val.setWidth 8)).store (clst * 2 + 1) ((val >>> 8).setWidth 8))
        | (res, v) => (res, v)
      | .FAT32 =>
        match moveWindow drv g (dword (g.fatbase + clst / (SS / 4))) v with
        | (.FR_OK, v) =>
          let val := val ||| (v.dwordAt (clst * 4) &&& 0xF0000000#32)
          (.FR_OK, (((v.store (clst * 4) (val.setWidth 8)).store (clst * 4 + 1) ((val >>> 8).setWidth 8)).store
            (clst * 4 + 2) ((val >>> 16).setWidth 8)).store (clst * 4 + 3) ((val >>> 24).setWidth 8))
        | (res, v) => (res, v)
      | .none => (.FR_INT_ERR, v)
    (r.1, r.2.mark)

/-! ### The FAT as bytes -/

def load16 (f : ℕ → Byte) (i : ℕ) : BitVec 16 := LD_WORD (f i) (f (i + 1))

def load32 (f : ℕ → Byte) (i : ℕ) : BitVec 32 := LD_DWORD (f i) (f (i + 1)) (f (i + 2)) (f (i + 3))

def decode : FsType → (ℕ → Byte) → ℕ → BitVec 32
  | .none, _, _ => 1
  | .FAT12, f, c =>
    (if c % 2 = 1 then load16 f (c + c / 2) >>> 4 else load16 f (c + c / 2) &&& 0xFFF#16).setWidth 32
  | .FAT16, f, c => (load16 f (c * 2)).setWidth 32
  | .FAT32, f, c => load32 f (c * 4) &&& 0x0FFFFFFF#32

def store16 (f : ℕ → Byte) (i : ℕ) (lo hi : Byte) : ℕ → Byte := Function.update (Function.update f i lo) (i + 1) hi

def store32 (f : ℕ → Byte) (i : ℕ) (val : BitVec 32) : ℕ → Byte :=
  store16 (store16 f i (val.setWidth 8) ((val >>> 8).setWidth 8)) (i + 2)
    ((val >>> 16).setWidth 8) ((val >>> 24).setWidth 8)

def encode : FsType → (ℕ → Byte) → ℕ → BitVec 32 → ℕ → Byte
  | .none, f, _, _ => f
  | .FAT12, f, c, val =>
    store16 f (c + c / 2) (low12 c val (f (c + c / 2))) (high12 c val (f (c + c / 2 + 1)))
  | .FAT16, f, c, val => store16 f (c * 2) (val.setWidth 8) ((val >>> 8).setWidth 8)
  | .FAT32, f, c, val => store32 f (c * 4) (val ||| (load32 f (c * 4) &&& 0xF0000000#32))

def mask : FsType → BitVec 32
  | .none => 0
  | .FAT12 => 0xFFF#32
  | .FAT16 => 0xFFFF#32
  | .FAT32 => 0x0FFFFFFF#32

theorem store16_low (f : ℕ → Byte) (i : ℕ) (lo hi : Byte) : store16 f i lo hi i = lo := by
  simp [store16]

theorem store16_high (f : ℕ → Byte) (i : ℕ) (lo hi : Byte) : store16 f i lo hi (i + 1) = hi := by
  simp [store16]

theorem load16_store16 (f : ℕ → Byte) (i : ℕ) (lo hi : Byte) : load16 (store16 f i lo hi) i = LD_WORD lo hi := by
  unfold load16
  rw [store16_low, store16_high]

theorem store16_other {f : ℕ → Byte} {i j : ℕ} {lo hi : Byte} (h : j < i ∨ i + 1 < j) : store16 f i lo hi j = f j := by
  have hfirst : j ≠ i := by omega
  have hsecond : j ≠ i + 1 := by omega
  simp [store16, hfirst, hsecond]

theorem store32_other {f : ℕ → Byte} {i j : ℕ} {val : BitVec 32} (h : j < i ∨ i + 3 < j) : store32 f i val j = f j := by
  unfold store32
  rw [store16_other (by omega), store16_other (by omega)]

theorem LD_DWORD_bytes (val : BitVec 32) : LD_DWORD (val.setWidth 8) ((val >>> 8).setWidth 8)
    ((val >>> 16).setWidth 8) ((val >>> 24).setWidth 8) = val := by
  unfold LD_DWORD
  ext i hi
  simp
  grind

theorem LD_WORD_bytes (val : BitVec 32) : LD_WORD (val.setWidth 8) ((val >>> 8).setWidth 8) = val.setWidth 16 := by
  unfold LD_WORD
  ext i hi
  simp
  grind

theorem load32_store32 (f : ℕ → Byte) (i : ℕ) (val : BitVec 32) : load32 (store32 f i val) i = val := by
  have h₀ : store32 f i val i = val.setWidth 8 := by
    unfold store32
    rw [store16_other (by omega), store16_low]
  have h₁ : store32 f i val (i + 1) = (val >>> 8).setWidth 8 := by
    unfold store32
    rw [store16_other (by omega), store16_high]
  have h₂ : store32 f i val (i + 2) = (val >>> 16).setWidth 8 := store16_low _ _ _ _
  have h₃ : store32 f i val (i + 3) = (val >>> 24).setWidth 8 := store16_high _ _ _ _
  unfold load32
  rw [h₀, h₁, h₂, h₃, LD_DWORD_bytes]

theorem and_low {w : ℕ} (x : BitVec w) (k : ℕ) (hk : k ≤ w) :
    x &&& BitVec.ofNat w (2 ^ k - 1) = (x.setWidth k).setWidth w := by
  have hpow : 2 ^ k ≤ 2 ^ w := Nat.pow_le_pow_right (by omega) hk
  have hpos : 0 < 2 ^ k := by simp
  apply BitVec.eq_of_toNat_eq
  rw [BitVec.toNat_and, BitVec.toNat_ofNat, Nat.mod_eq_of_lt (by omega), Nat.and_two_pow_sub_one_eq_mod,
    BitVec.toNat_setWidth, BitVec.toNat_setWidth]
  have hlt := Nat.mod_lt x.toNat hpos
  exact (Nat.mod_eq_of_lt (by omega)).symm

theorem low_nibble (p : Byte) : p &&& 0x0F#8 = (p.setWidth 4).setWidth 8 := and_low p 4 (by decide)

theorem high_nibble (p : Byte) : p &&& 0xF0#8 = (p >>> 4) <<< 4 := by
  revert p
  decide

theorem low_word (x : BitVec 16) : x &&& 0xFFF#16 = (x.setWidth 12).setWidth 16 := and_low x 12 (by decide)

theorem low_dword (x : BitVec 32) : x &&& 0xFFF#32 = (x.setWidth 12).setWidth 32 := and_low x 12 (by decide)

theorem low12_high12 (c : ℕ) (val : BitVec 32) (p q : Byte) :
    (if c % 2 = 1 then LD_WORD (low12 c val p) (high12 c val q) >>> 4
      else LD_WORD (low12 c val p) (high12 c val q) &&& 0xFFF#16).setWidth 32 = val &&& 0xFFF#32 := by
  unfold low12 high12 LD_WORD
  rw [low_dword]
  by_cases hodd : c % 2 = 1
  · simp only [hodd, if_true, low_nibble]
    ext i hi
    simp
    grind
  · simp only [hodd, if_false, low_nibble, high_nibble, low_word]
    ext i hi
    simp
    grind

/- The neighbour's nibble stays. -/
theorem low12_neighbour {c : ℕ} (hodd : c % 2 = 1) (val : BitVec 32) (p q : Byte) :
    LD_WORD q (low12 c val p) &&& 0xFFF#16 = LD_WORD q p &&& 0xFFF#16 := by
  unfold low12 LD_WORD
  rw [low_word, low_word, if_pos hodd, low_nibble]
  ext i hi
  simp
  grind

theorem high12_neighbour {c : ℕ} (heven : c % 2 ≠ 1) (val : BitVec 32) (p q : Byte) :
    LD_WORD (high12 c val p) q >>> 4 = LD_WORD p q >>> 4 := by
  unfold high12 LD_WORD
  rw [if_neg heven, low_nibble, high_nibble]
  ext i hi
  simp
  grind

theorem load16_other {f : ℕ → Byte} {i j : ℕ} {lo hi : Byte} (h : j + 1 < i ∨ i + 1 < j) :
    load16 (store16 f i lo hi) j = load16 f j := by
  unfold load16
  rw [store16_other (by omega), store16_other (by omega)]

variable {ty : FsType} {f f' : ℕ → Byte} {c d n : ℕ} {val : BitVec 32}

theorem decode_encode (hty : ty ≠ .none) : decode ty (encode ty f c val) c = val &&& mask ty := by
  cases ty with
  | none => exact absurd rfl hty
  | FAT12 =>
    simp only [decode, encode, load16_store16, mask]
    exact low12_high12 c val _ _
  | FAT16 =>
    simp only [decode, encode, load16_store16, LD_WORD_bytes, mask]
    exact (and_low val 16 (by decide)).symm
  | FAT32 =>
    have hkeep : ∀ m x : BitVec 32, (val ||| (x &&& ~~~m)) &&& m = val &&& m := by
      intro m x
      ext i hi
      simp
      grind
    simp only [decode, encode, load32_store32, mask]
    exact hkeep 0x0FFFFFFF#32 _

/-- Two bytes stored at an entry of 12 bits leave the others, if they leave the neighbour its nibble. -/
theorem decode12_other {lo hi : Byte} (hcd : d ≠ c)
    (hlow : c % 2 = 1 → ∀ q, LD_WORD q lo &&& 0xFFF#16 = LD_WORD q (f (c + c / 2)) &&& 0xFFF#16)
    (hhigh : c % 2 ≠ 1 → ∀ q, LD_WORD hi q >>> 4 = LD_WORD (f (c + c / 2 + 1)) q >>> 4) :
    decode .FAT12 (store16 f (c + c / 2) lo hi) d = decode .FAT12 f d := by
  simp only [decode]
  by_cases hleft : c = d + 1 ∧ c % 2 = 1
  · have heven : d % 2 ≠ 1 := by omega
    have hplace : d + d / 2 + 1 = c + c / 2 := by omega
    have hload : load16 (store16 f (c + c / 2) lo hi) (d + d / 2) = LD_WORD (f (d + d / 2)) lo := by
      unfold load16
      rw [store16_other (by omega), hplace, store16_low]
    rw [if_neg heven, if_neg heven, hload, hlow hleft.2, ← hplace]
    rfl
  · by_cases hright : d = c + 1 ∧ c % 2 ≠ 1
    · have hodd : d % 2 = 1 := by omega
      have hplace : d + d / 2 = c + c / 2 + 1 := by omega
      have hload : load16 (store16 f (c + c / 2) lo hi) (d + d / 2) = LD_WORD hi (f (d + d / 2 + 1)) := by
        unfold load16
        rw [hplace, store16_high, store16_other (by omega)]
      rw [if_pos hodd, if_pos hodd, hload, hhigh hright.2, ← hplace]
      rfl
    · rw [load16_other (by omega)]

theorem decode_encode_other (hcd : d ≠ c) : decode ty (encode ty f c val) d = decode ty f d := by
  cases ty with
  | none => rfl
  | FAT12 =>
    exact decode12_other hcd (fun hodd q => low12_neighbour hodd val _ q)
      (fun heven q => high12_neighbour heven val _ q)
  | FAT16 =>
    simp only [decode, encode]
    rw [load16_other (by omega)]
  | FAT32 =>
    simp only [decode, encode, load32]
    rw [store32_other (by omega), store32_other (by omega), store32_other (by omega), store32_other (by omega)]

/-- An entry of 12 bits of which only the first byte was written. -/
theorem decode12_torn (hcd : d ≠ c) :
    decode .FAT12 (Function.update f (c + c / 2) (low12 c val (f (c + c / 2)))) d = decode .FAT12 f d := by
  have hstore : Function.update f (c + c / 2) (low12 c val (f (c + c / 2))) =
      store16 f (c + c / 2) (low12 c val (f (c + c / 2))) (f (c + c / 2 + 1)) := by
    unfold store16
    have hkeep : f (c + c / 2 + 1) =
        Function.update f (c + c / 2) (low12 c val (f (c + c / 2))) (c + c / 2 + 1) := by simp
    rw [hkeep, Function.update_eq_self]
  rw [hstore]
  exact decode12_other hcd (fun hodd q => low12_neighbour hodd val _ q) (fun _ _ => rfl)

theorem entry12_lt (hcn : c < n) : c + c / 2 + 1 < n * 3 / 2 + n % 2 := by
  cases Nat.mod_two_eq_zero_or_one n with
  | inl heven => omega
  | inr hodd => omega

/-- An entry is decoded from the bytes of the table. -/
theorem decode_congr (hcn : c < n) (hbytes : ∀ i, i < tableBytes ty n → f' i = f i) : decode ty f' c = decode ty f c := by
  cases ty with
  | none => rfl
  | FAT12 =>
    have hlast := entry12_lt hcn
    simp only [tableBytes] at hbytes
    simp only [decode, load16]
    rw [hbytes _ (by omega), hbytes _ (by omega)]
  | FAT16 =>
    simp only [tableBytes] at hbytes
    simp only [decode, load16]
    rw [hbytes _ (by omega), hbytes _ (by omega)]
  | FAT32 =>
    simp only [tableBytes] at hbytes
    simp only [decode, load32]
    rw [hbytes _ (by omega), hbytes _ (by omega), hbytes _ (by omega), hbytes _ (by omega)]

/-! ### The FAT in the window -/

def fatByte (g : Geometry) (v : Volume) (i : ℕ) : Byte := v.view (g.fatbase + i / SS) (place i)

def entry (g : Geometry) (v : Volume) (c : ℕ) : ℕ := (decode g.fs_type (fatByte g v) c).toNat

variable {drv : Drive} {g : Geometry} {v v' : Volume} {i : ℕ} {x : Byte}

theorem win_byte (hwin : v.winsect = g.fatbase + i / SS) : v.win (place i) = fatByte g v i := by
  unfold fatByte
  rw [← hwin, v.view_win]

theorem fatByte_kept (h : Kept g v v') (hi : i < g.fsize * SS) : fatByte g v' i = fatByte g v i := by
  unfold fatByte
  rw [h.view]
  unfold Geometry.InCopy SS at *
  omega

theorem place_inj {i j : ℕ} (hsector : i / SS = j / SS) : place i = place j ↔ i = j := by
  unfold place SS at *
  simp only [Fin.ext_iff, Fin.val_ofNat]
  omega

theorem fatByte_store (hwin : v.winsect = g.fatbase + i / SS) :
    fatByte g (v.store i x) = Function.update (fatByte g v) i x := by
  funext j
  by_cases hj : j = i
  · subst hj
    simp [fatByte, Volume.view, Volume.store, hwin]
  · rw [Function.update_of_ne hj]
    unfold fatByte Volume.view
    by_cases hsector : g.fatbase + j / SS = v.winsect
    · have hplace : place j ≠ place i := by
        rw [Ne, place_inj (by omega)]
        exact hj
      simp [Volume.store, hsector, hplace]
    · simp [Volume.store, hsector]

@[simp] theorem store_winsect (v : Volume) (i : ℕ) (x : Byte) : (v.store i x).winsect = v.winsect := rfl

theorem inTable (hg : g.Sound) (hi : i < g.fsize * SS) : g.InTable (g.fatbase + i / SS) := by
  have hcopies := Nat.mul_le_mul_right g.fsize hg.copies
  unfold Geometry.InTable SS at *
  omega

/-- The window moves to the sector of byte `i` of the FAT. -/
theorem moveFat (drv : Drive) (hg : g.Sound) (h : Coherent v) (hi : i < g.fsize * SS) :
    ((moveWindow drv g (dword (g.fatbase + i / SS)) v).1 = .FR_OK ∨ drv.Legible →
      Kept g v (moveWindow drv g (dword (g.fatbase + i / SS)) v).2) ∧
    ((moveWindow drv g (dword (g.fatbase + i / SS)) v).1 = .FR_OK →
      (moveWindow drv g (dword (g.fatbase + i / SS)) v).2.winsect = g.fatbase + i / SS) := by
  have hsector : dword (g.fatbase + i / SS) = g.fatbase + i / SS := by
    have hle := hg.fsize_le
    unfold dword SS at *
    omega
  constructor
  · intro hok
    exact moveWindow_kept hg h (hsector.symm ▸ inTable hg hi) hok
  · intro hok
    rw [moveWindow_winsect hok, hsector]

theorem and_mask {w : ℕ} (x : BitVec w) (k : ℕ) (hk : k ≤ w) : (x &&& BitVec.ofNat w (2 ^ k - 1)).toNat = x.toNat % 2 ^ k := by
  have hpow : 2 ^ k ≤ 2 ^ w := Nat.pow_le_pow_right (by omega) hk
  have hpos : 0 < 2 ^ k := by simp
  have hlt := Nat.mod_lt x.toNat hpos
  rw [and_low x k hk, BitVec.toNat_setWidth, BitVec.toNat_setWidth]
  exact Nat.mod_eq_of_lt (by omega)

/-- What the window shows of the FAT once it has moved there. -/
theorem moveFat_byte {sector j : ℕ} {v₁ : Volume} (hg : g.Sound) (h : Coherent v)
    (hmove : moveWindow drv g (dword (g.fatbase + sector)) v = (.FR_OK, v₁)) (hj : j < g.fsize * SS)
    (hsector : sector = j / SS) : v₁.win (place j) = fatByte g v j := by
  subst hsector
  obtain ⟨hkept, hwin⟩ := moveFat drv hg h hj
  rw [hmove] at hkept hwin
  rw [win_byte (hwin rfl), fatByte_kept (hkept (.inl rfl)) hj]

theorem getFat_spec (drv : Drive) (hg : g.Sound) (h : Coherent v) (hc : 2 ≤ c) (hn : c < g.n_fatent) :
    (getFat drv g c v).1 = 0xFFFFFFFF ∧ (drv.Legible → Kept g v (getFat drv g c v).2) ∨
      (getFat drv g c v).1 = entry g v c ∧ Kept g v (getFat drv g c v).2 := by
  have hlimit := hg.limit
  have hroom := hg.room
  have hrange : ¬ (c < 2 ∨ c ≥ g.n_fatent) := by omega
  unfold getFat entry
  rw [if_neg hrange]
  cases hty : g.fs_type with
  | none => exact absurd hty hg.mounted
  | FAT12 =>
    simp only [hty, endMark, tableBytes] at hlimit hroom
    have hlast := entry12_lt hn
    have hfirst : dword (c + c / 2) = c + c / 2 := by unfold dword; omega
    have hsecond : dword (c + c / 2 + 1) = c + c / 2 + 1 := by unfold dword; omega
    have hin : c + c / 2 < g.fsize * SS := by omega
    have hin' : c + c / 2 + 1 < g.fsize * SS := by omega
    simp only [hfirst, hsecond]
    have hkept := (moveFat drv hg h hin).1
    cases hmove : moveWindow drv g (dword (g.fatbase + (c + c / 2) / SS)) v with
    | mk res v₁ =>
      rw [hmove] at hkept
      cases res with
      | FR_OK =>
        have hlow := moveFat_byte hg h hmove hin rfl
        have hkept₁ := hkept (.inl rfl)
        have hkept' := (moveFat drv hg hkept₁.coherent hin').1
        dsimp only
        cases hmove' : moveWindow drv g (dword (g.fatbase + (c + c / 2 + 1) / SS)) v₁ with
        | mk res v₂ =>
          rw [hmove'] at hkept'
          cases res with
          | FR_OK =>
            have hhigh := moveFat_byte hg hkept₁.coherent hmove' hin' rfl
            rw [fatByte_kept hkept₁ hin'] at hhigh
            refine .inr ⟨?_, hkept₁.trans (hkept' (.inl rfl))⟩
            simp only [hlow, hhigh, decode, load16, BitVec.toNat_setWidth]
            have hlt := (if c % 2 = 1 then LD_WORD (fatByte g v (c + c / 2)) (fatByte g v (c + c / 2 + 1)) >>> 4
              else LD_WORD (fatByte g v (c + c / 2)) (fatByte g v (c + c / 2 + 1)) &&& 0xFFF#16).isLt
            exact (Nat.mod_eq_of_lt (by omega)).symm
          | _ => exact .inl ⟨rfl, fun hlegible => hkept₁.trans (hkept' (.inr hlegible))⟩
      | _ => exact .inl ⟨rfl, fun hlegible => hkept (.inr hlegible)⟩
  | FAT16 =>
    simp only [hty, endMark, tableBytes] at hlimit hroom
    have hsector : c / (SS / 2) = c * 2 / SS := by unfold SS; omega
    have hsector' : c / (SS / 2) = (c * 2 + 1) / SS := by unfold SS; omega
    have hin : c * 2 < g.fsize * SS := by omega
    have hkept := (moveFat drv hg h hin).1
    rw [← hsector] at hkept
    simp only
    cases hmove : moveWindow drv g (dword (g.fatbase + c / (SS / 2))) v with
    | mk res v₁ =>
      rw [hmove] at hkept
      cases res with
      | FR_OK =>
        refine .inr ⟨?_, hkept (.inl rfl)⟩
        simp only [moveFat_byte hg h hmove hin hsector, moveFat_byte hg h hmove (by omega) hsector', decode, load16,
          BitVec.toNat_setWidth]
        have hlt := (LD_WORD (fatByte g v (c * 2)) (fatByte g v (c * 2 + 1))).isLt
        exact (Nat.mod_eq_of_lt (by omega)).symm
      | _ => exact .inl ⟨rfl, fun hlegible => hkept (.inr hlegible)⟩
  | FAT32 =>
    simp only [hty, endMark, tableBytes] at hlimit hroom
    have hsector : ∀ k < 4, c / (SS / 4) = (c * 4 + k) / SS := by unfold SS; omega
    have hin : c * 4 < g.fsize * SS := by omega
    have hkept := (moveFat drv hg h hin).1
    have hfirst : c * 4 / SS = c / (SS / 4) := by unfold SS; omega
    rw [hfirst] at hkept
    simp only
    cases hmove : moveWindow drv g (dword (g.fatbase + c / (SS / 4))) v with
    | mk res v₁ =>
      rw [hmove] at hkept
      cases res with
      | FR_OK =>
        have hbyte : ∀ k < 4, v₁.win (place (c * 4 + k)) = fatByte g v (c * 4 + k) :=
          fun k hk => moveFat_byte hg h hmove (by omega) (hsector k hk)
        refine .inr ⟨?_, hkept (.inl rfl)⟩
        have h₀ := hbyte 0 (by decide)
        simp only [Nat.add_zero] at h₀
        simp only [Volume.dwordAt, h₀, hbyte 1 (by decide), hbyte 2 (by decide), hbyte 3 (by decide), decode, load32]
      | _ => exact .inl ⟨rfl, fun hlegible => hkept (.inr hlegible)⟩

/- From `v` to `v'` only sectors of the FAT have changed. -/
structure Inside (g : Geometry) (v v' : Volume) : Prop where
  view : ∀ s, ¬ g.InTable s → v'.view s = v.view s
  coherent : Coherent v'
  last_clust : v'.last_clust = v.last_clust
  free_clust : v'.free_clust = v.free_clust
  fsi_flag : v'.fsi_flag = v.fsi_flag
  near : v'.winsect = v.winsect ∨ g.InTable v'.winsect

/- From `v` to `v'` no entry has changed but that of `c`. -/
structure Touched (g : Geometry) (c : ℕ) (v v' : Volume) : Prop extends Inside g v v' where
  entry : ∀ d, d < g.n_fatent → d ≠ c → entry g v' d = entry g v d

theorem Kept.inside (h : Kept g v v') : Inside g v v' where
  view s hs := by
    apply h.view
    unfold Geometry.InTable Geometry.InCopy at *
    omega
  coherent := h.coherent
  last_clust := h.last_clust
  free_clust := h.free_clust
  fsi_flag := h.fsi_flag
  near := h.near

theorem Inside.trans {v₁ : Volume} (h₁ : Inside g v v₁) (h₂ : Inside g v₁ v') : Inside g v v' where
  view s hs := (h₂.view s hs).trans (h₁.view s hs)
  coherent := h₂.coherent
  last_clust := h₂.last_clust.trans h₁.last_clust
  free_clust := h₂.free_clust.trans h₁.free_clust
  fsi_flag := h₂.fsi_flag.trans h₁.fsi_flag
  near := by
    cases h₂.near with
    | inl hsame => rw [hsame]; exact h₁.near
    | inr hin => exact .inr hin

/-- Bytes are stored in a sector of the FAT, and the window is marked. -/
theorem store_inside {win : Sector} (hrange : v.winsect < 2 ^ 32) (hwin : g.InTable v.winsect) :
    Inside g v (Volume.mark { v with win := win }) where
  view s hs := by
    have hne : s ≠ v.winsect := fun heq => hs (heq ▸ hwin)
    simp [Volume.view, Volume.mark, hne]
  coherent := ⟨fun hflag => by simp [Volume.mark] at hflag, hrange⟩
  last_clust := rfl
  free_clust := rfl
  fsi_flag := rfl
  near := .inl rfl

theorem entry_kept (hg : g.Sound) (h : Kept g v v') (hd : d < g.n_fatent) : entry g v' d = entry g v d := by
  unfold entry
  rw [decode_congr hd]
  intro i hi
  have hroom := hg.room
  exact fatByte_kept h (by omega)

theorem Kept.touched (hg : g.Sound) (h : Kept g v v') : Touched g c v v' :=
  ⟨h.inside, fun _ hd _ => entry_kept hg h hd⟩

/-- The table's bytes are those of the table with the entry of `c` set to `val`. -/
theorem touched_encode (hg : g.Sound) (hinside : Inside g v v')
    (hbytes : ∀ i, i < g.fsize * SS → fatByte g v' i = encode g.fs_type (fatByte g v) c val i) :
    Touched g c v v' ∧ (c < g.n_fatent → entry g v' c = (val &&& mask g.fs_type).toNat) := by
  have hdecode : ∀ d, d < g.n_fatent →
      entry g v' d = (decode g.fs_type (encode g.fs_type (fatByte g v) c val) d).toNat := by
    intro d hd
    unfold entry
    rw [decode_congr hd]
    intro i hi
    have hroom := hg.room
    exact hbytes i (by omega)
  constructor
  · refine ⟨hinside, ?_⟩
    intro d hd hne
    rw [hdecode d hd, decode_encode_other hne]
    rfl
  · intro hc
    rw [hdecode c hc, decode_encode hg.mounted]

theorem store16_congr {f f' : ℕ → Byte} {j : ℕ} {lo hi : Byte} (h : f' i = f i) :
    store16 f' j lo hi i = store16 f j lo hi i := by
  simp [store16, Function.update_apply, h]

theorem store32_congr {f f' : ℕ → Byte} {j : ℕ} (h : f' i = f i) : store32 f' j val i = store32 f j val i :=
  store16_congr (store16_congr h)

theorem Kept.mark (h : Kept g v v') : Kept g v v'.mark :=
  ⟨h.view, ⟨fun hflag => by simp [Volume.mark] at hflag, h.coherent.range⟩, h.last_clust, h.free_clust, h.fsi_flag, h.near⟩

theorem moveWindow_err (drv : Drive) (g : Geometry) (v : Volume) (sector : ℕ) (hok : (moveWindow drv g sector v).1 ≠ .FR_OK) :
    (moveWindow drv g sector v).1 = .FR_DISK_ERR := by
  unfold moveWindow at hok ⊢
  split
  · rename_i hs
    rw [if_pos hs] at hok
    split
    · split
      · simp_all
      · rfl
    · rfl
  · rename_i hs
    simp [hs] at hok

/- What a put that returns `r` leaves of the entry it is for and of the others. -/
def Put (drv : Drive) (g : Geometry) (c : ℕ) (val : BitVec 32) (v : Volume) (r : FResult × Volume) : Prop :=
  r.1 = .FR_OK ∧ Touched g c v r.2 ∧ entry g r.2 c = (val &&& mask g.fs_type).toNat ∨
    r.1 = .FR_DISK_ERR ∧ (drv.Legible →
      Touched g c v r.2 ∧ (g.fs_type ≠ .FAT12 → entry g r.2 c = entry g v c))

theorem touched_torn (hg : g.Sound) (hty : g.fs_type = .FAT12) (hinside : Inside g v v')
    (hbytes : ∀ i, i < g.fsize * SS → fatByte g v' i =
      Function.update (fatByte g v) (c + c / 2) (low12 c val (fatByte g v (c + c / 2))) i) : Touched g c v v' := by
  refine ⟨hinside, ?_⟩
  intro d hd hne
  have hroom := hg.room
  have hafter : decode .FAT12 (fatByte g v') d = decode .FAT12 (fatByte g v) d := by
    have hcongr : decode .FAT12 (fatByte g v') d = decode .FAT12 _ d :=
      decode_congr hd fun i hi => hbytes i (by rw [hty] at hroom; omega)
    exact hcongr.trans (decode12_torn hne)
  unfold entry
  rw [hty, hafter]

theorem put_done {v₁ : Volume} {win : Sector} (hg : g.Sound) (hn : c < g.n_fatent) (h : Inside g v v₁)
    (hwin : g.InTable v₁.winsect)
    (hbytes : ∀ i, i < g.fsize * SS → fatByte g { v₁ with win := win } i = encode g.fs_type (fatByte g v) c val i) :
    Put drv g c val v (.FR_OK, Volume.mark { v₁ with win := win }) := by
  have hinside : Inside g v (Volume.mark { v₁ with win := win }) :=
    h.trans (store_inside h.coherent.range hwin)
  obtain ⟨htouched, hentry⟩ := touched_encode hg hinside hbytes
  exact .inl ⟨rfl, htouched, hentry hn⟩

theorem put_failed {v₁ : Volume} {res : FResult} (hg : g.Sound) (hn : c < g.n_fatent) (hres : res = .FR_DISK_ERR)
    (h : drv.Legible → Kept g v v₁) : Put drv g c val v (res, v₁.mark) := by
  refine .inr ⟨hres, ?_⟩
  intro hlegible
  have hmark := (h hlegible).mark
  exact ⟨hmark.touched hg, fun _ => entry_kept hg hmark hn⟩

theorem putFat_spec (drv : Drive) (hg : g.Sound) (h : Coherent v) (hc : 2 ≤ c) (hn : c < g.n_fatent) (val : BitVec 32) :
    Put drv g c val v (putFat drv g c val v) := by
  have hlimit := hg.limit
  have hroom := hg.room
  have hrange : ¬ (c < 2 ∨ c ≥ g.n_fatent) := by omega
  unfold putFat
  rw [if_neg hrange]
  cases hty : g.fs_type with
  | none => exact absurd hty hg.mounted
  | FAT12 =>
    simp only [hty, endMark, tableBytes] at hlimit hroom
    have hlast := entry12_lt hn
    have hfirst : dword (c + c / 2) = c + c / 2 := by unfold dword; omega
    have hsecond : dword (c + c / 2 + 1) = c + c / 2 + 1 := by unfold dword; omega
    have hin : c + c / 2 < g.fsize * SS := by omega
    have hin' : c + c / 2 + 1 < g.fsize * SS := by omega
    simp only [hfirst, hsecond]
    obtain ⟨hkept, hwin⟩ := moveFat drv hg h hin
    have herr := moveWindow_err drv g v (dword (g.fatbase + (c + c / 2) / SS))
    cases hmove : moveWindow drv g (dword (g.fatbase + (c + c / 2) / SS)) v with
    | mk res v₁ =>
      have hlow := fun hok : res = .FR_OK => moveFat_byte hg h (hok ▸ hmove) hin rfl
      rw [hmove] at hkept hwin herr
      cases res with
      | FR_OK =>
        have hkept₁ : Kept g v v₁ := hkept (.inl rfl)
        have hwinsect : v₁.winsect = g.fatbase + (c + c / 2) / SS := hwin rfl
        dsimp only
        rw [hlow rfl]
        have hbyte : fatByte g (v₁.store (c + c / 2) (low12 c val (fatByte g v (c + c / 2)))).mark =
            Function.update (fatByte g v₁) (c + c / 2) (low12 c val (fatByte g v (c + c / 2))) := fatByte_store hwinsect
        have hinside : Inside g v (v₁.store (c + c / 2) (low12 c val (fatByte g v (c + c / 2)))).mark :=
          hkept₁.inside.trans (store_inside hkept₁.coherent.range (hwinsect ▸ inTable hg hin))
        generalize (v₁.store (c + c / 2) (low12 c val (fatByte g v (c + c / 2)))).mark = w at hbyte hinside
        have hafter : ∀ i, i < g.fsize * SS → fatByte g w i =
            Function.update (fatByte g v) (c + c / 2) (low12 c val (fatByte g v (c + c / 2))) i := by
          intro i hi
          simp [hbyte, Function.update_apply, fatByte_kept hkept₁ hi]
        obtain ⟨hkept', hwin'⟩ := moveFat drv hg hinside.coherent hin'
        have herr' := moveWindow_err drv g w (dword (g.fatbase + (c + c / 2 + 1) / SS))
        cases hmove' : moveWindow drv g (dword (g.fatbase + (c + c / 2 + 1) / SS)) w with
        | mk res v₂ =>
          have hhigh := fun hok : res = .FR_OK => moveFat_byte hg hinside.coherent (hok ▸ hmove') hin' rfl
          rw [hmove'] at hkept' hwin' herr'
          cases res with
          | FR_OK =>
            have hkept₂ : Kept g w v₂ := hkept' (.inl rfl)
            have hwinsect' : v₂.winsect = g.fatbase + (c + c / 2 + 1) / SS := hwin' rfl
            apply put_done hg hn (hinside.trans hkept₂.inside) (hwinsect' ▸ inTable hg hin')
            intro i hi
            have hmid : fatByte g v₂ i = _ := (fatByte_kept hkept₂ hi).trans (hafter i hi)
            have hnext : fatByte g w (c + c / 2 + 1) = fatByte g v (c + c / 2 + 1) := by
              simp [hafter _ hin']
            have hstore := fatByte_store (x := high12 c val (fatByte g v (c + c / 2 + 1))) hwinsect'
            rw [hty, hhigh rfl, hnext]
            refine (congrFun hstore i).trans ?_
            simp only [encode, store16, Function.update_apply, hmid]
          | _ =>
            refine .inr ⟨herr' (by simp), ?_⟩
            intro hlegible
            have htorn := touched_torn hg hty hinside hafter
            have hmark := (hkept' (.inr hlegible)).mark.touched hg (c := c)
            refine ⟨⟨htorn.toInside.trans hmark.toInside, ?_⟩, fun hno => absurd hty hno⟩
            intro d hd hne
            exact (hmark.entry d hd hne).trans (htorn.entry d hd hne)
      | _ => exact put_failed hg hn (herr (by simp)) fun hlegible => hkept (.inr hlegible)
  | FAT16 =>
    simp only [hty, endMark, tableBytes] at hlimit hroom
    have hsector : c * 2 / SS = c / (SS / 2) := by unfold SS; omega
    have hsector' : (c * 2 + 1) / SS = c / (SS / 2) := by unfold SS; omega
    have hin : c * 2 < g.fsize * SS := by omega
    obtain ⟨hkept, hwin⟩ := moveFat drv hg h hin
    rw [hsector] at hkept hwin
    have herr := moveWindow_err drv g v (dword (g.fatbase + c / (SS / 2)))
    simp only
    cases hmove : moveWindow drv g (dword (g.fatbase + c / (SS / 2))) v with
    | mk res v₁ =>
      rw [hmove] at hkept hwin herr
      cases res with
      | FR_OK =>
        have hkept₁ : Kept g v v₁ := hkept (.inl rfl)
        have hwinsect : v₁.winsect = g.fatbase + c / (SS / 2) := hwin rfl
        apply put_done hg hn hkept₁.inside (hwinsect ▸ hsector ▸ inTable hg hin)
        intro i hi
        rw [hty]
        have hstore : fatByte g ((v₁.store (c * 2) (val.setWidth 8)).store (c * 2 + 1) ((val >>> 8).setWidth 8)) =
            store16 (fatByte g v₁) (c * 2) (val.setWidth 8) ((val >>> 8).setWidth 8) := by
          rw [fatByte_store (by rw [store_winsect, hwinsect, hsector']), fatByte_store (by rw [hwinsect, hsector])]
          rfl
        exact (congrFun hstore i).trans (store16_congr (fatByte_kept hkept₁ hi))
      | _ => exact put_failed hg hn (herr (by simp)) fun hlegible => hkept (.inr hlegible)
  | FAT32 =>
    simp only [hty, endMark, tableBytes] at hlimit hroom
    have hfirst : c * 4 / SS = c / (SS / 4) := by unfold SS; omega
    have hsector : ∀ k < 4, (c * 4 + k) / SS = c / (SS / 4) := by unfold SS; omega
    have hin : c * 4 < g.fsize * SS := by omega
    obtain ⟨hkept, hwin⟩ := moveFat drv hg h hin
    rw [hfirst] at hkept hwin
    have herr := moveWindow_err drv g v (dword (g.fatbase + c / (SS / 4)))
    simp only
    cases hmove : moveWindow drv g (dword (g.fatbase + c / (SS / 4))) v with
    | mk res v₁ =>
      have hbyte : res = .FR_OK → ∀ k < 4, v₁.win (place (c * 4 + k)) = fatByte g v (c * 4 + k) :=
        fun hok k hk => moveFat_byte hg h (hok ▸ hmove) (by omega) (hsector k hk).symm
      rw [hmove] at hkept hwin herr
      cases res with
      | FR_OK =>
        have hkept₁ : Kept g v v₁ := hkept (.inl rfl)
        have hwinsect : v₁.winsect = g.fatbase + c / (SS / 4) := hwin rfl
        have hload : v₁.dwordAt (c * 4) = load32 (fatByte g v) (c * 4) := by
          have h₀ := hbyte rfl 0 (by decide)
          simp only [Nat.add_zero] at h₀
          simp only [Volume.dwordAt, h₀, hbyte rfl 1 (by decide), hbyte rfl 2 (by decide), hbyte rfl 3 (by decide), load32]
        apply put_done hg hn hkept₁.inside (hwinsect ▸ hfirst ▸ inTable hg hin)
        intro i hi
        rw [hty, hload]
        have hstore : ∀ w : BitVec 32, fatByte g ((((v₁.store (c * 4) (w.setWidth 8)).store (c * 4 + 1)
            ((w >>> 8).setWidth 8)).store (c * 4 + 2) ((w >>> 16).setWidth 8)).store (c * 4 + 3)
            ((w >>> 24).setWidth 8)) = store32 (fatByte g v₁) (c * 4) w := by
          intro w
          rw [fatByte_store (by simp only [store_winsect]; rw [hwinsect, hsector 3 (by decide)]),
            fatByte_store (by simp only [store_winsect]; rw [hwinsect, hsector 2 (by decide)]),
            fatByte_store (by rw [store_winsect, hwinsect, hsector 1 (by decide)]),
            fatByte_store (by rw [hwinsect, hfirst])]
          rfl
        exact (congrFun (hstore _) i).trans (store32_congr (fatByte_kept hkept₁ hi))
      | _ => exact put_failed hg hn (herr (by simp)) fun hlegible => hkept (.inr hlegible)

theorem getFat_healthy (hg : g.Sound) (hd : drv.Healthy) (hc : 2 ≤ c) (hn : c < g.n_fatent) (v : Volume) :
    (getFat drv g c v).1 ≠ 0xFFFFFFFF := by
  have hrange : ¬ (c < 2 ∨ c ≥ g.n_fatent) := by omega
  have hmove : ∀ sector w, ∃ w', moveWindow drv g sector w = (.FR_OK, w') :=
    fun sector w => ⟨_, Prod.ext (moveWindow_healthy hd sector w) rfl⟩
  unfold getFat
  rw [if_neg hrange]
  cases hty : g.fs_type with
  | none => exact absurd hty hg.mounted
  | FAT12 =>
    obtain ⟨w, hw⟩ := hmove (dword (g.fatbase + dword (c + c / 2) / SS)) v
    obtain ⟨w', hw'⟩ := hmove (dword (g.fatbase + dword (dword (c + c / 2) + 1) / SS)) w
    simp only [hw, hw']
    have hlt := (if c % 2 = 1 then
      LD_WORD (w.win (place (dword (c + c / 2)))) (w'.win (place (dword (dword (c + c / 2) + 1)))) >>> 4 else
      LD_WORD (w.win (place (dword (c + c / 2)))) (w'.win (place (dword (dword (c + c / 2) + 1)))) &&& 0xFFF#16).isLt
    omega
  | FAT16 =>
    obtain ⟨w, hw⟩ := hmove (dword (g.fatbase + c / (SS / 2))) v
    simp only [hw]
    have hlt := (LD_WORD (w.win (place (c * 2))) (w.win (place (c * 2 + 1)))).isLt
    omega
  | FAT32 =>
    obtain ⟨w, hw⟩ := hmove (dword (g.fatbase + c / (SS / 4))) v
    simp only [hw]
    have hmask := and_mask (w.dwordAt (c * 4)) 28 (by decide)
    simp only [Nat.reducePow, Nat.reduceSub] at hmask
    rw [hmask]
    omega

theorem putFat_healthy (hg : g.Sound) (hd : drv.Healthy) (hc : 2 ≤ c) (hn : c < g.n_fatent) (val : BitVec 32)
    (v : Volume) : (putFat drv g c val v).1 = .FR_OK := by
  have hrange : ¬ (c < 2 ∨ c ≥ g.n_fatent) := by omega
  have hmove : ∀ sector w, ∃ w', moveWindow drv g sector w = (.FR_OK, w') :=
    fun sector w => ⟨_, Prod.ext (moveWindow_healthy hd sector w) rfl⟩
  unfold putFat
  rw [if_neg hrange]
  cases hty : g.fs_type with
  | none => exact absurd hty hg.mounted
  | FAT12 =>
    obtain ⟨w, hw⟩ := hmove (dword (g.fatbase + dword (c + c / 2) / SS)) v
    simp only [hw]
    obtain ⟨w', hw'⟩ := hmove (dword (g.fatbase + dword (dword (c + c / 2) + 1) / SS))
      (w.store (dword (c + c / 2)) (low12 c val (w.win (place (dword (c + c / 2)))))).mark
    simp only [hw']
  | FAT16 =>
    obtain ⟨w, hw⟩ := hmove (dword (g.fatbase + c / (SS / 2))) v
    simp only [hw]
  | FAT32 =>
    obtain ⟨w, hw⟩ := hmove (dword (g.fatbase + c / (SS / 4))) v
    simp only [hw]

end MultiEmbedded.Fat
