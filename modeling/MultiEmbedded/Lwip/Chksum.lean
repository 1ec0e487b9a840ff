import MultiEmbedded.Lib.OnesSum
import Mathlib.Algebra.Group.Nat.Defs

/-!
# The Internet checksum (core/ipv4/inet_chksum.c)

Each of the three algorithms sums the octets of a buffer from any address on; a
datagram is summed over the chain of pbufs it lies in.
-/

namespace MultiEmbedded.Inet
open OnesSum

abbrev U8 := BitVec 8
abbrev U16 := BitVec 16
abbrev U32 := BitVec 32

/-! ### Words -/

def FOLD_U32T (u : U32) : U32 := (u >>> 16) + (u &&& 0x0000ffff)

def SWAP_BYTES_IN_WORD (w : U32) : U32 := ((w &&& 0xff) <<< 8) ||| ((w &&& 0xff00) >>> 8)

def lwipHtons (n : U16) : U16 := ((n &&& 0xff) <<< 8) ||| ((n &&& 0xff00) >>> 8)

theorem append_toNat {m n : ℕ} (x : BitVec m) (y : BitVec n) :
    (x ++ y).toNat = y.toNat + 2 ^ n * x.toNat := by
  rw [BitVec.toNat_append, Nat.shiftLeft_eq, Nat.mul_comm, ← Nat.two_pow_add_eq_or_of_lt y.isLt, Nat.add_comm]

theorem half_toNat (b c : U8) : (c ++ b).toNat = b.toNat + 256 * c.toNat := append_toNat c b

theorem FOLD_U32T_toNat (u : U32) : (FOLD_U32T u).toNat = fold u.toNat := by
  have hu := u.isLt
  have hlow : (u &&& 0x0000ffff).toNat = u.toNat % 65536 := by
    rw [BitVec.toNat_and]
    exact Nat.and_two_pow_sub_one_eq_mod u.toNat 16
  have hhigh : (u >>> 16).toNat = u.toNat / 65536 := by
    rw [BitVec.toNat_ushiftRight]
    exact Nat.shiftRight_eq_div_pow u.toNat 16
  unfold FOLD_U32T fold
  rw [BitVec.toNat_add, hlow, hhigh]
  omega

/- Both halves of a word have the octets of the other place. -/
theorem octets_swapped (k : ℕ) : (k % 256) <<< 8 ||| k / 256 % 256 = swap k := by
  have hlow : k / 256 % 256 < 2 ^ 8 := Nat.mod_lt _ (by decide)
  rw [Nat.shiftLeft_eq, Nat.mul_comm, ← Nat.two_pow_add_eq_or_of_lt hlow]
  unfold swap
  omega

theorem and_high (k : ℕ) : (k &&& 0xff00) >>> 8 = k / 256 % 256 := by
  rw [Nat.shiftRight_and_distrib, Nat.shiftRight_eq_div_pow]
  exact Nat.and_two_pow_sub_one_eq_mod (k / 256) 8

theorem and_upper (k : ℕ) : (k &&& 0xffff0000) >>> 16 = k / 65536 % 65536 := by
  rw [Nat.shiftRight_and_distrib, Nat.shiftRight_eq_div_pow]
  exact Nat.and_two_pow_sub_one_eq_mod (k / 65536) 16

theorem SWAP_BYTES_IN_WORD_toNat (w : U32) : (SWAP_BYTES_IN_WORD w).toNat = swap w.toNat := by
  have hlow : ((w &&& 0xff) <<< 8).toNat = (w.toNat % 256) <<< 8 := by
    have hmask : (w &&& 0xff).toNat = w.toNat % 256 := by
      rw [BitVec.toNat_and]
      exact Nat.and_two_pow_sub_one_eq_mod w.toNat 8
    rw [BitVec.toNat_shiftLeft, hmask, Nat.shiftLeft_eq]
    exact Nat.mod_eq_of_lt (by omega)
  have hhigh : ((w &&& 0xff00) >>> 8).toNat = w.toNat / 256 % 256 := by
    rw [BitVec.toNat_ushiftRight, BitVec.toNat_and]
    exact and_high w.toNat
  unfold SWAP_BYTES_IN_WORD
  rw [BitVec.toNat_or, hlow, hhigh]
  exact octets_swapped w.toNat

theorem lwipHtons_toNat (n : U16) : (lwipHtons n).toNat = swap n.toNat := by
  have hlow : ((n &&& 0xff) <<< 8).toNat = (n.toNat % 256) <<< 8 := by
    have hmask : (n &&& 0xff).toNat = n.toNat % 256 := by
      rw [BitVec.toNat_and]
      exact Nat.and_two_pow_sub_one_eq_mod n.toNat 8
    rw [BitVec.toNat_shiftLeft, hmask, Nat.shiftLeft_eq]
    exact Nat.mod_eq_of_lt (by omega)
  have hhigh : ((n &&& 0xff00) >>> 8).toNat = n.toNat / 256 % 256 := by
    rw [BitVec.toNat_ushiftRight, BitVec.toNat_and]
    exact and_high n.toNat
  unfold lwipHtons
  rw [BitVec.toNat_or, hlow, hhigh]
  exact octets_swapped n.toNat

/-! ### The algorithms -/

inductive Algorithm
  | one
  | two
  | three
  deriving DecidableEq

/- Octets two at a time: `sum += *ps++`. -/
def addWords (load : U8 → U8 → U16) : List U8 → U32 → U32 × List U8
  | b :: c :: data, sum => addWords load data (sum + (load b c).setWidth 32)
  | data, sum => (sum, data)

/- `*ps` of a little-endian host, and the word declared to be in network order. -/
def hostWord (b c : U8) : U16 := c ++ b

def netWord (b c : U8) : U16 := b ++ c

/- `tmp = sum + *pl++; if (tmp < sum) tmp++;` -/
def addCarry (sum x : U32) : U32 :=
  let tmp := sum + x
  if tmp < sum then tmp + 1 else tmp

def addLongs : List U8 → U32 → U32 × List U8
  | b₀ :: b₁ :: b₂ :: b₃ :: b₄ :: b₅ :: b₆ :: b₇ :: data, sum =>
    let tmp := addCarry sum (b₃ ++ b₂ ++ b₁ ++ b₀)
    addLongs data (addCarry tmp (b₇ ++ b₆ ++ b₅ ++ b₄))
  | data, sum => (sum, data)

/- The octet in front of the first even address. -/
def oddOctet (odd : Bool) : List U8 → U8 × List U8
  | b :: data => if odd then (b, data) else (0, b :: data)
  | [] => (0, [])

/- `t` has the octet of the odd address above and the left-over one below. -/
def finish (odd : Bool) (sum : U32) (above below : U8) : U16 :=
  let sum := sum + (above ++ below : U16).setWidth 32
  let sum := FOLD_U32T sum
  let sum := FOLD_U32T sum
  let sum := if odd then SWAP_BYTES_IN_WORD sum else sum
  sum.setWidth 16

def lwipStandardChksum1 (data : List U8) : U16 :=
  let (acc, rest) := addWords netWord data 0
  let acc := match rest with
    | b :: _ => acc + (netWord b 0).setWidth 32
    | [] => acc
  let acc := FOLD_U32T acc
  let acc := if acc &&& 0xffff0000 ≠ 0 then FOLD_U32T acc else acc
  lwipHtons (acc.setWidth 16)

def lwipStandardChksum2 (dataptr : ℕ) (data : List U8) : U16 :=
  let odd := decide (dataptr % 2 = 1)
  let (above, ps) := oddOctet odd data
  let (sum, rest) := addWords hostWord ps 0
  finish odd sum above (rest.headD 0)

/- `if (((mem_ptr_t)ps & 3) && len > 1)` one word more before the 32-bit words. -/
def unalignedWord (unaligned : Bool) : List U8 → U32 × List U8
  | b :: c :: data => if unaligned then ((hostWord b c).setWidth 32, data) else (0, b :: c :: data)
  | data => (0, data)

def lwipStandardChksum3 (dataptr : ℕ) (data : List U8) : U16 :=
  let odd := decide (dataptr % 2 = 1)
  let (above, ps) := oddOctet odd data
  let (sum, pl) := unalignedWord (decide ((dataptr + (data.length - ps.length)) % 4 ≠ 0)) ps
  let (sum, ps) := addLongs pl sum
  let sum := FOLD_U32T sum
  let (sum, rest) := addWords hostWord ps sum
  finish odd sum above (rest.headD 0)

/-- `LWIP_CHKSUM` for `LWIP_CHKSUM_ALGORITHM` 1, 2 and 3. -/
def LWIP_CHKSUM (algorithm : Algorithm) (dataptr : ℕ) (data : List U8) : U16 :=
  match algorithm with
  | .one => lwipStandardChksum1 data
  | .two => lwipStandardChksum2 dataptr data
  | .three => lwipStandardChksum3 dataptr data

/- How many octets an algorithm is for: an accumulator without carry, the comment of the
second one, the range of `int`. -/
def Algorithm.limit : Algorithm → ℕ
  | .one => 0xffff
  | .two => 0x20000
  | .three => 0x7fffffff

example : (lwipStandardChksum2 0 [1, 2, 3], lwipStandardChksum2 1 [1, 2, 3], lwipStandardChksum1 [1, 2, 3]) =
    (0x0204, 0x0204, 0x0204) := by decide

/- All words of the data, without a left-over octet. -/
def wordsOf (load : U8 → U8 → U16) : List U8 → ℕ
  | b :: c :: data => (load b c).toNat + wordsOf load data
  | _ => 0

theorem addWords_rest (load : U8 → U8 → U16) (data : List U8) (sum : U32) :
    (addWords load data sum).2.length = data.length % 2 := by
  induction data, sum using addWords.induct load with
  | case1 b c data sum ih =>
    unfold addWords
    rw [ih, List.length_cons, List.length_cons]
    omega
  | case2 data sum hshort =>
    cases data with
    | nil => rfl
    | cons b data =>
      cases data with
      | nil => rfl
      | cons c data => exact (hshort b c data rfl).elim

theorem addWords_sum (load : U8 → U8 → U16) (data : List U8) (sum : U32)
    (hsum : sum.toNat + wordsOf load data < 4294967296) :
    (addWords load data sum).1.toNat = sum.toNat + wordsOf load data := by
  induction data, sum using addWords.induct load with
  | case1 b c data sum ih =>
    have hword : ((load b c).setWidth 32).toNat = (load b c).toNat := BitVec.toNat_setWidth_of_le (by decide)
    have hstep : (sum + (load b c).setWidth 32).toNat = sum.toNat + (load b c).toNat := by
      unfold wordsOf at hsum
      rw [BitVec.toNat_add, hword]
      omega
    unfold wordsOf at hsum
    unfold addWords wordsOf
    rw [ih (by omega), hstep]
    omega
  | case2 data sum hshort =>
    unfold addWords wordsOf
    cases data with
    | nil => rfl
    | cons b data =>
      cases data with
      | nil => rfl
      | cons c data => exact (hshort b c data rfl).elim

theorem wordsOf_bound (load : U8 → U8 → U16) (data : List U8) : wordsOf load data ≤ 65535 * (data.length / 2) := by
  induction data using wordsOf.induct with
  | case1 b c data ih =>
    have hword := (load b c).isLt
    unfold wordsOf
    rw [List.length_cons, List.length_cons]
    omega
  | case2 data hshort =>
    unfold wordsOf
    split
    · exact (hshort _ _ _ rfl).elim
    · exact Nat.zero_le _

theorem addWords_host (data : List U8) (sum : U32) :
    wordsOf hostWord data + ((addWords hostWord data sum).2.headD 0).toNat = octetSum data := by
  induction data, sum using addWords.induct hostWord with
  | case1 b c data sum ih =>
    unfold wordsOf addWords octetSum hostWord
    unfold hostWord at ih
    rw [half_toNat, Nat.add_assoc, ih]
  | case2 data sum hshort =>
    cases data with
    | nil => rfl
    | cons b data =>
      cases data with
      | nil => exact Nat.zero_add _
      | cons c data => exact (hshort b c data rfl).elim

/- In network order a word counts with its octets swapped. -/
theorem addWords_net (data : List U8) (sum : U32) :
    Alike (wordsOf netWord data + 256 * ((addWords netWord data sum).2.headD 0).toNat) (256 * octetSum data) := by
  induction data, sum using addWords.induct netWord with
  | case1 b c data sum ih =>
    unfold wordsOf addWords octetSum netWord
    unfold netWord at ih
    have hword : Alike (b ++ c : U16).toNat (256 * (b.toNat + 256 * c.toNat)) := by
      rw [half_toNat, Nat.mul_add, Nat.add_comm]
      exact (Alike.refl _).add (shift_twice c.toNat).symm
    rw [Nat.add_assoc, Nat.mul_add]
    exact hword.add ih
  | case2 data sum hshort =>
    cases data with
    | nil => exact .refl _
    | cons b data =>
      cases data with
      | nil =>
        show Alike (0 + 256 * b.toNat) (256 * b.toNat)
        rw [Nat.zero_add]
        exact .refl _
      | cons c data => exact (hshort b c data rfl).elim

theorem finish_toNat (odd : Bool) (sum : U32) (above below : U8)
    (hsum : sum.toNat + 65535 < 4294967296) :
    (finish odd sum above below).toNat =
      residue (if odd then 256 * (sum.toNat + below.toNat + 256 * above.toNat)
        else sum.toNat + below.toNat + 256 * above.toNat) := by
  have habove := above.isLt
  have hbelow := below.isLt
  have hends : (sum + (above ++ below : U16).setWidth 32).toNat = sum.toNat + below.toNat + 256 * above.toNat := by
    rw [BitVec.toNat_add, BitVec.toNat_setWidth_of_le (by decide), half_toNat]
    omega
  have hfold : (FOLD_U32T (FOLD_U32T (sum + (above ++ below : U16).setWidth 32))).toNat =
      residue (sum.toNat + below.toNat + 256 * above.toNat) := by
    rw [FOLD_U32T_toNat, FOLD_U32T_toNat, hends]
    exact fold_residue (by omega)
  have hle := residue_le (sum.toNat + below.toNat + 256 * above.toNat)
  unfold finish
  cases odd with
  | false =>
    show (BitVec.setWidth 16 (FOLD_U32T (FOLD_U32T _))).toNat = residue _
    rw [BitVec.toNat_setWidth, hfold]
    exact Nat.mod_eq_of_lt (by omega)
  | true =>
    have hswap := swap_le (residue (sum.toNat + below.toNat + 256 * above.toNat))
    show (BitVec.setWidth 16 (SWAP_BYTES_IN_WORD (FOLD_U32T (FOLD_U32T _)))).toNat = residue _
    rw [BitVec.toNat_setWidth, SWAP_BYTES_IN_WORD_toNat, hfold, swap_residue]
    rw [swap_residue] at hswap
    exact Nat.mod_eq_of_lt (by omega)

/- With the first octet of an odd address above, all data count with their octets swapped. -/
theorem oddOctet_sum (odd : Bool) (data : List U8) :
    Alike (octetSum (oddOctet odd data).2 + 256 * (oddOctet odd data).1.toNat)
      (if odd then 256 * octetSum data else octetSum data) := by
  cases data with
  | nil =>
    cases odd with
    | false => exact .refl _
    | true => exact .refl _
  | cons b data =>
    cases odd with
    | false => exact .refl _
    | true =>
      have hsplit := (octetSum_cons b data).shift
      rw [Nat.mul_add] at hsplit
      have htwice := (Alike.refl (256 * b.toNat)).add (shift_twice (octetSum data))
      show Alike (octetSum data + 256 * b.toNat) (256 * octetSum (b :: data))
      rw [Nat.add_comm]
      exact (hsplit.trans htwice).symm

theorem oddOctet_length (odd : Bool) (data : List U8) : (oddOctet odd data).2.length ≤ data.length := by
  cases data with
  | nil => exact Nat.le_refl _
  | cons b data =>
    cases odd with
    | false => exact Nat.le_refl _
    | true => exact Nat.le_succ _

/- The swap at the end undoes that. -/
theorem finish_odd (odd : Bool) (data : List U8) (sum : U32) (below : U8)
    (hsum : sum.toNat + 65535 < 4294967296)
    (hdata : Alike (sum.toNat + below.toNat) (octetSum (oddOctet odd data).2)) :
    (finish odd sum (oddOctet odd data).1 below).toNat = residue (octetSum data) := by
  rw [finish_toNat odd sum _ below hsum]
  apply residue_congr
  have hall := (hdata.add (Alike.refl (256 * (oddOctet odd data).1.toNat))).trans (oddOctet_sum odd data)
  cases odd with
  | false => exact hall
  | true => exact hall.shift.trans (shift_twice _)

theorem lwipStandardChksum2_residue (dataptr : ℕ) (data : List U8) (hlen : data.length ≤ 0x20000) :
    (lwipStandardChksum2 dataptr data).toNat = residue (octetSum data) := by
  unfold lwipStandardChksum2
  generalize decide (dataptr % 2 = 1) = odd
  have hps := oddOctet_length odd data
  have hbound := wordsOf_bound hostWord (oddOctet odd data).2
  have hsum := addWords_sum hostWord (oddOctet odd data).2 0 (show 0 + _ < _ by omega)
  have hhost := addWords_host (oddOctet odd data).2 0
  rw [show (0 : U32).toNat = 0 from rfl, Nat.zero_add] at hsum
  rw [← hsum] at hhost hbound
  show (finish odd (addWords hostWord (oddOctet odd data).2 0).1 (oddOctet odd data).1
    ((addWords hostWord (oddOctet odd data).2 0).2.headD 0)).toNat = _
  exact finish_odd odd data _ _ (by omega) (.of_eq hhost)

/- Folding once more does nothing to a sum that fits. -/
theorem second_fold (acc : U32) :
    (if acc &&& 0xffff0000 ≠ 0 then FOLD_U32T acc else acc) = FOLD_U32T acc := by
  split_ifs with h
  · rfl
  · have hhigh : acc.toNat / 65536 % 65536 = 0 := by
      have hand : acc.toNat &&& 0xffff0000 = 0 :=
        (BitVec.toNat_and acc 0xffff0000).symm.trans (congrArg BitVec.toNat (not_ne_iff.mp h))
      rw [← and_upper, hand]
      rfl
    have hacc := acc.isLt
    apply BitVec.eq_of_toNat_eq
    rw [FOLD_U32T_toNat]
    unfold fold
    omega

theorem lwipStandardChksum1_residue (data : List U8) (hlen : data.length ≤ 0xffff) :
    (lwipStandardChksum1 data).toNat = residue (octetSum data) := by
  have hbound := wordsOf_bound netWord data
  have hsum := addWords_sum netWord data 0 (show 0 + _ < _ by omega)
  have hnet := addWords_net data 0
  have hrest := addWords_rest netWord data 0
  rw [show (0 : U32).toNat = 0 from rfl, Nat.zero_add] at hsum
  unfold lwipStandardChksum1
  generalize addWords netWord data 0 = x at hsum hnet hrest ⊢
  obtain ⟨acc, rest⟩ := x
  -- the left-over octet is the more significant one of its word
  have hlast : (match rest with
      | b :: _ => acc + (netWord b 0).setWidth 32
      | [] => acc).toNat = wordsOf netWord data + 256 * (rest.headD 0).toNat := by
    cases rest with
    | nil => exact hsum
    | cons b rest =>
      have hb := b.isLt
      have hword : ((netWord b 0).setWidth 32).toNat = 256 * b.toNat := by
        rw [BitVec.toNat_setWidth_of_le (by decide)]
        exact (half_toNat 0 b).trans (Nat.zero_add _)
      show (acc + (netWord b 0).setWidth 32).toNat = wordsOf netWord data + 256 * b.toNat
      rw [BitVec.toNat_add, hword, hsum]
      omega
  have hb := (rest.headD 0).isLt
  simp only [second_fold]
  rw [lwipHtons_toNat, BitVec.toNat_setWidth, FOLD_U32T_toNat, FOLD_U32T_toNat, hlast, fold_residue (by omega),
    Nat.mod_eq_of_lt (Nat.lt_succ_of_le (residue_le _)), swap_residue]
  exact residue_congr (hnet.shift.trans (shift_twice _))

/- The carry out of 32 bits comes back as 1, as in 16 bits. -/
theorem addCarry_alike (sum x : U32) : Alike (addCarry sum x).toNat (sum.toNat + x.toNat) := by
  have hsum := sum.isLt
  have hx := x.isLt
  have htmp : (sum + x).toNat = (sum.toNat + x.toNat) % 4294967296 := BitVec.toNat_add sum x
  unfold addCarry
  by_cases hcarry : sum + x < sum
  · have hlt : (sum + x).toNat < sum.toNat := hcarry
    have hone : (sum + x + 1).toNat = sum.toNat + x.toNat - 4294967295 := by
      rw [BitVec.toNat_add]
      show ((sum + x).toNat + 1) % 4294967296 = _
      omega
    simp only [hcarry, if_true]
    rw [hone]
    exact ⟨by omega, by omega⟩
  · have hle : sum.toNat ≤ (sum + x).toNat := Nat.not_lt.mp hcarry
    have hfits : (sum + x).toNat = sum.toNat + x.toNat := by omega
    simp only [hcarry, if_false]
    rw [hfits]
    exact .refl _

theorem long_toNat (b₀ b₁ b₂ b₃ : U8) : Alike (b₃ ++ b₂ ++ b₁ ++ b₀).toNat (octetSum [b₀, b₁, b₂, b₃]) := by
  have hlong : (b₃ ++ b₂ ++ b₁ ++ b₀).toNat = b₀.toNat + 256 * (b₁.toNat + 256 * (b₂.toNat + 256 * b₃.toNat)) := by
    simp only [append_toNat, Nat.reducePow]
  have hsum : octetSum [b₀, b₁, b₂, b₃] = b₀.toNat + 256 * b₁.toNat + (b₂.toNat + 256 * b₃.toNat) := rfl
  rw [hlong, hsum]
  exact ⟨by omega, by omega⟩

theorem addLongs_alike (data : List U8) (sum : U32) :
    Alike ((addLongs data sum).1.toNat + octetSum (addLongs data sum).2) (sum.toNat + octetSum data) ∧
      (addLongs data sum).2.length < 8 := by
  induction data, sum using addLongs.induct with
  | case1 b₀ b₁ b₂ b₃ b₄ b₅ b₆ b₇ data sum tmp ih =>
    have hping := (addCarry_alike sum (b₃ ++ b₂ ++ b₁ ++ b₀)).trans
      ((Alike.refl sum.toNat).add (long_toNat b₀ b₁ b₂ b₃))
    have hpong := (addCarry_alike tmp (b₇ ++ b₆ ++ b₅ ++ b₄)).trans (hping.add (long_toNat b₄ b₅ b₆ b₇))
    unfold addLongs
    refine ⟨ih.1.trans ((hpong.add (Alike.refl _)).trans ?_), ih.2⟩
    simp only [octetSum, ← Nat.add_assoc]
    exact .refl _
  | case2 data sum hshort =>
    rcases data with _ | ⟨b₀, _ | ⟨b₁, _ | ⟨b₂, _ | ⟨b₃, _ | ⟨b₄, _ | ⟨b₅, _ | ⟨b₆, _ | ⟨b₇, data⟩⟩⟩⟩⟩⟩⟩⟩
    case cons.cons.cons.cons.cons.cons.cons.cons =>
      exact (hshort b₀ b₁ b₂ b₃ b₄ b₅ b₆ b₇ data rfl).elim
    all_goals exact ⟨.refl _, Nat.lt_of_sub_eq_succ rfl⟩

theorem unalignedWord_sum (unaligned : Bool) (data : List U8) :
    (unalignedWord unaligned data).1.toNat + octetSum (unalignedWord unaligned data).2 = octetSum data := by
  rcases data with _ | ⟨b, _ | ⟨c, data⟩⟩
  · rfl
  · exact Nat.zero_add _
  · cases unaligned with
    | false => exact Nat.zero_add _
    | true =>
      show ((hostWord b c).setWidth 32).toNat + octetSum data = b.toNat + 256 * c.toNat + octetSum data
      rw [BitVec.toNat_setWidth_of_le (by decide)]
      unfold hostWord
      rw [half_toNat]

theorem lwipStandardChksum3_residue (dataptr : ℕ) (data : List U8) :
    (lwipStandardChksum3 dataptr data).toNat = residue (octetSum data) := by
  unfold lwipStandardChksum3
  generalize decide (dataptr % 2 = 1) = odd
  have hpair := Alike.of_eq (unalignedWord_sum
    (decide ((dataptr + (data.length - (oddOctet odd data).2.length)) % 4 ≠ 0)) (oddOctet odd data).2)
  dsimp only
  generalize unalignedWord _ (oddOctet odd data).2 = x at hpair ⊢
  obtain ⟨hlongs, hshort⟩ := addLongs_alike x.2 x.1
  generalize addLongs x.2 x.1 = y at hlongs hshort ⊢
  have hfold : (FOLD_U32T y.1).toNat ≤ 131070 := by
    have hy := y.1.isLt
    rw [FOLD_U32T_toNat]
    unfold fold
    omega
  have hbound := wordsOf_bound hostWord y.2
  have hsum := addWords_sum hostWord y.2 (FOLD_U32T y.1) (by omega)
  have hhost := addWords_host y.2 (FOLD_U32T y.1)
  apply finish_odd odd data
  · omega
  · rw [hsum, Nat.add_assoc, hhost, FOLD_U32T_toNat]
    exact ((fold_alike y.1.toNat).add (.refl _)).trans (hlongs.trans hpair)

/- Whatever the algorithm and the address, the data are summed up in host order. -/
theorem LWIP_CHKSUM_residue (algorithm : Algorithm) (dataptr : ℕ) (data : List U8)
    (hlen : data.length ≤ algorithm.limit) :
    (LWIP_CHKSUM algorithm dataptr data).toNat = residue (octetSum data) := by
  cases algorithm with
  | one => exact lwipStandardChksum1_residue data hlen
  | two => exact lwipStandardChksum2_residue dataptr data hlen
  | three => exact lwipStandardChksum3_residue dataptr data

/-- The three algorithms agree on any data at any two addresses. -/
theorem LWIP_CHKSUM_agree (algorithm algorithm' : Algorithm) (dataptr dataptr' : ℕ) (data : List U8)
    (hlen : data.length ≤ algorithm.limit) (hlen' : data.length ≤ algorithm'.limit) :
    LWIP_CHKSUM algorithm dataptr data = LWIP_CHKSUM algorithm' dataptr' data ∧
      (LWIP_CHKSUM algorithm dataptr data).toNat = residue (octetSum data) := by
  have h := LWIP_CHKSUM_residue algorithm dataptr data hlen
  have h' := LWIP_CHKSUM_residue algorithm' dataptr' data hlen'
  exact ⟨BitVec.eq_of_toNat_eq (h.trans h'.symm), h⟩

theorem LWIP_CHKSUM_agree_odd :
    LWIP_CHKSUM .two 1 [1, 2, 3] = LWIP_CHKSUM .three 2 [1, 2, 3] ∧
      (LWIP_CHKSUM .two 1 [1, 2, 3]).toNat = residue (octetSum [1, 2, 3]) :=
  LWIP_CHKSUM_agree .two .three 1 2 [1, 2, 3] (by decide) (by decide)

/-! ### Chains of pbufs -/

/- `payload` is an address; `len` is a u16_t. -/
structure Pbuf where
  payload : ℕ
  octets : List U8
  len_le : octets.length ≤ 0xffff

def Pbuf.len (q : Pbuf) : ℕ := q.octets.length

def joined (p : List Pbuf) : List U8 := p.flatMap Pbuf.octets

/- One round of the loops: `acc` and `swapped` after the octets of a pbuf of length `len`. -/
def addPbuf (algorithm : Algorithm) (len payload : ℕ) (octets : List U8) (x : U32 × Bool) : U32 × Bool :=
  let acc := x.1 + (LWIP_CHKSUM algorithm payload octets).setWidth 32
  let acc := FOLD_U32T acc
  if len % 2 ≠ 0 then (SWAP_BYTES_IN_WORD acc, !x.2) else (acc, x.2)

def sumChain (algorithm : Algorithm) : List Pbuf → U32 × Bool → U32 × Bool
  | [], x => x
  | q :: p, x => sumChain algorithm p (addPbuf algorithm q.len q.payload q.octets x)

/- `none`: the assertion on the octets left stops the program. -/
def sumPartial (algorithm : Algorithm) : List Pbuf → ℕ → U32 × Bool → Option (U32 × Bool)
  | [], _, x => some x
  | q :: p, chksum_len, x =>
    if chksum_len = 0 then some x
    else
      let chklen := if q.len > chksum_len then chksum_len else q.len
      let x := addPbuf algorithm q.len q.payload (q.octets.take chklen) x
      if chksum_len - chklen < 0x7fff then sumPartial algorithm p (chksum_len - chklen) x else none

def unswap (x : U32 × Bool) : U32 := if x.2 then SWAP_BYTES_IN_WORD x.1 else x.1

/- Addresses are in network order. -/
def addPseudo (acc src dest : U32) (proto : U8) (proto_len : U16) : U32 :=
  let acc := acc + (src &&& 0xffff)
  let acc := acc + ((src >>> 16) &&& 0xffff)
  let acc := acc + (dest &&& 0xffff)
  let acc := acc + ((dest >>> 16) &&& 0xffff)
  let acc := acc + (lwipHtons (proto.setWidth 16)).setWidth 32
  let acc := acc + (lwipHtons proto_len).setWidth 32
  FOLD_U32T (FOLD_U32T acc)

def invert (acc : U32) : U16 := (~~~(acc &&& 0xffff)).setWidth 16

def inetChksum (algorithm : Algorithm) (dataptr : ℕ) (data : List U8) : U16 := ~~~LWIP_CHKSUM algorithm dataptr data

def inetChksumPbuf (algorithm : Algorithm) (p : List Pbuf) : U16 :=
  invert (unswap (sumChain algorithm p (0, false)))

def inetChksumPseudo (algorithm : Algorithm) (p : List Pbuf) (src dest : U32) (proto : U8) (proto_len : U16) : U16 :=
  invert (addPseudo (unswap (sumChain algorithm p (0, false))) src dest proto proto_len)

def inetChksumPseudoPartial (algorithm : Algorithm) (p : List Pbuf) (src dest : U32) (proto : U8)
    (proto_len : U16) (chksum_len : ℕ) : Option U16 :=
  (sumPartial algorithm p chksum_len (0, false)).map fun x => invert (addPseudo (unswap x) src dest proto proto_len)

theorem invert_toNat (acc : U32) : (invert acc).toNat = 65535 - acc.toNat % 65536 := by
  have hmask : (acc &&& 0xffff).toNat = acc.toNat % 65536 := by
    rw [BitVec.toNat_and]
    exact Nat.and_two_pow_sub_one_eq_mod acc.toNat 16
  unfold invert
  rw [BitVec.toNat_setWidth, BitVec.toNat_not, hmask]
  omega

/- What the accumulator holds after some octets. -/
structure Summed (x : U32 × Bool) (data : List U8) : Prop where
  small : x.1.toNat ≤ 65535
  parity : x.2 = decide (data.length % 2 ≠ 0)
  sum : Alike x.1.toNat (if x.2 then 256 * octetSum data else octetSum data)

section Chain
variable {x : U32 × Bool} {data octets : List U8}

theorem summed_nil : Summed (0, false) [] := ⟨Nat.zero_le _, rfl, .refl _⟩

theorem limit_le (algorithm : Algorithm) : 0xffff ≤ algorithm.limit := by
  cases algorithm with
  | one => decide
  | two => decide
  | three => decide

variable (algorithm : Algorithm)

/- The octets folded into a sum that fits. -/
theorem folded (hx : x.1.toNat ≤ 65535) (payload : ℕ) (hlen : octets.length ≤ 0xffff) :
    (FOLD_U32T (x.1 + (LWIP_CHKSUM algorithm payload octets).setWidth 32)).toNat ≤ 65535 ∧
      Alike (FOLD_U32T (x.1 + (LWIP_CHKSUM algorithm payload octets).setWidth 32)).toNat
        (x.1.toNat + octetSum octets) := by
  have hchk := LWIP_CHKSUM_residue algorithm payload octets (Nat.le_trans hlen (limit_le algorithm))
  have hle := residue_le (octetSum octets)
  have hadd : (x.1 + (LWIP_CHKSUM algorithm payload octets).setWidth 32).toNat =
      x.1.toNat + residue (octetSum octets) := by
    rw [BitVec.toNat_add, BitVec.toNat_setWidth_of_le (by decide), hchk]
    omega
  rw [FOLD_U32T_toNat, hadd]
  exact ⟨fold_le (by omega), (fold_alike _).trans ((Alike.refl _).add (residue_alike _))⟩

theorem swapped {w : U32} {n : ℕ} (hw : w.toNat ≤ 65535) (h : Alike w.toNat n) :
    (SWAP_BYTES_IN_WORD w).toNat ≤ 65535 ∧ Alike (SWAP_BYTES_IN_WORD w).toNat (256 * n) := by
  rw [SWAP_BYTES_IN_WORD_toNat]
  exact ⟨swap_le _, (swap_alike hw).trans h.shift⟩

/- Whether the length is odd or not, the pbuf's octets are in their place. -/
theorem unswap_addPbuf (hx : x.1.toNat ≤ 65535) (len payload : ℕ) (hlen : octets.length ≤ 0xffff) :
    (unswap (addPbuf algorithm len payload octets x)).toNat ≤ 65535 ∧
      Alike (unswap (addPbuf algorithm len payload octets x)).toNat
        (if x.2 then 256 * (x.1.toNat + octetSum octets) else x.1.toNat + octetSum octets) := by
  obtain ⟨hsmall, halike⟩ := folded algorithm hx payload hlen
  unfold addPbuf
  dsimp only
  generalize FOLD_U32T (x.1 + (LWIP_CHKSUM algorithm payload octets).setWidth 32) = acc at hsmall halike ⊢
  have hswap := swapped hsmall halike
  have htwice := swapped hswap.1 hswap.2
  by_cases hodd : len % 2 ≠ 0
  · rw [if_pos hodd]
    cases x.2 with
    | false => exact ⟨htwice.1, htwice.2.trans (shift_twice _)⟩
    | true => exact hswap
  · rw [if_neg hodd]
    cases x.2 with
    | false => exact ⟨hsmall, halike⟩
    | true => exact hswap

/- The octets of `data` come to an odd place behind an odd number of octets. -/
theorem Summed.joined_sum (h : Summed x data) :
    Alike (if x.2 then 256 * (x.1.toNat + octetSum octets) else x.1.toNat + octetSum octets)
      (octetSum (data ++ octets)) := by
  have hsum := h.sum
  have hjoin := octetSum_append data octets
  have hparity := h.parity
  cases hs : x.2 with
  | false =>
    rw [hs] at hsum hparity
    have heven : data.length % 2 = 0 := not_ne_iff.mp (of_decide_eq_false hparity.symm)
    rw [if_pos heven] at hjoin
    exact (hsum.add (.refl _)).trans hjoin.symm
  | true =>
    rw [hs] at hsum hparity
    have hodd : data.length % 2 ≠ 0 := of_decide_eq_true hparity.symm
    rw [if_neg hodd] at hjoin
    have hback := (hsum.shift.trans (shift_twice _)).add (Alike.refl (256 * octetSum octets))
    rw [← Nat.mul_add] at hback
    exact hback.trans hjoin.symm

theorem Summed.last (h : Summed x data) (len payload : ℕ) (hlen : octets.length ≤ 0xffff) :
    (unswap (addPbuf algorithm len payload octets x)).toNat ≤ 65535 ∧
      Alike (unswap (addPbuf algorithm len payload octets x)).toNat (octetSum (data ++ octets)) := by
  obtain ⟨hsmall, halike⟩ := unswap_addPbuf algorithm h.small len payload hlen
  exact ⟨hsmall, halike.trans h.joined_sum⟩

theorem Summed.unswap (h : Summed x data) : (unswap x).toNat ≤ 65535 ∧ Alike (unswap x).toNat (octetSum data) := by
  have hsmall := h.small
  have hsum := h.sum
  unfold Inet.unswap
  cases hs : x.2 with
  | false =>
    rw [hs] at hsum
    exact ⟨hsmall, hsum⟩
  | true =>
    rw [hs] at hsum
    obtain ⟨hle, halike⟩ := swapped hsmall hsum
    exact ⟨hle, halike.trans (shift_twice _)⟩

/- One pbuf more. -/
theorem Summed.add (h : Summed x data) (payload : ℕ) (hlen : octets.length ≤ 0xffff) :
    Summed (addPbuf algorithm octets.length payload octets x) (data ++ octets) := by
  have hfolded := folded algorithm h.small payload hlen
  have hjoin := @Summed.joined_sum x data octets h
  have hparity := h.parity
  have hlength : (data ++ octets).length = data.length + octets.length := List.length_append
  unfold addPbuf
  dsimp only
  generalize FOLD_U32T (x.1 + (LWIP_CHKSUM algorithm payload octets).setWidth 32) = acc at hfolded ⊢
  obtain ⟨hsmall, halike⟩ := hfolded
  have hswap := swapped hsmall halike
  by_cases hodd : octets.length % 2 ≠ 0
  · rw [if_pos hodd]
    cases hs : x.2 with
    | false =>
      rw [hs] at hjoin hparity
      have heven := of_decide_eq_false hparity.symm
      exact ⟨hswap.1, (decide_eq_true (by omega)).symm, hswap.2.trans (Alike.shift hjoin)⟩
    | true =>
      rw [hs] at hjoin hparity
      have hdata := of_decide_eq_true hparity.symm
      exact ⟨hswap.1, (decide_eq_false (by omega)).symm, hswap.2.trans hjoin⟩
  · rw [if_neg hodd]
    cases hs : x.2 with
    | false =>
      rw [hs] at hjoin hparity
      have heven := of_decide_eq_false hparity.symm
      exact ⟨hsmall, (decide_eq_false (by omega)).symm, halike.trans hjoin⟩
    | true =>
      rw [hs] at hjoin hparity
      have hdata := of_decide_eq_true hparity.symm
      exact ⟨hsmall, (decide_eq_true (by omega)).symm,
        halike.trans ((shift_twice _).symm.trans (Alike.shift hjoin))⟩

theorem sumChain_summed (p : List Pbuf) (h : Summed x data) :
    Summed (sumChain algorithm p x) (data ++ joined p) := by
  induction p generalizing x data with
  | nil =>
    show Summed x (data ++ [])
    rw [List.append_nil]
    exact h
  | cons q p ih =>
    have hall := ih (h.add algorithm q.payload q.len_le)
    rw [List.append_assoc] at hall
    exact hall

theorem sumPartial_zero (p : List Pbuf) (x : U32 × Bool) : sumPartial algorithm p 0 x = some x := by
  cases p with
  | nil => rfl
  | cons q p => exact if_pos rfl

/- The length that decides about the swap is that of the pbuf, not of its octets summed up:
they differ in the last round only. -/
theorem sumPartial_alike (p : List Pbuf) {chksum_len : ℕ} (h : Summed x data)
    (hlen : ∀ q ∈ p.head?, chksum_len < 0x7fff + q.len) :
    ∃ y, sumPartial algorithm p chksum_len x = some y ∧ (unswap y).toNat ≤ 65535 ∧
      Alike (unswap y).toNat (octetSum (data ++ (joined p).take chksum_len)) := by
  induction p generalizing x data chksum_len with
  | nil =>
    show ∃ y, some x = some y ∧ (unswap y).toNat ≤ 65535 ∧ Alike (unswap y).toNat (octetSum (data ++ [].take chksum_len))
    rw [List.take_nil, List.append_nil]
    exact ⟨x, rfl, h.unswap⟩
  | cons q p ih =>
    have hfirst := hlen q rfl
    have hjoined : joined (q :: p) = q.octets ++ joined p := List.flatMap_cons
    by_cases hzero : chksum_len = 0
    · rw [hzero, sumPartial_zero, List.take_zero, List.append_nil]
      exact ⟨x, rfl, h.unswap⟩
    by_cases hmore : q.len > chksum_len
    · have htake : (q.octets.take chksum_len).length ≤ 0xffff :=
        Nat.le_trans (List.length_take_le' chksum_len q.octets) q.len_le
      have hnone : chksum_len - chksum_len < 0x7fff := by omega
      unfold sumPartial
      simp only [hzero, hmore, hnone, if_false, if_true]
      rw [Nat.sub_self, sumPartial_zero, hjoined, List.take_append_of_le_length (Nat.le_of_lt hmore)]
      exact ⟨_, rfl, h.last algorithm q.len q.payload htake⟩
    · have hwhole : q.octets.take q.len = q.octets := List.take_length
      have hleft : chksum_len - q.len < 0x7fff := by omega
      unfold sumPartial
      simp only [hzero, hmore, hleft, if_false, if_true]
      rw [hwhole, hjoined, List.take_append, List.take_of_length_le (Nat.not_lt.mp hmore), ← List.append_assoc]
      exact ih (h.add algorithm q.payload q.len_le) fun r _ => Nat.lt_of_lt_of_le hleft (Nat.le_add_right _ _)

theorem sumPartial_stops (p : List Pbuf) {chksum_len : ℕ} (x : U32 × Bool)
    (hlen : ¬ ∀ q ∈ p.head?, chksum_len < 0x7fff + q.len) : sumPartial algorithm p chksum_len x = none := by
  cases p with
  | nil => exact (hlen fun q hq => by cases hq).elim
  | cons q p =>
    have hlong : 0x7fff + q.len ≤ chksum_len := by
      by_contra hshort
      apply hlen
      intro r hr
      cases hr
      omega
    have hzero : chksum_len ≠ 0 := by omega
    have hmore : ¬ q.len > chksum_len := by omega
    have hleft : ¬ chksum_len - q.len < 0x7fff := by omega
    unfold sumPartial
    simp only [hzero, hmore, hleft, if_false]

end Chain

/-! ### The pseudo header -/

/- As it lies in memory. -/
def octetsOf (addr : U32) : List U8 :=
  [addr.setWidth 8, (addr >>> 8).setWidth 8, (addr >>> 16).setWidth 8, (addr >>> 24).setWidth 8]

def pseudoHeader (src dest : U32) (proto : U8) (proto_len : U16) : List U8 :=
  octetsOf src ++ octetsOf dest ++ [0, proto, (proto_len >>> 8).setWidth 8, proto_len.setWidth 8]

theorem octetsOf_sum (addr : U32) :
    octetSum (octetsOf addr) = (addr &&& 0xffff).toNat + ((addr >>> 16) &&& 0xffff).toNat := by
  have haddr := addr.isLt
  have hlow : (addr &&& 0xffff).toNat = addr.toNat % 65536 := by
    rw [BitVec.toNat_and]
    exact Nat.and_two_pow_sub_one_eq_mod addr.toNat 16
  have hhigh : ((addr >>> 16) &&& 0xffff).toNat = addr.toNat / 65536 % 65536 := by
    rw [BitVec.toNat_and, BitVec.toNat_ushiftRight, Nat.shiftRight_eq_div_pow]
    exact Nat.and_two_pow_sub_one_eq_mod (addr.toNat / 65536) 16
  have hoctet (k : ℕ) : ((addr >>> k).setWidth 8).toNat = addr.toNat / 2 ^ k % 256 := by
    rw [BitVec.toNat_setWidth, BitVec.toNat_ushiftRight, Nat.shiftRight_eq_div_pow]
  rw [hlow, hhigh]
  show (addr.setWidth 8).toNat + 256 * ((addr >>> 8).setWidth 8).toNat +
    (((addr >>> 16).setWidth 8).toNat + 256 * ((addr >>> 24).setWidth 8).toNat + 0) = _
  rw [hoctet, hoctet, hoctet, BitVec.toNat_setWidth]
  omega

theorem pseudoHeader_sum (src dest : U32) (proto : U8) (proto_len : U16) :
    octetSum (pseudoHeader src dest proto proto_len) =
      octetSum (octetsOf src) + octetSum (octetsOf dest) + 256 * proto.toNat + swap proto_len.toNat := by
  have hlen := proto_len.isLt
  have hhigh : ((proto_len >>> 8).setWidth 8).toNat = proto_len.toNat / 256 % 256 := by
    rw [BitVec.toNat_setWidth, BitVec.toNat_ushiftRight, Nat.shiftRight_eq_div_pow]
  have hlow : (proto_len.setWidth 8).toNat = proto_len.toNat % 256 := BitVec.toNat_setWidth _ _
  have hzero : (0 : U8).toNat = 0 := rfl
  unfold pseudoHeader octetsOf swap
  simp only [List.cons_append, List.nil_append, octetSum, hhigh, hlow, hzero]
  omega

theorem pseudoHeader_even (src dest : U32) (proto : U8) (proto_len : U16) :
    (pseudoHeader src dest proto proto_len).length % 2 = 0 := by
  show 12 % 2 = 0
  rfl

theorem addPseudo_toNat {acc : U32} (hacc : acc.toNat ≤ 65535) (src dest : U32) (proto : U8) (proto_len : U16) :
    (addPseudo acc src dest proto proto_len).toNat =
      residue (octetSum (pseudoHeader src dest proto proto_len) + acc.toNat) := by
  have hproto : ((lwipHtons (proto.setWidth 16)).setWidth 32).toNat = 256 * proto.toNat := by
    have hp := proto.isLt
    rw [BitVec.toNat_setWidth_of_le (by decide), lwipHtons_toNat, BitVec.toNat_setWidth_of_le (by decide)]
    unfold swap
    omega
  have hlen : ((lwipHtons proto_len).setWidth 32).toNat = swap proto_len.toNat := by
    rw [BitVec.toNat_setWidth_of_le (by decide), lwipHtons_toNat]
  have hword (w : U32) : (w &&& 0xffff).toNat ≤ 65535 := by
    rw [BitVec.toNat_and]
    exact Nat.and_le_right
  have hs := hword src
  have hs' := hword (src >>> 16)
  have hd := hword dest
  have hd' := hword (dest >>> 16)
  have hp := proto.isLt
  have hl := swap_le proto_len.toNat
  rw [pseudoHeader_sum, octetsOf_sum, octetsOf_sum]
  unfold addPseudo
  rw [FOLD_U32T_toNat, FOLD_U32T_toNat]
  simp only [BitVec.toNat_add, hproto, hlen]
  rw [fold_residue (Nat.mod_lt _ (by decide))]
  congr 1
  omega

/-! ### The checksum of a datagram -/

/- What is stored for octets. -/
def checksumOf (data : List U8) : ℕ := 65535 - residue (octetSum data)

theorem inetChksum_toNat (algorithm : Algorithm) (dataptr : ℕ) (data : List U8)
    (hlen : data.length ≤ algorithm.limit) :
    (inetChksum algorithm dataptr data).toNat = checksumOf data := by
  unfold inetChksum checksumOf
  rw [BitVec.toNat_not, LWIP_CHKSUM_residue algorithm dataptr data hlen]

theorem inetChksumPbuf_toNat (algorithm : Algorithm) (p : List Pbuf) :
    (inetChksumPbuf algorithm p).toNat = checksumOf (joined p) := by
  obtain ⟨hsmall, halike⟩ := (sumChain_summed algorithm p summed_nil).unswap
  unfold inetChksumPbuf checksumOf
  rw [invert_toNat, Nat.mod_eq_of_lt (Nat.lt_succ_of_le hsmall), halike.residue hsmall]
  rfl

/- The pseudo header in front of what was summed up. -/
theorem invert_addPseudo {acc : U32} {data : List U8} (hacc : acc.toNat ≤ 65535)
    (h : Alike acc.toNat (octetSum data)) (src dest : U32) (proto : U8) (proto_len : U16) :
    (invert (addPseudo acc src dest proto proto_len)).toNat =
      checksumOf (pseudoHeader src dest proto proto_len ++ data) := by
  have hjoin := octetSum_append (pseudoHeader src dest proto proto_len) data
  rw [if_pos (pseudoHeader_even src dest proto proto_len)] at hjoin
  have hsum := residue_congr (((Alike.refl (octetSum (pseudoHeader src dest proto proto_len))).add h).trans hjoin.symm)
  unfold checksumOf
  rw [invert_toNat, addPseudo_toNat hacc, hsum, Nat.mod_eq_of_lt (Nat.lt_succ_of_le (residue_le _))]

theorem inetChksumPseudo_toNat (algorithm : Algorithm) (p : List Pbuf) (src dest : U32) (proto : U8) (proto_len : U16) :
    (inetChksumPseudo algorithm p src dest proto proto_len).toNat =
      checksumOf (pseudoHeader src dest proto proto_len ++ joined p) := by
  obtain ⟨hsmall, halike⟩ := (sumChain_summed algorithm p summed_nil).unswap
  exact invert_addPseudo hsmall halike src dest proto proto_len

/-- A part of a datagram counts as if it lay in one piece behind the pseudo header; with too
many octets left behind the first pbuf the program stops. -/
theorem inetChksumPseudoPartial_toNat (algorithm : Algorithm) (p : List Pbuf) (src dest : U32) (proto : U8)
    (proto_len : U16) (chksum_len : ℕ) :
    (inetChksumPseudoPartial algorithm p src dest proto proto_len chksum_len).map BitVec.toNat =
      if ∀ q ∈ p.head?, chksum_len < 0x7fff + q.len then
        some (checksumOf (pseudoHeader src dest proto proto_len ++ (joined p).take chksum_len))
      else none := by
  unfold inetChksumPseudoPartial
  split_ifs with hlen
  · obtain ⟨y, hy, hsmall, halike⟩ := sumPartial_alike algorithm p summed_nil hlen
    rw [hy]
    exact congrArg some (invert_addPseudo hsmall halike src dest proto proto_len)
  · rw [sumPartial_stops algorithm p _ hlen]
    rfl

/-! ### Sender and receiver -/

theorem checksumOf_eq_zero (data : List U8) :
    checksumOf data = 0 ↔ octetSum data ≠ 0 ∧ octetSum data % 65535 = 0 := by
  unfold checksumOf residue
  split_ifs with h
  · exact ⟨fun hmax => absurd hmax (by decide), fun hsum => (hsum.1 h).elim⟩
  · omega

/- A word stored in memory. -/
def wordOctets (w : U16) : List U8 := [w.setWidth 8, (w >>> 8).setWidth 8]

theorem wordOctets_append (c₀ c₁ : U8) : wordOctets (c₁ ++ c₀) = [c₀, c₁] := by
  have hhalf := half_toNat c₀ c₁
  have h₀ := c₀.isLt
  have h₁ := c₁.isLt
  have hlow : ((c₁ ++ c₀ : U16).setWidth 8) = c₀ := by
    apply BitVec.eq_of_toNat_eq
    rw [BitVec.toNat_setWidth, hhalf]
    omega
  have hhigh : (((c₁ ++ c₀ : U16) >>> 8).setWidth 8) = c₁ := by
    apply BitVec.eq_of_toNat_eq
    rw [BitVec.toNat_setWidth, BitVec.toNat_ushiftRight, Nat.shiftRight_eq_div_pow, hhalf]
    omega
  unfold wordOctets
  rw [hlow, hhigh]

theorem wordOctets_sum (w : U16) : octetSum (wordOctets w) = w.toNat := by
  have hw := w.isLt
  have hhigh : ((w >>> 8).setWidth 8).toNat = w.toNat / 256 % 256 := by
    rw [BitVec.toNat_setWidth, BitVec.toNat_ushiftRight, Nat.shiftRight_eq_div_pow]
  show (w.setWidth 8).toNat + 256 * ((w >>> 8).setWidth 8).toNat + 0 = _
  rw [hhigh, BitVec.toNat_setWidth]
  omega

theorem wordOctets_inj {w w' : U16} (h : wordOctets w = wordOctets w') : w = w' := by
  apply BitVec.eq_of_toNat_eq
  rw [← wordOctets_sum, ← wordOctets_sum, h]

theorem octetSum_word (us vs : List U8) (w : U16) (heven : us.length % 2 = 0) :
    Alike (octetSum (us ++ wordOctets w ++ vs)) (octetSum us + w.toNat + octetSum vs) := by
  have hfirst := octetSum_append us (wordOctets w)
  rw [if_pos heven, wordOctets_sum] at hfirst
  have hlen : (us ++ wordOctets w).length % 2 = 0 := by
    rw [List.length_append]
    show (us.length + 2) % 2 = 0
    omega
  have hsecond := octetSum_append (us ++ wordOctets w) vs
  rw [if_pos hlen] at hsecond
  exact hsecond.trans (hfirst.add (.refl _))

/- A word of the datagram that is not the word at 6 leaves that as it is. -/
theorem word_apart {xs : List U8} (ys : List U8) (w w' : U16) (heven : xs.length % 2 = 0) (hne : xs.length ≠ 6) :
    ((xs ++ wordOctets w ++ ys).drop 6).take 2 = ((xs ++ wordOctets w' ++ ys).drop 6).take 2 := by
  rcases Nat.lt_or_gt_of_ne hne with hbelow | habove
  · have hskip (v : U16) : (xs ++ wordOctets v ++ ys).drop 6 = ys.drop (4 - xs.length) := by
      have hlen : (xs ++ wordOctets v).length = xs.length + 2 := List.length_append
      rw [List.drop_append, List.drop_of_length_le (by omega), hlen]
      exact congrArg (ys.drop ·) (by omega)
    rw [hskip, hskip]
  · have hkeep (v : U16) : ((xs ++ wordOctets v ++ ys).drop 6).take 2 = (xs.drop 6).take 2 := by
      have hlen : 2 ≤ (xs.drop 6).length := by
        rw [List.length_drop]
        omega
      rw [List.append_assoc, List.drop_append_of_le_length (Nat.le_of_lt habove), List.take_append_of_le_length hlen]
    rw [hkeep, hkeep]

section Datagram
variable (src dest : U32) (proto : U8) (proto_len : U16)

/- What tcp_input and udp_input ask. -/
def Checked (algorithm : Algorithm) (q : List Pbuf) : Prop := inetChksumPseudo algorithm q src dest proto proto_len = 0

/- `udphdr->chksum`; the header is read in the first pbuf. -/
def udpChksum : List Pbuf → Option U16
  | [] => none
  | r :: _ =>
    match r.octets.drop 6 with
    | b :: c :: _ => some (hostWord b c)
    | _ => none

/- A UDP datagram without a checksum is not checked. -/
def Accepted (udp : Bool) (algorithm : Algorithm) (q : List Pbuf) : Prop :=
  (udp = true ∧ udpChksum q = some 0x0000) ∨ Checked src dest proto proto_len algorithm q

/- The checksum field of a header; udp.c stores 0xffff for 0, which means that there is none. -/
def stored (udp : Bool) (chksum : U16) : U16 := if udp ∧ chksum = 0x0000 then 0xffff else chksum

variable {src dest proto proto_len}

/- A word of the datagram behind the pseudo header. -/
theorem header_word {us vs : List U8} (w : U16) (heven : us.length % 2 = 0) :
    Alike (octetSum (pseudoHeader src dest proto proto_len ++ (us ++ wordOctets w ++ vs)))
      (octetSum (pseudoHeader src dest proto proto_len ++ us) + w.toNat + octetSum vs) := by
  rw [← List.append_assoc, ← List.append_assoc]
  apply octetSum_word
  rw [List.length_append, Nat.add_mod, pseudoHeader_even, heven]

theorem checked_iff (hproto : proto ≠ 0) (algorithm : Algorithm) {q : List Pbuf} {us vs : List U8} {w : U16}
    (heven : us.length % 2 = 0) (hq : joined q = us ++ wordOctets w ++ vs) :
    Checked src dest proto proto_len algorithm q ↔
      (octetSum (pseudoHeader src dest proto proto_len ++ us) + w.toNat + octetSum vs) % 65535 = 0 := by
  have hword := @header_word src dest proto proto_len us vs w heven
  rw [← hq] at hword
  have hheader : octetSum (pseudoHeader src dest proto proto_len ++ joined q) ≠ 0 := by
    intro hzero
    have hmem := (octetSum_eq_zero _).mp hzero proto (List.mem_append_left _ (List.mem_append_right _
      (List.mem_cons_of_mem _ (List.mem_cons_self ..))))
    exact hproto hmem
  unfold Checked
  rw [← BitVec.toNat_inj, inetChksumPseudo_toNat, show (0 : U16).toNat = 0 from rfl, checksumOf_eq_zero, hword.mod]
  exact ⟨And.right, fun h => ⟨hheader, h⟩⟩

/- The seventh and the eighth octet of the datagram. -/
theorem udpChksum_joined {q : List Pbuf} {chksum : U16} (hfield : udpChksum q = some chksum) :
    wordOctets chksum = ((joined q).drop 6).take 2 := by
  cases q with
  | nil => cases hfield
  | cons r q =>
    unfold udpChksum at hfield
    dsimp only at hfield
    split at hfield
    case h_2 => cases hfield
    case h_1 b c octets hr =>
      have hlen : 6 ≤ r.octets.length := by
        by_contra hshort
        rw [List.drop_of_length_le (Nat.le_of_lt (Nat.not_le.mp hshort))] at hr
        cases hr
      show _ = ((r.octets ++ joined q).drop 6).take 2
      rw [List.drop_append_of_le_length hlen, hr, ← Option.some.inj hfield]
      exact wordOctets_append b c

theorem stored_ne_zero (chksum : U16) : stored true chksum ≠ 0 := by
  unfold stored
  split_ifs with h
  · decide
  · exact fun hzero => h ⟨rfl, hzero⟩

theorem stored_toNat (udp : Bool) (chksum : U16) : Alike (chksum.toNat + 65535) ((stored udp chksum).toNat + 65535) := by
  unfold stored
  split_ifs with h
  · rw [h.2]
    exact ⟨by decide, by decide⟩
  · exact .refl _

/- The checksum with what it was taken of. -/
theorem complement_mod {data : List U8} {n : ℕ} (h : Alike (octetSum data) n) : (n + checksumOf data) % 65535 = 0 := by
  have hcomplement := residue_complement n
  have hmod := (residue_alike (n + (65535 - residue n))).mod
  rw [hcomplement] at hmod
  unfold checksumOf
  rw [residue_congr h]
  exact hmod.symm

theorem word_mod (w w' : U16) (n : ℕ) (hw : (n + w.toNat) % 65535 = 0) :
    (n + w'.toNat) % 65535 = 0 ↔ w' = w ∨ w = 0 ∧ w' = 0xffff ∨ w = 0xffff ∧ w' = 0 := by
  have hlt := w.isLt
  have hlt' := w'.isLt
  have hzero (v : U16) : v = 0 ↔ v.toNat = 0 := BitVec.toNat_inj.symm
  have hmax (v : U16) : v = 0xffff ↔ v.toNat = 65535 := BitVec.toNat_inj.symm
  rw [hzero, hzero, hmax, hmax, ← BitVec.toNat_inj]
  omega

/- After a change of one word of what was sent nothing is checked if it was the checksum of UDP
that has become 0. -/
theorem unchecked_iff {udp : Bool} {us vs xs ys : List U8} {chksum w w' : U16} {q : List Pbuf}
    (hplace : udp = true → us.length = 6 ∧ chksum ≠ 0) (hhdr : udp = true → (udpChksum q).isSome)
    (hxs : xs.length % 2 = 0) (hsame : us ++ wordOctets chksum ++ vs = xs ++ wordOctets w ++ ys)
    (hq : joined q = xs ++ wordOctets w' ++ ys) :
    udp = true ∧ udpChksum q = some 0x0000 ↔ udp = true ∧ xs.length = 6 ∧ w' = 0 := by
  refine and_congr_right fun hudp => ?_
  obtain ⟨hus, hne⟩ := hplace hudp
  obtain ⟨field, hfield⟩ := Option.isSome_iff_exists.mp (hhdr hudp)
  have hword := udpChksum_joined hfield
  rw [hfield, Option.some.injEq]
  have hread (zs : List U8) (v : U16) (rest : List U8) (hzs : zs.length = 6) :
      ((zs ++ wordOctets v ++ rest).drop 6).take 2 = wordOctets v := by
    rw [List.append_assoc, List.drop_left' hzs]
    exact List.take_left' rfl
  by_cases hat : xs.length = 6
  · rw [hq, hread xs w' ys hat] at hword
    rw [wordOctets_inj hword]
    exact ⟨fun h => ⟨hat, h⟩, And.right⟩
  · rw [hq, ← word_apart ys w w' hxs hat, ← hsame, hread us chksum vs hus] at hword
    rw [wordOctets_inj hword]
    exact ⟨fun h => (hne h).elim, fun h => (hat h.1).elim⟩

/-- What is sent is accepted however it is cut into pbufs on either side, and once an aligned
word of it has changed it is not, unless all bits of the word were equal and all have changed, or
it was the checksum of a UDP datagram and there is none any more. -/
theorem sent_accepted (hproto : proto ≠ 0) (udp : Bool) (algorithm : Algorithm) (p : List Pbuf) (us vs : List U8)
    (heven : us.length % 2 = 0) (hplace : udp = true → us.length = 6) (hp : joined p = us ++ wordOctets 0 ++ vs) :
    let chksum := stored udp (inetChksumPseudo algorithm p src dest proto proto_len)
    (∀ algorithm' q, joined q = us ++ wordOctets chksum ++ vs → Accepted src dest proto proto_len udp algorithm' q) ∧
      (∀ algorithm' q xs ys w w', (udp = true → (udpChksum q).isSome) → xs.length % 2 = 0 →
        us ++ wordOctets chksum ++ vs = xs ++ wordOctets w ++ ys → joined q = xs ++ wordOctets w' ++ ys →
        (Accepted src dest proto proto_len udp algorithm' q ↔
          (udp = true ∧ xs.length = 6 ∧ w' = 0) ∨ w' = w ∨ w = 0 ∧ w' = 0xffff ∨ w = 0xffff ∧ w' = 0)) := by
  intro chksum
  have hsent := @header_word src dest proto proto_len us vs 0 heven
  rw [← hp] at hsent
  have hzero := complement_mod hsent
  rw [← inetChksumPseudo_toNat algorithm] at hzero
  have hstored := (stored_toNat udp (inetChksumPseudo algorithm p src dest proto proto_len)).mod
  have hall : (octetSum (pseudoHeader src dest proto proto_len ++ us) + chksum.toNat + octetSum vs) % 65535 = 0 := by
    show (_ + (stored udp (inetChksumPseudo algorithm p src dest proto proto_len)).toNat + _) % 65535 = 0
    rw [show (0 : U16).toNat = 0 from rfl] at hzero
    omega
  refine ⟨fun algorithm' q hq => Or.inr ((checked_iff hproto algorithm' heven hq).mpr hall), ?_⟩
  intro algorithm' q xs ys w w' hhdr hxs hsame hq
  have hfield : udp = true → us.length = 6 ∧ chksum ≠ 0 := by
    intro hudp
    refine ⟨hplace hudp, ?_⟩
    show stored udp _ ≠ 0
    rw [hudp]
    exact stored_ne_zero _
  have hmod := (@header_word src dest proto proto_len us vs chksum heven).mod
  have hmod' := (@header_word src dest proto proto_len xs ys w hxs).mod
  rw [hsame, hmod'] at hmod
  unfold Accepted
  rw [unchecked_iff hfield hhdr hxs hsame hq]
  apply or_congr_right
  rw [checked_iff hproto algorithm' hxs hq]
  have hword := word_mod w w' (octetSum (pseudoHeader src dest proto proto_len ++ xs) + octetSum ys) (by omega)
  rw [← hword]
  constructor
  · intro h
    omega
  · intro h
    omega

/- One octet of data behind a UDP header, sent in two pbufs and received in one. -/
def ports : List U8 := [0x1f, 0x90, 0, 7, 0, 9]

theorem sent_accepted_split :
    let p : List Pbuf := [⟨1, ports ++ [0, 0], by decide⟩, ⟨8, [1], by decide⟩]
    let chksum := stored true (inetChksumPseudo .two p 0x0200000a 0x0100000a 17 9)
    let received (w : U16) : List Pbuf := [⟨2, ports ++ wordOctets w ++ [1], by show 9 ≤ _; decide⟩]
    ∀ w, Accepted 0x0200000a 0x0100000a 17 9 true .three (received w) ↔ w = 0 ∨ w = chksum := by
  intro p chksum received w
  have h := @sent_accepted 0x0200000a 0x0100000a 17 9 (by decide) true .two p ports [1] rfl (fun _ => rfl) rfl
  have hne : chksum ≠ 0 := stored_ne_zero _
  constructor
  · intro haccepted
    rcases (h.2 .three (received w) ports [1] chksum w (fun _ => rfl) rfl rfl (List.append_nil _)).mp haccepted with
      ⟨-, -, hw⟩ | hw | ⟨hzero, -⟩ | ⟨-, hw⟩
    · exact .inl hw
    · exact .inr hw
    · exact (hne hzero).elim
    · exact .inl hw
  · rintro (rfl | rfl)
    · exact (h.2 .three (received 0) ports [1] chksum 0 (fun _ => rfl) rfl rfl (List.append_nil _)).mpr
        (.inl ⟨rfl, rfl, rfl⟩)
    · exact h.1 .three _ (List.append_nil _)

end Datagram

end MultiEmbedded.Inet
