import MultiEmbedded.Lwip.Chksum

/-!
# Echo requests (core/ipv4/icmp.c)

The request becomes the answer where it lies: type and checksum of the message, addresses,
TTL and checksum of the IP header are overwritten. A header that claims less than 20 octets
is answered too, and then they lie in the message.
-/

namespace MultiEmbedded.Inet
open OnesSum

def ICMP_ER : U8 := 0
def ICMP_ECHO : U8 := 8

def ICMP_TTL : U8 := 255
def IP_HLEN : ℕ := 20

/- `answer` is the packet passed to `ip_output_if`; `outside`: the first pbuf ends inside the header that is
read or written; `stopped`: an assertion fails. -/
inductive IcmpOutcome
  | lenerr
  | err
  | chkerr
  | proterr
  | ignored
  | outside
  | stopped
  | answer (p : List Pbuf)

def totLen (p : List Pbuf) : ℕ := (joined p).length

/-! ### What a pbuf holds -/

def Pbuf.octet (q : Pbuf) (k : ℕ) : U8 := q.octets.getD k 0

def Pbuf.word (q : Pbuf) (k : ℕ) : U16 := q.octet (k + 1) ++ q.octet k

def Pbuf.addr (q : Pbuf) (k : ℕ) : U32 := q.octet (k + 3) ++ q.octet (k + 2) ++ q.octet (k + 1) ++ q.octet k

/- Octets from the place `k` on. -/
def Pbuf.write (q : Pbuf) (k : ℕ) (octets : List U8) : Pbuf where
  payload := q.payload
  octets := (q.octets.take k ++ octets ++ q.octets.drop (k + octets.length)).take q.len
  len_le := Nat.le_trans (List.length_take_le _ _) q.len_le

/- `pbuf_header(p, -hlen)` -/
def Pbuf.behind (q : Pbuf) (hlen : ℕ) : Pbuf where
  payload := q.payload + hlen
  octets := q.octets.drop hlen
  len_le := Nat.le_trans (Nat.le_of_eq List.length_drop) (Nat.le_trans (Nat.sub_le ..) q.len_le)

/- `IPH_HL(iphdr) * 4` -/
def headerLen : List Pbuf → ℕ
  | [] => 0
  | q :: _ => 4 * (q.octet 0 &&& 0x0f).toNat

/-! ### The functions -/

/- Type 8 becomes 0 in the low octet of the word at 0. -/
def adjustChksum (chksum : U16) : U16 :=
  if chksum ≥ lwipHtons (0xffff - (ICMP_ECHO.setWidth 16 <<< 8)) then
    chksum + (lwipHtons (ICMP_ECHO.setWidth 16 <<< 8) + 1)
  else chksum + lwipHtons (ICMP_ECHO.setWidth 16 <<< 8)

/- TTL, checksum and addresses of `struct ip_hdr` are at 8, 10, 12 and 16, type and checksum of
`struct icmp_echo_hdr` at 0 and 2. -/
def answerEcho (algorithm : Algorithm) (hlen : ℕ) (src dest : U32) : List Pbuf → IcmpOutcome
  | [] => .outside
  | q :: p =>
    if q.len < hlen + 4 then .outside
    else
      let q := (q.write 12 (octetsOf dest)).write 16 (octetsOf src)
      let q := q.write hlen [ICMP_ER]
      let q := q.write (hlen + 2) (wordOctets (adjustChksum (q.word (hlen + 2))))
      let q := (q.write 8 [ICMP_TTL]).write 10 (wordOctets 0)
      .answer (q.write 10 (wordOctets (inetChksum algorithm q.payload (q.octets.take IP_HLEN))) :: p)

/- `room`: link and IP header fit in front of the message; else the packet is copied to a new pbuf,
if there is one. -/
def answerRoom (algorithm : Algorithm) (room : Bool) (new : Option ℕ) (hlen : ℕ) (src dest : U32) (p : List Pbuf) :
    IcmpOutcome :=
  if room then answerEcho algorithm hlen src dest p
  else
    match new with
    | none => .err
    | some payload =>
      if h : (joined p).length ≤ 0xffff then answerEcho algorithm hlen src dest [⟨payload, joined p, h⟩]
      else .stopped

/- The packet with its IP header, of which `ip_input` has copied the addresses; `accepted`: not to a
multicast or broadcast address. -/
def icmpInput (algorithm : Algorithm) (room : Bool) (new : Option ℕ) (accepted : Bool) : List Pbuf → IcmpOutcome
  | [] => .outside
  | q :: p =>
    let hlen := headerLen (q :: p)
    if q.len < IP_HLEN then .outside
    else if q.len < hlen ∨ totLen (q :: p) - hlen < 4 then .lenerr
    else
      match (q.behind hlen).octets with
      | [] => .outside
      | type :: _ =>
        if type = ICMP_ER then .ignored
        else if type = ICMP_ECHO then
          if !accepted then .err
          else if totLen (q :: p) - hlen < 8 then .lenerr
          else if inetChksumPbuf algorithm (q.behind hlen :: p) ≠ 0 then .chkerr
          else answerRoom algorithm room new hlen (q.addr 12) (q.addr 16) (q :: p)
        else .proterr

/-! ### A header of at least 20 octets -/

/- 16-bit fields and addresses as they lie in memory; `IPH_HL` counts 32-bit words. -/
structure IpHdr where
  v_hl : U8
  tos : U8
  len : U16
  id : U16
  offset : U16
  ttl : U8
  proto : U8
  chksum : U16
  src : U32
  dest : U32
  options : List U8
  length_eq : IP_HLEN + options.length = 4 * (v_hl &&& 0x0f).toNat

def IpHdr.fixed (h : IpHdr) : List U8 :=
  [h.v_hl, h.tos] ++ wordOctets h.len ++ wordOctets h.id ++ wordOctets h.offset

def IpHdr.front (h : IpHdr) : List U8 := h.fixed ++ [h.ttl, h.proto]

def IpHdr.octets (h : IpHdr) : List U8 :=
  h.front ++ wordOctets h.chksum ++ (octetsOf h.src ++ octetsOf h.dest ++ h.options)

/- The header of the answer before its checksum is there, and with it. -/
def IpHdr.turned (h : IpHdr) : IpHdr := { h with src := h.dest, dest := h.src, ttl := ICMP_TTL, chksum := 0 }

def answerHeader (algorithm : Algorithm) (dataptr : ℕ) (iphdr : IpHdr) : IpHdr :=
  { iphdr.turned with chksum := inetChksum algorithm dataptr (iphdr.turned.octets.take IP_HLEN) }

theorem octetsOf_append (a b c d : U8) : octetsOf (d ++ c ++ b ++ a) = [a, b, c, d] := by
  have hlt := a.isLt
  have hlt' := b.isLt
  have hlt'' := c.isLt
  have hsum : (d ++ c ++ b ++ a).toNat = a.toNat + 256 * (b.toNat + 256 * (c.toNat + 256 * d.toNat)) := by
    rw [append_toNat, append_toNat, append_toNat]
    rfl
  have hoctet (k : ℕ) {e : U8} (he : (d ++ c ++ b ++ a : U32).toNat / 2 ^ k % 2 ^ 8 = e.toNat) :
      ((d ++ c ++ b ++ a : U32) >>> k).setWidth 8 = e := by
    apply BitVec.eq_of_toNat_eq
    rw [BitVec.toNat_setWidth, BitVec.toNat_ushiftRight, Nat.shiftRight_eq_div_pow, he]
  have hfirst : (d ++ c ++ b ++ a : U32).setWidth 8 = a := hoctet 0 (by rw [hsum]; omega)
  unfold octetsOf
  rw [hfirst, hoctet 8 (e := b) (by rw [hsum]; omega), hoctet 16 (e := c) (by rw [hsum]; omega),
    hoctet 24 (e := d) (by rw [hsum]; omega)]

theorem exists_four {o : List U8} (h : 4 ≤ o.length) : ∃ a b c d o', o = a :: b :: c :: d :: o' :=
  match o, h with
  | a :: b :: c :: d :: o', _ => ⟨a, b, c, d, o', rfl⟩

/-- A packet whose header claims five words or more starts with one. -/
theorem IpHdr.exists_octets {q : Pbuf} {p : List Pbuf} (hwords : IP_HLEN ≤ headerLen (q :: p))
    (hlen : headerLen (q :: p) ≤ q.len) : ∃ h : IpHdr, q.octets = h.octets ++ (q.behind (headerLen (q :: p))).octets ∧
      h.octets.length = headerLen (q :: p) ∧ q.addr 12 = h.src ∧ q.addr 16 = h.dest := by
  have hroom : 20 ≤ q.octets.length := Nat.le_trans hwords hlen
  obtain ⟨v_hl, tos, l₀, l₁, o₁, h₁⟩ := exists_four (Nat.le_trans (by decide : 4 ≤ 20) hroom)
  rw [h₁] at hroom
  obtain ⟨i₀, i₁, f₀, f₁, o₂, rfl⟩ := exists_four (show 4 ≤ o₁.length by simp only [List.length_cons] at hroom; omega)
  obtain ⟨ttl, proto, c₀, c₁, o₃, rfl⟩ := exists_four (show 4 ≤ o₂.length by simp only [List.length_cons] at hroom; omega)
  obtain ⟨s₀, s₁, s₂, s₃, o₄, rfl⟩ := exists_four (show 4 ≤ o₃.length by simp only [List.length_cons] at hroom; omega)
  obtain ⟨d₀, d₁, d₂, d₃, o₅, rfl⟩ := exists_four (show 4 ≤ o₄.length by simp only [List.length_cons] at hroom; omega)
  have hfirst : headerLen (q :: p) = 4 * (v_hl &&& 0x0f).toNat := by
    show 4 * (q.octets.getD 0 0 &&& 0x0f).toNat = _
    rw [h₁]
    rfl
  have hlong : q.octets.length = 20 + o₅.length := by
    rw [h₁]
    simp only [List.length_cons]
    omega
  unfold Pbuf.len at hlen
  unfold IP_HLEN at hwords
  have hoptions : (o₅.take (headerLen (q :: p) - 20)).length = headerLen (q :: p) - 20 :=
    List.length_take_of_le (by omega)
  let h : IpHdr := {
    v_hl := v_hl, tos := tos, len := l₁ ++ l₀, id := i₁ ++ i₀, offset := f₁ ++ f₀, ttl := ttl, proto := proto
    chksum := c₁ ++ c₀, src := s₃ ++ s₂ ++ s₁ ++ s₀, dest := d₃ ++ d₂ ++ d₁ ++ d₀
    options := o₅.take (headerLen (q :: p) - 20)
    length_eq := by
      unfold IP_HLEN
      rw [hoptions]
      omega }
  have hoctets : h.octets = [v_hl, tos, l₀, l₁, i₀, i₁, f₀, f₁, ttl, proto, c₀, c₁, s₀, s₁, s₂, s₃, d₀, d₁, d₂, d₃] ++
      o₅.take (headerLen (q :: p) - 20) := by
    unfold IpHdr.octets IpHdr.front IpHdr.fixed
    dsimp only [h]
    rw [wordOctets_append, wordOctets_append, wordOctets_append, wordOctets_append, octetsOf_append, octetsOf_append]
    rfl
  have hbehind : (q.behind (headerLen (q :: p))).octets = o₅.drop (headerLen (q :: p) - 20) := by
    obtain ⟨m, hm⟩ := Nat.exists_eq_add_of_le' hwords
    show q.octets.drop (headerLen (q :: p)) = _
    rw [hm, h₁, Nat.add_sub_cancel]
    rfl
  refine ⟨h, ?_, ?_, ?_, ?_⟩
  · rw [hoctets, hbehind, List.append_assoc, List.take_append_drop, h₁]
    rfl
  · rw [hoctets, List.length_append, hoptions]
    show 20 + (headerLen (q :: p) - 20) = _
    omega
  · unfold Pbuf.addr Pbuf.octet
    rw [h₁]
    rfl
  · unfold Pbuf.addr Pbuf.octet
    rw [h₁]
    rfl

/-! ### The packet -/

theorem write_octets (q : Pbuf) (us old new vs : List U8) {k : ℕ} (hq : q.octets = us ++ (old ++ vs))
    (hlen : new.length = old.length) (hk : us.length = k) : (q.write k new).octets = us ++ (new ++ vs) := by
  have hfirst : q.octets.take k = us := by
    rw [hq]
    exact List.take_left' hk
  have hrest : q.octets.drop (k + new.length) = vs := by
    rw [hq, hlen, ← List.append_assoc]
    exact List.drop_left' (by rw [List.length_append, hk])
  show (q.octets.take k ++ new ++ q.octets.drop (k + new.length)).take q.octets.length = _
  rw [hfirst, hrest, hq, List.append_assoc]
  apply List.take_of_length_le
  simp only [List.length_append, hlen, Nat.le_refl]

theorem word_octets (q : Pbuf) (us vs : List U8) (c₀ c₁ : U8) {k : ℕ} (hq : q.octets = us ++ ([c₀, c₁] ++ vs))
    (hk : us.length = k) : q.word k = c₁ ++ c₀ := by
  have hat (j : ℕ) : q.octet (k + j) = ([c₀, c₁] ++ vs).getD j 0 := by
    unfold Pbuf.octet
    rw [hq, ← hk, List.getD_eq_getElem?_getD, List.getElem?_append_right (Nat.le_add_right _ _), Nat.add_sub_cancel_left,
      List.getD_eq_getElem?_getD]
  unfold Pbuf.word
  rw [hat 1, show k = k + 0 from rfl, hat 0]
  rfl

theorem IpHdr.octets_length (h : IpHdr) : h.octets.length = 20 + h.options.length := by
  unfold IpHdr.octets
  rw [List.length_append, List.length_append, List.length_append]
  show 10 + 2 + (8 + h.options.length) = _
  omega

/- The first writes stay within their fields. -/
theorem turn_octets {q : Pbuf} {iphdr : IpHdr} {m : List U8} (hq : q.octets = iphdr.octets ++ m) :
    ((q.write 12 (octetsOf iphdr.dest)).write 16 (octetsOf iphdr.src)).octets =
      iphdr.front ++ (wordOctets iphdr.chksum ++ (octetsOf iphdr.dest ++ (octetsOf iphdr.src ++ (iphdr.options ++ m)))) := by
  unfold IpHdr.octets at hq
  simp only [List.append_assoc] at hq
  rw [← List.append_assoc] at hq
  have hfirst := write_octets q (iphdr.front ++ wordOctets iphdr.chksum) (octetsOf iphdr.src) (octetsOf iphdr.dest) _
    hq rfl (k := 12) rfl
  rw [← List.append_assoc] at hfirst
  have hsecond := write_octets _ (iphdr.front ++ wordOctets iphdr.chksum ++ octetsOf iphdr.dest) (octetsOf iphdr.dest)
    (octetsOf iphdr.src) _ hfirst rfl (k := 16) rfl
  rw [hsecond]
  simp only [List.append_assoc]

/- So do those to the message, -/
theorem reply_octets {q : Pbuf} {us data : List U8} {type code c₀ c₁ : U8}
    (hq : q.octets = us ++ (type :: code :: c₀ :: c₁ :: data)) :
    ((q.write us.length [ICMP_ER]).write (us.length + 2)
      (wordOctets (adjustChksum ((q.write us.length [ICMP_ER]).word (us.length + 2))))).octets =
      us ++ ([ICMP_ER, code] ++ (wordOctets (adjustChksum (c₁ ++ c₀)) ++ data)) := by
  have hfirst := write_octets q us [type] [ICMP_ER] (code :: c₀ :: c₁ :: data) hq rfl rfl
  have hsplit : (q.write us.length [ICMP_ER]).octets = us ++ [ICMP_ER, code] ++ ([c₀, c₁] ++ data) := by
    rw [hfirst, List.append_assoc]
    rfl
  have hlen : (us ++ [ICMP_ER, code]).length = us.length + 2 := List.length_append
  rw [word_octets _ _ _ c₀ c₁ hsplit hlen,
    write_octets _ _ [c₀, c₁] (wordOctets (adjustChksum (c₁ ++ c₀))) data hsplit rfl hlen, List.append_assoc]

/- and the last ones again to the header. -/
theorem finish_octets {q : Pbuf} {fixed chksum rest : List U8} {ttl proto : U8} (new : U16)
    (hq : q.octets = fixed ++ ([ttl, proto] ++ (chksum ++ rest))) (hfixed : fixed.length = 8) (hchksum : chksum.length = 2) :
    ((q.write 8 [ICMP_TTL]).write 10 (wordOctets new)).octets =
      fixed ++ ([ICMP_TTL, proto] ++ (wordOctets new ++ rest)) := by
  have hfirst := write_octets q fixed [ttl] [ICMP_TTL] (proto :: (chksum ++ rest)) hq rfl hfixed
  have hsplit : (q.write 8 [ICMP_TTL]).octets = fixed ++ [ICMP_TTL, proto] ++ (chksum ++ rest) := by
    rw [hfirst, List.append_assoc]
    rfl
  rw [write_octets _ _ chksum (wordOctets new) rest hsplit hchksum.symm (by rw [List.length_append, hfixed]; rfl),
    List.append_assoc]

/- What `inet_chksum` is taken over, and what its value makes of the header. -/
theorem summed_octets {algorithm : Algorithm} {dataptr : ℕ} {q : Pbuf} {iphdr : IpHdr} {m : List U8}
    (hq : q.octets = iphdr.turned.octets ++ m) (hpayload : q.payload = dataptr) :
    (q.write 10 (wordOctets (inetChksum algorithm q.payload (q.octets.take IP_HLEN)))).octets =
      (answerHeader algorithm dataptr iphdr).octets ++ m := by
  have htake : q.octets.take IP_HLEN = iphdr.turned.octets.take IP_HLEN := by
    rw [hq]
    apply List.take_append_of_le_length
    rw [IpHdr.octets_length]
    exact Nat.le_add_right _ _
  have hsplit : q.octets = iphdr.turned.front ++ (wordOctets 0 ++ (octetsOf iphdr.turned.src ++
      (octetsOf iphdr.turned.dest ++ (iphdr.turned.options ++ m)))) := by
    rw [hq]
    unfold IpHdr.octets
    simp only [List.append_assoc]
    rfl
  rw [htake, hpayload, write_octets q _ (wordOctets 0) (wordOctets (inetChksum algorithm dataptr
    (iphdr.turned.octets.take IP_HLEN))) _ hsplit rfl (k := 10) rfl]
  unfold answerHeader IpHdr.octets
  simp only [List.append_assoc]
  rfl

theorem answerEcho_octets {algorithm : Algorithm} {iphdr : IpHdr} {n : ℕ} {q : Pbuf} {p r : List Pbuf} {m : List U8}
    (hq : q.octets = iphdr.octets ++ m) (hlen : iphdr.octets.length = n)
    (h : answerEcho algorithm n iphdr.src iphdr.dest (q :: p) = .answer r) :
    ∃ type code chksum data, m ++ joined p = [type, code] ++ wordOctets chksum ++ data ∧
      joined r = (answerHeader algorithm q.payload iphdr).octets ++
        ([ICMP_ER, code] ++ wordOctets (adjustChksum chksum) ++ data) := by
  unfold answerEcho at h
  dsimp only at h
  split at h
  case isTrue => cases h
  case isFalse hfits =>
    have hm : 4 ≤ m.length := by
      unfold Pbuf.len at hfits
      rw [hq, List.length_append, hlen] at hfits
      omega
    obtain ⟨type, code, c₀, c₁, data, rfl⟩ := exists_four hm
    have hturn := turn_octets hq
    have hpayload : ((q.write 12 (octetsOf iphdr.dest)).write 16 (octetsOf iphdr.src)).payload = q.payload := rfl
    generalize (q.write 12 (octetsOf iphdr.dest)).write 16 (octetsOf iphdr.src) = q₁ at h hturn hpayload
    generalize hus : iphdr.front ++ (wordOctets iphdr.chksum ++ (octetsOf iphdr.dest ++ (octetsOf iphdr.src ++
      iphdr.options))) = us
    have hfront : us.length = n := by
      rw [← hus, ← hlen, iphdr.octets_length]
      simp only [List.length_append]
      show 10 + (2 + (4 + (4 + iphdr.options.length))) = _
      omega
    have hmessage : q₁.octets = us ++ (type :: code :: c₀ :: c₁ :: data) := by
      rw [hturn, ← hus]
      simp only [List.append_assoc]
    have hreply := reply_octets hmessage
    have hpayload' : ((q₁.write us.length [ICMP_ER]).write (us.length + 2)
      (wordOctets (adjustChksum ((q₁.write us.length [ICMP_ER]).word (us.length + 2))))).payload = q.payload := hpayload
    rw [← hfront] at h
    generalize (q₁.write us.length [ICMP_ER]).write (us.length + 2)
      (wordOctets (adjustChksum ((q₁.write us.length [ICMP_ER]).word (us.length + 2)))) = q₂ at h hreply hpayload'
    have hheader : q₂.octets = iphdr.fixed ++ ([iphdr.ttl, iphdr.proto] ++ (wordOctets iphdr.chksum ++
        (octetsOf iphdr.dest ++ (octetsOf iphdr.src ++ (iphdr.options ++
          ([ICMP_ER, code] ++ (wordOctets (adjustChksum (c₁ ++ c₀)) ++ data))))))) := by
      rw [hreply, ← hus]
      unfold IpHdr.front
      simp only [List.append_assoc]
    have hblank := finish_octets 0 hheader rfl rfl
    have hpayload'' : ((q₂.write 8 [ICMP_TTL]).write 10 (wordOctets 0)).payload = q.payload := hpayload'
    generalize (q₂.write 8 [ICMP_TTL]).write 10 (wordOctets 0) = q₃ at h hblank hpayload''
    have hturned : q₃.octets = iphdr.turned.octets ++
        ([ICMP_ER, code] ++ (wordOctets (adjustChksum (c₁ ++ c₀)) ++ data)) := by
      rw [hblank]
      unfold IpHdr.octets IpHdr.front
      simp only [List.append_assoc]
      rfl
    cases h
    refine ⟨type, code, c₁ ++ c₀, data ++ joined p, ?_, ?_⟩
    · rw [wordOctets_append]
      rfl
    · show (q₃.write 10 _).octets ++ joined p = _
      rw [summed_octets hturned hpayload'']
      simp only [List.append_assoc]

/- The packet is answered where it lies or in a copy. -/
theorem answerRoom_octets {algorithm : Algorithm} {room : Bool} {new : Option ℕ} {iphdr : IpHdr} {n : ℕ} {q : Pbuf}
    {p r : List Pbuf} {m : List U8} (hq : q.octets = iphdr.octets ++ m) (hlen : iphdr.octets.length = n)
    (h : answerRoom algorithm room new n iphdr.src iphdr.dest (q :: p) = .answer r) :
    ∃ dataptr type code chksum data, m ++ joined p = [type, code] ++ wordOctets chksum ++ data ∧
      joined r = (answerHeader algorithm dataptr iphdr).octets ++
        ([ICMP_ER, code] ++ wordOctets (adjustChksum chksum) ++ data) := by
  unfold answerRoom at h
  split at h
  · exact ⟨q.payload, answerEcho_octets hq hlen h⟩
  split at h
  · cases h
  split at h
  · rename_i payload hfits
    have hcopy : (Pbuf.mk payload (joined (q :: p)) hfits).octets = iphdr.octets ++ (m ++ joined p) := by
      show q.octets ++ joined p = _
      rw [hq, List.append_assoc]
    obtain ⟨type, code, chksum, data, hm, hr⟩ := answerEcho_octets hcopy hlen h
    exact ⟨payload, type, code, chksum, data, (List.append_nil _).symm.trans hm, hr⟩
  · cases h

/- An answer is given to a request that has its header in the first pbuf and a sum of 0. -/
theorem icmpInput_found {algorithm : Algorithm} {room accepted : Bool} {new : Option ℕ} {q : Pbuf} {p r : List Pbuf}
    (h : icmpInput algorithm room new accepted (q :: p) = .answer r) :
    headerLen (q :: p) ≤ q.len ∧ inetChksumPbuf algorithm (q.behind (headerLen (q :: p)) :: p) = 0 ∧
      (∃ m, (q.behind (headerLen (q :: p))).octets = ICMP_ECHO :: m) ∧
      answerRoom algorithm room new (headerLen (q :: p)) (q.addr 12) (q.addr 16) (q :: p) = .answer r := by
  unfold icmpInput at h
  dsimp only at h
  split at h
  · cases h
  split at h
  · cases h
  rename_i hshort
  split at h
  · cases h
  rename_i type m hbehind
  split at h
  · cases h
  split at h
  case isFalse => cases h
  rename_i hecho
  split at h
  · cases h
  split at h
  · cases h
  split at h
  · cases h
  rename_i hsum
  exact ⟨Nat.not_lt.mp fun hlt => hshort (.inl hlt), not_ne_iff.mp hsum, ⟨m, hecho ▸ hbehind⟩, h⟩

theorem icmpInput_octets {algorithm : Algorithm} {room accepted : Bool} {new : Option ℕ} {p r : List Pbuf}
    (h : icmpInput algorithm room new accepted p = .answer r) (hwords : IP_HLEN ≤ headerLen p) :
    ∃ iphdr dataptr code chksum data, iphdr.octets.length = headerLen p ∧
      joined p = iphdr.octets ++ ([ICMP_ECHO, code] ++ wordOctets chksum ++ data) ∧
      joined r = (answerHeader algorithm dataptr iphdr).octets ++
        ([ICMP_ER, code] ++ wordOctets (adjustChksum chksum) ++ data) ∧
      checksumOf ([ICMP_ECHO, code] ++ wordOctets chksum ++ data) = 0 := by
  cases p with
  | nil => cases h
  | cons q p =>
    obtain ⟨hlong, hsum, ⟨m, hbehind⟩, hanswer⟩ := icmpInput_found h
    obtain ⟨iphdr, hq, hlen, hsrc, hdest⟩ := IpHdr.exists_octets hwords hlong
    rw [hsrc, hdest] at hanswer
    have hmessage : joined (q.behind (headerLen (q :: p)) :: p) = (ICMP_ECHO :: m) ++ joined p := by
      show (q.behind (headerLen (q :: p))).octets ++ joined p = _
      rw [hbehind]
    rw [hbehind] at hq
    obtain ⟨dataptr, type, code, chksum, data, hm, hr⟩ := answerRoom_octets hq hlen hanswer
    have htype : ICMP_ECHO = type := (List.cons.inj hm).1
    have hzero := congrArg BitVec.toNat hsum
    rw [inetChksumPbuf_toNat, hmessage, hm, ← htype] at hzero
    refine ⟨iphdr, dataptr, code, chksum, data, hlen, ?_, hr, hzero⟩
    show q.octets ++ joined p = _
    rw [hq, List.append_assoc, hm, ← htype]

/-! ### The message -/

theorem adjustChksum_toNat (chksum : U16) :
    (adjustChksum chksum).toNat = if chksum.toNat ≥ 0xfff7 then chksum.toNat - 65527 else chksum.toNat + 8 := by
  have hlt := chksum.isLt
  have hlimit : lwipHtons (0xffff - (ICMP_ECHO.setWidth 16 <<< 8)) = 0xfff7 := by decide
  have hstep : lwipHtons (ICMP_ECHO.setWidth 16 <<< 8) = 0x0008 := by decide
  unfold adjustChksum
  rw [hlimit, hstep]
  by_cases h : chksum ≥ 0xfff7
  · have hle : chksum.toNat ≥ 0xfff7 := h
    rw [if_pos h, if_pos hle, BitVec.toNat_add]
    show (chksum.toNat + 9) % 65536 = _
    omega
  · have hgt : ¬ chksum.toNat ≥ 0xfff7 := h
    rw [if_neg h, if_neg hgt, BitVec.toNat_add]
    show (chksum.toNat + 8) % 65536 = _
    omega

/- The sum of the answer is another multiple of 65535, or 0. -/
theorem answer_sum (code : U8) (chksum : U16) (data : List U8)
    (hsum : (ICMP_ECHO.toNat + 256 * code.toNat + chksum.toNat + octetSum data) % 65535 = 0) :
    ((ICMP_ER.toNat + 256 * code.toNat + (adjustChksum chksum).toNat + octetSum data) % 65535 = 0) ∧
      (ICMP_ER.toNat + 256 * code.toNat + (adjustChksum chksum).toNat + octetSum data = 0 ↔
        code.toNat = 0 ∧ octetSum data = 0) := by
  have hlt := chksum.isLt
  have hcode := code.isLt
  rw [show ICMP_ECHO.toNat = 8 from rfl] at hsum
  rw [show ICMP_ER.toNat = 0 from rfl, adjustChksum_toNat]
  split_ifs with h
  · exact ⟨by omega, by omega⟩
  · exact ⟨by omega, by omega⟩

theorem message_sum (type code : U8) (chksum : U16) (data : List U8) :
    Alike (octetSum ([type, code] ++ wordOctets chksum ++ data))
      (type.toNat + 256 * code.toNat + chksum.toNat + octetSum data) :=
  octetSum_word [type, code] data chksum (show 2 % 2 = 0 from rfl)

section Answer
variable {algorithm : Algorithm} {room accepted : Bool} {new : Option ℕ} {p r : List Pbuf}

/-- The answer has the octets of the request behind the checksum, and its checksum is right
unless there are zeros only: then it is 0. -/
theorem icmpInput_answer (h : icmpInput algorithm room new accepted p = .answer r) (hwords : IP_HLEN ≤ headerLen p) :
    ∃ code chksum chksum' data, (joined p).drop (headerLen p) = [ICMP_ECHO, code] ++ wordOctets chksum ++ data ∧
      (joined r).drop (headerLen p) = [ICMP_ER, code] ++ wordOctets chksum' ++ data ∧
      (∀ algorithm' q, joined q = (joined r).drop (headerLen p) →
        (inetChksumPbuf algorithm' q = 0 ↔ ∃ b ∈ code :: data, b ≠ 0)) ∧
      ((∀ b ∈ code :: data, b = 0) → chksum' = 0) := by
  obtain ⟨iphdr, dataptr, code, chksum, data, hlen, hp, hr, hsum⟩ := icmpInput_octets h hwords
  have hlen' : (answerHeader algorithm dataptr iphdr).octets.length = headerLen p := by
    rw [← hlen, IpHdr.octets_length, IpHdr.octets_length]
    rfl
  have hreply : (joined r).drop (headerLen p) = [ICMP_ER, code] ++ wordOctets (adjustChksum chksum) ++ data := by
    rw [hr]
    exact List.drop_left' hlen'
  rw [checksumOf_eq_zero] at hsum
  have hrequest := (message_sum ICMP_ECHO code chksum data).mod
  obtain ⟨hmod, hzero⟩ := answer_sum code chksum data (hrequest.symm.trans hsum.2)
  have hzeros : code.toNat = 0 ∧ octetSum data = 0 ↔ ∀ b ∈ code :: data, b = 0 := by
    have hcode : code.toNat = 0 ↔ code = 0 := BitVec.toNat_inj (x := code) (y := 0)
    rw [octetSum_eq_zero, hcode, List.forall_mem_cons]
  refine ⟨code, chksum, adjustChksum chksum, data, ?_, hreply, ?_, ?_⟩
  · rw [hp]
    exact List.drop_left' hlen
  · intro algorithm' q hq
    have hsame := message_sum ICMP_ER code (adjustChksum chksum) data
    rw [← BitVec.toNat_inj, inetChksumPbuf_toNat, show (0 : U16).toNat = 0 from rfl, checksumOf_eq_zero, hq, hreply,
      hsame.mod]
    have hall : (∃ b ∈ code :: data, b ≠ 0) ↔ ¬ ∀ b ∈ code :: data, b = 0 := by
      push Not
      rfl
    rw [hall, ← hzeros, ← hzero, ← hsame.zero]
    exact ⟨And.left, fun hne => ⟨hne, hmod⟩⟩
  · intro hb
    have hnone := hzero.mpr (hzeros.mpr hb)
    exact BitVec.eq_of_toNat_eq (by omega : (adjustChksum chksum).toNat = 0)

/- The first ping without data: identifier and sequence number 0. -/
def pingHeader : IpHdr where
  v_hl := 0x45
  tos := 0
  len := 0x1c00
  id := 0
  offset := 0
  ttl := 64
  proto := 1
  chksum := 0xbf66
  src := 0x0200000a
  dest := 0x0100000a
  options := []
  length_eq := rfl

def ping (iphdr : IpHdr) : List Pbuf :=
  [⟨0, iphdr.octets.take 60 ++ [8, 0, 0xf7, 0xff, 0, 0, 0, 0], by
    rw [List.length_append, List.length_take]
    show min 60 _ + 8 ≤ _
    omega⟩]

theorem icmpInput_answer_zeros : ∃ r, icmpInput .two true none true (ping pingHeader) = .answer r ∧
    ∃ data, (joined r).drop 20 = [ICMP_ER, 0] ++ wordOctets 0 ++ data := by
  have hanswer : ∃ r, icmpInput .two true none true (ping pingHeader) = .answer r := ⟨_, rfl⟩
  obtain ⟨r, h⟩ := hanswer
  obtain ⟨code, chksum, chksum', data, hp, hr, -, hzero⟩ := icmpInput_answer h (by decide)
  have hoctets : [8, 0, 0xf7, 0xff, 0, 0, 0, 0] = [ICMP_ECHO, code] ++ wordOctets chksum ++ data := hp
  have hcode : code = 0 := Option.some.inj (congrArg (fun l => l[1]?) hoctets).symm
  have hdata : data = [0, 0, 0, 0] := (congrArg (List.drop 4) hoctets).symm
  rw [hcode, hdata] at hzero
  rw [hcode, hzero fun b hb => List.eq_of_mem_replicate (n := 5) hb] at hr
  exact ⟨r, h, data, hr⟩

/- The addresses behind a header of three words belong to the message. -/
example : let request : List Pbuf :=
      [⟨0, [0x43, 0, 0, 28, 0, 0, 0, 0, 64, 1, 0x7c, 0xe2, 8, 0, 0xed, 0xfe, 10, 0, 0, 1, 0, 0, 0, 0, 0, 0, 0, 0], by decide⟩]
    ∃ r, icmpInput .two true none true request = .answer r ∧ checksumOf ((joined r).drop 12) ≠ 0 := ⟨_, rfl, by decide⟩

end Answer

/-! ### The header -/

theorem IpHdr.take_octets (h : IpHdr) :
    h.octets.take IP_HLEN = h.front ++ wordOctets h.chksum ++ (octetsOf h.src ++ octetsOf h.dest) := by
  unfold IpHdr.octets
  rw [← List.append_assoc]
  exact List.take_left' rfl

theorem IpHdr.octets_sum (h : IpHdr) :
    Alike (octetSum h.octets)
      (octetSum h.front + h.chksum.toNat + (octetSum (octetsOf h.src ++ octetsOf h.dest) + octetSum h.options)) := by
  have hword := octetSum_word h.front (octetsOf h.src ++ octetsOf h.dest ++ h.options) h.chksum
    (show 10 % 2 = 0 from rfl)
  have hjoin := octetSum_append (octetsOf h.src ++ octetsOf h.dest) h.options
  have heven : (octetsOf h.src ++ octetsOf h.dest).length % 2 = 0 := by
    show 8 % 2 = 0
    rfl
  rw [if_pos heven] at hjoin
  exact hword.trans ((Alike.refl _).add hjoin)

theorem answerHeader_sum (algorithm : Algorithm) (dataptr : ℕ) (h : IpHdr) :
    octetSum (answerHeader algorithm dataptr h).octets % 65535 = octetSum h.options % 65535 := by
  let blank := h.turned
  have htake : blank.octets.take IP_HLEN = blank.front ++ wordOctets 0 ++ (octetsOf blank.src ++ octetsOf blank.dest) :=
    blank.take_octets
  have hchksum : (answerHeader algorithm dataptr h).chksum.toNat =
      checksumOf (blank.front ++ wordOctets 0 ++ (octetsOf blank.src ++ octetsOf blank.dest)) := by
    have hlen : (blank.octets.take IP_HLEN).length ≤ algorithm.limit :=
      Nat.le_trans (List.length_take_le _ _) (Nat.le_trans (by decide) (limit_le algorithm))
    rw [← htake]
    exact inetChksum_toNat algorithm dataptr _ hlen
  have hblank := complement_mod (octetSum_word blank.front (octetsOf blank.src ++ octetsOf blank.dest) 0
    (show 10 % 2 = 0 from rfl))
  rw [← hchksum, show (0 : U16).toNat = 0 from rfl] at hblank
  have hsum : octetSum (answerHeader algorithm dataptr h).octets % 65535 =
      (octetSum blank.front + (answerHeader algorithm dataptr h).chksum.toNat +
        (octetSum (octetsOf blank.src ++ octetsOf blank.dest) + octetSum h.options)) % 65535 :=
    (answerHeader algorithm dataptr h).octets_sum.mod
  omega

theorem IpHdr.length_le (h : IpHdr) : h.octets.length ≤ 60 := by
  have hlen := h.length_eq
  have hnibble : (h.v_hl &&& 0x0f).toNat ≤ 15 := by
    rw [BitVec.toNat_and]
    exact Nat.and_le_right
  unfold IP_HLEN at hlen
  rw [h.octets_length]
  omega

/-- The answer goes back with a header whose checksum counts the options for nothing: it is right
if and only if they sum up to nothing. -/
theorem icmpInput_header {algorithm : Algorithm} {room accepted : Bool} {new : Option ℕ} {p r : List Pbuf}
    (h : icmpInput algorithm room new accepted p = .answer r) (hwords : IP_HLEN ≤ headerLen p) :
    ∃ hdr hdr' : IpHdr, hdr.octets = (joined p).take (headerLen p) ∧ hdr'.octets = (joined r).take (headerLen p) ∧
      hdr' = { hdr with src := hdr.dest, dest := hdr.src, ttl := ICMP_TTL, chksum := hdr'.chksum } ∧
      ∀ algorithm' dataptr', inetChksum algorithm' dataptr' hdr'.octets = 0 ↔ octetSum hdr.options % 65535 = 0 := by
  obtain ⟨iphdr, dataptr, code, chksum, data, hlen, hp, hr, -⟩ := icmpInput_octets h hwords
  have hlen' : (answerHeader algorithm dataptr iphdr).octets.length = headerLen p := by
    rw [← hlen, IpHdr.octets_length, IpHdr.octets_length]
    rfl
  refine ⟨iphdr, answerHeader algorithm dataptr iphdr, ?_, ?_, rfl, fun algorithm' dataptr' => ?_⟩
  · rw [hp]
    exact (List.take_left' hlen).symm
  · rw [hr, List.append_assoc]
    exact (List.take_left' hlen').symm
  · have hlimit : (answerHeader algorithm dataptr iphdr).octets.length ≤ algorithm'.limit :=
      Nat.le_trans (IpHdr.length_le _) (Nat.le_trans (by decide) (limit_le algorithm'))
    have hne : octetSum (answerHeader algorithm dataptr iphdr).octets ≠ 0 := by
      intro hzero
      have httl := (octetSum_eq_zero _).mp hzero ICMP_TTL (List.mem_append_left _ (List.mem_append_left _
        (List.mem_append_right _ (List.mem_cons_self ..))))
      exact absurd httl (by decide)
    rw [← BitVec.toNat_inj, inetChksum_toNat algorithm' dataptr' _ hlimit, show (0 : U16).toNat = 0 from rfl,
      checksumOf_eq_zero, answerHeader_sum]
    exact ⟨And.right, fun hmod => ⟨hne, hmod⟩⟩

/- The same with three options that do nothing and the end of the list. -/
def nopHeader : IpHdr := { pingHeader with v_hl := 0x46, options := [1, 1, 1, 0], length_eq := rfl }

theorem icmpInput_header_nop : ∃ r, icmpInput .two true none true (ping nopHeader) = .answer r ∧
    inetChksum .two 0 ((joined r).take 24) ≠ 0 := by
  have hanswer : ∃ r, icmpInput .two true none true (ping nopHeader) = .answer r := ⟨_, rfl⟩
  obtain ⟨r, h⟩ := hanswer
  obtain ⟨hdr, hdr', hp, hr, -, hsum⟩ := icmpInput_header h (by decide)
  have hlen : headerLen (ping nopHeader) = 24 := by decide
  rw [hlen] at hp hr
  refine ⟨r, h, fun hright => ?_⟩
  rw [← hr] at hright
  have hoptions : hdr.options = [1, 1, 1, 0] := congrArg (List.drop 20) hp
  have hmod := (hsum .two 0).mp hright
  rw [hoptions] at hmod
  exact absurd hmod (by decide)

end MultiEmbedded.Inet
