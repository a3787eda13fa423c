import Mathlib
import UBoot.DefragSafety

/-!
# From the frame to the UDP handler: `NetReceive` of `net/net.c`

The frame is `len` bytes long; what stands behind it is there to be read as
well. Lengths are signed, and a comparison with the size of a header is one of
unsigned numbers. The outcome says which handler is called and with what; the
network console is left out, which gets the same arguments as the UDP handler.
The options of the build and the addresses are parameters.
-/

set_option autoImplicit false

namespace UBoot.NetReceive
open UBoot.Defrag UBoot.LinkedRecords

def etherHdrSize : ℕ := 14
def e802HdrSize : ℕ := 22
def vlanEtherHdrSize : ℕ := 18
def udpHdrSize : ℕ := 8
def protIp : ℕ := 0x0800
def protArp : ℕ := 0x0806
def protRarp : ℕ := 0x8035
def protVlan : ℕ := 0x8100
def vlanNone : ℕ := 4095
def ipprotoIcmp : ℕ := 1
def ipprotoUdp : ℕ := 17

structure Build where
  cdp : Bool
  rarp : Bool
  ipDefrag : Bool
  udpChecksum : Bool
  mcastTftp : Bool

/-- Addresses and VLAN numbers, and whether the API takes all packets. -/
structure Net where
  netOurVLAN : ℕ
  netOurNativeVLAN : ℕ
  netOurIP : ℕ
  mcastAddr : ℕ
  pushPacket : Bool

inductive Place where
  | frame (pos : ℕ)
  | pktBuff
  deriving DecidableEq

/-- An IP datagram that has passed the checks of the IP header. -/
structure Datagram where
  place : Place
  len : ℕ
  ip : Bytes

/-- The arguments of the UDP handler; `pkt` is a position in the buffer of the
datagram. -/
structure Call where
  pkt : ℕ
  dest : ℕ
  sip : ℕ
  src : ℕ
  len : ℕ
  deriving DecidableEq

inductive Outcome where
  | dropped
  | pushed
  | cdp (pos : ℕ) (len : ℤ)
  | arp (pos : ℕ) (len : ℤ)
  | rarp (pos : ℕ) (len : ℤ)
  | icmp (d : Datagram)
  | udp (d : Datagram) (c : Call)

/-- A length as an unsigned number. -/
def unsigned (z : ℤ) : ℤ := z % 4294967296

def behind (b : Bytes) (pos : ℕ) : Bytes := fun x => b (pos+x)

def start : Place → ℕ
  | .frame pos => pos
  | .pktBuff => 0

/-! ## The UDP datagram -/

def ipP (ip : Bytes) : ℕ := (ip 9).toNat
def ipSrc (ip : Bytes) : ℕ := ntohs ip 12*65536+ntohs ip 14
def udpSrc (ip : Bytes) : ℕ := ntohs ip 20
def udpDst (ip : Bytes) : ℕ := ntohs ip 22
def udpLen (ip : Bytes) : ℕ := ntohs ip 24
def udpXsum (ip : Bytes) : ℕ := ntohs ip 26

/-- The loop over `sumptr` and `sumlen`; its sum of at most 32774 words of 16
bits does not overflow. -/
def addWords (b : Bytes) : ℕ → ℕ → ℕ → ℕ
  | xsum, _, 0 => xsum
  | xsum, p, 1 => xsum+(b p).toNat*256
  | xsum, p, n+2 => addWords b (xsum+ntohs b p) (p+2) n

/-- `while ((xsum >> 16) != 0)` -/
def fold (xsum : ℕ) : ℕ :=
  if xsum/65536 = 0 then xsum else fold (xsum % 65536+xsum/65536 % 65536)
termination_by xsum
decreasing_by omega

def pseudoHeader (ip : Bytes) : ℕ :=
  ipP ip+udpLen ip+ipSrc ip/65536 % 65536+ipSrc ip % 65536+ipDst ip/65536 % 65536+ipDst ip % 65536

def udpCksumOk (ip : Bytes) : Bool :=
  let xsum := fold (addWords ip (pseudoHeader ip) 20 (udpLen ip))
  xsum = 0 ∨ xsum = 65535

def deliver (b : Build) (sip : ℕ) (d : Datagram) : Outcome :=
  if ipP d.ip = ipprotoIcmp then .icmp d
  else if ipP d.ip ≠ ipprotoUdp then .dropped
  else if b.udpChecksum ∧ udpXsum d.ip ≠ 0 ∧ ¬ udpCksumOk d.ip then .dropped
  else .udp d ⟨start d.place+ipUdpHdrSize, udpDst d.ip, sip, udpSrc d.ip,
    (unsigned ((udpLen d.ip : ℤ)-udpHdrSize)).toNat⟩

/-! ## The IP datagram -/

/-- The packet that `__NetDefragment` returns. -/
def assembled (s : State) : Bytes :=
  fun x => if x < ipHdrSize then s.header x else s.payload (x-ipHdrSize)

/-- `NetDefragment` -/
def reassemble (b : Build) (s : State) (pos : ℕ) (ip : Bytes) : Option (State × Option Datagram) :=
  if offset8 ip = 0 ∧ moreFragments ip = false then some (s, some ⟨.frame pos, ipLen ip, ip⟩)
  else if b.ipDefrag then
    (defragment s ip).map fun r =>
      (r.state, r.packet.map fun n => ⟨.pktBuff, n, assembled r.state⟩)
  else some (s, none)

/-- The checks before reassembly. -/
def rejected (b : Build) (n : Net) (ip : Bytes) (len : ℤ) : Bool :=
  unsigned len < ipUdpHdrSize ∨ len < ipLen ip ∨ (ip 0).toNat/16 ≠ 4 ∨ 5 < (ip 0).toNat % 16 ∨
    ¬ netCksumOk ip (ipHdrSize/2) ∨
    (n.netOurIP ≠ 0 ∧ ipDst ip ≠ n.netOurIP ∧ ipDst ip ≠ 4294967295 ∧
      ¬ (b.mcastTftp ∧ n.mcastAddr = ipDst ip))

def receiveIp (b : Build) (n : Net) (s : State) (frame : Bytes) (pos : ℕ) (len : ℤ) :
    Option (State × Outcome) :=
  let ip := behind frame pos
  if rejected b n ip len then some (s, .dropped)
  else
    (reassemble b s pos ip).map fun r =>
      (r.1, (r.2.map (deliver b (ipSrc ip))).getD .dropped)

/-! ## The frame -/

def netCDPAddr : List UInt8 := [0x01, 0x00, 0x0c, 0xcc, 0xcc, 0xcc]

def isCdpPacket (frame : Bytes) : Bool := (List.range 6).map frame = netCDPAddr

def vlanId (v : ℕ) : ℕ := (if v = 65535 then vlanNone else v) % 4096

/-- The protocol, where its packet starts and the VLAN of the frame. -/
structure Link where
  proto : ℕ
  pos : ℕ
  vlan : ℕ

def link (n : Net) (iscdp : Bool) (frame : Bytes) (len : ℕ) : Option Link :=
  let proto := ntohs frame 12
  if proto < 1514 then some ⟨ntohs frame 20, e802HdrSize, vlanNone⟩
  else if proto ≠ protVlan then some ⟨proto, etherHdrSize, vlanNone⟩
  else if len < vlanEtherHdrSize then none
  else if n.netOurVLAN % 4096 = vlanNone ∧ ¬ iscdp then none
  else some ⟨ntohs frame 16, vlanEtherHdrSize, ntohs frame 14 % 4096⟩

def vlanMatches (n : Net) (vlan : ℕ) : Bool :=
  vlanId n.netOurVLAN = vlanNone ∨
    (if vlan = vlanNone then vlanId n.netOurNativeVLAN else vlan) = vlanId n.netOurVLAN

def netReceive (b : Build) (n : Net) (s : State) (frame : Bytes) (len : ℕ) :
    Option (State × Outcome) :=
  if len < etherHdrSize then some (s, .dropped)
  else if n.pushPacket then some (s, .pushed)
  else
    let iscdp := b.cdp && isCdpPacket frame
    match link n iscdp frame len with
    | none => some (s, .dropped)
    | some l =>
      let rest : ℤ := (len : ℤ)-l.pos
      if iscdp then some (s, .cdp l.pos rest)
      else if ¬ vlanMatches n l.vlan then some (s, .dropped)
      else if l.proto = protArp then some (s, .arp l.pos rest)
      else if l.proto = protRarp ∧ b.rarp then some (s, .rarp l.pos rest)
      else if l.proto = protIp then receiveIp b n s frame l.pos rest
      else some (s, .dropped)

/-! ## The checksum -/

/-- The bytes from a position on, taken in pairs with the high byte first. -/
def octets (b : Bytes) (p n : ℕ) : ℕ :=
  ∑ i ∈ Finset.range n, (b (p+i)).toNat*(if i % 2 = 0 then 256 else 1)

/-- The sum over the pseudo header and the datagram, as one's complement numbers. -/
def ChecksumRight (ip : Bytes) (n : ℕ) : Prop := 65535 ∣ pseudoHeader ip+octets ip ipHdrSize n

theorem octets_two (b : Bytes) (p n : ℕ) : octets b p (n+2) = ntohs b p+octets b (p+2) n := by
  have hrest : ∀ i ∈ Finset.range n, (b (p+(i+1+1))).toNat*(if (i+1+1) % 2 = 0 then 256 else 1) =
      (b (p+2+i)).toNat*(if i % 2 = 0 then 256 else 1) := by
    intro i _
    have hpos : p+(i+1+1) = p+2+i := by omega
    have hpar : (i+1+1) % 2 = i % 2 := by omega
    rw [hpos, hpar]
  have hfirst : (b (p+0)).toNat*(if 0 % 2 = 0 then 256 else 1) = (b p).toNat*256 := rfl
  have hsecond : (b (p+(0+1))).toNat*(if (0+1) % 2 = 0 then 256 else 1) = (b (p+1)).toNat*1 := rfl
  unfold octets
  rw [Finset.sum_range_succ', Finset.sum_range_succ', Finset.sum_congr rfl hrest, hfirst, hsecond]
  unfold ntohs
  omega

theorem addWords_eq (b : Bytes) (xsum p n : ℕ) : addWords b xsum p n = xsum+octets b p n := by
  induction xsum, p, n using addWords.induct b with
  | case1 xsum p => simp [addWords, octets]
  | case2 xsum p => simp [addWords, octets]
  | case3 xsum p n ih => rw [addWords, ih, octets_two, Nat.add_assoc]

theorem octets_le (b : Bytes) (p n : ℕ) : octets b p n ≤ n*65280 := by
  have hterm : ∀ i ∈ Finset.range n,
      (b (p+i)).toNat*(if i % 2 = 0 then 256 else 1) ≤ 65280 := by
    intro i _
    have hb := (b (p+i)).toNat_lt
    split_ifs <;> omega
  calc octets b p n ≤ (Finset.range n).card • 65280 := Finset.sum_le_card_nsmul _ _ _ hterm
    _ = n*65280 := by rw [Finset.card_range, smul_eq_mul]

theorem fold_lt (x : ℕ) : fold x < 65536 := by
  induction x using fold.induct with
  | case1 x h =>
    rw [fold, if_pos h]
    omega
  | case2 x h ih =>
    rw [fold, if_neg h]
    exact ih

/-- Folding keeps the number modulo 65535. -/
theorem fold_mod (x : ℕ) (hx : x < 4294967296) : fold x % 65535 = x % 65535 := by
  induction x using fold.induct with
  | case1 x h => rw [fold, if_pos h]
  | case2 x h ih =>
    have hhigh : x/65536 % 65536 = x/65536 := Nat.mod_eq_of_lt (by omega)
    rw [fold, if_neg h, ih (by omega), hhigh]
    omega

theorem fold_ones (x : ℕ) (hx : x < 4294967296) : (fold x = 0 ∨ fold x = 65535) ↔ 65535 ∣ x := by
  have hlt := fold_lt x
  have hmod := fold_mod x hx
  rw [Nat.dvd_iff_mod_eq_zero, ← hmod]
  omega

theorem ntohs_lt (ip : Bytes) (a : ℕ) : ntohs ip a < 65536 := by
  have h1 := (ip a).toNat_lt
  have h2 := (ip (a+1)).toNat_lt
  unfold ntohs
  omega

theorem udpCksumOk_iff (ip : Bytes) : udpCksumOk ip = true ↔ ChecksumRight ip (udpLen ip) := by
  have hlen : udpLen ip < 65536 := ntohs_lt ip 24
  have hoct := octets_le ip 20 (udpLen ip)
  have hpseudo : pseudoHeader ip < 400000 := by
    have hp := (ip 9).toNat_lt
    unfold pseudoHeader ipP
    omega
  have hsum : pseudoHeader ip+octets ip 20 (udpLen ip) < 4294967296 := by omega
  simp only [udpCksumOk, decide_eq_true_eq]
  rw [addWords_eq, fold_ones _ hsum]
  rfl

/-! ## What the handler is called with -/

/-- The end of the buffer that the datagram stands in. -/
def bufferEnd (frameLen : ℕ) : Place → ℕ
  | .frame _ => frameLen
  | .pktBuff => ipPktsize

/-- The bytes handed over are those of the UDP datagram behind its header, they
lie in the buffer and in the IP datagram, and their checksum is right if there
is one. -/
structure Sound (frameLen : ℕ) (d : Datagram) (c : Call) : Prop where
  length : c.len+udpHdrSize = udpLen d.ip
  buffer : c.pkt+c.len ≤ bufferEnd frameLen d.place
  declared : c.pkt+c.len ≤ start d.place+d.len
  checksum : udpXsum d.ip ≠ 0 → ChecksumRight d.ip (udpHdrSize+c.len)

/-- The length in the UDP header is at least that of the header and at most what
the IP datagram has room for; a datagram put together from fragments may claim
more than the buffer holds. Without `CONFIG_UDP_CHECKSUM` the checksum must be
right as well. -/
structure Consistent (b : Build) (d : Datagram) : Prop where
  header : udpHdrSize ≤ udpLen d.ip
  room : ipHdrSize+udpLen d.ip ≤ d.len
  buffer : d.place = .pktBuff → ipHdrSize+udpLen d.ip ≤ ipPktsize
  checksum : b.udpChecksum = false → udpXsum d.ip ≠ 0 → ChecksumRight d.ip (udpLen d.ip)

theorem deliver_call (b : Build) (sip : ℕ) (d d' : Datagram) (c : Call)
    (h : deliver b sip d = .udp d' c) :
    d' = d ∧ c = ⟨start d.place+ipUdpHdrSize, udpDst d.ip, sip, udpSrc d.ip,
      (unsigned ((udpLen d.ip : ℤ)-udpHdrSize)).toNat⟩ ∧
    (b.udpChecksum = true → udpXsum d.ip ≠ 0 → ChecksumRight d.ip (udpLen d.ip)) := by
  unfold deliver at h
  split_ifs at h with h1 h2 h3
  obtain ⟨rfl, rfl⟩ := Outcome.udp.inj h
  refine ⟨rfl, rfl, fun hb hx => ?_⟩
  rw [← udpCksumOk_iff]
  by_contra hne
  exact h3 ⟨hb, hx, hne⟩

/-- A datagram that is no fragment lies in the frame. -/
theorem reassemble_frame (b : Build) (s s' : State) (pos p : ℕ) (ip : Bytes) (d : Datagram)
    (h : reassemble b s pos ip = some (s', some d)) (hp : d.place = .frame p) :
    p = pos ∧ d.len = ipLen ip := by
  unfold reassemble at h
  split_ifs at h with h1 h2
  · obtain ⟨-, hd⟩ := Prod.mk.inj (Option.some.inj h)
    rw [← Option.some.inj hd] at hp ⊢
    exact ⟨(Place.frame.inj hp).symm, rfl⟩
  · obtain ⟨r, -, hr⟩ := Option.map_eq_some_iff.mp h
    obtain ⟨n, -, hn⟩ := Option.map_eq_some_iff.mp (Prod.mk.inj hr).2
    rw [← hn] at hp
    cases hp
  · cases (Prod.mk.inj (Option.some.inj h)).2

theorem rejected_len (b : Build) (n : Net) (ip : Bytes) (len : ℤ)
    (h : ¬ rejected b n ip len = true) : (ipLen ip : ℤ) ≤ len := by
  simp only [rejected, decide_eq_true_eq, not_or] at h
  exact not_lt.mp h.2.1

/-- Every call comes from a datagram that was delivered, and whose declared
length is in the frame when it is not put together. -/
theorem receiveIp_call (b : Build) (n : Net) (s s' : State) (frame : Bytes) (pos : ℕ) (len : ℤ)
    (d : Datagram) (c : Call) (h : receiveIp b n s frame pos len = some (s', .udp d c)) :
    (∃ sip, deliver b sip d = .udp d c) ∧
    ∀ p, d.place = .frame p → p = pos ∧ (d.len : ℤ) ≤ len := by
  unfold receiveIp at h
  dsimp only at h
  split_ifs at h with hrej
  · cases (Prod.mk.inj (Option.some.inj h)).2
  · obtain ⟨⟨s1, found⟩, hr, hout⟩ := Option.map_eq_some_iff.mp h
    have hout' := (Prod.mk.inj hout).2
    cases found with
    | none => cases hout'
    | some d1 =>
      have hdel : deliver b (ipSrc (behind frame pos)) d1 = .udp d c := hout'
      obtain ⟨rfl, -, -⟩ := deliver_call b _ d1 d c hdel
      refine ⟨⟨_, hdel⟩, fun p hp => ?_⟩
      obtain ⟨hpos, hlen⟩ := reassemble_frame b s s1 pos p _ d hr hp
      exact ⟨hpos, hlen ▸ rejected_len b n _ len hrej⟩

theorem netReceive_call (b : Build) (n : Net) (s s' : State) (frame : Bytes) (len : ℕ)
    (d : Datagram) (c : Call) (h : netReceive b n s frame len = some (s', .udp d c)) :
    (∃ sip, deliver b sip d = .udp d c) ∧
    ∀ p, d.place = .frame p → p+d.len ≤ len := by
  unfold netReceive at h
  split_ifs at h with h1 h2
  · cases (Prod.mk.inj (Option.some.inj h)).2
  · cases (Prod.mk.inj (Option.some.inj h)).2
  dsimp only at h
  cases hl : link n (b.cdp && isCdpPacket frame) frame len with
  | none =>
    rw [hl] at h
    cases (Prod.mk.inj (Option.some.inj h)).2
  | some l =>
    rw [hl] at h
    dsimp only at h
    split_ifs at h
    all_goals first
      | cases (Prod.mk.inj (Option.some.inj h)).2
      | skip
    obtain ⟨hdel, hplace⟩ := receiveIp_call b n s s' frame l.pos _ d c h
    refine ⟨hdel, fun p hp => ?_⟩
    obtain ⟨rfl, hlen⟩ := hplace p hp
    omega

/-- The handler is called with bytes inside the buffer and the IP datagram, 8
fewer than the UDP length, with a checksum that is right, exactly if the UDP
length agrees with the IP datagram. -/
theorem call_sound_iff (b : Build) (n : Net) (s s' : State) (frame : Bytes) (len : ℕ)
    (d : Datagram) (c : Call) (h : netReceive b n s frame len = some (s', .udp d c)) :
    Sound len d c ↔ Consistent b d := by
  obtain ⟨⟨sip, hdel⟩, hframe⟩ := netReceive_call b n s s' frame len d c h
  obtain ⟨-, rfl, hsum⟩ := deliver_call b sip d d c hdel
  have hlen : udpLen d.ip < 65536 := ntohs_lt d.ip 24
  constructor
  · intro hs
    have hle := hs.length
    have hb := hs.buffer
    have hd := hs.declared
    have hc := hs.checksum
    have h8 : udpHdrSize = 8 := rfl
    have h20 : ipHdrSize = 20 := rfl
    have h28 : ipUdpHdrSize = 28 := rfl
    dsimp only at hle hb hd hc
    refine ⟨by omega, by omega, fun hp => ?_, fun _ hx => ?_⟩
    · rw [hp] at hb
      simp only [start, bufferEnd] at hb
      omega
    · rw [← hle, Nat.add_comm]
      exact hc hx
  · intro hc
    have h8 : udpHdrSize = 8 := rfl
    have h20 : ipHdrSize = 20 := rfl
    have h28 : ipUdpHdrSize = 28 := rfl
    have hh := hc.header
    have hr := hc.room
    have hu : (unsigned ((udpLen d.ip : ℤ)-udpHdrSize)).toNat = udpLen d.ip-8 := by
      unfold unsigned
      omega
    refine ⟨?_, ?_, ?_, fun hx => ?_⟩
    · dsimp only
      omega
    · dsimp only
      cases hp : d.place with
      | frame p =>
        have hin := hframe p hp
        simp only [start, bufferEnd]
        omega
      | pktBuff =>
        have hin := hc.buffer hp
        simp only [start, bufferEnd]
        omega
    · dsimp only
      omega
    · dsimp only
      have hsame : udpHdrSize+(unsigned ((udpLen d.ip : ℤ)-udpHdrSize)).toNat = udpLen d.ip := by
        omega
      rw [hsame]
      cases hb : b.udpChecksum with
      | true => exact hsum hb hx
      | false => exact hc.checksum hb hx

/-- A frame with a UDP datagram of 10.0.0.1 for 10.0.0.2 that has room for four
bytes of data, and the given length in the UDP header. -/
def frameOf (udpLen : UInt8) : Bytes := fun x =>
  [0, 0, 0, 0, 0, 0, 0, 0, 0, 0, 0, 0, 0x08, 0x00,
    0x45, 0, 0, 32, 0, 1, 0, 0, 64, 17, 0x66, 0xca, 10, 0, 0, 1, 10, 0, 0, 2,
    0, 69, 4, 1, 0, udpLen, 0, 0, 1, 2, 3, 4].getD x 0

def defragBuild : Build := ⟨false, false, true, true, false⟩

def untagged : Net := ⟨65535, 65535, 0x0a000002, 0, false⟩

theorem frameOf_received (u : UInt8) :
    netReceive defragBuild untagged zeroed (frameOf u) 60 =
      some (zeroed, .udp ⟨.frame 14, 32, behind (frameOf u) 14⟩
        ⟨42, 1025, 0x0a000001, 69, (unsigned ((u.toNat : ℤ)-8)).toNat⟩) := by
  have hlink : link untagged false (frameOf u) 60 = some ⟨protIp, etherHdrSize, vlanNone⟩ := by
    simp [link, ntohs, frameOf, protVlan, protIp]
  have hvlan : vlanMatches untagged vlanNone = true := by decide
  have hrej : rejected defragBuild untagged (behind (frameOf u) 14) 46 = false := by
    simp [rejected, unsigned, behind, frameOf, ntohs, untagged, netCksumOk, netCksum, get16, ipLen,
      ipDst, ipHdrSize, ipUdpHdrSize, List.range_succ]
  have hwhole : reassemble defragBuild zeroed 14 (behind (frameOf u) 14) =
      some (zeroed, some ⟨.frame 14, 32, behind (frameOf u) 14⟩) := by
    simp [reassemble, offset8, moreFragments, ipOff, ipLen, behind, frameOf, ntohs]
  have hsip : ipSrc (behind (frameOf u) 14) = 0x0a000001 := by
    simp [ipSrc, behind, frameOf, ntohs]
  have hdel : deliver defragBuild 0x0a000001 ⟨.frame 14, 32, behind (frameOf u) 14⟩ =
      .udp ⟨.frame 14, 32, behind (frameOf u) 14⟩
        ⟨42, 1025, 0x0a000001, 69, (unsigned ((u.toNat : ℤ)-8)).toNat⟩ := by
    simp [deliver, ipP, udpXsum, udpLen, udpDst, udpSrc, behind, frameOf, ntohs, start, ipprotoIcmp,
      ipprotoUdp, ipUdpHdrSize, udpHdrSize]
  have hip : receiveIp defragBuild untagged zeroed (frameOf u) 14 46 =
      some (zeroed, deliver defragBuild 0x0a000001 ⟨.frame 14, 32, behind (frameOf u) 14⟩) := by
    unfold receiveIp
    dsimp only
    rw [hrej, hwhole, hsip, if_neg Bool.false_ne_true, Option.map_some, Option.map_some,
      Option.getD_some]
  rw [← hdel, ← hip]
  unfold netReceive
  have hcdp : (defragBuild.cdp && isCdpPacket (frameOf u)) = false := rfl
  rw [if_neg (by decide), if_neg (by decide), hcdp]
  dsimp only
  rw [hlink]
  dsimp only
  have hrest : ((60 : ℕ) : ℤ)-etherHdrSize = 46 := by decide
  rw [if_neg Bool.false_ne_true, hvlan, if_neg (by decide), if_neg (by decide), if_neg (by decide),
    if_pos rfl, hrest]
  rfl

theorem call_sound_four :
    Sound 60 ⟨.frame 14, 32, behind (frameOf 12) 14⟩ ⟨42, 1025, 0x0a000001, 69, 4⟩ ↔
      Consistent defragBuild ⟨.frame 14, 32, behind (frameOf 12) 14⟩ :=
  call_sound_iff defragBuild untagged zeroed zeroed (frameOf 12) 60 _ _ (frameOf_received 12)

/-- A UDP length of 0 is handed on as 4294967288 bytes. -/
theorem empty_length_called : ¬ ∀ (b : Build) (n : Net) (s s' : State) (frame : Bytes) (len : ℕ)
    (d : Datagram) (c : Call), netReceive b n s frame len = some (s', .udp d c) →
    Sound len d c := by
  intro h
  have hlen := (h defragBuild untagged zeroed zeroed (frameOf 0) 60 _ _ (frameOf_received 0)).length
  have hzero : udpLen (behind (frameOf 0) 14) = 0 := by decide
  dsimp only at hlen
  rw [hzero] at hlen
  cases hlen

end UBoot.NetReceive
