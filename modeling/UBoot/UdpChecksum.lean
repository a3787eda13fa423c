import UBoot.NetReceive
import UBoot.OnesComplement

/-!
# The UDP checksum of `NetReceive`

The sum of an `ulong` of 32 bits loses no carry, whatever the length of the
datagram, and its folded value is the one's-complement sum of the pseudo header
and of the datagram with a zero byte behind an odd last one.
-/

set_option autoImplicit false

namespace UBoot.NetReceive

open UBoot.Defrag UBoot.LinkedRecords UBoot.OnesComplement

/-- The loop over `sumptr` and `sumlen` in an `ulong` of 32 bits. -/
def addWords32 (b : Bytes) : ℕ → ℕ → ℕ → ℕ
  | xsum, _, 0 => xsum
  | xsum, p, 1 => (xsum+(b p).toNat*256) % 2^32
  | xsum, p, n+2 => addWords32 b ((xsum+ntohs b p) % 2^32) (p+2) n

/-- The sum that is folded. -/
def xsum32 (ip : Bytes) : ℕ := addWords32 ip (pseudoHeader ip) 20 (udpLen ip)

/-! ## The standard -/

/-- The words of `n` bytes from `p` on; a last odd byte is padded with zero. -/
@[grind]
def words (b : Bytes) : ℕ → ℕ → List ℕ
  | _, 0 => []
  | p, 1 => [(b p).toNat*256]
  | p, n+2 => ntohs b p :: words b (p+2) n

def pseudoWords (ip : Bytes) : List ℕ :=
  [ntohs ip 12, ntohs ip 14, ntohs ip 16, ntohs ip 18, ipP ip, udpLen ip]

/-- Pseudo header, UDP header and data. -/
def summed (ip : Bytes) : List ℕ := pseudoWords ip ++ words ip 20 (udpLen ip)

/-- The packet with zero in its checksum. -/
def unsummed (ip : Bytes) : Bytes := fun x => if x = 26 ∨ x = 27 then 0 else ip x

/-- The checksum is the one that the sender writes. -/
def Checksummed (ip : Bytes) : Prop := udpXsum ip = checksum (summed (unsummed ip))

/-! ## The sum -/

theorem words_le (b : Bytes) (p n : ℕ) : ∀ w ∈ words b p n, w ≤ 65535 := by
  fun_induction words b p n with
  | case1 p => exact fun w hw => absurd hw List.not_mem_nil
  | case2 p =>
    have h := (b p).toNat_lt
    intro w hw
    rw [List.mem_singleton.1 hw]
    omega
  | case3 p n ih =>
    intro w hw
    rcases List.mem_cons.1 hw with rfl | hw
    · exact Nat.le_of_lt_succ (ntohs_lt b p)
    · exact ih w hw

theorem pseudoWords_le (ip : Bytes) : ∀ w ∈ pseudoWords ip, w ≤ 65535 := by
  have h := (ip 9).toNat_lt
  have hp : ipP ip ≤ 65535 := by
    unfold ipP
    omega
  simp only [pseudoWords, List.forall_mem_cons, List.not_mem_nil, false_imp_iff, implies_true,
    and_true]
  have hle := fun a => Nat.le_of_lt_succ (ntohs_lt ip a)
  exact ⟨hle 12, hle 14, hle 16, hle 18, hp, hle 24⟩

theorem summed_le (ip : Bytes) : ∀ w ∈ summed ip, w ≤ 65535 := fun w hw =>
  (List.mem_append.1 hw).elim (pseudoWords_le ip w) (words_le ip 20 _ w)

theorem pseudoHeader_eq (ip : Bytes) : pseudoHeader ip = (pseudoWords ip).sum := by
  have h14 := ntohs_lt ip 14
  have h18 := ntohs_lt ip 18
  have h12 := ntohs_lt ip 12
  have h16 := ntohs_lt ip 16
  simp only [pseudoHeader, pseudoWords, ipSrc, ipDst, List.sum_cons, List.sum_nil]
  omega

theorem words_sum (b : Bytes) (p n : ℕ) : (words b p n).sum = octets b p n := by
  fun_induction words b p n with
  | case1 p => rfl
  | case2 p => simp [octets]
  | case3 p n ih => rw [List.sum_cons, ih, octets_two]

theorem summed_sum (ip : Bytes) :
    (summed ip).sum = pseudoHeader ip+octets ip ipHdrSize (udpLen ip) := by
  rw [summed, List.sum_append, ← pseudoHeader_eq, words_sum, ipHdrSize]

/-- No carry is lost while the sum stays in 32 bits. -/
theorem addWords32_eq (b : Bytes) (x p n : ℕ) (h : x+octets b p n < 2^32) :
    addWords32 b x p n = addWords b x p n := by
  fun_induction addWords32 b x p n with
  | case1 x p => rfl
  | case2 x p =>
    have hone : octets b p 1 = (b p).toNat*256 := by simp [octets]
    rw [addWords, Nat.mod_eq_of_lt (by omega)]
  | case3 x p n ih =>
    rw [octets_two] at h
    have hmod : (x+ntohs b p) % 2^32 = x+ntohs b p := Nat.mod_eq_of_lt (by omega)
    rw [hmod] at ih ⊢
    rw [addWords, ih (by omega)]

theorem summed_sum_lt (ip : Bytes) : (summed ip).sum < 2^32 := by
  have hlen : udpLen ip < 65536 := ntohs_lt ip 24
  have hoct := octets_le ip ipHdrSize (udpLen ip)
  have hpseudo := List.sum_le_card_nsmul (pseudoWords ip) 65535 (pseudoWords_le ip)
  rw [show (pseudoWords ip).length = 6 from rfl, smul_eq_mul, ← pseudoHeader_eq] at hpseudo
  rw [summed_sum]
  omega

/-- The sum in 32 bits is the plain sum of all words. -/
theorem xsum32_eq (ip : Bytes) : xsum32 ip = (summed ip).sum := by
  have hlt := summed_sum_lt ip
  rw [summed_sum, ipHdrSize] at hlt ⊢
  rw [xsum32, addWords32_eq _ _ _ _ hlt, addWords_eq]

theorem fold_eq_rep (x : ℕ) (h : x < 2^32) : fold x = rep x := by
  induction x using fold.induct with
  | case1 x hdone => rw [fold, if_pos hdone, rep_of_le (by omega)]
  | case2 x hmore ih =>
    have hhigh : x/65536 % 65536 = x/65536 := Nat.mod_eq_of_lt (by omega)
    rw [hhigh] at ih
    rw [fold, if_neg hmore, hhigh, ih (by omega), rep_carry]

/-- The folded sum is the one's-complement sum. -/
theorem fold_xsum32 (ip : Bytes) : fold (xsum32 ip) = sum (summed ip) := by
  rw [xsum32_eq, sum_eq_rep _ (summed_le ip), fold_eq_rep _ (summed_sum_lt ip)]

/-! ## The verdict -/

theorem udpCksumOk_iff_sum (ip : Bytes) (h : ipP ip = ipprotoUdp) :
    udpCksumOk ip = true ↔ sum (summed ip) = 65535 := by
  have hne : sum (summed ip) ≠ 0 := by
    rw [sum_eq_rep _ (summed_le ip), ne_eq, rep_eq_zero, summed, List.sum_append, pseudoWords]
    simp only [List.sum_cons, h, ipprotoUdp]
    omega
  have hsum : xsum32 ip = addWords ip (pseudoHeader ip) 20 (udpLen ip) := by
    rw [xsum32_eq, summed_sum, addWords_eq, ipHdrSize]
  unfold udpCksumOk
  rw [← hsum, fold_xsum32, decide_eq_true_iff]
  exact or_iff_right hne

/-- The checksum of the sender makes the sum right: its word stands for zero in the others. -/
theorem Checksummed.sum_eq {ip : Bytes} (h : Checksummed ip) (hlen : udpHdrSize ≤ udpLen ip) :
    sum (summed ip) = 65535 := by
  obtain ⟨n, hn⟩ : ∃ n, udpLen ip = n+8 := ⟨udpLen ip-8, by unfold udpHdrSize at hlen; omega⟩
  have hheader : ∀ b : Bytes, octets b 20 (n+8) =
      ntohs b 20+(ntohs b 22+(ntohs b 24+(ntohs b 26+octets b 28 n))) := fun b => by
    rw [octets_two, octets_two, octets_two, octets_two]
  have hrest : ∀ m, octets (unsummed ip) 28 m = octets ip 28 m := fun m =>
    Finset.sum_congr rfl fun i _ => by
      rw [unsummed, if_neg (by omega)]
  have hlow : ∀ a, a ≠ 25 → a ≠ 26 → a ≠ 27 → ntohs (unsummed ip) a = ntohs ip a :=
      fun a h1 h2 h3 => by
    rw [ntohs, unsummed, unsummed, if_neg (by omega), if_neg (by omega), ntohs]
  have hzero : ntohs (unsummed ip) 26 = 0 := by
    rw [ntohs, unsummed, unsummed, if_pos (.inl rfl), if_pos (.inr rfl), UInt8.toNat_zero]
  have hlen' : udpLen (unsummed ip) = udpLen ip := hlow 24 (by decide) (by decide) (by decide)
  have hpseudo : pseudoWords (unsummed ip) = pseudoWords ip := by
    rw [pseudoWords, pseudoWords, hlen', hlow 12 (by decide) (by decide) (by decide),
      hlow 14 (by decide) (by decide) (by decide), hlow 16 (by decide) (by decide) (by decide),
      hlow 18 (by decide) (by decide) (by decide), ipP, unsummed, if_neg (by decide), ipP]
  have hplain : (summed ip).sum = (summed (unsummed ip)).sum+udpXsum ip := by
    rw [summed_sum, summed_sum, pseudoHeader_eq, pseudoHeader_eq, hpseudo, hlen', hn, ipHdrSize]
    rw [hheader, hheader, hrest, hzero, hlow 20 (by decide) (by decide) (by decide),
      hlow 22 (by decide) (by decide) (by decide), hlow 24 (by decide) (by decide) (by decide),
      udpXsum]
    omega
  rw [sum_eq_rep _ (summed_le ip), hplain, show udpXsum ip = _ from h]
  exact rep_checksum _ (summed_le (unsummed ip))

/-- The sum is the one's-complement sum of pseudo header, header and data; a datagram with a
checksum is dropped when the sum is wrong and only then, so one with the checksum of its sender is
not. -/
theorem checksum_verdict (b : Build) (sip : ℕ) (d : Datagram) (hb : b.udpChecksum = true)
    (hudp : ipP d.ip = ipprotoUdp) :
    xsum32 d.ip = (summed d.ip).sum ∧ fold (xsum32 d.ip) = sum (summed d.ip) ∧
      (deliver b sip d = .dropped ↔ udpXsum d.ip ≠ 0 ∧ sum (summed d.ip) ≠ 65535) ∧
      (Checksummed d.ip → udpHdrSize ≤ udpLen d.ip → deliver b sip d ≠ .dropped) := by
  have hdrop : deliver b sip d = .dropped ↔ udpXsum d.ip ≠ 0 ∧ sum (summed d.ip) ≠ 65535 := by
    have hok := udpCksumOk_iff_sum d.ip hudp
    unfold deliver
    rw [hudp, if_neg (by decide), if_neg (by decide)]
    split_ifs with hbad
    · exact iff_of_true rfl ⟨hbad.2.1, fun hs => hbad.2.2 (hok.2 hs)⟩
    · exact iff_of_false nofun fun hd => hbad ⟨hb, hd.1, fun hc => hd.2 (hok.1 hc)⟩
  exact ⟨xsum32_eq _, fold_xsum32 _, hdrop,
    fun hc hlen hd => (hdrop.1 hd).2 (hc.sum_eq hlen)⟩

/-- A datagram with one byte of data and the checksum `x*256+y`. -/
def datagram (x y : UInt8) : Bytes := fun p =>
  if p = 9 then 17 else if p = 25 then 9 else if p = 26 then x else if p = 27 then y
  else if p = 28 then 1 else 0

def checking : Build := ⟨false, false, true, true, false⟩

theorem datagram_delivered : deliver checking 0 ⟨.frame 14, 29, datagram 0xfe 0xdc⟩ ≠ .dropped :=
  (checksum_verdict checking 0 ⟨.frame 14, 29, datagram 0xfe 0xdc⟩ rfl rfl).2.2.2
    (by unfold Checksummed; decide +kernel) (by decide)

/-- Without a checksum it is not dropped either, though its sum is wrong. -/
theorem wrong_sum_delivered : sum (summed (datagram 0 0)) = 291 ∧
    deliver checking 0 ⟨.frame 14, 29, datagram 0 0⟩ ≠ .dropped := by
  refine ⟨by decide +kernel, fun h => ?_⟩
  rw [deliver, if_neg (by decide), if_neg (by decide), if_neg (fun hd => hd.2.1 rfl)] at h
  cases h

end UBoot.NetReceive
