import Mathlib.Tactic.NormNum.Prime
import UBoot.EcpMul

/-!
# The group of `secp256r1`

The constants of `lib/mbedtls/ecp-curves.c` are those of a group of prime order, in which the
check of public keys lets through the keys of the private ones.
-/

set_option autoImplicit false

namespace UBoot.Ecp

open Mpi WeierstrassCurve.Affine PrimeCertificate

theorem smallPrimes_prime : ∀ q ∈ smallPrimes, q.Prime := by
  simp only [smallPrimes, List.forall_mem_cons, List.not_mem_nil, false_imp_iff, implies_true,
    and_true]
  norm_num

theorem secp256r1_prime_P : secp256r1.P.Prime :=
  secp256r1_certified.prime smallPrimes_prime ⟨secp256r1.P, 6, [2, 3, 5, 17, 257, 641,
    1531, 65537, 490463, 6700417, 835945042244614951780389953367877943453916927241]⟩
    (by simp [secp256r1Primes])

theorem secp256r1_prime_N : secp256r1.N.Prime :=
  secp256r1_certified.prime smallPrimes_prime ⟨secp256r1.N, 7, [2, 3, 71, 131, 373,
    3407, 17449, 38189, 187019741, 622491383, 1002328039319, 2624747550333869278416773953]⟩
    (by simp [secp256r1Primes])

instance secp256r1_fact : Fact secp256r1.P.Prime := ⟨secp256r1_prime_P⟩

/-- The base point has the order `N`. -/
theorem secp256r1_order {G : secp256r1.curve.Point} (hG : PointAt secp256r1 secp256r1.G G) :
    secp256r1.N • G = 0 := by
  obtain ⟨h1, h2, h3, h4, -⟩ := secp256r1_runs
  have hlt : secp256r1.N/2^192 < 2^64 := by decide
  have hlow : ∀ x : ℕ, x % 2^64 < 2^64 := fun x => Nat.mod_lt x (Nat.two_pow_pos 64)
  have hzero : Stands secp256r1 setZero (0 • G) := by
    rw [zero_nsmul]
    exact setZero_stands secp256r1
  have hreduced := setZero_reduced secp256r1 secp256r1_prime_P.one_lt
  obtain ⟨hr1, hs1⟩ := ladder_spec hG rfl hreduced hzero 64 hlt
  rw [h1] at hr1 hs1
  generalize hm1 : 0*2^64+secp256r1.N/2^192 = m1 at hs1
  obtain ⟨hr2, hs2⟩ := ladder_spec hG rfl hr1 hs1 64 (hlow (secp256r1.N/2^128))
  rw [h2] at hr2 hs2
  generalize hm2 : m1*2^64+secp256r1.N/2^128 % 2^64 = m2 at hs2
  obtain ⟨hr3, hs3⟩ := ladder_spec hG rfl hr2 hs2 64 (hlow (secp256r1.N/2^64))
  rw [h3] at hr3 hs3
  generalize hm3 : m2*2^64+secp256r1.N/2^64 % 2^64 = m3 at hs3
  obtain ⟨hr4, hs4⟩ := ladder_spec hG rfl hr3 hs3 64 (hlow secp256r1.N)
  have hsum := (stands_zero_iff secp256r1 hr4 hs4).mp h4
  have hbits : m3*2^64+secp256r1.N % 2^64 = secp256r1.N := by
    rw [← hm3, ← hm2, ← hm1]
    decide
  exact hbits ▸ hsum

/-- No point has order 2. -/
theorem secp256r1_no_root (x : ZMod secp256r1.P) : x^3+secp256r1.a*x+secp256r1.B ≠ 0 := by
  obtain ⟨-, -, -, -, hremainder⟩ := secp256r1_runs
  have hcubic := cubic_no_root (v := secp256r1.P-secp256r1.B) (k := 256)
    0xED31F3B7E1F57596F80C37F95AE2665123A4AE100C3FD1B79E0FD4FA86C24540
    0xE2064682E0B89B67347009D7A074489E0BA61223CA75A16AF0484BD16BC9DDC
    (s := secp256r1Cofactor) (by decide) hremainder (by decide) (by decide) x
  intro h
  apply hcubic
  have ha : secp256r1.a = -3 := rfl
  rw [Nat.cast_sub (by decide), ZMod.natCast_self, zero_sub, Nat.cast_ofNat]
  rw [ha] at h
  linear_combination h

theorem secp256r1_smooth : secp256r1.curve.Δ ≠ 0 := by
  rw [discriminant rfl, ne_eq, ZMod.intCast_zmod_eq_zero_iff_dvd]
  decide

theorem secp256r1_card : Nat.card secp256r1.curve.Point = secp256r1.N := by
  obtain ⟨G, hG⟩ := (checkPubkey_iff secp256r1_smooth secp256r1.G).mp secp256r1_base
  exact card_of_base secp256r1_prime_N hG.1.ne_zero (secp256r1_order hG) (by decide) (by decide)
    secp256r1_no_root

/-- The constants are those of a valid group. -/
theorem secp256r1_valid : Valid secp256r1 where
  smooth := secp256r1_smooth
  prime := secp256r1_prime_N
  odd := by decide
  order Q := by
    rw [natCast_zsmul, ← secp256r1_card]
    exact card_nsmul_eq_zero'
  base := secp256r1_base
  small := small_of_nbits (Nat.lt_size.mpr (by decide))

/-- On `secp256r1` the public keys that the check lets through are those of exactly one private
key each. -/
theorem secp256r1_pubkey_iff (pt : EcpPoint) :
    checkPubkey secp256r1 pt = .ok () ↔ ∃! m : ℤ, (0 < m ∧ m < secp256r1.N) ∧
      ∃ c, ecpMul secp256r1 none setZero m secp256r1.G none = .ok (pt, c) := by
  have hN : Fact secp256r1.N.Prime := ⟨secp256r1_prime_N⟩
  obtain ⟨G, hG⟩ := (checkPubkey_iff secp256r1_smooth secp256r1.G).mp secp256r1_base
  have horder := secp256r1_valid.order G
  have hmul : ∀ m : ℤ, 0 < m ∧ m < secp256r1.N → ∀ pt, (∃ c, ecpMul secp256r1 none setZero m
      secp256r1.G none = .ok (pt, c)) ↔ PointAt secp256r1 pt (m • G) := by
    intro m hm pt
    have hspec := ecpMul_spec secp256r1_valid (cached_none secp256r1) setZero m hG (l := none) (by simp)
    rw [if_pos hm] at hspec
    obtain ⟨r, c, hrun, hr, -⟩ := hspec
    constructor
    · rintro ⟨c', h⟩
      rw [hrun] at h
      obtain ⟨rfl, -⟩ := Prod.mk.inj (Except.ok.inj h)
      exact hr
    · intro hpt
      exact ⟨c, by rw [hrun, hr.eq hpt]⟩
  rw [checkPubkey_iff secp256r1_smooth]
  constructor
  · rintro ⟨Q, hQ⟩
    have htop : Q ∈ AddSubgroup.zmultiples G := by
      have hprime : Fact (Nat.card secp256r1.curve.Point).Prime := ⟨secp256r1_card ▸ secp256r1_prime_N⟩
      exact mem_zmultiples_of_prime_card rfl hG.1.ne_zero
    obtain ⟨k, hk⟩ := AddSubgroup.mem_zmultiples_iff.mp htop
    have hNpos : (0 : ℤ) < secp256r1.N := Int.natCast_pos.mpr secp256r1_prime_N.pos
    have hrem : (k % secp256r1.N) • G = Q := by
      rw [← hk, ← sub_eq_zero, sub_eq_add_neg, ← sub_zsmul, order_dvd hG.1.ne_zero horder]
      exact Int.dvd_of_emod_eq_zero (by rw [Int.sub_emod, Int.emod_emod, sub_self, Int.zero_emod])
    have hpos : 0 < k % secp256r1.N := by
      apply lt_of_le_of_ne (Int.emod_nonneg k hNpos.ne')
      intro h0
      rw [← h0, zero_zsmul] at hrem
      exact hQ.1.ne_zero hrem.symm
    have hm : 0 < k % secp256r1.N ∧ k % secp256r1.N < secp256r1.N := ⟨hpos, Int.emod_lt_of_pos k hNpos⟩
    refine ⟨k % secp256r1.N, ⟨hm, (hmul _ hm pt).mpr (hrem ▸ hQ)⟩, ?_⟩
    rintro n ⟨hn, hrun⟩
    have hnQ := ((hmul n hn pt).mp hrun).unique hQ
    rw [← hrem, ← sub_eq_zero, sub_eq_add_neg, ← sub_zsmul, order_dvd hG.1.ne_zero horder] at hnQ
    have hzero := Int.eq_zero_of_abs_lt_dvd hnQ (by rw [abs_lt]; omega)
    omega
  · rintro ⟨m, ⟨hm, hrun⟩, -⟩
    exact ⟨m • G, (hmul m hm pt).mp hrun⟩

end UBoot.Ecp
