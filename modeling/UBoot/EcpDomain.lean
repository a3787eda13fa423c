import Mathlib.GroupTheory.Perm.Cycle.Type
import UBoot.EcpValid
import UBoot.PrimeCertificate

/-!
# The domain parameters of `secp256r1`

A base point of large prime order on a curve without points of order 2 leaves room for no
other points than its multiples. The constants of `lib/mbedtls/ecp-curves.c` are such a curve.
-/

set_option autoImplicit false

namespace UBoot.Ecp

open Mpi WeierstrassCurve.Affine PrimeCertificate

/-! ## The number of points -/

section Count

variable {g : EcpGroup} [hprime : Fact g.P.Prime]

/-- The affine points. -/
def affinePoints (g : EcpGroup) [Fact g.P.Prime] : Finset (ZMod g.P × ZMod g.P) :=
  Finset.univ.filter fun xy => xy.2^2 = xy.1^3+g.a*xy.1+g.B

theorem equation_eq (x y : ZMod g.P) : g.curve.Equation x y ↔ y^2 = x^3+g.a*x+g.B := by
  rw [equation_iff]
  simp only [EcpGroup.curve, zero_mul, add_zero]

theorem affinePoints_card : (affinePoints g).card ≤ 2*g.P := by
  have himage : ((affinePoints g).image Prod.fst).card ≤ g.P :=
    (Finset.card_le_univ _).trans_eq (ZMod.card g.P)
  refine (Finset.card_le_mul_card_image (f := Prod.fst) (affinePoints g) 2 ?_).trans
    (Nat.mul_le_mul_left 2 himage)
  -- two `y` at most for an `x`
  intro x _
  have hmem : ∀ xy ∈ (affinePoints g).filter (fun xy => xy.1 = x), xy.1 = x ∧
      xy.2^2 = x^3+g.a*x+g.B := by
    intro xy hxy
    obtain ⟨hcurve, rfl⟩ := Finset.mem_filter.mp hxy
    exact ⟨rfl, (Finset.mem_filter.mp hcurve).2⟩
  rcases Finset.eq_empty_or_nonempty ((affinePoints g).filter fun xy => xy.1 = x) with h0 | ⟨p, hp⟩
  · rw [h0]
    exact Nat.zero_le 2
  · refine (Finset.card_le_card (t := {p, (p.1, -p.2)}) ?_).trans Finset.card_le_two
    intro q hq
    obtain ⟨hpx, hpy⟩ := hmem p hp
    obtain ⟨hqx, hqy⟩ := hmem q hq
    rw [Finset.mem_insert, Finset.mem_singleton]
    rcases sq_eq_sq_iff_eq_or_eq_neg.mp (hqy.trans hpy.symm) with h | h
    · exact .inl (Prod.ext (hqx.trans hpx.symm) h)
    · exact .inr (Prod.ext (hqx.trans hpx.symm) h)

/-- A point by its coordinates. -/
def coordinates : g.curve.Point → Option (affinePoints g)
  | .zero => none
  | .some x y h => some ⟨(x, y), Finset.mem_filter.mpr ⟨Finset.mem_univ _, (equation_eq x y).mp h.1⟩⟩

theorem coordinates_injective : Function.Injective (coordinates (g := g)) := by
  intro P Q h
  cases P <;> cases Q <;> simp only [coordinates, reduceCtorEq, Option.some.injEq] at h
  · rfl
  · obtain ⟨rfl, rfl⟩ := Prod.mk.inj (congrArg Subtype.val h)
    rfl

instance points_finite : Finite g.curve.Point := Finite.of_injective _ coordinates_injective

theorem points_card : Nat.card g.curve.Point ≤ 2*g.P+1 := by
  have hle := Nat.card_le_card_of_injective _ (coordinates_injective (g := g))
  rw [Finite.card_option, Nat.card_eq_finsetCard] at hle
  have hcard := affinePoints_card (g := g)
  omega

/-- Where no point has order 2 and the base point has a prime order above a third of what the
field has room for, there are no more points than its multiples. -/
theorem card_of_base {G : g.curve.Point} (hN : g.N.Prime) (hG : G ≠ 0) (horder : g.N • G = 0)
    (hsize : 2*g.P+1 < 3*g.N) (h2 : g.P ≠ 2) (hroot : ∀ x : ZMod g.P, x^3+g.a*x+g.B ≠ 0) :
    Nat.card g.curve.Point = g.N := by
  have hNf : Fact g.N.Prime := ⟨hN⟩
  have hdvd : g.N ∣ Nat.card g.curve.Point := by
    rw [← addOrderOf_eq_prime horder hG]
    exact addOrderOf_dvd_natCard G
  obtain ⟨k, hk⟩ := hdvd
  have hpos : 0 < Nat.card g.curve.Point := Nat.card_pos
  have hle := points_card (g := g)
  have hk0 : 0 < k := by
    apply Nat.pos_of_ne_zero
    rintro rfl
    omega
  have hk3 : k < 3 := by
    by_contra hge
    have := Nat.mul_le_mul_left g.N (show 3 ≤ k by omega)
    omega
  have hk2 : k ≠ 2 := by
    rintro rfl
    have : Fintype g.curve.Point := Fintype.ofFinite _
    obtain ⟨R, hR⟩ := exists_prime_addOrderOf_dvd_card 2
      (show 2 ∣ Fintype.card g.curve.Point from ⟨g.N, by rw [← Nat.card_eq_fintype_card, hk]; ring⟩)
    have hdouble : R+R = 0 := by
      rw [← two_nsmul, ← hR]
      exact addOrderOf_nsmul_eq_zero R
    cases R with
    | zero =>
      change addOrderOf (0 : g.curve.Point) = 2 at hR
      rw [addOrderOf_zero] at hR
      omega
    | some x y h =>
      have hneg : Point.some x y h = -Point.some x y h := eq_neg_of_add_eq_zero_left hdouble
      rw [Point.neg_some, Point.some.injEq, negY_eq] at hneg
      have hy : y = 0 := by
        have htwo : (2 : ZMod g.P) ≠ 0 := by
          intro h0
          have hcast : ((2 : ℕ) : ZMod g.P) = 0 := by exact_mod_cast h0
          rw [ZMod.natCast_eq_zero_iff] at hcast
          exact h2 ((Nat.prime_dvd_prime_iff_eq hprime.out Nat.prime_two).mp hcast)
        have : 2*y = 0 := by linear_combination hneg.2
        exact (mul_eq_zero.mp this).resolve_left htwo
      have heq := (equation_eq x y).mp h.1
      rw [hy, zero_pow two_ne_zero] at heq
      exact hroot x heq.symm
  rw [hk, show k = 1 by omega, Nat.mul_one]

end Count

theorem discriminant {g : EcpGroup} (hA : g.A = none) :
    g.curve.Δ = ((1728-432*(g.B : ℤ)^2 : ℤ) : ZMod g.P) := by
  simp only [WeierstrassCurve.Δ, WeierstrassCurve.b₂, WeierstrassCurve.b₄, WeierstrassCurve.b₆,
    WeierstrassCurve.b₈, EcpGroup.curve, EcpGroup.a, hA]
  push_cast
  ring

/-! ## Multiples by doubling and adding -/

theorem inField_emod {g : EcpGroup} (hP : 0 < g.P) (n : ℤ) : g.InField (n % g.P) :=
  ⟨Int.emod_nonneg _ (by omega), Int.emod_lt_of_pos _ (by omega)⟩

theorem eq_of_cast {g : EcpGroup} {m n : ℤ} (hm : g.InField m) (hn : g.InField n)
    (h : (m : ZMod g.P) = n) : m = n := by
  rw [ZMod.intCast_eq_intCast_iff'] at h
  rwa [Int.emod_eq_of_lt hm.1 hm.2, Int.emod_eq_of_lt hn.1 hn.2] at h

/-- `doubleJac` for the coefficient -3, with divisions in place of the loops. -/
def doubleMod (P : ℤ) (pt : EcpPoint) : EcpPoint :=
  let zz := pt.z*pt.z % P
  let M := 3*(pt.X+zz)*(pt.X-zz) % P
  let yy := pt.Y*pt.Y % P
  let S := 4*pt.X*yy % P
  let X := (M*M-2*S) % P
  ⟨X, (M*(S-X)-8*(yy*yy)) % P, some (2*pt.Y*pt.z % P)⟩

theorem doubleJac_eq {g : EcpGroup} (hP : 0 < g.P) (hA : g.A = none) (pt : EcpPoint) :
    doubleJac g pt = doubleMod g.P pt := by
  obtain ⟨hX, hY, hz⟩ := doubleJac_cast g pt
  have hr := doubleJac_reduced g hP pt
  have ha : g.a = -3 := by rw [EcpGroup.a, hA]
  rw [ha] at hX hY
  have hX : (doubleJac g pt).X = (doubleMod g.P pt).X := by
    refine eq_of_cast hr.X (inField_emod hP _) (hX.trans ?_)
    simp only [doubleMod, ZMod.intCast_mod, Int.cast_mul, Int.cast_sub, Int.cast_add,
      Int.cast_ofNat]
    ring
  have hY : (doubleJac g pt).Y = (doubleMod g.P pt).Y := by
    refine eq_of_cast hr.Y (inField_emod hP _) (hY.trans ?_)
    simp only [doubleMod, ZMod.intCast_mod, Int.cast_mul, Int.cast_sub, Int.cast_add,
      Int.cast_ofNat]
    ring
  have hz : (doubleJac g pt).z = 2*pt.Y*pt.z % g.P := by
    refine eq_of_cast hr.z (inField_emod hP _) (hz.trans ?_)
    simp only [ZMod.intCast_mod, Int.cast_mul, Int.cast_ofNat]
  exact (EcpPoint.mk.injEq ..).mpr ⟨hX, hY, congrArg some hz⟩

/-- The sum of two points with different `x`, the second one affine. -/
def addMod (P : ℤ) (pt qt : EcpPoint) : EcpPoint :=
  let zz := pt.z*pt.z % P
  let T1 := (zz*qt.X-pt.X) % P
  let T2 := (zz*pt.z*qt.Y-pt.Y) % P
  let T3 := T1*T1 % P
  let T4 := T3*T1 % P
  let V := T3*pt.X % P
  let X := (T2*T2-2*V-T4) % P
  ⟨X, (T2*(V-X)-T4*pt.Y) % P, some (pt.z*T1 % P)⟩

/-- `addMixed` of the base point, which takes the cases that `addMod` leaves. -/
def addBase (g : EcpGroup) (pt : EcpPoint) : EcpPoint :=
  if pt.z = 0 ∨ (pt.z*pt.z*g.G.X-pt.X) % g.P = 0 then
    match addMixed g pt g.G with
    | .ok r => r
    | .error _ => pt
  else addMod g.P pt g.G

section Ladder

variable {g : EcpGroup} [hprime : Fact g.P.Prime] {G : g.curve.Point} (hG : PointAt g g.G G)

include hG

theorem addBase_stands {pt : EcpPoint} {Q : g.curve.Point} (hpt : Reduced g pt)
    (hQ : Stands g pt Q) : Reduced g (addBase g pt) ∧ Stands g (addBase g pt) (Q+G) := by
  have hpos := hprime.out.pos
  rw [addBase]
  split_ifs with hcase
  · obtain ⟨r, hrun, hr, hred⟩ := addMixed_stands g hpt hG.1.1 hQ hG.1.affine
      (fun hnone => by rw [hG.2] at hnone; cases hnone)
    rw [hrun]
    exact ⟨hred, hr⟩
  · rw [not_or] at hcase
    obtain ⟨hz, hx⟩ := hcase
    refine ⟨⟨inField_emod hpos _, inField_emod hpos _, inField_emod hpos _⟩, ?_⟩
    obtain ⟨⟨-, -, h₂, rfl⟩, -⟩ := hG
    cases Q with
    | zero => exact absurd ((stands_zero_iff g hpt hQ).mpr rfl) hz
    | some x₁ y₁ h₁ =>
      obtain ⟨hz0, hx₁, hy₁⟩ := hQ
      have hne : x₁ ≠ g.G.X := by
        rintro rfl
        apply hx
        rw [← Int.dvd_iff_emod_eq_zero, ← ZMod.intCast_zmod_eq_zero_iff_dvd]
        push_cast
        linear_combination hx₁
      apply secant_stands g h₁ h₂ hne hz0 rfl rfl rfl
      · simp only [addMod, ZMod.intCast_mod, Int.cast_mul, Int.cast_sub, Int.cast_ofNat]
        rw [← hx₁, ← hy₁]
        ring
      · simp only [addMod, ZMod.intCast_mod, Int.cast_mul, Int.cast_sub, Int.cast_ofNat]
        rw [← hx₁, ← hy₁]
        ring
      · change ((pt.z*((pt.z*pt.z % g.P*g.G.X-pt.X) % g.P) % g.P : ℤ) : ZMod g.P) = _
        simp only [ZMod.intCast_mod, Int.cast_mul, Int.cast_sub]
        rw [← hx₁]
        ring

omit hG in
/-- From a point on: doubled for each of `k` bits, and the base point added where it is set. -/
@[grind]
def ladder (g : EcpGroup) (R : EcpPoint) : ℕ → ℕ → EcpPoint
  | 0, _ => R
  | k+1, n =>
    let R := doubleMod g.P (ladder g R k (n/2))
    if n % 2 = 1 then addBase g R else R

theorem ladder_spec (hA : g.A = none) {R : EcpPoint} {m : ℕ} (hR : Reduced g R)
    (hs : Stands g R (m • G)) (k : ℕ) {n : ℕ} (hn : n < 2^k) :
    Reduced g (ladder g R k n) ∧ Stands g (ladder g R k n) ((m*2^k+n) • G) := by
  induction k generalizing n with
  | zero =>
    obtain rfl : n = 0 := by omega
    rw [pow_zero, mul_one, add_zero]
    exact ⟨hR, hs⟩
  | succ k ih =>
    rw [pow_succ] at hn
    obtain ⟨-, hs⟩ := ih (show n/2 < 2^k by omega)
    have hdouble := doubleJac_stands g hs
    have hreduced := doubleJac_reduced g hprime.out.pos (ladder g R k (n/2))
    rw [← two_nsmul, smul_smul] at hdouble
    rw [doubleJac_eq hprime.out.pos hA] at hdouble hreduced
    have hbits : m*2^(k+1)+n = 2*(m*2^k+n/2)+n % 2 := by
      rw [pow_succ, ← Nat.mul_assoc]
      omega
    rw [ladder, hbits]
    split_ifs with hodd
    · rw [hodd, succ_nsmul]
      exact addBase_stands hG hreduced hdouble
    · rw [show n % 2 = 0 by omega, add_zero]
      exact ⟨hreduced, hdouble⟩

end Ladder

/-! ## A group of eleven points -/

def elevenPoints : EcpGroup := ⟨7, none, 6, ⟨1, 2, some 1⟩, 11⟩

instance elevenPoints_fact : Fact elevenPoints.P.Prime := ⟨Nat.prime_seven⟩

theorem elevenPoints_smooth : elevenPoints.curve.Δ ≠ 0 := by
  rw [discriminant rfl, ne_eq, ZMod.intCast_zmod_eq_zero_iff_dvd]
  decide

theorem elevenPoints_card : Nat.card elevenPoints.curve.Point = elevenPoints.N := by
  obtain ⟨G, hG⟩ := (checkPubkey_iff elevenPoints_smooth elevenPoints.G).mp (by decide)
  have hzero : Stands elevenPoints setZero (0 • G) := by
    rw [zero_nsmul]
    exact setZero_stands elevenPoints
  obtain ⟨hr, hs⟩ := ladder_spec hG rfl (setZero_reduced elevenPoints (by decide)) hzero 4
    (show elevenPoints.N < 2^4 by decide)
  have horder := (stands_zero_iff elevenPoints hr hs).mp (by decide)
  exact card_of_base Nat.prime_eleven hG.1.ne_zero (by simpa using horder) (by decide) (by decide)
    (by decide)

theorem elevenPoints_valid : Valid elevenPoints where
  smooth := elevenPoints_smooth
  prime := Nat.prime_eleven
  odd := by decide
  order Q := by
    rw [natCast_zsmul, ← elevenPoints_card]
    exact card_nsmul_eq_zero'
  base := by decide
  small := by decide

/-! ## What is computed for `secp256r1` -/

/-- The primes that the certificates start with. -/
def smallPrimes : List ℕ :=
  [2, 3, 5, 7, 11, 17, 23, 29, 41, 43, 53, 71, 107, 127, 131, 173, 197, 257, 311, 373, 641, 1297,
    1531, 2411, 3023, 3407, 3677, 3769, 16879, 17449, 18169, 38189, 65537, 78283, 126241, 155317,
    490463, 704251, 3969899, 6700417, 9350987]

/-- The order and the field of `secp256r1`, with what they rest on. -/
def secp256r1Primes : List Entry :=
  [⟨204061199, 11, [2, 11, 23, 107, 3769]⟩,
    ⟨34282281433, 17, [2, 3, 7, 204061199]⟩,
    ⟨66417393611, 6, [2, 5, 53, 173, 197, 3677]⟩,
    ⟨11290956913871, 13, [2, 5, 17, 66417393611]⟩,
    ⟨46076956964474543, 5, [2, 23, 18169, 78283, 704251]⟩,
    ⟨774023187263532362759620327192479577272145303, 3,
      [2, 3, 2411, 34282281433, 11290956913871, 46076956964474543]⟩,
    ⟨835945042244614951780389953367877943453916927241, 11,
      [2, 3, 5, 774023187263532362759620327192479577272145303]⟩,
    ⟨secp256r1.P, 6, [2, 3, 5, 17, 257, 641, 1531, 65537, 490463, 6700417,
      835945042244614951780389953367877943453916927241]⟩,
    ⟨187019741, 2, [2, 5, 9350987]⟩,
    ⟨311245691, 2, [2, 5, 7, 17, 29, 311]⟩,
    ⟨622491383, 5, [2, 311245691]⟩,
    ⟨1002328039319, 19, [2, 126241, 3969899]⟩,
    ⟨191039911, 3, [2, 3, 5, 41, 155317]⟩,
    ⟨208150935158385979, 2, [2, 3, 11, 43, 127, 3023, 191039911]⟩,
    ⟨2624747550333869278416773953, 7, [2, 3, 1297, 16879, 208150935158385979]⟩,
    ⟨secp256r1.N, 7, [2, 3, 71, 131, 373, 3407, 17449, 38189, 187019741, 622491383,
      1002328039319, 2624747550333869278416773953]⟩]

/-- What a quarter, a half and three quarters of the bits of the order lead to. -/
def secp256r1Quarter : EcpPoint :=
  ⟨86263771528568472843886490217852942747875885923134673977357184172083287311878,
    60768443677682411682504001560098049905332365084766440746720831276184977832851,
    some 9648519570400092799794999791570094091573923260682400745798589373963277932821⟩

def secp256r1Half : EcpPoint :=
  ⟨103339624542240680651276621392048883727482325683992433097815583388373932014465,
    55929039574175145157104155174538846751175587485259807738881094041674604512698,
    some 80118609935856562161688291176213143221676837718613089970639500335256596206461⟩

def secp256r1ThreeQuarters : EcpPoint :=
  ⟨72216498357248373595617342608847000072492301172688896747689180819680288815740,
    70234413568882346745716667123269930481510578941496790189270509323975897506999,
    some 11923175345935461418803465952284884858045243789624088257357821660947428358899⟩

/-- The remainder of `x^P-x` by `x^3-3x+B`, and the factors that show both to be coprime. -/
def secp256r1Remainder : Quadratic :=
  ⟨0x92E088642D3312C097D5943A147B76E7B494E0924F03D682E5350A345A27381D,
    0x1B6B65E0DBA268D6BF72F99FBA65E1BF30F126868605E87E9D516F57EF5DD84B,
    0x368FBBCD696676A0341535E2F5C2448C25B58FB7587E14BE8D657AE5D2EC63F1⟩

def secp256r1Cofactor : Quadratic :=
  ⟨0xA969487079F1744798BF0DE6FDED091B66E9D328EB0645FE5D979D1339B7F47F,
    0xA4A08891884100C13323460107A8D28EEDE4387FA3E6E9BFEBEC9F6D72D0B5CC,
    0x4CDE11CF86CB876CD59CF0115813C55AF0ECD3CDA667D98BB9A347A56AA74A6D⟩

theorem secp256r1_certified : Certified 32 smallPrimes secp256r1Primes := by
  decide +kernel

theorem secp256r1_base : checkPubkey secp256r1 secp256r1.G = .ok () := by
  decide

/-- The four parts of the ladder, and `x^P`. -/
theorem secp256r1_runs :
    ladder secp256r1 setZero 64 (secp256r1.N/2^192) = secp256r1Quarter ∧
    ladder secp256r1 secp256r1Quarter 64 (secp256r1.N/2^128 % 2^64) = secp256r1Half ∧
    ladder secp256r1 secp256r1Half 64 (secp256r1.N/2^64 % 2^64) = secp256r1ThreeQuarters ∧
    (ladder secp256r1 secp256r1ThreeQuarters 64 (secp256r1.N % 2^64)).z = 0 ∧
    xPow secp256r1.P 3 (secp256r1.P-secp256r1.B) 256 secp256r1.P =
      ⟨secp256r1Remainder.c0, (secp256r1Remainder.c1+1) % secp256r1.P, secp256r1Remainder.c2⟩ := by
  decide +kernel

end UBoot.Ecp
