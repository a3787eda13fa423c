import UBoot.Ecdsa
import UBoot.EcpMul
import UBoot.PrimeOrderSignature

/-!
# What `mbedtls_ecdsa_verify` accepts

Verification is the test of the group, but for a digest that is 0 modulo the order, whose
signatures it refuses; what `mbedtls_ecdsa_sign` makes is accepted otherwise.
-/

set_option autoImplicit false

namespace UBoot.Ecp

open Mpi LittleEndian WeierstrassCurve.Affine PrimeOrderSignature

/-- The `x` of a point, modulo the order. -/
def xOf (g : EcpGroup) : g.curve.Point → Option (ZMod g.N)
  | .zero => none
  | .some x _ _ => some (x.val : ℕ)

theorem xOf_neg (g : EcpGroup) (P : g.curve.Point) : xOf g (-P) = xOf g P := by
  cases P <;> rfl

/-! ## The digest -/

theorem readBinary_range {buf : List UInt8} {x : ℤ} (h : readBinary buf = .ok x) :
    0 ≤ x ∧ x < 256^buf.length := by
  unfold readBinary at h
  dsimp only at h
  split_ifs at h
  obtain rfl := Except.ok.inj h
  refine ⟨Int.natCast_nonneg _, ?_⟩
  have hlt := ofLe_lt (buf.dropWhile (· = 0)).reverse
  rw [List.length_reverse] at hlt
  exact_mod_cast hlt.trans_le (Nat.pow_le_pow_right (by decide) (List.length_dropWhile_le _ _))

theorem readBinary_short {buf : List UInt8} (h : buf.length ≤ 40000) :
    readBinary buf = .ok (ofLe (buf.dropWhile (· = 0)).reverse) := by
  unfold readBinary charsToLimbs ciL
  have hle := List.length_dropWhile_le (· = (0 : UInt8)) buf
  dsimp only
  rw [if_neg]
  split_ifs <;> omega

theorem shiftR_nonneg {x : ℤ} (hx : 0 ≤ x) (n : ℕ) : shiftR x n = x/2^n := by
  unfold shiftR
  obtain ⟨m, rfl⟩ := Int.eq_ofNat_of_zero_le hx
  rw [Int.natAbs_natCast, Nat.shiftRight_eq_div_pow]
  rcases Nat.eq_zero_or_pos m with rfl | hpos
  · simp
  · rw [Int.sign_eq_one_of_pos (Int.natCast_pos.mpr hpos), one_mul]
    push_cast
    rfl

section Verify

variable {g : EcpGroup}

/-- The digest is cut to the length of the order and reduced. -/
theorem deriveMpi_range (hN : 1 < g.N) (hsize : g.nbits ≤ 320000) (buf : List UInt8) :
    ∃ e, deriveMpi g buf = .ok e ∧ 0 ≤ e ∧ e < g.N := by
  unfold deriveMpi
  dsimp only
  generalize huse : (if buf.length > (g.nbits+7)/8 then (g.nbits+7)/8 else buf.length) = useSize
  have hle : useSize ≤ (g.nbits+7)/8 ∧ useSize ≤ buf.length := by
    rw [← huse]
    split_ifs <;> omega
  have hlen : (buf.take useSize).length = useSize := by
    rw [List.length_take]
    omega
  have hread := readBinary_short (show (buf.take useSize).length ≤ 40000 by omega)
  obtain ⟨h0, hlt⟩ := readBinary_range hread
  rw [hlen] at hlt
  rw [hread]
  generalize (ofLe ((buf.take useSize).dropWhile (· = 0)).reverse : ℤ) = x at *
  refine ⟨_, rfl, ?_⟩
  have hbits : (2 : ℤ)^(g.nbits) ≤ 2*g.N := by
    have hpos : 0 < g.nbits := Nat.size_pos.mpr (by omega)
    have hlow := lower_bits (g := g) (by omega)
    rw [← Nat.sub_add_cancel hpos, pow_succ]
    simp only [Nat.succ_eq_add_one] at *
    linarith
  have hcut : ∀ y, y = (if useSize*8 > g.nbits then shiftR x (useSize*8-g.nbits) else x) →
      0 ≤ y ∧ y < 2^g.nbits := by
    rintro y rfl
    have hx : x < 2^(useSize*8) := by
      rw [Nat.mul_comm, pow_mul]
      exact hlt
    split_ifs with hgt
    · rw [shiftR_nonneg h0]
      refine ⟨Int.ediv_nonneg h0 (by positivity), ?_⟩
      apply Int.ediv_lt_of_lt_mul (by positivity)
      rw [← pow_add, Nat.add_sub_cancel' hgt.le]
      exact hx
    · exact ⟨h0, hx.trans_le (pow_le_pow_right₀ (by decide) (by omega))⟩
  obtain ⟨hy0, hylt⟩ := hcut _ rfl
  generalize (if useSize*8 > g.nbits then shiftR x (useSize*8-g.nbits) else x) = y at *
  split_ifs with hge
  · exact ⟨by omega, by omega⟩
  · exact ⟨hy0, by omega⟩

/-! ## Numbers modulo the order -/

section Order

variable [hN : Fact g.N.Prime]

theorem cast_ne_zero_of_range {r : ℤ} (h : 0 < r ∧ r < g.N) : (r : ZMod g.N) ≠ 0 := by
  rw [ne_eq, ZMod.intCast_zmod_eq_zero_iff_dvd]
  intro hdvd
  exact absurd (Int.le_of_dvd h.1 hdvd) (not_le.mpr h.2)

theorem invMod_order {s : ℤ} (h : (s : ZMod g.N) ≠ 0) :
    ∃ x, invMod s g.N = .ok x ∧ (x : ZMod g.N) = (s : ZMod g.N)⁻¹ := by
  have hspec := invMod_spec (Int.ofNat_lt.mpr hN.out.one_lt) s
  have hgcd : Int.gcd s g.N = 1 := by
    rw [Int.gcd_comm, ← Int.isCoprime_iff_gcd_eq_one,
      (Nat.prime_iff_prime_int.mp hN.out).coprime_iff_not_dvd]
    rwa [ne_eq, ZMod.intCast_zmod_eq_zero_iff_dvd] at h
  rw [if_pos hgcd] at hspec
  obtain ⟨x, hx, -, -, hmod⟩ := hspec
  refine ⟨x, hx, ?_⟩
  have hone := (ZMod.intCast_eq_intCast_iff (x*s) 1 g.N).mpr hmod
  rw [Int.cast_mul, Int.cast_one] at hone
  exact eq_inv_of_mul_eq_one_left hone

theorem emod_cast (m : ℤ) : m % g.N = ((m : ZMod g.N).val : ℤ) := by
  rw [← ZMod.val_intCast]

end Order

variable [hprime : Fact g.P.Prime]

variable (hg : Valid g) (hsize : g.nbits ≤ 320000)

include hg

theorem Valid.nsmul (Q : g.curve.Point) : g.N • Q = 0 := by
  rw [← natCast_zsmul]
  exact hg.order Q

/-- Steps 6 to 8: the sum of the points is tested for its `x`. -/
theorem sum_test {R : EcpPoint} {S : g.curve.Point} (hR : S = 0 ∧ R.z = 0 ∨ PointAt g R S) {r : ℤ}
    (hr : 0 < r ∧ r < g.N) :
    (if isZero R then .error .ecpVerifyFailed
      else do
        let X ← modMpi R.X g.N
        if X ≠ r then .error .ecpVerifyFailed else .ok () : Except Err Unit) =
      if xOf g S = some (r : ZMod g.N) then .ok () else .error .ecpVerifyFailed := by
  have hNpos : (0 : ℤ) < g.N := Int.natCast_pos.mpr hg.prime.pos
  rcases hR with ⟨rfl, hz⟩ | hR
  · have hzero : xOf g 0 ≠ some (r : ZMod g.N) := fun h => by cases h
    rw [isZero, hz, beq_self_eq_true, if_pos rfl, if_neg hzero]
  · have hnz : isZero R = false := by
      rw [isZero, EcpPoint.z, hR.2]
      rfl
    obtain ⟨⟨hred, -, hns, rfl⟩, -⟩ := hR
    have hval : ((R.X : ZMod g.P).val : ℤ) = R.X := by
      rw [ZMod.val_intCast]
      exact Int.emod_eq_of_lt hred.X.1 hred.X.2
    have hx : xOf g (.some (R.X : ZMod g.P) R.Y hns) = some (R.X : ZMod g.N) := by
      change some ((((R.X : ZMod g.P).val : ℕ) : ZMod g.N)) = _
      rw [← Int.cast_natCast, hval]
    have hcast : (some (R.X : ZMod g.N) = some (r : ZMod g.N)) = (R.X % g.N = r) := by
      rw [Option.some_inj, ZMod.intCast_eq_intCast_iff', Int.emod_eq_of_lt hr.1.le hr.2]
    rw [hnz, if_neg Bool.false_ne_true, modMpi_eq hNpos, hx]
    simp only [hcast, bind, Except.bind, ne_eq, ite_not]

include hsize

/-- Numbers in their range and a key on the curve: the digest 0 is refused, and otherwise the sum
of the group decides. -/
theorem ecdsaVerify_eq {cache : Option (ℕ → EcpPoint)} (hcache : Cached g cache)
    {G Q : g.curve.Point} (hG : PointAt g g.G G) {buf : List UInt8} {pt : EcpPoint}
    (hQ : PointAt g pt Q) {r s e : ℤ} (hr : 0 < r ∧ r < g.N) (hs : 0 < s ∧ s < g.N)
    (he : deriveMpi g buf = .ok e) :
    ecdsaVerify g cache buf pt r s = if e = 0 then .error .ecpInvalidKey
      else if xOf g (((e : ZMod g.N)*(s : ZMod g.N)⁻¹).val • G+
        ((r : ZMod g.N)*(s : ZMod g.N)⁻¹).val • Q) = some (r : ZMod g.N) then .ok ()
      else .error .ecpVerifyFailed := by
  have hN : Fact g.N.Prime := ⟨hg.prime⟩
  have hNpos : (0 : ℤ) < g.N := Int.natCast_pos.mpr hg.prime.pos
  have hr0 := cast_ne_zero_of_range hr
  have hs0 := cast_ne_zero_of_range hs
  obtain ⟨e', he', he0, helt⟩ := deriveMpi_range hg.prime.one_lt hsize buf
  obtain rfl : e = e' := Except.ok.inj (he.symm.trans he')
  obtain ⟨sInv, hinv, hsInv⟩ := invMod_order hs0
  have hu1 : e*sInv % g.N = (((e : ZMod g.N)*(s : ZMod g.N)⁻¹).val : ℤ) := by
    rw [emod_cast, Int.cast_mul, hsInv]
  have hu2 : r*sInv % g.N = (((r : ZMod g.N)*(s : ZMod g.N)⁻¹).val : ℤ) := by
    rw [emod_cast, Int.cast_mul, hsInv]
  have hu2pos : 0 < r*sInv % g.N := by
    rw [hu2, Int.natCast_pos, Nat.pos_iff_ne_zero, ne_eq, ZMod.val_eq_zero]
    exact mul_ne_zero hr0 (inv_ne_zero hs0)
  have hu1lt := Int.emod_lt_of_pos (e*sInv) hNpos
  have hu2lt := Int.emod_lt_of_pos (r*sInv) hNpos
  have hmul := muladd_spec hg hcache ⟨0, 0, none⟩ (e*sInv % g.N) (r*sInv % g.N) hG hQ
  unfold ecdsaVerify
  rw [if_neg (by omega), (checkPubkey_iff hg.smooth pt).mpr ⟨Q, hQ⟩, he, hinv]
  dsimp only [bind, Except.bind]
  rw [modMpi_eq hNpos, modMpi_eq hNpos]
  dsimp only
  by_cases hzero : e = 0
  · -- `u1` is 0, which is no private key
    rw [if_neg (by rw [hzero, zero_mul, Int.zero_emod]; omega)] at hmul
    rw [hmul, if_pos hzero]
  · have hu1pos : 0 < e*sInv % g.N := by
      rw [hu1, Int.natCast_pos, Nat.pos_iff_ne_zero, ne_eq, ZMod.val_eq_zero]
      exact mul_ne_zero (cast_ne_zero_of_range ⟨by omega, helt⟩) (inv_ne_zero hs0)
    rw [if_pos ⟨.inr ⟨hu1pos, hu1lt⟩, .inr ⟨hu2pos, hu2lt⟩⟩] at hmul
    obtain ⟨R, c, hrun, -, hR⟩ := hmul
    rw [hu1, hu2, natCast_zsmul, natCast_zsmul] at hR
    rw [hrun, if_neg hzero, ← sum_test hg hR hr]
    rfl

/-- A pair of numbers is accepted exactly if it is a signature of the digest in the group of the
curve under a public key that is a point of it, and the digest is not 0 modulo the order. -/
theorem ecdsaVerify_iff {cache : Option (ℕ → EcpPoint)} (hcache : Cached g cache)
    {G : g.curve.Point} (hG : PointAt g g.G G) (buf : List UInt8) (pt : EcpPoint) (r s : ℤ) :
    ecdsaVerify g cache buf pt r s = .ok () ↔
      (0 < r ∧ r < g.N) ∧ (0 < s ∧ s < g.N) ∧ ∃ Q, PointAt g pt Q ∧ ∃ e, deriveMpi g buf = .ok e ∧
        e ≠ 0 ∧ Accepts (xOf g) G Q (e : ZMod g.N) r s := by
  have hN : Fact g.N.Prime := ⟨hg.prime⟩
  by_cases hrange : r < 1 ∨ r ≥ g.N ∨ s < 1 ∨ s ≥ g.N
  · rw [ecdsaVerify, if_pos hrange]
    refine iff_of_false (by simp) ?_
    rintro ⟨hr, hs, -⟩
    omega
  have hr : 0 < r ∧ r < g.N := by omega
  have hs : 0 < s ∧ s < g.N := by omega
  by_cases hkey : ∃ Q, PointAt g pt Q
  · obtain ⟨Q, hQ⟩ := hkey
    obtain ⟨e, he, -⟩ := deriveMpi_range hg.prime.one_lt hsize buf
    rw [ecdsaVerify_eq hg hsize hcache hG hQ hr hs he]
    constructor
    · intro h
      split_ifs at h with hzero hx
      exact ⟨hr, hs, Q, hQ, e, he, hzero, cast_ne_zero_of_range hr, cast_ne_zero_of_range hs, hx⟩
    · rintro ⟨-, -, Q', hQ', e', he', hne, -, -, hx⟩
      obtain rfl : e = e' := Except.ok.inj (he.symm.trans he')
      rw [hQ'.unique hQ] at hx
      rw [if_neg hne, if_pos hx]
  · rw [ecdsaVerify, if_neg hrange]
    have hcheck : checkPubkey g pt ≠ .ok () := fun h => hkey ((checkPubkey_iff hg.smooth pt).mp h)
    cases hrun : checkPubkey g pt with
    | ok u => exact absurd hrun hcheck
    | error e =>
      refine iff_of_false (fun h => by cases h) ?_
      rintro ⟨-, -, Q, hQ, -⟩
      exact hkey ⟨Q, hQ⟩

/-- With a signature its counterpart is accepted, too. -/
theorem ecdsaVerify_negated {cache : Option (ℕ → EcpPoint)} (hcache : Cached g cache)
    {buf : List UInt8} {pt : EcpPoint} {r s : ℤ} (h : ecdsaVerify g cache buf pt r s = .ok ()) :
    ecdsaVerify g cache buf pt r (g.N-s) = .ok () := by
  have hN : Fact g.N.Prime := ⟨hg.prime⟩
  obtain ⟨G, hG⟩ := (checkPubkey_iff hg.smooth g.G).mp hg.base
  rw [ecdsaVerify_iff hg hsize hcache hG] at h ⊢
  obtain ⟨hr, hs, Q, hQ, e, he, hne, haccepts⟩ := h
  refine ⟨hr, ⟨by omega, by omega⟩, Q, hQ, e, he, hne, ?_⟩
  rw [Int.cast_sub, Int.cast_natCast, ZMod.natCast_self, zero_sub]
  exact haccepts.neg (Valid.nsmul hg) (xOf_neg g)

omit hprime hg hsize in
theorem ecdsaVerify_negated_eleven : ecdsaVerify elevenPoints none [0x50] ⟨2, 6, some 1⟩ 4 10 = .ok () :=
  ecdsaVerify_negated elevenPoints_valid (by decide) (cached_none elevenPoints)
    (show ecdsaVerify elevenPoints none [0x50] ⟨2, 6, some 1⟩ 4 1 = .ok () by decide)

/-! ## Signing -/

omit hprime hg hsize in
theorem drawNumber_spec {rng : Rng} {tries i j : ℕ} {d : ℤ}
    (h : drawNumber g rng tries i = .ok (d, j)) : 0 < d ∧ d < g.N := by
  induction tries generalizing i with
  | zero => cases h
  | succ tries ih =>
    unfold drawNumber at h
    dsimp only at h
    cases hread : readBinary (rng i ((g.nbits+7)/8)) with
    | error e =>
      rw [hread] at h
      cases h
    | ok x =>
      rw [hread] at h
      dsimp only [bind, Except.bind] at h
      split_ifs at h with htries hrange
      · exact ih h
      · obtain ⟨rfl, -⟩ := Prod.mk.inj (Except.ok.inj h)
        omega

omit hprime hg hsize in
theorem shiftBelow_spec {P : ℕ} (hP : 0 < P) (fuel : ℕ) {l : ℤ} (h0 : 0 ≤ l) (hfuel : l ≤ fuel) :
    shiftBelow P fuel l < P := by
  induction fuel generalizing l with
  | zero =>
    rw [shiftBelow]
    omega
  | succ fuel ih =>
    rw [shiftBelow]
    split_ifs with hge
    · rw [shiftR_nonneg h0, pow_one]
      exact ih (by omega) (by omega)
    · omega

omit hg hsize in
theorem drawFactor_spec {rng : Rng} {tries i j : ℕ} {l : ℤ}
    (h : drawFactor g rng tries i = .ok (l, j)) : 0 < l ∧ l < g.P := by
  induction tries generalizing i with
  | zero => cases h
  | succ tries ih =>
    unfold drawFactor at h
    cases hread : readBinary (rng i ((g.P.size+7)/8)) with
    | error e =>
      rw [hread] at h
      cases h
    | ok x =>
      rw [hread] at h
      dsimp only [bind, Except.bind] at h
      split_ifs at h with htries hone
      · exact ih h
      · obtain ⟨rfl, -⟩ := Prod.mk.inj (Except.ok.inj h)
        obtain ⟨h0, -⟩ := readBinary_range hread
        exact ⟨by omega, shiftBelow_spec hprime.out.pos _ h0 (by omega)⟩

omit hsize in
theorem genKeypair_spec {rng : Rng} {cache c : Option (ℕ → EcpPoint)} (hcache : Cached g cache)
    {G : g.curve.Point} (hG : PointAt g g.G G) {i j : ℕ} {k : ℤ} {R : EcpPoint}
    (h : genKeypair g rng cache i = .ok (k, R, c, j)) :
    (0 < k ∧ k < g.N) ∧ PointAt g R (k • G) ∧ Cached g c := by
  unfold genKeypair at h
  cases hnum : drawNumber g rng 31 i with
  | error e =>
    rw [hnum] at h
    cases h
  | ok d =>
    obtain ⟨d, i'⟩ := d
    have hd := drawNumber_spec hnum
    rw [hnum] at h
    dsimp only [bind, Except.bind] at h
    cases hfac : drawFactor g rng 12 i' with
    | error e =>
      rw [hfac] at h
      cases h
    | ok l =>
      obtain ⟨l, i''⟩ := l
      have hl := drawFactor_spec hfac
      rw [hfac] at h
      have hmul := ecpMul_spec hg hcache ⟨0, 0, none⟩ d hG (l := some l) (by
        intro n hn
        obtain rfl : l = n := Option.some.inj hn
        exact hl)
      rw [if_pos hd] at hmul
      obtain ⟨r, c', hrun, hr, hc⟩ := hmul
      dsimp only at h
      rw [hrun] at h
      simp only [Except.ok.injEq, Prod.mk.injEq] at h
      obtain ⟨rfl, rfl, rfl, -⟩ := h
      exact ⟨hd, hr, hc⟩

omit hsize in
theorem ephemeralKey_spec {rng : Rng} {tries : ℕ} {cache c : Option (ℕ → EcpPoint)}
    (hcache : Cached g cache) {G : g.curve.Point} (hG : PointAt g g.G G) {i j : ℕ} {k r : ℤ}
    (h : ephemeralKey g rng tries cache i = .ok (k, r, c, j)) :
    (0 < k ∧ k < g.N) ∧ (0 < r ∧ r < g.N) ∧ xOf g (k • G) = some (r : ZMod g.N) ∧ Cached g c := by
  have hNpos : (0 : ℤ) < g.N := Int.natCast_pos.mpr hg.prime.pos
  induction tries generalizing cache i with
  | zero => cases h
  | succ tries ih =>
    unfold ephemeralKey at h
    cases hgen : genKeypair g rng cache i with
    | error e =>
      rw [hgen] at h
      cases h
    | ok v =>
      obtain ⟨k', R, c', i'⟩ := v
      obtain ⟨hk, hR, hc⟩ := genKeypair_spec hg hcache hG hgen
      rw [hgen] at h
      dsimp only [bind, Except.bind] at h
      rw [modMpi_eq hNpos] at h
      dsimp only at h
      split_ifs at h with htries hzero
      · exact ih hc h
      · simp only [Except.ok.injEq, Prod.mk.injEq] at h
        obtain ⟨rfl, rfl, rfl, -⟩ := h
        have hlt := Int.emod_lt_of_pos R.X hNpos
        have hnonneg := Int.emod_nonneg R.X hNpos.ne'
        refine ⟨hk, ⟨by omega, hlt⟩, ?_, hc⟩
        obtain ⟨⟨hred, -, hns, hsum⟩, -⟩ := hR
        rw [hsum]
        change some ((((R.X : ZMod g.P).val : ℕ) : ZMod g.N)) = _
        have hval : ((R.X : ZMod g.P).val : ℤ) = R.X := by
          rw [ZMod.val_intCast]
          exact Int.emod_eq_of_lt hred.X.1 hred.X.2
        rw [← Int.cast_natCast, hval, ZMod.intCast_mod]

/-- What signing makes is a signature of the group. -/
theorem signTries_spec {rng : Rng} {d : ℤ} {buf : List UInt8} {tries : ℕ}
    {cache : Option (ℕ → EcpPoint)} (hcache : Cached g cache) {G : g.curve.Point}
    (hG : PointAt g g.G G) {i : ℕ} {r s : ℤ} (h : signTries g rng d buf tries cache i = .ok (r, s)) :
    (0 < r ∧ r < g.N) ∧ (0 < s ∧ s < g.N) ∧ ∃ k e : ℤ, deriveMpi g buf = .ok e ∧
      Signs (xOf g) G (d : ZMod g.N) k e r s := by
  have hN : Fact g.N.Prime := ⟨hg.prime⟩
  have hNpos : (0 : ℤ) < g.N := Int.natCast_pos.mpr hg.prime.pos
  obtain ⟨e, he, -⟩ := deriveMpi_range hg.prime.one_lt hsize buf
  induction tries generalizing cache i with
  | zero => cases h
  | succ tries ih =>
    unfold signTries at h
    cases hkey : ephemeralKey g rng 12 cache i with
    | error e =>
      rw [hkey] at h
      cases h
    | ok v =>
      obtain ⟨k, r', c, i'⟩ := v
      obtain ⟨hk, hr, hx, hc⟩ := ephemeralKey_spec hg hcache hG hkey
      rw [hkey] at h
      dsimp only [bind, Except.bind] at h
      rw [he] at h
      dsimp only at h
      cases hblind : drawNumber g rng 31 i' with
      | error e =>
        rw [hblind] at h
        cases h
      | ok v =>
        obtain ⟨t, i''⟩ := v
        have ht := drawNumber_spec hblind
        rw [hblind] at h
        dsimp only at h
        have hk0 := cast_ne_zero_of_range hk
        have ht0 := cast_ne_zero_of_range ht
        obtain ⟨inv, hrun, hinv⟩ := invMod_order (g := g) (s := k*t) (by
          rw [Int.cast_mul]
          exact mul_ne_zero hk0 ht0)
        rw [hrun] at h
        dsimp only at h
        rw [modMpi_eq hNpos] at h
        dsimp only at h
        split_ifs at h with htries hzero
        · exact ih hc h
        · obtain ⟨rfl, rfl⟩ := Prod.mk.inj (Except.ok.inj h)
          have hlt := Int.emod_lt_of_pos (inv*((e+r'*d)*t)) hNpos
          have hnonneg := Int.emod_nonneg (inv*((e+r'*d)*t)) hNpos.ne'
          have hs : 0 < inv*((e+r'*d)*t) % g.N ∧ inv*((e+r'*d)*t) % g.N < g.N := ⟨by omega, hlt⟩
          refine ⟨hr, hs, k, e, he, ⟨hk0, ?_, ?_, cast_ne_zero_of_range hr, cast_ne_zero_of_range hs⟩⟩
          · rw [intCast_val_smul (Valid.nsmul hg)]
            exact hx
          · rw [ZMod.intCast_mod]
            push_cast at hinv ⊢
            rw [hinv]
            field_simp

/-- What is signed with a private key is verified under its public key, but for the digest 0. -/
theorem ecdsaSign_verified {cache cache' : Option (ℕ → EcpPoint)} (hcache : Cached g cache)
    (hcache' : Cached g cache') {G : g.curve.Point} (hG : PointAt g g.G G) {d : ℤ}
    {pt : EcpPoint} (hpt : PointAt g pt (d • G)) {buf : List UInt8} {rng : Rng} {r s : ℤ}
    (h : ecdsaSign g cache d buf rng = .ok (r, s)) :
    ecdsaVerify g cache' buf pt r s =
      if deriveMpi g buf = .ok 0 then .error .ecpInvalidKey else .ok () := by
  have hN : Fact g.N.Prime := ⟨hg.prime⟩
  obtain ⟨hr, hs, k, e, he, hsigns⟩ := signTries_spec hg hsize hcache hG h
  have haccepts := hsigns.accepts (Valid.nsmul hg)
  rw [intCast_val_smul (Valid.nsmul hg)] at haccepts
  rw [ecdsaVerify_eq hg hsize hcache' hG hpt hr hs he, if_pos haccepts.2.2, he]
  simp only [Except.ok.injEq]

omit hprime hg hsize in
/-- The private key 3, with random bytes that are the same within a call. -/
theorem ecdsaSign_verified_eleven :
    ecdsaVerify elevenPoints none [0x50] ⟨2, 6, some 1⟩ 4 1 =
      if deriveMpi elevenPoints [0x50] = .ok 0 then .error .ecpInvalidKey else .ok () := by
  obtain ⟨G, hG⟩ := (checkPubkey_iff elevenPoints_smooth elevenPoints.G).mp elevenPoints_valid.base
  have hmul := ecpMul_spec elevenPoints_valid (cached_none elevenPoints) setZero 3 hG (l := none)
    (by simp)
  rw [if_pos (by decide)] at hmul
  obtain ⟨pt, c, hrun, hpt, -⟩ := hmul
  have hkey : (ecpMul elevenPoints none setZero 3 elevenPoints.G none).map Prod.fst =
      .ok ⟨2, 6, some 1⟩ := by decide
  rw [hrun] at hkey
  obtain rfl : pt = ⟨2, 6, some 1⟩ := Except.ok.inj hkey
  exact ecdsaSign_verified elevenPoints_valid (by decide) (cached_none elevenPoints)
    (cached_none elevenPoints) hG hpt
    (show ecdsaSign elevenPoints none 3 [0x50]
      (fun i n => List.replicate n (UInt8.ofNat (0x35+16*i))) = .ok (4, 1) by decide)

end Verify

end UBoot.Ecp
