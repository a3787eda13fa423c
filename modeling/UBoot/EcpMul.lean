import UBoot.EcpDomain
import UBoot.EcpTable

/-!
# Multiples and sums of points: `mbedtls_ecp_mul` and `mbedtls_ecp_muladd`

Over a curve whose points have a prime order, the comb computes the multiple of the group,
and numbers out of the range of private keys are refused.
-/

set_option autoImplicit false

namespace UBoot.Ecp

open Mpi WeierstrassCurve.Affine CombDigits

section Mul

/-- The table that is kept for the base point. -/
def Cached (g : EcpGroup) [Fact g.P.Prime] (cache : Option (ℕ → EcpPoint)) : Prop :=
  ∀ T ∈ cache, ∀ Q, AffineAt g g.G Q →
    Table g (window g true) (columns g (window g true)) T Q

variable {g : EcpGroup} [hprime : Fact g.P.Prime]

/-- The negative in Jacobian coordinates. -/
theorem safeInvertJac_stands {pt : EcpPoint} {Q : g.curve.Point} (hpt : Reduced g pt)
    (hQ : Stands g pt Q) (inv : Bool) :
    Reduced g (safeInvertJac g pt inv) ∧
      Stands g (safeInvertJac g pt inv) (if inv then -Q else Q) := by
  cases inv with
  | false => exact ⟨hpt, hQ⟩
  | true =>
    rw [if_pos rfl]
    have hlow := hpt.Y.1
    have hhigh := hpt.Y.2
    by_cases h0 : pt.Y = 0
    · have hsame : safeInvertJac g pt true = pt := by
        unfold safeInvertJac
        simp [h0]
      rw [hsame]
      refine ⟨hpt, ?_⟩
      cases Q with
      | zero => exact hQ
      | some x y h =>
        obtain ⟨hz, hx, hy⟩ := hQ
        rw [Point.neg_some]
        refine ⟨hz, hx, ?_⟩
        rw [negY_eq, neg_mul, hy, h0, Int.cast_zero, neg_zero]
    · have hsame : safeInvertJac g pt true = { pt with Y := g.P-pt.Y } := by
        unfold safeInvertJac
        simp [bne_iff_ne.mpr h0]
      rw [hsame]
      refine ⟨⟨hpt.X, ⟨by dsimp only; omega, by dsimp only; omega⟩, hpt.z⟩, ?_⟩
      cases Q with
      | zero => exact hQ
      | some x y h =>
        obtain ⟨hz, hx, hy⟩ := hQ
        rw [Point.neg_some]
        refine ⟨hz, hx, ?_⟩
        change g.curve.negY x y*(pt.z : ZMod g.P)^3 = ((g.P-pt.Y : ℤ) : ZMod g.P)
        rw [negY_eq, neg_mul, hy, Int.cast_sub, Int.cast_natCast, ZMod.natCast_self, zero_sub]

variable (hg : Valid g)

include hg

/-- The table is the kept one or a new one, and is right. -/
theorem combTable_spec {cache : Option (ℕ → EcpPoint)} (hcache : Cached g cache) {pt : EcpPoint}
    {Q : g.curve.Point} (hpt : PointAt g pt Q) {pEqG : Bool}
    (hpG : pEqG = (pt.Y == g.G.Y && pt.X == g.G.X)) :
    ∃ T, combTable g cache pEqG pt (window g pEqG) (columns g (window g pEqG)) = .ok T ∧
      Table g (window g pEqG) (columns g (window g pEqG)) T Q ∧
      Cached g (if pEqG then some T else cache) := by
  have hN : Fact g.N.Prime := ⟨hg.prime⟩
  have hw := window_range (g := g) pEqG
  have hsmall := hg.small pEqG
  have hfull : 0 ≤ full (window g pEqG) (columns g (window g pEqG)) :=
    Finset.sum_nonneg fun l _ => by positivity
  obtain ⟨T, hrun, hT⟩ := precomputeComb_spec hpt.1.ne_zero (hg.order Q) hg.odd hw.1
    (by omega : full (window g pEqG) (columns g (window g pEqG)) < g.N) hpt.1 hpt.2
  unfold combTable
  cases pEqG with
  | false => exact ⟨T, hrun, hT, hcache⟩
  | true =>
    obtain ⟨hY, hX⟩ := Bool.and_eq_true_iff.mp hpG.symm
    obtain ⟨QG, hQG⟩ := (checkPubkey_iff hg.smooth g.G).mp hg.base
    have hpoint : pt = g.G := by
      have hZ := hpt.2.trans hQG.2.symm
      cases pt
      cases hGeq : g.G
      rw [hGeq] at hY hX hZ
      simp only [beq_iff_eq] at hY hX hZ
      rw [hY, hX, hZ]
    rw [if_pos rfl]
    cases cache with
    | some T => exact ⟨T, rfl, hcache T rfl Q (hpoint ▸ hpt.1), hcache⟩
    | none =>
      refine ⟨T, hrun, hT, ?_⟩
      intro T' hT' Q' hQ'
      obtain rfl : T = T' := Option.some.inj hT'
      rw [← hpoint] at hQ'
      obtain ⟨-, -, h1, rfl⟩ := hQ'
      obtain ⟨-, -, h2, rfl⟩ := hpt.1
      exact hT

/-- `ecp_mul_comb` -/
theorem mulComb_spec {cache : Option (ℕ → EcpPoint)} (hcache : Cached g cache) (R : EcpPoint)
    {m : ℤ} (hm : 0 < m ∧ m < g.N) {pt : EcpPoint} {Q : g.curve.Point} (hpt : PointAt g pt Q)
    {l : Option ℤ} (hl : ∀ n ∈ l, 0 < n ∧ n < g.P) :
    ∃ r c, mulComb g cache R m pt l = .ok (r, c) ∧ PointAt g r (m • Q) ∧ Cached g c := by
  have hN : Fact g.N.Prime := ⟨hg.prime⟩
  have hoddN : g.N % 2 = 1 := hg.prime.eq_two_or_odd.resolve_left hg.odd
  obtain ⟨T, hrun, hT, hc⟩ := combTable_spec hg hcache hpt rfl
  have hw := window_range (g := g) (pt.Y == g.G.Y && pt.X == g.G.X)
  have hsmall := hg.small (pt.Y == g.G.Y && pt.X == g.G.X)
  have hbit : getBit g.N 0 = 1 := by
    rw [getBit, Int.natAbs_natCast, Nat.testBit_zero, hoddN]
    rfl
  have hmbit : (getBit m 0 == 1) = decide (m % 2 = 1) := by
    rw [getBit, Nat.testBit_zero]
    have hparity : m.natAbs % 2 = 1 ↔ m % 2 = 1 := by omega
    by_cases h : m % 2 = 1
    · simp [hparity.mpr h, h]
    · simp [hparity.not.mpr h, h]
  unfold mulComb
  rw [if_neg (not_not.mpr hbit)]
  dsimp only at hrun hT hc ⊢
  rw [hrun, hmbit]
  generalize (pt.Y == g.G.Y && pt.X == g.G.X) = pEqG at *
  have hNpos := hg.prime.one_lt
  have hd := columns_pos (g := g) (by omega : 0 < window g pEqG) hNpos
  have hfit := columns_fit (g := g) (by omega : 0 < window g pEqG)
  have hcore : ∀ M : ℤ, 0 < M ∧ M < g.N → M % 2 = 1 → ∃ r,
      mulCombCore g R T (2^(window g pEqG-1)) (combFixed (columns g (window g pEqG))
        (window g pEqG) M) (columns g (window g pEqG)) l = .ok r ∧ Reduced g r ∧
        Stands g r (M • Q) := fun M hM hodd =>
    mulCombCore_spec hpt.1.ne_zero (hg.order Q) ⟨by omega, by omega⟩ hd hg.odd hfit.le hsmall hM
      hodd hT R hl
  have hne : m • Q ≠ 0 := multiple_ne_zero hpt.1.ne_zero (hg.order Q) hm.1 hm.2
  suffices h : ∃ r, mulCombCore g R T (2^(window g pEqG-1)) (combFixed (columns g (window g pEqG))
      (window g pEqG) (if decide (m % 2 = 1) then m else g.N-m)) (columns g (window g pEqG)) l =
        .ok r ∧ Reduced g (safeInvertJac g r (!decide (m % 2 = 1))) ∧
        Stands g (safeInvertJac g r (!decide (m % 2 = 1))) (m • Q) by
    obtain ⟨r, hcomb, hr, hs⟩ := h
    obtain ⟨r', hnorm, hr', -, hzero | ⟨hone, haff⟩⟩ := normalizeJac_spec g hr hs
    · exact absurd hzero.1 hne
    · refine ⟨r', if pEqG then some T else cache, ?_, ⟨⟨hr', .inr hone, ?_⟩, hone⟩, hc⟩
      · change ((mulCombCore g R T (2^(window g pEqG-1)) (combFixed (columns g (window g pEqG))
          (window g pEqG) (if decide (m % 2 = 1) then m else g.N-m)) (columns g (window g pEqG)) l)
            >>= _) = _
        rw [hcomb]
        change (normalizeJac g (safeInvertJac g r (!decide (m % 2 = 1))) >>= _) = _
        rw [hnorm]
        rfl
      · rcases haff with ⟨hz, -⟩ | haff
        · rw [hone] at hz
          cases hz
        · exact haff.2
  by_cases hodd : m % 2 = 1
  · rw [decide_eq_true hodd, if_pos rfl]
    exact hcore m hm hodd
  · rw [decide_eq_false hodd, if_neg Bool.false_ne_true]
    obtain ⟨r, hcomb, hr, hs⟩ := hcore (g.N-m) ⟨by omega, by omega⟩ (by omega)
    obtain ⟨hr', hs'⟩ := safeInvertJac_stands hr hs true
    rw [if_pos rfl, sub_zsmul, hg.order Q, zero_add, neg_neg] at hs'
    exact ⟨r, hcomb, hr', hs'⟩

/-- The multiple of the group, for the numbers that are private keys. -/
theorem ecpMul_spec {cache : Option (ℕ → EcpPoint)} (hcache : Cached g cache) (R : EcpPoint)
    (m : ℤ) {pt : EcpPoint} {Q : g.curve.Point} (hpt : PointAt g pt Q)
    {l : Option ℤ} (hl : ∀ n ∈ l, 0 < n ∧ n < g.P) :
    if 0 < m ∧ m < g.N then
      ∃ r c, ecpMul g cache R m pt l = .ok (r, c) ∧ PointAt g r (m • Q) ∧ Cached g c
    else ecpMul g cache R m pt l = .error .ecpInvalidKey := by
  have hz : pt.z = 1 := by
    rw [EcpPoint.z, hpt.2]
    rfl
  have hcheck := (checkPubkey_iff hg.smooth pt).mpr ⟨Q, hpt⟩
  unfold ecpMul
  rw [if_neg (not_not.mpr hz), checkPrivkey_eq, hcheck]
  split_ifs with hm
  · exact mulComb_spec hg hcache R hm hpt hl
  · rfl

/-- The shortcuts for 1 and -1. -/
theorem mulShortcuts_spec {cache : Option (ℕ → EcpPoint)} (hcache : Cached g cache) (R : EcpPoint)
    (m : ℤ) {pt : EcpPoint} {Q : g.curve.Point} (hpt : PointAt g pt Q) :
    if m = -1 ∨ 0 < m ∧ m < g.N then
      ∃ r c, mulShortcuts g cache R m pt = .ok (r, c) ∧ PointAt g r (m • Q) ∧ Cached g c
    else mulShortcuts g cache R m pt = .error .ecpInvalidKey := by
  have hone := hg.prime.one_lt
  unfold mulShortcuts
  by_cases h1 : m = 1
  · subst h1
    rw [if_pos (by omega), if_pos rfl, one_zsmul]
    exact ⟨pt, cache, rfl, hpt, hcache⟩
  rw [if_neg h1]
  by_cases hneg : m = -1
  · subst hneg
    rw [if_pos (.inl rfl), if_pos rfl, neg_one_zsmul]
    have haff := safeInvertJac_affine hpt.1 true
    rw [if_pos rfl] at haff
    have hsame : safeInvertJac g pt true = if pt.Y ≠ 0 then { pt with Y := g.P-pt.Y } else pt := by
      unfold safeInvertJac
      simp
    rw [hsame] at haff
    refine ⟨_, cache, rfl, ⟨haff, ?_⟩, hcache⟩
    split_ifs <;> exact hpt.2
  · rw [if_neg hneg]
    have hmul := ecpMul_spec hg hcache R m hpt (l := none) (by simp)
    simp only [hneg, false_or]
    exact hmul

/-- `mbedtls_ecp_muladd` computes `m P+n Q`, the point at infinity included. -/
theorem muladd_spec {cache : Option (ℕ → EcpPoint)} (hcache : Cached g cache) (R : EcpPoint)
    (m n : ℤ) {pt qt : EcpPoint} {P Q : g.curve.Point} (hpt : PointAt g pt P)
    (hqt : PointAt g qt Q) :
    if (m = -1 ∨ 0 < m ∧ m < g.N) ∧ (n = -1 ∨ 0 < n ∧ n < g.N) then
      ∃ r c, muladd g cache R m pt n qt = .ok (r, c) ∧ Cached g c ∧
        (m • P+n • Q = 0 ∧ r.z = 0 ∨ PointAt g r (m • P+n • Q))
    else muladd g cache R m pt n qt = .error .ecpInvalidKey := by
  have hmP := mulShortcuts_spec hg hcache ⟨0, 0, none⟩ m hpt
  unfold muladd
  by_cases hm : m = -1 ∨ 0 < m ∧ m < g.N
  · rw [if_pos hm] at hmP
    obtain ⟨rP, cP, hrunP, hP, hcP⟩ := hmP
    have hnQ := mulShortcuts_spec hg hcP R n hqt
    rw [hrunP]
    dsimp only [bind, Except.bind]
    by_cases hn : n = -1 ∨ 0 < n ∧ n < g.N
    · rw [if_pos hn] at hnQ
      rw [if_pos ⟨hm, hn⟩]
      obtain ⟨rQ, cQ, hrunQ, hQ, hcQ⟩ := hnQ
      rw [hrunQ]
      obtain ⟨r, hadd, hs, hr⟩ := addMixed_stands g hP.1.1 hQ.1.1 hP.stands hQ.1.affine
        (fun hnone => by rw [hQ.2] at hnone; cases hnone)
      dsimp only
      rw [hadd]
      obtain ⟨r', hnorm, hr', -, hzero | ⟨hone, haff⟩⟩ := normalizeJac_spec g hr hs
      · exact ⟨r', cQ, by dsimp only; rw [hnorm], hcQ, .inl hzero⟩
      · refine ⟨r', cQ, by dsimp only; rw [hnorm], hcQ, .inr ⟨⟨hr', .inr hone, ?_⟩, hone⟩⟩
        rcases haff with ⟨hz, -⟩ | haff
        · rw [hone] at hz
          cases hz
        · exact haff.2
    · rw [if_neg hn] at hnQ
      rw [if_neg fun h => hn h.2, hnQ]
  · rw [if_neg hm] at hmP
    rw [if_neg fun h => hm h.1, hmP]
    rfl

/-! ## Calls one after the other -/

/-- A call of `mbedtls_ecp_mul`, with what the random numbers give. -/
structure MulCall where
  R : EcpPoint
  m : ℤ
  P : EcpPoint
  l : Option ℤ

omit hprime hg in
/-- The results of calls on one group, which keeps its table. -/
@[grind]
def mulCalls (g : EcpGroup) : Option (ℕ → EcpPoint) → List MulCall → List (Except Err EcpPoint)
  | _, [] => []
  | cache, c :: cs =>
    match ecpMul g cache c.R c.m c.P c.l with
    | .error e => .error e :: mulCalls g cache cs
    | .ok (r, cache) => .ok r :: mulCalls g cache cs

omit hg in
/-- The multiple of a point of the curve by a private key, and an error elsewhere. -/
def Answers (g : EcpGroup) [Fact g.P.Prime] (c : MulCall) (result : Except Err EcpPoint) : Prop :=
  (0 < c.m ∧ c.m < g.N → ∀ Q, PointAt g c.P Q → ∃ r, result = .ok r ∧ PointAt g r (c.m • Q)) ∧
    (¬(0 < c.m ∧ c.m < g.N) ∨ ¬(∃ Q, PointAt g c.P Q) → ∃ e, result = .error e)

theorem ecpMul_refused (cache : Option (ℕ → EcpPoint)) {c : MulCall}
    (h : ¬(0 < c.m ∧ c.m < g.N) ∨ ¬(∃ Q, PointAt g c.P Q)) :
    ∃ e, ecpMul g cache c.R c.m c.P c.l = .error e := by
  unfold ecpMul
  by_cases hz : c.P.z ≠ 1
  · exact ⟨_, if_pos hz⟩
  rw [if_neg hz, checkPrivkey_eq]
  split_ifs with hm
  · have hcheck : checkPubkey g c.P ≠ .ok () := fun hok =>
      h.resolve_left (not_not.mpr hm) ((checkPubkey_iff hg.smooth c.P).mp hok)
    cases hrun : checkPubkey g c.P with
    | ok u => exact absurd hrun hcheck
    | error e => exact ⟨e, rfl⟩
  · exact ⟨_, rfl⟩

/-- In any sequence of calls every one gets its multiple: neither the table that an earlier call
left nor random coordinates nor what the result held before count. -/
theorem mulCalls_answered {cache : Option (ℕ → EcpPoint)} (hcache : Cached g cache)
    (calls : List MulCall) (hl : ∀ c ∈ calls, ∀ n ∈ c.l, 0 < n ∧ n < g.P) :
    List.Forall₂ (Answers g) calls (mulCalls g cache calls) := by
  induction calls generalizing cache with
  | nil => exact .nil
  | cons c cs ih =>
    have hrest := fun {cache} (h : Cached g cache) =>
      ih h fun c' hc' => hl c' (List.mem_cons_of_mem c hc')
    rw [mulCalls]
    by_cases hgood : (0 < c.m ∧ c.m < g.N) ∧ ∃ Q, PointAt g c.P Q
    · obtain ⟨hm, Q, hQ⟩ := hgood
      have hmul := ecpMul_spec hg hcache c.R c.m hQ (hl c List.mem_cons_self)
      rw [if_pos hm] at hmul
      obtain ⟨r, cache', hrun, hr, hc⟩ := hmul
      rw [hrun]
      refine .cons ⟨fun _ Q' hQ' => ⟨r, rfl, ?_⟩, ?_⟩ (hrest hc)
      · rwa [hQ'.unique hQ]
      · rintro (h | h)
        · exact absurd hm h
        · exact absurd ⟨Q, hQ⟩ h
    · have hbad : ¬(0 < c.m ∧ c.m < g.N) ∨ ¬(∃ Q, PointAt g c.P Q) := not_and_or.mp hgood
      obtain ⟨e, hrun⟩ := ecpMul_refused hg cache hbad
      rw [hrun]
      refine .cons ⟨fun hm Q hQ => absurd ⟨hm, Q, hQ⟩ hgood, fun _ => ⟨e, rfl⟩⟩ (hrest hcache)

omit hg in
theorem cached_none (g : EcpGroup) [Fact g.P.Prime] : Cached g none := fun T hT => by cases hT

omit hprime hg in
/-- The base point by 2, twice, the second time blinded. -/
theorem mulCalls_answered_twice :
    List.Forall₂ (Answers elevenPoints)
      [⟨setZero, 2, elevenPoints.G, none⟩, ⟨setZero, 2, elevenPoints.G, some 3⟩]
      (mulCalls elevenPoints none
        [⟨setZero, 2, elevenPoints.G, none⟩, ⟨setZero, 2, elevenPoints.G, some 3⟩]) :=
  mulCalls_answered elevenPoints_valid (cached_none elevenPoints)
    [⟨setZero, 2, elevenPoints.G, none⟩, ⟨setZero, 2, elevenPoints.G, some 3⟩] (by
      intro c hc n hn
      rcases List.mem_pair.mp hc with rfl | rfl
      · cases hn
      · obtain rfl : 3 = n := Option.some.inj hn
        decide)

omit hg in
/-- Points with the same coordinates modulo `P`. -/
theorem PointAt.eq {pt qt : EcpPoint} {Q : g.curve.Point} (hpt : PointAt g pt Q)
    (hqt : PointAt g qt Q) : pt = qt := by
  obtain ⟨⟨hr, -, h1, rfl⟩, hz⟩ := hpt
  obtain ⟨⟨hr', -, h2, heq⟩, hz'⟩ := hqt
  obtain ⟨hX, hY⟩ := (Point.some.injEq _ _ _ _ _ _).mp heq
  rw [ZMod.intCast_eq_intCast_iff'] at hX hY
  rw [Int.emod_eq_of_lt hr.X.1 hr.X.2, Int.emod_eq_of_lt hr'.X.1 hr'.X.2] at hX
  rw [Int.emod_eq_of_lt hr.Y.1 hr.Y.2, Int.emod_eq_of_lt hr'.Y.1 hr'.Y.2] at hY
  cases pt
  cases qt
  simp_all

end Mul

end UBoot.Ecp
