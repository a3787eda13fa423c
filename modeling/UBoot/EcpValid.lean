import UBoot.EcpComb

/-!
# Groups of points that `lib/mbedtls/ecp.c` can compute in

A smooth curve with a prime order and a base point on it, whose order leaves the sums of the
comb room. A public key is checked to be a point of the curve.
-/

set_option autoImplicit false

namespace UBoot.Ecp

open Mpi WeierstrassCurve.Affine CombDigits

section Valid

variable (g : EcpGroup) [hprime : Fact g.P.Prime]

/-- A curve that the group can be loaded with: smooth, of prime order, with a base point on it,
and so large that no sum of the comb meets the point at infinity. -/
structure Valid : Prop where
  smooth : g.curve.Δ ≠ 0
  prime : g.N.Prime
  odd : g.N ≠ 2
  order : ∀ Q : g.curve.Point, (g.N : ℤ) • Q = 0
  base : checkPubkey g g.G = .ok ()
  small : ∀ pEqG, 2*full (window g pEqG) (columns g (window g pEqG)) < g.N

/-- Affine coordinates with `Z` set to 1. -/
def PointAt (pt : EcpPoint) (Q : g.curve.Point) : Prop := AffineAt g pt Q ∧ pt.Z = some 1

variable {g}

theorem PointAt.stands {pt : EcpPoint} {Q : g.curve.Point} (h : PointAt g pt Q) : Stands g pt Q :=
  h.1.affine.stands g (by rw [h.2]; simp)

theorem PointAt.unique {pt : EcpPoint} {P Q : g.curve.Point} (hP : PointAt g pt P)
    (hQ : PointAt g pt Q) : P = Q := by
  obtain ⟨⟨-, -, h1, rfl⟩, -⟩ := hP
  obtain ⟨⟨-, -, h2, rfl⟩, -⟩ := hQ
  rfl

/-- What the check of a public key lets through: the points of the curve but the one at
infinity. -/
theorem checkPubkey_iff (hsmooth : g.curve.Δ ≠ 0) (pt : EcpPoint) :
    checkPubkey g pt = .ok () ↔ ∃ Q, PointAt g pt Q := by
  have hone : (1 : ℤ) < g.P := Int.ofNat_lt.mpr hprime.out.one_lt
  have hpos := hprime.out.pos
  have hz : pt.z = 1 ↔ pt.Z = some 1 := by
    rw [EcpPoint.z]
    cases pt.Z <;> simp
  have hmul := modMul_inField hpos
  unfold checkPubkey
  by_cases hz1 : pt.z = 1
  · rw [if_neg (not_not.mpr hz1)]
    by_cases hrange : pt.X < 0 ∨ pt.Y < 0 ∨ pt.X ≥ g.P ∨ pt.Y ≥ g.P
    · rw [if_pos hrange]
      refine iff_of_false (by simp) ?_
      rintro ⟨Q, ⟨hr, -⟩, -⟩
      have hX := hr.X
      have hY := hr.Y
      unfold EcpGroup.InField at hX hY
      omega
    · rw [if_neg hrange]
      dsimp only
      generalize hYY : modMul g (pt.Y*pt.Y) = YY
      generalize hRHS : modAdd g (modMul g (_*pt.X)+g.B) = RHS
      have hYYf : g.InField YY := hYY ▸ hmul _
      have hRHSf : g.InField RHS :=
        hRHS ▸ modAdd_inField hpos (add_nonneg (hmul _).1 (Int.natCast_nonneg _))
      have hYYc : (YY : ZMod g.P) = pt.Y^2 := by
        rw [← hYY, modMul_cast, Int.cast_mul, pow_two]
      have hRHSc : (RHS : ZMod g.P) = pt.X^3+g.a*pt.X+g.B := by
        rw [← hRHS, modAdd_cast, Int.cast_add, modMul_cast, Int.cast_mul, EcpGroup.a,
          Int.cast_natCast]
        congr 1
        cases g.A with
        | none =>
          simp only [modSub_cast, modMul_cast, Int.cast_sub, Int.cast_mul, Int.cast_ofNat]
          ring
        | some A =>
          simp only [modAdd_cast, modMul_cast, Int.cast_add, Int.cast_mul, Int.cast_natCast]
          ring
      have hequation : YY = RHS ↔ g.curve.Equation (pt.X : ZMod g.P) pt.Y := by
        rw [equation_iff]
        simp only [EcpGroup.curve, zero_mul, add_zero]
        rw [← hYYc, ← hRHSc, ← sub_eq_zero (a := (YY : ZMod g.P)), ← Int.cast_sub,
          ZMod.intCast_zmod_eq_zero_iff_dvd]
        constructor
        · rintro rfl
          simp
        · intro hdvd
          have hzero := Int.eq_zero_of_abs_lt_dvd hdvd (by
            rw [abs_lt]
            have h1 := hYYf
            have h2 := hRHSf
            unfold EcpGroup.InField at h1 h2
            omega)
          omega
      by_cases heq : YY = RHS
      · rw [if_neg (not_not.mpr heq)]
        refine iff_of_true rfl ?_
        have hns := (equation_iff_nonsingular_of_Δ_ne_zero hsmooth).mp (hequation.mp heq)
        refine ⟨.some _ _ hns, ⟨⟨⟨by omega, by omega⟩, ⟨by omega, by omega⟩, ?_⟩,
          .inr (hz.mp hz1), hns, rfl⟩, hz.mp hz1⟩
        rw [hz1]
        exact ⟨Int.one_nonneg, hone⟩
      · rw [if_pos heq]
        refine iff_of_false (by simp) ?_
        rintro ⟨Q, ⟨-, -, hns, -⟩, -⟩
        exact heq (hequation.mpr hns.1)
  · rw [if_pos hz1]
    refine iff_of_false (by simp) ?_
    rintro ⟨Q, -, hZ⟩
    exact hz1 (hz.mpr hZ)

omit hprime in
theorem checkPrivkey_eq (m : ℤ) :
    checkPrivkey g m = if 0 < m ∧ m < g.N then .ok () else .error .ecpInvalidKey := by
  unfold checkPrivkey
  split_ifs with h1 h2 h2
  · omega
  · rfl
  · rfl
  · omega

/-! ## The comb of a group -/

omit hprime in
theorem window_range (pEqG : Bool) : 2 ≤ window g pEqG ∧ window g pEqG ≤ 6 := by
  unfold window
  dsimp only
  split_ifs <;> omega

omit hprime in
/-- The columns hold the order. -/
theorem columns_fit {w : ℕ} (hw : 0 < w) : (g.N : ℤ) < 2^(w*columns g w) := by
  have hbits : g.N < 2^g.nbits := Nat.lt_size_self g.N
  have hle : g.nbits ≤ w*columns g w := by
    unfold columns
    have hdiv := Nat.div_add_mod (g.nbits+w-1) w
    have hmod := Nat.mod_lt (g.nbits+w-1) hw
    omega
  exact_mod_cast hbits.trans_le (Nat.pow_le_pow_right (by decide) hle)

omit hprime in
theorem columns_pos {w : ℕ} (hw : 0 < w) (hN : 1 < g.N) : 0 < columns g w := by
  have hfit := columns_fit (g := g) hw
  by_contra h0
  rw [show columns g w = 0 by omega, Nat.mul_zero, pow_zero] at hfit
  omega

omit hprime in
theorem lower_bits (hN : 0 < g.N) : (2 : ℤ)^(g.nbits-1) ≤ g.N := by
  have hpos : 0 < g.N.size := Nat.size_pos.mpr hN
  have hlt : g.nbits-1 < g.N.size := by
    unfold EcpGroup.nbits
    omega
  exact_mod_cast Nat.lt_size.mp hlt

omit hprime in
/-- From 48 bits on, the sums of the comb stay below the order. -/
theorem small_of_nbits (h : 48 ≤ g.nbits) (pEqG : Bool) :
    2*full (window g pEqG) (columns g (window g pEqG)) < g.N := by
  have hN : 0 < g.N := by
    apply Nat.size_pos.mp
    unfold EcpGroup.nbits at h
    omega
  obtain ⟨hlow, hhigh⟩ := window_range (g := g) pEqG
  generalize window g pEqG = w at *
  have hd : w+2 ≤ columns g w := by
    unfold columns
    rw [Nat.le_div_iff_mul_le (by omega), Nat.add_mul]
    have hsquare := Nat.mul_le_mul hhigh hhigh
    omega
  have hcols : columns g w*w ≤ g.nbits+w-1 := Nat.div_mul_le_self _ _
  obtain ⟨v, rfl⟩ : ∃ v, w = v+1 := ⟨w-1, by omega⟩
  have hfull := full_lt (show 0 < columns g (v+1) by omega) v
  have hle : (2 : ℤ)^(columns g (v+1)*v+1+1) ≤ 2^(g.nbits-1) := by
    apply pow_le_pow_right₀ (by decide)
    rw [Nat.mul_succ] at hcols
    omega
  have hbits := lower_bits hN
  rw [pow_succ] at hle
  linarith

end Valid

end UBoot.Ecp
