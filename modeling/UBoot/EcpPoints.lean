import Mathlib.Algebra.Field.ZMod
import Mathlib.AlgebraicGeometry.EllipticCurve.Affine.Point
import UBoot.Ecp

/-!
# The coordinates of `lib/mbedtls/ecp.c` and the group of the curve

The field is `ZMod P`. Jacobian coordinates stand for a point of the curve; doubling and
mixed addition are those of the group, in every case.
-/

set_option autoImplicit false

namespace UBoot.Ecp

open Mpi WeierstrassCurve.Affine

/-- The coefficient `A`, which is -3 where it is not set. -/
def EcpGroup.a (g : EcpGroup) : ZMod g.P :=
  match g.A with
  | none => -3
  | some A => A

/-- `y^2 = x^3 + A x + B` -/
def EcpGroup.curve (g : EcpGroup) : WeierstrassCurve.Affine (ZMod g.P) := ⟨0, 0, 0, g.a, g.B⟩

/-- A number that is reduced. -/
def EcpGroup.InField (g : EcpGroup) (n : ℤ) : Prop := 0 ≤ n ∧ n < g.P

structure Reduced (g : EcpGroup) (pt : EcpPoint) : Prop where
  X : g.InField pt.X
  Y : g.InField pt.Y
  z : g.InField pt.z

/-- Jacobian coordinates of a point: `x = X/Z^2` and `y = Y/Z^3`. -/
def Stands (g : EcpGroup) (pt : EcpPoint) : g.curve.Point → Prop
  | .zero => (pt.z : ZMod g.P) = 0
  | .some x y _ => (pt.z : ZMod g.P) ≠ 0 ∧ x*pt.z^2 = pt.X ∧ y*pt.z^3 = pt.Y

/-! ## Reduction -/

section Reduction

variable (g : EcpGroup)

theorem addWhile_cast (fuel : ℕ) (N : ℤ) : ((addWhile g.P fuel N : ℤ) : ZMod g.P) = N := by
  induction fuel generalizing N with
  | zero => rfl
  | succ fuel ih =>
    rw [addWhile]
    split_ifs with h
    · rw [ih]
      simp
    · rfl

theorem subWhile_cast (fuel : ℕ) (N : ℤ) : ((subWhile g.P fuel N : ℤ) : ZMod g.P) = N := by
  induction fuel generalizing N with
  | zero => rfl
  | succ fuel ih =>
    rw [subWhile]
    split_ifs with h
    · rw [ih]
      simp
    · rfl

@[simp]
theorem modSub_cast (N : ℤ) : ((modSub g N : ℤ) : ZMod g.P) = N := addWhile_cast g _ N

@[simp]
theorem modAdd_cast (N : ℤ) : ((modAdd g N : ℤ) : ZMod g.P) = N := subWhile_cast g _ N

@[simp]
theorem modMul_cast (N : ℤ) : ((modMul g N : ℤ) : ZMod g.P) = N := by
  rw [modMul, Mpi.norm, subWhile_cast, addWhile_cast, Int.tmod_def]
  simp

variable {g} (hP : 0 < g.P)

include hP

theorem modMul_inField (N : ℤ) : g.InField (modMul g N) := by
  have hpos : (0 : ℤ) < g.P := Int.natCast_pos.mpr hP
  rw [modMul, norm_eq hpos]
  exact ⟨Int.emod_nonneg _ hpos.ne', Int.emod_lt_of_pos _ hpos⟩

theorem modSub_inField {N : ℤ} (hN : N < g.P) : g.InField (modSub g N) := by
  have hpos : (0 : ℤ) < g.P := Int.natCast_pos.mpr hP
  obtain ⟨h0, -, hlt⟩ := addWhile_spec hpos N.natAbs N (by omega)
  refine ⟨h0, ?_⟩
  rcases hlt with hlt | heq
  · exact hlt
  · exact heq.trans_lt hN

theorem modAdd_inField {N : ℤ} (hN : 0 ≤ N) : g.InField (modAdd g N) := by
  have hpos : (0 : ℤ) < g.P := Int.natCast_pos.mpr hP
  rw [EcpGroup.InField, modAdd, subWhile_spec hpos _ N hN (by omega)]
  exact ⟨Int.emod_nonneg _ hpos.ne', Int.emod_lt_of_pos _ hpos⟩

theorem modSub_sub {m n : ℤ} (hm : g.InField m) (hn : g.InField n) : g.InField (modSub g (m-n)) :=
  modSub_inField hP (by linarith [hm.2, hn.1])

theorem modAdd_mul {m : ℤ} (hm : g.InField m) (k : ℕ) : g.InField (modAdd g (m*k)) :=
  modAdd_inField hP (mul_nonneg hm.1 (Int.natCast_nonneg k))

end Reduction

/-- A reduced number is 0 where it is 0 in the field. -/
theorem cast_eq_zero {g : EcpGroup} {n : ℤ} (hn : g.InField n) : (n : ZMod g.P) = 0 ↔ n = 0 := by
  rw [ZMod.intCast_zmod_eq_zero_iff_dvd]
  constructor
  · intro hdvd
    exact Int.eq_zero_of_dvd_of_nonneg_of_lt hn.1 hn.2 hdvd
  · rintro rfl
    exact dvd_zero _

/-! ## Doubling -/

section Group

variable (g : EcpGroup)

theorem doubleJac_cast (pt : EcpPoint) :
    ((doubleJac g pt).X : ZMod g.P) = (3*pt.X^2+g.a*pt.z^4)^2-8*pt.X*pt.Y^2 ∧
    ((doubleJac g pt).Y : ZMod g.P) = (3*pt.X^2+g.a*pt.z^4)*
      (4*pt.X*pt.Y^2-((3*pt.X^2+g.a*pt.z^4)^2-8*pt.X*pt.Y^2))-8*pt.Y^4 ∧
    ((doubleJac g pt).z : ZMod g.P) = 2*pt.Y*pt.z := by
  unfold doubleJac EcpGroup.a EcpPoint.z
  cases hA : g.A with
  | none =>
    simp only [Option.getD_some, modMul_cast, modSub_cast, modAdd_cast, Int.cast_mul, Int.cast_sub,
      Int.cast_add, Int.cast_ofNat]
    refine ⟨?_, ?_, ?_⟩ <;> ring
  | some A =>
    by_cases h0 : A = 0
    · subst h0
      simp only [ne_eq, not_true_eq_false, if_false, Option.getD_some, modMul_cast, modSub_cast,
        modAdd_cast, Int.cast_mul, Int.cast_sub, Int.cast_ofNat, Nat.cast_zero]
      refine ⟨?_, ?_, ?_⟩ <;> ring
    · simp only [ne_eq, h0, not_false_eq_true, if_true, Option.getD_some, modMul_cast, modSub_cast,
        modAdd_cast, Int.cast_mul, Int.cast_sub, Int.cast_add, Int.cast_ofNat, Int.cast_natCast]
      refine ⟨?_, ?_, ?_⟩ <;> ring

variable [hprime : Fact g.P.Prime]

theorem negY_eq (x y : ZMod g.P) : g.curve.negY x y = -y := by
  simp [negY, EcpGroup.curve]

theorem addX_eq (x₁ x₂ l : ZMod g.P) : g.curve.addX x₁ x₂ l = l^2-x₁-x₂ := by
  simp [addX, EcpGroup.curve]

theorem addY_eq (x₁ x₂ y₁ l : ZMod g.P) :
    g.curve.addY x₁ x₂ y₁ l = l*(x₁-(l^2-x₁-x₂))-y₁ := by
  rw [addY, negY_eq, negAddY, addX_eq]
  ring

theorem slope_tangent {x y : ZMod g.P} (hneg : y ≠ g.curve.negY x y) :
    g.curve.slope x x y y*(2*y) = 3*x^2+g.a := by
  have hne : y-g.curve.negY x y ≠ 0 := sub_ne_zero.mpr hneg
  rw [slope_of_Y_ne rfl hneg]
  rw [negY_eq, sub_neg_eq_add, ← two_mul] at *
  rw [div_mul_cancel₀ _ hne]
  simp [EcpGroup.curve]

theorem slope_secant {x₁ x₂ : ZMod g.P} (y₁ y₂ : ZMod g.P) (hne : x₁ ≠ x₂) :
    g.curve.slope x₁ x₂ y₁ y₂*(x₁-x₂) = y₁-y₂ := by
  rw [slope_of_X_ne hne, div_mul_cancel₀ _ (sub_ne_zero.mpr hne)]

/-- Doubling is that of the group, with the point at infinity and those of order 2. -/
theorem doubleJac_stands {pt : EcpPoint} {Q : g.curve.Point} (h : Stands g pt Q) :
    Stands g (doubleJac g pt) (Q+Q) := by
  obtain ⟨hX, hY, hz⟩ := doubleJac_cast g pt
  cases Q with
  | zero =>
    change (pt.z : ZMod g.P) = 0 at h
    change ((doubleJac g pt).z : ZMod g.P) = 0
    rw [hz, h, mul_zero]
  | some x y hQ =>
    obtain ⟨hz0, hx, hy⟩ := h
    by_cases hneg : y = g.curve.negY x y
    · rw [Point.add_self_of_Y_eq hneg]
      change ((doubleJac g pt).z : ZMod g.P) = 0
      rw [negY_eq] at hneg
      rw [hz, ← hy]
      linear_combination (pt.z : ZMod g.P)^4*hneg
    · rw [Point.add_self_of_Y_ne hneg]
      have hslope := slope_tangent g hneg
      have hy0 : 2*y ≠ 0 := by
        rw [negY_eq] at hneg
        intro h0
        apply hneg
        linear_combination h0
      refine ⟨?_, ?_, ?_⟩
      · rw [hz, ← hy, show 2*(y*(pt.z : ZMod g.P)^3)*pt.z = 2*y*pt.z^4 by ring]
        exact mul_ne_zero hy0 (pow_ne_zero 4 hz0)
      · rw [hz, hX, ← hx, ← hy, addX_eq]
        generalize g.curve.slope x x y y = l at hslope
        linear_combination (pt.z : ZMod g.P)^8*(l*(2*y)+3*x^2+g.a)*hslope
      · rw [hz, hY, ← hx, ← hy, addY_eq]
        generalize g.curve.slope x x y y = l at hslope
        linear_combination (pt.z : ZMod g.P)^12*(12*x*y^2-
          ((l*(2*y))^2+l*(2*y)*(3*x^2+g.a)+(3*x^2+g.a)^2))*hslope

omit hprime in
theorem doubleJac_reduced (hP : 0 < g.P) (pt : EcpPoint) : Reduced g (doubleJac g pt) := by
  have hmul := modMul_inField hP
  have htwice := fun N => modAdd_mul hP (hmul N) 2
  refine ⟨?_, ?_, htwice _⟩
  · exact modSub_sub hP (modSub_sub hP (hmul _) (htwice _)) (htwice _)
  · exact modSub_sub hP (hmul _) (htwice _)

/-! ## Mixed addition -/

/-- Coordinates of a second operand: affine, with `Z` 1 or not set, or zero. -/
def StandsAffine (qt : EcpPoint) (Q : g.curve.Point) : Prop :=
  (qt.Z = some 0 ∧ Q = 0) ∨
    ((qt.Z = none ∨ qt.Z = some 1) ∧ ∃ h, Q = .some (qt.X : ZMod g.P) qt.Y h)

omit hprime in
theorem stands_zero_iff {pt : EcpPoint} {P : g.curve.Point} (hpt : Reduced g pt)
    (hP : Stands g pt P) : pt.z = 0 ↔ P = 0 := by
  rw [← cast_eq_zero hpt.z]
  cases P with
  | zero => exact iff_of_true hP rfl
  | some x y h => exact iff_of_false hP.1 (Point.some_ne_zero h)

theorem StandsAffine.stands {qt : EcpPoint} {Q : g.curve.Point} (hQ : StandsAffine g qt Q)
    (hset : qt.Z ≠ none) : Stands g qt Q := by
  rcases hQ with ⟨hz, rfl⟩ | ⟨hz, h, rfl⟩
  · change (qt.z : ZMod g.P) = 0
    rw [EcpPoint.z, hz]
    exact Int.cast_zero
  · have hone : qt.Z = some 1 := hz.resolve_left hset
    have hz1 : (qt.z : ZMod g.P) = 1 := by
      rw [EcpPoint.z, hone]
      exact Int.cast_one
    refine ⟨by rw [hz1]; exact one_ne_zero, ?_, ?_⟩ <;> rw [hz1, one_pow, mul_one]

theorem setZero_stands : Stands g setZero 0 := Int.cast_zero

omit hprime in
theorem setZero_reduced (hP : 1 < g.P) : Reduced g setZero := by
  refine ⟨⟨?_, ?_⟩, ⟨?_, ?_⟩, ⟨?_, ?_⟩⟩ <;> simp [setZero, EcpPoint.z] <;> omega

/-- The coordinates of a sum of two points with different `x`. -/
theorem secant_stands {pt : EcpPoint} {x₁ y₁ x₂ y₂ X Y Z : ZMod g.P}
    (h₁ : g.curve.Nonsingular x₁ y₁) (h₂ : g.curve.Nonsingular x₂ y₂) (hne : x₁ ≠ x₂)
    {z : ZMod g.P} (hz : z ≠ 0) (hZ : Z = z^3*(x₂-x₁))
    (hX : X = z^6*((y₂-y₁)^2-(x₂-x₁)^2*(x₁+x₂)))
    (hY : Y = z^3*(y₂-y₁)*(z^6*(x₂-x₁)^2*x₁-X)-z^9*(x₂-x₁)^3*y₁)
    (hpX : (pt.X : ZMod g.P) = X) (hpY : (pt.Y : ZMod g.P) = Y) (hpZ : (pt.z : ZMod g.P) = Z) :
    Stands g pt (.some x₁ y₁ h₁+.some x₂ y₂ h₂) := by
  rw [Point.add_of_X_ne hne]
  have hslope := slope_secant g y₁ y₂ hne
  refine ⟨?_, ?_, ?_⟩
  · rw [hpZ, hZ]
    exact mul_ne_zero (pow_ne_zero 3 hz) (sub_ne_zero.mpr hne.symm)
  · rw [hpX, hpZ, hX, hZ, addX_eq]
    generalize g.curve.slope x₁ x₂ y₁ y₂ = l at hslope
    linear_combination z^6*(l*(x₁-x₂)+y₁-y₂)*hslope
  · rw [hpY, hpZ, hY, hX, hZ, addY_eq]
    generalize g.curve.slope x₁ x₂ y₁ y₂ = l at hslope
    linear_combination -z^9*((x₂-x₁)^2*(2*x₁+x₂)-((l*(x₂-x₁))^2+l*(x₂-x₁)*(y₂-y₁)+(y₂-y₁)^2))*hslope

/-- Mixed addition is that of the group, in every case. -/
theorem addMixed_stands {pt qt : EcpPoint} {P Q : g.curve.Point} (hpt : Reduced g pt)
    (hqt : Reduced g qt) (hP : Stands g pt P) (hQ : StandsAffine g qt Q)
    (hunset : qt.Z = none → P ≠ 0) :
    ∃ r, addMixed g pt qt = .ok r ∧ Stands g r (P+Q) ∧ Reduced g r := by
  have hpos : 0 < g.P := hprime.out.pos
  have hmul := modMul_inField hpos
  unfold addMixed
  by_cases hpz : pt.z = 0
  · rw [if_pos hpz]
    have hP0 := (stands_zero_iff g hpt hP).mp hpz
    refine ⟨qt, rfl, ?_, hqt⟩
    rw [hP0, zero_add]
    exact hQ.stands g fun hz => hunset hz hP0
  rw [if_neg hpz]
  rcases hQ with ⟨hz, rfl⟩ | ⟨hz, h₂, rfl⟩
  · rw [if_pos ⟨by rw [hz]; rfl, by rw [EcpPoint.z, hz]; rfl⟩]
    exact ⟨pt, rfl, by rwa [add_zero], hpt⟩
  rw [if_neg, if_neg]
  rotate_left
  · rcases hz with hz | hz <;> simp [EcpPoint.z, hz]
  · rcases hz with hz | hz <;> simp [EcpPoint.z, hz]
  dsimp only
  cases P with
  | zero => exact absurd ((stands_zero_iff g hpt hP).mpr rfl) hpz
  | some x₁ y₁ h₁ =>
    obtain ⟨hz0, hx, hy⟩ := hP
    generalize hT1 : modSub g (modMul g (modMul g (pt.z*pt.z)*qt.X)-pt.X) = T1
    generalize hT2 : modSub g (modMul g (modMul g (modMul g (pt.z*pt.z)*pt.z)*qt.Y)-pt.Y) = T2
    have hT1f : g.InField T1 := hT1 ▸ modSub_sub hpos (hmul _) hpt.X
    have hT2f : g.InField T2 := hT2 ▸ modSub_sub hpos (hmul _) hpt.Y
    have hT1c : (T1 : ZMod g.P) = pt.z^2*(qt.X-x₁) := by
      rw [← hT1]
      simp only [modSub_cast, modMul_cast, Int.cast_mul, Int.cast_sub]
      linear_combination hx
    have hT2c : (T2 : ZMod g.P) = pt.z^3*(qt.Y-y₁) := by
      rw [← hT2]
      simp only [modSub_cast, modMul_cast, Int.cast_mul, Int.cast_sub]
      linear_combination hy
    by_cases h1 : T1 = 0
    · rw [if_pos h1]
      have hxx : x₁ = qt.X := by
        rw [h1, Int.cast_zero] at hT1c
        have := (mul_eq_zero.mp hT1c.symm).resolve_left (pow_ne_zero 2 hz0)
        linear_combination -this
      by_cases h2 : T2 = 0
      · rw [if_pos h2]
        have hyy : y₁ = qt.Y := by
          rw [h2, Int.cast_zero] at hT2c
          have := (mul_eq_zero.mp hT2c.symm).resolve_left (pow_ne_zero 3 hz0)
          linear_combination -this
        refine ⟨_, rfl, ?_, doubleJac_reduced g hpos pt⟩
        subst hxx hyy
        exact doubleJac_stands g ⟨hz0, hx, hy⟩
      · rw [if_neg h2]
        have hyy : y₁ ≠ qt.Y := by
          intro hyy
          rw [hyy, sub_self, mul_zero] at hT2c
          exact h2 ((cast_eq_zero hT2f).mp hT2c)
        have hneg : y₁ = g.curve.negY qt.X qt.Y := (Y_eq_of_X_eq h₁.1 h₂.1 hxx).resolve_left hyy
        refine ⟨_, rfl, ?_, setZero_reduced g hprime.out.one_lt⟩
        rw [Point.add_of_Y_eq hxx hneg]
        exact setZero_stands g
    · rw [if_neg h1]
      have hne : x₁ ≠ qt.X := by
        rintro rfl
        rw [sub_self, mul_zero] at hT1c
        exact h1 ((cast_eq_zero hT1f).mp hT1c)
      refine ⟨_, rfl, ?_, ?_⟩
      · apply secant_stands g h₁ h₂ hne hz0 rfl rfl rfl
        · simp only [modSub_cast, modAdd_cast, modMul_cast, Int.cast_mul, Int.cast_sub,
            Int.cast_ofNat, hT1c, hT2c]
          rw [← hx]
          ring
        · simp only [modSub_cast, modAdd_cast, modMul_cast, Int.cast_mul, Int.cast_sub,
            Int.cast_ofNat, hT1c, hT2c]
          rw [← hx, ← hy]
          ring
        · change ((modMul g (pt.z*T1) : ℤ) : ZMod g.P) = _
          rw [modMul_cast, Int.cast_mul, hT1c]
          ring
      · exact ⟨modSub_sub hpos (modSub_sub hpos (hmul _) (modAdd_mul hpos (hmul _) 2)) (hmul _),
          modSub_sub hpos (hmul _) (hmul _), hmul _⟩

end Group

end UBoot.Ecp
