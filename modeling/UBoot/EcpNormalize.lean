import UBoot.EcpPoints

/-!
# Affine coordinates: `ecp_normalize_jac` and `ecp_normalize_jac_many`

One inversion serves a whole array: the products of the `Z` are walked back, and each of
them leaves the inverse of one `Z`.
-/

set_option autoImplicit false

namespace UBoot.Ecp

open Mpi WeierstrassCurve.Affine

section Normalize

variable (g : EcpGroup) [hprime : Fact g.P.Prime]

/-- In the field, all numbers but 0 have inverses. -/
theorem invMod_field {n : ℤ} (hn : g.InField n) (h0 : n ≠ 0) :
    ∃ x, invMod n g.P = .ok x ∧ (x : ZMod g.P)*n = 1 := by
  have hspec := invMod_spec (Int.ofNat_lt.mpr hprime.out.one_lt) n
  have hgcd : Int.gcd n g.P = 1 := by
    rw [Int.gcd_comm, ← Int.isCoprime_iff_gcd_eq_one,
      (Nat.prime_iff_prime_int.mp hprime.out).coprime_iff_not_dvd]
    intro hdvd
    exact h0 (Int.eq_zero_of_dvd_of_nonneg_of_lt hn.1 hn.2 hdvd)
  rw [if_pos hgcd] at hspec
  obtain ⟨x, hx, -, -, hmod⟩ := hspec
  refine ⟨x, hx, ?_⟩
  have := (ZMod.intCast_eq_intCast_iff (x*n) 1 g.P).mpr hmod
  simpa using this

/-- The affine coordinates that the inverse of `Z` gives. -/
theorem affine_coordinates {pt : EcpPoint} {x y : ZMod g.P} {Zi : ℤ}
    (hx : x*pt.z^2 = pt.X) (hy : y*pt.z^3 = pt.Y) (hinv : (Zi : ZMod g.P)*pt.z = 1) :
    ((modMul g (pt.X*modMul g (Zi*Zi)) : ℤ) : ZMod g.P) = x ∧
      ((modMul g (modMul g (pt.Y*modMul g (Zi*Zi))*Zi) : ℤ) : ZMod g.P) = y := by
  simp only [modMul_cast, Int.cast_mul]
  rw [← hx, ← hy]
  constructor
  · linear_combination x*(Zi*pt.z+1)*hinv
  · linear_combination y*((Zi*pt.z)^2+Zi*pt.z+1)*hinv

/-- The point stays the same one, and `Z` is 1 afterwards unless it is at infinity. -/
theorem normalizeJac_spec {pt : EcpPoint} {P : g.curve.Point} (hpt : Reduced g pt)
    (hP : Stands g pt P) : ∃ r, normalizeJac g pt = .ok r ∧ Reduced g r ∧ Stands g r P ∧
      (P = 0 ∧ r.z = 0 ∨ r.Z = some 1 ∧ StandsAffine g r P) := by
  unfold normalizeJac
  by_cases hz : pt.z = 0
  · rw [if_pos hz]
    exact ⟨pt, rfl, hpt, hP, .inl ⟨(stands_zero_iff g hpt hP).mp hz, hz⟩⟩
  · rw [if_neg hz]
    obtain ⟨Zi, hrun, hinv⟩ := invMod_field g hpt.z hz
    rw [hrun]
    cases P with
    | zero => exact absurd ((stands_zero_iff g hpt hP).mpr rfl) hz
    | some x y h =>
      obtain ⟨-, hx, hy⟩ := hP
      obtain ⟨hX, hY⟩ := affine_coordinates g hx hy hinv
      have hmul := modMul_inField hprime.out.pos
      refine ⟨_, rfl, ⟨hmul _, hmul _, ?_⟩, ?_, .inr ⟨rfl, .inr ⟨.inr rfl, ?_⟩⟩⟩
      · exact ⟨Int.one_nonneg, Int.ofNat_lt.mpr hprime.out.one_lt⟩
      · have hone : ((EcpPoint.z ⟨modMul g (pt.X*modMul g (Zi*Zi)),
            modMul g (modMul g (pt.Y*modMul g (Zi*Zi))*Zi), some 1⟩ : ℤ) : ZMod g.P) = 1 :=
          Int.cast_one
        refine ⟨by rw [hone]; exact one_ne_zero, ?_, ?_⟩
        · rw [hone, one_pow, mul_one]
          exact hX.symm
        · rw [hone, one_pow, mul_one]
          exact hY.symm
      · dsimp only
        rw [hX, hY]
        exact ⟨h, rfl⟩

/-! ## Arrays -/

/-- Coordinates of a point other than the one at infinity. -/
def StandsAt (pt : EcpPoint) (P : g.curve.Point) : Prop := Reduced g pt ∧ Stands g pt P ∧ P ≠ 0

/-- Affine ones. -/
def AffineAt (pt : EcpPoint) (P : g.curve.Point) : Prop :=
  Reduced g pt ∧ (pt.Z = none ∨ pt.Z = some 1) ∧ ∃ h, P = .some (pt.X : ZMod g.P) pt.Y h

variable {g}

theorem AffineAt.affine {pt : EcpPoint} {P : g.curve.Point} (h : AffineAt g pt P) :
    StandsAffine g pt P := .inr h.2

theorem AffineAt.ne_zero {pt : EcpPoint} {P : g.curve.Point} (h : AffineAt g pt P) : P ≠ 0 := by
  obtain ⟨-, -, hns, rfl⟩ := h
  exact Point.some_ne_zero hns

theorem StandsAt.z_ne_zero {pt : EcpPoint} {P : g.curve.Point} (h : StandsAt g pt P) :
    (pt.z : ZMod g.P) ≠ 0 := by
  obtain ⟨hr, hs, hne⟩ := h
  rw [ne_eq, cast_eq_zero hr.z, stands_zero_iff g hr hs]
  exact hne

theorem setNormalized_same {T : ℕ → EcpPoint} {k : ℕ} {Zi : ℤ} {P : g.curve.Point}
    (h : StandsAt g (T k) P) (hinv : (Zi : ZMod g.P)*(T k).z = 1) :
    AffineAt g (setNormalized g T k Zi k) P := by
  obtain ⟨hr, hs, hne⟩ := h
  have hmul := modMul_inField hprime.out.pos
  unfold setNormalized
  rw [Function.update_self]
  cases P with
  | zero => exact absurd rfl hne
  | some x y hP =>
    obtain ⟨-, hx, hy⟩ := hs
    obtain ⟨hX, hY⟩ := affine_coordinates g hx hy hinv
    refine ⟨⟨hmul _, hmul _, le_rfl, Int.natCast_pos.mpr hprime.out.pos⟩, .inl rfl, ?_⟩
    dsimp only
    rw [hX, hY]
    exact ⟨hP, rfl⟩

omit hprime in
theorem setNormalized_other {T : ℕ → EcpPoint} {k j : ℕ} (Zi : ℤ) (hne : j ≠ k) :
    setNormalized g T k Zi j = T j := Function.update_of_ne hne _ _

/-- The products are not 0 where no `Z` is. -/
theorem products_spec {T : ℕ → EcpPoint} {TT : List ℕ} {Q : ℕ → g.curve.Point} (i : ℕ)
    (h : ∀ j ≤ i, StandsAt g (T (TT.getD j 0)) (Q (TT.getD j 0))) :
    g.InField (products g T TT i) ∧ ((products g T TT i : ℤ) : ZMod g.P) ≠ 0 := by
  induction i with
  | zero => exact ⟨(h 0 le_rfl).1.z, (h 0 le_rfl).z_ne_zero⟩
  | succ i ih =>
    obtain ⟨-, hne⟩ := ih fun j hj => h j (by omega)
    refine ⟨modMul_inField hprime.out.pos _, ?_⟩
    rw [products, modMul_cast, Int.cast_mul]
    exact mul_ne_zero hne (h (i+1) le_rfl).z_ne_zero

/-- Walking back: `u` is the inverse of the product up to the entry. -/
theorem normalizeBack_spec {T₀ : ℕ → EcpPoint} {TT : List ℕ} {Q : ℕ → g.curve.Point} (i : ℕ)
    (hinj : ∀ j ≤ i, ∀ k ≤ i, TT.getD j 0 = TT.getD k 0 → j = k)
    (h : ∀ j ≤ i, StandsAt g (T₀ (TT.getD j 0)) (Q (TT.getD j 0)))
    (T : ℕ → EcpPoint) (hT : ∀ j ≤ i, T (TT.getD j 0) = T₀ (TT.getD j 0)) (u : ℤ)
    (hu : (u : ZMod g.P)*products g T₀ TT i = 1) :
    (∀ j ≤ i, AffineAt g (normalizeBack g (products g T₀ TT) TT i T u (TT.getD j 0))
      (Q (TT.getD j 0))) ∧
    ∀ k, (∀ j ≤ i, k ≠ TT.getD j 0) → normalizeBack g (products g T₀ TT) TT i T u k = T k := by
  induction i generalizing T u with
  | zero =>
    constructor
    · intro j hj
      obtain rfl : j = 0 := by omega
      apply setNormalized_same
      · rw [hT 0 le_rfl]
        exact h 0 le_rfl
      · rw [hT 0 le_rfl]
        exact hu
    · intro k hk
      exact setNormalized_other u (hk 0 le_rfl)
  | succ i ih =>
    have hlast := hT (i+1) le_rfl
    have hother : ∀ j ≤ i, TT.getD j 0 ≠ TT.getD (i+1) 0 := by
      intro j hj heq
      have := hinj j (by omega) (i+1) le_rfl heq
      omega
    rw [products, modMul_cast, Int.cast_mul] at hu
    rw [normalizeBack]
    generalize hZi : modMul g (u*products g T₀ TT i) = Zi
    have hinv : (Zi : ZMod g.P)*(T (TT.getD (i+1) 0)).z = 1 := by
      rw [← hZi, modMul_cast, Int.cast_mul, hlast]
      linear_combination hu
    obtain ⟨hdone, hrest⟩ := ih (fun j hj k hk => hinj j (by omega) k (by omega))
      (fun j hj => h j (by omega)) (setNormalized g T (TT.getD (i+1) 0) Zi)
      (fun j hj => by rw [setNormalized_other Zi (hother j hj), hT j (by omega)])
      (modMul g (u*(T (TT.getD (i+1) 0)).z))
      (by rw [modMul_cast, Int.cast_mul, hlast]; linear_combination hu)
    constructor
    · intro j hj
      rcases Nat.le_succ_iff.mp hj with hle | rfl
      · exact hdone j hle
      · rw [hrest _ fun j hj => (hother j hj).symm]
        apply setNormalized_same _ hinv
        rw [hlast]
        exact h (i+1) le_rfl
    · intro k hk
      rw [hrest k fun j hj => hk j (by omega)]
      exact setNormalized_other Zi (hk (i+1) le_rfl)

/-- All entries become affine, and the others stay. -/
theorem normalizeJacMany_spec {T : ℕ → EcpPoint} (TT : List ℕ) {Q : ℕ → g.curve.Point}
    (hlen : TT ≠ []) (hnodup : TT.Nodup) (h : ∀ k ∈ TT, StandsAt g (T k) (Q k)) :
    ∃ T', normalizeJacMany g T TT = .ok T' ∧ (∀ k ∈ TT, AffineAt g (T' k) (Q k)) ∧
      ∀ k ∉ TT, T' k = T k := by
  have hpos : 0 < TT.length := List.length_pos_iff.mpr hlen
  have hget : ∀ j < TT.length, TT.getD j 0 ∈ TT := by
    intro j hj
    rw [List.getD_eq_getElem _ _ hj]
    exact List.getElem_mem hj
  have hsurj : ∀ k ∈ TT, ∃ j < TT.length, TT.getD j 0 = k := by
    intro k hk
    obtain ⟨j, hj, rfl⟩ := List.getElem_of_mem hk
    exact ⟨j, hj, List.getD_eq_getElem _ _ hj⟩
  unfold normalizeJacMany
  split_ifs with hlt
  · have hfirst := h _ (hget 0 hpos)
    have honly : ∀ k ∈ TT, k = TT.getD 0 0 := by
      intro k hk
      obtain ⟨j, hj, rfl⟩ := hsurj k hk
      rw [show j = 0 by omega]
    obtain ⟨r, hrun, hr, -, hzero | ⟨hone, haff⟩⟩ := normalizeJac_spec g hfirst.1 hfirst.2.1
    · exact absurd hzero.1 hfirst.2.2
    · rw [hrun]
      refine ⟨_, rfl, ?_, ?_⟩
      · intro k hk
        rw [honly k hk, Function.update_self]
        refine ⟨hr, .inr hone, ?_⟩
        rcases haff with ⟨-, h0⟩ | haff
        · exact absurd h0 hfirst.2.2
        · exact haff.2
      · intro k hk
        apply Function.update_of_ne
        rintro rfl
        exact hk (hget 0 hpos)
  · have hstands : ∀ j ≤ TT.length-1, StandsAt g (T (TT.getD j 0)) (Q (TT.getD j 0)) :=
      fun j hj => h _ (hget j (by omega))
    obtain ⟨hin, hne⟩ := products_spec (TT.length-1) hstands
    obtain ⟨u, hrun, hu⟩ := invMod_field g hin ((cast_eq_zero hin).not.mp hne)
    have hinj : ∀ j ≤ TT.length-1, ∀ k ≤ TT.length-1, TT.getD j 0 = TT.getD k 0 → j = k := by
      intro j hj k hk heq
      rw [List.getD_eq_getElem _ _ (by omega : j < TT.length),
        List.getD_eq_getElem _ _ (by omega : k < TT.length)] at heq
      exact (hnodup.getElem_inj_iff).mp heq
    obtain ⟨hdone, hrest⟩ := normalizeBack_spec (TT.length-1) hinj hstands T (fun _ _ => rfl) u hu
    rw [hrun]
    refine ⟨_, rfl, ?_, ?_⟩
    · intro k hk
      obtain ⟨j, hj, rfl⟩ := hsurj k hk
      exact hdone j (by omega)
    · intro k hk
      apply hrest
      rintro j hj rfl
      exact hk (hget j (by omega))

end Normalize

end UBoot.Ecp
