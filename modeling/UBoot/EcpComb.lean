import UBoot.CombDigits
import UBoot.EcpNormalize

/-!
# The comb of `lib/mbedtls/ecp.c`

`ecp_comb_fixed` writes an odd number in signed odd digits, and `ecp_mul_comb_core` adds the
points of a table up over them.
-/

set_option autoImplicit false

namespace UBoot.Ecp

open Mpi WeierstrassCurve.Affine CombDigits

/-! ## The digits -/

theorem combClassic_testBit {d : ℕ} (w : ℕ) {m : ℤ} {i : ℕ} (hi : i < d) (l : ℕ) :
    (combClassic d w m i).testBit l = (decide (l < w) && m.natAbs.testBit (i+d*l)) := by
  rw [combClassic, if_pos hi]
  induction w with
  | zero => simp
  | succ w ih =>
    rw [List.range_succ, List.foldl_append, List.foldl_cons, List.foldl_nil, Nat.testBit_or, ih,
      Nat.testBit_shiftLeft, getBit]
    by_cases hlt : l < w
    · simp [hlt, Nat.lt_succ_of_lt hlt]
    · by_cases heq : l = w
      · subst heq
        cases m.natAbs.testBit (i+d*l) <;> simp
      · have hgt : w < l := by omega
        have hbit : (m.natAbs.testBit (i+d*w)).toNat.testBit (l-w) = false := by
          apply Nat.testBit_lt_two_pow
          calc (m.natAbs.testBit (i+d*w)).toNat ≤ 1 := Bool.toNat_le _
            _ < 2^(l-w) := Nat.one_lt_two_pow (by omega)
        simp [hbit, hlt, show ¬l < w+1 by omega]

theorem combClassic_last {d : ℕ} (w : ℕ) (m : ℤ) {i : ℕ} (hi : d ≤ i) : combClassic d w m i = 0 :=
  if_neg (by omega)

theorem combClassic_lt (d w : ℕ) (m : ℤ) (i : ℕ) : combClassic d w m i < 2^w := by
  by_cases hi : i < d
  · apply Nat.lt_pow_two_of_testBit
    intro l hl
    rw [combClassic_testBit w hi, decide_eq_false (by omega), Bool.false_and]
  · rw [combClassic_last w m (by omega)]
    exact Nat.two_pow_pos w

theorem combClassic_odd {d w : ℕ} {m : ℤ} (hd : 0 < d) (hw : 0 < w) (hm : m % 2 = 1) :
    combClassic d w m 0 % 2 = 1 := by
  have hbit := combClassic_testBit w hd 0 (m := m)
  rw [decide_eq_true hw, Bool.true_and, Nat.mul_zero, Nat.add_zero, Nat.testBit_zero,
    Nat.testBit_zero, decide_eq_decide] at hbit
  omega

/-- Column 0 before the rounds, and what they make of all of them. -/
structure Recoded (X : ℕ → ℕ) (k : ℕ) (s : (ℕ → ℕ) × ℕ) : Prop where
  below : ∀ i < k, s.1 i = (digit X i).1 ||| (negative X i).toNat <<< 7
  here : s.1 k = (digit X k).1
  above : ∀ i > k, s.1 i = X i
  carry : s.2 = (digit X k).2

theorem combRound_recoded {X : ℕ → ℕ} {k : ℕ} {s : (ℕ → ℕ) × ℕ} (h : Recoded X k s) :
    Recoded X (k+1) (combRound s (k+1)) := by
  have hnext := h.above (k+1) (Nat.lt_succ_self k)
  have hadjust : 1-(X (k+1) ^^^ (digit X k).2) % 2 = (negative X k).toNat := by
    rw [negative]
    rcases Nat.mod_two_eq_zero_or_one (X (k+1) ^^^ (digit X k).2) with hs | hs <;> rw [hs] <;> rfl
  have hk : k ≠ k+1 := by omega
  unfold combRound
  dsimp only
  simp only [Nat.add_sub_cancel, Function.update_self, Function.update_of_ne hk,
    Nat.and_one_is_mod, h.carry, h.here, hnext, hadjust]
  constructor
  · intro i hi
    rcases Nat.lt_succ_iff_lt_or_eq.mp hi with hlt | rfl
    · simp only [Function.update_of_ne (show i ≠ k by omega),
        Function.update_of_ne (show i ≠ k+1 by omega)]
      exact h.below i hlt
    · exact Function.update_self _ _ _
  · dsimp only
    rw [Function.update_of_ne hk.symm, Function.update_self, digit, hadjust]
  · intro i hi
    simp only [Function.update_of_ne (show i ≠ k by omega),
      Function.update_of_ne (show i ≠ k+1 by omega)]
    exact h.above i (by omega)
  · rw [digit, hadjust]

theorem combRounds_recoded (X : ℕ → ℕ) (k : ℕ) :
    Recoded X k ((List.range' 1 k).foldl combRound (X, 0)) := by
  induction k with
  | zero => exact ⟨fun i hi => absurd hi (Nat.not_lt_zero i), rfl, fun _ _ => rfl, rfl⟩
  | succ k ih =>
    rw [List.range'_1_concat, List.foldl_append, List.foldl_cons, List.foldl_nil, Nat.add_comm 1 k]
    exact combRound_recoded ih

/-- `ecp_comb_fixed` writes the digits with their signs. -/
theorem combFixed_recoded (d w : ℕ) (m : ℤ) :
    Recoded (combClassic d w m) d (combFixed d w m, (digit (combClassic d w m) d).2) := by
  have h := combRounds_recoded (combClassic d w m) d
  exact ⟨h.below, h.here, h.above, rfl⟩

/-- A digit with its sign in bit 7. -/
theorem digit_fields {w v : ℕ} (hw : w ≤ 7) (hv : v < 2^w) (s : Bool) :
    (v ||| s.toNat <<< 7) &&& 0x7F = v ∧ (v ||| s.toNat <<< 7) >>> 7 = s.toNat := by
  have hlt : v < 2^7 := hv.trans_le (Nat.pow_le_pow_right (by decide) hw)
  have hor : v ||| s.toNat <<< 7 = s.toNat*2^7+v := by
    rw [Nat.shiftLeft_eq, Nat.mul_comm, Nat.or_comm, ← Nat.two_pow_add_eq_or_of_lt hlt]
  rw [hor, show (0x7F : ℕ) = 2^7-1 from rfl, Nat.and_two_pow_sub_one_eq_mod,
    Nat.shiftRight_eq_div_pow]
  omega

/-- An odd number below the columns is what its digits stand for. -/
theorem value_combClassic {d w : ℕ} {m : ℤ} (hm : 0 ≤ m) (hlt : m < 2^(w*d)) :
    value (combClassic d w m) w d = m := by
  have hnat : m.natAbs < 2^(w*d) := by
    zify
    rwa [abs_of_nonneg hm]
  rw [value_columns hnat (combClassic_last w m le_rfl), Int.natAbs_of_nonneg hm]
  intro i hi l hl
  rw [combClassic_testBit w hi, decide_eq_true hl, Bool.true_and]

/-! ## The table -/

section Table

variable (g : EcpGroup) [hprime : Fact g.P.Prime]

/-- Entry `j` of the table is the comb `2*j+1` times the point. -/
def Table (w d : ℕ) (T : ℕ → EcpPoint) (Q : g.curve.Point) : Prop :=
  ∀ j < 2^(w-1), AffineAt g (T j) (comb w d (2*j+1) • Q)

variable {g}

theorem safeInvertJac_affine {pt : EcpPoint} {Q : g.curve.Point} (h : AffineAt g pt Q)
    (inv : Bool) : AffineAt g (safeInvertJac g pt inv) (if inv then -Q else Q) := by
  unfold safeInvertJac
  cases inv with
  | false => exact h
  | true =>
    obtain ⟨hr, hz, hns, rfl⟩ := h
    rw [if_pos rfl, Point.neg_some]
    by_cases hY : pt.Y = 0
    · simp only [hY, bne_self_eq_false, Bool.and_false, Bool.false_eq_true, if_false]
      refine ⟨hr, hz, ?_⟩
      have hneg : g.curve.negY (pt.X : ZMod g.P) pt.Y = pt.Y := by
        rw [negY_eq, hY, Int.cast_zero, neg_zero]
      simp only [hY] at hneg
      refine ⟨by rw [hY, ← hneg, ← hY]; exact (nonsingular_neg _ _).mpr hns, ?_⟩
      simp only [Point.some.injEq, true_and]
      rw [hY, hneg]
    · have hnonzero : (pt.Y != 0) = true := bne_iff_ne.mpr hY
      rw [hnonzero]
      dsimp only
      rw [Bool.and_true, if_pos rfl]
      have hlt := hr.Y.2
      have hge := hr.Y.1
      have hcast : ((g.P-pt.Y : ℤ) : ZMod g.P) = g.curve.negY (pt.X : ZMod g.P) pt.Y := by
        rw [negY_eq, Int.cast_sub, Int.cast_natCast, ZMod.natCast_self, zero_sub]
      refine ⟨⟨hr.X, ⟨?_, ?_⟩, hr.z⟩, hz, ?_⟩
      · dsimp only
        omega
      · dsimp only
        omega
      · dsimp only
        rw [hcast]
        exact ⟨(nonsingular_neg _ _).mpr hns, rfl⟩

omit hprime in
/-- The loop of `ecp_select_comb` leaves the entry that is asked for. -/
theorem select_entry (T : ℕ → EcpPoint) (ii n : ℕ) (R : EcpPoint) :
    (List.range n).foldl (fun R j => if j = ii then { R with X := (T j).X, Y := (T j).Y } else R) R =
      if ii < n then { R with X := (T ii).X, Y := (T ii).Y } else R := by
  induction n with
  | zero => rfl
  | succ n ih =>
    rw [List.range_succ, List.foldl_append, List.foldl_cons, List.foldl_nil, ih]
    by_cases heq : n = ii
    · subst heq
      rw [if_pos rfl, if_neg (Nat.lt_irrefl n), if_pos (Nat.lt_succ_self n)]
    · rw [if_neg heq]
      by_cases hlt : ii < n
      · rw [if_pos hlt, if_pos (Nat.lt_succ_of_lt hlt)]
      · rw [if_neg hlt, if_neg (by omega)]

omit hprime in
/-- In the loop the entry goes to coordinates without `Z`. -/
theorem selectComb_unset (T : ℕ → EcpPoint) (n i : ℕ) :
    { selectComb g ⟨0, 0, none⟩ T n i with Z := none } = selectComb g ⟨0, 0, none⟩ T n i := by
  unfold selectComb safeInvertJac
  dsimp only
  rw [select_entry]
  split_ifs <;> rfl

/-- A digit with its sign selects that multiple of the point. -/
theorem selectComb_spec {w d : ℕ} {T : ℕ → EcpPoint} {Q : g.curve.Point} (hT : Table g w d T Q)
    (hw : 0 < w ∧ w ≤ 7) {v : ℕ} (hv : v < 2^w) (hodd : v % 2 = 1) (s : Bool) (R : EcpPoint)
    (z : Option ℤ) (hz : z = none ∨ z = some 1) :
    AffineAt g { selectComb g R T (2^(w-1)) (v ||| s.toNat <<< 7) with Z := z }
      (((if s then -1 else 1)*comb w d v) • Q) := by
  obtain ⟨hlow, hsign⟩ := digit_fields hw.2 hv s
  have hhalf : v >>> 1 < 2^(w-1) := by
    rw [Nat.shiftRight_eq_div_pow, pow_one]
    have : 2^w = 2*2^(w-1) := by
      rw [← pow_succ', Nat.sub_add_cancel hw.1]
    omega
  have hv2 : 2*(v >>> 1)+1 = v := by
    rw [Nat.shiftRight_eq_div_pow, pow_one]
    omega
  have hentry := hT _ hhalf
  rw [hv2] at hentry
  have hset : AffineAt g ⟨(T (v >>> 1)).X, (T (v >>> 1)).Y, z⟩ (comb w d v • Q) := by
    refine ⟨⟨hentry.1.X, hentry.1.Y, ?_⟩, hz, hentry.2.2⟩
    rcases hz with rfl | rfl
    · exact ⟨le_rfl, Int.natCast_pos.mpr hprime.out.pos⟩
    · exact ⟨Int.one_nonneg, Int.ofNat_lt.mpr hprime.out.one_lt⟩
  have hresult := safeInvertJac_affine hset s
  have hflag : (s.toNat != 0) = s := by cases s <;> rfl
  have hpoint : { selectComb g R T (2^(w-1)) (v ||| s.toNat <<< 7) with Z := z } =
      safeInvertJac g ⟨(T (v >>> 1)).X, (T (v >>> 1)).Y, z⟩ s := by
    unfold selectComb
    dsimp only
    rw [hlow, hsign, hflag, select_entry, if_pos hhalf]
    unfold safeInvertJac
    dsimp only
    split_ifs <;> rfl
  rw [hpoint]
  cases s with
  | false => simpa using hresult
  | true => simpa using hresult

end Table

/-! ## The loop -/

section Loop

variable {g : EcpGroup} [hprime : Fact g.P.Prime]

/-- Other random coordinates stand for the same point. -/
theorem randomizeJac_spec {pt : EcpPoint} {Q : g.curve.Point} (hQ : Stands g pt Q) {l : ℤ}
    (hl : 0 < l ∧ l < g.P) :
    Reduced g (randomizeJac g l pt) ∧ Stands g (randomizeJac g l pt) Q := by
  have hmul := modMul_inField hprime.out.pos
  have hl0 : (l : ZMod g.P) ≠ 0 := by
    rw [ne_eq, cast_eq_zero ⟨hl.1.le, hl.2⟩]
    exact hl.1.ne'
  have hz : ((randomizeJac g l pt).z : ZMod g.P) = pt.z*l := by
    change ((modMul g (pt.z*l) : ℤ) : ZMod g.P) = _
    rw [modMul_cast, Int.cast_mul]
  have hX : ((randomizeJac g l pt).X : ZMod g.P) = pt.X*l^2 := by
    change ((modMul g (pt.X*modMul g (l*l)) : ℤ) : ZMod g.P) = _
    simp only [modMul_cast, Int.cast_mul, pow_two]
  have hY : ((randomizeJac g l pt).Y : ZMod g.P) = pt.Y*l^3 := by
    change ((modMul g (pt.Y*modMul g (modMul g (l*l)*l)) : ℤ) : ZMod g.P) = _
    simp only [modMul_cast, Int.cast_mul]
    ring
  refine ⟨⟨hmul _, hmul _, hmul _⟩, ?_⟩
  cases Q with
  | zero =>
    change (pt.z : ZMod g.P) = 0 at hQ
    change ((randomizeJac g l pt).z : ZMod g.P) = 0
    rw [hz, hQ, zero_mul]
  | some x y h =>
    obtain ⟨hz0, hx, hy⟩ := hQ
    refine ⟨?_, ?_, ?_⟩
    · rw [hz]
      exact mul_ne_zero hz0 hl0
    · rw [hz, hX, ← hx]
      ring
    · rw [hz, hY, ← hy]
      ring

variable [hN : Fact g.N.Prime] {Q : g.curve.Point} (hQ : Q ≠ 0) (horder : (g.N : ℤ) • Q = 0)

include hQ horder

theorem order_dvd (k : ℤ) : k • Q = 0 ↔ (g.N : ℤ) ∣ k := by
  have hord : addOrderOf Q = g.N := by
    apply addOrderOf_eq_prime _ hQ
    rwa [natCast_zsmul] at horder
  rw [← hord, addOrderOf_dvd_iff_zsmul_eq_zero]

theorem multiple_ne_zero {k : ℤ} (h0 : 0 < k) (hlt : k < g.N) : k • Q ≠ 0 := by
  rw [ne_eq, order_dvd hQ horder]
  intro hdvd
  exact absurd (Int.le_of_dvd h0 hdvd) (not_le.mpr hlt)

theorem twice_ne_zero (h2 : g.N ≠ 2) {k : ℤ} (h0 : 0 < k) (hlt : k < g.N) : k • Q+k • Q ≠ 0 := by
  rw [← two_zsmul, smul_smul, ne_eq, order_dvd hQ horder]
  intro hdvd
  rcases (Nat.prime_iff_prime_int.mp hN.out).dvd_or_dvd hdvd with h | h
  · have hle := Int.le_of_dvd (by decide) h
    have htwo := hN.out.two_le
    omega
  · exact absurd (Int.le_of_dvd h0 h) (not_le.mpr hlt)

variable {w d : ℕ} {m : ℤ} (hw : 0 < w ∧ w ≤ 7) (hd : 0 < d) (h2 : g.N ≠ 2)
  (hfit : (g.N : ℤ) ≤ 2^(w*d)) (hsmall : 2*full w d < g.N) (hm : 0 < m ∧ m < g.N)
  (hodd : m % 2 = 1) {T : ℕ → EcpPoint} (hT : Table g w d T Q)

include hw hd h2 hfit hsmall hm hodd hT

/-- From place `i` down to 0, the sum runs through what the digits accumulate. The double is
never the point at infinity, which a table entry without `Z` could not be added to. -/
theorem combLoop_spec {i : ℕ} (hi : i ≤ d) {R : EcpPoint} (hR : Reduced g R)
    (hacc : Stands g R (accumulated (combClassic d w m) w d i • Q)) :
    ∃ r, combLoop g T (2^(w-1)) (combFixed d w m) i R = .ok r ∧ Reduced g r ∧
      Stands g r (m • Q) := by
  have hlast := combClassic_last w m (le_refl d)
  have hcol := combClassic_odd hd hw.1 hodd
  have hvalue := value_combClassic hm.1.le (hm.2.trans_le hfit)
  induction i generalizing R with
  | zero =>
    rw [accumulated_zero _ w hlast, hvalue] at hacc
    exact ⟨R, rfl, hR, hacc⟩
  | succ i ih =>
    have hpos := accumulated_pos _ hw.1 hcol hlast hi
    have hlt := twice_accumulated_lt _ hw.1 hlast (show 0 < i+1 by omega) hi
    rw [hvalue] at hlt
    have hdouble := twice_ne_zero hQ horder h2 (by omega)
      (by omega : accumulated (combClassic d w m) w d (i+1) < g.N)
    have hselect := selectComb_spec hT hw (digit_lt _ (combClassic_lt d w m) i).1
      (digit_odd _ hcol i) (negative (combClassic d w m) i) ⟨0, 0, none⟩ none (.inl rfl)
    rw [← (combFixed_recoded d w m).below i hi] at hselect
    dsimp only at hselect
    rw [selectComb_unset] at hselect
    obtain ⟨r, hrun, hstands, hr⟩ := addMixed_stands g (doubleJac_reduced g hprime.out.pos R)
      hselect.1 (doubleJac_stands g hacc) hselect.affine (fun _ => hdouble)
    have hstep := accumulated_step (combClassic d w m) w (show i < d by omega)
    rw [sign] at hstep
    simp only [show i < d by omega, true_and] at hstep
    rw [← add_zsmul, ← add_zsmul, ← two_mul, ← hstep] at hstands
    rw [combLoop, hrun]
    exact ih (by omega) hr hstands

/-- `ecp_mul_comb_core` multiplies by an odd number, with other random coordinates or without. -/
theorem mulCombCore_spec (R : EcpPoint) {l : Option ℤ} (hl : ∀ n ∈ l, 0 < n ∧ n < g.P) :
    ∃ r, mulCombCore g R T (2^(w-1)) (combFixed d w m) d l = .ok r ∧ Reduced g r ∧
      Stands g r (m • Q) := by
  have hcol := combClassic_odd hd hw.1 hodd
  have hselect := selectComb_spec hT hw (digit_lt _ (combClassic_lt d w m) d).1
    (digit_odd _ hcol d) false R (some 1) (.inr rfl)
  rw [Bool.toNat_false, Nat.zero_shiftLeft, Nat.or_zero, ← (combFixed_recoded d w m).here,
    if_neg Bool.false_ne_true, one_mul, (combFixed_recoded d w m).here,
    ← accumulated_last] at hselect
  rw [← (combFixed_recoded d w m).here] at hselect
  have hstands := hselect.affine.stands g (by simp)
  unfold mulCombCore
  dsimp only at hselect hstands ⊢
  cases l with
  | none =>
    exact combLoop_spec hQ horder hw hd h2 hfit hsmall hm hodd hT le_rfl hselect.1 hstands
  | some l =>
    obtain ⟨hr, hs⟩ := randomizeJac_spec hstands (hl l rfl)
    exact combLoop_spec hQ horder hw hd h2 hfit hsmall hm hodd hT le_rfl hr hs

end Loop

end UBoot.Ecp
