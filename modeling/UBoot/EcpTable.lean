import UBoot.EcpComb

/-!
# The table of `ecp_precompute_comb`

First the powers of the point that the teeth stand for, then the sums of each of them with
all entries before it; both are normalised, so that the table is affine.
-/

set_option autoImplicit false

namespace UBoot.Ecp

open Mpi WeierstrassCurve.Affine CombDigits

section Precompute

variable {g : EcpGroup} [hprime : Fact g.P.Prime]

theorem doubleJac_iterate {pt : EcpPoint} {Q : g.curve.Point} (hpt : Reduced g pt)
    (hQ : Stands g pt Q) (n : ℕ) :
    Reduced g ((doubleJac g)^[n] pt) ∧ Stands g ((doubleJac g)^[n] pt) ((2 : ℤ)^n • Q) := by
  induction n with
  | zero => exact ⟨hpt, by rwa [pow_zero, one_zsmul]⟩
  | succ n ih =>
    rw [Function.iterate_succ_apply']
    refine ⟨doubleJac_reduced g hprime.out.pos _, ?_⟩
    rw [pow_succ, mul_two, add_zsmul]
    exact doubleJac_stands g ih.2

variable [hN : Fact g.N.Prime] {Q : g.curve.Point} (hQ : Q ≠ 0) (horder : (g.N : ℤ) • Q = 0)
  (h2 : g.N ≠ 2)

include hQ horder h2

theorem pow_ne_zero_point (n : ℕ) : (2 : ℤ)^n • Q ≠ 0 := by
  rw [ne_eq, order_dvd hQ horder]
  intro hdvd
  have htwo := Int.le_of_dvd (by decide) ((Nat.prime_iff_prime_int.mp hN.out).dvd_of_dvd_pow hdvd)
  have hle := hN.out.two_le
  omega

/-! ## The powers -/

/-- The table after the first `k` powers. -/
def powersTable (g : EcpGroup) (d : ℕ) (pt : EcpPoint) (k : ℕ) : ℕ → EcpPoint :=
  ((List.range k).map (2^·)).foldl (precomputePowers g d)
    (Function.update (fun _ => ⟨0, 0, none⟩) 0 pt)

/-- Entry `2^j` holds the tooth `j+1` of the comb. -/
theorem powersTable_spec {d : ℕ} {pt : EcpPoint} (hpt : StandsAt g pt Q) (k : ℕ) :
    powersTable g d pt k 0 = pt ∧
      ∀ j < k, StandsAt g (powersTable g d pt k (2^j)) ((2 : ℤ)^(d*(j+1)) • Q) := by
  induction k with
  | zero => exact ⟨rfl, fun j hj => absurd hj (Nat.not_lt_zero j)⟩
  | succ k ih =>
    have hnext : powersTable g d pt (k+1) = precomputePowers g d (powersTable g d pt k) (2^k) := by
      rw [powersTable, List.range_succ, List.map_append, List.foldl_append]
      rfl
    rw [hnext]
    generalize powersTable g d pt k = T at ih
    obtain ⟨hzero, hpow⟩ := ih
    unfold precomputePowers
    constructor
    · rw [Function.update_of_ne (Nat.two_pow_pos k).ne, hzero]
    · intro j hj
      rcases Nat.lt_succ_iff_lt_or_eq.mp hj with hlt | rfl
      · rw [Function.update_of_ne]
        · exact hpow j hlt
        · exact fun heq => hlt.ne (Nat.pow_right_injective le_rfl heq)
      · rw [Function.update_self]
        have hbefore : ∃ n, StandsAt g (T (2^j >>> 1)) ((2 : ℤ)^(d*n) • Q) ∧ n = j := by
          cases j with
          | zero =>
            refine ⟨0, ?_, rfl⟩
            rw [pow_zero, Nat.shiftRight_eq_div_pow, Nat.mul_zero, pow_zero, one_zsmul]
            change StandsAt g (T 0) Q
            rw [hzero]
            exact hpt
          | succ j =>
            refine ⟨j+1, ?_, rfl⟩
            rw [pow_succ, Nat.shiftRight_eq_div_pow, pow_one, Nat.mul_div_cancel _ (by decide)]
            exact hpow j (by omega)
        obtain ⟨n, hn, rfl⟩ := hbefore
        obtain ⟨hr, hs⟩ := doubleJac_iterate hn.1 hn.2.1 d
        rw [smul_smul, ← pow_add, show d+d*n = d*(n+1) by ring] at hs
        exact ⟨hr, hs, pow_ne_zero_point hQ horder h2 _⟩

/-! ## The sums -/

omit hN hQ horder h2 in
/-- `while( j-- )`: the entries from `i` on are those before it, each with entry `i`. -/
theorem precomputeSums_spec {i : ℕ} {F : ℕ → g.curve.Point} {S : g.curve.Point} (j : ℕ)
    (hj : j ≤ i) (hne : ∀ t < j, F t+S ≠ 0) {T : ℕ → EcpPoint}
    (hT : ∀ t < i, StandsAt g (T t) (F t)) (hS : 0 < j → AffineAt g (T i) S) :
    ∃ T', precomputeSums g i j T = .ok T' ∧ (∀ t < j, StandsAt g (T' (i+t)) (F t+S)) ∧
      ∀ k, k < i ∨ i+j ≤ k → T' k = T k := by
  induction j generalizing T with
  | zero => exact ⟨T, rfl, fun t ht => absurd ht (Nat.not_lt_zero t), fun _ _ => rfl⟩
  | succ j ih =>
    have hfirst := hT j (by omega)
    obtain ⟨r, hrun, hstands, hr⟩ := addMixed_stands g hfirst.1 (hS (by omega)).1 hfirst.2.1
      (hS (by omega)).affine (fun _ => hfirst.2.2)
    obtain ⟨T', hrest, hsums, hsame⟩ := ih (by omega) (fun t ht => hne t (by omega))
      (T := Function.update T (i+j) r)
      (fun t ht => by rw [Function.update_of_ne (by omega)]; exact hT t ht)
      (fun h0 => by rw [Function.update_of_ne (by omega)]; exact hS (by omega))
    rw [precomputeSums, hrun]
    refine ⟨T', hrest, ?_, ?_⟩
    · intro t ht
      rcases Nat.lt_succ_iff_lt_or_eq.mp ht with hlt | rfl
      · exact hsums t hlt
      · rw [hsame (i+t) (.inr le_rfl), Function.update_self]
        exact ⟨hr, hstands, hne t (by omega)⟩
    · intro k hk
      rw [hsame k (by omega), Function.update_of_ne (by omega)]

/-- The entries below `2^k` are combs, and the powers from there on are still powers. -/
structure Summed (w d : ℕ) (Q : g.curve.Point) (pt : EcpPoint) (k : ℕ) (T : ℕ → EcpPoint) :
    Prop where
  zero : T 0 = pt
  below : ∀ t < 2^k, StandsAt g (T t) (comb w d (2*t+1) • Q)
  powers : ∀ n, k ≤ n → n < w-1 → AffineAt g (T (2^n)) ((2 : ℤ)^(d*(n+1)) • Q)

omit hN hQ horder h2 in
theorem comb_sum {w d k t : ℕ} (hk : k < w-1) (ht : t < 2^k) :
    comb w d (2*t+1) • Q+(2 : ℤ)^(d*(k+1)) • Q = comb w d (2*(2^k+t)+1) • Q := by
  rw [← add_zsmul, ← comb_add d (by omega) (by rw [pow_succ]; omega)]
  rw [show 2^(k+1)+(2*t+1) = 2*(2^k+t)+1 by rw [pow_succ]; ring]

omit h2 in
theorem precomputeSums_summed {w d k : ℕ} {pt : EcpPoint} {T : ℕ → EcpPoint} (hk : k < w-1)
    (hfull : full w d < g.N) (h : Summed w d Q pt k T) :
    ∃ T', precomputeSums g (2^k) (2^k) T = .ok T' ∧ Summed w d Q pt (k+1) T' := by
  have hne : ∀ t, comb w d (2*t+1) • Q ≠ 0 := by
    intro t
    apply multiple_ne_zero hQ horder (comb_odd (by omega) (by omega))
    exact (comb_le w d _).trans_lt hfull
  obtain ⟨T', hrun, hsums, hsame⟩ := precomputeSums_spec (2^k) le_rfl
    (fun t ht => by rw [comb_sum hk ht]; exact hne _) h.below
    (fun _ => h.powers k le_rfl hk)
  refine ⟨T', hrun, ?_, ?_, ?_⟩
  · rw [hsame 0 (.inl (Nat.two_pow_pos k)), h.zero]
  · intro t ht
    by_cases hlt : t < 2^k
    · rw [hsame t (.inl hlt)]
      exact h.below t hlt
    · have hlow : t-2^k < 2^k := by
        rw [pow_succ] at ht
        omega
      have hsum := hsums (t-2^k) hlow
      rwa [comb_sum hk hlow, Nat.add_sub_cancel' (by omega)] at hsum
  · intro n hn hlt
    rw [hsame (2^n)]
    · exact h.powers n (by omega) hlt
    · refine .inr ?_
      have hle := Nat.pow_le_pow_right (by decide : 0 < 2) hn
      rw [pow_succ] at hle
      omega

omit h2 in
theorem summed_all {w d : ℕ} {pt : EcpPoint} {T : ℕ → EcpPoint} (hfull : full w d < g.N)
    (h : Summed w d Q pt 0 T) :
    ∃ T', (powers w).foldlM (fun T i => precomputeSums g i i T) T = .ok T' ∧
      Summed w d Q pt (w-1) T' := by
  suffices hk : ∀ k ≤ w-1, ∃ T', ((List.range k).map (2^·)).foldlM
      (fun T i => precomputeSums g i i T) T = .ok T' ∧ Summed w d Q pt k T' from hk (w-1) le_rfl
  intro k hk
  induction k with
  | zero => exact ⟨T, rfl, h⟩
  | succ k ih =>
    obtain ⟨T₁, hrun₁, h₁⟩ := ih (by omega)
    obtain ⟨T₂, hrun₂, hsummed⟩ := precomputeSums_summed hQ horder (by omega) hfull h₁
    refine ⟨T₂, ?_, hsummed⟩
    rw [List.range_succ, List.map_append, List.foldlM_append, hrun₁, List.map_singleton]
    change (precomputeSums g (2^k) (2^k) T₁ >>= fun T => pure T) = _
    rw [hrun₂]
    rfl

/-! ## The whole table -/

omit hprime hN hQ horder h2 in
theorem mem_powers {w k : ℕ} : k ∈ powers w ↔ ∃ j < w-1, 2^j = k := by
  simp [powers]

omit hprime hN hQ horder h2 in
theorem mem_sums {w k : ℕ} :
    k ∈ (powers w).flatMap (fun i => (List.range i).reverse.map (i+·)) ↔ 0 < k ∧ k < 2^(w-1) := by
  simp only [List.mem_flatMap, mem_powers, List.mem_map, List.mem_reverse, List.mem_range]
  constructor
  · rintro ⟨i, ⟨j, hj, rfl⟩, t, ht, rfl⟩
    refine ⟨by positivity, ?_⟩
    calc 2^j+t < 2^j+2^j := Nat.add_lt_add_left ht _
      _ = 2^(j+1) := by rw [pow_succ, mul_two]
      _ ≤ 2^(w-1) := Nat.pow_le_pow_right (by decide) hj
  · rintro ⟨h0, hk⟩
    have hlow := Nat.pow_log_le_self 2 h0.ne'
    have hhigh := Nat.lt_pow_succ_log_self (by decide : 1 < 2) k
    rw [Nat.succ_eq_add_one, pow_succ] at hhigh
    refine ⟨_, ⟨Nat.log 2 k, ?_, rfl⟩, k-2^Nat.log 2 k, by omega, by omega⟩
    exact (Nat.pow_lt_pow_iff_right (by decide)).mp (hlow.trans_lt hk)

omit hprime hN hQ horder h2 in
theorem powers_nodup (w : ℕ) : (powers w).Nodup :=
  List.nodup_range.map (Nat.pow_right_injective le_rfl)

omit hprime hN hQ horder h2 in
theorem sums_nodup (w : ℕ) :
    ((powers w).flatMap fun i => (List.range i).reverse.map (i+·)).Nodup := by
  rw [List.nodup_flatMap]
  constructor
  · intro i _
    exact (List.nodup_reverse.mpr List.nodup_range).map (add_right_injective i)
  · rw [powers, List.pairwise_map]
    apply List.pairwise_lt_range.imp
    intro a b hab k ha hb
    simp only [List.mem_map, List.mem_reverse, List.mem_range] at ha hb
    obtain ⟨s, hs, rfl⟩ := ha
    obtain ⟨t, ht, heq⟩ := hb
    have hle := Nat.pow_le_pow_right (by decide : 0 < 2) hab
    rw [Nat.succ_eq_add_one, pow_succ] at hle
    omega

/-- Every entry of the table is the comb of its index times the point. -/
theorem precomputeComb_spec {w d : ℕ} {pt : EcpPoint} (hw : 2 ≤ w) (hfull : full w d < g.N)
    (hpt : AffineAt g pt Q) (hone : pt.Z = some 1) :
    ∃ T, precomputeComb g pt w d = .ok T ∧ Table g w d T Q := by
  have hstands : StandsAt g pt Q :=
    ⟨hpt.1, hpt.affine.stands g (by rw [hone]; simp), hQ⟩
  obtain ⟨hzero, hpow⟩ := powersTable_spec hQ horder h2 (d := d) hstands (w-1)
  have hloop : (powers w).foldl (precomputePowers g d)
      (Function.update (fun _ => ⟨0, 0, none⟩) 0 pt) = powersTable g d pt (w-1) := rfl
  unfold precomputeComb
  dsimp only
  rw [hloop]
  generalize powersTable g d pt (w-1) = T at *
  obtain ⟨T₁, hrun₁, haff₁, hsame₁⟩ := normalizeJacMany_spec (g := g) (T := T) (powers w)
    (Q := fun k => (2 : ℤ)^(d*(Nat.log 2 k+1)) • Q)
    (List.ne_nil_of_mem (mem_powers.mpr ⟨0, by omega, rfl⟩)) (powers_nodup w) (by
      intro k hk
      obtain ⟨j, hj, rfl⟩ := mem_powers.mp hk
      rw [Nat.log_pow (by decide)]
      exact hpow j hj)
  have hzero₁ : T₁ 0 = pt := by
    rw [hsame₁ 0, hzero]
    intro h0
    obtain ⟨j, -, hj⟩ := mem_powers.mp h0
    exact (Nat.two_pow_pos j).ne' hj
  obtain ⟨T₂, hrun₂, hsummed⟩ := summed_all hQ horder (d := d) (T := T₁) hfull (by
    refine ⟨hzero₁, ?_, ?_⟩
    · intro t ht
      obtain rfl : t = 0 := by omega
      rw [hzero₁, Nat.mul_zero, Nat.zero_add, comb_one d (by omega), one_zsmul]
      exact hstands
    · intro n _ hn
      have haff := haff₁ (2^n) (mem_powers.mpr ⟨n, hn, rfl⟩)
      rwa [Nat.log_pow (by decide)] at haff)
  obtain ⟨T₃, hrun₃, haff₃, hsame₃⟩ := normalizeJacMany_spec (g := g) (T := T₂)
    ((powers w).flatMap fun i => (List.range i).reverse.map (i+·))
    (Q := fun k => comb w d (2*k+1) • Q)
    (List.ne_nil_of_mem (mem_sums.mpr ⟨one_pos, Nat.one_lt_two_pow (by omega)⟩)) (sums_nodup w) (by
      intro k hk
      exact hsummed.below k (mem_sums.mp hk).2)
  refine ⟨T₃, ?_, ?_⟩
  · rw [hrun₁]
    change ((powers w).foldlM (fun T i => precomputeSums g i i T) T₁ >>= _) = _
    rw [hrun₂]
    exact hrun₃
  · intro j hj
    by_cases h0 : j = 0
    · subst h0
      rw [hsame₃ 0 fun hmem => absurd (mem_sums.mp hmem).1 (Nat.lt_irrefl 0), hsummed.zero,
        Nat.mul_zero, Nat.zero_add, comb_one d (by omega), one_zsmul]
      exact hpt
    · exact haff₃ j (mem_sums.mpr ⟨by omega, hj⟩)

end Precompute

end UBoot.Ecp
