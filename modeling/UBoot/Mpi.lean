import Mathlib.Data.Int.ModEq
import Mathlib.Data.Nat.Bitwise
import Mathlib.Data.Nat.Prime.Basic
import Mathlib.Data.Nat.Size
import Mathlib.RingTheory.Coprime.Lemmas
import Mathlib.Tactic.LinearCombination

/-!
# Integers of `lib/mbedtls/bignum.c`: reduction, gcd and modular inverse

An `mbedtls_mpi` is the integer that its sign and limbs stand for; shifts act on the
magnitude. The inverse is found by the binary extended Euclidean algorithm.
-/

set_option autoImplicit false

namespace UBoot.Mpi

/-- The error codes that the modelled functions return; `running` is none of them: the
rounds of a loop are used up. -/
inductive Err where
  | mpiBadInputData
  | mpiNegativeValue
  | mpiDivisionByZero
  | mpiNotAcceptable
  | mpiAllocFailed
  | ecpBadInputData
  | ecpFeatureUnavailable
  | ecpVerifyFailed
  | ecpInvalidKey
  | ecpRandomFailed
  | running
  deriving DecidableEq, Repr

def Err.code : Err → ℤ
  | .mpiBadInputData => -0x0004
  | .mpiNegativeValue => -0x000A
  | .mpiDivisionByZero => -0x000C
  | .mpiNotAcceptable => -0x000E
  | .mpiAllocFailed => -0x0010
  | .ecpBadInputData => -0x4F80
  | .ecpFeatureUnavailable => -0x4E80
  | .ecpVerifyFailed => -0x4E00
  | .ecpInvalidKey => -0x4C80
  | .ecpRandomFailed => -0x4D00
  | .running => 0

/-! ## Remainders -/

/-- `while( N < 0 ) N += P` -/
@[grind]
def addWhile (P : ℤ) : ℕ → ℤ → ℤ
  | 0, N => N
  | fuel+1, N => if N < 0 then addWhile P fuel (N+P) else N

/-- `while( N >= P ) N -= P` -/
@[grind]
def subWhile (P : ℤ) : ℕ → ℤ → ℤ
  | 0, N => N
  | fuel+1, N => if N ≥ P then subWhile P fuel (N-P) else N

/-- Both loops of `mbedtls_mpi_mod_mpi`; a round adds or takes off at least one. -/
def norm (P N : ℤ) : ℤ :=
  let N := addWhile P N.natAbs N
  subWhile P N.natAbs N

/-- `mbedtls_mpi_mod_mpi`; the remainder of the division has the sign of `A`. -/
def modMpi (A B : ℤ) : Except Err ℤ :=
  if B < 0 then .error .mpiNegativeValue
  else if B = 0 then .error .mpiDivisionByZero
  else .ok (norm B (A.tmod B))

theorem addWhile_spec {P : ℤ} (hP : 0 < P) (fuel : ℕ) (N : ℤ) (hfuel : -N ≤ fuel) :
    0 ≤ addWhile P fuel N ∧ addWhile P fuel N % P = N % P ∧
      (addWhile P fuel N < P ∨ addWhile P fuel N = N) := by
  induction fuel generalizing N with
  | zero => exact ⟨by rw [addWhile]; omega, rfl, .inr rfl⟩
  | succ fuel ih =>
    rw [addWhile]
    split_ifs with h
    · obtain ⟨h0, hmod, hlt⟩ := ih (N+P) (by omega)
      refine ⟨h0, by rw [hmod, Int.add_emod_right], ?_⟩
      rcases hlt with hlt | heq
      · exact .inl hlt
      · exact .inl (by omega)
    · exact ⟨by omega, rfl, .inr rfl⟩

theorem subWhile_spec {P : ℤ} (hP : 0 < P) (fuel : ℕ) (N : ℤ) (h0 : 0 ≤ N) (hfuel : N ≤ fuel) :
    subWhile P fuel N = N % P := by
  induction fuel generalizing N with
  | zero =>
    have hN : N = 0 := by omega
    rw [subWhile, hN, Int.zero_emod]
  | succ fuel ih =>
    rw [subWhile]
    split_ifs with h
    · rw [ih (N-P) (by omega) (by omega), Int.sub_emod_right]
    · exact (Int.emod_eq_of_lt h0 (by omega)).symm

/-- The loops leave the remainder. -/
theorem norm_eq {P : ℤ} (hP : 0 < P) (N : ℤ) : norm P N = N % P := by
  obtain ⟨h0, hmod, -⟩ := addWhile_spec hP N.natAbs N (by omega)
  rw [norm, subWhile_spec hP _ _ h0 (by omega), hmod]

theorem modMpi_eq {B : ℤ} (hB : 0 < B) (A : ℤ) : modMpi A B = .ok (A % B) := by
  rw [modMpi, if_neg (by omega), if_neg (by omega), norm_eq hB, Int.tmod_def, Int.sub_mul_emod_self_left]

/-! ## The greatest common divisor -/

/-- `mbedtls_mpi_lsb`, from bit `i` on; 0 where no bit is set. -/
def lsbFrom (n : ℕ) : ℕ → ℕ → ℕ
  | 0, _ => 0
  | k+1, i => if n.testBit i then i else lsbFrom n k (i+1)

def lsb (n : ℕ) : ℕ := lsbFrom n n.size 0

/-- The loop of `mbedtls_mpi_gcd`. -/
@[grind]
def gcdLoop : ℕ → ℕ → ℕ → Option ℕ
  | 0, _, _ => none
  | fuel+1, TA, TB =>
    if TA = 0 then some TB
    else
      let TA := TA >>> lsb TA
      let TB := TB >>> lsb TB
      if TA ≥ TB then gcdLoop fuel ((TA-TB) >>> 1) TB else gcdLoop fuel TA ((TB-TA) >>> 1)

def mpiGcd (A B : ℤ) : Option ℕ :=
  let TA := A.natAbs
  let TB := B.natAbs
  let lz := lsb TA
  let lzt := lsb TB
  let lz := if lzt < lz then lzt else lz
  (gcdLoop (TA+TB+1) (TA >>> lz) (TB >>> lz)).map (· <<< lz)

theorem lsbFrom_spec (n : ℕ) (k i : ℕ) (hlow : ∀ j < i, n.testBit j = false)
    (hset : ∃ j < i+k, n.testBit j = true) :
    n.testBit (lsbFrom n k i) = true ∧ ∀ j < lsbFrom n k i, n.testBit j = false := by
  induction k generalizing i with
  | zero =>
    obtain ⟨j, hj, hbit⟩ := hset
    rw [hlow j (by omega)] at hbit
    cases hbit
  | succ k ih =>
    rw [lsbFrom]
    split_ifs with h
    · exact ⟨h, hlow⟩
    · apply ih (i+1)
      · intro j hj
        rcases Nat.lt_succ_iff_lt_or_eq.mp hj with hlt | rfl
        · exact hlow j hlt
        · exact Bool.eq_false_iff.mpr h
      · obtain ⟨j, hj, hbit⟩ := hset
        exact ⟨j, by omega, hbit⟩

/-- What the shift leaves is odd, and nothing is lost. -/
theorem lsb_spec {n : ℕ} (hn : n ≠ 0) : (n >>> lsb n) % 2 = 1 ∧ 2^lsb n*(n >>> lsb n) = n := by
  obtain ⟨j, hj⟩ := Nat.exists_testBit_of_ne_zero hn
  have hset : ∃ j < 0+n.size, n.testBit j = true := by
    refine ⟨j, ?_, hj⟩
    rw [Nat.zero_add]
    by_contra hge
    rw [Nat.testBit_lt_two_pow (Nat.size_le.mp (by omega))] at hj
    cases hj
  obtain ⟨hbit, hlow⟩ := lsbFrom_spec n n.size 0 (fun j hj => absurd hj (Nat.not_lt_zero j)) hset
  change n.testBit (lsb n) = true at hbit
  change ∀ j < lsb n, n.testBit j = false at hlow
  constructor
  · rw [Nat.testBit_eq_decide_div_mod_eq] at hbit
    rw [Nat.shiftRight_eq_div_pow]
    exact of_decide_eq_true hbit
  · rw [Nat.shiftRight_eq_div_pow]
    apply Nat.mul_div_cancel'
    apply Nat.dvd_of_mod_eq_zero
    apply Nat.eq_of_testBit_eq
    intro i
    rw [Nat.testBit_mod_two_pow, Nat.zero_testBit]
    by_cases hi : i < lsb n
    · rw [hlow i hi, Bool.and_false]
    · rw [decide_eq_false hi, Bool.false_and]

theorem lsb_pos {n : ℕ} (hn : n ≠ 0) : 0 < n >>> lsb n ∧ n >>> lsb n ≤ n := by
  obtain ⟨hodd, -⟩ := lsb_spec hn
  refine ⟨Nat.pos_of_ne_zero fun h0 => ?_, Nat.shiftRight_le n _⟩
  rw [h0] at hodd
  cases hodd

theorem lsb_of_odd {n : ℕ} (h : n % 2 = 1) : lsb n = 0 := by
  have hn : n ≠ 0 := by omega
  obtain ⟨-, heq⟩ := lsb_spec hn
  by_contra hne
  obtain ⟨k, hk⟩ := Nat.exists_eq_succ_of_ne_zero hne
  rw [hk, Nat.pow_succ, Nat.mul_right_comm] at heq
  generalize 2^k*(n >>> k.succ) = m at heq
  rw [← heq, Nat.mul_mod_left] at h
  cases h

/-- Twos of one number do not count where the other is odd. -/
theorem gcd_shift {a b : ℕ} (ha : a ≠ 0) (hb : b % 2 = 1) : Nat.gcd (a >>> lsb a) b = Nat.gcd a b := by
  obtain ⟨-, heq⟩ := lsb_spec ha
  conv_rhs => rw [← heq]
  have hcop : Nat.Coprime (2^lsb a) b := by
    apply Nat.Coprime.pow_left
    exact Nat.coprime_two_left.mpr (Nat.odd_iff.mpr hb)
  exact (Nat.Coprime.gcd_mul_left_cancel _ hcop).symm

theorem gcd_shift_both {a b : ℕ} (ha : a ≠ 0) (hb : b ≠ 0) (hodd : a % 2 = 1 ∨ b % 2 = 1) :
    Nat.gcd (a >>> lsb a) (b >>> lsb b) = Nat.gcd a b := by
  rcases hodd with h | h
  · rw [lsb_of_odd h, Nat.shiftRight_zero, Nat.gcd_comm, gcd_shift hb h, Nat.gcd_comm]
  · rw [lsb_of_odd h, Nat.shiftRight_zero, gcd_shift ha h]

/-- Half of the difference of two odd numbers. -/
theorem gcd_half {a b : ℕ} (hle : b ≤ a) (ha : a % 2 = 1) (hb : b % 2 = 1) :
    Nat.gcd ((a-b) >>> 1) b = Nat.gcd a b := by
  have htwice : 2*((a-b) >>> 1) = a-b := by
    rw [Nat.shiftRight_eq_div_pow, pow_one]
    omega
  have hcop : Nat.Coprime 2 b := Nat.coprime_two_left.mpr (Nat.odd_iff.mpr hb)
  rw [← Nat.Coprime.gcd_mul_left_cancel _ hcop, htwice]
  exact Nat.gcd_sub_self_left hle

theorem gcdLoop_spec (fuel TA TB : ℕ) (hfuel : TA+TB < fuel) (hTB : TB ≠ 0)
    (hodd : TA % 2 = 1 ∨ TB % 2 = 1) : gcdLoop fuel TA TB = some (Nat.gcd TA TB) := by
  induction fuel generalizing TA TB with
  | zero => omega
  | succ fuel ih =>
    rw [gcdLoop]
    dsimp only
    split_ifs with h0 hge
    · rw [h0, Nat.gcd_zero_left]
    · obtain ⟨ha, -⟩ := lsb_spec h0
      obtain ⟨hb, -⟩ := lsb_spec hTB
      have hbpos := lsb_pos hTB
      have hapos := lsb_pos h0
      have hshift : (TA >>> lsb TA-TB >>> lsb TB) >>> 1 ≤ TA >>> lsb TA-TB >>> lsb TB :=
        Nat.shiftRight_le _ _
      rw [ih _ _ (by omega) (by omega) (.inr hb), gcd_half hge ha hb, gcd_shift_both h0 hTB hodd]
    · obtain ⟨ha, -⟩ := lsb_spec h0
      obtain ⟨hb, -⟩ := lsb_spec hTB
      have hbpos := lsb_pos hTB
      have hapos := lsb_pos h0
      have htwice : (TB >>> lsb TB-TA >>> lsb TA) >>> 1 = (TB >>> lsb TB-TA >>> lsb TA)/2 := by
        rw [Nat.shiftRight_eq_div_pow, pow_one]
      rw [ih _ _ (by omega) (by omega) (.inl ha), Nat.gcd_comm,
        gcd_half (by omega) hb ha, Nat.gcd_comm, gcd_shift_both h0 hTB hodd]

theorem shift_le_lsb {n k : ℕ} (hn : n ≠ 0) (hk : k ≤ lsb n) : 2^k*(n >>> k) = n := by
  obtain ⟨-, heq⟩ := lsb_spec hn
  rw [Nat.shiftRight_eq_div_pow]
  apply Nat.mul_div_cancel'
  exact (pow_dvd_pow 2 hk).trans (Dvd.intro _ heq)

theorem lsb_zero : lsb 0 = 0 := rfl

/-- The binary algorithm finds the greatest common divisor, but for `B = 0`. -/
theorem mpiGcd_eq (A B : ℤ) (hB : B ≠ 0) : mpiGcd A B = some (Int.gcd A B) := by
  have hb : B.natAbs ≠ 0 := Int.natAbs_ne_zero.mpr hB
  rw [mpiGcd, Int.gcd_def]
  generalize A.natAbs = a
  generalize B.natAbs = b at *
  by_cases ha : a = 0
  · subst ha
    rw [lsb_zero, if_neg (Nat.not_lt_zero _), Nat.shiftRight_zero, Nat.shiftRight_zero, gcdLoop,
      if_pos rfl, Option.map_some, Nat.shiftLeft_zero, Nat.gcd_zero_left]
  · have hmin : (if lsb b < lsb a then lsb b else lsb a) = min (lsb a) (lsb b) := by
      split_ifs <;> omega
    rw [hmin]
    have hamul := shift_le_lsb ha (Nat.min_le_left (lsb a) (lsb b))
    have hbmul := shift_le_lsb hb (Nat.min_le_right (lsb a) (lsb b))
    have hodd : (a >>> min (lsb a) (lsb b)) % 2 = 1 ∨ (b >>> min (lsb a) (lsb b)) % 2 = 1 := by
      rcases Nat.le_total (lsb a) (lsb b) with h | h
      · rw [Nat.min_eq_left h]
        exact .inl (lsb_spec ha).1
      · rw [Nat.min_eq_right h]
        exact .inr (lsb_spec hb).1
    have hale := Nat.shiftRight_le a (min (lsb a) (lsb b))
    have hble := Nat.shiftRight_le b (min (lsb a) (lsb b))
    have hbne : b >>> min (lsb a) (lsb b) ≠ 0 := by
      intro h0
      rw [h0, Nat.mul_zero] at hbmul
      omega
    rw [gcdLoop_spec _ _ _ (by omega) hbne hodd, Option.map_some, Nat.shiftLeft_eq, Nat.mul_comm,
      ← Nat.gcd_mul_left, hamul, hbmul]

/-! ## The modular inverse -/

/-- A pair `T`, `1` and `2` of the source: `x*TA+y*TB = t`. -/
structure Combination where
  t : ℤ
  x : ℤ
  y : ℤ
  deriving DecidableEq, Repr

/-- `while( ( TU.p[0] & 1 ) == 0 )` -/
def halve (TA TB : ℤ) : ℕ → Combination → Option Combination
  | 0, _ => none
  | fuel+1, U =>
    if U.t % 2 = 0 then
      let (x, y) := if U.x % 2 ≠ 0 ∨ U.y % 2 ≠ 0 then (U.x+TB, U.y-TA) else (U.x, U.y)
      halve TA TB fuel ⟨U.t.tdiv 2, x.tdiv 2, y.tdiv 2⟩
    else some U

def Combination.sub (U V : Combination) : Combination := ⟨U.t-V.t, U.x-V.x, U.y-V.y⟩

/-- The outer loop; it leaves `V1`. -/
def invRounds (TA TB : ℤ) (inner : ℕ) : ℕ → Combination → Combination → Option ℤ
  | 0, _, _ => none
  | fuel+1, U, V => do
    let U ← halve TA TB inner U
    let V ← halve TA TB inner V
    let (U, V) := if U.t ≥ V.t then (U.sub V, V) else (U, V.sub U)
    if U.t = 0 then some V.x else invRounds TA TB inner fuel U V

/-- `mbedtls_mpi_inv_mod`; the numbers in `TU` and `TV` only fall. -/
def invMod (A N : ℤ) : Except Err ℤ :=
  if N ≤ 0 then .error .mpiBadInputData
  else
    match mpiGcd A N with
    | none => .error .running
    | some G =>
      if G ≠ 1 then .error .mpiNotAcceptable
      else
        match modMpi A N with
        | .error e => .error e
        | .ok TA =>
          match invRounds TA N (2*N.natAbs) (2*N.natAbs) ⟨TA, 1, 0⟩ ⟨N, 0, 1⟩ with
          | none => .error .running
          | some V1 => .ok (norm N V1)

/-- What `t` is a combination of. -/
def Combination.Of (TA TB : ℤ) (U : Combination) : Prop := U.x*TA+U.y*TB = U.t

theorem Combination.Of.sub {TA TB : ℤ} {U V : Combination} (hU : U.Of TA TB) (hV : V.Of TA TB) :
    (U.sub V).Of TA TB := by
  unfold Combination.Of Combination.sub at *
  linear_combination hU-hV

theorem tdiv_two {a : ℤ} (h : a % 2 = 0) : 2*a.tdiv 2 = a :=
  Int.mul_tdiv_cancel' (Int.dvd_of_emod_eq_zero h)

/-- Of an even combination of two numbers that are not both even, both factors can be made even. -/
theorem even_factors {TA TB x y t : ℤ} (hodd : TA % 2 = 1 ∨ TB % 2 = 1) (ht : t % 2 = 0)
    (h : x*TA+y*TB = t) (hxy : x % 2 ≠ 0 ∨ y % 2 ≠ 0) :
    (x+TB) % 2 = 0 ∧ (y-TA) % 2 = 0 := by
  have hsum : (x % 2*(TA % 2)+y % 2*(TB % 2)) % 2 = 0 := by
    rw [← ht, ← h, Int.add_emod, Int.add_emod (x*TA), Int.mul_emod x, Int.mul_emod y]
  have hx : x % 2 = 0 ∨ x % 2 = 1 := by omega
  have hy : y % 2 = 0 ∨ y % 2 = 1 := by omega
  have hTA : TA % 2 = 0 ∨ TA % 2 = 1 := by omega
  have hTB : TB % 2 = 0 ∨ TB % 2 = 1 := by omega
  rcases hx with hx | hx <;> rcases hy with hy | hy <;> rcases hTA with hTA | hTA <;>
    rcases hTB with hTB | hTB <;> rw [hx, hy, hTA, hTB] at hsum <;> omega

/-- The twos of a positive number are taken out, and it stays a combination. -/
theorem halve_spec {TA TB : ℤ} (hodd : TA % 2 = 1 ∨ TB % 2 = 1) (fuel : ℕ) (U : Combination)
    (hpos : 0 < U.t) (hfuel : U.t ≤ fuel) (hU : U.Of TA TB) :
    ∃ V, halve TA TB fuel U = some V ∧ V.Of TA TB ∧ V.t % 2 = 1 ∧ 0 < V.t ∧ V.t ≤ U.t ∧ V.t ∣ U.t := by
  induction fuel generalizing U with
  | zero => omega
  | succ fuel ih =>
    rw [halve]
    by_cases heven : U.t % 2 = 0
    · rw [if_pos heven]
      have ht := tdiv_two heven
      have hstep : ∀ x y : ℤ, x % 2 = 0 → y % 2 = 0 → x*TA+y*TB = U.t →
          ∃ V, halve TA TB fuel ⟨U.t.tdiv 2, x.tdiv 2, y.tdiv 2⟩ = some V ∧ V.Of TA TB ∧
            V.t % 2 = 1 ∧ 0 < V.t ∧ V.t ≤ U.t ∧ V.t ∣ U.t := by
        intro x y hx hy hxy
        have hof : Combination.Of TA TB ⟨U.t.tdiv 2, x.tdiv 2, y.tdiv 2⟩ := by
          have h2 : 2*(x.tdiv 2*TA+y.tdiv 2*TB) = 2*U.t.tdiv 2 := by
            rw [ht, ← hxy]
            linear_combination TA*tdiv_two hx+TB*tdiv_two hy
          exact Int.eq_of_mul_eq_mul_left (by decide) h2
        obtain ⟨V, hV, hVof, hVodd, hVpos, hVle, hVdvd⟩ := ih ⟨U.t.tdiv 2, x.tdiv 2, y.tdiv 2⟩
          (by dsimp only; omega) (by dsimp only; omega) hof
        dsimp only at hVle hVdvd
        exact ⟨V, hV, hVof, hVodd, hVpos, by omega, hVdvd.trans (Dvd.intro_left 2 ht)⟩
      by_cases hxy : U.x % 2 ≠ 0 ∨ U.y % 2 ≠ 0
      · rw [if_pos hxy]
        obtain ⟨hx, hy⟩ := even_factors hodd heven hU hxy
        apply hstep _ _ hx hy
        rw [← hU]
        ring
      · rw [if_neg hxy]
        exact hstep _ _ (by omega) (by omega) hU
    · rw [if_neg heven]
      exact ⟨U, rfl, hU, by omega, hpos, le_rfl, dvd_rfl⟩

/-- The rounds end, and leave the factor of `TA` in a combination that is 1. -/
theorem invRounds_spec {TA TB : ℤ} (hodd : TA % 2 = 1 ∨ TB % 2 = 1) (inner fuel : ℕ)
    (U V : Combination) (hU : 0 < U.t) (hV : 0 < V.t) (hUof : U.Of TA TB) (hVof : V.Of TA TB)
    (hUin : U.t ≤ inner) (hVin : V.t ≤ inner) (hcop : IsCoprime U.t V.t) (hfuel : U.t+V.t ≤ fuel) :
    ∃ x y, invRounds TA TB inner fuel U V = some x ∧ x*TA+y*TB = 1 := by
  induction fuel generalizing U V with
  | zero => omega
  | succ fuel ih =>
    obtain ⟨U', hU', hUof', hUodd, hUpos, hUle, hUdvd⟩ := halve_spec hodd inner U hU hUin hUof
    obtain ⟨V', hV', hVof', hVodd, hVpos, hVle, hVdvd⟩ := halve_spec hodd inner V hV hVin hVof
    have hcop' : IsCoprime U'.t V'.t :=
      (hcop.of_isCoprime_of_dvd_left hUdvd).of_isCoprime_of_dvd_right hVdvd
    rw [invRounds, hU', hV']
    dsimp only [Option.bind_eq_bind, Option.bind_some]
    split_ifs with hge hzero hzero
    · have hsub : U'.t-V'.t = 0 := hzero
      have heq : U'.t = V'.t := by omega
      have hone : V'.t = 1 := by
        rw [heq] at hcop'
        exact Int.eq_one_of_dvd_one hVpos.le (isCoprime_self.mp hcop').dvd
      exact ⟨V'.x, V'.y, rfl, hVof'.trans hone⟩
    · have hsub : U'.t-V'.t ≠ 0 := hzero
      have hcop2 : IsCoprime (U'.t-V'.t*1) V'.t := IsCoprime.sub_mul_left_left_iff.mpr hcop'
      rw [mul_one] at hcop2
      apply ih (U'.sub V') V'
      · change 0 < U'.t-V'.t
        omega
      · exact hVpos
      · exact hUof'.sub hVof'
      · exact hVof'
      · change U'.t-V'.t ≤ inner
        omega
      · omega
      · exact hcop2
      · change U'.t-V'.t+V'.t ≤ fuel
        omega
    · exact absurd hzero hUpos.ne'
    · have hcop2 : IsCoprime U'.t (V'.t-U'.t*1) := IsCoprime.sub_mul_left_right_iff.mpr hcop'
      rw [mul_one] at hcop2
      apply ih U' (V'.sub U')
      · exact hUpos
      · change 0 < V'.t-U'.t
        omega
      · exact hUof'
      · exact hVof'.sub hUof'
      · omega
      · change V'.t-U'.t ≤ inner
        omega
      · exact hcop2
      · change U'.t+(V'.t-U'.t) ≤ fuel
        omega

/-- A number has an inverse where it is coprime to the modulus, and it is found; elsewhere the
call fails. -/
theorem invMod_spec {N : ℤ} (hN : 1 < N) (A : ℤ) :
    if Int.gcd A N = 1 then ∃ x, invMod A N = .ok x ∧ 0 ≤ x ∧ x < N ∧ x*A ≡ 1 [ZMOD N]
    else invMod A N = .error .mpiNotAcceptable := by
  have hpos : 0 < N := by omega
  rw [invMod, if_neg (not_le.mpr hpos), mpiGcd_eq A N hpos.ne']
  dsimp only
  by_cases hgcd : Int.gcd A N = 1
  · rw [if_pos hgcd, if_neg (not_not.mpr hgcd), modMpi_eq hpos]
    dsimp only
    have hcop : IsCoprime (A % N) N := by
      have hA : IsCoprime (A-N*(A/N)) N :=
        IsCoprime.sub_mul_left_left_iff.mpr (Int.isCoprime_iff_gcd_eq_one.mpr hgcd)
      rwa [← Int.emod_def] at hA
    have hlt := Int.emod_lt_of_pos A (show 0 < N by omega)
    have hne : A % N ≠ 0 := by
      intro h0
      rw [h0, isCoprime_zero_left] at hcop
      have := Int.isUnit_iff.mp hcop
      omega
    have hnonneg := Int.emod_nonneg A (show N ≠ 0 by omega)
    have hodd : A % N % 2 = 1 ∨ N % 2 = 1 := by
      by_contra hno
      have h1 : (2 : ℤ) ∣ A % N := by omega
      have h2 : (2 : ℤ) ∣ N := by omega
      have := hcop.isUnit_of_dvd' h1 h2
      rw [Int.isUnit_iff] at this
      omega
    obtain ⟨x, y, hrun, hone⟩ := invRounds_spec hodd (2*N.natAbs) (2*N.natAbs) ⟨A % N, 1, 0⟩ ⟨N, 0, 1⟩
      (by dsimp only; omega) (by dsimp only; omega) (by unfold Combination.Of; ring)
      (by unfold Combination.Of; ring) (by dsimp only; omega) (by dsimp only; omega) hcop
      (by dsimp only; omega)
    rw [hrun]
    refine ⟨norm N x, rfl, ?_⟩
    rw [norm_eq hpos]
    refine ⟨Int.emod_nonneg _ hpos.ne', Int.emod_lt_of_pos _ hpos, ?_⟩
    have hx : x*(A % N) ≡ 1 [ZMOD N] := by
      rw [Int.modEq_iff_dvd]
      exact ⟨y, by linear_combination -hone⟩
    calc x % N*A ≡ x*(A % N) [ZMOD N] := (Int.mod_modEq x N).mul (Int.mod_modEq A N).symm
      _ ≡ 1 [ZMOD N] := hx
  · rw [if_neg hgcd, if_pos hgcd]

/-- The inverse is the only number of its range that is one. -/
theorem invMod_ok_iff {N : ℤ} (hN : 1 < N) (A x : ℤ) :
    invMod A N = .ok x ↔ (0 ≤ x ∧ x < N) ∧ x*A ≡ 1 [ZMOD N] := by
  have hspec := invMod_spec hN A
  constructor
  · intro h
    split_ifs at hspec with hgcd
    · obtain ⟨y, hy, h0, hlt, hmod⟩ := hspec
      obtain rfl : y = x := Except.ok.inj (hy.symm.trans h)
      exact ⟨⟨h0, hlt⟩, hmod⟩
    · rw [hspec] at h
      cases h
  · rintro ⟨⟨h0, hlt⟩, hmod⟩
    have hcop : IsCoprime A N := by
      obtain ⟨k, hk⟩ := Int.modEq_iff_dvd.mp hmod
      exact ⟨x, k, by linear_combination -hk⟩
    rw [if_pos (Int.isCoprime_iff_gcd_eq_one.mp hcop)] at hspec
    obtain ⟨y, hy, hy0, hylt, hymod⟩ := hspec
    have heq : y ≡ x [ZMOD N] := by
      calc y = y*1 := (mul_one y).symm
        _ ≡ y*(x*A) [ZMOD N] := hmod.symm.mul_left y
        _ = x*(y*A) := by ring
        _ ≡ x*1 [ZMOD N] := hymod.mul_left x
        _ = x := mul_one x
    rw [Int.ModEq, Int.emod_eq_of_lt hy0 hylt, Int.emod_eq_of_lt h0 hlt] at heq
    rw [hy, heq]

theorem invMod_ok_seven : invMod 10 7 = .ok 5 :=
  (invMod_ok_iff (by decide : (1 : ℤ) < 7) 10 5).mpr ⟨by decide, by decide⟩

end UBoot.Mpi
