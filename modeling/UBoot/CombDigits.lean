import Mathlib.Algebra.BigOperators.Intervals
import Mathlib.Algebra.BigOperators.Ring.Finset
import Mathlib.Algebra.Order.BigOperators.Group.Finset
import Mathlib.Data.Nat.Bitwise
import Mathlib.Tactic.Linarith
import Mathlib.Tactic.LinearCombination
import Mathlib.Tactic.Positivity
import Mathlib.Tactic.Ring

/-!
# Signed odd digits of a comb

A comb of `w` teeth at distance `d` stands for the sum of the powers `2^(d*j)` of
its set bits. The columns of a number are combs; where a column is even, the digit
before it is added to it, and counts negative from then on.
-/

set_option autoImplicit false

namespace CombDigits

open Finset

/-- Bit `l`, as an integer. -/
def tooth (v l : ℕ) : ℤ := (v.testBit l).toNat

/-- The value of a comb. -/
def comb (w d v : ℕ) : ℤ := ∑ l ∈ range w, 2^(d*l)*tooth v l

/-- The comb with all its teeth. -/
def full (w d : ℕ) : ℤ := ∑ l ∈ range w, 2^(d*l)

theorem tooth_nonneg (v l : ℕ) : 0 ≤ tooth v l := Int.natCast_nonneg _

theorem tooth_le (v l : ℕ) : tooth v l ≤ 1 := by
  unfold tooth
  cases v.testBit l <;> decide

@[simp]
theorem tooth_zero (l : ℕ) : tooth 0 l = 0 := by
  rw [tooth, Nat.zero_testBit]
  rfl

theorem tooth_odd {v : ℕ} (h : v % 2 = 1) : tooth v 0 = 1 := by
  rw [tooth, Nat.testBit_zero, h]
  rfl

/-- A sum of two bits, with its carry. -/
theorem tooth_add (a b l : ℕ) :
    tooth (a ^^^ b) l+2*tooth (a &&& b) l = tooth a l+tooth b l := by
  simp only [tooth, Nat.testBit_xor, Nat.testBit_and]
  cases a.testBit l <;> cases b.testBit l <;> decide

/-- The carries of two sums one after the other do not meet. -/
theorem tooth_carry (x c k l : ℕ) :
    tooth (x &&& c ||| (x ^^^ c) &&& k) l = tooth (x &&& c) l+tooth ((x ^^^ c) &&& k) l := by
  simp only [tooth, Nat.testBit_or, Nat.testBit_xor, Nat.testBit_and]
  cases x.testBit l <;> cases c.testBit l <;> cases k.testBit l <;> decide

theorem comb_le (w d v : ℕ) : comb w d v ≤ full w d :=
  sum_le_sum fun l _ => mul_le_of_le_one_right (by positivity) (tooth_le v l)

theorem comb_odd {w d v : ℕ} (hw : 0 < w) (hv : v % 2 = 1) : 0 < comb w d v := by
  apply sum_pos'
  · intro l _
    exact mul_nonneg (by positivity) (tooth_nonneg v l)
  · refine ⟨0, mem_range.mpr hw, ?_⟩
    rw [tooth_odd hv, Nat.mul_zero, pow_zero, mul_one]
    exact one_pos

theorem comb_one {w : ℕ} (d : ℕ) (hw : 0 < w) : comb w d 1 = 1 := by
  rw [comb, sum_eq_single_of_mem 0 (mem_range.mpr hw)]
  · rw [tooth_odd rfl, Nat.mul_zero, pow_zero, mul_one]
  · intro l _ hl
    have hbit : Nat.testBit 1 l = false :=
      Bool.eq_false_iff.mpr (Nat.testBit_one_eq_true_iff_self_eq_zero.not.mpr hl)
    rw [tooth, hbit]
    exact mul_zero _

theorem full_lt {d : ℕ} (hd : 0 < d) (w : ℕ) : full (w+1) d < 2^(d*w+1) := by
  induction w with
  | zero => simp [full]
  | succ w ih =>
    have hle : (2 : ℤ)^(d*w+1) ≤ 2^(d*(w+1)) := by
      apply pow_le_pow_right₀ (by decide)
      rw [Nat.mul_succ]
      omega
    rw [full, sum_range_succ, ← full, pow_succ]
    linarith

/-- One more tooth above the others. -/
theorem comb_add {w n v : ℕ} (d : ℕ) (hn : n < w) (hv : v < 2^n) :
    comb w d (2^n+v) = comb w d v+2^(d*n) := by
  have htooth : ∀ l, tooth (2^n+v) l = tooth v l+if l = n then 1 else 0 := by
    intro l
    have hor := Nat.two_pow_add_eq_or_of_lt hv 1
    rw [Nat.mul_one] at hor
    rw [tooth, hor, Nat.testBit_or, Nat.testBit_two_pow, tooth]
    by_cases hl : l = n
    · subst hl
      rw [Nat.testBit_lt_two_pow hv]
      simp
    · simp [hl, Ne.symm hl]
  simp only [comb, htooth, mul_add, sum_add_distrib, mul_ite, mul_one, mul_zero]
  rw [sum_ite_eq' (range w) n, if_pos (mem_range.mpr hn)]

/-! ## Sums of signed digits -/

section Sums

variable (b : ℕ → ℤ)

/-- The digits below place `i`. -/
def low (i : ℕ) : ℤ := ∑ j ∈ range i, b j*2^j

/-- The digits from place `i` up to place `d`. -/
def high (d i : ℕ) : ℤ := ∑ j ∈ range (d+1-i), b (i+j)*2^j

theorem high_last (d : ℕ) : high b d d = b d := by
  rw [high, Nat.add_sub_cancel_left, sum_range_one, Nat.add_zero, pow_zero, mul_one]

/-- A step from place `i+1` to place `i`. -/
theorem high_step {d i : ℕ} (h : i < d) : high b d i = 2*high b d (i+1)+b i := by
  rw [high, high, show d+1-i = (d+1-(i+1))+1 by omega, sum_range_succ', mul_sum]
  congr 1
  · apply sum_congr rfl
    intro j _
    rw [Nat.add_right_comm i 1 j, pow_succ, Nat.add_assoc i j 1]
    ring
  · rw [Nat.add_zero, pow_zero, mul_one]

theorem low_high {d i : ℕ} (h : i ≤ d) : low b i+2^i*high b d i = low b (d+1) := by
  induction h using Nat.decreasingInduction with
  | self => rw [high_last, low, low, sum_range_succ, mul_comm]
  | of_succ i h ih =>
    rw [← ih, high_step b h, low, low, sum_range_succ, pow_succ]
    ring

theorem low_bound {i : ℕ} (h : ∀ j < i, |b j| ≤ 1) : |low b i| ≤ 2^i-1 := by
  induction i with
  | zero => simp [low]
  | succ i ih =>
    have hlow := ih fun j hj => h j (by omega)
    have hdigit : |b i*2^i| ≤ 2^i := by
      rw [abs_mul, abs_of_pos (by positivity : (0 : ℤ) < 2^i)]
      exact mul_le_of_le_one_left (by positivity) (h i (by omega))
    calc |low b (i+1)| = |low b i+b i*2^i| := by rw [low, low, sum_range_succ]
      _ ≤ |low b i|+|b i*2^i| := abs_add_le _ _
      _ ≤ 2^(i+1)-1 := by rw [pow_succ]; linarith

theorem high_nonneg {d i : ℕ} (hi : i ≤ d) (h : ∀ j < i, |b j| ≤ 1) (htotal : 0 ≤ low b (d+1)) :
    0 ≤ high b d i := by
  have hsum := low_high b hi
  have hlow := (abs_le.mp (low_bound b h)).2
  by_contra hneg
  have : (2 : ℤ)^i*high b d i ≤ 2^i*(-1) := mul_le_mul_of_nonneg_left (by omega) (by positivity)
  linarith

theorem high_le {d i : ℕ} (hi : i ≤ d) (h : ∀ j < i, |b j| ≤ 1) :
    2^i*high b d i ≤ low b (d+1)+(2^i-1) := by
  have hsum := low_high b hi
  have hlow := (abs_le.mp (low_bound b h)).1
  linarith

end Sums

/-! ## The digits of columns -/

section Columns

variable (x : ℕ → ℕ)

/-- Digit `i` before its sign is known, and the carry out of it. -/
@[grind]
def digit : ℕ → ℕ × ℕ
  | 0 => (x 0, 0)
  | i+1 =>
    let s := x (i+1) ^^^ (digit i).2
    let k := (digit i).1*(1-s % 2)
    (s ^^^ k, x (i+1) &&& (digit i).2 ||| s &&& k)

/-- Digit `i` counts negative where it is added to the column behind it. -/
def negative (i : ℕ) : Bool := (x (i+1) ^^^ (digit x i).2) % 2 == 0

/-- The sign of digit `i` of `0..d`; the last one has none. -/
def sign (d i : ℕ) : ℤ := if i < d ∧ negative x i then -1 else 1

theorem sign_abs (d i : ℕ) : |sign x d i| = 1 := by
  unfold sign
  split_ifs <;> rfl

/-- Digits are odd. -/
theorem digit_odd (h : x 0 % 2 = 1) (i : ℕ) : (digit x i).1 % 2 = 1 := by
  induction i with
  | zero => exact h
  | succ i ih =>
    rw [digit]
    dsimp only
    generalize x (i+1) ^^^ (digit x i).2 = s
    rcases Nat.mod_two_eq_zero_or_one s with hs | hs
    · rw [hs, Nat.sub_zero, Nat.mul_one, Nat.xor_mod_two_eq_one, hs, ih]
      decide
    · rw [hs, Nat.sub_self, Nat.mul_zero, Nat.xor_zero, hs]

theorem digit_lt {w : ℕ} (h : ∀ i, x i < 2^w) (i : ℕ) : (digit x i).1 < 2^w ∧ (digit x i).2 < 2^w := by
  induction i with
  | zero => exact ⟨h 0, Nat.two_pow_pos w⟩
  | succ i ih =>
    have hs : x (i+1) ^^^ (digit x i).2 < 2^w := Nat.xor_lt_two_pow (h _) ih.2
    rw [digit]
    dsimp only
    generalize x (i+1) ^^^ (digit x i).2 = s at *
    have hk : (digit x i).1*(1-s % 2) < 2^w := by
      apply lt_of_le_of_lt _ ih.1
      exact mul_le_of_le_one_right (Nat.zero_le _) (Nat.sub_le 1 _)
    exact ⟨Nat.xor_lt_two_pow hs hk,
      Nat.or_lt_two_pow (Nat.and_lt_two_pow _ ih.2) (Nat.and_lt_two_pow _ hk)⟩

/-- What a tooth keeps over the rounds: the signed digits, the one that is not signed yet
and the carry are the columns so far. -/
theorem tooth_rounds (d l : ℕ) {i : ℕ} (hi : i ≤ d) :
    low (fun j => sign x d j*tooth (digit x j).1 l) i+tooth (digit x i).1 l*2^i+
      tooth (digit x i).2 l*2^(i+1) = low (fun j => tooth (x j) l) (i+1) := by
  induction i with
  | zero => simp [low, digit]
  | succ i ih =>
    have hprev := ih (by omega)
    have hsum := tooth_add (x (i+1)) (digit x i).2 l
    have hcarry := tooth_carry (x (i+1)) (digit x i).2
    rw [low, sum_range_succ, ← low, show low (fun j => tooth (x j) l) (i+1+1) =
      low (fun j => tooth (x j) l) (i+1)+tooth (x (i+1)) l*2^(i+1) from sum_range_succ _ _, ← hprev]
    rw [digit]
    dsimp only
    rw [hcarry, sign, negative]
    rcases Nat.mod_two_eq_zero_or_one (x (i+1) ^^^ (digit x i).2) with hs | hs
    · rw [hs, Nat.sub_zero, Nat.mul_one]
      simp only [beq_self_eq_true, and_true, if_pos (show i < d by omega)]
      have hadd := tooth_add (x (i+1) ^^^ (digit x i).2) (digit x i).1 l
      linear_combination (2 : ℤ)^(i+1)*hadd+2^(i+1)*hsum
    · rw [hs, Nat.sub_self, Nat.mul_zero, Nat.xor_zero, Nat.and_zero]
      simp only [Nat.reduceBEq, Bool.false_eq_true, and_false, if_false, tooth_zero]
      linear_combination (2 : ℤ)^(i+1)*hsum

theorem signed_le (d l j : ℕ) : |sign x d j*tooth (digit x j).1 l| ≤ 1 := by
  rw [abs_mul, sign_abs, one_mul, abs_of_nonneg (tooth_nonneg _ _)]
  exact tooth_le _ _

theorem columns_nonneg (i l : ℕ) : 0 ≤ low (fun j => tooth (x j) l) i :=
  sum_nonneg fun j _ => mul_nonneg (tooth_nonneg _ _) (by positivity)

/-- Behind an empty column no carry is left. -/
theorem carry_zero {d : ℕ} (hlast : x d = 0) (l : ℕ) : tooth (digit x d).2 l = 0 := by
  have hrounds := tooth_rounds x d l le_rfl
  have hcols : low (fun j => tooth (x j) l) (d+1) = low (fun j => tooth (x j) l) d := by
    rw [low, sum_range_succ, hlast, tooth_zero, zero_mul, add_zero, low]
  have hbound : |low (fun j => tooth (x j) l) d| ≤ 2^d-1 := by
    apply low_bound
    intro j _
    rw [abs_of_nonneg (tooth_nonneg _ _)]
    exact tooth_le _ _
  have hlow := (abs_le.mp (low_bound _ fun j (_ : j < d) => signed_le x d l j)).1
  have hdigit := mul_nonneg (tooth_nonneg (digit x d).1 l) (by positivity : (0 : ℤ) ≤ 2^d)
  have hle := (abs_le.mp hbound).2
  have hnonneg := tooth_nonneg (digit x d).2 l
  by_contra hne
  have hone : tooth (digit x d).2 l = 1 := le_antisymm (tooth_le _ _) (by omega)
  rw [hone, pow_succ] at hrounds
  linarith

/-- The signed digits of a tooth have the value of its columns. -/
theorem tooth_total {d : ℕ} (hlast : x d = 0) (l : ℕ) :
    low (fun j => sign x d j*tooth (digit x j).1 l) (d+1) = low (fun j => tooth (x j) l) (d+1) := by
  rw [← tooth_rounds x d l le_rfl, carry_zero x hlast l, low, sum_range_succ, ← low]
  simp [sign]

/-- What digits `i..d` of all teeth stand for. -/
def accumulated (w d i : ℕ) : ℤ :=
  ∑ l ∈ range w, 2^(d*l)*high (fun j => sign x d j*tooth (digit x j).1 l) d i

theorem accumulated_last (w d : ℕ) : accumulated x w d d = comb w d (digit x d).1 := by
  apply sum_congr rfl
  intro l _
  rw [high_last, sign, if_neg (by simp), one_mul]

theorem accumulated_step (w : ℕ) {d i : ℕ} (h : i < d) :
    accumulated x w d i = 2*accumulated x w d (i+1)+sign x d i*comb w d (digit x i).1 := by
  rw [accumulated, accumulated, comb, mul_sum, mul_sum, ← sum_add_distrib]
  apply sum_congr rfl
  intro l _
  rw [high_step _ h]
  ring

/-- The columns with all their teeth. -/
def value (w d : ℕ) : ℤ := ∑ l ∈ range w, 2^(d*l)*low (fun j => tooth (x j) l) (d+1)

theorem accumulated_zero (w : ℕ) {d : ℕ} (hlast : x d = 0) : accumulated x w d 0 = value x w d := by
  apply sum_congr rfl
  intro l _
  have hsum := low_high (fun j => sign x d j*tooth (digit x j).1 l) (Nat.zero_le d)
  rw [low, range_zero, sum_empty, zero_add, pow_zero, one_mul] at hsum
  rw [hsum, tooth_total x hlast l]

/-- Tooth 0 is odd from every place on, so that nothing accumulated is 0. -/
theorem accumulated_pos {w d i : ℕ} (hw : 0 < w) (hodd : x 0 % 2 = 1) (hlast : x d = 0)
    (hi : i ≤ d) : 1 ≤ accumulated x w d i := by
  have hnonneg : ∀ l, 0 ≤ high (fun j => sign x d j*tooth (digit x j).1 l) d i := by
    intro l
    apply high_nonneg _ hi fun j _ => signed_le x d l j
    rw [tooth_total x hlast l]
    exact columns_nonneg x _ l
  have hfirst : high (fun j => sign x d j*tooth (digit x j).1 0) d i % 2 = 1 := by
    have hunit : ∀ j, sign x d j*tooth (digit x j).1 0 % 2 = 1 := by
      intro j
      rw [tooth_odd (digit_odd x hodd j), mul_one, sign]
      split_ifs <;> rfl
    rcases hi.eq_or_lt with rfl | hlt
    · rw [high_last]
      exact hunit i
    · rw [high_step _ hlt]
      have := hunit i
      omega
  have hterm : 1 ≤ 2^(d*0)*high (fun j => sign x d j*tooth (digit x j).1 0) d i := by
    rw [Nat.mul_zero, pow_zero, one_mul]
    have := hnonneg 0
    omega
  refine hterm.trans (single_le_sum (f := fun l =>
    2^(d*l)*high (fun j => sign x d j*tooth (digit x j).1 l) d i) ?_ (mem_range.mpr hw))
  intro l _
  exact mul_nonneg (by positivity) (hnonneg l)

theorem accumulated_le {w d i : ℕ} (hlast : x d = 0) (hi : i ≤ d) :
    2^i*accumulated x w d i ≤ value x w d+full w d*(2^i-1) := by
  rw [accumulated, value, full, mul_sum, sum_mul, ← sum_add_distrib]
  apply sum_le_sum
  intro l _
  have hle := high_le _ hi fun j _ => signed_le x d l j
  rw [tooth_total x hlast l] at hle
  have hpow : (0 : ℤ) ≤ 2^(d*l) := by positivity
  calc (2 : ℤ)^i*(2^(d*l)*high (fun j => sign x d j*tooth (digit x j).1 l) d i)
      = 2^(d*l)*(2^i*high (fun j => sign x d j*tooth (digit x j).1 l) d i) := by ring
    _ ≤ 2^(d*l)*(low (fun j => tooth (x j) l) (d+1)+(2^i-1)) := mul_le_mul_of_nonneg_left hle hpow
    _ = _ := by ring

/-- Behind the first step, twice what is accumulated stays below the value and two full combs. -/
theorem twice_accumulated_lt {w d i : ℕ} (hw : 0 < w) (hlast : x d = 0) (h0 : 0 < i) (hi : i ≤ d) :
    2*accumulated x w d i < value x w d+2*full w d := by
  have hle := accumulated_le x (w := w) hlast hi
  have hvalue : 0 ≤ value x w d :=
    sum_nonneg fun l _ => mul_nonneg (by positivity) (columns_nonneg x _ l)
  have hfull : 0 < full w d :=
    sum_pos (fun l _ => by positivity) ⟨0, mem_range.mpr hw⟩
  obtain ⟨k, rfl⟩ := Nat.exists_eq_add_of_lt h0
  rw [Nat.zero_add] at *
  have hpow : (1 : ℤ) ≤ 2^k := one_le_pow₀ (by decide)
  have hscaled : 2^k*(2*accumulated x w d (k+1)) < 2^k*(value x w d+2*full w d) := by
    have hv := mul_le_mul_of_nonneg_right hpow hvalue
    rw [pow_succ] at hle
    linarith
  exact lt_of_mul_lt_mul_left hscaled (by positivity)

end Columns

/-! ## The columns of a number -/

/-- The low bits of a number. -/
theorem low_bits (m n : ℕ) : low (fun i => (m.testBit i).toNat) n = (m % 2^n : ℕ) := by
  induction n with
  | zero => simp [low, Nat.mod_one]
  | succ n ih =>
    rw [low, sum_range_succ, ← low, ih, Nat.mod_pow_succ, Nat.testBit_eq_decide_div_mod_eq]
    rcases Nat.mod_two_eq_zero_or_one (m/2^n) with h | h <;> simp [h]

/-- Columns that hold bits `i+d*l` of a number have its value. -/
theorem value_columns {x : ℕ → ℕ} {w d m : ℕ} (hm : m < 2^(w*d)) (hlast : x d = 0)
    (hx : ∀ i < d, ∀ l < w, (x i).testBit l = m.testBit (i+d*l)) : value x w d = m := by
  have hrow : ∀ l < w, 2^(d*l)*low (fun j => tooth (x j) l) (d+1) =
      ∑ j ∈ range d, ((m.testBit (d*l+j)).toNat : ℤ)*2^(d*l+j) := by
    intro l hl
    rw [low, sum_range_succ, hlast, tooth_zero, zero_mul, add_zero, mul_sum]
    apply sum_congr rfl
    intro j hj
    rw [tooth, hx j (mem_range.mp hj) l hl, Nat.add_comm j, pow_add]
    ring
  have hall : ∀ v, ∑ l ∈ range v, ∑ j ∈ range d, ((m.testBit (d*l+j)).toNat : ℤ)*2^(d*l+j) =
      low (fun i => (m.testBit i).toNat) (v*d) := by
    intro v
    induction v with
    | zero => simp [low]
    | succ v ih =>
      rw [sum_range_succ, ih, low, low, Nat.succ_mul, sum_range_add]
      simp only [Nat.mul_comm d v]
  rw [value, sum_congr rfl fun l hl => hrow l (mem_range.mp hl), hall, low_bits, Nat.mod_eq_of_lt hm]

end CombDigits
