import Mathlib.Tactic

/-!
# Numbers of 32 bits

What an `int` holds of a number that is assigned to it, and differences that wrap around.
-/

set_option autoImplicit false

namespace UBoot.MachineInt

@[irreducible] def asInt (n : ℤ) : ℤ := Int.bmod n (2^32)

theorem asInt_of_lt {n : ℤ} (h0 : 0 ≤ n) (h : n < 2^31) : asInt n = n := by
  unfold asInt
  rw [Int.bmod_eq_of_le] <;> omega

theorem asInt_neg {n : ℤ} (h0 : 2^31 ≤ n) (h : n < 2^32) : asInt n < 0 := by
  unfold asInt Int.bmod
  rw [Int.emod_eq_of_lt (by omega) (by exact_mod_cast h)]
  dsimp only
  rw [if_neg] <;> omega

/-- An even number does not become `-1`. -/
theorem asInt_even_ne (n : ℤ) : asInt (2*n) ≠ -1 := by
  intro h
  have hmod := Int.bmod_emod (x := 2*n) (m := 2^32)
  unfold asInt at h
  rw [h] at hmod
  omega

theorem asInt_lt (n : ℤ) : asInt n < 2^31 := by
  unfold asInt
  have h := Int.bmod_lt (x := n) (m := 2^32) (by decide)
  omega

theorem asInt_eq_iff {n m : ℕ} (hn : n < 2^32) : asInt n = m ↔ n = m ∧ n < 2^31 := by
  by_cases hlt : n < 2^31
  · rw [asInt_of_lt (by positivity) (by exact_mod_cast hlt)]
    simp only [hlt, and_true, Nat.cast_inj]
  · have hneg := asInt_neg (n := n) (by omega) (by exact_mod_cast hn)
    constructor
    · intro h
      omega
    · exact fun h => absurd h.2 hlt

/-- A difference in numbers of 32 bits. -/
def sub32 (a b : ℕ) : ℕ := (a+2^32-b) % 2^32

theorem sub32_eq {a b : ℕ} (h : b ≤ a) (ha : a < 2^32) : sub32 a b = a-b := by
  unfold sub32
  omega

end UBoot.MachineInt
