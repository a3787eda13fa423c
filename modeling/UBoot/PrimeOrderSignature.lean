import Mathlib.Algebra.Field.ZMod
import Mathlib.Algebra.Module.ZMod
import Mathlib.Tactic.FieldSimp
import Mathlib.Tactic.LinearCombination

/-!
# Signatures in a group of prime order

The elements of a group that a prime `n` annihilates are multiplied by numbers modulo `n`.
A signature is a pair of such numbers, and the map `x` reads a number off an element.
-/

set_option autoImplicit false

namespace PrimeOrderSignature

variable {A : Type*} [AddCommGroup A] {n : ℕ}

/-- A verifier's test for the public key `Q`, the base `G` and the digest `e`. -/
def Accepts (x : A → Option (ZMod n)) (G Q : A) (e r s : ZMod n) : Prop :=
  r ≠ 0 ∧ s ≠ 0 ∧ x ((e*s⁻¹).val • G+(r*s⁻¹).val • Q) = some r

/-- What a signer computes with the private key `d` and the secret number `k`. -/
structure Signs (x : A → Option (ZMod n)) (G : A) (d k e r s : ZMod n) : Prop where
  secret : k ≠ 0
  point : x (k.val • G) = some r
  second : s = k⁻¹*(e+r*d)
  first_ne : r ≠ 0
  second_ne : s ≠ 0

variable [hn : Fact n.Prime] (horder : ∀ a : A, n • a = 0)

include horder

theorem val_add_smul (a b : ZMod n) (P : A) : (a+b).val • P = a.val • P+b.val • P := by
  let := AddCommGroup.zmodModule horder
  simp only [← Nat.cast_smul_eq_nsmul (ZMod n), ZMod.natCast_zmod_val]
  exact add_smul a b P

theorem val_mul_smul (a b : ZMod n) (P : A) : (a*b).val • P = a.val • b.val • P := by
  let := AddCommGroup.zmodModule horder
  simp only [← Nat.cast_smul_eq_nsmul (ZMod n), ZMod.natCast_zmod_val]
  exact mul_smul a b P

theorem val_neg_smul (a : ZMod n) (P : A) : (-a).val • P = -(a.val • P) := by
  let := AddCommGroup.zmodModule horder
  simp only [← Nat.cast_smul_eq_nsmul (ZMod n), ZMod.natCast_zmod_val]
  exact neg_smul a P

theorem intCast_val_smul (m : ℤ) (P : A) : (m : ZMod n).val • P = m • P := by
  let := AddCommGroup.zmodModule horder
  rw [← Nat.cast_smul_eq_nsmul (ZMod n), ZMod.natCast_zmod_val]
  exact Int.cast_smul_eq_zsmul (ZMod n) m P

/-- Signatures are accepted under the key that belongs to the signer's. -/
theorem Signs.accepts {x : A → Option (ZMod n)} {G : A} {d k e r s : ZMod n}
    (h : Signs x G d k e r s) : Accepts x G (d.val • G) e r s := by
  refine ⟨h.first_ne, h.second_ne, ?_⟩
  have hk : e*s⁻¹+r*s⁻¹*d = k := by
    have hk0 := h.secret
    have hs0 := h.second_ne
    have hsk : s*k = e+r*d := by
      rw [h.second]
      field_simp
    field_simp
    linear_combination -hsk
  rw [← val_mul_smul horder, ← val_add_smul horder, hk]
  exact h.point

/-- Where `x` does not tell an element from its negative, the second number may be negated. -/
theorem Accepts.neg {x : A → Option (ZMod n)} (hx : ∀ P, x (-P) = x P) {G Q : A} {e r s : ZMod n}
    (h : Accepts x G Q e r s) : Accepts x G Q e r (-s) := by
  obtain ⟨hr, hs, hpoint⟩ := h
  refine ⟨hr, neg_ne_zero.mpr hs, ?_⟩
  rw [inv_neg, mul_neg, mul_neg, val_neg_smul horder, val_neg_smul horder, ← neg_add, hx]
  exact hpoint

end PrimeOrderSignature
