import Mathlib.Data.Nat.Prime.Basic
import Mathlib.Data.Nat.ModEq
import Mathlib.Order.Interval.Finset.Nat
import Mathlib.Tactic

/-!
# Backward strides on a ring of slots

The slots `1..n` are visited by going back a fixed stride, with slot `n`
before slot `1`. When the stride is coprime to `n` the walk meets every slot
once before it returns to its origin. Nothing here refers to a table.
-/

set_option autoImplicit false

namespace UBoot.ProbeCycle

/-- One stride back from slot `i`. -/
def back (n s i : ℕ) : ℕ := if i ≤ s then n+i-s else i-s

@[grind]
def walk (n s i : ℕ) : ℕ → ℕ
  | 0 => i
  | k+1 => back n s (walk n s i k)

theorem back_pos (n s i : ℕ) (hs : s < n) (hi : 0 < i) : 0 < back n s i := by
  unfold back
  split_ifs <;> omega

theorem back_le (n s i : ℕ) (hi : i ≤ n) : back n s i ≤ n := by
  unfold back
  split_ifs <;> omega

theorem back_modEq (n s i : ℕ) (hs : s < n) : back n s i+s ≡ i [MOD n] := by
  unfold back
  split_ifs with h
  · rw [show n+i-s+s = n+i by omega]
    exact Nat.add_modEq_left
  · rw [show i-s+s = i by omega]

theorem walk_pos (n s i : ℕ) (hs : s < n) (hi : 0 < i) (k : ℕ) : 0 < walk n s i k := by
  induction k with
  | zero => exact hi
  | succ k ih => exact back_pos n s _ hs ih

theorem walk_le (n s i : ℕ) (hi : i ≤ n) (k : ℕ) : walk n s i k ≤ n := by
  induction k with
  | zero => exact hi
  | succ k ih => exact back_le n s _ ih

theorem walk_modEq (n s i : ℕ) (hs : s < n) (k : ℕ) : walk n s i k+k*s ≡ i [MOD n] := by
  induction k with
  | zero => simp [walk, Nat.ModEq.refl]
  | succ k ih =>
    have hb := (back_modEq n s (walk n s i k) hs).add_right (k*s)
    have he : walk n s i (k+1)+(k+1)*s = back n s (walk n s i k)+s+k*s := by
      simp only [walk]
      ring
    rw [he]
    exact hb.trans ih

theorem slot_unique (n a b : ℕ) (ha : 0 < a) (ha' : a ≤ n) (hb : 0 < b) (hb' : b ≤ n)
    (h : a ≡ b [MOD n]) : a = b := by
  rcases Nat.lt_or_ge a n with hn | hn
  · rcases Nat.lt_or_ge b n with hm | hm
    · exact Nat.ModEq.eq_of_lt_of_lt h hn hm
    · have hbn : b = n := le_antisymm hb' hm
      rw [hbn, Nat.ModEq, Nat.mod_self, Nat.mod_eq_of_lt hn] at h
      omega
  · have han : a = n := le_antisymm ha' hn
    rcases Nat.lt_or_ge b n with hm | hm
    · rw [han, Nat.ModEq, Nat.mod_self, Nat.mod_eq_of_lt hm] at h
      omega
    · omega

theorem walk_injective_below (n s i : ℕ) (hs : s < n) (hc : Nat.Coprime s n)
    (k l : ℕ) (hkl : k ≤ l) (hl : l < n) (h : walk n s i k = walk n s i l) : k = l := by
  have hk := walk_modEq n s i hs k
  have hl' := walk_modEq n s i hs l
  rw [← h] at hl'
  have hm : k*s ≡ l*s [MOD n] := Nat.ModEq.add_left_cancel' _ (hk.trans hl'.symm)
  have hkl' : k ≡ l [MOD n] :=
    Nat.ModEq.cancel_right_of_coprime hc.symm hm
  exact Nat.ModEq.eq_of_lt_of_lt hkl' (by omega) hl

/-- The walk does not meet its origin again before `n` strides. -/
theorem walk_ne_start (n s i : ℕ) (hs : s < n) (hc : Nat.Coprime s n)
    (k : ℕ) (hk : 0 < k) (hkn : k < n) : walk n s i k ≠ i := by
  intro h
  have := walk_injective_below n s i hs hc 0 k (Nat.zero_le _) hkn (by simpa [walk] using h.symm)
  omega

theorem walk_return (n s i : ℕ) (hs : s < n) (hi : 0 < i) (hin : i ≤ n) : walk n s i n = i := by
  have h := walk_modEq n s i hs n
  have h' : walk n s i n ≡ i [MOD n] := by
    have hz : walk n s i n+n*s ≡ walk n s i n [MOD n] := Nat.modEq_iff_dvd.mpr (by
      push_cast
      exact ⟨-(s:ℤ), by ring⟩)
    exact hz.symm.trans h
  exact slot_unique n _ _ (walk_pos n s i hs hi n) (walk_le n s i hin n) hi hin h'

/-- Every slot is met within the first `n` positions of the walk. -/
theorem walk_surjective (n s i : ℕ) (hs : s < n) (hc : Nat.Coprime s n)
    (hi : 0 < i) (hin : i ≤ n) (j : ℕ) (hj : 0 < j) (hjn : j ≤ n) : ∃ k < n, walk n s i k = j := by
  have hsub : (Finset.range n).image (walk n s i) ⊆ Finset.Icc 1 n := by
    intro x hx
    obtain ⟨k, -, rfl⟩ := Finset.mem_image.mp hx
    exact Finset.mem_Icc.mpr ⟨walk_pos n s i hs hi k, walk_le n s i hin k⟩
  have hcard : ((Finset.range n).image (walk n s i)).card = n := by
    rw [Finset.card_image_of_injOn, Finset.card_range]
    intro k hk l hl h
    have hk' := Finset.mem_range.mp (Finset.mem_coe.mp hk)
    have hl' := Finset.mem_range.mp (Finset.mem_coe.mp hl)
    rcases le_total k l with hkl | hkl
    · exact walk_injective_below n s i hs hc k l hkl hl' h
    · exact (walk_injective_below n s i hs hc l k hkl hk' h.symm).symm
  have heq : (Finset.range n).image (walk n s i) = Finset.Icc 1 n :=
    Finset.eq_of_subset_of_card_le hsub (by rw [hcard]; simp)
  have hmem : j ∈ (Finset.range n).image (walk n s i) := by
    rw [heq]
    exact Finset.mem_Icc.mpr ⟨hj, hjn⟩
  obtain ⟨k, hk, h⟩ := Finset.mem_image.mp hmem
  exact ⟨k, Finset.mem_range.mp hk, h⟩

end UBoot.ProbeCycle
