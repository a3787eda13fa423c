import Mathlib.Data.List.FinRange
import Mathlib.Logic.Equiv.Fin.Basic
import Mathlib.Tactic

/-!
# Shell sort with shrinking gaps

An array is a function on positions of which the first `n` count. Every gap
only exchanges elements, and the last gap is one, so the result is a
permutation of the input whatever the comparison is, and it is sorted as soon
as the comparison agrees with a linear order on the elements present.
-/

set_option autoImplicit false

namespace UBoot.ShellSort

variable {α : Type*}

def swap (a : ℕ → α) (i j : ℕ) : ℕ → α := fun k => if k = i then a j else if k = j then a i else a k

/-- Move the element at `j` down by `gap` while the one below is not in order. -/
def sink (ok : α → α → Bool) (gap : ℕ) : ℕ → ℕ → (ℕ → α) → (ℕ → α)
  | 0, _, a => a
  | fuel+1, j, a =>
    if ok (a (j-gap)) (a (j-gap+gap)) then a
    else if gap ≤ j-gap then sink ok gap fuel (j-gap) (swap a (j-gap) (j-gap+gap))
    else swap a (j-gap) (j-gap+gap)

/-- Sink the `k` elements from position `i` on. -/
def sweep (ok : α → α → Bool) (gap : ℕ) : ℕ → ℕ → (ℕ → α) → (ℕ → α)
  | 0, _, a => a
  | k+1, i, a => sweep ok gap k (i+1) (sink ok gap i i a)

def firstGap (n : ℕ) : ℕ → ℕ → ℕ
  | 0, gap => gap
  | fuel+1, gap => if 3*gap+1 < (n-1)/3 then firstGap n fuel (3*gap+1) else 3*gap+1

def shell (ok : α → α → Bool) (n : ℕ) : ℕ → ℕ → (ℕ → α) → (ℕ → α)
  | 0, _, a => a
  | fuel+1, gap, a =>
    if (gap-1)/3 = 0 then sweep ok gap (n-gap) gap a
    else shell ok n fuel ((gap-1)/3) (sweep ok gap (n-gap) gap a)

def sort (ok : α → α → Bool) (n : ℕ) (a : ℕ → α) : ℕ → α :=
  if 1 < n then shell ok n n (firstGap n n 0) a else a

/-- The first `n` elements. -/
def front (n : ℕ) (a : ℕ → α) : List α := (List.range n).map a

theorem front_getD (l : List α) (d : α) : front l.length (fun i => l.getD i d) = l := by
  apply List.ext_getElem
  · simp [front]
  · intro i h1 h2
    simp [front, List.getElem?_eq_getElem h2]

/-! ## Permutation -/

theorem swap_perm (a : ℕ → α) (n i j : ℕ) (hi : i < n) (hj : j < n) :
    (front n (swap a i j)).Perm (front n a) := by
  have hr : ∀ b : ℕ → α, front n b = (List.finRange n).map (fun k : Fin n => b k) := by
    intro b
    rw [front, ← List.map_coe_finRange_eq_range, List.map_map]
    rfl
  have he : (fun k : Fin n => swap a i j k) =
      (fun k : Fin n => a k) ∘ (Equiv.swap (⟨i, hi⟩ : Fin n) ⟨j, hj⟩) := by
    funext k
    by_cases h1 : k = ⟨i, hi⟩
    · simp [swap, h1]
    · by_cases h2 : k = ⟨j, hj⟩
      · simp only [swap, h2, Function.comp_apply, Equiv.swap_apply_right, if_true]
        split_ifs with h <;> simp [h]
      · have h1' : (k : ℕ) ≠ i := fun h => h1 (Fin.ext h)
        have h2' : (k : ℕ) ≠ j := fun h => h2 (Fin.ext h)
        simp [swap, h1', h2', Equiv.swap_apply_of_ne_of_ne h1 h2]
  rw [hr, hr, he, ← List.map_map]
  exact (Equiv.Perm.map_finRange_perm _).map _

theorem sink_perm (ok : α → α → Bool) (gap n fuel j : ℕ) (a : ℕ → α) (hj : j < n) (hg : gap ≤ j) :
    (front n (sink ok gap fuel j a)).Perm (front n a) := by
  induction fuel generalizing j a with
  | zero => exact List.Perm.refl _
  | succ fuel ih =>
    have hswap := swap_perm a n (j-gap) (j-gap+gap) (by omega) (by omega)
    unfold sink
    split_ifs with h1 h2
    · exact List.Perm.refl _
    · exact (ih (j-gap) _ (by omega) h2).trans hswap
    · exact hswap

theorem sweep_perm (ok : α → α → Bool) (gap n k i : ℕ) (a : ℕ → α) (hi : i+k ≤ n) (hg : gap ≤ i) :
    (front n (sweep ok gap k i a)).Perm (front n a) := by
  induction k generalizing i a with
  | zero => exact List.Perm.refl _
  | succ k ih =>
    unfold sweep
    exact (ih (i+1) _ (by omega) (by omega)).trans (sink_perm ok gap n i i a (by omega) hg)

theorem shell_perm (ok : α → α → Bool) (n fuel gap : ℕ) (a : ℕ → α) (hg : gap ≤ n) :
    (front n (shell ok n fuel gap a)).Perm (front n a) := by
  induction fuel generalizing gap a with
  | zero => exact List.Perm.refl _
  | succ fuel ih =>
    have hs := sweep_perm ok gap n (n-gap) gap a (by omega) (le_refl _)
    unfold shell
    split_ifs with h
    · exact hs
    · exact (ih _ _ (by omega)).trans hs

theorem firstGap_bounds (n fuel gap : ℕ) (hn : 1 < n) (h : 3*gap+1 < n) (hf : n ≤ fuel+gap) :
    0 < firstGap n fuel gap ∧ firstGap n fuel gap < n := by
  induction fuel generalizing gap with
  | zero => omega
  | succ fuel ih =>
    unfold firstGap
    split_ifs with hlt
    · exact ih (3*gap+1) (by omega) (by omega)
    · omega

theorem sort_perm (ok : α → α → Bool) (n : ℕ) (a : ℕ → α) :
    (front n (sort ok n a)).Perm (front n a) := by
  unfold sort
  split_ifs with hn
  · have hg := firstGap_bounds n n 0 hn (by omega) (by omega)
    exact shell_perm ok n n _ a hg.2.le
  · exact List.Perm.refl _

/-! ## Order -/

section Sorted

variable {β : Type*} [LinearOrder β] (f : α → β) (ok : α → α → Bool) (n : ℕ)

/-- The comparison is that of `f` on the elements of a list. -/
def Faithful (l : List α) : Prop := ∀ x ∈ l, ∀ y ∈ l, (ok x y = true ↔ f x ≤ f y)

def SortedBelow (a : ℕ → α) (m : ℕ) : Prop := ∀ p q, p < q → q < m → f (a p) ≤ f (a q)

/-- All but the element at `j` is in order below `m`, and that element is
in order with everything above it. -/
structure Sinking (a : ℕ → α) (m j : ℕ) : Prop where
  others : ∀ p q, p < q → q < m → p ≠ j → q ≠ j → f (a p) ≤ f (a q)
  above : ∀ q, j < q → q < m → f (a j) ≤ f (a q)

theorem sorted_of_sinking (a : ℕ → α) (m j : ℕ) (h : Sinking f a m j)
    (hb : 0 < j → f (a (j-1)) ≤ f (a j)) : SortedBelow f a m := by
  intro p q hpq hq
  by_cases hp : p = j
  · subst p
    exact h.above q hpq hq
  · by_cases hq' : q = j
    · subst hq'
      rcases Nat.lt_or_ge p (q-1) with hlt | hge
      · exact (h.others p (q-1) hlt (by omega) hp (by omega)).trans (hb (by omega))
      · rw [show p = q-1 by omega]
        exact hb (by omega)
    · exact h.others p q hpq hq hp hq'

theorem sinking_swap (a : ℕ → α) (m j : ℕ) (hj : 0 < j) (hjm : j < m) (h : Sinking f a m j)
    (hlt : f (a j) < f (a (j-1))) : Sinking f (swap a (j-1) j) m (j-1) := by
  have hs1 : swap a (j-1) j (j-1) = a j := by simp [swap]
  have hs2 : swap a (j-1) j j = a (j-1) := by
    have : j ≠ j-1 := by omega
    simp [swap, this]
  have hs3 : ∀ k, k ≠ j-1 → k ≠ j → swap a (j-1) j k = a k := by
    intro k h1 h2
    simp [swap, h1, h2]
  constructor
  · intro p q hpq hq hp hq'
    by_cases hpj : p = j
    · subst p
      rw [hs2, hs3 q (by omega) (by omega)]
      exact h.others (j-1) q (by omega) hq (by omega) (by omega)
    · rw [hs3 p hp hpj]
      by_cases hqj : q = j
      · subst hqj
        rw [hs2]
        exact h.others p (q-1) (by omega) (by omega) hpj (by omega)
      · rw [hs3 q hq' hqj]
        exact h.others p q hpq hq hpj hqj
  · intro q hq hqm
    rw [hs1]
    by_cases hqj : q = j
    · subst q
      rw [hs2]
      exact hlt.le
    · rw [hs3 q (by omega) hqj]
      exact h.above q (by omega) hqm

theorem mem_front (a : ℕ → α) (k : ℕ) (hk : k < n) : a k ∈ front n a :=
  List.mem_map_of_mem (List.mem_range.mpr hk)

theorem faithful_perm (l l' : List α) (hp : l'.Perm l) (h : Faithful f ok l) : Faithful f ok l' :=
  fun x hx y hy => h x (hp.mem_iff.mp hx) y (hp.mem_iff.mp hy)

theorem sink_sorted (fuel j m : ℕ) (a : ℕ → α) (hm : m ≤ n) (hf : Faithful f ok (front n a))
    (hj : 0 < j) (hjm : j < m) (hfuel : j ≤ fuel) (h : Sinking f a m j) :
    SortedBelow f (sink ok 1 fuel j a) m := by
  induction fuel generalizing j a with
  | zero => omega
  | succ fuel ih =>
    have hok := hf _ (mem_front n a (j-1) (by omega)) _ (mem_front n a j (by omega))
    unfold sink
    rw [show j-1+1 = j by omega]
    split_ifs with h1 h2
    · exact sorted_of_sinking f a m j h (fun _ => hok.mp h1)
    · have hlt : f (a j) < f (a (j-1)) := not_le.mp fun hle => h1 (hok.mpr hle)
      exact ih (j-1) _ (faithful_perm f ok _ _ (swap_perm a n (j-1) j (by omega) (by omega)) hf)
        (by omega) (by omega) (by omega) (sinking_swap f a m j hj hjm h hlt)
    · have hlt : f (a j) < f (a (j-1)) := not_le.mp fun hle => h1 (hok.mpr hle)
      exact sorted_of_sinking f _ m (j-1) (sinking_swap f a m j hj hjm h hlt) (fun h0 => by omega)

theorem sinking_of_sorted (a : ℕ → α) (i : ℕ) (h : SortedBelow f a i) : Sinking f a (i+1) i := by
  constructor
  · intro p q hpq hq hp hq'
    exact h p q hpq (by omega)
  · intro q hq hqm
    omega

theorem sweep_sorted (k i : ℕ) (a : ℕ → α) (hi : 0 < i) (hik : i+k = n)
    (hf : Faithful f ok (front n a)) (h : SortedBelow f a i) :
    SortedBelow f (sweep ok 1 k i a) n := by
  induction k generalizing i a with
  | zero =>
    rw [show n = i by omega]
    exact h
  | succ k ih =>
    unfold sweep
    have hp := sink_perm ok 1 n i i a (by omega) (by omega)
    exact ih (i+1) _ (by omega) (by omega) (faithful_perm f ok _ _ hp hf)
      (sink_sorted f ok n i i (i+1) a (by omega) hf hi (by omega) (le_refl _)
        (sinking_of_sorted f a i h))

theorem shell_sorted (fuel gap : ℕ) (a : ℕ → α) (hg : 0 < gap) (hgn : gap < n) (hfu : gap ≤ fuel)
    (hmod : ∃ e, gap = (3^e-1)/2) (hf : Faithful f ok (front n a)) :
    SortedBelow f (shell ok n fuel gap a) n := by
  induction fuel generalizing gap a with
  | zero => omega
  | succ fuel ih =>
    have hs := sweep_perm ok gap n (n-gap) gap a (by omega) (le_refl _)
    obtain ⟨e, he⟩ := hmod
    unfold shell
    split_ifs with h0
    · -- gaps are 1, 4, 13, ..: only the gap one has no successor
      have h1 : gap = 1 := by
        cases e with
        | zero => simp at he; omega
        | succ e =>
          cases e with
          | zero => simpa using he
          | succ e =>
            have hp : 1 ≤ 3^e := Nat.one_le_pow _ _ (by decide)
            rw [pow_succ, pow_succ] at he
            omega
      subst h1
      exact sweep_sorted f ok n (n-1) 1 a (by decide) (by omega) hf (fun p q hpq hq => by omega)
    · refine ih ((gap-1)/3) _ (by omega) (by omega) (by omega) ?_ (faithful_perm f ok _ _ hs hf)
      cases e with
      | zero => simp at he; omega
      | succ e =>
        refine ⟨e, ?_⟩
        have hp : 1 ≤ 3^e := Nat.one_le_pow _ _ (by decide)
        have hodd : 3^e % 2 = 1 := by
          rw [Nat.pow_mod]
          simp
        rw [pow_succ] at he
        omega

theorem firstGap_form (fuel gap : ℕ) (hgap : ∃ e, gap = (3^e-1)/2) (hf : 0 < fuel) :
    ∃ e, firstGap n fuel gap = (3^e-1)/2 := by
  have hnext : ∀ g, (∃ e, g = (3^e-1)/2) → ∃ e, 3*g+1 = (3^e-1)/2 := by
    rintro g ⟨e, rfl⟩
    refine ⟨e+1, ?_⟩
    have hp : 1 ≤ 3^e := Nat.one_le_pow _ _ (by decide)
    have hodd : 3^e % 2 = 1 := by
      rw [Nat.pow_mod]
      simp
    rw [pow_succ]
    omega
  induction fuel generalizing gap with
  | zero => omega
  | succ fuel ih =>
    unfold firstGap
    split_ifs with hlt
    · cases fuel with
      | zero => exact hnext gap hgap
      | succ fuel => exact ih (3*gap+1) (hnext gap hgap) (by omega)
    · exact hnext gap hgap

/-- A faithful comparison sorts. -/
theorem sort_sorted (a : ℕ → α) (hf : Faithful f ok (front n a)) :
    SortedBelow f (sort ok n a) n := by
  unfold sort
  split_ifs with hn
  · have hg := firstGap_bounds n n 0 hn (by omega) (by omega)
    exact shell_sorted f ok n n _ a hg.1 hg.2 hg.2.le
      (firstGap_form n n 0 ⟨0, by simp⟩ (by omega)) hf
  · intro p q hpq hq
    omega

end Sorted

end UBoot.ShellSort
