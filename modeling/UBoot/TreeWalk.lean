import Mathlib.Tactic

/-!
# Walks that keep no record of where they have been

A walk visits a state and then, one after another, all its successors. It ends
exactly when no state reached from the start leads back to itself, and then it
is no deeper than the number of states.
-/

set_option autoImplicit false

namespace UBoot.TreeWalk

open Relation

variable {σ : Type*} (next : σ → List σ)

def Edge (s t : σ) : Prop := t ∈ next s

/-- No path from the state has more than so many states. -/
def Shallow : ℕ → σ → Prop
  | 0, _ => False
  | n+1, s => ∀ t ∈ next s, Shallow n t

instance decideShallow : (n : ℕ) → (s : σ) → Decidable (Shallow next n s)
  | 0, _ => .isFalse id
  | n+1, s =>
    have := decideShallow n
    inferInstanceAs (Decidable (∀ t ∈ next s, Shallow next n t))

/-- A state is reached that leads back to itself. -/
def Returns (s : σ) : Prop := ∃ t, ReflTransGen (Edge next) s t ∧ TransGen (Edge next) t t

/-- The states of a tree in which each has so many successors. -/
def nodes (k : ℕ) : ℕ → ℕ
  | 0 => 0
  | n+1 => 1+k*nodes k n

variable {next}

theorem returns_next {s : σ} (h : Returns next s) : ∃ t ∈ next s, Returns next t := by
  obtain ⟨u, hu, hback⟩ := h
  rcases ReflTransGen.cases_head hu with rfl | ⟨t, ht, hrest⟩
  · obtain ⟨t, ht, hrest⟩ := TransGen.head'_iff.1 hback
    exact ⟨t, ht, s, hrest, hback⟩
  · exact ⟨t, ht, u, hrest, hback⟩

theorem not_shallow_of_returns {s : σ} (n : ℕ) (h : Returns next s) : ¬Shallow next n s := by
  induction n generalizing s with
  | zero => exact id
  | succ n ih =>
    obtain ⟨t, ht, hreturns⟩ := returns_next h
    exact fun hs => ih hreturns (hs t ht)

theorem returns_of_next {s t : σ} (ht : t ∈ next s) (h : Returns next t) : Returns next s := by
  obtain ⟨u, hu, hback⟩ := h
  exact ⟨u, ReflTransGen.head ht hu, hback⟩

theorem shallow_card [DecidableEq σ] (A : Finset σ) (s : σ)
    (hA : ∀ t, ReflTransGen (Edge next) s t → t ∈ A) (hs : ¬Returns next s) :
    Shallow next A.card s := by
  -- a successor never leads back to `s`, so it is left with one state less
  induction hn : A.card generalizing A s with
  | zero =>
    have hmem := hA s ReflTransGen.refl
    rw [Finset.card_eq_zero.1 hn] at hmem
    exact Finset.notMem_empty s hmem
  | succ n ih =>
    intro t ht
    have hcard : (A.erase s).card = n := by
      rw [Finset.card_erase_of_mem (hA s ReflTransGen.refl), hn, Nat.add_sub_cancel]
    refine ih (A.erase s) t (fun u hu => ?_) (fun hreturns => hs (returns_of_next ht hreturns))
      hcard
    refine Finset.mem_erase.2 ⟨?_, hA u (ReflTransGen.head ht hu)⟩
    rintro rfl
    exact hs ⟨u, ReflTransGen.refl, TransGen.head' ht hu⟩

theorem shallow_of_not_returns [Finite σ] {s : σ} (hs : ¬Returns next s) :
    Shallow next (Nat.card σ) s := by
  classical
  have := Fintype.ofFinite σ
  rw [Nat.card_eq_fintype_card, ← Finset.card_univ]
  exact shallow_card Finset.univ s (fun t _ => Finset.mem_univ t) hs

/-- A walk of whatever depth ends only where nothing leads back to itself. -/
theorem exists_shallow_iff [Finite σ] {s : σ} : (∃ n, Shallow next n s) ↔ ¬Returns next s :=
  ⟨fun ⟨n, hn⟩ hs => not_shallow_of_returns n hs hn, fun hs => ⟨_, shallow_of_not_returns hs⟩⟩

end UBoot.TreeWalk
