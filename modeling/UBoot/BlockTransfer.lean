import Mathlib.Data.List.Basic
import Mathlib.Logic.Relation
import Mathlib.Tactic

/-!
# Transfer of a list in blocks

A list is cut into blocks of one size; the last block is the first that is
shorter, and it is empty when the size divides the length. Storing the blocks
one behind the other stores the list. The runs that the transfer protocols are
about are chains of labelled steps, with a condition on the steps allowed.
-/

set_option autoImplicit false

namespace UBoot.BlockTransfer

section Blocks

variable {α : Type*} (n : ℕ) (f : List α)

/-- Block `k`, counted from 0. -/
def block (k : ℕ) : List α := (f.drop (k*n)).take n

/-- The index of the last block. -/
def last : ℕ := f.length/n

theorem block_length (k : ℕ) : (block n f k).length = min n (f.length-k*n) := by
  simp [block]

theorem block_full (hn : 0 < n) (k : ℕ) (hk : k < last n f) : (block n f k).length = n := by
  have h : (k+1)*n ≤ f.length := (Nat.le_div_iff_mul_le hn).mp hk
  have h' : (k+1)*n = k*n+n := Nat.succ_mul k n
  rw [block_length]
  omega

theorem block_last (hn : 0 < n) : (block n f (last n f)).length = f.length % n := by
  have h := Nat.div_add_mod f.length n
  have h' := Nat.mod_lt f.length hn
  rw [block_length, last, Nat.mul_comm]
  omega

theorem take_block (k : ℕ) : f.take (k*n) ++ block n f k = f.take ((k+1)*n) := by
  rw [block, Nat.succ_mul, List.take_add]

theorem take_all (hn : 0 < n) (k : ℕ) (hk : last n f < k) : f.take (k*n) = f := by
  apply List.take_of_length_le
  have h := Nat.div_add_mod f.length n
  have h' := Nat.mod_lt f.length hn
  have hm : n*(f.length/n+1) ≤ n*k := Nat.mul_le_mul_left n hk
  rw [Nat.mul_comm k n]
  rw [Nat.mul_succ] at hm
  omega

theorem take_length (hn : 0 < n) (k : ℕ) (hk : k ≤ last n f) : (f.take (k*n)).length = k*n := by
  rw [List.length_take]
  exact Nat.min_eq_left ((Nat.le_div_iff_mul_le hn).mp hk)

end Blocks

section Memory

variable {α : Type*} (m : ℕ → α)

/-- A memory after a list is written from an address on. -/
def store (a : ℕ) (l : List α) : ℕ → α := fun i => if a ≤ i then (l[i-a]?).getD (m i) else m i

@[simp] theorem store_nil (a : ℕ) : store m a [] = m := by
  funext i
  simp [store]

theorem store_inside (a : ℕ) (l : List α) (i : ℕ) (h : i < l.length) :
    store m a l (a+i) = l.get ⟨i, h⟩ := by
  simp [store, List.getElem?_eq_getElem h]

theorem store_outside (a : ℕ) (l : List α) (i : ℕ) (h : i < a ∨ a+l.length ≤ i) :
    store m a l i = m i := by
  unfold store
  split_ifs with ha
  · rw [List.getElem?_eq_none (by omega)]
    rfl
  · rfl

theorem store_append (a : ℕ) (l r : List α) :
    store (store m a l) (a+l.length) r = store m a (l ++ r) := by
  funext i
  unfold store
  by_cases hi : a ≤ i
  · simp only [hi, if_true]
    by_cases hr : a+l.length ≤ i
    · rw [if_pos hr, List.getElem?_append_right (by omega),
        List.getElem?_eq_none (l := l) (by omega)]
      have h : i-(a+l.length) = i-a-l.length := by omega
      rw [h]
      rfl
    · rw [if_neg hr, List.getElem?_append_left (by omega)]
  · rw [if_neg hi, if_neg hi, if_neg (by omega)]

/-- Storing the next block after the blocks before it. -/
theorem store_block (n : ℕ) (hn : 0 < n) (a : ℕ) (f : List α) (k : ℕ) (hk : k ≤ last n f) :
    store (store m a (f.take (k*n))) (a+k*n) (block n f k) = store m a (f.take ((k+1)*n)) := by
  have h := store_append m a (f.take (k*n)) (block n f k)
  rwa [take_length n f hn k hk, take_block] at h

/-- Each cell is as before or holds its byte of the list. -/
def Agree (a : ℕ) (f : List α) (m' : ℕ → α) : Prop :=
  ∀ i, m' i = m i ∨ a ≤ i ∧ f[i-a]? = some (m' i)

/-- Block `k` is in memory. -/
def Have (n a : ℕ) (f : List α) (k : ℕ) : Prop :=
  ∀ i x, k*n ≤ i → i < (k+1)*n → f[i]? = some x → m (a+i) = x

theorem block_get (n : ℕ) (f : List α) (k i : ℕ) :
    (block n f k)[i]? = if i < n then f[k*n+i]? else none := by
  rw [block, List.getElem?_take]
  split_ifs <;> simp

/-- Storing a block in its place writes only bytes of the list. -/
theorem store_block_cell (n a : ℕ) (f : List α) (k i : ℕ) :
    store m (a+k*n) (block n f k) i = m i ∨
      a ≤ i ∧ f[i-a]? = some (store m (a+k*n) (block n f k) i) := by
  unfold store
  by_cases hi : a+k*n ≤ i
  · rw [if_pos hi, block_get]
    by_cases hn : i-(a+k*n) < n
    · rw [if_pos hn]
      have he : k*n+(i-(a+k*n)) = i-a := by omega
      rw [he]
      cases h : f[i-a]? with
      | none => exact .inl rfl
      | some x => exact .inr ⟨by omega, rfl⟩
    · rw [if_neg hn]
      exact .inl rfl
  · exact .inl (if_neg hi)

theorem agree_store (a : ℕ) (f : List α) (m' : ℕ → α) (n k : ℕ) (h : Agree m a f m') :
    Agree m a f (store m' (a+k*n) (block n f k)) := by
  intro i
  rcases store_block_cell m' n a f k i with hs | hs
  · rw [hs]
    exact h i
  · exact .inr hs

theorem have_store_self (n a : ℕ) (f : List α) (k : ℕ) :
    Have (store m (a+k*n) (block n f k)) n a f k := by
  intro i x h1 h2 hx
  have hn : i-k*n < n := by
    rw [Nat.succ_mul] at h2
    omega
  have ha : a+k*n ≤ a+i := by omega
  have hi : a+i-(a+k*n) = i-k*n := by omega
  have he : k*n+(i-k*n) = i := by omega
  unfold store
  rw [if_pos ha, block_get, hi, if_pos hn, he, hx]
  rfl

theorem have_store (n a : ℕ) (f : List α) (j k : ℕ) (h : Have m n a f j) :
    Have (store m (a+k*n) (block n f k)) n a f j := by
  intro i x h1 h2 hx
  rcases store_block_cell m n a f k (a+i) with hs | ⟨-, hs⟩
  · rw [hs]
    exact h i x h1 h2 hx
  · rw [Nat.add_sub_cancel_left, hx] at hs
    exact (Option.some_inj.mp hs).symm

/-- With all of the blocks in memory, the list is. -/
theorem store_of_have (n : ℕ) (hn : 0 < n) (a : ℕ) (f : List α) (m' : ℕ → α) (h : Agree m a f m')
    (hall : ∀ k ≤ last n f, Have m' n a f k) : m' = store m a f := by
  funext i
  by_cases hi : a ≤ i ∧ i < a+f.length
  · obtain ⟨j, rfl⟩ : ∃ j, i = a+j := ⟨i-a, by omega⟩
    have hj : j < f.length := by omega
    have hdiv := Nat.div_add_mod j n
    have hmod := Nat.mod_lt j hn
    rw [Nat.mul_comm] at hdiv
    rw [store_inside m a f j hj]
    refine hall (j/n) (Nat.div_le_div_right hj.le) j _ ?_ ?_ (List.getElem?_eq_getElem hj)
    · omega
    · rw [Nat.succ_mul]
      omega
  · rw [store_outside m a f i (by omega)]
    rcases h i with h | ⟨h1, h2⟩
    · exact h
    · rw [List.getElem?_eq_none (by omega)] at h2
      cases h2

end Memory

section Runs

variable {S E : Type*}

/-- The states that a run reaches when all of its steps are allowed. -/
def Reach (step : S → E → S → Prop) (ok : S → E → Prop) : S → S → Prop :=
  Relation.ReflTransGen fun s s' => ∃ e, step s e s' ∧ ok s e

theorem reach_invariant (step : S → E → S → Prop) (ok : S → E → Prop) (inv : S → Prop)
    (hstep : ∀ s e s', inv s → ok s e → step s e s' → inv s') (s s' : S) (h0 : inv s)
    (h : Reach step ok s s') : inv s' := by
  induction h with
  | refl => exact h0
  | tail _ hs ih =>
    obtain ⟨e, hstep', hok⟩ := hs
    exact hstep _ e _ ih hok hstep'

theorem reach_next (step : S → E → S → Prop) (ok : S → E → Prop) (s s' s'' : S) (e : E)
    (h : Reach step ok s s') (hs : step s' e s'') (hok : ok s' e) : Reach step ok s s'' :=
  Relation.ReflTransGen.tail h ⟨e, hs, hok⟩

theorem reach_any (step : S → E → S → Prop) (ok : S → E → Prop) (s s' : S)
    (h : Reach step ok s s') : Reach step (fun _ _ => True) s s' := by
  induction h with
  | refl => exact .refl
  | tail _ hs ih =>
    obtain ⟨e, hstep, -⟩ := hs
    exact reach_next _ _ _ _ _ e ih hstep trivial

end Runs

end UBoot.BlockTransfer
