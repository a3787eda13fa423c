import Mathlib.Tactic

/-!
# One's-complement sums of 16 bits

Two numbers are added with the carry brought back to the lowest bit. The sum of
any list is the only number up to 65535 that agrees with the plain sum modulo
65535 and is zero only for a list of zeros.
-/

set_option autoImplicit false

namespace UBoot.OnesComplement

/-- Addition with an end-around carry. -/
def add (a b : ℕ) : ℕ := (a+b) % 65536+(a+b)/65536

def sum (ws : List ℕ) : ℕ := ws.foldr add 0

/-- The checksum of a list, in which zero is written as 65535. -/
def checksum (ws : List ℕ) : ℕ := if sum ws = 65535 then 65535 else 65535-sum ws

/-- The number up to 65535 that stands for a plain sum. -/
def rep (x : ℕ) : ℕ := if x = 0 then 0 else (x-1) % 65535+1

theorem rep_le (x : ℕ) : rep x ≤ 65535 := by
  unfold rep
  split_ifs <;> omega

theorem rep_of_le {x : ℕ} (h : x ≤ 65535) : rep x = x := by
  unfold rep
  split_ifs <;> omega

theorem rep_eq_zero {x : ℕ} : rep x = 0 ↔ x = 0 := by
  unfold rep
  by_cases h : x = 0
  · rw [if_pos h]
    exact iff_of_true rfl h
  · rw [if_neg h]
    exact iff_of_false (Nat.succ_ne_zero _) h

theorem rep_add (a b : ℕ) : rep (a+rep b) = rep (a+b) := by
  unfold rep
  split_ifs <;> omega

theorem add_eq_rep {a b : ℕ} (ha : a ≤ 65535) (hb : b ≤ 65535) : add a b = rep (a+b) := by
  unfold add rep
  split_ifs <;> omega

/-- One round in which the carries of a sum are brought back. -/
theorem rep_carry (x : ℕ) : rep (x % 65536+x/65536) = rep x := by
  unfold rep
  split_ifs <;> omega

/-- The sum of 16-bit words stands for their plain sum. -/
theorem sum_eq_rep (ws : List ℕ) (h : ∀ w ∈ ws, w ≤ 65535) : sum ws = rep ws.sum := by
  induction ws with
  | nil => rfl
  | cons w ws ih =>
    have hsum := ih fun x hx => h x (List.mem_cons_of_mem w hx)
    rw [sum, List.foldr_cons, ← sum, hsum, List.sum_cons,
      add_eq_rep (h w List.mem_cons_self) (rep_le _), rep_add]

/-- A list with its checksum has the sum 65535. -/
theorem rep_checksum (ws : List ℕ) (h : ∀ w ∈ ws, w ≤ 65535) :
    rep (ws.sum+checksum ws) = 65535 := by
  have hle := rep_le ws.sum
  rw [Nat.add_comm, ← rep_add, checksum, sum_eq_rep ws h]
  unfold rep at hle ⊢
  split_ifs <;> omega

end UBoot.OnesComplement
