import Mathlib.Tactic

/-!
# Bytes in a memory

A memory is a function of the address. `Holds` says that a list of bytes
stands at an address, and `store` puts one there.
-/

set_option autoImplicit false

namespace UBoot.ByteStore

abbrev Memory := ℕ → UInt8

@[grind]
def Holds (mem : Memory) : ℕ → List UInt8 → Prop
  | _, [] => True
  | p, b::bs => mem p = b ∧ Holds mem (p+1) bs

@[grind]
def store (mem : Memory) : ℕ → List UInt8 → Memory
  | _, [] => mem
  | p, b::bs => store (Function.update mem p b) (p+1) bs

def load (mem : Memory) (p n : ℕ) : List UInt8 := (List.range' p n).map mem

theorem holds_append (mem : Memory) (p : ℕ) (as bs : List UInt8) :
    Holds mem p (as++bs) ↔ Holds mem p as ∧ Holds mem (p+as.length) bs := by
  induction as generalizing p with
  | nil => simp [Holds]
  | cons a as ih =>
    rw [List.cons_append, Holds, Holds, ih, and_assoc, List.length_cons,
      show p+(as.length+1) = p+1+as.length by omega]

theorem holds_of_start (mem : Memory) (p : ℕ) (as bs : List UInt8) (h : Holds mem p bs)
    (hp : as <+: bs) : Holds mem p as := by
  obtain ⟨cs, rfl⟩ := hp
  exact ((holds_append mem p as cs).mp h).1

theorem Holds.load_eq {mem : Memory} {p : ℕ} {bs : List UInt8} (h : Holds mem p bs) :
    load mem p bs.length = bs := by
  induction bs generalizing p with
  | nil => rfl
  | cons b bs ih =>
    rw [List.length_cons, load, List.range'_succ, List.map_cons, h.1]
    exact congrArg _ (ih h.2)

/-- Only the bytes from `p` on that `bs` covers are changed. -/
theorem store_of_outside (mem : Memory) (p : ℕ) (bs : List UInt8) (a : ℕ)
    (ha : a < p ∨ p+bs.length ≤ a) : store mem p bs a = mem a := by
  induction bs generalizing mem p with
  | nil => rfl
  | cons b bs ih =>
    rw [List.length_cons] at ha
    rw [store, ih _ _ (by omega), Function.update_of_ne (by omega)]

theorem store_of_inside (mem : Memory) (p : ℕ) (bs : List UInt8) {j : ℕ} (h : j < bs.length) :
    store mem p bs (p+j) = bs[j] := by
  induction bs generalizing mem p j with
  | nil => exact absurd h (Nat.not_lt_zero j)
  | cons b bs ih =>
    rw [store]
    cases j with
    | zero => rw [store_of_outside _ _ _ _ (by omega), Nat.add_zero, Function.update_self]; rfl
    | succ j =>
      rw [show p+(j+1) = p+1+j by omega, ih _ _ (by simpa using h), List.getElem_cons_succ]

theorem holds_store (mem : Memory) (p : ℕ) (bs : List UInt8) : Holds (store mem p bs) p bs := by
  induction bs generalizing mem p with
  | nil => trivial
  | cons b bs ih =>
    constructor
    · rw [store, store_of_outside _ _ _ _ (by omega), Function.update_self]
    · exact ih _ _

theorem holds_congr (mem mem' : Memory) (p : ℕ) (bs : List UInt8)
    (h : ∀ a, p ≤ a → a < p+bs.length → mem' a = mem a) : Holds mem' p bs ↔ Holds mem p bs := by
  induction bs generalizing p with
  | nil => rfl
  | cons b bs ih =>
    rw [List.length_cons] at h
    rw [Holds, Holds, h p le_rfl (by omega), ih (p+1) fun a h1 h2 => h a (by omega) (by omega)]

theorem holds_store_of_before (mem : Memory) (p q : ℕ) (as bs : List UInt8)
    (h : p+as.length ≤ q) : Holds (store mem q bs) p as ↔ Holds mem p as :=
  holds_congr mem _ p as fun a _ h2 => store_of_outside mem q bs a (by omega)

/-- What stood before the stored bytes is followed by them. -/
theorem holds_append_store (mem : Memory) (p : ℕ) (as bs : List UInt8) (h : Holds mem p as) :
    Holds (store mem (p+as.length) bs) p (as++bs) := by
  rw [holds_append]
  exact ⟨(holds_store_of_before mem p _ as bs le_rfl).mpr h, holds_store mem _ bs⟩

theorem store_append (mem : Memory) (p : ℕ) (as bs : List UInt8) :
    store mem p (as++bs) = store (store mem p as) (p+as.length) bs := by
  induction as generalizing mem p with
  | nil => rfl
  | cons a as ih =>
    rw [List.cons_append, store, store, ih, List.length_cons,
      show p+(as.length+1) = p+1+as.length by omega]

theorem load_congr (mem mem' : Memory) (p n : ℕ)
    (h : ∀ x, p ≤ x → x < p+n → mem' x = mem x) : load mem' p n = load mem p n := by
  apply List.map_congr_left
  intro x hx
  rw [List.mem_range'_1] at hx
  exact h x hx.1 hx.2

theorem load_add (mem : Memory) (p m n : ℕ) :
    load mem p (m+n) = load mem p m ++ load mem (p+m) n := by
  rw [load, load, load, ← List.map_append, List.range'_append_1]

theorem length_load (mem : Memory) (p n : ℕ) : (load mem p n).length = n := by
  rw [load, List.length_map, List.length_range']

theorem load_take (mem : Memory) (p : ℕ) {n k : ℕ} (h : n ≤ k) :
    load mem p n = (load mem p k).take n := by
  obtain ⟨r, rfl⟩ := Nat.exists_eq_add_of_le h
  rw [load_add, List.take_left' (length_load mem p n)]

theorem load_drop (mem : Memory) (p : ℕ) {n k : ℕ} (h : n ≤ k) :
    load mem (p+n) (k-n) = (load mem p k).drop n := by
  obtain ⟨r, rfl⟩ := Nat.exists_eq_add_of_le h
  rw [load_add, List.drop_left' (length_load mem p n), Nat.add_sub_cancel_left]

end UBoot.ByteStore
