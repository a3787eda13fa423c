import UBoot.ByteStore

/-!
# Buffers that are filled from their start

A buffer says of every place what has been written there, if anything. It is
filled up to `n` by a source where that and nothing else has been written.
-/

set_option autoImplicit false

namespace UBoot.FilledBuffer

open ByteStore

abbrev Buffer := ℕ → Option UInt8

def put (out : Buffer) (p : ℕ) (bytes : List UInt8) : Buffer := fun k =>
  if p ≤ k ∧ k < p+bytes.length then bytes[k-p]? else out k

def Filled (f : Memory) (out : Buffer) (n : ℕ) : Prop :=
  ∀ k, out k = if k < n then some (f k) else none

theorem filled_empty (f : Memory) : Filled f (fun _ => none) 0 := fun k =>
  (if_neg (Nat.not_lt_zero k)).symm

theorem load_getElem? (mem : Memory) (p n k : ℕ) (h : k < n) : (load mem p n)[k]? = some (mem (p+k)) := by
  rw [load, List.getElem?_map, List.getElem?_range' h]
  simp

theorem load_eq_of (mem mem' : Memory) (p q n : ℕ) (h : ∀ j < n, mem (p+j) = mem' (q+j)) :
    load mem p n = load mem' q n := by
  refine List.ext_getElem? fun k => ?_
  by_cases hk : k < n
  · rw [load_getElem? mem p n k hk, load_getElem? mem' q n k hk, h k hk]
  · rw [List.getElem?_eq_none (by rw [length_load]; omega),
      List.getElem?_eq_none (by rw [length_load]; omega)]

/-- What follows in the source is put behind what is filled. -/
theorem Filled.put {f : Memory} {out : Buffer} {n : ℕ} (h : Filled f out n) (m : ℕ) :
    Filled f (put out n (load f n m)) (n+m) := by
  intro k
  unfold FilledBuffer.put
  rw [length_load]
  by_cases hk : n ≤ k ∧ k < n+m
  · rw [if_pos hk, if_pos hk.2, load_getElem? f n m _ (by omega), Nat.add_sub_cancel' hk.1]
  · rw [if_neg hk, h k]
    by_cases hlow : k < n
    · rw [if_pos hlow, if_pos (by omega)]
    · rw [if_neg hlow, if_neg (by omega)]

/-- Bytes that reach behind `n` are not part of a buffer that is filled up to `n`. -/
theorem put_not_filled (f : Memory) (out : Buffer) {p n : ℕ} {bytes : List UInt8} (hp : p ≤ n)
    (hn : n < p+bytes.length) : ¬Filled f (FilledBuffer.put out p bytes) n := by
  intro h
  have hat := h n
  rw [FilledBuffer.put, if_pos ⟨hp, hn⟩, if_neg (lt_irrefl n),
    List.getElem?_eq_getElem (by omega)] at hat
  cases hat

end UBoot.FilledBuffer
