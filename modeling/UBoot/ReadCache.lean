import Mathlib.Tactic

/-!
# A cache of one block

A store is read by addresses, and a slot keeps a block under the key of its
address. Where equal keys read equal blocks, a valid slot answers as the store.
-/

set_option autoImplicit false

namespace UBoot.ReadCache

structure Store (α κ β : Type) where
  read : α → Option β
  key : α → κ
  /-- The key of a slot that nothing has been read into. -/
  unset : κ
  read_congr : ∀ a b, key a = key b → read a = read b
  key_ne : ∀ a, key a ≠ unset

structure Slot (κ β : Type) where
  key : κ
  block : β
  deriving DecidableEq, Repr

namespace Store

variable {α κ β : Type} (S : Store α κ β)

def Valid (s : Slot κ β) : Prop := s.key = S.unset ∨ ∃ a, S.key a = s.key ∧ S.read a = some s.block

/-- Reads `a` into the slot, unless the key of `tested` is the one of the slot. -/
def fill [DecidableEq κ] (s : Slot κ β) (tested a : α) : Slot κ β × Bool :=
  if S.key tested ≠ s.key then
    match S.read a with
    | none => (s, false)
    | some b => (⟨S.key a, b⟩, true)
  else (s, true)

variable [DecidableEq κ] {S} {s : Slot κ β}

theorem Valid.fill (h : S.Valid s) (tested a : α) : S.Valid (S.fill s tested a).1 := by
  unfold Store.fill
  split
  · split
    · exact h
    · next b hread => exact .inr ⟨a, rfl, hread⟩
  · exact h

/-- Where the key that is tested is the one that is read, the slot holds what the store has. -/
theorem Valid.read_eq (h : S.Valid s) (a : α) :
    S.read a = if (S.fill s a a).2 then some (S.fill s a a).1.block else none := by
  unfold Store.fill
  by_cases hkey : S.key a ≠ s.key
  · rw [if_pos hkey]
    cases hread : S.read a with
    | none => rfl
    | some b => rfl
  · rw [if_neg hkey]
    rw [not_not] at hkey
    rcases h with hunset | ⟨b, hb, hread⟩
    · exact absurd (hkey.trans hunset) (S.key_ne a)
    · rw [if_pos rfl, S.read_congr a b (hkey.trans hb.symm), hread]

end Store

end UBoot.ReadCache
