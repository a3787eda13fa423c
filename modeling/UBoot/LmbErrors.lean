import UBoot.LmbAlloc

/-!
# Failing calls

A reservation that fails leaves the table. A free that has to split a region makes
it smaller before it asks for an entry for the rest, and in a full table the rest
is lost.
-/

set_option autoImplicit false

namespace UBoot.LogicalBlocks

/-- A call that returns a negative value reserves what was reserved. -/
def Atomic (l : Lmb) (base size : ℕ) : Prop :=
  (∀ r l', reserve l base size = some (r, l') → r < 0 → covered l'.reserved = covered l.reserved) ∧
    ∀ r l', free l base size = some (r, l') → r < 0 → covered l'.reserved = covered l.reserved

/-- What is left of a region before a hole. -/
def headOf (t : Table) (i base : ℕ) : Range := ⟨(t.region i).base, minus base (t.region i).base⟩

/-- The table after the first half of a split. -/
def cutAt (t : Table) (i base : ℕ) : Table := t.set i (headOf t i base)

def endOf (r : Range) : ℕ := word (r.base+r.size)

/-- A free that splits region `i` and finds no entry for the rest. -/
structure SplitFails (t : Table) (base size i : ℕ) : Prop where
  holder : findHolder t.region base (word (base+size)) 0 t.cnt = some i
  front : (t.region i).base ≠ base
  back : endOf (t.region i) ≠ word (base+size)
  full : maxLmbRegions ≤ t.cnt
  alone : scan (cutAt t i base).region (word (base+size))
    (minus (endOf (t.region i)) (word (base+size))) 0 t.cnt = .fresh

instance (t : Table) (base size i : ℕ) : Decidable (SplitFails t base size i) :=
  decidable_of_iff (findHolder t.region base (word (base+size)) 0 t.cnt = some i ∧
      (t.region i).base ≠ base ∧ endOf (t.region i) ≠ word (base+size) ∧ maxLmbRegions ≤ t.cnt ∧
      scan (cutAt t i base).region (word (base+size))
        (minus (endOf (t.region i)) (word (base+size))) 0 t.cnt = .fresh)
    ⟨fun h => ⟨h.1, h.2.1, h.2.2.1, h.2.2.2.1, h.2.2.2.2⟩,
      fun h => ⟨h.holder, h.front, h.back, h.full, h.alone⟩⟩

theorem SplitFails.lt (t : Table) (base size i : ℕ) (h : SplitFails t base size i) : i < t.cnt := by
  obtain ⟨-, hi, -, -⟩ := findHolder_some _ _ _ _ _ _ h.holder
  omega

/-- What a region would lose or gain lies in another region too. -/
def Elsewhere (t : Table) (i : ℕ) (r : Range) : Prop :=
  ∀ x, (x ∈ (t.region i).addresses ↔ x ∈ r.addresses) ∨
    ∃ k < t.cnt, k ≠ i ∧ x ∈ (t.region k).addresses

theorem set_covered_iff (t : Table) (i : ℕ) (r : Range) (hi : i < t.cnt) :
    covered (t.set i r) = covered t ↔ Elsewhere t i r := by
  constructor
  · intro h x
    have hx : x ∈ covered (t.set i r) ↔ x ∈ covered t := by rw [h]
    rw [set_covered t i r hi, covered_split t i hi] at hx
    by_cases ho : ∃ k < t.cnt, k ≠ i ∧ x ∈ (t.region k).addresses
    · exact .inr ho
    · left
      rw [or_iff_left ho, or_iff_left ho] at hx
      exact hx.symm
  · intro h
    ext x
    rw [set_covered t i r hi, covered_split t i hi]
    obtain h | h := h x
    · rw [h]
    · exact ⟨fun _ => .inr h, fun _ => .inr h⟩

/-- The rest is not added to a full table with no neighbour for it. -/
theorem freeRegion_splitFails (t : Table) (base size i : ℕ) (h : SplitFails t base size i) :
    freeRegion t base size = some (-1, cutAt t i base) := by
  have hfull := h.full
  unfold maxLmbRegions at hfull
  have hback : ¬word ((t.region i).base+(t.region i).size) = word (base+size) := h.back
  unfold freeRegion
  simp only [h.holder]
  rw [if_neg (fun hc => h.front hc.1), if_neg h.front, if_neg hback]
  change addRegion (cutAt t i base) (word (base+size))
    (minus (endOf (t.region i)) (word (base+size))) = _
  have hcnt : (cutAt t i base).cnt = t.cnt := rfl
  unfold addRegion
  rw [hcnt, if_neg (by omega), h.alone]
  simp only
  rw [if_neg (by omega), if_pos h.full]

/-- A free fails for want of a holder or for want of an entry. -/
theorem freeRegion_neg (t t' : Table) (base size : ℕ) (r : ℤ)
    (h : freeRegion t base size = some (r, t')) (hr : r < 0) :
    t' = t ∨ ∃ i, SplitFails t base size i ∧ t' = cutAt t i base := by
  unfold freeRegion at h
  simp only at h
  cases hf : findHolder t.region base (word (base+size)) 0 t.cnt with
  | none =>
    rw [hf] at h
    exact .inl (congrArg Prod.snd (Option.some.inj h)).symm
  | some i =>
    rw [hf] at h
    simp only at h
    split_ifs at h with h1 h2 h3
    · obtain ⟨t1, -, h2⟩ := Option.map_eq_some_iff.mp h
      have := congrArg Prod.fst h2
      simp only at this
      omega
    · have := congrArg Prod.fst (Option.some.inj h)
      simp only at this
      omega
    · have := congrArg Prod.fst (Option.some.inj h)
      simp only at this
      omega
    · obtain ⟨h4, h5, h6⟩ := addRegion_neg (cutAt t i base) t' _ _ r h hr
      exact .inr ⟨i, ⟨hf, h2, h3, h5, h6⟩, h4⟩

theorem errors_atomic_iff (l : Lmb) (base size : ℕ) : Atomic l base size ↔
    ∀ i, SplitFails l.reserved base size i →
      Elsewhere l.reserved i (headOf l.reserved i base) := by
  constructor
  · rintro ⟨-, h⟩ i hi
    have hlt := hi.lt
    rw [← set_covered_iff l.reserved i _ hlt]
    have hfree : free l base size = some (-1, { l with reserved := cutAt l.reserved i base }) := by
      rw [free, freeRegion_splitFails l.reserved base size i hi]
      rfl
    exact h (-1) _ hfree (by decide)
  · intro h
    refine ⟨fun r l' hr hneg => ?_, fun r l' hr hneg => ?_⟩
    · obtain ⟨⟨r', t'⟩, h1, h2⟩ := Option.map_eq_some_iff.mp hr
      obtain ⟨rfl, rfl⟩ := Prod.mk.inj h2
      rw [(addRegion_neg _ _ _ _ _ h1 hneg).1]
    · obtain ⟨⟨r', t'⟩, h1, h2⟩ := Option.map_eq_some_iff.mp hr
      obtain ⟨rfl, rfl⟩ := Prod.mk.inj h2
      obtain rfl | ⟨i, hi, rfl⟩ := freeRegion_neg _ _ _ _ _ h1 hneg
      · rfl
      · exact (set_covered_iff l.reserved i _ hi.lt).mpr (h i hi)

/-- Eight regions of 16 KiB, one in each 64 KiB. -/
def eightRegions : Lmb := ⟨⟨1, fun _ => ⟨0, 0x1000000⟩⟩, ⟨8, fun i => ⟨65536*i, 0x4000⟩⟩⟩

theorem split_loses_rest : ¬∀ (l : Lmb) (base size : ℕ), Atomic l base size := by
  intro h
  have hfails : SplitFails eightRegions.reserved 0x11000 0x1000 1 := by decide +kernel
  have hfree : free eightRegions 0x11000 0x1000 =
      some (-1, { eightRegions with reserved := cutAt eightRegions.reserved 1 0x11000 }) := by
    rw [free, freeRegion_splitFails _ _ _ _ hfails]
    rfl
  have hsame := (h eightRegions 0x11000 0x1000).2 _ _ hfree (by decide)
  rw [cutAt, set_covered_iff _ 1 _ (by decide)] at hsame
  obtain hx | ⟨k, -, hk, hx⟩ := hsame 0x13000
  · exact absurd (hx.mp (by rw [mem_addresses]; decide)) (by rw [mem_addresses]; decide)
  · rw [mem_addresses] at hx
    change 65536*k ≤ 0x13000 ∧ 0x13000 < 65536*k+0x4000 at hx
    omega

end UBoot.LogicalBlocks
