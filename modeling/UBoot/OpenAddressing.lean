import Mathlib.Data.Finmap
import Mathlib.Tactic

/-!
# Open addressing over an arbitrary probe order

A cell is free, a tombstone, or holds a key with its value. The table keeps
two facts: a key occupies at most one cell, and no free cell stands before a
key on its own probe order. They are stated for any key type and any probe
order that meets every cell; storing, replacing and burying keep them, and
each of the three acts on the represented finite map as its name says.
-/

set_option autoImplicit false

namespace UBoot.OpenAddressing

inductive Cell (K V : Type*) where
  | free
  | tomb
  | live (key : K) (value : V)

/-- A probe order: each key visits all of the cells `1..n`. -/
structure Order (K : Type*) (n : ℕ) where
  probe : K → ℕ → ℕ
  probe_pos : ∀ k j, 0 < probe k j
  probe_le : ∀ k j, probe k j ≤ n
  surjective : ∀ k i, 0 < i → i ≤ n → ∃ j < n, probe k j = i

variable {K V : Type*} {n : ℕ}

abbrev Cells (K V : Type*) := ℕ → Cell K V

def Occupied (T : Cells K V) (i : ℕ) : Prop := T i ≠ .free

/-- The first `j` cells on the order of `k` are not free. -/
def Passes (O : Order K n) (T : Cells K V) (k : K) (j : ℕ) : Prop :=
  ∀ l < j, Occupied T (O.probe k l)

structure Sound (O : Order K n) (T : Cells K V) : Prop where
  reachable : ∀ i k v, 0 < i → i ≤ n → T i = .live k v → ∃ j < n, O.probe k j = i ∧ Passes O T k j
  single : ∀ i j k v w, 0 < i → i ≤ n → 0 < j → j ≤ n → T i = .live k v → T j = .live k w → i = j

def Holds (n : ℕ) (T : Cells K V) (k : K) (v : V) : Prop := ∃ i, 0 < i ∧ i ≤ n ∧ T i = .live k v

def Absent (n : ℕ) (T : Cells K V) (k : K) : Prop := ∀ v, ¬ Holds n T k v

def put (T : Cells K V) (i : ℕ) (c : Cell K V) : Cells K V := fun j => if j = i then c else T j

@[simp] theorem put_same (T : Cells K V) (i : ℕ) (c : Cell K V) : put T i c i = c := by
  simp [put]

theorem put_other (T : Cells K V) (i j : ℕ) (c : Cell K V) (h : j ≠ i) : put T i c j = T j := by
  simp [put, h]

theorem occupied_put (T : Cells K V) (i j : ℕ) (c : Cell K V) (hc : c ≠ .free)
    (h : Occupied T j) : Occupied (put T i c) j := by
  by_cases hj : j = i
  · subst j
    simpa [Occupied] using hc
  · simpa [Occupied, put_other T i j c hj] using h

theorem passes_put (O : Order K n) (T : Cells K V) (k : K) (j i : ℕ) (c : Cell K V)
    (hc : c ≠ .free) (h : Passes O T k j) : Passes O (put T i c) k j :=
  fun l hl => occupied_put T i _ c hc (h l hl)

/-- A search that meets a free cell before its key shows that the key is absent. -/
theorem absent_of_free (O : Order K n) (T : Cells K V) (hT : Sound O T) (k : K) (j : ℕ)
    (hmiss : ∀ l < j, ∀ v, T (O.probe k l) ≠ .live k v) (hfree : T (O.probe k j) = .free) :
    Absent n T k := by
  rintro v ⟨i, hi, hin, hlive⟩
  obtain ⟨m, -, rfl, hpass⟩ := hT.reachable i k v hi hin hlive
  rcases lt_trichotomy m j with hm | hm | hm
  · exact hmiss m hm v hlive
  · subst m
    rw [hfree] at hlive
    cases hlive
  · exact hpass j hm hfree

/-- A search through the whole order shows the same. -/
theorem absent_of_cycle (O : Order K n) (T : Cells K V) (k : K)
    (hmiss : ∀ l < n, ∀ v, T (O.probe k l) ≠ .live k v) : Absent n T k := by
  rintro v ⟨i, hi, hin, hlive⟩
  obtain ⟨m, hm, rfl⟩ := O.surjective k i hi hin
  exact hmiss m hm v hlive

/-- Storing an absent key in a cell that its search reaches. -/
theorem sound_store (O : Order K n) (T : Cells K V) (hT : Sound O T) (k : K) (v : V) (j : ℕ)
    (hj : j < n) (hpass : Passes O T k j) (habs : Absent n T k) :
    Sound O (put T (O.probe k j) (.live k v)) := by
  constructor
  · intro i k' v' hi hin hlive
    by_cases h : i = O.probe k j
    · subst i
      simp only [put_same, Cell.live.injEq] at hlive
      obtain ⟨rfl, rfl⟩ := hlive
      exact ⟨j, hj, rfl, passes_put O T k j _ _ (by simp) hpass⟩
    · rw [put_other _ _ _ _ h] at hlive
      obtain ⟨m, hm, he, hp⟩ := hT.reachable i k' v' hi hin hlive
      exact ⟨m, hm, he, passes_put O T k' m _ _ (by simp) hp⟩
  · intro i i' k' v' w hi hin hi' hin' hlive hlive'
    by_cases h : i = O.probe k j <;> by_cases h' : i' = O.probe k j
    · rw [h, h']
    · rw [put_other _ _ _ _ h'] at hlive'
      subst i
      simp only [put_same, Cell.live.injEq] at hlive
      obtain ⟨rfl, -⟩ := hlive
      exact absurd ⟨i', hi', hin', hlive'⟩ (habs w)
    · rw [put_other _ _ _ _ h] at hlive
      subst i'
      simp only [put_same, Cell.live.injEq] at hlive'
      obtain ⟨rfl, -⟩ := hlive'
      exact absurd ⟨i, hi, hin, hlive⟩ (habs v')
    · rw [put_other _ _ _ _ h] at hlive
      rw [put_other _ _ _ _ h'] at hlive'
      exact hT.single i i' k' v' w hi hin hi' hin' hlive hlive'

/-- Replacing a value in place, or burying a key, moves no other key. -/
theorem sound_rewrite (O : Order K n) (T : Cells K V) (hT : Sound O T) (i : ℕ) (k : K) (v : V)
    (c : Cell K V) (hi : T i = .live k v) (hc : c = .tomb ∨ ∃ w, c = .live k w) :
    Sound O (put T i c) := by
  have hfree : c ≠ .free := by
    rcases hc with rfl | ⟨w, rfl⟩ <;> simp
  have hold : ∀ j k' v', put T i c j = .live k' v' → ∃ u, T j = .live k' u := by
    intro j k' v' hlive
    by_cases h : j = i
    · subst j
      simp only [put_same] at hlive
      subst hlive
      rcases hc with h | ⟨w, h⟩
      · cases h
      · cases h
        exact ⟨v, hi⟩
    · rw [put_other _ _ _ _ h] at hlive
      exact ⟨v', hlive⟩
  constructor
  · intro j k' v' hj hjn hlive
    obtain ⟨u, hu⟩ := hold j k' v' hlive
    obtain ⟨m, hm, he, hp⟩ := hT.reachable j k' u hj hjn hu
    exact ⟨m, hm, he, passes_put O T k' m i c hfree hp⟩
  · intro a b k' v' w ha han hb hbn hla hlb
    obtain ⟨u, hu⟩ := hold a k' v' hla
    obtain ⟨u', hu'⟩ := hold b k' w hlb
    exact hT.single a b k' u u' ha han hb hbn hu hu'

theorem holds_put_other (T : Cells K V) (i : ℕ) (c : Cell K V) (k : K) (v : V)
    (hi : ∀ w, T i ≠ .live k w) (hc : ∀ w, c ≠ .live k w) :
    Holds n (put T i c) k v ↔ Holds n T k v := by
  constructor
  · rintro ⟨j, hj, hjn, h⟩
    by_cases hji : j = i
    · subst j
      exact absurd (by simpa using h) (hc v)
    · exact ⟨j, hj, hjn, by rwa [put_other _ _ _ _ hji] at h⟩
  · rintro ⟨j, hj, hjn, h⟩
    have hji : j ≠ i := by
      rintro rfl
      exact hi v h
    exact ⟨j, hj, hjn, by rwa [put_other _ _ _ _ hji]⟩

/-- The cells hold exactly the bindings of a finite map. -/
def Represents [DecidableEq K] (n : ℕ) (T : Cells K V) (m : Finmap (fun _ : K => V)) : Prop :=
  ∀ k v, m.lookup k = some v ↔ Holds n T k v

section Represented

variable [DecidableEq K] (O : Order K n) (T : Cells K V) (m : Finmap (fun _ : K => V))

theorem represents_absent (hm : Represents n T m) (k : K) (h : Absent n T k) : m.lookup k = none := by
  cases hl : m.lookup k with
  | none => rfl
  | some v => exact absurd ((hm k v).mp hl) (h v)

theorem represents_live (hm : Represents n T m) (i : ℕ) (k : K) (v : V) (hi : 0 < i) (hin : i ≤ n)
    (h : T i = .live k v) : m.lookup k = some v :=
  (hm k v).mpr ⟨i, hi, hin, h⟩

/-- Writing a key where no other key lives inserts it in the map. -/
theorem represents_insert (hm : Represents n T m) (i : ℕ) (k : K) (v : V)
    (hi : 0 < i) (hin : i ≤ n) (hcell : ∀ k' w, T i = .live k' w → k' = k)
    (hone : ∀ j w, 0 < j → j ≤ n → T j = .live k w → j = i) :
    Represents n (put T i (.live k v)) (m.insert k v) := by
  intro k' v'
  by_cases hk : k' = k
  · subst k'
    rw [Finmap.lookup_insert, Option.some_inj]
    constructor
    · rintro rfl
      exact ⟨i, hi, hin, by simp⟩
    · rintro ⟨j, hj, hjn, h⟩
      by_cases hji : j = i
      · subst j
        simpa using h
      · rw [put_other _ _ _ _ hji] at h
        exact absurd (hone j v' hj hjn h) hji
  · rw [Finmap.lookup_insert_of_ne m hk, hm k' v',
      holds_put_other T i _ k' v' (fun w h => hk (hcell k' w h)) (by simp [Ne.symm hk])]

/-- Burying the one cell of a key erases it from the map. -/
theorem represents_erase (hT : Sound O T) (hm : Represents n T m) (i : ℕ) (k : K) (v : V)
    (hi : 0 < i) (hin : i ≤ n) (hlive : T i = .live k v) :
    Represents n (put T i .tomb) (m.erase k) := by
  intro k' v'
  by_cases hk : k' = k
  · subst k'
    rw [Finmap.lookup_erase]
    constructor
    · intro h
      cases h
    · rintro ⟨j, hj, hjn, h⟩
      by_cases hji : j = i
      · subst j
        simp at h
      · rw [put_other _ _ _ _ hji] at h
        exact absurd (hT.single j i k v' v hj hjn hi hin h hlive) hji
  · rw [Finmap.lookup_erase_ne hk, hm k' v', holds_put_other T i _ k' v' _ (by simp)]
    intro w h
    rw [hlive, Cell.live.injEq] at h
    exact hk h.1.symm

end Represented

end UBoot.OpenAddressing
