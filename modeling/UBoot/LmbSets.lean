import UBoot.Lmb
import Mathlib

/-!
# The addresses in a table of blocks

A table stands for the set of addresses in its regions. Adding a region adds
its addresses and freeing one takes them away, unless the table was emptied
before, is out of order where it matters, has no room for a split, or holds
the freed addresses in another region too.
-/

set_option autoImplicit false

namespace UBoot.LogicalBlocks

def Range.addresses (r : Range) : Set ℕ := Set.Ico r.base (r.base+r.size)

/-- The addresses in the regions of a table. -/
def covered (t : Table) : Set ℕ := {x | ∃ i < t.cnt, x ∈ (t.region i).addresses}

/-- No region reaches the end of the address space. -/
def Fits (t : Table) : Prop := ∀ i < t.cnt, (t.region i).base+(t.region i).size < 4294967296

theorem word_of_lt (x : ℕ) (h : x < 4294967296) : word x = x := Nat.mod_eq_of_lt h

theorem minus_of_le (x y : ℕ) (h : y ≤ x) (hx : x < 4294967296) : minus x y = x-y := by
  unfold minus word
  omega

theorem mem_addresses (r : Range) (x : ℕ) :
    x ∈ r.addresses ↔ r.base ≤ x ∧ x < r.base+r.size := Iff.rfl

/-! ## The changes to the array -/

theorem set_covered (t : Table) (i : ℕ) (r : Range) (hi : i < t.cnt) (x : ℕ) :
    x ∈ covered (t.set i r) ↔
      x ∈ r.addresses ∨ ∃ k < t.cnt, k ≠ i ∧ x ∈ (t.region k).addresses := by
  constructor
  · rintro ⟨k, hk, hx⟩
    by_cases hki : k = i
    · subst hki
      simp only [Table.set, Function.update_self] at hx
      exact .inl hx
    · simp only [Table.set, Function.update_of_ne hki] at hx
      exact .inr ⟨k, hk, hki, hx⟩
  · rintro (hx | ⟨k, hk, hki, hx⟩)
    · exact ⟨i, hi, by simpa only [Table.set, Function.update_self] using hx⟩
    · exact ⟨k, hk, by simpa only [Table.set, Function.update_of_ne hki] using hx⟩

theorem covered_split (t : Table) (i : ℕ) (hi : i < t.cnt) (x : ℕ) :
    x ∈ covered t ↔
      x ∈ (t.region i).addresses ∨ ∃ k < t.cnt, k ≠ i ∧ x ∈ (t.region k).addresses := by
  have h := set_covered t i (t.region i) hi x
  rw [Table.set, Function.update_eq_self] at h
  exact h

theorem set_fits (t : Table) (i : ℕ) (r : Range) (h : Fits t) (hr : r.base+r.size < 4294967296) :
    Fits (t.set i r) := by
  intro k hk
  by_cases hki : k = i
  · subst hki
    simpa only [Table.set, Function.update_self] using hr
  · simpa only [Table.set, Function.update_of_ne hki] using h k hk

theorem shiftDown_apply (region : ℕ → Range) (i n k : ℕ) :
    shiftDown region i n k = if i ≤ k ∧ k < i+n then region (k+1) else region k := by
  induction n generalizing region i with
  | zero =>
    rw [if_neg (by omega)]
    rfl
  | succ n ih =>
    rw [shiftDown, ih]
    by_cases h1 : i+1 ≤ k ∧ k < i+1+n
    · rw [if_pos h1, if_pos (by omega), Function.update_of_ne (by omega)]
    · rw [if_neg h1]
      by_cases h2 : k = i
      · subst h2
        rw [if_pos (by omega), Function.update_self]
      · rw [if_neg (by omega), Function.update_of_ne h2]

/-- The regions behind the removed one move down by one. -/
theorem removeRegion_some (t : Table) (r : ℕ) (hr : r < t.cnt) : ∃ t', removeRegion t r = some t' ∧
    t'.cnt = t.cnt-1 ∧ ∀ k, k < t'.cnt → t'.region k = t.region (if r ≤ k then k+1 else k) := by
  refine ⟨_, by rw [removeRegion, if_neg (by omega)], rfl, fun k hk => ?_⟩
  simp only at hk ⊢
  rw [shiftDown_apply]
  by_cases h : r ≤ k
  · rw [if_pos (by omega), if_pos h]
  · rw [if_neg (by omega), if_neg h]

theorem removeRegion_covered (t : Table) (r : ℕ) (hr : r < t.cnt) (hf : Fits t) :
    ∃ t', removeRegion t r = some t' ∧ Fits t' ∧
      ∀ x, x ∈ covered t' ↔ ∃ k < t.cnt, k ≠ r ∧ x ∈ (t.region k).addresses := by
  obtain ⟨t', ht, hcnt, hreg⟩ := removeRegion_some t r hr
  refine ⟨t', ht, fun k hk => ?_, fun x => ⟨?_, ?_⟩⟩
  · rw [hreg k hk]
    split_ifs
    · exact hf _ (by omega)
    · exact hf _ (by omega)
  · rintro ⟨k, hk, hx⟩
    rw [hreg k hk] at hx
    by_cases h : r ≤ k
    · rw [if_pos h] at hx
      exact ⟨k+1, by omega, by omega, hx⟩
    · rw [if_neg h] at hx
      exact ⟨k, by omega, by omega, hx⟩
  · rintro ⟨k, hk, hkr, hx⟩
    by_cases h : k < r
    · refine ⟨k, by omega, ?_⟩
      rw [hreg k (by omega), if_neg (by omega)]
      exact hx
    · refine ⟨k-1, by omega, ?_⟩
      rw [hreg (k-1) (by omega), if_pos (by omega), Nat.sub_add_cancel (by omega)]
      exact hx

/-- The second loop of `lmb_add_region` stops at `p` and moves what is behind up by one. -/
theorem insertDown_spec (region : ℕ → Range) (base size n : ℕ) : ∃ p ≤ n,
    (∀ k, p ≤ k → k < n → base < (region k).base ∧
      insertDown region base size n (k+1) = region k) ∧
    (∀ k < p, insertDown region base size n k = region k) ∧
    (p = 0 → insertDown region base size n 0 = region 0) ∧
    (0 < p → (region (p-1)).base ≤ base ∧ insertDown region base size n p = ⟨base, size⟩) ∧
    ∀ k, n < k → insertDown region base size n k = region k := by
  induction n generalizing region with
  | zero => exact ⟨0, le_rfl, by omega, by omega, fun _ => rfl, by omega, fun k _ => rfl⟩
  | succ n ih =>
    rw [insertDown]
    by_cases h : base < (region n).base
    · rw [if_pos h]
      have hlow : ∀ k ≤ n, Function.update region (n+1) (region n) k = region k := fun k hk =>
        Function.update_of_ne (by omega) _ _
      obtain ⟨p, hp, h1, h2, h3, h4, h5⟩ := ih (Function.update region (n+1) (region n))
      refine ⟨p, by omega, fun k hk1 hk2 => ?_, fun k hk => ?_, fun h0 => ?_, fun h0 => ?_,
        fun k hk => ?_⟩
      · by_cases hkn : k = n
        · subst hkn
          refine ⟨h, ?_⟩
          rw [h5 (k+1) (by omega), Function.update_self]
        · have := h1 k hk1 (by omega)
          rw [hlow k (by omega)] at this
          exact this
      · rw [h2 k hk, hlow k (by omega)]
      · rw [h3 h0, hlow 0 (by omega)]
      · have := h4 h0
        rw [hlow (p-1) (by omega)] at this
        exact this
      · rw [h5 k (by omega), Function.update_of_ne (by omega)]
    · rw [if_neg h]
      refine ⟨n+1, le_rfl, by omega, fun k hk => Function.update_of_ne (by omega) _ _, by omega,
        fun _ => ⟨by rw [Nat.add_sub_cancel]; omega, Function.update_self _ _ _⟩,
        fun k hk => Function.update_of_ne (by omega) _ _⟩

/-- The new region is at `p`, and what is behind has moved up. -/
theorem insertRegion_spec (t : Table) (base size : ℕ) (h0 : 0 < t.cnt)
    (horder : base < (t.region 0).base → ∀ k < t.cnt, base < (t.region k).base) : ∃ p ≤ t.cnt,
    (insertRegion t base size).region p = ⟨base, size⟩ ∧
    (∀ k < p, (insertRegion t base size).region k = t.region k) ∧
    (∀ k, p ≤ k → k < t.cnt → base < (t.region k).base ∧
      (insertRegion t base size).region (k+1) = t.region k) ∧
    (0 < p → (t.region (p-1)).base ≤ base) := by
  obtain ⟨p, hp, h1, h2, h3, h4, -⟩ := insertDown_spec t.region base size t.cnt
  have hfirst : insertDown t.region base size t.cnt 0 = t.region 0 := by
    by_cases hp0 : p = 0
    · exact h3 hp0
    · exact h2 0 (by omega)
  have hregion : ∀ k, (insertRegion t base size).region k =
      if p = 0 ∧ k = 0 then ⟨base, size⟩ else insertDown t.region base size t.cnt k := by
    intro k
    unfold insertRegion
    simp only [hfirst]
    by_cases hp0 : p = 0
    · have hlt := (h1 0 (by omega) h0).1
      rw [if_pos hlt]
      by_cases hk : k = 0
      · subst hk
        rw [Function.update_self, if_pos ⟨hp0, rfl⟩]
      · rw [Function.update_of_ne hk, if_neg (by omega)]
    · have hge := (h4 (by omega)).1
      rw [if_neg, if_neg (by omega)]
      intro hlt
      have := horder hlt (p-1) (by omega)
      omega
  refine ⟨p, hp, ?_, fun k hk => ?_, fun k hk1 hk2 => ⟨(h1 k hk1 hk2).1, ?_⟩, fun hpos => (h4 hpos).1⟩
  · rw [hregion]
    by_cases hp0 : p = 0
    · rw [if_pos ⟨hp0, hp0⟩]
    · rw [if_neg (by omega)]
      exact (h4 (by omega)).2
  · rw [hregion, if_neg (by omega)]
    exact h2 k hk
  · rw [hregion, if_neg (by omega)]
    exact (h1 k hk1 hk2).2

theorem insertRegion_covered (t : Table) (base size : ℕ) (h0 : 0 < t.cnt) (hf : Fits t)
    (hfit : base+size < 4294967296)
    (horder : base < (t.region 0).base → ∀ k < t.cnt, base < (t.region k).base) :
    Fits (insertRegion t base size) ∧
      covered (insertRegion t base size) = covered t ∪ Set.Ico base (base+size) := by
  obtain ⟨p, hp, hnew, hlow, hhigh', -⟩ := insertRegion_spec t base size h0 horder
  have hhigh := fun k hk1 hk2 => (hhigh' k hk1 hk2).2
  have hcnt : (insertRegion t base size).cnt = t.cnt+1 := rfl
  constructor
  · intro k hk
    rcases Nat.lt_trichotomy k p with hkp | hkp | hkp
    · rw [hlow k hkp]
      exact hf k (by omega)
    · rw [hkp, hnew]
      exact hfit
    · have := hhigh (k-1) (by omega) (by omega)
      rw [Nat.sub_add_cancel (by omega)] at this
      rw [this]
      exact hf (k-1) (by omega)
  · ext x
    constructor
    · rintro ⟨k, hk, hx⟩
      rcases Nat.lt_trichotomy k p with hkp | hkp | hkp
      · rw [hlow k hkp] at hx
        exact .inl ⟨k, by omega, hx⟩
      · rw [hkp, hnew] at hx
        exact .inr hx
      · have := hhigh (k-1) (by omega) (by omega)
        rw [Nat.sub_add_cancel (by omega)] at this
        rw [this] at hx
        exact .inl ⟨k-1, by omega, hx⟩
    · rintro (⟨k, hk, hx⟩ | hx)
      · by_cases hkp : k < p
        · exact ⟨k, by omega, by rw [hlow k hkp]; exact hx⟩
        · exact ⟨k+1, by omega, by rw [hhigh k (by omega) hk]; exact hx⟩
      · exact ⟨p, by omega, by rw [hnew]; exact hx⟩

/-! ## Adding a region -/

theorem addrsAdjacent_pos (base1 size1 base2 size2 : ℕ)
    (h : 0 < addrsAdjacent base1 size1 base2 size2) : base2 = word (base1+size1) := by
  by_contra hne
  unfold addrsAdjacent at h
  rw [if_neg hne] at h
  split_ifs at h <;> omega

theorem addrsAdjacent_neg (base1 size1 base2 size2 : ℕ)
    (h : addrsAdjacent base1 size1 base2 size2 < 0) : base1 = word (base2+size2) := by
  by_contra hne
  unfold addrsAdjacent at h
  rw [if_neg hne] at h
  split_ifs at h <;> omega

theorem scan_present (region : ℕ → Range) (base size i n : ℕ)
    (h : scan region base size i n = .present) : ∃ k, i ≤ k ∧ k < i+n ∧ region k = ⟨base, size⟩ := by
  induction n generalizing i with
  | zero => cases h
  | succ n ih =>
    rw [scan] at h
    simp only at h
    split_ifs at h with h1 h2 h3
    · exact ⟨i, le_rfl, by omega, by rw [← h1.1, ← h1.2]⟩
    · obtain ⟨k, hk1, hk2, hk⟩ := ih (i+1) h
      exact ⟨k, by omega, by omega, hk⟩

/-- A grown region is one of the regions with the new one at its front or its back. -/
theorem scan_grown (region : ℕ → Range) (base size i n k : ℕ) (r : Range)
    (hfit : base+size < 4294967296)
    (hf : ∀ j, i ≤ j → j < i+n → (region j).base+(region j).size < 4294967296)
    (h : scan region base size i n = .grown k r) : i ≤ k ∧ k < i+n ∧
      r.size = (region k).size+size ∧
      ((region k).base = base+size ∧ r.base = base ∨
        base = (region k).base+(region k).size ∧ r.base = (region k).base) := by
  induction n generalizing i with
  | zero => cases h
  | succ n ih =>
    have hi := hf i le_rfl (by omega)
    rw [scan] at h
    simp only at h
    split_ifs at h with h1 h2 h3
    · rw [Scan.grown.injEq] at h
      obtain ⟨hk, rfl⟩ := h
      subst hk
      have heq : (region i).base = base+size := by
        rw [addrsAdjacent_pos _ _ _ _ h2, word_of_lt _ hfit]
      refine ⟨le_rfl, by omega, word_of_lt _ (by omega), .inl ⟨heq, ?_⟩⟩
      simp only
      rw [minus_of_le _ _ (by omega) (by omega)]
      omega
    · rw [Scan.grown.injEq] at h
      obtain ⟨hk, rfl⟩ := h
      subst hk
      have heq : base = (region i).base+(region i).size := by
        rw [addrsAdjacent_neg _ _ _ _ h3, word_of_lt _ hi]
      exact ⟨le_rfl, by omega, word_of_lt _ (by omega), .inr ⟨heq, rfl⟩⟩
    · obtain ⟨hk1, hk2, hk⟩ := ih (i+1) (fun j hj1 hj2 => hf j (by omega) (by omega)) h
      exact ⟨by omega, by omega, hk⟩

/-- The table takes a region as it should. -/
structure AddOk (t : Table) (base size : ℕ) : Prop where
  /-- What an emptied table still holds is neither merged nor kept. -/
  emptied : t.cnt = 0 → regionsAdjacent t.region 0 1 = 0 ∧
    (base < (t.region 0).base ∨ t.region 0 = ⟨base, size⟩)
  /-- A grown region is merged with one that comes after it. -/
  merged : ∀ i r, scan t.region base size 0 t.cnt = .grown i r → i+1 < t.cnt →
    regionsAdjacent (t.set i r).region i (i+1) < 0 → (t.region (i+1)).size = 0
  /-- The first region is moved before another one takes its place. -/
  placed : scan t.region base size 0 t.cnt = .fresh → t.cnt < maxLmbRegions →
    base < (t.region 0).base → ∀ k < t.cnt, base < (t.region k).base

theorem coalesce_covered (t : Table) (i : ℕ) (hi : i+1 < t.cnt) (hf : Fits t)
    (hadj : regionsAdjacent t.region i (i+1) ≠ 0)
    (horder : regionsAdjacent t.region i (i+1) < 0 → (t.region (i+1)).size = 0) :
    ∃ t', coalesceRegions t i (i+1) = some t' ∧ Fits t' ∧ covered t' = covered t := by
  have hf1 := hf i (by omega)
  have hf2 := hf (i+1) hi
  have hends : (t.region (i+1)).base = (t.region i).base+(t.region i).size ∨
      (t.region (i+1)).size = 0 := by
    rcases lt_or_gt_of_ne hadj with hneg | hpos
    · exact .inr (horder hneg)
    · left
      rw [addrsAdjacent_pos _ _ _ _ hpos, word_of_lt _ hf1]
  have hsize : word ((t.region i).size+(t.region (i+1)).size) =
      (t.region i).size+(t.region (i+1)).size := word_of_lt _ (by omega)
  unfold coalesceRegions
  rw [hsize]
  obtain ⟨t', ht', hfit', hcov⟩ := removeRegion_covered
    (t.set i ⟨(t.region i).base, (t.region i).size+(t.region (i+1)).size⟩) (i+1) hi
    (set_fits t i _ hf (by simp only; omega))
  refine ⟨t', ht', hfit', ?_⟩
  ext x
  rw [hcov, covered_split t i (by omega)]
  constructor
  · rintro ⟨k, hk, hne, hx⟩
    by_cases hki : k = i
    · subst hki
      simp only [Table.set, Function.update_self, mem_addresses] at hx
      by_cases hlt : x < (t.region k).base+(t.region k).size
      · exact .inl ⟨hx.1, hlt⟩
      · exact .inr ⟨k+1, hi, by omega, by rw [mem_addresses]; omega⟩
    · simp only [Table.set, Function.update_of_ne hki] at hx
      exact .inr ⟨k, hk, hki, hx⟩
  · rintro (hx | ⟨k, hk, hne, hx⟩)
    · refine ⟨i, by simp only [Table.set]; omega, by omega, ?_⟩
      rw [mem_addresses] at hx
      simp only [Table.set, Function.update_self, mem_addresses]
      omega
    · by_cases hki : k = i+1
      · subst hki
        refine ⟨i, by simp only [Table.set]; omega, by omega, ?_⟩
        rw [mem_addresses] at hx
        simp only [Table.set, Function.update_self, mem_addresses]
        omega
      · exact ⟨k, hk, hki, by simpa only [Table.set, Function.update_of_ne hne] using hx⟩

/-- What `lmb_add_region` does to the set. -/
theorem addRegion_covered (t : Table) (base size : ℕ) (hf : Fits t)
    (hfit : base+size < 4294967296) (hok : AddOk t base size) :
    ∃ r t', addRegion t base size = some (r, t') ∧ Fits t' ∧
      (0 ≤ r → covered t' = covered t ∪ Set.Ico base (base+size)) ∧
      (r < 0 → t' = t ∧ scan t.region base size 0 t.cnt = .fresh ∧ maxLmbRegions ≤ t.cnt) := by
  unfold addRegion
  by_cases hdummy : t.cnt = 1 ∧ (t.region 0).size = 0
  · rw [if_pos hdummy]
    refine ⟨_, _, rfl, set_fits t 0 _ hf hfit, fun _ => ?_, by omega⟩
    ext x
    rw [set_covered t 0 _ (by omega), Set.mem_union, covered_split t 0 (by omega), mem_addresses (t.region 0)]
    have hnone : ¬∃ k < t.cnt, k ≠ 0 ∧ x ∈ (t.region k).addresses := by
      rintro ⟨k, hk, hne, -⟩
      omega
    rw [hdummy.2]
    simp only [hnone, or_false, Nat.add_zero]
    constructor
    · exact fun h => .inr h
    · rintro (h | h)
      · omega
      · exact h
  rw [if_neg hdummy]
  cases hs : scan t.region base size 0 t.cnt with
  | present =>
    obtain ⟨k, -, hk, heq⟩ := scan_present t.region base size 0 t.cnt hs
    refine ⟨_, _, rfl, hf, fun _ => ?_, by omega⟩
    have hsub : Set.Ico base (base+size) ⊆ covered t := fun x hx =>
      ⟨k, by omega, by rw [heq]; exact hx⟩
    exact (Set.union_eq_self_of_subset_right hsub).symm
  | grown i r =>
    obtain ⟨-, hi, hsize, hends⟩ := scan_grown t.region base size 0 t.cnt i r hfit
      (fun j _ hj => hf j (by omega)) hs
    have hfi := hf i (by omega)
    have hfs : Fits (t.set i r) := set_fits t i r hf (by omega)
    have hcov : covered (t.set i r) = covered t ∪ Set.Ico base (base+size) := by
      ext x
      rw [set_covered t i r (by omega), Set.mem_union, covered_split t i (by omega), mem_addresses,
        mem_addresses, Set.mem_Ico]
      constructor
      · rintro (h | h)
        · by_cases hx : base ≤ x ∧ x < base+size
          · exact .inr hx
          · exact .inl (.inl (by omega))
        · exact .inl (.inr h)
      · rintro ((h | h) | h)
        · exact .inl (by omega)
        · exact .inr h
        · exact .inl (by omega)
    simp only
    by_cases hnext : i < t.cnt-1 ∧ regionsAdjacent (t.set i r).region i (i+1) ≠ 0
    · rw [if_pos hnext]
      obtain ⟨t', ht', hf', hc'⟩ := coalesce_covered (t.set i r) i
        (show i+1 < t.cnt by omega) hfs hnext.2 (fun hneg => by
          have := hok.merged i r hs (by omega) hneg
          simpa only [Table.set, Function.update_of_ne (Nat.succ_ne_self i)] using this)
      exact ⟨2, t', by rw [ht']; rfl, hf', fun _ => hc'.trans hcov, by omega⟩
    · rw [if_neg hnext]
      exact ⟨1, _, rfl, hfs, fun _ => hcov, by omega⟩
  | fresh =>
    simp only
    by_cases h0 : t.cnt = 0
    · obtain ⟨hadj, hbase⟩ := hok.emptied h0
      rw [if_neg (by simp [hadj]), if_neg (by rw [h0]; decide)]
      have hins : insertRegion t base size = ⟨1, fun k => if k = 0 then ⟨base, size⟩ else
          t.region k⟩ ∨ insertRegion t base size = ⟨1, t.region⟩ ∧ t.region 0 = ⟨base, size⟩ := by
        unfold insertRegion
        simp only [h0, insertDown]
        rcases hbase with hlt | heq
        · left
          rw [if_pos hlt]
          congr 1
          funext k
          rw [Function.update_apply]
        · right
          rw [if_neg (by rw [heq]; simp)]
          exact ⟨rfl, heq⟩
      have hone : (insertRegion t base size).cnt = 1 ∧
          (insertRegion t base size).region 0 = ⟨base, size⟩ := by
        rcases hins with h | ⟨h, heq⟩
        · rw [h]
          exact ⟨rfl, rfl⟩
        · rw [h]
          exact ⟨rfl, heq⟩
      refine ⟨0, _, rfl, fun k hk => ?_, fun _ => ?_, by omega⟩
      · rw [show k = 0 by omega, hone.2]
        exact hfit
      · ext x
        constructor
        · rintro ⟨k, hk, hx⟩
          rw [show k = 0 by omega, hone.2] at hx
          exact .inr hx
        · rintro (⟨k, hk, -⟩ | hx)
          · omega
          · exact ⟨0, by omega, by rw [hone.2]; exact hx⟩
    · rw [if_neg (by simp [h0])]
      by_cases hmax : maxLmbRegions ≤ t.cnt
      · rw [if_pos hmax]
        exact ⟨-1, t, rfl, hf, by omega, fun _ => ⟨rfl, trivial, hmax⟩⟩
      · rw [if_neg hmax]
        obtain ⟨hf', hc'⟩ := insertRegion_covered t base size (by omega) hf hfit
          (hok.placed hs (by omega))
        exact ⟨0, _, rfl, hf', fun _ => hc', by omega⟩

/-! ## Freeing a range -/

theorem findHolder_some (region : ℕ → Range) (base stop i n k : ℕ)
    (h : findHolder region base stop i n = some k) : i ≤ k ∧ k < i+n ∧ (region k).base ≤ base ∧
      stop ≤ word ((region k).base+(region k).size) := by
  induction n generalizing i with
  | zero => cases h
  | succ n ih =>
    rw [findHolder] at h
    split_ifs at h with h1
    · cases h
      exact ⟨le_rfl, by omega, h1⟩
    · obtain ⟨hk1, hk2, hk⟩ := ih (i+1) h
      exact ⟨by omega, by omega, hk⟩

/-- A range can be taken out of the table. -/
structure FreeOk (t : Table) (base size : ℕ) : Prop where
  /-- Only one region holds addresses of the range. -/
  alone : ∀ i, findHolder t.region base (word (base+size)) 0 t.cnt = some i →
    ∀ k < t.cnt, k ≠ i → Disjoint (t.region k).addresses (Set.Ico base (base+size))
  /-- The rest of a split region can be added again. -/
  split : ∀ i, findHolder t.region base (word (base+size)) 0 t.cnt = some i →
    ∀ front back, (t.region i).base+front = base → 0 < front → 0 < back →
    base+size+back = (t.region i).base+(t.region i).size →
    AddOk (t.set i ⟨(t.region i).base, front⟩) (base+size) back ∧
      (t.cnt < maxLmbRegions ∨
        scan (t.set i ⟨(t.region i).base, front⟩).region (base+size) back 0 t.cnt ≠ .fresh)

section Free

variable (t : Table) (base size i : ℕ) (hi : i < t.cnt)
  (halone : ∀ k < t.cnt, k ≠ i → Disjoint (t.region k).addresses (Set.Ico base (base+size)))

include hi halone in
/-- The range is taken away from the region that holds it. -/
theorem covered_diff (x : ℕ) : x ∈ covered t \ Set.Ico base (base+size) ↔
    x ∈ (t.region i).addresses \ Set.Ico base (base+size) ∨
      ∃ k < t.cnt, k ≠ i ∧ x ∈ (t.region k).addresses := by
  rw [Set.mem_sdiff, covered_split t i hi, Set.mem_sdiff]
  constructor
  · rintro ⟨h | h, hx⟩
    · exact .inl ⟨h, hx⟩
    · exact .inr h
  · rintro (⟨h, hx⟩ | ⟨k, hk, hne, hx⟩)
    · exact ⟨.inl h, hx⟩
    · exact ⟨.inr ⟨k, hk, hne, hx⟩, fun hx' => Set.disjoint_left.mp (halone k hk hne) hx hx'⟩

end Free

/-- What `lmb_free` does to the set. -/
theorem freeRegion_covered (t : Table) (base size : ℕ) (hf : Fits t)
    (hfit : base+size < 4294967296) (hok : FreeOk t base size) :
    ∃ r t', freeRegion t base size = some (r, t') ∧ Fits t' ∧
      (0 ≤ r → covered t' = covered t \ Set.Ico base (base+size)) ∧ (r < 0 → t' = t) := by
  unfold freeRegion
  have hw : word (base+size) = base+size := word_of_lt _ hfit
  cases hh : findHolder t.region base (word (base+size)) 0 t.cnt with
  | none =>
    simp only [hh]
    exact ⟨-1, t, rfl, hf, by omega, fun _ => rfl⟩
  | some i =>
    obtain ⟨-, hi, hle, hstop⟩ := findHolder_some t.region base _ 0 t.cnt i hh
    have hi' : i < t.cnt := by omega
    have hfi := hf i hi'
    have halone := hok.alone i hh
    have hend : word ((t.region i).base+(t.region i).size) = (t.region i).base+(t.region i).size :=
      word_of_lt _ hfi
    rw [hw, hend] at hstop
    simp only [hh]
    rw [hw, hend]
    by_cases h1 : (t.region i).base = base ∧ (t.region i).base+(t.region i).size = base+size
    · rw [if_pos h1]
      obtain ⟨t', ht', hf', hc'⟩ := removeRegion_covered t i hi' hf
      refine ⟨0, t', by rw [ht']; rfl, hf', fun _ => ?_, by omega⟩
      ext x
      rw [hc', covered_diff t base size i hi' halone, Set.mem_sdiff, mem_addresses, Set.mem_Ico]
      constructor
      · exact fun h => .inr h
      · rintro (h | h)
        · omega
        · exact h
    rw [if_neg h1]
    have hsize : minus (t.region i).size size = (t.region i).size-size :=
      minus_of_le _ _ (by omega) (by omega)
    by_cases h2 : (t.region i).base = base
    · rw [if_pos h2, hsize]
      refine ⟨0, _, rfl, set_fits t i _ hf (by simp only; omega), fun _ => ?_, by omega⟩
      ext x
      rw [set_covered t i _ hi', covered_diff t base size i hi' halone, Set.mem_sdiff, mem_addresses,
        mem_addresses, Set.mem_Ico]
      refine or_congr_left ?_
      simp only
      omega
    rw [if_neg h2]
    by_cases h3 : (t.region i).base+(t.region i).size = base+size
    · rw [if_pos h3, hsize]
      refine ⟨0, _, rfl, set_fits t i _ hf (by simp only; omega), fun _ => ?_, by omega⟩
      ext x
      rw [set_covered t i _ hi', covered_diff t base size i hi' halone, Set.mem_sdiff, mem_addresses,
        mem_addresses, Set.mem_Ico]
      refine or_congr_left ?_
      simp only
      omega
    rw [if_neg h3, minus_of_le _ _ hle (by omega), minus_of_le _ _ hstop hfi]
    obtain ⟨hadd, hroom⟩ := hok.split i hh (base-(t.region i).base)
      ((t.region i).base+(t.region i).size-(base+size)) (by omega) (by omega) (by omega) (by omega)
    obtain ⟨r, t', ht', hf', hc', hfail⟩ := addRegion_covered _ (base+size)
      ((t.region i).base+(t.region i).size-(base+size))
      (set_fits t i ⟨(t.region i).base, base-(t.region i).base⟩ hf (by simp only; omega)) (by omega)
      hadd
    have hr : 0 ≤ r := by
      by_contra hneg
      obtain ⟨-, hfresh, hmax⟩ := hfail (by omega)
      rcases hroom with hroom | hroom
      · exact absurd hroom (not_lt.mpr hmax)
      · exact hroom hfresh
    refine ⟨r, t', ht', hf', fun _ => ?_, by omega⟩
    ext x
    rw [hc' hr, Set.mem_union, set_covered t i _ hi', covered_diff t base size i hi' halone,
      Set.mem_sdiff, mem_addresses, mem_addresses, Set.mem_Ico, Set.mem_Ico]
    constructor
    · rintro ((h | h) | h)
      · exact .inl (by simp only at h; omega)
      · exact .inr h
      · exact .inl (by omega)
    · rintro (h | h)
      · by_cases hx : x < base
        · exact .inl (.inl (by simp only; omega))
        · exact .inr (by omega)
      · exact .inl (.inr h)

end UBoot.LogicalBlocks
