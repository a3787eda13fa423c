import UBoot.LmbErrors

/-!
# The order of the reserved regions

The reserved table stays sorted, with gaps between its regions, as long as no range
is reserved that overlaps what is there. The code does not look for that.
-/

set_option autoImplicit false

namespace UBoot.LogicalBlocks

inductive Call where
  | add (base size : ℕ)
  | reserve (base size : ℕ)
  | alloc (size align maxAddr : ℕ)
  | free (base size : ℕ)

def call (l : Lmb) : Call → Option Lmb
  | .add base size => (add l base size).map Prod.snd
  | .reserve base size => (reserve l base size).map Prod.snd
  | .alloc size align maxAddr => (allocBase l size align maxAddr).map Prod.snd
  | .free base size => (free l base size).map Prod.snd

/-- The states of the runs from `lmb_init` whose calls meet a condition. -/
inductive Runs (ok : Lmb → Call → Prop) : Lmb → Prop
  | init (l : Lmb) : Runs ok (lmbInit l)
  | step (l l' : Lmb) (c : Call) : Runs ok l → ok l c → call l c = some l' → Runs ok l'

/-- Sorted by base, without overlaps and within the table. -/
def Listed (t : Table) : Prop :=
  t.cnt ≤ maxLmbRegions ∧ ∀ i j, i < j → j < t.cnt → (t.region i).base ≤ (t.region j).base ∧
    Disjoint (t.region i).addresses (t.region j).addresses

/-- A range in the address space that overlaps no reserved region, apart from one that
is the same. -/
def Fresh (t : Table) (base size : ℕ) : Prop :=
  0 < size ∧ base+size < 4294967296 ∧
    ∀ i < t.cnt, Apart base size (t.region i) ∨ t.region i = ⟨base, size⟩

/-- The calls that keep the order. -/
def Orderly (l : Lmb) : Call → Prop
  | .add _ _ => True
  | .reserve base size => Fresh l.reserved base size
  | .alloc size align maxAddr =>
    -- what is reserved is what was searched for
    (∃ k < 32, align = 2^k) ∧ 0 < size ∧ alignUp size align = size ∧ Fits l.memory ∧
      LimitOk l size maxAddr
  | .free base size => base+size < 4294967296

/-! ## The invariant -/

structure Gapped (t : Table) : Prop where
  count : t.cnt ≤ maxLmbRegions
  fits : Fits t
  gap : ∀ i j, i < j → j < t.cnt → (t.region i).base+(t.region i).size < (t.region j).base
  nonempty : ∀ i < t.cnt, 0 < (t.region i).size ∨ t.cnt = 1
  /-- What an emptied table still holds. -/
  emptied : t.cnt = 0 → (t.region 0).base+(t.region 0).size < 4294967296

theorem Gapped.listed (t : Table) (h : Gapped t) : Listed t := by
  refine ⟨h.count, fun i j hij hj => ?_⟩
  have hgap := h.gap i j hij hj
  refine ⟨by omega, ?_⟩
  rw [Range.addresses, Range.addresses, Set.disjoint_left]
  intro x h1 h2
  rw [Set.mem_Ico] at h1 h2
  omega

theorem gapped_init (t : Table) : Gapped (tableInit t) where
  count := show 1 ≤ 8 by decide
  fits := fun i hi => by
    obtain rfl : i = 0 := Nat.lt_one_iff.mp hi
    exact Nat.zero_lt_succ _
  gap := fun i j h1 h2 => absurd h2 (by simp only [tableInit]; omega)
  nonempty := fun _ _ => .inr rfl
  emptied := fun h => absurd h Nat.one_ne_zero

/-- A table of one region. -/
theorem gapped_one (t : Table) (h : t.cnt = 1) (hf : (t.region 0).base+(t.region 0).size < 4294967296) :
    Gapped t where
  count := by rw [h]; decide
  fits := fun i hi => by
    obtain rfl : i = 0 := by omega
    exact hf
  gap := fun i j h1 h2 => by omega
  nonempty := fun _ _ => .inr h
  emptied := fun h0 => by omega

/-- A region may shrink or grow into the gaps beside it. -/
theorem Gapped.set (t : Table) (i : ℕ) (r : Range) (h : Gapped t) (hi : i < t.cnt) (hr : 0 < r.size)
    (hf : r.base+r.size < 4294967296)
    (hlow : ∀ k < i, (t.region k).base+(t.region k).size < r.base)
    (hhigh : ∀ k, i < k → k < t.cnt → r.base+r.size < (t.region k).base) : Gapped (t.set i r) := by
  have hne : ∀ k, k ≠ i → (t.set i r).region k = t.region k := fun k hk => Function.update_of_ne hk _ _
  have heq : (t.set i r).region i = r := Function.update_self _ _ _
  refine ⟨h.count, set_fits t i r h.fits hf, fun a b hab hb => ?_, fun a ha => ?_, fun h0 => ?_⟩
  · change b < t.cnt at hb
    by_cases ha : a = i
    · subst ha
      rw [heq, hne b (by omega)]
      exact hhigh b hab hb
    · rw [hne a ha]
      by_cases hbi : b = i
      · subst hbi
        rw [heq]
        exact hlow a hab
      · rw [hne b hbi]
        exact h.gap a b hab hb
  · by_cases hai : a = i
    · subst hai
      rw [heq]
      exact .inl hr
    · rw [hne a hai]
      exact h.nonempty a ha
  · change t.cnt = 0 at h0
    omega

theorem Gapped.remove (t t' : Table) (r : ℕ) (h : Gapped t) (hr : r < t.cnt)
    (hrem : removeRegion t r = some t') : Gapped t' := by
  obtain ⟨t1, h1, hcnt, hreg⟩ := removeRegion_some t r hr
  obtain rfl : t1 = t' := Option.some.inj (h1.symm.trans hrem)
  have hcount := h.count
  refine ⟨by omega, fun k hk => ?_, fun a b hab hb => ?_, fun k hk => ?_, fun h0 => ?_⟩
  · rw [hreg k hk]
    split_ifs
    · exact h.fits _ (by omega)
    · exact h.fits _ (by omega)
  · rw [hreg a (by omega), hreg b hb]
    split_ifs
    · exact h.gap _ _ (by omega) (by omega)
    · omega
    · exact h.gap _ _ (by omega) (by omega)
    · exact h.gap _ _ (by omega) (by omega)
  · left
    rw [hreg k hk]
    split_ifs
    · have := h.nonempty (k+1) (by omega)
      omega
    · have := h.nonempty k (by omega)
      omega
  · -- the last region goes and stays in the array
    have hone : t.cnt = 1 := by omega
    have hr0 : r = 0 := by omega
    rw [removeRegion, if_neg (by omega)] at h1
    obtain rfl := Option.some.inj h1
    simp only [hone, hr0]
    exact h.fits 0 (by omega)

/-- An entry before the removed one can be set before or after. -/
theorem removeRegion_set (t : Table) (i r : ℕ) (x : Range) (hi : i < r) :
    removeRegion (t.set i x) r = (removeRegion t r).map fun t' => t'.set i x := by
  by_cases h0 : t.cnt = 0
  · rw [removeRegion, removeRegion, if_pos (show (t.set i x).cnt = 0 from h0), if_pos h0]
    rfl
  rw [removeRegion, removeRegion, if_neg (show ¬(t.set i x).cnt = 0 from h0), if_neg h0]
  refine congrArg some (congrArg (Table.mk (t.cnt-1)) (funext fun k => ?_))
  change shiftDown (Function.update t.region i x) r (t.cnt-1-r) k =
    Function.update (shiftDown t.region r (t.cnt-1-r)) i x k
  rw [shiftDown_apply]
  by_cases hki : k = i
  · subst hki
    rw [if_neg (by omega), Function.update_self, Function.update_self]
  · rw [Function.update_of_ne hki, Function.update_of_ne hki, shiftDown_apply]
    by_cases hk : r ≤ k ∧ k < r+(t.cnt-1-r)
    · rw [if_pos hk, if_pos hk, Function.update_of_ne (by omega)]
    · rw [if_neg hk, if_neg hk]

/-! ## Adding a region -/

/-- The entries that the scan has passed neither are nor touch the new range. -/
theorem scan_passed (region : ℕ → Range) (base size i n m : ℕ) (hm : m ≤ i+n)
    (h : scan region base size i n = .fresh ∨ ∃ r, scan region base size i n = .grown m r) :
    ∀ j, i ≤ j → j < m → addrsAdjacent base size (region j).base (region j).size = 0 ∧
      region j ≠ ⟨base, size⟩ := by
  induction n generalizing i with
  | zero =>
    intro j h1 h2
    omega
  | succ n ih =>
    intro j h1 h2
    rw [scan] at h
    simp only at h
    split_ifs at h with g1 g2 g3
    · simp at h
    · obtain h | ⟨r, h⟩ := h
      · cases h
      · cases h
        omega
    · obtain h | ⟨r, h⟩ := h
      · cases h
      · cases h
        omega
    · by_cases hj : j = i
      · subst hj
        refine ⟨by omega, fun heq => g1 ?_⟩
        rw [heq]
        exact ⟨rfl, rfl⟩
      · exact ih (i+1) (by omega) h j (by omega) h2

theorem not_adjacent (base size : ℕ) (r : Range) (hb : base+size < 4294967296)
    (hr : r.base+r.size < 4294967296) (h : addrsAdjacent base size r.base r.size = 0) :
    r.base ≠ base+size ∧ base ≠ r.base+r.size := by
  unfold addrsAdjacent at h
  rw [word_of_lt _ hb, word_of_lt _ hr] at h
  refine ⟨fun h1 => ?_, fun h2 => ?_⟩
  · rw [if_pos h1] at h
    exact absurd h (by decide)
  · rw [if_pos h2] at h
    split_ifs at h
    exact absurd h (by decide)

section Add

variable (t : Table) (base size : ℕ) (h : Gapped t)
  (hdummy : ¬(t.cnt = 1 ∧ (t.region 0).size = 0))

include h hdummy

theorem Gapped.pos (i : ℕ) (hi : i < t.cnt) : 0 < (t.region i).size := by
  obtain hpos | hone := h.nonempty i hi
  · exact hpos
  · obtain rfl : i = 0 := by omega
    exact Nat.pos_of_ne_zero fun h0 => hdummy ⟨hone, h0⟩

variable (hfresh : Fresh t base size)

include hfresh

/-- The new range lies on one side of every other region. -/
theorem fresh_sides (i : ℕ) (hi : i < t.cnt) (hne : t.region i ≠ ⟨base, size⟩) :
    base+size ≤ (t.region i).base ∨ (t.region i).base+(t.region i).size ≤ base := by
  obtain hap | heq := hfresh.2.2 i hi
  · exact hap.sides _ _ _ hfresh.1 (.inl (h.pos t hdummy i hi))
  · exact absurd heq hne

theorem insert_gapped (h0 : 0 < t.cnt) (hlt : t.cnt < maxLmbRegions)
    (hscan : scan t.region base size 0 t.cnt = .fresh) : Gapped (insertRegion t base size) := by
  have hside : ∀ i < t.cnt, base+size < (t.region i).base ∨
      (t.region i).base+(t.region i).size < base := by
    intro i hi
    obtain ⟨hadj, hne⟩ := scan_passed t.region base size 0 t.cnt t.cnt (by omega) (.inl hscan) i
      (Nat.zero_le i) hi
    have hn := not_adjacent base size (t.region i) hfresh.2.1 (h.fits i hi) hadj
    have hs := fresh_sides t base size h hdummy hfresh i hi hne
    omega
  have horder : base < (t.region 0).base → ∀ k < t.cnt, base < (t.region k).base := by
    intro hb k hk
    by_cases hk0 : k = 0
    · rw [hk0]
      exact hb
    · have := h.gap 0 k (by omega) hk
      omega
  obtain ⟨p, hp, hnew, hlow, hhigh, hprev⟩ := insertRegion_spec t base size h0 horder
  have hbelow : ∀ k < p, (t.region k).base+(t.region k).size < base := by
    intro k hk
    have hprev' := hprev (by omega)
    have hs := hside k (by omega)
    by_cases hkp : k = p-1
    · rw [hkp] at hs ⊢
      omega
    · have := h.gap k (p-1) (by omega) (by omega)
      omega
  have habove : ∀ k, p ≤ k → k < t.cnt → base+size < (t.region k).base := by
    intro k hk1 hk2
    have := (hhigh k hk1 hk2).1
    have hs := hside k hk2
    omega
  have hmoved : ∀ k, p < k → k < t.cnt+1 → (insertRegion t base size).region k = t.region (k-1) := by
    intro k hk1 hk2
    have := (hhigh (k-1) (by omega) (by omega)).2
    rwa [Nat.sub_add_cancel (by omega)] at this
  have hcnt : (insertRegion t base size).cnt = t.cnt+1 := rfl
  have hfit := (insertRegion_covered t base size h0 h.fits hfresh.2.1 horder).1
  refine ⟨by omega, hfit, fun a b hab hb => ?_, fun k hk => ?_, fun hz => by omega⟩
  · rcases Nat.lt_trichotomy a p with ha | ha | ha
    · rw [hlow a ha]
      rcases Nat.lt_trichotomy b p with hbp | hbp | hbp
      · rw [hlow b hbp]
        exact h.gap a b hab (by omega)
      · rw [hbp, hnew]
        exact hbelow a ha
      · rw [hmoved b hbp (by omega)]
        have := hbelow a ha
        have := habove (b-1) (by omega) (by omega)
        omega
    · rw [ha, hnew, hmoved b (by omega) (by omega)]
      exact habove (b-1) (by omega) (by omega)
    · rw [hmoved a ha (by omega), hmoved b (by omega) (by omega)]
      exact h.gap (a-1) (b-1) (by omega) (by omega)
  · left
    have hpos := h.pos t hdummy
    rcases Nat.lt_trichotomy k p with hkp | hkp | hkp
    · rw [hlow k hkp]
      exact hpos k (by omega)
    · rw [hkp, hnew]
      exact hfresh.1
    · rw [hmoved k hkp (by omega)]
      exact hpos (k-1) (by omega)

/-- A region grows at its front, or at its back up to the next one. -/
theorem grown_room (i : ℕ) (r : Range) (hscan : scan t.region base size 0 t.cnt = .grown i r) :
    i < t.cnt ∧ 0 < r.size ∧ r.base+r.size < 4294967296 ∧
      (∀ k < i, (t.region k).base+(t.region k).size < r.base) ∧
      ∀ k, i < k → k < t.cnt → r.base+r.size < (t.region k).base ∨
        k = i+1 ∧ r.base+r.size = (t.region k).base := by
  have hfit := hfresh.2.1
  obtain ⟨-, hi, hsize, hends⟩ := scan_grown t.region base size 0 t.cnt i r hfit
    (fun j _ hj => h.fits j (by omega)) hscan
  rw [Nat.zero_add] at hi
  have hpos := hfresh.1
  have hfi := h.fits i hi
  have hne : ∀ k < t.cnt, k ≠ i → t.region k ≠ ⟨base, size⟩ := by
    intro k hk hki heq
    have hb : (t.region k).base = base := by rw [heq]
    have hs : (t.region k).size = size := by rw [heq]
    rcases Nat.lt_or_gt_of_ne hki with hlt | hlt
    · have := h.gap k i hlt hi
      omega
    · have := h.gap i k hlt hk
      omega
  refine ⟨hi, by omega, by omega, fun k hk => ?_, fun k hk1 hk2 => ?_⟩
  · have hgap := h.gap k i hk hi
    obtain ⟨hadj, -⟩ := scan_passed t.region base size 0 t.cnt i (by omega) (.inr ⟨r, hscan⟩) k
      (Nat.zero_le k) hk
    have hna := not_adjacent base size (t.region k) hfit (h.fits k (by omega)) hadj
    have hs := fresh_sides t base size h hdummy hfresh k (by omega) (hne k (by omega) (by omega))
    omega
  · have hgap := h.gap i k hk1 hk2
    have hs := fresh_sides t base size h hdummy hfresh k hk2 (hne k hk2 (by omega))
    by_cases hnext : k = i+1
    · omega
    · have := h.gap i (i+1) (by omega) (by omega)
      have := h.gap (i+1) k (by omega) hk2
      have hs' := fresh_sides t base size h hdummy hfresh (i+1) (by omega) (hne _ (by omega) (by omega))
      omega

theorem coalesce_gapped (i : ℕ) (r : Range) (t' : Table)
    (hscan : scan t.region base size 0 t.cnt = .grown i r) (hi1 : i+1 < t.cnt)
    (hadj : regionsAdjacent (t.set i r).region i (i+1) ≠ 0)
    (hc : coalesceRegions (t.set i r) i (i+1) = some t') : Gapped t' := by
  obtain ⟨hi, hr, hf, hlow, hhigh⟩ := grown_room t base size h hdummy hfresh i r hscan
  have heq : (t.set i r).region i = r := Function.update_self _ _ _
  have hnext : (t.set i r).region (i+1) = t.region (i+1) := Function.update_of_ne (by omega) _ _
  have hf1 := h.fits (i+1) hi1
  have htouch : r.base+r.size = (t.region (i+1)).base := by
    unfold regionsAdjacent at hadj
    rw [heq, hnext] at hadj
    have hgap := h.gap i (i+1) (by omega) hi1
    have := hhigh (i+1) (by omega) hi1
    by_contra hne
    apply hadj
    unfold addrsAdjacent
    rw [word_of_lt _ hf, word_of_lt _ hf1, if_neg (by omega), if_neg (by omega)]
  have hsame : (t.set i r).set i ⟨r.base, r.size+(t.region (i+1)).size⟩ =
      t.set i ⟨r.base, r.size+(t.region (i+1)).size⟩ := by
    unfold Table.set
    rw [Function.update_idem]
  unfold coalesceRegions at hc
  rw [heq, hnext, word_of_lt _ (by omega), hsame] at hc
  obtain ⟨t1, h1, hcnt, hreg⟩ := removeRegion_some t (i+1) hi1
  rw [removeRegion_set t i (i+1) _ (by omega), h1] at hc
  obtain rfl := Option.some.inj hc
  have hrest := h.remove t t1 (i+1) hi1 h1
  refine hrest.set t1 i _ (by omega) (by simp only; omega) (by simp only; omega) (fun k hk => ?_)
    fun k hk1 hk2 => ?_
  · rw [hreg k (by omega), if_neg (by omega)]
    exact hlow k hk
  · rw [hreg k hk2, if_pos (by omega)]
    have := h.gap (i+1) (k+1) (by omega) (by omega)
    simp only
    omega

end Add

theorem addRegion_gapped (t t' : Table) (base size : ℕ) (r : ℤ) (h : Gapped t)
    (hfresh : Fresh t base size) (ha : addRegion t base size = some (r, t')) : Gapped t' := by
  unfold addRegion at ha
  by_cases hd : t.cnt = 1 ∧ (t.region 0).size = 0
  · rw [if_pos hd] at ha
    obtain rfl := (Prod.mk.inj (Option.some.inj ha)).2
    refine gapped_one _ hd.1 ?_
    exact hfresh.2.1
  rw [if_neg hd] at ha
  cases hs : scan t.region base size 0 t.cnt with
  | present =>
    rw [hs] at ha
    exact (Prod.mk.inj (Option.some.inj ha)).2 ▸ h
  | grown i x =>
    rw [hs] at ha
    simp only at ha
    obtain ⟨hi, hr, hf, hlow, hhigh⟩ := grown_room t base size h hd hfresh i x hs
    by_cases hc : i < t.cnt-1 ∧ regionsAdjacent (t.set i x).region i (i+1) ≠ 0
    · rw [if_pos hc] at ha
      obtain ⟨t1, h1, h2⟩ := Option.map_eq_some_iff.mp ha
      obtain rfl := (Prod.mk.inj h2).2
      exact coalesce_gapped t base size h hd hfresh i x t1 hs (by omega) hc.2 h1
    · rw [if_neg hc] at ha
      obtain rfl := (Prod.mk.inj (Option.some.inj ha)).2
      refine h.set t i x hi hr hf hlow fun k hk1 hk2 => ?_
      obtain hgap | ⟨rfl, htouch⟩ := hhigh k hk1 hk2
      · exact hgap
      · -- a region that is touched would have been merged
        refine absurd ⟨by omega, ?_⟩ hc
        unfold regionsAdjacent addrsAdjacent
        rw [show (t.set i x).region i = x from Function.update_self _ _ _,
          show (t.set i x).region (i+1) = t.region (i+1) from Function.update_of_ne (by omega) _ _,
          word_of_lt _ hf, if_pos htouch.symm]
        decide
  | fresh =>
    rw [hs] at ha
    simp only at ha
    split_ifs at ha with h1 h2
    · obtain ⟨t1, h3, -⟩ := Option.map_eq_some_iff.mp ha
      rw [coalesceRegions, removeRegion, if_pos (show (t.set 0 _).cnt = 0 from h1.1)] at h3
      cases h3
    · exact (Prod.mk.inj (Option.some.inj ha)).2 ▸ h
    · obtain rfl := (Prod.mk.inj (Option.some.inj ha)).2
      by_cases h0 : t.cnt = 0
      · refine gapped_one _ (by simp only [insertRegion, h0]) ?_
        unfold insertRegion
        simp only [h0, insertDown]
        split_ifs
        · rw [Function.update_self]
          exact hfresh.2.1
        · exact h.emptied h0
      · exact insert_gapped t base size h hd hfresh (by omega) (by omega) hs

/-! ## Freeing and allocating -/

theorem freeRegion_gapped (t t' : Table) (base size : ℕ) (r : ℤ) (h : Gapped t)
    (hw : base+size < 4294967296) (hf : freeRegion t base size = some (r, t')) : Gapped t' := by
  unfold freeRegion at hf
  simp only [word_of_lt _ hw] at hf
  cases hh : findHolder t.region base (base+size) 0 t.cnt with
  | none =>
    rw [hh] at hf
    exact (Prod.mk.inj (Option.some.inj hf)).2 ▸ h
  | some i =>
    rw [hh] at hf
    simp only at hf
    obtain ⟨-, hi, hb, he⟩ := findHolder_some _ _ _ _ _ _ hh
    rw [Nat.zero_add] at hi
    have hfi := h.fits i hi
    rw [word_of_lt _ hfi] at he hf
    have hlow : ∀ k < i, (t.region k).base+(t.region k).size < (t.region i).base :=
      fun k hk => h.gap k i hk hi
    have hhigh : ∀ k, i < k → k < t.cnt → (t.region i).base+(t.region i).size < (t.region k).base :=
      fun k hk1 hk2 => h.gap i k hk1 hk2
    split_ifs at hf with h1 h2 h3
    · obtain ⟨t1, h4, h5⟩ := Option.map_eq_some_iff.mp hf
      obtain rfl := (Prod.mk.inj h5).2
      exact h.remove t t1 i hi h4
    · obtain rfl := (Prod.mk.inj (Option.some.inj hf)).2
      rw [minus_of_le _ _ (by omega) (by omega)]
      refine h.set t i _ hi (by simp only; omega) (by simp only; omega) (fun k hk => ?_)
        fun k hk1 hk2 => ?_
      · have := hlow k hk
        simp only
        omega
      · have := hhigh k hk1 hk2
        simp only
        omega
    · obtain rfl := (Prod.mk.inj (Option.some.inj hf)).2
      rw [minus_of_le _ _ (by omega) (by omega)]
      refine h.set t i _ hi (by simp only; omega) (by simp only; omega) hlow fun k hk1 hk2 => ?_
      have := hhigh k hk1 hk2
      simp only
      omega
    · rw [minus_of_le _ _ hb (by omega), minus_of_le _ _ he hfi] at hf
      have hcut : Gapped (t.set i ⟨(t.region i).base, base-(t.region i).base⟩) := by
        refine h.set t i _ hi (by simp only; omega) (by simp only; omega) hlow fun k hk1 hk2 => ?_
        have := hhigh k hk1 hk2
        simp only
        omega
      refine addRegion_gapped _ t' _ _ r hcut ⟨by omega, by omega, fun k hk => .inl ?_⟩ hf
      -- the rest lies behind the cut region and in the gap before the next one
      apply apart_of_sides
      by_cases hki : k = i
      · subst hki
        rw [show (t.set k ⟨(t.region k).base, base-(t.region k).base⟩).region k =
          ⟨(t.region k).base, base-(t.region k).base⟩ from Function.update_self _ _ _]
        right
        simp only
        omega
      · rw [show (t.set i ⟨(t.region i).base, base-(t.region i).base⟩).region k = t.region k from
          Function.update_of_ne hki _ _]
        rcases Nat.lt_or_gt_of_ne hki with hlt | hlt
        · have := hlow k hlt
          omega
        · have := hhigh k hlt hk
          omega

theorem call_gapped (l l' : Lmb) (c : Call) (h : Gapped l.reserved) (hok : Orderly l c)
    (hc : call l c = some l') : Gapped l'.reserved := by
  cases c with
  | add base size =>
    obtain ⟨x, h1, rfl⟩ := Option.map_eq_some_iff.mp hc
    obtain ⟨y, -, rfl⟩ := Option.map_eq_some_iff.mp h1
    exact h
  | reserve base size =>
    obtain ⟨x, h1, rfl⟩ := Option.map_eq_some_iff.mp hc
    obtain ⟨⟨r, t⟩, h2, rfl⟩ := Option.map_eq_some_iff.mp h1
    exact addRegion_gapped _ t base size r h hok h2
  | alloc size align maxAddr =>
    obtain ⟨⟨base, l1⟩, h1, rfl⟩ := Option.map_eq_some_iff.mp hc
    obtain ⟨⟨k, hk, rfl⟩, hs, hup, hm, hl⟩ := hok
    obtain ⟨-, -, rfl⟩ | ⟨b, h2, ⟨r, h3⟩, -⟩ := allocBase_cases l l1 _ _ _ _ h1
    · exact h
    · obtain ⟨-, hplace, -⟩ := searchRegions_found l size k maxAddr hk _ b le_rfl hm h.fits hl h2
      obtain ⟨i, hi, -, hend⟩ := hplace.inside
      have hfit := hm i hi
      rw [hup] at h3
      exact addRegion_gapped _ _ b size r h ⟨hs, by omega, fun j hj => .inl (hplace.apart j hj)⟩ h3
  | free base size =>
    obtain ⟨x, h1, rfl⟩ := Option.map_eq_some_iff.mp hc
    obtain ⟨⟨r, t⟩, h2, rfl⟩ := Option.map_eq_some_iff.mp h1
    exact freeRegion_gapped _ t base size r h hok h2

theorem runs_gapped (l : Lmb) (h : Runs Orderly l) : Gapped l.reserved := by
  induction h with
  | init l => exact gapped_init l.reserved
  | step l l' c _ hok hc ih => exact call_gapped l l' c ih hok hc

/-- A range beside the only region. -/
theorem fresh_single (t : Table) (base size : ℕ) (hs : 0 < size) (hw : base+size < 4294967296)
    (h : t.cnt = 1)
    (hside : base+size ≤ (t.region 0).base ∨ (t.region 0).base+(t.region 0).size ≤ base) :
    Fresh t base size := by
  refine ⟨hs, hw, fun i hi => .inl (apart_of_sides _ _ _ ?_)⟩
  obtain rfl : i = 0 := by omega
  exact hside

end UBoot.LogicalBlocks
