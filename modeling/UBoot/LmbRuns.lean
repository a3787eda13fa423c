import UBoot.LmbSets

/-!
# Runs of reservations, allocations and frees

A run starts with an initialised reserved table and any memory table. Next to
it goes the set that the successful calls ask for. The table covers this set
in every run whose calls find the table fit for them; a table that was emptied
is not fit.
-/

set_option autoImplicit false

namespace UBoot.LogicalBlocks

inductive Op where
  | reserve (base size : ℕ)
  | alloc (size align maxAddr : ℕ)
  | free (base size : ℕ)

/-- What a call asks for with its result. -/
inductive Effect where
  | nothing
  | plus (r : Range)
  | less (r : Range)
  deriving DecidableEq, Repr

def Effect.apply : Effect → Set ℕ → Set ℕ
  | .nothing, s => s
  | .plus r, s => s ∪ r.addresses
  | .less r, s => s \ r.addresses

def perform (l : Lmb) : Op → Option (Effect × Lmb)
  | .reserve base size => (reserve l base size).map fun (r, l') =>
    (if r < 0 then .nothing else .plus ⟨base, size⟩, l')
  | .alloc size align maxAddr => (allocBase l size align maxAddr).map fun (base, l') =>
    (if base = 0 then .nothing else .plus ⟨base, alignUp size align⟩, l')
  | .free base size => (free l base size).map fun (r, l') =>
    (if r < 0 then .nothing else .less ⟨base, size⟩, l')

/-- The range that an allocation takes, if there is one. -/
def chosen (l : Lmb) (size align maxAddr base : ℕ) : Prop :=
  searchRegions l size align maxAddr l.memory.cnt = some (some base)

/-- The range of the call ends in the address space. -/
def NoWrap (l : Lmb) : Op → Prop
  | .reserve base size => base+size < 4294967296
  | .alloc size align maxAddr =>
    ∀ base, chosen l size align maxAddr base → base+alignUp size align < 4294967296
  | .free base size => base+size < 4294967296

/-- The reserved table is fit for the call. -/
def Sound (l : Lmb) : Op → Prop
  | .reserve base size => AddOk l.reserved base size
  | .alloc size align maxAddr =>
    ∀ base, chosen l size align maxAddr base → AddOk l.reserved base (alignUp size align)
  | .free base size => FreeOk l.reserved base size

/-- The states of the runs whose calls meet a condition, with the set asked for. -/
inductive Reached (ok : Lmb → Op → Prop) : Lmb → Set ℕ → Prop
  | init (memory t : Table) : Reached ok ⟨memory, tableInit t⟩ ∅
  | step (l : Lmb) (s : Set ℕ) (op : Op) (e : Effect) (l' : Lmb) : Reached ok l s → ok l op →
      perform l op = some (e, l') → Reached ok l' (e.apply s)

/-! ## The search ends -/

theorem overlapsRegion_some (region : ℕ → Range) (base size i n j : ℕ)
    (h : overlapsRegion region base size i n = some j) :
    addrsOverlap base size (region j).base (region j).size := by
  induction n generalizing i with
  | zero => cases h
  | succ n ih =>
    rw [overlapsRegion] at h
    split_ifs at h with h1
    · cases h
      exact h1
    · exact ih (i+1) h

theorem alignDown_le (addr size : ℕ) : alignDown addr size ≤ addr := Nat.and_le_left

/-- Below a reserved region that is in the way the search goes on below the place it was at. -/
theorem searchDown_some (t : Table) (lmbbase size align fuel base : ℕ) (h : base < fuel) :
    ∃ r, searchDown t lmbbase size align fuel base = some r ∧ r ≠ some 0 := by
  induction fuel generalizing base with
  | zero => omega
  | succ fuel ih =>
    rw [searchDown]
    by_cases h0 : base = 0 ∨ base < lmbbase
    · rw [if_pos h0]
      exact ⟨none, rfl, by simp⟩
    rw [if_neg h0]
    cases hj : overlapsRegion t.region base size 0 t.cnt with
    | none => exact ⟨some base, rfl, by simp only [ne_eq, Option.some_inj]; omega⟩
    | some j =>
      simp only
      by_cases h1 : (t.region j).base < size
      · rw [if_pos h1]
        exact ⟨none, rfl, by simp⟩
      · rw [if_neg h1]
        have hover := (overlapsRegion_some t.region base size 0 t.cnt j hj).2
        have hmod : word (base+size) ≤ base+size := Nat.mod_le _ _
        have hlt : word (base+size) < 4294967296 := Nat.mod_lt _ (by decide)
        have hle := alignDown_le (minus (t.region j).base size) align
        rw [minus_of_le _ _ (by omega) (by omega)] at hle ⊢
        exact ih _ (by omega)

theorem searchRegions_some (l : Lmb) (size align maxAddr n : ℕ) :
    ∃ r, searchRegions l size align maxAddr n = some r ∧ r ≠ some 0 := by
  induction n with
  | zero => exact ⟨none, rfl, by simp⟩
  | succ n ih =>
    rw [searchRegions]
    cases ht : topBase (l.memory.region n) size align maxAddr with
    | none => exact ih
    | some base =>
      obtain ⟨r, hr, hne⟩ := searchDown_some l.reserved (l.memory.region n).base size align (base+1)
        base (by omega)
      simp only [hr]
      cases r with
      | none => exact ih
      | some b => exact ⟨some b, rfl, hne⟩

/-! ## One call -/

/-- The table covers a set, and none of its regions wraps. -/
structure Covers (l : Lmb) (s : Set ℕ) : Prop where
  fits : Fits l.reserved
  covered : covered l.reserved = s

section Call

variable (l : Lmb) (s : Set ℕ) (hc : Covers l s)

include hc in
theorem reserve_covers (base size : ℕ) (hw : NoWrap l (.reserve base size))
    (hs : Sound l (.reserve base size)) :
    ∃ e l', perform l (.reserve base size) = some (e, l') ∧ Covers l' (e.apply s) := by
  obtain ⟨r, t', ht, hf, hadd, hfail⟩ := addRegion_covered l.reserved base size hc.fits hw hs
  refine ⟨_, _, by rw [perform, reserve, ht]; rfl, hf, ?_⟩
  by_cases hr : r < 0
  · rw [if_pos hr, (hfail hr).1]
    exact hc.covered
  · rw [if_neg hr, hadd (by omega), hc.covered]
    rfl

include hc in
theorem alloc_covers (size align maxAddr : ℕ) (hw : NoWrap l (.alloc size align maxAddr))
    (hs : Sound l (.alloc size align maxAddr)) :
    ∃ e l', perform l (.alloc size align maxAddr) = some (e, l') ∧ Covers l' (e.apply s) := by
  obtain ⟨b, hb, hne⟩ := searchRegions_some l size align maxAddr l.memory.cnt
  cases b with
  | none => exact ⟨.nothing, l, by simp only [perform, allocBase, hb]; rfl, hc⟩
  | some base =>
    have hbase : base ≠ 0 := by
      intro h0
      rw [h0] at hne
      exact hne rfl
    obtain ⟨r, t', ht, hf, hadd, hfail⟩ := addRegion_covered l.reserved base (alignUp size align)
      hc.fits (hw base hb) (hs base hb)
    refine ⟨_, _, by simp only [perform, allocBase, hb, ht]; rfl, hf, ?_⟩
    by_cases hr : r < 0
    · rw [if_pos hr, if_pos rfl, (hfail hr).1]
      exact hc.covered
    · rw [if_neg hr, if_neg hbase, hadd (by omega), hc.covered]
      rfl

include hc in
theorem free_covers (base size : ℕ) (hw : NoWrap l (.free base size))
    (hs : Sound l (.free base size)) :
    ∃ e l', perform l (.free base size) = some (e, l') ∧ Covers l' (e.apply s) := by
  obtain ⟨r, t', ht, hf, hless, hfail⟩ := freeRegion_covered l.reserved base size hc.fits hw hs
  refine ⟨_, _, by rw [perform, free, ht]; rfl, hf, ?_⟩
  by_cases hr : r < 0
  · rw [if_pos hr, hfail hr]
    exact hc.covered
  · rw [if_neg hr, hless (by omega), hc.covered]
    rfl

include hc in
theorem perform_covers (op : Op) (hw : NoWrap l op) (hs : Sound l op) :
    ∃ e l', perform l op = some (e, l') ∧ Covers l' (e.apply s) := by
  cases op with
  | reserve base size => exact reserve_covers l s hc base size hw hs
  | alloc size align maxAddr => exact alloc_covers l s hc size align maxAddr hw hs
  | free base size => exact free_covers l s hc base size hw hs

end Call

/-! ## Whole runs -/

theorem init_covers (memory t : Table) : Covers ⟨memory, tableInit t⟩ ∅ := by
  constructor
  · intro i hi
    have h0 : i = 0 := Nat.lt_one_iff.mp hi
    subst h0
    simp [tableInit]
  · ext x
    simp only [covered, tableInit, Set.mem_ofPred_eq, Set.mem_empty_iff_false, iff_false]
    rintro ⟨i, hi, hx⟩
    have h0 : i = 0 := by omega
    subst h0
    simp [Range.addresses] at hx

/-- In every run of calls that find the table fit for them, each call returns and the table
covers what was asked for. -/
theorem reserved_set_followed (l : Lmb) (s : Set ℕ)
    (h : Reached (fun l op => NoWrap l op ∧ Sound l op) l s) : covered l.reserved = s ∧
      ∀ op, NoWrap l op → Sound l op → ∃ e l', perform l op = some (e, l') ∧
        covered l'.reserved = e.apply s := by
  have hc : Covers l s := by
    induction h with
    | init memory t => exact init_covers memory t
    | step l s op e l' _ hok hp ih =>
      obtain ⟨e', l'', hp', hc'⟩ := perform_covers l s ih op hok.1 hok.2
      rw [hp] at hp'
      cases hp'
      exact hc'
  refine ⟨hc.covered, fun op hw hs => ?_⟩
  obtain ⟨e, l', hp, hc'⟩ := perform_covers l s hc op hw hs
  exact ⟨e, l', hp, hc'.covered⟩

/-- A table with one region takes any other one. -/
theorem addOk_single (t : Table) (base size : ℕ) (h : t.cnt = 1) : AddOk t base size := by
  refine ⟨by omega, by omega, fun _ _ hlt k hk => ?_⟩
  rw [show k = 0 by omega]
  exact hlt

def blankTable : Table := ⟨0, fun _ => ⟨0, 0⟩⟩

def blank : Lmb := ⟨blankTable, tableInit blankTable⟩

/-- The middle of a reserved range is freed. -/
theorem reserved_set_followed_split : ∃ l, Reached (fun l op => NoWrap l op ∧ Sound l op) l
      ((∅ ∪ Set.Ico 0x1000 0x2000) \ Set.Ico 0x1400 0x1800) ∧
    covered l.reserved = (∅ ∪ Set.Ico 0x1000 0x2000) \ Set.Ico 0x1400 0x1800 := by
  have h1 : Reached (fun l op => NoWrap l op ∧ Sound l op)
      ⟨blankTable, (tableInit blankTable).set 0 ⟨0x1000, 0x1000⟩⟩ (∅ ∪ Set.Ico 0x1000 0x2000) :=
    .step blank ∅ (.reserve 0x1000 0x1000) (.plus ⟨0x1000, 0x1000⟩) _ (.init _ _)
      ⟨show 0x1000+0x1000 < 4294967296 by decide, addOk_single _ _ _ rfl⟩ rfl
  have hfree : FreeOk ((tableInit blankTable).set 0 ⟨0x1000, 0x1000⟩) 0x1400 0x400 := by
    constructor
    · intro i hi k hk hne
      have hi0 : i = 0 := by
        cases hi
        rfl
      have hk0 : k = 0 := Nat.lt_one_iff.mp hk
      exact absurd (hk0.trans hi0.symm) hne
    · intro i _ front back _ _ _ _
      exact ⟨addOk_single _ _ _ rfl, .inl (by decide)⟩
  have h2 := Reached.step _ _ (.free 0x1400 0x400) (.less ⟨0x1400, 0x400⟩) _ h1
    ⟨show 0x1400+0x400 < 4294967296 by decide, hfree⟩ rfl
  exact ⟨_, h2, (reserved_set_followed _ _ h2).1⟩

/-- The last region is freed and another one reserved: the table holds the freed one. -/
theorem freed_region_kept : ¬∀ l s, Reached NoWrap l s → covered l.reserved = s := by
  intro hall
  have h1 := Reached.step blank ∅ (.reserve 0x1000 0x1000) (.plus ⟨0x1000, 0x1000⟩) _
    (Reached.init _ _ : Reached NoWrap blank ∅) (show 0x1000+0x1000 < 4294967296 by decide) rfl
  have h2 := Reached.step _ _ (.free 0x1000 0x1000) (.less ⟨0x1000, 0x1000⟩) _ h1
    (show 0x1000+0x1000 < 4294967296 by decide) rfl
  have h3 := Reached.step _ _ (.reserve 0x5000 0x1000) (.plus ⟨0x5000, 0x1000⟩) _ h2
    (show 0x5000+0x1000 < 4294967296 by decide) rfl
  have hset := hall _ _ h3
  have hin : 0x5000 ∈ (Range.mk 0x5000 0x1000).addresses := ⟨le_rfl, by decide⟩
  obtain ⟨i, hi, hx⟩ := hset.symm.subset (.inr hin)
  have h0 : i = 0 := Nat.lt_one_iff.mp hi
  subst h0
  exact absurd hx.2 (by decide)

end UBoot.LogicalBlocks
