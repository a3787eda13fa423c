import UBoot.HashTableSize
import UBoot.OpenAddressing

/-!
# Where a search in the environment table ends

A slot of the table is read as a cell of an open-addressing scheme whose
probe order is the double-hashing walk. For a table size chosen by
`hcreate_r` the walk meets every slot, so the probe loop ends within `size`
steps in one of three ways: at the key, at a slot never used, or back at the
home slot after a full cycle.
-/

set_option autoImplicit false

namespace UBoot.HashTable
open UBoot.ProbeCycle UBoot.OpenAddressing

theorem home_pos (size : ℕ) (key : CStr) : 0 < homeIndex size key := by
  simp only [homeIndex]
  split_ifs <;> omega

theorem home_lt (size : ℕ) (hs : SizeOk size) (key : CStr) : homeIndex size key < size := by
  have h5 := hs.five
  have hm := Nat.mod_lt (hashKey key) (show 0 < size by omega)
  simp only [homeIndex]
  split_ifs <;> omega

theorem stride_bounds (size : ℕ) (hs : SizeOk size) (hval : ℕ) :
    0 < stride size hval ∧ stride size hval < size := by
  have h5 := hs.five
  have hb := hs.bound
  have hw : wrap32 (size+4294967294) = size-2 := by
    unfold wrap32
    omega
  have hm := Nat.mod_lt hval (show 0 < size-2 by omega)
  simp only [stride, hw]
  omega

theorem stride_coprime (size : ℕ) (hs : SizeOk size) (hval : ℕ) :
    Nat.Coprime (stride size hval) size := by
  obtain ⟨h1, h2⟩ := stride_bounds size hs hval
  exact (Nat.coprime_of_lt_prime (by omega) h2 hs.prime).symm

/-- The slots on the way of a key, the home slot first. -/
def path (size : ℕ) (key : CStr) (j : ℕ) : ℕ :=
  walk size (stride size (homeIndex size key)) (homeIndex size key) j

theorem path_pos (size : ℕ) (hs : SizeOk size) (key : CStr) (j : ℕ) : 0 < path size key j :=
  walk_pos _ _ _ (stride_bounds size hs _).2 (home_pos size key) j

theorem path_le (size : ℕ) (hs : SizeOk size) (key : CStr) (j : ℕ) : path size key j ≤ size :=
  walk_le _ _ _ (home_lt size hs key).le j

theorem path_surjective (size : ℕ) (hs : SizeOk size) (key : CStr) (i : ℕ) (hi : 0 < i)
    (hin : i ≤ size) : ∃ j < size, path size key j = i :=
  walk_surjective _ _ _ (stride_bounds size hs _).2 (stride_coprime size hs _)
    (home_pos size key) (home_lt size hs key).le i hi hin

def order (size : ℕ) (hs : SizeOk size) : Order CStr size :=
  ⟨path size, path_pos size hs, path_le size hs, path_surjective size hs⟩

def cell (s : Slot) : Cell CStr CStr :=
  if s.used = 0 then .free
  else if s.used = -1 then .tomb
  else match s.entry.key, s.entry.data with
    | some k, some d => .live k d
    | _, _ => .tomb

def cells (t : HTab) : Cells CStr CStr := fun i => cell (t.table i)

/-- A slot in use holds both strings, and in `used` the home of its key. -/
def SlotOk (size : ℕ) (s : Slot) : Prop :=
  s.used = 0 ∨ s.used = -1 ∨
    ∃ k d, s.entry.key = some k ∧ s.entry.data = some d ∧ s.used = homeIndex size k

structure Wf (t : HTab) : Prop where
  size : SizeOk t.size
  slots : ∀ i, SlotOk t.size (t.table i)
  sound : Sound (order t.size size) (cells t)

theorem cell_free_iff (size : ℕ) (s : Slot) (h : SlotOk size s) : cell s = .free ↔ s.used = 0 := by
  rcases h with h | h | ⟨k, d, hk, hd, hu⟩
  · simp [cell, h]
  · simp [cell, h]
  · have hp := home_pos size k
    have h0 : s.used ≠ 0 := by omega
    have h1 : s.used ≠ -1 := by omega
    simp [cell, h0, h1, hk, hd]

theorem cell_live_iff (size : ℕ) (s : Slot) (h : SlotOk size s) (key d : CStr) :
    cell s = .live key d ↔
      s.used = homeIndex size key ∧ s.entry.key = some key ∧ s.entry.data = some d := by
  rcases h with h | h | ⟨k, v, hk, hv, hu⟩
  · have hp := home_pos size key
    simp only [cell, h, if_true]
    constructor
    · intro hc
      cases hc
    · rintro ⟨hu, -⟩
      omega
  · have hp := home_pos size key
    simp only [cell, h, if_true]
    constructor
    · intro hc
      cases hc
    · rintro ⟨hu, -⟩
      omega
  · have hp := home_pos size k
    have h0 : s.used ≠ 0 := by omega
    have h1 : s.used ≠ -1 := by omega
    simp only [cell, h0, h1, if_false, hk, hv, Cell.live.injEq, Option.some.injEq]
    constructor
    · rintro ⟨rfl, rfl⟩
      exact ⟨hu, rfl, rfl⟩
    · rintro ⟨-, rfl, rfl⟩
      exact ⟨rfl, rfl⟩

/-- The test of `_compare_and_overwrite_entry`. -/
def Matches (t : HTab) (key : CStr) (idx : ℕ) : Prop :=
  (t.table idx).used % 4294967296 = homeIndex t.size key ∧ (t.table idx).entry.key = some key

theorem matches_iff (t : HTab) (ht : Wf t) (key : CStr) (idx : ℕ) :
    Matches t key idx ↔ ∃ d, cells t idx = .live key d := by
  have hs := ht.slots idx
  have hb := ht.size.bound
  have hl := home_lt t.size ht.size key
  have hp := home_pos t.size key
  simp only [cells, cell_live_iff t.size _ hs]
  constructor
  · rintro ⟨hu, hk⟩
    rcases hs with h | h | ⟨k, d, hk', hd, hu'⟩
    · rw [h] at hu
      omega
    · rw [h] at hu
      omega
    · rw [hk'] at hk
      obtain rfl := Option.some_inj.mp hk
      exact ⟨d, hu', hk', hd⟩
  · rintro ⟨d, hu, hk, hd⟩
    refine ⟨?_, hk⟩
    rw [hu]
    omega

theorem compare_none (h : Hooks) (key : CStr) (data : Option CStr) (action : Action) (t : HTab)
    (flag idx : ℕ) (hm : ¬ Matches t key idx) :
    compareAndOverwriteEntry h key data action t flag (homeIndex t.size key) idx = none := by
  unfold compareAndOverwriteEntry
  exact if_neg hm

theorem compare_some (h : Hooks) (key : CStr) (data : Option CStr) (action : Action) (t : HTab)
    (flag idx : ℕ) (hm : Matches t key idx) :
    ∃ r, compareAndOverwriteEntry h key data action t flag (homeIndex t.size key) idx = some r := by
  unfold Matches at hm
  unfold compareAndOverwriteEntry
  rw [if_pos hm]
  split_ifs
  · exact ⟨_, rfl⟩
  · cases runCallback h t idx key data .overwrite flag with
    | none => exact ⟨_, rfl⟩
    | some t' =>
      simp only
      split_ifs <;> exact ⟨_, rfl⟩
  · exact ⟨_, rfl⟩

/-- The search has passed `m` slots without finding the key or an unused one. -/
def Passed (t : HTab) (key : CStr) (m : ℕ) : Prop :=
  ∀ l < m, ¬ Matches t key (path t.size key l) ∧ (t.table (path t.size key l)).used ≠ 0

/-- The three ways in which a search that has passed `m` slots ends there. -/
def Outcome (h : Hooks) (key : CStr) (data : Option CStr) (action : Action) (t : HTab) (flag m : ℕ)
    (p : Option Probe) : Prop :=
  Passed t key m ∧
    ((m = t.size ∧ p = some (.stop (homeIndex t.size key))) ∨
     (m < t.size ∧ Matches t key (path t.size key m) ∧
      p = (compareAndOverwriteEntry h key data action t flag (homeIndex t.size key)
        (path t.size key m)).map .done) ∨
     (m < t.size ∧ ¬ Matches t key (path t.size key m) ∧
      (t.table (path t.size key m)).used = 0 ∧ p = some (.stop (path t.size key m))))

theorem passed_succ (t : HTab) (key : CStr) (m : ℕ) (h : Passed t key m)
    (hm : ¬ Matches t key (path t.size key m)) (hu : (t.table (path t.size key m)).used ≠ 0) :
    Passed t key (m+1) := by
  intro l hl
  rcases Nat.lt_succ_iff_lt_or_eq.mp hl with hl | rfl
  · exact h l hl
  · exact ⟨hm, hu⟩

/-- Induction over the loop: `fuel` slots are left when slot `j` was passed. -/
theorem probeLoop_outcome (h : Hooks) (key : CStr) (data : Option CStr) (action : Action) (t : HTab)
    (hs : SizeOk t.size) (flag fuel j : ℕ) (hf : fuel+j = t.size) (hpos : 0 < fuel)
    (hp : Passed t key (j+1)) :
    ∃ m, Outcome h key data action t flag m
      (probeLoop h key data action t flag (homeIndex t.size key)
        (stride t.size (homeIndex t.size key)) fuel (path t.size key j)) := by
  induction fuel generalizing j with
  | zero => omega
  | succ fuel ih =>
    have hnext : back t.size (stride t.size (homeIndex t.size key)) (path t.size key j) =
        path t.size key (j+1) := rfl
    obtain ⟨hs1, hs2⟩ := stride_bounds t.size hs (homeIndex t.size key)
    unfold probeLoop
    simp only [hnext]
    by_cases hlast : j+1 = t.size
    · have hret : path t.size key (j+1) = homeIndex t.size key := by
        rw [path, hlast]
        exact walk_return _ _ _ hs2 (home_pos t.size key) (home_lt t.size hs key).le
      refine ⟨j+1, hp, .inl ⟨hlast, ?_⟩⟩
      rw [if_pos hret, hret]
    · have hne : path t.size key (j+1) ≠ homeIndex t.size key :=
        walk_ne_start _ _ _ hs2 (stride_coprime t.size hs _) (j+1) (by omega) (by omega)
      rw [if_neg hne]
      by_cases hm : Matches t key (path t.size key (j+1))
      · obtain ⟨r, hr⟩ := compare_some h key data action t flag _ hm
        refine ⟨j+1, hp, .inr (.inl ⟨by omega, hm, ?_⟩)⟩
        simp only [hr, Option.map_some]
      · simp only [compare_none h key data action t flag _ hm]
        by_cases hu : (t.table (path t.size key (j+1))).used = 0
        · exact ⟨j+1, hp, .inr (.inr ⟨by omega, hm, hu, by rw [if_pos hu]⟩)⟩
        · rw [if_neg hu]
          exact ih (j+1) (by omega) (by omega) (passed_succ t key (j+1) hp hm hu)

theorem probeFrom_outcome (h : Hooks) (key : CStr) (data : Option CStr) (action : Action) (t : HTab)
    (hs : SizeOk t.size) (flag : ℕ) :
    ∃ m, Outcome h key data action t flag m (probeFrom h key data action t flag) := by
  have h5 := hs.five
  have hhome : path t.size key 0 = homeIndex t.size key := rfl
  have hnone : Passed t key 0 := fun l hl => absurd hl (Nat.not_lt_zero l)
  unfold probeFrom
  simp only
  by_cases hm : Matches t key (homeIndex t.size key)
  · have hu : (t.table (homeIndex t.size key)).used ≠ 0 := by
      intro h0
      have := home_pos t.size key
      have := hm.1
      rw [h0] at this
      omega
    obtain ⟨r, hr⟩ := compare_some h key data action t flag _ hm
    refine ⟨0, hnone, .inr (.inl ⟨by omega, hm, ?_⟩)⟩
    rw [if_neg hu]
    simp only [hhome, hr, Option.map_some]
  · by_cases hu : (t.table (homeIndex t.size key)).used = 0
    · exact ⟨0, hnone, .inr (.inr ⟨by omega, hm, hu, by rw [if_pos hu, hhome]⟩)⟩
    · rw [if_neg hu]
      simp only [compare_none h key data action t flag _ hm]
      exact probeLoop_outcome h key data action t hs flag t.size 0 (by omega) (by omega)
        (passed_succ t key 0 hnone hm hu)

end UBoot.HashTable
