import UBoot.DosTable
import UBoot.TreeWalk

/-!
# When the walks over partition tables end

Neither walk remembers which tables it has seen. Each is a walk over pairs of
sector numbers, so it ends exactly when no pair reached from the first table
leads back to itself, and then after a number of reads that is the same for
every disk.
-/

set_option autoImplicit false

namespace UBoot.DosTable

open TreeWalk

/-- The calls `print_partition_extended` makes. -/
def printNext (d : BlockDev) (s : Place) : List Place :=
  match d.blockRead s.sector with
  | none => []
  | some b =>
    if testBlockType b ≠ .mbr then []
    else ((entries b).filter (isExtended ·.sysInd)).map s.follow

/-- The call `get_partition_info_extended` makes. -/
def lookNext (d : BlockDev) (s : Place) : List Place :=
  match d.blockRead s.sector with
  | none => []
  | some b =>
    if !signed b then []
    else (((entries b).find? (isExtended ·.sysInd)).map s.follow).toList

def placeEquiv : Place ≃ Fin (2^32) × Fin (2^32) where
  toFun s := (s.sector.toFin, s.relative.toFin)
  invFun p := ⟨⟨⟨p.1⟩⟩, ⟨⟨p.2⟩⟩⟩
  left_inv _ := rfl
  right_inv _ := rfl

instance : Finite Place := Finite.of_equiv _ placeEquiv.symm

/-! ## Listing -/

/-- The walk behind the entries of one table. -/
theorem printBelow_isSome (walk : Place → Option Listing) (s : Place) (ps : List Entry) :
    (printBelow walk s ps).isSome ↔
      ∀ t ∈ (ps.filter (isExtended ·.sysInd)).map s.follow, (walk t).isSome := by
  induction ps with
  | nil => simp [printBelow]
  | cons p ps ih =>
    rw [printBelow]
    by_cases hp : isExtended p.sysInd
    · simp only [if_pos hp, List.filter_cons, List.map_cons, List.forall_mem_cons, ← ih]
      cases walk (s.follow p) <;> cases printBelow walk s ps <;> simp
    · simp only [if_neg hp, List.filter_cons, ih]

theorem print_isSome (d : BlockDev) (depth : ℕ) (s : Place) (n : ℤ) (sig : UInt32) :
    (printPartitionExtended d depth s n sig).isSome ↔ Shallow (printNext d) depth s := by
  induction depth generalizing s n sig with
  | zero => simp [printPartitionExtended, Shallow]
  | succ depth ih =>
    rw [printPartitionExtended, Shallow, printNext]
    cases d.blockRead s.sector with
    | none => simp
    | some b =>
      by_cases hb : testBlockType b ≠ .mbr
      · simp [hb]
      · simp only [if_neg hb, Option.isSome_map, printBelow_isSome, ih]

theorem printBelow_reads (walk : Place → Option Listing) (s : Place) (m : ℕ)
    (hwalk : ∀ t r, walk t = some r → r.reads ≤ m) (ps : List Entry) (r : Listing)
    (h : printBelow walk s ps = some r) : r.reads ≤ ps.length*m := by
  induction ps generalizing r with
  | nil =>
    rw [printBelow, Option.some.injEq] at h
    simp [← h]
  | cons p ps ih =>
    rw [printBelow] at h
    rw [List.length_cons, Nat.succ_mul]
    split at h
    · split at h
      · next l r' hl hr' =>
        obtain rfl := Option.some.inj h
        have hl' := hwalk _ _ hl
        have hr'' := ih r' hr'
        show l.reads+r'.reads ≤ _
        omega
      · exact absurd h (by simp)
    · exact le_trans (ih r h) (by omega)

theorem print_reads (d : BlockDev) (depth : ℕ) (s : Place) (n : ℤ) (sig : UInt32) (r : Listing)
    (h : printPartitionExtended d depth s n sig = some r) : r.reads ≤ nodes 4 depth := by
  induction depth generalizing s n sig r with
  | zero => simp [printPartitionExtended] at h
  | succ depth ih =>
    rw [printPartitionExtended] at h
    rw [nodes]
    split at h
    · obtain rfl := Option.some.inj h
      exact Nat.le_add_right _ _
    · next b hb =>
      split at h
      · obtain rfl := Option.some.inj h
        exact Nat.le_add_right _ _
      · obtain ⟨below, hbelow, rfl⟩ := Option.map_eq_some_iff.1 h
        have hreads := printBelow_reads _ s (nodes 4 depth)
          (fun t r ht => ih t _ _ r ht) (entries b) below hbelow
        exact Nat.add_le_add_left hreads 1

/-! ## Lookup -/

theorem findTable_none (d : BlockDev) (sector sig : UInt32) (which : ℤ) (ps : List Entry) (n : ℤ)
    (h : which < n) : findTable d sector sig which ps n = none := by
  induction ps generalizing n with
  | nil => rfl
  | cons p ps ih =>
    rw [findTable, if_neg fun hp => absurd hp.2.2.1 h.ne']
    refine ih _ (h.trans_le ?_)
    rw [nextNum]
    split <;> omega

theorem numAfter_ge (sector : UInt32) (ps : List Entry) (n : ℤ) : n ≤ numAfter sector ps n := by
  induction ps generalizing n with
  | nil => exact le_refl n
  | cons p ps ih =>
    refine le_trans ?_ (ih _)
    rw [nextNum]
    split <;> omega

/-- A call reads one table, and is done with it or leaves the rest to one other call. -/
theorem look_cases (d : BlockDev) (which : ℤ) (s : Place) (n : ℤ) (sig : UInt32) :
    (∃ r : Lookup, r.reads = 1 ∧ (which < n → lookNext d s = []) ∧
      ∀ depth, getPartitionInfoExtended d which (depth+1) s n sig = some r) ∨
    ∃ t n' sig', n ≤ n' ∧ lookNext d s = [t] ∧
      ∀ depth, getPartitionInfoExtended d which (depth+1) s n sig =
        (getPartitionInfoExtended d which depth t n' sig').map
          fun r => { r with reads := r.reads+1 } := by
  simp only [getPartitionInfoExtended, lookNext]
  cases d.blockRead s.sector with
  | none => exact .inl ⟨_, rfl, fun _ => rfl, fun _ => rfl⟩
  | some b =>
    by_cases hb : (!signed b) = true
    · exact .inl ⟨_, rfl, fun _ => if_pos hb, fun _ => if_pos hb⟩
    · simp only [if_neg hb]
      split
      · next info hfind =>
        refine .inl ⟨_, rfl, fun hwhich => ?_, fun _ => rfl⟩
        rw [findTable_none _ _ _ _ _ _ hwhich] at hfind
        exact absurd hfind (by simp)
      · cases (entries b).find? (isExtended ·.sysInd) with
        | none => exact .inl ⟨_, rfl, fun _ => rfl, fun _ => rfl⟩
        | some p => exact .inr ⟨_, _, _, numAfter_ge _ _ _, rfl, fun _ => rfl⟩

theorem look_isSome (d : BlockDev) (which : ℤ) (depth : ℕ) (s : Place) (n : ℤ) (sig : UInt32)
    (h : Shallow (lookNext d) depth s) :
    (getPartitionInfoExtended d which depth s n sig).isSome := by
  induction depth generalizing s n sig with
  | zero => exact absurd h id
  | succ depth ih =>
    rcases look_cases d which s n sig with ⟨r, -, -, hlook⟩ | ⟨t, n', sig', -, hnext, hlook⟩
    · rw [hlook]
      rfl
    · rw [hlook, Option.isSome_map]
      exact ih t n' sig' (h t (by rw [hnext]; exact List.mem_singleton_self t))

/-- A number before the first one is looked for along the whole chain. -/
theorem shallow_of_look (d : BlockDev) (which : ℤ) (depth : ℕ) (s : Place) (n : ℤ) (sig : UInt32)
    (hwhich : which < n) (h : (getPartitionInfoExtended d which depth s n sig).isSome) :
    Shallow (lookNext d) depth s := by
  induction depth generalizing s n sig with
  | zero => simp [getPartitionInfoExtended] at h
  | succ depth ih =>
    rw [Shallow]
    rcases look_cases d which s n sig with ⟨r, -, hnext, -⟩ | ⟨t, n', sig', hn, hnext, hlook⟩
    · rw [hnext hwhich]
      exact fun t ht => absurd ht List.not_mem_nil
    · rw [hlook, Option.isSome_map] at h
      rw [hnext]
      intro u hu
      obtain rfl := List.mem_singleton.1 hu
      exact ih u n' sig' (hwhich.trans_le hn) h

theorem look_reads (d : BlockDev) (which : ℤ) (depth : ℕ) (s : Place) (n : ℤ) (sig : UInt32)
    (r : Lookup) (h : getPartitionInfoExtended d which depth s n sig = some r) :
    r.reads ≤ depth := by
  induction depth generalizing s n sig r with
  | zero => simp [getPartitionInfoExtended] at h
  | succ depth ih =>
    rcases look_cases d which s n sig with ⟨r', hreads, -, hlook⟩ | ⟨t, n', sig', -, -, hlook⟩
    · rw [hlook, Option.some.injEq] at h
      rw [← h, hreads]
      exact Nat.le_add_left 1 depth
    · rw [hlook] at h
      obtain ⟨below, hbelow, rfl⟩ := Option.map_eq_some_iff.1 h
      exact Nat.succ_le_succ (ih t n' sig' below hbelow)

/-! ## Both walks -/

/-- The pairs of sector numbers there are. -/
noncomputable def places : ℕ := Nat.card Place

/-- Both walks end after a number of reads that does not depend on the disk. -/
structure Ends (d : BlockDev) : Prop where
  lookup : ∀ part, ∃ depth r, getPartitionInfoDos d depth part = some r ∧ r.reads ≤ places
  listing : ∃ depth r, printPartDos d depth = some r ∧ r.reads ≤ nodes 4 places

theorem lookup_ends_iff (d : BlockDev) :
    (∀ part, ∃ depth r, getPartitionInfoDos d depth part = some r ∧ r.reads ≤ places) ↔
      ¬Returns (lookNext d) ⟨0, 0⟩ := by
  constructor
  · intro h
    obtain ⟨depth, r, hr, -⟩ := h 0
    exact exists_shallow_iff.1
      ⟨depth, shallow_of_look d 0 depth _ 1 0 Int.zero_lt_one (Option.isSome_of_eq_some hr)⟩
  · intro h part
    have hshallow := shallow_of_not_returns h
    obtain ⟨r, hr⟩ := Option.isSome_iff_exists.1
      (look_isSome d part _ _ 1 0 hshallow)
    exact ⟨places, r, hr, look_reads d part _ _ _ _ r hr⟩

theorem listing_ends_iff (d : BlockDev) :
    (∃ depth r, printPartDos d depth = some r ∧ r.reads ≤ nodes 4 places) ↔
      ¬Returns (printNext d) ⟨0, 0⟩ := by
  constructor
  · rintro ⟨depth, r, hr, -⟩
    exact exists_shallow_iff.1
      ⟨depth, (print_isSome d depth _ 1 0).1 (Option.isSome_of_eq_some hr)⟩
  · intro h
    obtain ⟨r, hr⟩ := Option.isSome_iff_exists.1
      ((print_isSome d _ _ 1 0).2 (shallow_of_not_returns h))
    exact ⟨places, r, hr, print_reads d _ _ _ _ r hr⟩

/-- The walks end on the disks whose tables lead to no table on the way there. -/
theorem walks_end_iff (d : BlockDev) :
    Ends d ↔ ¬Returns (lookNext d) ⟨0, 0⟩ ∧ ¬Returns (printNext d) ⟨0, 0⟩ := by
  rw [← lookup_ends_iff, ← listing_ends_iff]
  exact ⟨fun h => ⟨h.lookup, h.listing⟩, fun h => ⟨h.1, h.2⟩⟩

/-- One sector, whose first entry is an extended partition that starts at it. -/
def selfLinked : BlockDev where
  ifType := .ide
  dev := 0
  blockRead _ := some fun a =>
    if a = 0x1c2 then 0x5 else if a = 0x1fe then 0x55 else if a = 0x1ff then 0xaa else 0

theorem self_linked_walked : ¬Ends selfLinked := by
  intro h
  have hnext : (⟨0, 0⟩ : Place) ∈ lookNext selfLinked ⟨0, 0⟩ := by decide
  refine (lookup_ends_iff selfLinked).1 h.lookup ⟨⟨0, 0⟩, .refl, ?_⟩
  exact .single hnext

end UBoot.DosTable
