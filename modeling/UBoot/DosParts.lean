import UBoot.DosWalk

/-!
# The numbers both walks give

The tables of a disk form a tree. The listing goes through all of it, without
the tables that look like a FAT boot sector; the lookup keeps to the first
branch everywhere, with these tables, and passes over an entry with an odd boot
flag. What both have in common is the trunk. The numbers grow along every path
but start again on each branch.
-/

set_option autoImplicit false

namespace UBoot.DosTable

open TreeWalk

/-- An entry of the table in a sector, with the number it gets. -/
structure Part where
  partNum : ℤ
  sector : UInt32
  entry : Entry
  deriving DecidableEq, Repr

namespace Part

def start (q : Part) : UInt32 := q.sector+q.entry.start4

def extended (q : Part) : Bool := isExtended q.entry.sysInd

/-- Number, start and size. -/
def key (q : Part) : ℤ × UInt32 × UInt32 := (q.partNum, q.start, q.entry.size4)

def line (disksig : UInt32) (q : Part) : Line := printOnePart q.entry q.sector q.partNum disksig

/-- What the lookup takes. -/
def usable (q : Part) : Bool := !q.extended && plainFlag q.entry

end Part

@[grind]
def tableParts (sector : UInt32) : List Entry → ℤ → List Part
  | [], _ => []
  | p :: ps, partNum =>
    let rest := tableParts sector ps (nextNum sector p partNum)
    if listed sector p then ⟨partNum, sector, p⟩ :: rest else rest

def extendedEntries (b : Block) : List Entry := (entries b).filter (isExtended ·.sysInd)

/-- The parts of all tables below a place. -/
@[grind]
def tree (d : BlockDev) : ℕ → Place → ℤ → List Part
  | 0, _, _ => []
  | depth+1, s, n =>
    match d.blockRead s.sector with
    | none => []
    | some b =>
      if testBlockType b ≠ .mbr then []
      else tableParts s.sector (entries b) n ++ (extendedEntries b).flatMap
        fun p => tree d depth (s.follow p) (numAfter s.sector (entries b) n)

/-- The usable parts on the way of the lookup. -/
@[grind]
def chain (d : BlockDev) : ℕ → Place → ℤ → List Part
  | 0, _, _ => []
  | depth+1, s, n =>
    match d.blockRead s.sector with
    | none => []
    | some b =>
      if !signed b then []
      else (tableParts s.sector (entries b) n).filter Part.usable ++
        match extendedEntries b with
        | [] => []
        | p :: _ => chain d depth (s.follow p) (numAfter s.sector (entries b) n)

/-- The parts of the tables that both walks go through. -/
@[grind]
def trunk (d : BlockDev) : ℕ → Place → ℤ → List Part
  | 0, _, _ => []
  | depth+1, s, n =>
    match d.blockRead s.sector with
    | none => []
    | some b =>
      if testBlockType b ≠ .mbr then []
      else tableParts s.sector (entries b) n ++
        match extendedEntries b with
        | [] => []
        | p :: _ => trunk d depth (s.follow p) (numAfter s.sector (entries b) n)

/-- The parts below second and further extended entries of trunk tables. -/
def side (d : BlockDev) : ℕ → Place → ℤ → List Part
  | 0, _, _ => []
  | depth+1, s, n =>
    match d.blockRead s.sector with
    | none => []
    | some b =>
      if testBlockType b ≠ .mbr then []
      else match extendedEntries b with
        | [] => []
        | p :: ps =>
          side d depth (s.follow p) (numAfter s.sector (entries b) n) ++
            ps.flatMap fun q => tree d depth (s.follow q) (numAfter s.sector (entries b) n)

/-- The usable parts from the first table on that looks like a boot sector. -/
@[grind]
def hidden (d : BlockDev) : ℕ → Place → ℤ → List Part
  | 0, _, _ => []
  | depth+1, s, n =>
    match d.blockRead s.sector with
    | none => []
    | some b =>
      if testBlockType b ≠ .mbr then chain d (depth+1) s n
      else match extendedEntries b with
        | [] => []
        | p :: _ => hidden d depth (s.follow p) (numAfter s.sector (entries b) n)

/-! ## Listing -/

def Printed.line? : Printed → Option Line
  | .part l => some l
  | _ => none

def Listing.lines (r : Listing) : List Line := r.out.filterMap Printed.line?

@[simp] theorem Listing.lines_append (l r : Listing) : (l.append r).lines = l.lines ++ r.lines :=
  List.filterMap_append

theorem printTable_eq (sector sig : UInt32) (ps : List Entry) (n : ℤ) :
    printTable sector sig ps n = (tableParts sector ps n).map (Part.line sig) := by
  induction ps generalizing n with
  | nil => rfl
  | cons p ps ih =>
    rw [printTable, tableParts, ih]
    split <;> rfl

/-- A line without the disk's signature and the marks behind it. -/
def Line.shape (l : Line) : (ℤ × UInt32 × UInt32) × Bool :=
  ((l.partNum, l.lbaStart, l.lbaSize), l.extd)

def Part.shape (q : Part) : (ℤ × UInt32 × UInt32) × Bool := (q.key, q.extended)

theorem table_lines (sector sig : UInt32) (ps : List Entry) (n : ℤ) (reads : ℕ) :
    (Listing.lines ⟨(printTable sector sig ps n).map .part, reads⟩).map Line.shape =
      (tableParts sector ps n).map Part.shape := by
  have hlines : Printed.line? ∘ Printed.part = some := rfl
  rw [Listing.lines, List.filterMap_map, hlines, List.filterMap_some, printTable_eq, List.map_map]
  rfl

theorem printBelow_lines (walk : Place → Option Listing) (parts : Place → List Part) (s : Place)
    (hwalk : ∀ t r, walk t = some r → r.lines.map Line.shape = (parts t).map Part.shape)
    (ps : List Entry) (r : Listing) (h : printBelow walk s ps = some r) :
    r.lines.map Line.shape =
      ((ps.filter (isExtended ·.sysInd)).flatMap fun p => parts (s.follow p)).map Part.shape := by
  induction ps generalizing r with
  | nil =>
    rw [printBelow, Option.some.injEq] at h
    rw [← h]
    rfl
  | cons p ps ih =>
    rw [printBelow] at h
    split at h
    · next hp =>
      split at h
      · next l r' hl hr' =>
        obtain rfl := Option.some.inj h
        rw [Listing.lines_append, List.map_append, hwalk _ _ hl, ih r' hr']
        simp only [List.filter_cons, hp, if_true, List.flatMap_cons, List.map_append]
      · exact absurd h (by simp)
    · next hp =>
      rw [ih r h]
      simp only [List.filter_cons, hp, if_false, Bool.false_eq_true]

/-- What is printed are the parts of the tree. -/
theorem print_lines (d : BlockDev) (depth : ℕ) (s : Place) (n : ℤ) (sig : UInt32) (r : Listing)
    (h : printPartitionExtended d depth s n sig = some r) :
    r.lines.map Line.shape = (tree d depth s n).map Part.shape := by
  induction depth generalizing s n sig r with
  | zero => simp [printPartitionExtended] at h
  | succ depth ih =>
    rw [printPartitionExtended] at h
    rw [tree]
    cases hread : d.blockRead s.sector with
    | none =>
      rw [hread] at h
      obtain rfl := Option.some.inj h
      rfl
    | some b =>
      simp only [hread] at h
      dsimp only
      split at h
      · next hb =>
        obtain rfl := Option.some.inj h
        rw [if_pos hb]
        rfl
      · next hb =>
        obtain ⟨below, hbelow, rfl⟩ := Option.map_eq_some_iff.1 h
        rw [if_neg hb, Listing.lines_append, List.map_append, List.map_append, table_lines]
        exact congrArg _ (printBelow_lines _
          (fun t => tree d depth t (numAfter s.sector (entries b) n)) s
          (fun t r ht => ih t _ _ r ht) (entries b) below hbelow)

/-! ## Lookup -/

theorem findTable_eq (d : BlockDev) (sector sig : UInt32) (which : ℤ) (ps : List Entry) (n : ℤ) :
    findTable d sector sig which ps n =
      (((tableParts sector ps n).filter Part.usable).find? (·.partNum == which)).map
        fun q => fillInfo d q.sector sig q.entry q.partNum := by
  induction ps generalizing n with
  | nil => rfl
  | cons p ps ih =>
    rw [findTable, tableParts]
    by_cases hlisted : listed sector p
    · rw [if_pos hlisted]
      by_cases husable : Part.usable ⟨n, sector, p⟩
      · have hp : plainFlag p = true ∧ p.sysInd ≠ 0 ∧ !isExtended p.sysInd := by
          simp only [listed, Bool.and_eq_true, bne_iff_ne] at hlisted
          simp only [Part.usable, Part.extended, Bool.and_eq_true] at husable
          exact ⟨husable.2, hlisted.1, husable.1⟩
        rw [List.filter_cons_of_pos husable, List.find?_cons]
        by_cases hn : n = which
        · simp [hn, hp]
        · rw [if_neg fun h => hn h.2.2.1, ih, beq_false_of_ne hn]
      · have hp : ¬(plainFlag p = true ∧ p.sysInd ≠ 0 ∧ n = which ∧ !isExtended p.sysInd) := by
          intro h
          exact husable (by simp [Part.usable, Part.extended, h.1, h.2.2.2])
        rw [if_neg hp, List.filter_cons_of_neg husable, ih]
    · have hp : ¬(plainFlag p = true ∧ p.sysInd ≠ 0 ∧ n = which ∧ !isExtended p.sysInd) := by
        intro h
        exact hlisted (by simp [listed, h.2.1, h.2.2.2])
      rw [if_neg hp, if_neg hlisted, ih]

theorem find?_extended (b : Block) :
    (entries b).find? (isExtended ·.sysInd) = (extendedEntries b).head? := by
  rw [extendedEntries, List.head?_filter]

/-- What is looked for is found along the chain. -/
theorem look_info (d : BlockDev) (which : ℤ) (depth : ℕ) (s : Place) (n : ℤ) (sig : UInt32)
    (r : Lookup) (h : getPartitionInfoExtended d which depth s n sig = some r) :
    r.info.map (fun i => (i.start, i.size)) =
      ((chain d depth s n).find? (·.partNum == which)).map fun q => (q.start, q.entry.size4) := by
  induction depth generalizing s n sig r with
  | zero => simp [getPartitionInfoExtended] at h
  | succ depth ih =>
    rw [getPartitionInfoExtended] at h
    rw [chain]
    cases hread : d.blockRead s.sector with
    | none =>
      rw [hread] at h
      obtain rfl := Option.some.inj h
      rfl
    | some b =>
      simp only [hread] at h ⊢
      by_cases hb : (!signed b) = true
      · rw [if_pos hb] at h ⊢
        obtain rfl := Option.some.inj h
        rfl
      · rw [if_neg hb, findTable_eq] at h
        rw [if_neg hb, List.find?_append]
        cases hfind : ((tableParts s.sector (entries b) n).filter Part.usable).find?
            (·.partNum == which) with
        | some q =>
          simp only [hfind, Option.map_some, Option.some.injEq] at h
          obtain rfl := h
          rfl
        | none =>
          simp only [hfind, Option.map_none, find?_extended] at h
          rw [Option.none_or]
          cases hps : extendedEntries b with
          | nil =>
            simp only [hps, List.head?_nil, Option.some.injEq] at h
            obtain rfl := h
            rfl
          | cons p ps =>
            simp only [hps, List.head?_cons] at h
            obtain ⟨below, hbelow, rfl⟩ := Option.map_eq_some_iff.1 h
            exact ih _ _ _ below hbelow

/-! ## Numbers -/

def Increasing (qs : List Part) : Prop := qs.Pairwise (·.partNum < ·.partNum)

theorem Increasing.nodup {qs : List Part} (h : Increasing qs) : (qs.map Part.partNum).Nodup := by
  rw [List.Nodup, List.pairwise_map]
  exact h.imp fun hlt => ne_of_lt hlt

theorem nextNum_ge (sector : UInt32) (p : Entry) (n : ℤ) : n ≤ nextNum sector p n := by
  rw [nextNum]
  split <;> omega

/-- An entry that is listed is counted. -/
theorem nextNum_listed (sector : UInt32) (p : Entry) (n : ℤ) (h : listed sector p) :
    nextNum sector p n = n+1 := by
  have hcounts : counts sector p = true := by
    simp only [listed, Bool.and_eq_true, Bool.or_eq_true] at h
    simp only [counts, Bool.or_eq_true, Bool.and_eq_true]
    exact h.2.imp id fun hext => ⟨h.1, hext⟩
  rw [nextNum, if_pos hcounts]

theorem tableParts_between (sector : UInt32) (ps : List Entry) (n : ℤ) (q : Part)
    (hq : q ∈ tableParts sector ps n) : n ≤ q.partNum ∧ q.partNum < numAfter sector ps n := by
  induction ps generalizing n with
  | nil => exact absurd hq List.not_mem_nil
  | cons p ps ih =>
    rw [tableParts] at hq
    rw [numAfter]
    split at hq
    · next hlisted =>
      rcases List.mem_cons.1 hq with rfl | hq
      · have hafter := numAfter_ge sector ps (nextNum sector p n)
        rw [nextNum_listed sector p n hlisted] at hafter ⊢
        exact ⟨le_refl n, (lt_add_one n).trans_le hafter⟩
      · exact ⟨(nextNum_ge sector p n).trans (ih _ hq).1, (ih _ hq).2⟩
    · exact ⟨(nextNum_ge sector p n).trans (ih _ hq).1, (ih _ hq).2⟩

theorem tableParts_increasing (sector : UInt32) (ps : List Entry) (n : ℤ) :
    Increasing (tableParts sector ps n) := by
  induction ps generalizing n with
  | nil => exact List.Pairwise.nil
  | cons p ps ih =>
    rw [tableParts]
    split
    · next hlisted =>
      refine List.Pairwise.cons (fun q hq => ?_) (ih _)
      have hq' := (tableParts_between sector ps _ q hq).1
      rw [nextNum_listed sector p n hlisted] at hq'
      show n < q.partNum
      omega
    · exact ih _

/-- Parts numbered from `n` on, in order. -/
structure From (n : ℤ) (qs : List Part) : Prop where
  increasing : Increasing qs
  ge : ∀ q ∈ qs, n ≤ q.partNum

theorem From.nil (n : ℤ) : From n [] :=
  ⟨List.Pairwise.nil, fun _ hq => absurd hq List.not_mem_nil⟩

/-- A table is followed by parts with greater numbers. -/
theorem From.table {sector : UInt32} {ps : List Entry} {n : ℤ} {front rest : List Part}
    (hfront : front.Sublist (tableParts sector ps n)) (hrest : From (numAfter sector ps n) rest) :
    From n (front ++ rest) where
  increasing := by
    refine List.pairwise_append.2 ⟨(tableParts_increasing sector ps n).sublist hfront,
      hrest.increasing, fun q hq t ht => ?_⟩
    exact (tableParts_between sector ps n q (hfront.subset hq)).2.trans_le (hrest.ge t ht)
  ge := by
    intro q hq
    rcases List.mem_append.1 hq with hq | hq
    · exact (tableParts_between sector ps n q (hfront.subset hq)).1
    · exact (numAfter_ge sector ps n).trans (hrest.ge q hq)

theorem chain_from (d : BlockDev) (depth : ℕ) (s : Place) (n : ℤ) : From n (chain d depth s n) := by
  induction depth generalizing s n with
  | zero => exact From.nil n
  | succ depth ih =>
    rw [chain]
    cases d.blockRead s.sector with
    | none => exact From.nil n
    | some b =>
      dsimp only
      split
      · exact From.nil n
      · refine From.table List.filter_sublist ?_
        cases extendedEntries b with
        | nil => exact From.nil _
        | cons p ps => exact ih _ _

theorem trunk_hidden_from (d : BlockDev) (depth : ℕ) (s : Place) (n : ℤ) :
    From n (trunk d depth s n ++ hidden d depth s n) := by
  induction depth generalizing s n with
  | zero => exact From.nil n
  | succ depth ih =>
    rw [trunk, hidden]
    cases d.blockRead s.sector with
    | none => exact From.nil n
    | some b =>
      dsimp only
      split
      · exact chain_from d (depth+1) s n
      · rw [List.append_assoc]
        refine From.table (List.Sublist.refl _) ?_
        cases extendedEntries b with
        | nil => exact From.nil _
        | cons p ps => exact ih _ _

/-! ## Trunk and branches -/

theorem signed_of_mbr {b : Block} (h : ¬testBlockType b ≠ .mbr) : ¬(!signed b) = true := by
  intro hb
  rw [testBlockType, if_pos hb] at h
  exact h (by decide)

theorem chain_split (d : BlockDev) (depth : ℕ) (s : Place) (n : ℤ) :
    chain d depth s n = (trunk d depth s n).filter Part.usable ++ hidden d depth s n := by
  induction depth generalizing s n with
  | zero => rfl
  | succ depth ih =>
    rw [trunk, hidden]
    cases hread : d.blockRead s.sector with
    | none => simp [chain, hread]
    | some b =>
      dsimp only
      split
      · rfl
      · next hb =>
        rw [chain, hread, List.filter_append, List.append_assoc]
        dsimp only
        rw [if_neg (signed_of_mbr hb)]
        cases extendedEntries b with
        | nil => rfl
        | cons p ps => exact congrArg _ (ih _ _)

theorem tree_split (d : BlockDev) (depth : ℕ) (s : Place) (n : ℤ) :
    (tree d depth s n).Perm (trunk d depth s n ++ side d depth s n) := by
  induction depth generalizing s n with
  | zero => exact List.Perm.refl _
  | succ depth ih =>
    rw [tree, trunk, side]
    cases d.blockRead s.sector with
    | none => exact List.Perm.refl _
    | some b =>
      dsimp only
      split
      · exact List.Perm.refl _
      · rw [List.append_assoc]
        refine List.Perm.append_left _ ?_
        cases extendedEntries b with
        | nil => exact List.Perm.refl _
        | cons p ps =>
          rw [List.flatMap_cons, ← List.append_assoc]
          exact (ih _ _).append_right _

end UBoot.DosTable
