import UBoot.DosParts

/-!
# The listing against the lookup

On a disk whose tables come to an end, listing and lookup show the same
partitions, each number once, exactly when the trunk has plain boot flags and
the branches next to it hold what the lookup finds behind a boot sector: on an
ordinary disk nothing.
-/

set_option autoImplicit false

namespace UBoot.DosTable

open TreeWalk

/-- A disk whose extended partition tables come to an end for both walks. -/
structure ChainedDisk extends BlockDev where
  depth : ℕ
  printed : Shallow (printNext toBlockDev) depth ⟨0, 0⟩
  looked : Shallow (lookNext toBlockDev) depth ⟨0, 0⟩

namespace ChainedDisk

variable (d : ChainedDisk)

/-- `get_partition_info_dos` succeeds for a number with a start and a size. -/
def Finds (n : ℤ) (start size : UInt32) : Prop :=
  ∃ r info, getPartitionInfoDos d.toBlockDev d.depth n = some r ∧ r.info = some info ∧
    info.start = start ∧ info.size = size

/-- `print_part_dos` prints a non-extended partition. -/
def Lists (n : ℤ) (start size : UInt32) : Prop :=
  ∃ r, ∃ l : Line, printPartDos d.toBlockDev d.depth = some r ∧ l ∈ r.lines ∧ l.extd = false ∧
    l.partNum = n ∧ l.lbaStart = start ∧ l.lbaSize = size

structure Agrees : Prop where
  same : ∀ n start size, d.Finds n start size ↔ d.Lists n start size
  once : ∀ r, printPartDos d.toBlockDev d.depth = some r → (r.lines.map Line.partNum).Nodup

def trunk : List Part := DosTable.trunk d.toBlockDev d.depth ⟨0, 0⟩ 1
def side : List Part := DosTable.side d.toBlockDev d.depth ⟨0, 0⟩ 1
def hidden : List Part := DosTable.hidden d.toBlockDev d.depth ⟨0, 0⟩ 1

/-- What the tables have to be like. -/
structure Untangled : Prop where
  flags : ∀ q ∈ d.trunk, q.extended = false → plainFlag q.entry
  same : ∀ k, (∃ q ∈ d.side, q.extended = false ∧ q.key = k) ↔ ∃ q ∈ d.hidden, q.key = k
  once : (d.side.map Part.partNum).Nodup
  apart : ∀ q ∈ d.side, ∀ t ∈ d.trunk, q.partNum ≠ t.partNum

variable {d}

theorem exists_look (n : ℤ) : ∃ r, getPartitionInfoDos d.toBlockDev d.depth n = some r :=
  Option.isSome_iff_exists.1 (look_isSome d.toBlockDev n d.depth _ 1 0 d.looked)

theorem exists_print : ∃ r, printPartDos d.toBlockDev d.depth = some r :=
  Option.isSome_iff_exists.1 ((print_isSome d.toBlockDev d.depth _ 1 0).2 d.printed)

/-- The lookup finds what is usable on the trunk or hidden. -/
theorem finds_iff (n : ℤ) (start size : UInt32) :
    d.Finds n start size ↔
      ∃ q ∈ d.trunk.filter Part.usable ++ d.hidden, q.key = (n, start, size) := by
  have hfrom := chain_from d.toBlockDev d.depth ⟨0, 0⟩ 1
  rw [trunk, hidden, ← chain_split]
  obtain ⟨r, hr⟩ := exists_look (d := d) n
  have hinfo := look_info d.toBlockDev n d.depth ⟨0, 0⟩ 1 0 r hr
  constructor
  · rintro ⟨r', info, hr', hsome, rfl, rfl⟩
    obtain rfl := Option.some.inj (hr.symm.trans hr')
    rw [hsome, Option.map_some] at hinfo
    obtain ⟨q, hq, hkey⟩ := Option.map_eq_some_iff.1 hinfo.symm
    have hnum : q.partNum = n := by simpa using List.find?_some hq
    exact ⟨q, List.mem_of_find?_eq_some hq, Prod.ext hnum hkey⟩
  · rintro ⟨q, hq, hkey⟩
    simp only [Part.key, Prod.mk.injEq] at hkey
    obtain ⟨hnum, hstart, hsize⟩ := hkey
    cases hfind : (chain d.toBlockDev d.depth ⟨0, 0⟩ 1).find? (·.partNum == n) with
    | none => exact absurd hnum (by simpa using List.find?_eq_none.1 hfind q hq)
    | some t =>
      have htnum : t.partNum = n := by simpa using List.find?_some hfind
      obtain rfl := List.inj_on_of_nodup_map hfrom.increasing.nodup
        (List.mem_of_find?_eq_some hfind) hq (htnum.trans hnum.symm)
      rw [hfind, Option.map_some] at hinfo
      obtain ⟨info, hsome, hpair⟩ := Option.map_eq_some_iff.1 hinfo
      rw [Prod.mk.injEq] at hpair
      exact ⟨r, info, hr, hsome, hpair.1.trans hstart, hpair.2.trans hsize⟩

theorem mem_split (q : Part) :
    q ∈ tree d.toBlockDev d.depth ⟨0, 0⟩ 1 ↔ q ∈ d.trunk ∨ q ∈ d.side := by
  rw [(tree_split _ _ _ _).mem_iff, List.mem_append]
  rfl

/-- The listing shows the trunk and the branches next to it. -/
theorem lists_iff (n : ℤ) (start size : UInt32) :
    d.Lists n start size ↔
      ∃ q, (q ∈ d.trunk ∨ q ∈ d.side) ∧ q.extended = false ∧ q.key = (n, start, size) := by
  obtain ⟨r, hr⟩ := exists_print (d := d)
  have hlines := print_lines d.toBlockDev d.depth ⟨0, 0⟩ 1 0 r hr
  constructor
  · rintro ⟨r', l, hr', hl, hext, rfl, rfl, rfl⟩
    obtain rfl := Option.some.inj (hr.symm.trans hr')
    have hshape := List.mem_map_of_mem (f := Line.shape) hl
    rw [hlines] at hshape
    obtain ⟨q, hq, hkey⟩ := List.mem_map.1 hshape
    simp only [Part.shape, Line.shape, Prod.mk.injEq] at hkey
    exact ⟨q, (mem_split q).1 hq, hkey.2.trans hext, hkey.1⟩
  · rintro ⟨q, hq, hext, hkey⟩
    have hshape := List.mem_map_of_mem (f := Part.shape) ((mem_split q).2 hq)
    rw [← hlines] at hshape
    obtain ⟨l, hl, hl'⟩ := List.mem_map.1 hshape
    simp only [Part.shape, Line.shape, hkey, Prod.mk.injEq] at hl'
    exact ⟨r, l, hr, hl, hl'.2.trans hext, hl'.1⟩

theorem trunk_nodup : (d.trunk.map Part.partNum).Nodup :=
  Increasing.nodup (List.Pairwise.sublist (List.sublist_append_left _ _)
    (trunk_hidden_from d.toBlockDev d.depth ⟨0, 0⟩ 1).increasing)

theorem once_iff :
    (∀ r, printPartDos d.toBlockDev d.depth = some r → (r.lines.map Line.partNum).Nodup) ↔
      (d.side.map Part.partNum).Nodup ∧ ∀ q ∈ d.side, ∀ t ∈ d.trunk, q.partNum ≠ t.partNum := by
  have hnums : ∀ r, printPartDos d.toBlockDev d.depth = some r →
      r.lines.map Line.partNum = (tree d.toBlockDev d.depth ⟨0, 0⟩ 1).map Part.partNum := by
    intro r hr
    have hlines := congrArg (List.map fun k => k.1.1)
      (print_lines d.toBlockDev d.depth ⟨0, 0⟩ 1 0 r hr)
    rwa [List.map_map, List.map_map] at hlines
  have hperm := (tree_split d.toBlockDev d.depth ⟨0, 0⟩ 1).map Part.partNum
  have hsplit : ((tree d.toBlockDev d.depth ⟨0, 0⟩ 1).map Part.partNum).Nodup ↔
      (d.side.map Part.partNum).Nodup ∧ ∀ q ∈ d.side, ∀ t ∈ d.trunk, q.partNum ≠ t.partNum := by
    rw [hperm.nodup_iff, List.map_append, List.nodup_append]
    constructor
    · rintro ⟨-, hside, hapart⟩
      exact ⟨hside, fun q hq t ht h =>
        hapart _ (List.mem_map_of_mem ht) _ (List.mem_map_of_mem hq) h.symm⟩
    · rintro ⟨hside, hapart⟩
      refine ⟨trunk_nodup, hside, fun a ha b hb => ?_⟩
      obtain ⟨t, ht, rfl⟩ := List.mem_map.1 ha
      obtain ⟨q, hq, rfl⟩ := List.mem_map.1 hb
      exact (hapart q hq t ht).symm
  rw [← hsplit]
  constructor
  · intro h
    obtain ⟨r, hr⟩ := exists_print (d := d)
    rw [← hnums r hr]
    exact h r hr
  · intro h r hr
    rwa [hnums r hr]

/-- What is hidden has greater numbers than the trunk. -/
theorem trunk_lt_hidden {t q : Part} (ht : t ∈ d.trunk) (hq : q ∈ d.hidden) :
    t.partNum < q.partNum :=
  (List.pairwise_append.1 (trunk_hidden_from d.toBlockDev d.depth ⟨0, 0⟩ 1).increasing).2.2
    t ht q hq

/-- The numbers and the two walks that give them agree on untangled tables. -/
theorem walks_agree_iff (d : ChainedDisk) : d.Agrees ↔ d.Untangled := by
  constructor
  · rintro ⟨hsame, honce⟩
    obtain ⟨hside, hapart⟩ := once_iff.1 honce
    simp only [finds_iff, lists_iff, List.mem_append, List.mem_filter] at hsame
    refine ⟨fun q hq hext => ?_, ?_, hside, hapart⟩
    · -- what is found with the number of `q` is `q` itself
      obtain ⟨t, ht, hkey⟩ := (hsame q.partNum q.start q.entry.size4).2 ⟨q, .inl hq, hext, rfl⟩
      have hnum : t.partNum = q.partNum := congrArg Prod.fst hkey
      rcases ht with ⟨ht, husable⟩ | ht
      · obtain rfl := List.inj_on_of_nodup_map trunk_nodup ht hq hnum
        exact ((Bool.and_eq_true _ _).mp husable).2
      · exact absurd hnum (trunk_lt_hidden hq ht).ne'
    · rintro ⟨n, start, size⟩
      constructor
      · rintro ⟨q, hq, hext, hkey⟩
        obtain ⟨t, ht, htkey⟩ := (hsame n start size).2 ⟨q, .inr hq, hext, hkey⟩
        rcases ht with ⟨ht, -⟩ | ht
        · exact absurd (congrArg Prod.fst (hkey.trans htkey.symm)) (hapart q hq t ht)
        · exact ⟨t, ht, htkey⟩
      · rintro ⟨q, hq, hkey⟩
        obtain ⟨t, ht, hext, htkey⟩ := (hsame n start size).1 ⟨q, .inr hq, hkey⟩
        rcases ht with ht | ht
        · exact absurd (congrArg Prod.fst (htkey.trans hkey.symm)) (trunk_lt_hidden ht hq).ne
        · exact ⟨t, ht, hext, htkey⟩
  · rintro ⟨hflags, hsame, hside, hapart⟩
    refine ⟨fun n start size => ?_, once_iff.2 ⟨hside, hapart⟩⟩
    rw [finds_iff, lists_iff]
    simp only [List.mem_append, List.mem_filter]
    constructor
    · rintro ⟨q, ⟨hq, husable⟩ | hq, hkey⟩
      · have hext := ((Bool.and_eq_true _ _).mp husable).1
        exact ⟨q, .inl hq, by simpa using hext, hkey⟩
      · obtain ⟨t, ht, hext, htkey⟩ := (hsame _).2 ⟨q, hq, hkey⟩
        exact ⟨t, .inr ht, hext, htkey⟩
    · rintro ⟨q, hq | hq, hext, hkey⟩
      · exact ⟨q, .inl ⟨hq, by simp [Part.usable, hext, hflags q hq hext]⟩, hkey⟩
      · obtain ⟨t, ht, htkey⟩ := (hsame _).1 ⟨q, hq, hext, hkey⟩
        exact ⟨t, .inr ht, htkey⟩

end ChainedDisk

/-- A master boot record with one partition, whose boot flag is 1. -/
def oddFlag : BlockDev where
  ifType := .ide
  dev := 0
  blockRead _ := some fun a =>
    if a = 0x1be then 1 else if a = 0x1c2 then 0x83 else if a = 0x1c6 then 63
    else if a = 0x1ca then 100 else if a = 0x1fe then 0x55 else if a = 0x1ff then 0xaa else 0

def oddFlagDisk : ChainedDisk where
  toBlockDev := oddFlag
  depth := 1
  printed := by decide
  looked := by decide

theorem listed_not_found : ¬oddFlagDisk.Agrees := by
  intro h
  obtain ⟨r, info, hr, hinfo, -⟩ := (h.same 1 63 100).2
    ⟨_, ⟨1, 63, 100, 0, 0x83, false, false⟩, rfl, by decide, rfl, rfl, rfl, rfl⟩
  have hnone : (getPartitionInfoDos oddFlag 1 1).bind Lookup.info = none := by decide
  have hsome : (getPartitionInfoDos oddFlag 1 1).bind Lookup.info = some info := by
    rw [show getPartitionInfoDos oddFlag 1 1 = some r from hr]
    exact hinfo
  rw [hnone] at hsome
  exact absurd hsome (by simp)

end UBoot.DosTable
