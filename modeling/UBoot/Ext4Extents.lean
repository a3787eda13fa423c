import UBoot.Ext4Volume
import UBoot.RangeTree

/-!
# File blocks in extent trees: `read_allocated_block` of `fs/ext4/ext4_common.c`

The inode holds the root of a tree of extents, its other nodes are blocks of the
volume. Every node is searched from its start, and the entry in front of the one
where the search stops is taken.
-/

set_option autoImplicit false

namespace UBoot.Ext4

open LittleEndian RangeTree MachineInt

/-- `EXT4_EXT_MAGIC` -/
def extMagic : ℕ := 0xf30a

def ehMagic (node : List UInt8) : ℕ := fieldAt node 0 2
def ehEntries (node : List UInt8) : ℕ := fieldAt node 2 2
def ehDepth (node : List UInt8) : ℕ := fieldAt node 6 2

/-- `struct ext4_extent_idx`, with `ei_leaf_hi` and `ei_leaf_lo` in one number. -/
structure ExtentIdx where
  eiBlock : ℕ
  eiLeaf : ℕ
  deriving DecidableEq, Repr

/-- `struct ext4_extent`, with `ee_start_hi` and `ee_start_lo` in one number. -/
structure Extent where
  eeBlock : ℕ
  eeLen : ℕ
  eeStart : ℕ
  deriving DecidableEq, Repr

def indexAt (node : List UInt8) (i : ℕ) : ExtentIdx :=
  ⟨fieldAt node (12+12*i) 4, fieldAt node (12+12*i+8) 2*2^32+fieldAt node (12+12*i+4) 4⟩

def extentAt (node : List UInt8) (i : ℕ) : Extent :=
  ⟨fieldAt node (12+12*i) 4, fieldAt node (12+12*i+4) 2,
    fieldAt node (12+12*i+6) 2*2^32+fieldAt node (12+12*i+8) 4⟩

/-- The loop over the entries, from the `i`-th of them on, with `n` to come. -/
@[grind]
def scan (test : ℕ → Bool) : ℕ → ℕ → ℕ
  | i, 0 => i
  | i, n+1 => if test i then scan test (i+1) n else i

/-- `ext4fs_get_extent_block` in `fuel` rounds: `none` is a loop that still runs, and
`some none` the result 0. Blocks come from `read`. -/
@[grind]
def getExtentBlock (read : ℕ → Option (List UInt8)) (fileblock : ℕ) : ℕ → List UInt8 → Option (Option (List UInt8))
  | 0, _ => none
  | fuel+1, node =>
    if ehMagic node ≠ extMagic then some none
    else if ehDepth node = 0 then some (some node)
    else match scan (fun i => decide ((indexAt node i).eiBlock < fileblock)) 0 (ehEntries node) with
      | 0 => some none
      | i+1 => match read (indexAt node i).eiLeaf with
        | none => some none
        | some buf => getExtentBlock read fileblock fuel buf

/-- `-EINVAL` -/
def einval : ℤ := -22

/-- What `read_allocated_block` does in the node with the extents. -/
def readExtent (node : List UInt8) (fileblock : ℕ) : ℤ :=
  match scan (fun i => decide ((extentAt node i).eeBlock ≤ fileblock)) 0 (ehEntries node) with
  | 0 => -1
  | i+1 =>
    let fileblock := fileblock-(extentAt node i).eeBlock
    if (extentAt node i).eeLen ≤ fileblock then 0
    else asInt (fileblock+(extentAt node i).eeStart)

/-- `read_allocated_block` of an inode with `EXT4_EXTENTS_FL`. -/
def extentsBlock (v : Volume) (fuel : ℕ) (dirBlocks : List UInt8) (fileblock : ℕ) : Option ℤ :=
  (getExtentBlock v.readBlock fileblock fuel dirBlocks).map fun extBlock =>
    extBlock.elim einval fun node => readExtent node fileblock

/-! ## Trees on a volume -/

def Extent.span (e : Extent) : Span ℕ ℕ := ⟨e.eeBlock, e.eeBlock+e.eeLen, e.eeStart⟩

def spansOf (node : List UInt8) : List (Span ℕ ℕ) :=
  (List.range' 0 (ehEntries node)).map fun i => (extentAt node i).span

def keysOf (node : List UInt8) : List (ℕ × ℕ) :=
  (List.range' 0 (ehEntries node)).map fun i =>
    ((indexAt node i).eiBlock, (indexAt node i).eiLeaf)

/-- A node and the blocks under it hold a tree. -/
@[grind]
def Stored (v : Volume) : (d : ℕ) → List UInt8 → Node ℕ ℕ ℕ d → Prop
  | 0, node, es => ehMagic node = extMagic ∧ ehDepth node = 0 ∧
      12+12*ehEntries node ≤ node.length ∧ es = spansOf node
  | d+1, node, is => ehMagic node = extMagic ∧ ehDepth node = d+1 ∧
      12+12*ehEntries node ≤ node.length ∧ is.map Prod.fst = keysOf node ∧
      ∀ c ∈ is, v.Has c.1.2 ∧ Stored v d (v.block c.1.2) c.2

/-- A valid extent tree: in order, without overlaps, and with its extents on the volume. -/
structure ExtentTree (v : Volume) (dirBlocks : List UInt8) where
  depth : ℕ
  tree : Node ℕ ℕ ℕ depth
  stored : Stored v depth dirBlocks tree
  ordered : Within depth 0 (2^32) tree
  placed : ∀ s ∈ spans depth tree, 0 < s.val ∧ v.Has (s.val+(s.past-s.first)-1)

/-- The block that an extent gives to a file block it covers. -/
def place (fileblock : ℕ) (s : Span ℕ ℕ) : ℕ := s.val+(fileblock-s.first)

def ExtentTree.blockOf {v : Volume} {dirBlocks : List UInt8} (T : ExtentTree v dirBlocks)
    (fileblock : ℕ) : ℕ :=
  ((covering fileblock T.depth T.tree).map (place fileblock)).getD 0

/-- A sector of a block that is a positive `int`. -/
def shiftFits (v : Volume) (n : ℕ) : Bool := decide (n*2^v.log2Blksz < 2^31)

/-- The file block is no first block of an index entry that covers it, a key and an extent lie
in front of it, and the numbers on the way fit. -/
def ExtentTree.Reaches {v : Volume} {dirBlocks : List UInt8} (T : ExtentTree v dirBlocks)
    (fileblock : ℕ) : Prop :=
  Clear (shiftFits v) fileblock T.depth T.tree ∧ T.blockOf fileblock < 2^31

/-! ## The loop and the last entry in front -/

theorem scan_le (test : ℕ → Bool) (i n : ℕ) : i ≤ scan test i n := by
  induction n generalizing i with
  | zero => exact le_rfl
  | succ n ih =>
    rw [scan]
    split
    · exact (Nat.le_succ i).trans (ih (i+1))
    · exact le_rfl

theorem scan_test {test : ℕ → Bool} {i n j : ℕ} (h : scan test i n = j+1) (hij : i ≤ j) :
    test j = true := by
  induction n generalizing i with
  | zero => exact absurd h (by rw [scan]; omega)
  | succ n ih =>
    rw [scan] at h
    split at h
    · next hi =>
      rcases Nat.eq_or_lt_of_le hij with rfl | hlt
      · exact hi
      · exact ih h hlt
    · exact absurd h (by omega)

theorem lastBefore_range' (test : ℕ → Bool) (i n : ℕ) :
    lastBefore test (List.range' i n) =
      if scan test i n = i then none else some (scan test i n-1) := by
  induction n generalizing i with
  | zero => simp [scan, lastBefore]
  | succ n ih =>
    rw [List.range'_succ, scan]
    cases hi : test i with
    | false => rw [lastBefore, List.takeWhile_cons_of_neg (by simp [hi])]; simp
    | true =>
      have hle := scan_le test (i+1) n
      have hrest := ih (i+1)
      rw [lastBefore] at hrest
      rw [if_pos rfl, lastBefore, List.takeWhile_cons_of_pos hi, List.getLast?_cons, hrest,
        if_neg (show ¬scan test (i+1) n = i by omega)]
      split
      · next hstop => rw [hstop]; rfl
      · rfl

theorem lastBefore_map {α β : Type} (test : β → Bool) (f : α → β) (l : List α) :
    lastBefore test (l.map f) = (lastBefore (fun a => test (f a)) l).map f := by
  rw [lastBefore, lastBefore, List.takeWhile_map, List.getLast?_map]
  rfl

/-- The step back after the loop takes the last entry in front. -/
theorem lastBefore_scan {α : Type} (test : α → Bool) (f : ℕ → α) (n : ℕ) :
    lastBefore test ((List.range' 0 n).map f) =
      match scan (fun i => test (f i)) 0 n with
      | 0 => none
      | i+1 => some (f i) := by
  rw [lastBefore_map, lastBefore_range']
  cases scan (fun i => test (f i)) 0 n with
  | zero => rfl
  | succ i => rfl

/-! ## One round of the walk -/

section Round

variable {read : ℕ → Option (List UInt8)} {fileblock : ℕ} {node : List UInt8}
  (hmagic : ehMagic node = extMagic)

include hmagic

theorem getExtentBlock_leaf (hdepth : ehDepth node = 0) (fuel : ℕ) :
    getExtentBlock read fileblock (fuel+1) node = some (some node) := by
  rw [getExtentBlock, if_neg (not_not.2 hmagic), if_pos hdepth]

theorem getExtentBlock_no_child (hdepth : ehDepth node ≠ 0)
    (hscan : scan (fun i => decide ((indexAt node i).eiBlock < fileblock)) 0 (ehEntries node) = 0)
    (fuel : ℕ) : getExtentBlock read fileblock (fuel+1) node = some none := by
  rw [getExtentBlock, if_neg (not_not.2 hmagic), if_neg hdepth, hscan]

variable {i : ℕ} (hdepth : ehDepth node ≠ 0)
  (hscan : scan (fun i => decide ((indexAt node i).eiBlock < fileblock)) 0 (ehEntries node) = i+1)

include hdepth hscan

theorem getExtentBlock_child {buf : List UInt8} (hread : read (indexAt node i).eiLeaf = some buf)
    (fuel : ℕ) :
    getExtentBlock read fileblock (fuel+1) node = getExtentBlock read fileblock fuel buf := by
  rw [getExtentBlock, if_neg (not_not.2 hmagic), if_neg hdepth, hscan]
  dsimp only
  rw [hread]

theorem getExtentBlock_unread (hread : read (indexAt node i).eiLeaf = none) (fuel : ℕ) :
    getExtentBlock read fileblock (fuel+1) node = some none := by
  rw [getExtentBlock, if_neg (not_not.2 hmagic), if_neg hdepth, hscan]
  dsimp only
  rw [hread]

end Round

/-! ## The code and the search of the tree -/

section Search

variable {v : Volume}

/-- What the code makes of a search that succeeds. -/
def valueOf (fileblock : ℕ) : Option (Span ℕ ℕ) → ℤ
  | some s => asInt (place fileblock s)
  | none => 0

theorem readExtent_eq {node : List UInt8} {es : Node ℕ ℕ ℕ 0} (h : Stored v 0 node es)
    (fileblock : ℕ) (ok : ℕ → Bool) :
    readExtent node fileblock = ((find ok fileblock 0 es).map (valueOf fileblock)).getD (-1) := by
  obtain ⟨-, -, -, rfl⟩ := h
  have hlast : lastBefore (fun s => decide (s.first ≤ fileblock)) (spansOf node) =
      match scan (fun i => decide ((extentAt node i).eeBlock ≤ fileblock)) 0 (ehEntries node) with
      | 0 => none
      | i+1 => some (extentAt node i).span :=
    lastBefore_scan (fun s : Span ℕ ℕ => decide (s.first ≤ fileblock)) _ _
  rw [find, hlast, readExtent]
  cases hscan : scan (fun i => decide ((extentAt node i).eeBlock ≤ fileblock)) 0
    (ehEntries node) with
  | zero => rfl
  | succ i =>
    have hfirst := of_decide_eq_true (scan_test hscan (Nat.zero_le i))
    change (if (extentAt node i).eeLen ≤ fileblock-(extentAt node i).eeBlock then 0 else
      asInt (((fileblock-(extentAt node i).eeBlock : ℕ) : ℤ)+(extentAt node i).eeStart)) =
      valueOf fileblock (if fileblock < (extentAt node i).eeBlock+(extentAt node i).eeLen then
        some (extentAt node i).span else none)
    by_cases hpast : fileblock < (extentAt node i).eeBlock+(extentAt node i).eeLen
    · rw [if_neg (by omega), if_pos hpast, add_comm, ← Nat.cast_add]
      rfl
    · rw [if_pos (by omega), if_neg hpast]
      rfl

/-- The loop over the index entries stops behind the child that the search of the tree takes. -/
theorem scan_child {d : ℕ} {node : List UInt8} {is : List ((ℕ × ℕ) × Node ℕ ℕ ℕ d)}
    (hkeys : is.map Prod.fst = keysOf node) (fileblock : ℕ) :
    (scan (fun i => decide ((indexAt node i).eiBlock < fileblock)) 0 (ehEntries node) = 0 ∧
      lastBefore (fun c => decide (c.1.1 < fileblock)) is = none) ∨
    ∃ i c, scan (fun i => decide ((indexAt node i).eiBlock < fileblock)) 0 (ehEntries node) = i+1 ∧
      lastBefore (fun c => decide (c.1.1 < fileblock)) is = some c ∧ c ∈ is ∧
      (indexAt node i).eiLeaf = c.1.2 := by
  have hmap := lastBefore_map (fun key : ℕ × ℕ => decide (key.1 < fileblock)) Prod.fst is
  rw [hkeys, keysOf, lastBefore_scan] at hmap
  cases hscan : scan (fun i => decide ((indexAt node i).eiBlock < fileblock)) 0
    (ehEntries node) with
  | zero =>
    rw [hscan] at hmap
    exact .inl ⟨rfl, Option.map_eq_none_iff.1 hmap.symm⟩
  | succ i =>
    rw [hscan] at hmap
    obtain ⟨c, hc, hkey⟩ := Option.map_eq_some_iff.1 hmap.symm
    have hmem := (List.takeWhile_prefix _).subset (List.mem_of_getLast? hc)
    exact .inr ⟨i, c, rfl, hc, hmem, (congrArg Prod.snd hkey).symm⟩

/-- Where the search of the tree succeeds, the code comes to the same. -/
theorem extentsBlock_of_find {d : ℕ} {node : List UInt8} {t : Node ℕ ℕ ℕ d} {fileblock : ℕ}
    {r : Option (Span ℕ ℕ)} (h : Stored v d node t)
    (hfind : find (shiftFits v) fileblock d t = some r) :
    extentsBlock v (d+1) node fileblock = some (valueOf fileblock r) := by
  induction d generalizing node with
  | zero =>
    have hread := readExtent_eq h fileblock (shiftFits v)
    rw [hfind, Option.map_some, Option.getD_some] at hread
    rw [extentsBlock, getExtentBlock_leaf h.1 h.2.1, Option.map_some, Option.elim_some, hread]
  | succ d ih =>
    obtain ⟨hmagic, hdepth, -, hkeys, hchild⟩ := h
    rw [find] at hfind
    rcases scan_child hkeys fileblock with ⟨-, hnone⟩ | ⟨i, c, hscan, hc, hmem, hleaf⟩
    · rw [hnone] at hfind
      cases hfind
    · obtain ⟨hhas, hstored⟩ := hchild c hmem
      rw [hc, Option.bind_some] at hfind
      split at hfind
      swap
      · cases hfind
      · next hok =>
        have hread : v.readBlock (indexAt node i).eiLeaf = some (v.block c.1.2) := by
          rw [hleaf, v.readBlock_eq hhas (of_decide_eq_true hok)]
        rw [extentsBlock, getExtentBlock_child hmagic (by omega) hscan hread, ← extentsBlock]
        exact ih hstored hfind

/-- Where it fails, so does the code, unless the sectors are too many for their numbers. -/
theorem extentsBlock_of_find_none {d : ℕ} {node : List UInt8} {t : Node ℕ ℕ ℕ d} {fileblock : ℕ}
    (h : Stored v d node t) (hsectors : v.sectors ≤ 2^32)
    (hfind : find (shiftFits v) fileblock d t = none) :
    ∃ e < 0, extentsBlock v (d+1) node fileblock = some e := by
  induction d generalizing node with
  | zero =>
    have hread := readExtent_eq h fileblock (shiftFits v)
    rw [hfind, Option.map_none, Option.getD_none] at hread
    rw [extentsBlock, getExtentBlock_leaf h.1 h.2.1, Option.map_some, Option.elim_some, hread]
    exact ⟨-1, by decide, rfl⟩
  | succ d ih =>
    obtain ⟨hmagic, hdepth, -, hkeys, hchild⟩ := h
    rw [find] at hfind
    rcases scan_child hkeys fileblock with ⟨hscan, -⟩ | ⟨i, c, hscan, hc, hmem, hleaf⟩
    · rw [extentsBlock, getExtentBlock_no_child hmagic (by omega) hscan]
      exact ⟨einval, by decide, rfl⟩
    · obtain ⟨hhas, hstored⟩ := hchild c hmem
      rw [hc, Option.bind_some] at hfind
      split at hfind
      · next hok =>
        have hread : v.readBlock (indexAt node i).eiLeaf = some (v.block c.1.2) := by
          rw [hleaf, v.readBlock_eq hhas (of_decide_eq_true hok)]
        rw [extentsBlock, getExtentBlock_child hmagic (by omega) hscan hread, ← extentsBlock]
        exact ih hstored hfind
      · next hok =>
        have hhigh : 2^31 ≤ c.1.2*2^v.log2Blksz := not_lt.1 fun hlt => hok (decide_eq_true hlt)
        have hpos : 0 < 2^v.log2Blksz := Nat.two_pow_pos _
        have hlow : c.1.2*2^v.log2Blksz < 2^32 := by
          have hin := hhas
          unfold Volume.Has at hin
          rw [Nat.succ_mul] at hin
          omega
        have hread := hleaf ▸ v.readBlock_high hhigh hlow
        rw [extentsBlock, getExtentBlock_unread hmagic (by omega) hscan hread]
        exact ⟨einval, by decide, rfl⟩

end Search

/-! ## The lookup in a valid tree -/

theorem getExtentBlock_more {read : ℕ → Option (List UInt8)} {fileblock fuel : ℕ}
    {node : List UInt8} {r : Option (List UInt8)}
    (h : getExtentBlock read fileblock fuel node = some r) (n : ℕ) :
    getExtentBlock read fileblock (fuel+n) node = some r := by
  induction fuel generalizing node with
  | zero => cases h
  | succ fuel ih =>
    rw [getExtentBlock] at h
    rw [Nat.succ_add, getExtentBlock]
    split at h
    · next hmagic => rw [if_pos hmagic, h]
    · next hmagic =>
      rw [if_neg hmagic]
      split at h
      · next hdepth => rw [if_pos hdepth, h]
      · next hdepth =>
        rw [if_neg hdepth]
        split at h
        · exact h
        · split at h
          · exact h
          · exact ih h

/-- `read_allocated_block` comes to an end with `r`. -/
def Returns (v : Volume) (dirBlocks : List UInt8) (fileblock : ℕ) (r : ℤ) : Prop :=
  ∃ fuel, extentsBlock v fuel dirBlocks fileblock = some r

theorem Returns.unique {v : Volume} {dirBlocks : List UInt8} {fileblock : ℕ} {r r' : ℤ}
    (h : Returns v dirBlocks fileblock r) (h' : Returns v dirBlocks fileblock r') : r = r' := by
  obtain ⟨fuel, h⟩ := h
  obtain ⟨fuel', h'⟩ := h'
  obtain ⟨b, hb, rfl⟩ := Option.map_eq_some_iff.1 h
  obtain ⟨b', hb', rfl⟩ := Option.map_eq_some_iff.1 h'
  have hmore := getExtentBlock_more hb fuel'
  rw [Nat.add_comm, getExtentBlock_more hb' fuel] at hmore
  rw [Option.some.inj hmore]

namespace ExtentTree

variable {v : Volume} {dirBlocks : List UInt8} (T : ExtentTree v dirBlocks) {fileblock : ℕ}

theorem blockOf_lt (hsectors : v.sectors ≤ 2^32) : T.blockOf fileblock < 2^31 := by
  unfold blockOf
  cases hs : covering fileblock T.depth T.tree with
  | none => simp
  | some s =>
    have hpos : 2 ≤ 2^v.log2Blksz := by
      rw [Volume.log2Blksz, pow_succ]
      have := Nat.two_pow_pos v.log2BlockSize
      omega
    obtain ⟨hin, hcover⟩ := covering_sound hs
    obtain ⟨hval, hhas⟩ := T.placed s hin
    unfold Volume.Has at hhas
    have hmul := Nat.mul_le_mul_left (s.val+(s.past-s.first)-1+1) hpos
    rw [Option.map_some, Option.getD_some, place]
    unfold Span.Has at hcover
    omega

theorem valueOf_covering (h : T.blockOf fileblock < 2^31) :
    valueOf fileblock (covering fileblock T.depth T.tree) = T.blockOf fileblock := by
  unfold blockOf at h ⊢
  cases hs : covering fileblock T.depth T.tree with
  | none => rfl
  | some s =>
    rw [hs, Option.map_some, Option.getD_some] at h
    rw [Option.map_some, Option.getD_some, valueOf, asInt_of_lt (by positivity)]
    exact_mod_cast h

/-- What is found instead of the covering extent is never its block. -/
theorem found_is_covering {r : Option (Span ℕ ℕ)}
    (hfind : find (shiftFits v) fileblock T.depth T.tree = some r)
    (hvalue : valueOf fileblock r = T.blockOf fileblock) :
    r = covering fileblock T.depth T.tree := by
  cases r with
  | some s =>
    obtain ⟨hin, hhas⟩ := find_sound _ hfind
    exact (covering_unique T.ordered hin hhas).symm
  | none =>
    cases hs : covering fileblock T.depth T.tree with
    | none => rfl
    | some s =>
      have hval := (T.placed s (covering_sound hs).1).1
      rw [blockOf, hs, Option.map_some, Option.getD_some, place, valueOf] at hvalue
      omega

theorem returns_of_reaches (h : T.Reaches fileblock) :
    Returns v dirBlocks fileblock (T.blockOf fileblock) := by
  obtain ⟨hclear, hlt⟩ := h
  have hfind := (find_iff (shiftFits v) T.ordered).2 hclear
  exact ⟨T.depth+1, by rw [extentsBlock_of_find T.stored hfind, T.valueOf_covering hlt]⟩

theorem reaches_of_returns (hsectors : v.sectors ≤ 2^32)
    (h : Returns v dirBlocks fileblock (T.blockOf fileblock)) : T.Reaches fileblock := by
  refine ⟨(find_iff (shiftFits v) T.ordered).1 ?_, T.blockOf_lt hsectors⟩
  cases hfind : find (shiftFits v) fileblock T.depth T.tree with
  | none =>
    obtain ⟨e, he, hreturn⟩ := extentsBlock_of_find_none T.stored hsectors hfind
    have hsame := Returns.unique ⟨_, hreturn⟩ h
    omega
  | some r =>
    have hreturn := extentsBlock_of_find T.stored hfind
    have hsame := Returns.unique ⟨_, hreturn⟩ h
    rw [T.found_is_covering hfind hsame]

/-- The lookup gives the block of the covering extent, or 0 without one, exactly where its way
is clear. -/
theorem returns_iff (T : ExtentTree v dirBlocks) (fileblock : ℕ) :
    (T.Reaches fileblock → Returns v dirBlocks fileblock (T.blockOf fileblock)) ∧
      (v.sectors ≤ 2^32 → Returns v dirBlocks fileblock (T.blockOf fileblock) →
        T.Reaches fileblock) :=
  ⟨T.returns_of_reaches, fun hsectors => T.reaches_of_returns hsectors⟩

end ExtentTree

/-! ## One index entry -/

/-- A node with the extent of one block from file block 0 on, at block 5. -/
def oneExtent : List UInt8 :=
  [0x0a, 0xf3, 1, 0, 84, 0, 0, 0, 0, 0, 0, 0, 0, 0, 0, 0, 1, 0, 0, 0, 5, 0, 0, 0]

/-- A root with one index entry for it, from file block 0 on, at block 3. -/
def oneIndex : List UInt8 :=
  [0x0a, 0xf3, 1, 0, 4, 0, 1, 0, 0, 0, 0, 0, 0, 0, 0, 0, 3, 0, 0, 0, 0, 0, 0, 0]

def oneIndexVolume : Volume := ⟨0, log2_zero_le, 16, fun a => oneExtent.getD (a-3*1024) 0⟩

theorem oneIndex_stored : Stored oneIndexVolume 1 oneIndex [((0, 3), [⟨0, 1, 5⟩])] := by
  refine ⟨by decide, by decide, by decide, by decide, ?_⟩
  intro c hc
  obtain rfl := List.mem_singleton.1 hc
  refine ⟨by decide, by decide, by decide, ?_, by decide⟩
  rw [Volume.block, ByteStore.length_load]
  decide

theorem oneIndex_ordered : Within 1 0 (2^32) ([((0, 3), [⟨0, 1, 5⟩])] : Node ℕ ℕ ℕ 1) := by
  refine ⟨List.pairwise_singleton _ _, fun pre c post h => ?_⟩
  rcases List.append_eq_singleton_iff.1 h.symm with ⟨rfl, hrest⟩ | ⟨-, hrest⟩
  · obtain ⟨rfl, rfl⟩ := List.cons.inj hrest
    exact ⟨le_rfl, by decide, List.pairwise_singleton _ _, by decide⟩
  · cases hrest

theorem oneIndex_placed : ∀ s ∈ spans 1 ([((0, 3), [⟨0, 1, 5⟩])] : Node ℕ ℕ ℕ 1),
    0 < s.val ∧ oneIndexVolume.Has (s.val+(s.past-s.first)-1) := by
  decide

def oneIndexTree : ExtentTree oneIndexVolume oneIndex where
  depth := 1
  tree := [((0, 3), [⟨0, 1, 5⟩])]
  stored := oneIndex_stored
  ordered := oneIndex_ordered
  placed := oneIndex_placed

/-- The first block of the only index entry is an error and not block 5. -/
theorem first_block_of_index_lost :
    Returns oneIndexVolume oneIndex 0 einval ∧ oneIndexTree.blockOf 0 = 5 :=
  ⟨⟨1, by decide⟩, by decide⟩

end UBoot.Ext4
