import UBoot.Ext4Extents
import UBoot.ReadCache

/-!
# File blocks through indirect blocks: `read_allocated_block` of `fs/ext4/ext4_common.c`

The first twelve blocks of a file stand in the inode, the others are reached through
one, two or three levels of blocks of pointers. The block of a level that was read
last is kept, for all files and with its sector.
-/

set_option autoImplicit false

namespace UBoot.Ext4

open LittleEndian ReadCache MachineInt

/-- The block pointers of an inode. -/
structure Pointers where
  dirBlocks : ℕ → UInt32
  indirBlock : UInt32
  doubleIndirBlock : UInt32
  tripleIndirBlock : UInt32

/-- `ext4fs_indir1_block` and its size and number. -/
structure Cache where
  size : ℕ
  slot : Slot ℤ (List UInt8)

/-- The three caches; `none` is `NULL`. -/
structure Caches where
  indir1 : Option Cache
  indir2 : Option Cache
  indir3 : Option Cache

structure Lookup where
  blknr : ℤ
  /-- The words of cached blocks that the lookup takes. -/
  used : List ℕ
  caches : Caches

def entry (block : List UInt8) (i : ℕ) : ℕ := fieldAt block (4*i) 4

/-- A word of a cached block, or of what lies behind it. -/
def wordAt (blksz : ℕ) (beyond : ℕ → UInt32) (block : List UInt8) (i : ℕ) : ℕ :=
  if i < blksz/4 then entry block i else (beyond i).toNat

section Code

variable (S : Store ℕ ℤ (List UInt8)) (blksz : ℕ)

/-- `zalloc` where there is no block or one of another size. -/
def ready : Option Cache → Cache
  | none => ⟨blksz, -1, List.replicate blksz 0⟩
  | some c => if blksz ≠ c.size then ⟨blksz, -1, List.replicate blksz 0⟩ else c

def level (cache : Option Cache) (tested ptr : ℕ) : Cache × Bool :=
  (⟨(ready blksz cache).size, (S.fill (ready blksz cache).slot tested ptr).1⟩,
    (S.fill (ready blksz cache).slot tested ptr).2)

variable (beyond : ℕ → ℕ → UInt32) (s : Caches) (inode : Pointers)

def single (fileblock : ℕ) : Lookup :=
  let i := fileblock-12
  let ind := inode.indirBlock.toNat
  let l1 := level S blksz s.indir1 ind ind
  let s := { s with indir1 := some l1.1 }
  if l1.2 = false then ⟨0, [], s⟩
  else ⟨asInt (wordAt blksz (beyond 1) l1.1.slot.block i), [i], s⟩

def double (fileblock : ℕ) : Lookup :=
  let perblock := blksz/4
  let rblock := fileblock-(12+blksz/4)
  let ind := inode.doubleIndirBlock.toNat
  let l1 := level S blksz s.indir1 ind ind
  let s := { s with indir1 := some l1.1 }
  if l1.2 = false then ⟨-1, [], s⟩ else
    let ind := wordAt blksz (beyond 1) l1.1.slot.block (rblock/perblock)
    let l2 := level S blksz s.indir2 ind ind
    let s := { s with indir2 := some l2.1 }
    if l2.2 = false then ⟨-1, [rblock/perblock], s⟩
    else ⟨asInt (wordAt blksz (beyond 2) l2.1.slot.block (rblock % perblock)),
      [rblock/perblock, rblock % perblock], s⟩

def triple (fileblock : ℕ) : Lookup :=
  let rblock := fileblock-(12+blksz/4+blksz/4*(blksz/4))
  let perblockChild := blksz/4
  let perblockParent := blksz/4*(blksz/4)
  let ind := inode.tripleIndirBlock.toNat
  let l1 := level S blksz s.indir1 ind ind
  let s := { s with indir1 := some l1.1 }
  if l1.2 = false then ⟨-1, [], s⟩ else
    let ind := wordAt blksz (beyond 1) l1.1.slot.block (rblock/perblockParent)
    let l2 := level S blksz s.indir2 ind ind
    let s := { s with indir2 := some l2.1 }
    if l2.2 = false then ⟨-1, [rblock/perblockParent], s⟩ else
      -- the number is tested at one index and read at another
      let tested := wordAt blksz (beyond 2) l2.1.slot.block (rblock/perblockChild)
      let ind := wordAt blksz (beyond 2) l2.1.slot.block (rblock/perblockChild % (blksz/4))
      let l3 := level S blksz s.indir3 tested ind
      let s := { s with indir3 := some l3.1 }
      let used := [rblock/perblockParent, rblock/perblockChild,
        rblock/perblockChild % (blksz/4)]
      if l3.2 = false then ⟨-1, used, s⟩
      else ⟨asInt (wordAt blksz (beyond 3) l3.1.slot.block (rblock % perblockChild)),
        used++[rblock % perblockChild], s⟩

/-- `read_allocated_block` of an inode with block pointers, for blocks of up to 64 KiB, where
the products are numbers of 32 bits. -/
def readAllocatedBlock (fileblock : ℕ) : Lookup :=
  if fileblock < 12 then ⟨asInt (inode.dirBlocks fileblock).toNat, [], s⟩
  else if fileblock < 12+blksz/4 then single S blksz beyond s inode fileblock
  else if fileblock < 12+blksz/4*(blksz/4+1) then double S blksz beyond s inode fileblock
  else triple S blksz beyond s inode fileblock

end Code

theorem sector_ne (v : Volume) (n : ℕ) : asInt (n*2^v.log2Blksz) ≠ -1 := by
  rw [Volume.log2Blksz, pow_succ', ← mul_assoc, mul_comm (n : ℤ) 2, mul_assoc]
  exact asInt_even_ne _

/-- The blocks of a volume as they are asked for: by the number, under its sector. -/
def Volume.store (v : Volume) : Store ℕ ℤ (List UInt8) where
  read := v.readBlock
  key n := asInt (n*2^v.log2Blksz)
  unset := -1
  read_congr _ _ h := congrArg (fun sector => v.devread sector 0 v.blksz) h
  key_ne := sector_ne v

theorem store_read (v : Volume) : v.store.read = v.readBlock := by rw [Volume.store]

theorem store_unset (v : Volume) : v.store.unset = -1 := rfl

/-! ## The caches of any history -/

/-- A cache of the size in use holds what the volume has. -/
def Holds (S : Store ℕ ℤ (List UInt8)) (blksz : ℕ) (cache : Option Cache) : Prop :=
  ∀ c ∈ cache, c.size = blksz → S.Valid c.slot

structure Caches.Hold (S : Store ℕ ℤ (List UInt8)) (blksz : ℕ) (s : Caches) : Prop where
  indir1 : Holds S blksz s.indir1
  indir2 : Holds S blksz s.indir2
  indir3 : Holds S blksz s.indir3

section Step

variable {S : Store ℕ ℤ (List UInt8)} (hS : S.unset = -1) {blksz : ℕ} {cache : Option Cache}

include hS

theorem ready_valid (h : Holds S blksz cache) : S.Valid (ready blksz cache).slot := by
  cases cache with
  | none => exact .inl hS.symm
  | some c =>
    rw [ready]
    split
    · exact .inl hS.symm
    · next hsize => exact h c rfl (not_not.1 hsize).symm

theorem level_holds (h : Holds S blksz cache) (tested ptr : ℕ) :
    Holds S blksz (some (level S blksz cache tested ptr).1) := by
  rintro c ⟨⟩ -
  exact (ready_valid hS h).fill tested ptr

theorem level_read (h : Holds S blksz cache) (ptr : ℕ) :
    S.read ptr = if (level S blksz cache ptr ptr).2 then
      some (level S blksz cache ptr ptr).1.slot.block else none :=
  (ready_valid hS h).read_eq ptr

variable {s : Caches} (hs : s.Hold S blksz) (beyond : ℕ → ℕ → UInt32) (inode : Pointers)
  (fileblock : ℕ)

include hs

theorem single_holds : (single S blksz beyond s inode fileblock).caches.Hold S blksz := by
  unfold single
  dsimp only
  split <;> exact ⟨level_holds hS hs.indir1 _ _, hs.indir2, hs.indir3⟩

theorem double_holds : (double S blksz beyond s inode fileblock).caches.Hold S blksz := by
  unfold double
  dsimp only
  split
  · exact ⟨level_holds hS hs.indir1 _ _, hs.indir2, hs.indir3⟩
  · split <;> exact ⟨level_holds hS hs.indir1 _ _, level_holds hS hs.indir2 _ _, hs.indir3⟩

theorem triple_holds : (triple S blksz beyond s inode fileblock).caches.Hold S blksz := by
  unfold triple
  dsimp only
  split
  · exact ⟨level_holds hS hs.indir1 _ _, hs.indir2, hs.indir3⟩
  · split
    · exact ⟨level_holds hS hs.indir1 _ _, level_holds hS hs.indir2 _ _, hs.indir3⟩
    · split <;> exact ⟨level_holds hS hs.indir1 _ _, level_holds hS hs.indir2 _ _,
        level_holds hS hs.indir3 _ _⟩

/-- A lookup keeps the caches, in and out of its range. -/
theorem readAllocatedBlock_holds :
    (readAllocatedBlock S blksz beyond s inode fileblock).caches.Hold S blksz := by
  unfold readAllocatedBlock
  split
  · exact hs
  split
  · exact single_holds hS hs beyond inode fileblock
  split
  · exact double_holds hS hs beyond inode fileblock
  · exact triple_holds hS hs beyond inode fileblock

end Step

/-- A lookup of the history, with what stood behind the cached blocks. -/
structure Request where
  inode : Pointers
  fileblock : ℕ
  beyond : ℕ → ℕ → UInt32

/-- The caches after the lookups of a history, from none on. -/
def cachesAfter (S : Store ℕ ℤ (List UInt8)) (blksz : ℕ) (history : List Request) : Caches :=
  history.foldl (fun s r => (readAllocatedBlock S blksz r.beyond s r.inode r.fileblock).caches)
    ⟨none, none, none⟩

theorem cachesAfter_hold {S : Store ℕ ℤ (List UInt8)} (hS : S.unset = -1) (blksz : ℕ)
    (history : List Request) : (cachesAfter S blksz history).Hold S blksz := by
  have hrun : ∀ (history : List Request) (s : Caches), s.Hold S blksz →
      (history.foldl (fun s r =>
        (readAllocatedBlock S blksz r.beyond s r.inode r.fileblock).caches) s).Hold S blksz := by
    intro history
    induction history with
    | nil => exact fun s hs => hs
    | cons r history ih =>
      exact fun s hs => ih _ (readAllocatedBlock_holds hS hs r.beyond r.inode r.fileblock)
  exact hrun history _ ⟨fun _ h => (nomatch h), fun _ h => (nomatch h), fun _ h => (nomatch h)⟩

/-! ## The walk without caches -/

/-- The pointer a file block starts from, and the words on the way. -/
def pathOf (blksz : ℕ) (inode : Pointers) (fileblock : ℕ) : ℕ × List ℕ :=
  let p := blksz/4
  if fileblock < 12 then ((inode.dirBlocks fileblock).toNat, [])
  else if fileblock < 12+p then (inode.indirBlock.toNat, [fileblock-12])
  else if fileblock < 12+p*(p+1) then
    let r := fileblock-(12+p)
    (inode.doubleIndirBlock.toNat, [r/p, r % p])
  else
    let r := fileblock-(12+p+p*p)
    (inode.tripleIndirBlock.toNat, [r/(p*p), r/p % p, r % p])

/-- The words are followed wherever they lead. -/
def follow (read : ℕ → Option (List UInt8)) : ℕ → List ℕ → Option ℕ
  | a, [] => some a
  | a, i :: is => (read a).bind fun block => follow read (entry block i) is

/-- The standard mapping: a pointer 0 on the way is a hole. -/
def mapped (v : Volume) : ℕ → List ℕ → ℕ
  | a, [] => a
  | a, i :: is => if a = 0 then 0 else mapped v (entry (v.block a) i) is

/-- What the lookup makes of the walk. -/
def resultOf (path : List ℕ) : Option ℕ → ℤ
  | some a => asInt a
  | none => if path.length = 1 then 0 else -1

/-! ## A lookup is the walk -/

section Agree

variable {S : Store ℕ ℤ (List UInt8)} (hS : S.unset = -1) {blksz : ℕ} {s : Caches}
  (hs : s.Hold S blksz) (beyond : ℕ → ℕ → UInt32) (inode : Pointers) (fileblock : ℕ)

theorem wordAt_of_lt {beyond : ℕ → UInt32} {block : List UInt8} {i : ℕ} (h : i < blksz/4) :
    wordAt blksz beyond block i = entry block i := if_pos h

/-- A lookup that gives what the walk gives, by words of the blocks only. -/
structure Agrees (S : Store ℕ ℤ (List UInt8)) (blksz : ℕ) (l : Lookup) (a : ℕ)
    (path : List ℕ) : Prop where
  blknr : l.blknr = resultOf path (follow S.read a path)
  used : ∀ i ∈ l.used, i < blksz/4

theorem resultOf_none {i j : ℕ} (is : List ℕ) : resultOf (i :: j :: is) none = -1 := by
  rw [resultOf]
  exact if_neg (by simp)

include hS

/-- A level of the walk is the cached block of the level. -/
theorem follow_level {cache : Option Cache} (h : Holds S blksz cache) (a i : ℕ) (is : List ℕ) :
    follow S.read a (i :: is) = if (level S blksz cache a a).2 then
      follow S.read (entry (level S blksz cache a a).1.slot.block i) is else none := by
  rw [follow, level_read hS h a]
  split
  · rfl
  · rfl

include hs

theorem single_agrees (h : fileblock-12 < blksz/4) :
    Agrees S blksz (single S blksz beyond s inode fileblock) inode.indirBlock.toNat
      [fileblock-12] := by
  constructor
  · rw [follow_level hS hs.indir1]
    unfold single
    dsimp only
    split
    · next hfail => rw [if_neg (by rw [hfail]; decide)]; rfl
    · next hok => rw [if_pos (Bool.of_not_eq_false hok), wordAt_of_lt h, follow, resultOf]
  · unfold single
    dsimp only
    split <;> simp [h]

theorem double_agrees (h : fileblock-(12+blksz/4) < blksz/4*(blksz/4)) :
    Agrees S blksz (double S blksz beyond s inode fileblock) inode.doubleIndirBlock.toNat
      [(fileblock-(12+blksz/4))/(blksz/4), (fileblock-(12+blksz/4)) % (blksz/4)] := by
  have hp : 0 < blksz/4 := Nat.pos_of_mul_pos_left (Nat.zero_lt_of_lt h)
  have hdiv := Nat.div_lt_of_lt_mul h
  have hmod := Nat.mod_lt (fileblock-(12+blksz/4)) hp
  constructor
  · rw [follow_level hS hs.indir1, follow_level hS hs.indir2]
    unfold double
    dsimp only
    rw [wordAt_of_lt hdiv]
    split
    · next hfail => rw [if_neg (by rw [hfail]; decide), resultOf_none]
    · next hok =>
      rw [if_pos (Bool.of_not_eq_false hok)]
      split
      · next hfail => rw [if_neg (by rw [hfail]; decide), resultOf_none]
      · next hok => rw [if_pos (Bool.of_not_eq_false hok), wordAt_of_lt hmod, follow, resultOf]
  · unfold double
    dsimp only
    split
    · simp
    · split <;> simp [hdiv, hmod]

/-- The rest of the triple range is right where the index that is tested lies in the block. -/
theorem triple_agrees
    (h : fileblock-(12+blksz/4+blksz/4*(blksz/4)) < blksz/4*(blksz/4)) :
    Agrees S blksz (triple S blksz beyond s inode fileblock) inode.tripleIndirBlock.toNat
      [(fileblock-(12+blksz/4+blksz/4*(blksz/4)))/(blksz/4*(blksz/4)),
        (fileblock-(12+blksz/4+blksz/4*(blksz/4)))/(blksz/4) % (blksz/4),
        (fileblock-(12+blksz/4+blksz/4*(blksz/4))) % (blksz/4)] := by
  have hp : 0 < blksz/4 := Nat.pos_of_mul_pos_left (Nat.zero_lt_of_lt h)
  have hfirst : (fileblock-(12+blksz/4+blksz/4*(blksz/4)))/(blksz/4*(blksz/4)) < blksz/4 := by
    rw [Nat.div_eq_of_lt h]
    exact hp
  have hdiv := Nat.div_lt_of_lt_mul h
  have hsame := Nat.mod_eq_of_lt hdiv
  have hmod := Nat.mod_lt (fileblock-(12+blksz/4+blksz/4*(blksz/4))) hp
  rw [hsame]
  constructor
  · rw [follow_level hS hs.indir1, follow_level hS hs.indir2, follow_level hS hs.indir3]
    unfold triple
    dsimp only
    rw [hsame, wordAt_of_lt hfirst, wordAt_of_lt hdiv]
    split
    · next hfail => rw [if_neg (by rw [hfail]; decide), resultOf_none]
    next hok =>
    rw [if_pos (Bool.of_not_eq_false hok)]
    split
    · next hfail => rw [if_neg (by rw [hfail]; decide), resultOf_none]
    next hok =>
    rw [if_pos (Bool.of_not_eq_false hok)]
    split
    · next hfail => rw [if_neg (by rw [hfail]; decide), resultOf_none]
    · next hok => rw [if_pos (Bool.of_not_eq_false hok), wordAt_of_lt hmod, follow, resultOf]
  · unfold triple
    dsimp only
    rw [hsame]
    split
    · simp
    split
    · simp [hfirst]
    split <;> simp [hfirst, hdiv, hmod]

end Agree

/-- Behind it, an index lies outside of the block, or the lookup fails before it. -/
theorem triple_outside (S : Store ℕ ℤ (List UInt8)) {blksz : ℕ} (hp : 0 < blksz/4)
    (beyond : ℕ → ℕ → UInt32) (s : Caches) (inode : Pointers) (fileblock : ℕ)
    (h : blksz/4*(blksz/4) ≤ fileblock-(12+blksz/4+blksz/4*(blksz/4))) :
    (triple S blksz beyond s inode fileblock).blknr = -1 ∨
      ∃ i ∈ (triple S blksz beyond s inode fileblock).used, blksz/4 ≤ i := by
  have hdiv := (Nat.le_div_iff_mul_le hp).2 h
  unfold triple
  dsimp only
  split
  · exact .inl rfl
  split
  · exact .inl rfl
  split
  · exact .inl rfl
  · exact .inr ⟨_, by simp, hdiv⟩

/-! ## The walk and the standard mapping -/

/-- The pointers on the way lie on the volume, those that are 0 apart. -/
def OnVolume (v : Volume) : ℕ → List ℕ → Prop
  | _, [] => True
  | a, i :: is => a ≠ 0 → v.Has a ∧ OnVolume v (entry (v.block a) i) is

/-- The sectors and the block fit, and from a pointer 0 the words of block 0 and of the blocks
they lead to give 0 too. -/
def Straight (v : Volume) : ℕ → List ℕ → Prop
  | a, [] => a < 2^31
  | a, i :: is => if a = 0 then follow v.readBlock 0 (i :: is) = some 0
      else shiftFits v a = true ∧ Straight v (entry (v.block a) i) is

theorem entry_lt (block : List UInt8) (i : ℕ) : entry block i < 2^32 := fieldAt_lt block (4*i) 4

theorem follow_lt {read : ℕ → Option (List UInt8)} {a w : ℕ} {path : List ℕ}
    (h : follow read a path = some w) (ha : a < 2^32) : w < 2^32 := by
  induction path generalizing a with
  | nil => exact Option.some.inj h ▸ ha
  | cons i is ih =>
    rw [follow, Option.bind_eq_some_iff] at h
    obtain ⟨block, -, hrest⟩ := h
    exact ih hrest (entry_lt block i)

section Walk

variable {v : Volume}

theorem follow_of_straight {a : ℕ} {path : List ℕ} (hon : OnVolume v a path)
    (h : Straight v a path) :
    follow v.readBlock a path = some (mapped v a path) ∧ mapped v a path < 2^31 := by
  induction path generalizing a with
  | nil => exact ⟨rfl, h⟩
  | cons i is ih =>
    rw [Straight] at h
    rw [mapped]
    by_cases ha : a = 0
    · rw [if_pos ha] at h ⊢
      rw [ha]
      exact ⟨h, by decide⟩
    · rw [if_neg ha] at h ⊢
      obtain ⟨hhas, hrest⟩ := hon ha
      rw [follow, v.readBlock_eq hhas (of_decide_eq_true h.1)]
      exact ih hrest h.2

theorem read_of_fits {a : ℕ} (hsectors : v.sectors ≤ 2^32) (hhas : v.Has a)
    (h : v.readBlock a ≠ none) : shiftFits v a = true := by
  refine decide_eq_true (not_le.1 fun hhigh => h ?_)
  have hpos : 0 < 2^v.log2Blksz := Nat.two_pow_pos _
  unfold Volume.Has at hhas
  rw [Nat.succ_mul] at hhas
  exact v.readBlock_high hhigh (by omega)

theorem straight_of_follow (hsectors : v.sectors ≤ 2^32) {a w : ℕ} {path : List ℕ}
    (ha : a < 2^32) (hon : OnVolume v a path) (h : follow v.readBlock a path = some w)
    (hw : asInt w = mapped v a path) : Straight v a path := by
  induction path generalizing a with
  | nil =>
    obtain rfl := Option.some.inj h
    exact ((asInt_eq_iff ha).1 hw).2
  | cons i is ih =>
    have hlt := follow_lt h ha
    rw [mapped] at hw
    rw [Straight]
    by_cases hzero : a = 0
    · rw [if_pos hzero] at hw ⊢
      subst hzero
      rw [h, ((asInt_eq_iff hlt).1 hw).1]
    · rw [if_neg hzero] at hw ⊢
      obtain ⟨hhas, hrest⟩ := hon hzero
      have hfits : shiftFits v a = true := by
        refine read_of_fits hsectors hhas fun hnone => ?_
        rw [follow, hnone] at h
        cases h
      rw [follow, v.readBlock_eq hhas (of_decide_eq_true hfits), Option.bind_some] at h
      exact ⟨hfits, ih (entry_lt _ i) hrest h hw⟩

end Walk

/-! ## The lookup of a file -/

/-- The blocks that the pointers of an inode reach. -/
def reach (blksz : ℕ) : ℕ := 12+blksz/4+blksz/4*(blksz/4)+blksz/4*(blksz/4*(blksz/4))

/-- A file with block pointers on a volume. -/
structure File (v : Volume) where
  inode : Pointers
  placed : ∀ fileblock < reach v.blksz,
    OnVolume v (pathOf v.blksz inode fileblock).1 (pathOf v.blksz inode fileblock).2

namespace File

variable {v : Volume} (F : File v)

def blockOf (fileblock : ℕ) : ℕ :=
  mapped v (pathOf v.blksz F.inode fileblock).1 (pathOf v.blksz F.inode fileblock).2

/-- The lookup after a history. -/
def lookup (history : List Request) (beyond : ℕ → ℕ → UInt32) (fileblock : ℕ) : Lookup :=
  readAllocatedBlock v.store v.blksz beyond (cachesAfter v.store v.blksz history) F.inode fileblock

/-- It gives the block of the mapping and takes words of the cached blocks only. -/
def Right (history : List Request) (beyond : ℕ → ℕ → UInt32) (fileblock : ℕ) : Prop :=
  (F.lookup history beyond fileblock).blknr = F.blockOf fileblock ∧
    ∀ i ∈ (F.lookup history beyond fileblock).used, i < v.blksz/4

/-- The file block is none behind the first `perblock_parent` of the triple range, and its way
is straight; or the only block on the way cannot be read and the pointer in it is 0. -/
def Reads (fileblock : ℕ) : Prop :=
  fileblock < 12+v.blksz/4+2*(v.blksz/4*(v.blksz/4)) ∧
    (Straight v (pathOf v.blksz F.inode fileblock).1 (pathOf v.blksz F.inode fileblock).2 ∨
      (pathOf v.blksz F.inode fileblock).2.length = 1 ∧
        v.readBlock (pathOf v.blksz F.inode fileblock).1 = none ∧ F.blockOf fileblock = 0)

theorem words_pos : 0 < v.blksz/4 := by
  rw [Volume.blksz_eq]
  have := Nat.two_pow_pos v.log2Blksz
  omega

theorem agrees (history : List Request) (beyond : ℕ → ℕ → UInt32) {fileblock : ℕ}
    (h : fileblock < 12+v.blksz/4+2*(v.blksz/4*(v.blksz/4))) :
    Agrees v.store v.blksz (F.lookup history beyond fileblock)
      (pathOf v.blksz F.inode fileblock).1 (pathOf v.blksz F.inode fileblock).2 := by
  have hS := store_unset v
  have hs := cachesAfter_hold hS v.blksz history
  have hmul : v.blksz/4*(v.blksz/4+1) = v.blksz/4*(v.blksz/4)+v.blksz/4 := Nat.mul_succ _ _
  unfold lookup readAllocatedBlock pathOf
  dsimp only
  by_cases hdirect : fileblock < 12
  · rw [if_pos hdirect, if_pos hdirect]
    exact ⟨by rw [follow, resultOf], by simp⟩
  rw [if_neg hdirect, if_neg hdirect]
  by_cases hsingle : fileblock < 12+v.blksz/4
  · rw [if_pos hsingle, if_pos hsingle]
    exact single_agrees hS hs beyond F.inode fileblock (by omega)
  rw [if_neg hsingle, if_neg hsingle]
  by_cases hdouble : fileblock < 12+v.blksz/4*(v.blksz/4+1)
  · rw [if_pos hdouble, if_pos hdouble]
    exact double_agrees hS hs beyond F.inode fileblock (by omega)
  · rw [if_neg hdouble, if_neg hdouble]
    exact triple_agrees hS hs beyond F.inode fileblock (by omega)

theorem not_right_behind (history : List Request) (beyond : ℕ → ℕ → UInt32) {fileblock : ℕ}
    (h : 12+v.blksz/4+2*(v.blksz/4*(v.blksz/4)) ≤ fileblock) :
    ¬F.Right history beyond fileblock := by
  have hmul : v.blksz/4*(v.blksz/4+1) = v.blksz/4*(v.blksz/4)+v.blksz/4 := Nat.mul_succ _ _
  have hlookup : F.lookup history beyond fileblock = triple v.store v.blksz beyond
      (cachesAfter v.store v.blksz history) F.inode fileblock := by
    unfold lookup readAllocatedBlock
    rw [if_neg (by omega), if_neg (by omega), if_neg (by omega)]
  rintro ⟨hblknr, hused⟩
  rw [hlookup] at hblknr hused
  rcases triple_outside v.store (words_pos (v := v)) beyond (cachesAfter v.store v.blksz history) F.inode
    fileblock (by omega) with hfail | ⟨i, hi, hout⟩
  · omega
  · exact absurd (hused i hi) (not_lt.2 hout)

theorem reach_le {fileblock : ℕ} (h : fileblock < 12+v.blksz/4+2*(v.blksz/4*(v.blksz/4))) :
    fileblock < reach v.blksz := by
  have hle : v.blksz/4*(v.blksz/4) ≤ v.blksz/4*(v.blksz/4*(v.blksz/4)) :=
    Nat.mul_le_mul_left _ (Nat.le_mul_of_pos_left _ words_pos)
  unfold reach
  omega

theorem right_of_reads (history : List Request) (beyond : ℕ → ℕ → UInt32) {fileblock : ℕ}
    (h : F.Reads fileblock) : F.Right history beyond fileblock := by
  obtain ⟨hrange, hway⟩ := h
  obtain ⟨hblknr, hused⟩ := F.agrees history beyond hrange
  rw [store_read] at hblknr
  refine ⟨hblknr.trans ?_, hused⟩
  rcases hway with hstraight | ⟨hlength, hnone, hzero⟩
  · obtain ⟨hfollow, hlt⟩ := follow_of_straight (F.placed fileblock (reach_le hrange)) hstraight
    rw [hfollow, resultOf, asInt_of_lt (by positivity) (by exact_mod_cast hlt), blockOf]
  · rw [hzero]
    obtain ⟨i, hi⟩ := List.length_eq_one_iff.1 hlength
    rw [hi, follow, hnone, Option.bind_none, resultOf]
    rfl

theorem root_lt (inode : Pointers) (blksz fileblock : ℕ) :
    (pathOf blksz inode fileblock).1 < 2^32 := by
  unfold pathOf
  dsimp only
  split
  · exact (inode.dirBlocks fileblock).toNat_lt
  split
  · exact inode.indirBlock.toNat_lt
  split
  · exact inode.doubleIndirBlock.toNat_lt
  · exact inode.tripleIndirBlock.toNat_lt

theorem reads_of_right (hsectors : v.sectors ≤ 2^32) {history : List Request}
    {beyond : ℕ → ℕ → UInt32} {fileblock : ℕ} (h : F.Right history beyond fileblock) :
    F.Reads fileblock := by
  have hrange : fileblock < 12+v.blksz/4+2*(v.blksz/4*(v.blksz/4)) :=
    not_le.1 fun hle => F.not_right_behind history beyond hle h
  have hblknr := (F.agrees history beyond hrange).blknr.symm.trans h.1
  rw [store_read] at hblknr
  refine ⟨hrange, ?_⟩
  cases hfollow : follow v.readBlock (pathOf v.blksz F.inode fileblock).1
    (pathOf v.blksz F.inode fileblock).2 with
  | some w =>
    rw [hfollow, resultOf] at hblknr
    exact .inl (straight_of_follow hsectors (root_lt _ _ _) (F.placed fileblock (reach_le hrange))
      hfollow hblknr)
  | none =>
    rw [hfollow, resultOf] at hblknr
    split at hblknr
    · next hlength =>
      obtain ⟨i, hi⟩ := List.length_eq_one_iff.1 hlength
      rw [hi, follow] at hfollow
      refine .inr ⟨hlength, ?_, by exact_mod_cast hblknr.symm⟩
      cases hread : v.readBlock (pathOf v.blksz F.inode fileblock).1 with
      | none => rfl
      | some block =>
        rw [hread] at hfollow
        cases hfollow
    · omega

/-- After every history a lookup gives the block of the standard mapping, and takes no word
outside of a cached block, exactly where the file block is read by a straight way. -/
theorem right_iff (F : File v) (history : List Request) (beyond : ℕ → ℕ → UInt32)
    (fileblock : ℕ) :
    (F.Reads fileblock → F.Right history beyond fileblock) ∧
      (v.sectors ≤ 2^32 → F.Right history beyond fileblock → F.Reads fileblock) :=
  ⟨F.right_of_reads history beyond, fun hsectors => F.reads_of_right hsectors⟩

end File

/-! ## A hole in front of a block 0 that is not empty -/

def holeVolume : Volume := ⟨0, log2_zero_le, 16, fun a => if a = 0 then 7 else 0⟩

def holeInode : Pointers := ⟨fun _ => 0, 0, 0, 0⟩

theorem hole_placed (fileblock : ℕ) (_ : fileblock < reach holeVolume.blksz) :
    OnVolume holeVolume (pathOf holeVolume.blksz holeInode fileblock).1
      (pathOf holeVolume.blksz holeInode fileblock).2 := by
  have hroot : (pathOf holeVolume.blksz holeInode fileblock).1 = 0 := by
    unfold pathOf
    dsimp only
    split_ifs <;> rfl
  rw [hroot]
  cases (pathOf holeVolume.blksz holeInode fileblock).2 with
  | nil => trivial
  | cons i is => exact fun h => absurd rfl h

def holeFile : File holeVolume := ⟨holeInode, hole_placed⟩

/-- The first block behind the direct ones is a hole, and what is given is a word of block 0. -/
theorem hole_read_from_block_zero :
    (holeFile.lookup [] (fun _ _ => 0) 12).blknr = 7 ∧ holeFile.blockOf 12 = 0 := by
  decide +kernel

end UBoot.Ext4
