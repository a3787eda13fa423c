import UBoot.FatContents

/-!
# Long names: the slots of `fs/fat/fat_write.c` and `fs/fat/fat.c`

A long name goes in front of its entry, in slots of 13 characters that are
numbered down to one. `fill_dir_slot` takes another cluster for a directory
where one is full, and both readers go on in the next one.
-/

set_option autoImplicit false

namespace UBoot.Fat

open ByteStore

/-- The 32 bytes of a `dir_entry` or a `dir_slot`. -/
abbrev Dirent := Memory

/-- The entries in a buffer for a cluster. -/
abbrev Block := ℕ → Dirent

/-! ## One slot -/

/-- The first bytes of the characters in `name0_4`, `name5_10` and `name11_12`. -/
def nameBytes : List ℕ := [1, 3, 5, 7, 9, 14, 16, 18, 20, 22, 24, 28, 30]

/-- "Not used characters are filled with 0xff 0xff" -/
def padSlot : List ℕ → Dirent → Dirent
  | [], slot => slot
  | o::os, slot => padSlot os (Function.update (Function.update slot o 0xff) (o+1) 0xff)

/-- `str2slot`: the slot and the rest of the name; its result is whether nothing is left. -/
@[grind]
def str2slot : List ℕ → List UInt8 → Dirent → Dirent × List UInt8
  | [], name, slot => (slot, name)
  | o::os, [], slot => (padSlot os (Function.update (Function.update slot o 0) (o+1) 0), [])
  | o::os, c::name, slot => str2slot os name (Function.update slot o c)

/-- `slot2str`: the characters in front of a zero byte, and whether there is one. -/
@[grind]
def slot2str : List ℕ → Dirent → List UInt8 × Bool
  | [], _ => ([], false)
  | o::os, slot =>
    if slot o = 0 then ([], true) else (slot o::(slot2str os slot).1, (slot2str os slot).2)

def mkcksum (dent : Dirent) : UInt8 :=
  (List.range 11).foldl (fun ret i => ((ret &&& 1) <<< 7 ||| (ret &&& 0xfe) >>> 1)+dent i) 0

/-- `id`, also the first byte of a short name -/
def slotId (slot : Dirent) : UInt8 := slot 0

def attr (dent : Dirent) : UInt8 := dent 11

/-- `LAST_LONG_ENTRY_MASK` -/
def lastLongEntry : UInt8 := 0x40

/-- `ATTR_VFAT` -/
def attrVfat : UInt8 := 0x0f

/-- The slots of a name, the first part of it first; its `counter` has 8 bits. -/
@[grind]
def slots (checksum : UInt8) : ℕ → UInt8 → List UInt8 → List Dirent
  | 0, _, _ => []
  | fuel+1, counter, name =>
    let r := str2slot nameBytes name fun _ => 0
    let slot := Function.update (Function.update (Function.update r.1 0 (counter+1)) 11 attrVfat) 13
      checksum
    if r.2.isEmpty then [Function.update slot 0 (slot 0 ||| lastLongEntry)]
    else slot::slots checksum fuel (counter+1) r.2

/-! ## The directory that is written -/

/-- The fields of `fsdata` that directories need. -/
structure Dirs extends Table where
  clustSize : ℕ
  clustSize_pos : 0 < clustSize
  sectSize_ge : 512 ≤ sectSize

/-- `get_dentfromdir_block` with the place in it, `dir_curclust`, the clusters of the volume, and
the entries of the FAT. -/
structure Dir where
  block : Block
  dentptr : ℕ
  curclust : ℕ
  clusters : ℕ → Option Block
  fat : ℕ → ℕ

namespace Dirs

variable (v : Dirs)

/-- `DIRENTSPERCLUST` -/
def direntsPerClust : ℕ := v.clustSize*v.sectSize/32

def isNextClust (dentptr : ℕ) : Bool := decide (v.direntsPerClust ≤ dentptr)

/-- An entry that `set_fatent_value` sets: the FAT has it, and not of 12 bits. -/
def Settable (entry : ℕ) : Prop :=
  v.fatsize ≠ .fat12 ∧ (entry+1)*v.entryBits ≤ 8*(v.fatLength*v.sectSize)

instance (entry : ℕ) : Decidable (v.Settable entry) := inferInstanceAs (Decidable (_ ∧ _))

def setFatent (fat : ℕ → ℕ) (entry value : ℕ) : ℕ → ℕ :=
  if v.Settable entry then Function.update fat entry (value % 2^v.entryBits) else fat

/-- "Find the first empty cluster", in `fuel` rounds -/
def findEmptyCluster (fat : ℕ → ℕ) : ℕ → ℕ → ℕ
  | 0, entry => entry
  | fuel+1, entry => if fat entry = 0 then entry else findEmptyCluster fat fuel (entry+1)

/-- `flush_dir_table` where the device takes what is written. -/
def flushDirTable (fuel : ℕ) (d : Dir) : Dir :=
  let dirNewclust := findEmptyCluster d.fat fuel 3
  let fat := v.setFatent d.fat d.curclust dirNewclust
  { block := fun i => if i < v.direntsPerClust then fun _ => 0 else d.block i
    dentptr := 0
    curclust := dirNewclust
    clusters := Function.update d.clusters d.curclust (some d.block)
    fat := match v.fatsize with
      | .fat32 => v.setFatent fat dirNewclust 0xffffff8
      | .fat16 => v.setFatent fat dirNewclust 0xfff8
      | .fat12 => fat }

/-- "A new cluster is allocated for directory table" -/
def nextClust (fuel : ℕ) (d : Dir) : Dir :=
  if v.isNextClust d.dentptr then v.flushDirTable fuel d else d

end Dirs

/-- An entry at the place of the directory. -/
def Dir.put (d : Dir) (dent : Dirent) : Dir :=
  { d with block := Function.update d.block d.dentptr dent }

/-- The entry behind it. -/
def Dir.next (d : Dir) : Dir := { d with dentptr := d.dentptr+1 }

namespace Dirs

variable (v : Dirs)

/-- The loop that copies the slots, the last one first. -/
def copySlots (fuel : ℕ) : List Dirent → Dir → Dir
  | [], d => d
  | slot::rest, d => copySlots fuel rest ((v.nextClust fuel d).put slot).next

def fillDirSlot (fuel : ℕ) (d : Dir) (name : List UInt8) : Dir :=
  let all := slots (mkcksum (d.block d.dentptr)) (name.length+1) 0 name
  v.nextClust fuel (v.copySlots fuel (all.reverse.take (all.length % 256)) d)

/-- `set_name`: the 11 bytes of a short name. -/
def setName (shortName : Memory) (dent : Dirent) : Dirent :=
  fun i => if i < 11 then shortName i else dent i

def fillDentry (shortName : Memory) (dent : Dirent) (startCluster size : ℕ) : Dirent :=
  let dent := match v.fatsize with
    | .fat32 => store dent 20 (LittleEndian.le 2 (startCluster/2^16))
    | _ => dent
  let dent := store dent 26 (LittleEndian.le 2 startCluster)
  let dent := store dent 28 (LittleEndian.le 4 size)
  setName shortName (Function.update dent 11 0x20)

/-- What `do_fat_write` does to the directory for a name that is not there. -/
def writeEntry (fuel : ℕ) (d : Dir) (shortName : Memory) (name : List UInt8)
    (startCluster size : ℕ) : Dir :=
  let d := v.fillDirSlot fuel (d.put (setName shortName (d.block d.dentptr))) name
  let d := d.put (v.fillDentry shortName (d.block d.dentptr) startCluster size)
  { d with clusters := Function.update d.clusters d.curclust (some d.block) }

/-! ## The readers -/

/-- The end of the buffer for a cluster; cluster 0 is for the root directory. -/
def buflimit (curclust : ℕ) : ℕ := v.sectSize*(if curclust = 0 then 2 else v.clustSize)/32

end Dirs

def slotNumber (slot : Dirent) : ℕ := (slotId slot &&& 0xbf).toNat

/-- The slots up to the end of the buffer have the numbers that are due. -/
def matchSlots (block : Block) (limit : ℕ) : ℕ → ℕ → Option (ℕ × ℕ)
  | slotptr, 0 => some (slotptr, 0)
  | slotptr, counter+1 =>
    if slotptr < limit then
      if slotNumber (block slotptr) ≠ counter+1 then none
      else matchSlots block limit (slotptr+1) counter
    else some (slotptr, counter+1)

/-- The same in the next cluster. -/
def matchRest (block : Block) : ℕ → ℕ → Option ℕ
  | slotptr, 0 => some slotptr
  | slotptr, counter+1 =>
    if slotNumber (block slotptr) ≠ counter+1 then none else matchRest block (slotptr+1) counter

/-- The characters of the slots in front of a place in the next cluster, from the back. -/
def textRest (block : Block) : ℕ → List UInt8
  | 0 => []
  | slotptr+1 => (slot2str nameBytes (block slotptr)).1++textRest block slotptr

/-- The characters of the slots in front of a place, from the back to the last slot of a name. -/
def text (block : Block) : ℕ → List UInt8
  | 0 => []
  | slotptr+1 =>
    let r := slot2str nameBytes (block slotptr)
    r.1++if r.2 ∨ slotId (block slotptr) &&& lastLongEntry ≠ 0 then [] else text block slotptr

def toLower (c : UInt8) : UInt8 := if 65 ≤ c ∧ c ≤ 90 then c+32 else c

def downcase (name : List UInt8) : List UInt8 := name.map toLower

/-- A name as the readers leave it: `DELETED_FLAG` ends it, and `aRING` stands for that character. -/
def cleanName : List UInt8 → List UInt8
  | [] => []
  | c::name => if c = 0xe5 then [] else downcase ((if c = 0x05 then 0xe5 else c)::name)

/-- What a reader finds: a name, the next cluster's block where the entry is in it, its place. -/
structure LongName where
  name : List UInt8
  nextBlock : Option Block
  realdent : ℕ

namespace Dirs

variable (v : Dirs)

/-- The body of both readers, which look for the cluster behind `asked`: what they find, and the
cluster they have gone to. -/
def longName (fat : ℕ → ℕ) (clusters : ℕ → Option Block) (asked curclust : ℕ) (block : Block)
    (retdent : ℕ) : Option LongName × Option ℕ :=
  let counter := slotNumber (block retdent)
  if counter > 9 then (none, none)
  else
    match matchSlots block (v.buflimit curclust) retdent counter with
    | none => (none, none)
    | some (slotptr, counter) =>
      if v.buflimit curclust ≤ slotptr then
        if curclust = 0 then (none, none)
        else
          let curclust := fat asked
          if checkClust curclust v.fatsize then (none, none)
          else
            ((clusters curclust).bind fun block2 => (matchRest block2 0 counter).map fun realdent =>
              ⟨cleanName (textRest block2 realdent++text block slotptr), some block2, realdent⟩,
              some curclust)
      else (some ⟨cleanName (text block slotptr), none, slotptr⟩, none)

/-- `get_vfatname`: the name, and the entry that is copied to `retdent`. -/
def getVfatname (fat : ℕ → ℕ) (clusters : ℕ → Option Block) (curclust : ℕ) (block : Block)
    (retdent : ℕ) : Option (List UInt8 × Dirent) :=
  (v.longName fat clusters curclust curclust block retdent).1.map fun r =>
    (r.name, (r.nextBlock.getD block) r.realdent)

/-- `get_long_file_name`: the name, `get_dentfromdir_block` and the place of the entry in it; and
`dir_curclust`. -/
def getLongFileName (fat : ℕ → ℕ) (clusters : ℕ → Option Block) (dirCurclust curclust : ℕ)
    (block : Block) (retdent : ℕ) : Option (List UInt8 × Block × ℕ) × ℕ :=
  let r := v.longName fat clusters dirCurclust curclust block retdent
  (r.1.map fun r => (r.name, r.nextBlock.getD block, r.realdent), r.2.getD dirCurclust)

end Dirs

end UBoot.Fat
