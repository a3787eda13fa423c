import UBoot.ByteStore
import UBoot.Crc32
import UBoot.LittleEndian

/-!
# The partition table of a disk: `disk/part_efi.c`

The header and the entries are the bytes that stand on the disk. A disk is a
memory of bytes that is read and written in blocks; an access outside of it
fails, and a write may fail for other reasons. The protective record is filled
into memory that the allocation does not cover, so it has what stood there.
-/

set_option autoImplicit false

namespace UBoot.Gpt
open UBoot.ByteStore UBoot.Crc32 UBoot.LittleEndian

/-- `block_dev_desc_t`; the number of blocks has 64 bits, and no block is smaller than the
protective record. -/
structure BlockDev where
  blksz : ℕ
  lba : ℕ
  writeFails : ℕ → ℕ → Bool
  blksz_ge : 512 ≤ blksz
  lba_lt : lba < 2^64

def blockWrite (dev : BlockDev) (disk : Memory) (start blkcnt : ℕ) (buffer : List UInt8) :
    Option Memory :=
  if start+blkcnt > dev.lba ∨ dev.writeFails start blkcnt = true then none
  else some (store disk (start*dev.blksz) (buffer.take (blkcnt*dev.blksz)))

def blockRead (dev : BlockDev) (disk : Memory) (start blkcnt : ℕ) : Option (List UInt8) :=
  if start+blkcnt > dev.lba then none
  else some (load disk (start*dev.blksz) (blkcnt*dev.blksz))

def blockCnt (dev : BlockDev) (size : ℕ) : ℕ := (size-1)/dev.blksz+1

/-- A zeroed buffer of whole blocks with the bytes at its start. -/
def padToBlocksize (dev : BlockDev) (bytes : List UInt8) : List UInt8 :=
  bytes ++ List.replicate (blockCnt dev bytes.length*dev.blksz-bytes.length) 0

def gptHeaderSignature : ℕ := 0x5452415020494645
def gptHeaderRevisionV1 : ℕ := 0x00010000
def gptPrimaryPartitionTableLba : ℕ := 1
def gptEntryNumbers : ℕ := 128
def sizeofGptHeader : ℕ := 92
def sizeofGptEntry : ℕ := 128
def partnameSz : ℕ := 36

structure GptHeader where
  signature : ℕ
  revision : ℕ
  headerSize : ℕ
  headerCrc32 : ℕ
  myLba : ℕ
  alternateLba : ℕ
  firstUsableLba : ℕ
  lastUsableLba : ℕ
  diskGuid : List UInt8
  partitionEntryLba : ℕ
  numPartitionEntries : ℕ
  sizeofPartitionEntry : ℕ
  partitionEntryArrayCrc32 : ℕ

def GptHeader.bytes (h : GptHeader) : List UInt8 :=
  le 8 h.signature ++ (le 4 h.revision ++ (le 4 h.headerSize ++ (le 4 h.headerCrc32 ++ (le 4 0 ++
  (le 8 h.myLba ++ (le 8 h.alternateLba ++ (le 8 h.firstUsableLba ++ (le 8 h.lastUsableLba ++
  (h.diskGuid ++ (le 8 h.partitionEntryLba ++ (le 4 h.numPartitionEntries ++
  (le 4 h.sizeofPartitionEntry ++ le 4 h.partitionEntryArrayCrc32))))))))))))

/-- The header in a block. -/
def gptHeader (b : List UInt8) : GptHeader :=
  { signature := fieldAt b 0 8, revision := fieldAt b 8 4, headerSize := fieldAt b 12 4,
    headerCrc32 := fieldAt b 16 4, myLba := fieldAt b 24 8, alternateLba := fieldAt b 32 8,
    firstUsableLba := fieldAt b 40 8, lastUsableLba := fieldAt b 48 8,
    diskGuid := (b.drop 56).take 16, partitionEntryLba := fieldAt b 72 8,
    numPartitionEntries := fieldAt b 80 4, sizeofPartitionEntry := fieldAt b 84 4,
    partitionEntryArrayCrc32 := fieldAt b 88 4 }

def efiCrc32 (bytes : List UInt8) : ℕ := (crc32 0 bytes).toNat

/-- `disk_partition_t`: the fields of a request, with the bytes of its two texts. -/
structure DiskPartition where
  start : ℕ
  size : ℕ
  name : List UInt8
  type : List UInt8
  uuid : List UInt8
  start_lt : start < 2^32
  size_lt : size < 2^32
  name_length : name.length = 32
  type_length : type.length = 32

/-! ## Filling -/

def hexDigit (c : UInt8) : Option ℕ :=
  if 48 ≤ c ∧ c ≤ 57 then some (c.toNat-48)
  else if 65 ≤ c ∧ c ≤ 70 then some (c.toNat-55)
  else if 97 ≤ c ∧ c ≤ 102 then some (c.toNat-87)
  else none

/-- `simple_strtoul` to the base 16, up to the first other character. -/
def hexValue (s : List UInt8) : ℕ :=
  (s.takeWhile fun c => (hexDigit c).isSome).foldl (fun v c => v*16+(hexDigit c).getD 0) 0

def stringUuid (uuid : List UInt8) : Option (List UInt8) :=
  if uuid.length ≠ 36 then none
  else if (List.range 36).all fun i =>
      if i = 8 ∨ i = 13 ∨ i = 18 ∨ i = 23 then uuid.getD i 0 == 45
      else (hexDigit (uuid.getD i 0)).isSome then
    some (le 4 (hexValue uuid) ++ le 2 (hexValue (uuid.drop 9)) ++ le 2 (hexValue (uuid.drop 14)) ++
      (le 2 (hexValue (uuid.drop 19))).reverse ++ (le 6 (hexValue (uuid.drop 24))).reverse)
  else none

def partitionBasicDataGuid : List UInt8 :=
  [0xa2, 0xa0, 0xd0, 0xeb, 0xe5, 0xb9, 0x33, 0x44, 0x87, 0xc0, 0x68, 0xb6, 0xb7, 0x26, 0x99, 0xc7]

def partitionSystemGuid : List UInt8 :=
  [0x28, 0x73, 0x2a, 0xc1, 0x1f, 0xf8, 0xd2, 0x11, 0xba, 0x4b, 0x00, 0xa0, 0xc9, 0x3e, 0xc9, 0x3b]

structure GptEntry where
  uniquePartitionGuid : List UInt8
  startingLba : ℕ
  endingLba : ℕ
  partitionName : List UInt8

def GptEntry.bytes (e : GptEntry) : List UInt8 :=
  partitionBasicDataGuid ++ e.uniquePartitionGuid ++ le 8 e.startingLba ++ le 8 e.endingLba ++
    le 8 0 ++ e.partitionName.flatMap fun c => [c, 0]

/-- The sum of a start and a size, and the offset before the end, are kept in 32 bits. The name
is read on into the bytes behind it. -/
def gptFillPte (lastUsableLba : ℕ) : ℕ → List DiskPartition → Option (List GptEntry)
  | _, [] => some []
  | offset, p :: ps =>
    if p.start ≠ 0 ∧ p.start < offset then none
    else
      let starting := if p.start ≠ 0 then p.start else offset
      let offset' := (starting+p.size) % 2^32
      if offset' ≥ lastUsableLba then none
      else do
        let ending :=
          if ps = [] ∧ p.size = 0 then lastUsableLba else (offset'+(2^32-1)) % 2^32
        let guid ← stringUuid p.uuid
        let rest ← gptFillPte lastUsableLba offset' ps
        some (⟨guid, starting, ending, p.name ++ p.type.take 4⟩ :: rest)

def gptFillHeader (dev : BlockDev) (strGuid : List UInt8) : Option GptHeader :=
  (stringUuid strGuid).map fun guid =>
    { signature := gptHeaderSignature, revision := gptHeaderRevisionV1,
      headerSize := sizeofGptHeader, headerCrc32 := 0, myLba := 1,
      alternateLba := (dev.lba+(2^64-1)) % 2^64, firstUsableLba := 34,
      lastUsableLba := (dev.lba+(2^64-34)) % 2^64, diskGuid := guid, partitionEntryLba := 2,
      numPartitionEntries := gptEntryNumbers, sizeofPartitionEntry := sizeofGptEntry,
      partitionEntryArrayCrc32 := 0 }

/-! ## Writing -/

/-- The protective record over what the heap holds. -/
def protectiveMbr (dev : BlockDev) (heap : List UInt8) : List UInt8 :=
  heap.take 450 ++ [0xee] ++ (heap.drop 451).take 3 ++ le 4 1 ++ le 4 dev.lba ++
    (heap.drop 462).take 48 ++ le 2 0xaa55 ++ heap.drop 512

def sealHeader (h : GptHeader) : GptHeader :=
  { h with headerCrc32 := efiCrc32 (h.bytes.take h.headerSize) }

def primaryHeader (h : GptHeader) (gptE : List UInt8) : GptHeader :=
  sealHeader { h with
    partitionEntryArrayCrc32 := efiCrc32 (gptE.take (h.numPartitionEntries*h.sizeofPartitionEntry)) }

/-- The values that are recalculated for the second header. -/
def secondHeader (h : GptHeader) : GptHeader :=
  sealHeader { h with myLba := h.alternateLba, alternateLba := h.myLba, headerCrc32 := 0 }

def writeGptTable (dev : BlockDev) (heap : List UInt8) (h : GptHeader) (gptE : List UInt8)
    (disk : Memory) : Option Memory := do
  let pteBlkCnt := blockCnt dev (h.numPartitionEntries*sizeofGptEntry)
  let disk ← blockWrite dev disk 0 1 (protectiveMbr dev heap)
  let first := primaryHeader h gptE
  let disk ← blockWrite dev disk 1 1 (padToBlocksize dev first.bytes)
  let disk ← blockWrite dev disk 2 pteBlkCnt gptE
  let second := secondHeader first
  let disk ← blockWrite dev disk ((second.lastUsableLba+1) % 2^32) pteBlkCnt gptE
  blockWrite dev disk (second.myLba % 2^32) 1 (padToBlocksize dev second.bytes)

/-- The zeroed array of 128 entries with those that are filled in. -/
def entryArray (dev : BlockDev) (entries : List GptEntry) : List UInt8 :=
  let bytes := entries.flatMap GptEntry.bytes
  padToBlocksize dev (bytes ++ List.replicate (gptEntryNumbers*sizeofGptEntry-bytes.length) 0)

/-- An entry behind the last one of the array is outside of it. -/
def gptRestore (dev : BlockDev) (heap strDiskGuid : List UInt8) (partitions : List DiskPartition)
    (disk : Memory) : Option Memory := do
  let h ← gptFillHeader dev strDiskGuid
  let entries ← gptFillPte h.lastUsableLba (h.firstUsableLba % 2^32) partitions
  if entries.length > gptEntryNumbers then none
  else writeGptTable dev heap h (entryArray dev entries) disk

/-! ## Reading -/

def allocReadGptEntries (dev : BlockDev) (disk : Memory) (h : GptHeader) : Option (List UInt8) :=
  let count := h.numPartitionEntries*h.sizeofPartitionEntry % 2^32
  if count = 0 then none
  else blockRead dev disk h.partitionEntryLba (blockCnt dev count)

/-- The header and the entries, if they are valid. -/
def isGptValid (dev : BlockDev) (disk : Memory) (lba : ℕ) :
    Option (GptHeader × List UInt8) := do
  let b ← blockRead dev disk lba 1
  let h := gptHeader b
  if h.signature ≠ gptHeaderSignature then none
  else if efiCrc32 ((b.take 16 ++ [0, 0, 0, 0] ++ b.drop 20).take h.headerSize) ≠ h.headerCrc32 then
    none
  else if h.myLba ≠ lba then none
  else if h.firstUsableLba > dev.lba then none
  else if h.lastUsableLba > dev.lba then none
  else
    let ptes ← allocReadGptEntries dev disk h
    if efiCrc32 (ptes.take (h.numPartitionEntries*h.sizeofPartitionEntry % 2^32)) ≠
        h.partitionEntryArrayCrc32 then none
    else some (h, ptes)

structure PartitionInfo where
  start : ℕ
  size : ℕ
  blksz : ℕ
  name : List UInt8
  bootable : Bool
  deriving DecidableEq

def isPrint (c : UInt8) : Bool := (32 ≤ c ∧ c ≤ 126) ∨ 160 ≤ c

/-- The low bytes of the name up to the first zero. -/
def printEfiname (pte : List UInt8) : List UInt8 :=
  let chars := (List.range partnameSz).map fun i => pte.getD (56+2*i) 0
  (chars.takeWhile (· ≠ 0)).map fun c => if isPrint c then c else 46

def getPartitionInfoEfi (dev : BlockDev) (disk : Memory) (part : ℕ) : Option PartitionInfo := do
  if part < 1 then none
  else
    let r ← isGptValid dev disk gptPrimaryPartitionTableLba
    let pte := (r.2.drop ((part-1)*sizeofGptEntry)).take sizeofGptEntry
    if part > r.1.numPartitionEntries ∨ pte.take 16 = List.replicate 16 0 then none
    else
      let start := fieldAt pte 32 8 % 2^32
      some
        { start := start
          size := (fieldAt pte 40 8+1+(2^64-start)) % 2^32
          blksz := dev.blksz
          name := printEfiname pte
          bootable := (pte.getD 48 0).toNat/4 % 2 = 1 ∨ pte.take 16 = partitionSystemGuid }

end UBoot.Gpt
