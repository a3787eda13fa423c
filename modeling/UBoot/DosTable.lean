import Mathlib.Tactic

/-!
# DOS partition tables

A table holds four entries. An extended entry leads to another table, whose
sector is counted from the first extended partition. One walk prints every
partition and one looks for a number; both count partitions on their way.
The numbers are unbounded here: a walk would need 2^29 nested calls, each with
a sector of its own on the stack, before the C `int` could overflow.
-/

set_option autoImplicit false

namespace UBoot.DosTable

abbrev Block := ℕ → UInt8

inductive IfType
  | ide
  | sata
  | atapi
  | scsi
  | usb
  | doc
  | other
  deriving DecidableEq, Repr

structure BlockDev where
  ifType : IfType
  dev : ℕ
  /-- `block_read` of one block, which may fail. -/
  blockRead : UInt32 → Option Block

structure Entry where
  bootInd : UInt8
  sysInd : UInt8
  start4 : UInt32
  size4 : UInt32
  deriving DecidableEq, Repr

def le32ToInt (b : Block) (a : ℕ) : UInt32 :=
  (b (a+3)).toUInt32 <<< 24+(b (a+2)).toUInt32 <<< 16+(b (a+1)).toUInt32 <<< 8+(b a).toUInt32

def isExtended (partType : UInt8) : Bool := partType == 0x5 || partType == 0xf || partType == 0x85

def isBootable (p : Entry) : Bool := p.bootInd == 0x80

def partMagicOffset : ℕ := 0x1fe
def partTblOffset : ℕ := 0x1be
def partDisksigOffset : ℕ := 0x1b8
def pbrFstypeOffset : ℕ := 0x36
def pbr32FstypeOffset : ℕ := 0x52

def entry (b : Block) (i : ℕ) : Entry :=
  let a := partTblOffset+16*i
  ⟨b a, b (a+4), le32ToInt b (a+8), le32ToInt b (a+12)⟩

def entries (b : Block) : List Entry := [entry b 0, entry b 1, entry b 2, entry b 3]

def signed (b : Block) : Bool := b partMagicOffset == 0x55 && b (partMagicOffset+1) == 0xaa

/-- The test `strncmp(&buffer[a], text, n) == 0` for a text without NUL. -/
def textAt (b : Block) (a : ℕ) : List UInt8 → Bool
  | [] => true
  | c :: text => b a == c && textAt b (a+1) text

inductive BlockType
  | unsigned
  | mbr
  | pbr
  deriving DecidableEq, Repr

def testBlockType (b : Block) : BlockType :=
  if !signed b then .unsigned
  -- `FAT` of a FAT12 or FAT16 boot sector, `FAT32` of a FAT32 one
  else if textAt b pbrFstypeOffset [70, 65, 84]
      || textAt b pbr32FstypeOffset [70, 65, 84, 51, 50] then .pbr
  else .mbr

/-- The sectors a call is given: its table's and the one extended entries count from. -/
structure Place where
  sector : UInt32
  relative : UInt32
  deriving DecidableEq, Repr

/-- The call for an extended entry. -/
def Place.follow (s : Place) (p : Entry) : Place :=
  let lbaStart := p.start4+s.relative
  ⟨lbaStart, if s.sector = 0 then lbaStart else s.relative⟩

/-- The fdisk part# assignment rule. -/
def counts (sector : UInt32) (p : Entry) : Bool :=
  sector == 0 || (p.sysInd != 0 && !isExtended p.sysInd)

def nextNum (sector : UInt32) (p : Entry) (partNum : ℤ) : ℤ :=
  if counts sector p then partNum+1 else partNum

/-! ## Listing -/

/-- What `print_one_part` prints. -/
structure Line where
  partNum : ℤ
  lbaStart : UInt32
  lbaSize : UInt32
  disksig : UInt32
  sysInd : UInt8
  extd : Bool
  boot : Bool
  deriving DecidableEq, Repr

inductive Printed
  | part (l : Line)
  | cantRead (dev : ℕ) (sector : UInt32)
  | badSignature (first second : UInt8)
  deriving DecidableEq, Repr

structure Listing where
  out : List Printed
  reads : ℕ
  deriving DecidableEq, Repr

def Listing.append (l r : Listing) : Listing := ⟨l.out ++ r.out, l.reads+r.reads⟩

def printOnePart (p : Entry) (sector : UInt32) (partNum : ℤ) (disksig : UInt32) : Line :=
  { partNum, lbaStart := sector+p.start4, lbaSize := p.size4, disksig, sysInd := p.sysInd,
    extd := isExtended p.sysInd, boot := isBootable p }

def listed (sector : UInt32) (p : Entry) : Bool :=
  p.sysInd != 0 && (sector == 0 || !isExtended p.sysInd)

def printTable (sector disksig : UInt32) : List Entry → ℤ → List Line
  | [], _ => []
  | p :: ps, partNum =>
    let rest := printTable sector disksig ps (nextNum sector p partNum)
    if listed sector p then printOnePart p sector partNum disksig :: rest else rest

/-- The number left when a table has been gone through. -/
def numAfter (sector : UInt32) : List Entry → ℤ → ℤ
  | [], partNum => partNum
  | p :: ps, partNum => numAfter sector ps (nextNum sector p partNum)

/-- The second loop of `print_partition_extended`, over the calls it makes. -/
def printBelow (walk : Place → Option Listing) (s : Place) : List Entry → Option Listing
  | [] => some ⟨[], 0⟩
  | p :: ps =>
    if isExtended p.sysInd then
      match walk (s.follow p), printBelow walk s ps with
      | some l, some r => some (l.append r)
      | _, _ => none
    else printBelow walk s ps

/-- The recursion is cut off at a depth; without a result it was deeper. -/
@[grind]
def printPartitionExtended (d : BlockDev) : ℕ → Place → ℤ → UInt32 → Option Listing
  | 0, _, _, _ => none
  | depth+1, s, partNum, disksig =>
    match d.blockRead s.sector with
    | none => some ⟨[.cantRead d.dev s.sector], 1⟩
    | some b =>
      if testBlockType b ≠ .mbr then
        some ⟨[.badSignature (b partMagicOffset) (b (partMagicOffset+1))], 1⟩
      else
        let disksig := if s.sector = 0 then le32ToInt b partDisksigOffset else disksig
        let lines := printTable s.sector disksig (entries b) partNum
        let partNum := numAfter s.sector (entries b) partNum
        (printBelow (fun t => printPartitionExtended d depth t partNum disksig) s (entries b)).map
          (Listing.append ⟨lines.map .part, 1⟩)

def printPartDos (d : BlockDev) (depth : ℕ) : Option Listing :=
  printPartitionExtended d depth ⟨0, 0⟩ 1 0

/-! ## Lookup -/

structure Info where
  blksz : ℕ
  start : UInt32
  size : UInt32
  name : String
  type : String
  bootable : Bool
  /-- The two numbers of the text `%08x-%02x`. -/
  uuid : UInt32 × ℤ
  deriving DecidableEq, Repr

structure Lookup where
  info : Option Info
  out : List Printed
  reads : ℕ
  deriving DecidableEq, Repr

def driveText : IfType → String
  | .ide => "hd"
  | .sata => "hd"
  | .atapi => "hd"
  | .scsi => "sd"
  | .usb => "usbd"
  | .doc => "docd"
  | .other => "xx"

def fillInfo (d : BlockDev) (sector disksig : UInt32) (p : Entry) (partNum : ℤ) : Info where
  blksz := 512
  start := sector+p.start4
  size := p.size4
  name := driveText d.ifType ++ (Char.ofNat (97+d.dev)).toString ++ toString partNum
  type := "U-Boot"
  bootable := isBootable p
  uuid := (disksig, partNum)

def plainFlag (p : Entry) : Bool := p.bootInd &&& ~~~0x80 == 0

def findTable (d : BlockDev) (sector disksig : UInt32) (whichPart : ℤ) :
    List Entry → ℤ → Option Info
  | [], _ => none
  | p :: ps, partNum =>
    if plainFlag p ∧ p.sysInd ≠ 0 ∧ partNum = whichPart ∧ !isExtended p.sysInd then
      some (fillInfo d sector disksig p partNum)
    else findTable d sector disksig whichPart ps (nextNum sector p partNum)

@[grind]
def getPartitionInfoExtended (d : BlockDev) (whichPart : ℤ) :
    ℕ → Place → ℤ → UInt32 → Option Lookup
  | 0, _, _, _ => none
  | depth+1, s, partNum, disksig =>
    match d.blockRead s.sector with
    | none => some ⟨none, [.cantRead d.dev s.sector], 1⟩
    | some b =>
      if !signed b then
        some ⟨none, [.badSignature (b partMagicOffset) (b (partMagicOffset+1))], 1⟩
      else
        let disksig := if s.sector = 0 then le32ToInt b partDisksigOffset else disksig
        match findTable d s.sector disksig whichPart (entries b) partNum with
        | some info => some ⟨some info, [], 1⟩
        | none =>
          -- only the first extended entry is followed
          match (entries b).find? (isExtended ·.sysInd) with
          | none => some ⟨none, [], 1⟩
          | some p =>
            (getPartitionInfoExtended d whichPart depth (s.follow p)
              (numAfter s.sector (entries b) partNum) disksig).map
              fun r => { r with reads := r.reads+1 }

def getPartitionInfoDos (d : BlockDev) (depth : ℕ) (part : ℤ) : Option Lookup :=
  getPartitionInfoExtended d part depth ⟨0, 0⟩ 1 0

end UBoot.DosTable
