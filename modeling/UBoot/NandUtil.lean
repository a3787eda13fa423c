import UBoot.ByteStore

/-!
# Accesses that skip bad blocks: `drivers/mtd/nand/nand_util.c`

The device is reached through the operations of `struct mtd_info` alone: a read
or a write outside of the device is refused, and each operation may fail as the
chip wants. An address is 64 bits wide, a length and the size of a block 32.
A loop gets a number of turns and has no result when they are used up.
-/

set_option autoImplicit false

namespace UBoot.NandUtil
open UBoot.ByteStore

/-- Blocks and pages have sizes that are powers of two; the size of a block is also kept in
an `int`. -/
structure Nand where
  eraseShift : ℕ
  writeShift : ℕ
  blocks : ℕ
  eraseShift_le : eraseShift ≤ 30
  writeShift_le : writeShift ≤ eraseShift

def Nand.erasesize (d : Nand) : ℕ := 2^d.eraseShift
def Nand.writesize (d : Nand) : ℕ := 2^d.writeShift
def Nand.size (d : Nand) : ℕ := d.blocks*d.erasesize

/-- How a chip behaves: its bad blocks, what an operation that fails leaves behind, and the
status of a read. -/
structure Chip where
  bad : ℕ → Bool
  writeFault : Memory → ℕ → ℕ → Option Memory
  readStatus : ℕ → ℕ → ℤ
  eraseFails : ℕ → Bool

def einval : ℤ := -22
def eio : ℤ := -5
def euclean : ℤ := -117

/-! ## The operations of the device -/

def nandBlockIsbad (d : Nand) (chip : Chip) (offs : ℕ) : ℤ :=
  if offs > d.size then einval else if chip.bad (offs/d.erasesize) then 1 else 0

/-- What a write comes to, with the ranges that it has put on the chip. -/
structure Written where
  rval : ℤ
  length : ℕ
  flash : Memory
  touched : List (ℕ × ℕ)

def nandWrite (d : Nand) (chip : Chip) (flash : Memory) (ofs : ℕ) (buf : List UInt8) : Written :=
  if ofs+buf.length > d.size then ⟨einval, 0, flash, []⟩
  else if buf = [] then ⟨0, 0, flash, []⟩
  else match chip.writeFault flash ofs buf.length with
    | some flash' => ⟨eio, 0, flash', [(ofs, buf.length)]⟩
    | none => ⟨0, buf.length, store flash ofs buf, [(ofs, buf.length)]⟩

structure Read where
  rval : ℤ
  length : ℕ
  data : List UInt8
  touched : List (ℕ × ℕ)

def nandRead (d : Nand) (chip : Chip) (flash : Memory) (ofs len : ℕ) : Read :=
  if ofs+len > d.size then ⟨einval, 0, [], []⟩
  else if len = 0 then ⟨0, 0, [], []⟩
  else ⟨chip.readStatus ofs len, len, load flash ofs len, [(ofs, len)]⟩

/-! ## The length including bad blocks -/

/-- The sum of the lengths is kept in a `size_t`. A turn moves on by a block, so the blocks of
the device bound the turns. -/
@[grind]
def checkSkipLoop (d : Nand) (chip : Chip) (length : ℕ) : ℕ → ℕ → ℕ → ℤ → ℤ
  | 0, _, _, _ => -1
  | turns+1, offset, lenExclBad, ret =>
    if lenExclBad < length then
      if offset ≥ d.size then -1
      else
        let blockStart := offset/d.erasesize*d.erasesize
        let blockOff := offset % d.erasesize
        let blockLen := d.erasesize-blockOff
        if nandBlockIsbad d chip blockStart = 0 then
          checkSkipLoop d chip length turns (offset+blockLen) ((lenExclBad+blockLen) % 2^32) ret
        else checkSkipLoop d chip length turns (offset+blockLen) lenExclBad 1
    else ret

def checkSkipLen (d : Nand) (chip : Chip) (offset length : ℕ) : ℤ :=
  checkSkipLoop d chip length (d.blocks+1) offset 0 0

/-! ## Writing -/

/-- The bytes `0xFF` right below the end of a chunk; `below` of them stand before it. -/
def ffsAt (below : ℕ) (chunk : List UInt8) : ℕ :=
  let trailing := (chunk.reverse.takeWhile (· = 255)).length
  if trailing = chunk.length then below+chunk.length else trailing

/-- The index of the scan is a `size_t`: it passes the start of the buffer, and wraps. -/
def dropFfs (d : Nand) (below : ℕ) (chunk : List UInt8) : ℕ :=
  let l := (chunk.length+(2^32-ffsAt below chunk % 2^32)) % 2^32
  let l := (l+d.writesize-1) % 2^32/d.writesize*d.writesize
  min l chunk.length

/-- `offset & ~(nand->erasesize - 1)`, where the mask has the 32 bits of the size. -/
def blockOf (d : Nand) (offset : ℕ) : ℕ := offset % 2^32/d.erasesize*d.erasesize

@[grind]
def writeLoop (d : Nand) (chip : Chip) (drop : Bool) :
    ℕ → ℕ → List UInt8 → ℕ → Memory → Option Written
  | _, _, [], _, flash => some ⟨0, 0, flash, []⟩
  | 0, _, _ :: _, _, _ => none
  | turns+1, offset, b :: rest, below, flash =>
    let buf := b :: rest
    let blockOffset := offset % d.erasesize
    if nandBlockIsbad d chip (blockOf d offset) ≠ 0 then
      writeLoop d chip drop turns (offset+(d.erasesize-blockOffset)) buf below flash
    else
      let writeSize :=
        if buf.length < d.erasesize-blockOffset then buf.length else d.erasesize-blockOffset
      let chunk := buf.take writeSize
      let truncated := if drop then dropFfs d below chunk else writeSize
      let w := nandWrite d chip flash offset (chunk.take truncated)
      if w.rval ≠ 0 then some ⟨w.rval, 0, w.flash, w.touched⟩
      else
        (writeLoop d chip drop turns (offset+writeSize) (buf.drop writeSize)
            (ffsAt below chunk) w.flash).map fun r =>
          ⟨r.rval, writeSize+r.length, r.flash, w.touched ++ r.touched⟩

/-- The buffer has `below` bytes `0xFF` in front of it. -/
def nandWriteSkipBad (d : Nand) (chip : Chip) (turns : ℕ) (flash : Memory) (offset : ℕ)
    (buffer : List UInt8) (below : ℕ) (drop : Bool) : Option Written :=
  if offset % d.writesize ≠ 0 then some ⟨einval, 0, flash, []⟩
  else
    let needSkip := checkSkipLen d chip offset buffer.length
    if needSkip < 0 then some ⟨einval, 0, flash, []⟩
    else if needSkip = 0 ∧ drop = false then some (nandWrite d chip flash offset buffer)
    else writeLoop d chip drop turns offset buffer below flash

/-! ## Reading -/

@[grind]
def readLoop (d : Nand) (chip : Chip) (flash : Memory) : ℕ → ℕ → ℕ → Option Read
  | _, _, 0 => some ⟨0, 0, [], []⟩
  | 0, _, _+1 => none
  | turns+1, offset, left+1 =>
    let blockOffset := offset % d.erasesize
    if nandBlockIsbad d chip (blockOf d offset) ≠ 0 then
      readLoop d chip flash turns (offset+(d.erasesize-blockOffset)) (left+1)
    else
      let readLength :=
        if left+1 < d.erasesize-blockOffset then left+1 else d.erasesize-blockOffset
      let s := nandRead d chip flash offset readLength
      if s.rval ≠ 0 ∧ s.rval ≠ euclean then some ⟨s.rval, 0, s.data, s.touched⟩
      else
        (readLoop d chip flash turns (offset+readLength) (left+1-readLength)).map fun r =>
          ⟨r.rval, readLength+r.length, s.data ++ r.data, s.touched ++ r.touched⟩

def nandReadSkipBad (d : Nand) (chip : Chip) (turns : ℕ) (flash : Memory) (offset length : ℕ) :
    Option Read :=
  if offset % d.writesize ≠ 0 then some ⟨einval, 0, [], []⟩
  else
    let needSkip := checkSkipLen d chip offset length
    if needSkip < 0 then some ⟨einval, 0, [], []⟩
    else if needSkip = 0 then
      let s := nandRead d chip flash offset length
      if s.rval = 0 ∨ s.rval = euclean then some ⟨0, s.length, s.data, s.touched⟩
      else some ⟨s.rval, 0, s.data, s.touched⟩
    else readLoop d chip flash turns offset length

/-! ## Erasing -/

/-- What an erase comes to, with the blocks it was tried on. -/
structure Erased where
  rval : ℤ
  flash : Memory
  blocks : List ℕ

@[grind]
def eraseLoop (d : Nand) (chip : Chip) (spread scrub : Bool) (eraseLength : ℕ) :
    ℕ → ℕ → ℕ → Memory → Option Erased
  | 0, _, _, _ => none
  | turns+1, addr, erasedLength, flash =>
    if erasedLength < eraseLength then
      if scrub = false ∧ nandBlockIsbad d chip addr > 0 then
        eraseLoop d chip spread scrub eraseLength turns (addr+d.erasesize)
          (if spread then erasedLength else erasedLength+1) flash
      else if scrub = false ∧ nandBlockIsbad d chip addr < 0 then some ⟨-1, flash, []⟩
      else
        let flash' :=
          if chip.eraseFails addr then flash
          else store flash addr (List.replicate d.erasesize 255)
        (eraseLoop d chip spread scrub eraseLength turns (addr+d.erasesize) (erasedLength+1)
            flash').map fun r =>
          ⟨r.rval, r.flash, addr :: r.blocks⟩
    else some ⟨0, flash, []⟩

def nandEraseOpts (d : Nand) (chip : Chip) (turns : ℕ) (flash : Memory) (offset length : ℕ)
    (spread scrub : Bool) : Option Erased :=
  if offset % d.erasesize ≠ 0 then some ⟨-1, flash, []⟩
  else eraseLoop d chip spread scrub ((length+d.erasesize-1)/d.erasesize % 2^32) turns offset 0 flash

end UBoot.NandUtil
