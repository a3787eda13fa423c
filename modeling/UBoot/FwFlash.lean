import UBoot.BlockMap
import UBoot.PowerCut

/-!
# The environment's flash under Linux: `tools/env/fw_env.c`

`flash_write_buf` reads the erase blocks that the environment lies in, replaces it and writes the
blocks back. On NAND both functions go from one good block to the next; on NOR flash and
SPI-dataflash the whole area is one block. The driver's calls are recorded in order; one that
fails ends the function there.
-/

set_option autoImplicit false

namespace UBoot.FwFlash
open UBoot.ByteStore UBoot.BlockMap UBoot.PowerCut

inductive MtdType where
  | norflash | nandflash | dataflash
  deriving DecidableEq, Repr

/-- An entry of `envdevices`. -/
structure Envdev where
  devoff : ℕ
  eraseSize : ℕ
  envSectors : ℕ
  mtdType : MtdType
  eraseSize_pos : 0 < eraseSize

/-- What a function asks the driver to do. -/
inductive Call where
  | read (offset len : ℕ)
  | erase (offset len : ℕ)
  | write (offset : ℕ) (bytes : List UInt8)
  deriving DecidableEq

/-- The offset and the number of bytes of a call. -/
def Call.range : Call → ℕ × ℕ
  | .read offset len => (offset, len)
  | .erase offset len => (offset, len)
  | .write offset bytes => (offset, bytes.length)

/-- Bits of NOR and NAND flash are set by erasing only. -/
def Call.apply (t : MtdType) : Call → Memory → Memory
  | .read _ _, mem => mem
  | .erase offset len, mem => fun a => if offset ≤ a ∧ a < offset+len then 0xff else mem a
  | .write offset bytes, mem => fun a =>
    if offset ≤ a ∧ a < offset+bytes.length then
      if t = .dataflash then bytes.getD (a-offset) 0 else mem a &&& bytes.getD (a-offset) 0
    else mem a

variable (d : Envdev) (bad : ℕ → Option Bool)

/-- `flash_bad_block`, with `MEMGETBADBLOCK` as a parameter; `none` is a failure. -/
def flashBadBlock (blockstart : ℕ) : Option Bool :=
  if d.mtdType = .nandflash then bad blockstart else some false

/-- The end of the configured sectors. -/
def Envdev.top : ℕ := (d.devoff/d.eraseSize+d.envSectors)*d.eraseSize

/-! ## `flash_read_buf` -/

/-- Offsets and lengths of the calls of `read`, and whether all bytes were read. -/
@[grind]
def readLoop (count top blocklen : ℕ) : ℕ → ℕ → ℕ → ℕ → ℕ → List (ℕ × ℕ) × Bool
  | 0, _, _, _, _ => ([], false)
  | fuel+1, blockstart, seek, readlen, processed =>
    if processed < count then
      match flashBadBlock d bad blockstart with
      | none => ([], false)
      | some isbad =>
        if top < blockstart+seek+readlen then ([], false)
        else if isbad then readLoop count top blocklen fuel (blockstart+blocklen) seek readlen processed
        else
          let r := readLoop count top blocklen fuel (blockstart+blocklen) 0
            (min blocklen (count-(processed+readlen))) (processed+readlen)
          ((blockstart+seek, readlen)::r.1, r.2)
    else ([], true)

def readPieces (count offset : ℕ) : List (ℕ × ℕ) × Bool :=
  let blockstart := offset/d.eraseSize*d.eraseSize
  let seek := offset-blockstart
  if d.mtdType = .nandflash then
    readLoop d bad count d.top d.eraseSize (d.top+2) blockstart seek (min count (d.eraseSize-seek)) 0
  else readLoop d bad count (offset+count) 0 2 blockstart seek count 0

/-- `flash_read_buf`: the calls, and the bytes if it does not fail. -/
def flashReadBuf (mem : Memory) (count offset : ℕ) : List (ℕ × ℕ) × Option (List UInt8) :=
  let r := readPieces d bad count offset
  (r.1, if r.2 then some (r.1.flatMap fun p => load mem p.1 p.2) else none)

/-! ## `flash_write_buf` -/

/-- Bytes in memory, with what lies behind them. -/
def inMemory (heap : ℕ → UInt8) (bytes : List UInt8) : ℕ → UInt8 := fun i => bytes.getD i (heap i)

/-- Erases and writes `erasesize` bytes of the data. -/
def blockCalls (erasesize : ℕ) (data : ℕ → UInt8) (blockstart processed : ℕ) : List Call :=
  (if d.mtdType = .dataflash then [] else [.erase blockstart erasesize]) ++
    [.write blockstart ((List.range' processed erasesize).map data)]

@[grind]
def writeLoop (erasesize writeTotal : ℕ) (data : ℕ → UInt8) : ℕ → ℕ → ℕ → List Call × Bool
  | 0, _, _ => ([], false)
  | fuel+1, blockstart, processed =>
    if processed < writeTotal then
      match flashBadBlock d bad blockstart with
      | none => ([], false)
      | some isbad =>
        if d.top < blockstart+erasesize then ([], false)
        else if isbad then
          writeLoop erasesize writeTotal data fuel (blockstart+d.eraseSize) processed
        else
          let r := writeLoop erasesize writeTotal data fuel (blockstart+d.eraseSize)
            (processed+d.eraseSize)
          (blockCalls d erasesize data blockstart processed ++ r.1, r.2)
    else ([], true)

/-- The whole blocks that `count` bytes at an offset in the first one lie in. -/
def Envdev.writeTotal (seek count : ℕ) : ℕ :=
  (seek+count+d.eraseSize-1)/d.eraseSize*d.eraseSize

/-- The environment in place of what was read. -/
def overlay (old : List UInt8) (seek : ℕ) (buf : List UInt8) : List UInt8 :=
  old.take seek ++ buf ++ old.drop (seek+buf.length)

/-- `flash_write_buf`: the calls, and whether it returns a count. `heap` is the memory of the
data and behind it. -/
def flashWriteBuf (mem : Memory) (heap : ℕ → UInt8) (buf : List UInt8) (offset : ℕ) :
    List Call × Bool :=
  let eraseOffset := offset/d.eraseSize*d.eraseSize
  let eraseLen := d.top-eraseOffset
  let seek := offset-eraseOffset
  let total := d.writeTotal seek buf.length
  let erasesize := if d.mtdType = .nandflash then d.eraseSize else eraseLen
  if buf.length < total then
    let r := flashReadBuf d bad mem total eraseOffset
    let reads := r.1.map fun p => Call.read p.1 p.2
    match r.2 with
    | none => (reads, false)
    | some old =>
      let w := writeLoop d bad erasesize total (inMemory heap (overlay old seek buf)) (d.top+2)
        eraseOffset 0
      (reads ++ w.1, w.2)
  else writeLoop d bad erasesize total (inMemory heap buf) (d.top+2) eraseOffset 0

/-- The flash after `flash_write_buf`. -/
def afterWrite (mem : Memory) (heap : ℕ → UInt8) (buf : List UInt8) (offset : ℕ) : Memory :=
  runAll (Call.apply d.mtdType) (flashWriteBuf d bad mem heap buf offset).1 mem

end UBoot.FwFlash
