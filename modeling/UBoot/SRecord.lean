import Mathlib.Data.UInt
import UBoot.HexText

/-!
# S-records: `common/s_record.c` and `common/cmd_load.c`

A line is read from memory: a list of characters that ends with its terminator,
and a read behind the terminator has no result. An `ulong` has 32 bits, and so
has an address. The console is not redirected and echoes nothing that matters;
`ctrlc` is asked after each record that is written.
-/

set_option autoImplicit false

namespace UBoot.SRecord
open UBoot.HexText

abbrev Memory := UInt32 → UInt8

/-- `memcpy` to an address; behind the last address comes the first one. -/
def copy (mem : Memory) (dest : UInt32) (bytes : List UInt8) : Memory := fun x =>
  bytes.getD (x-dest).toNat (mem x)

def load (mem : Memory) (src : UInt32) (n : ℕ) : List UInt8 :=
  (List.range n).map fun i => mem (src+UInt32.ofNat i)

def srecStart : ℤ := 0
def srecData2 : ℤ := 1
def srecData3 : ℤ := 2
def srecData4 : ℤ := 3
def srecCount : ℤ := 5
def srecEnd4 : ℤ := 7
def srecEnd3 : ℤ := 8
def srecEnd2 : ℤ := 9
def srecEmpty : ℤ := 10
def srecEBadtype : ℤ := -1
def srecENosrec : ℤ := -2
def srecEBadchks : ℤ := -3
def srecMaxreclen : ℕ := 512+4

/-! ## Decoding -/

def hex1Bin (c : UInt8) : ℤ :=
  if 48 ≤ c ∧ c ≤ 57 then c.toNat-48
  else if 97 ≤ c ∧ c ≤ 102 then c.toNat+10-97
  else if 65 ≤ c ∧ c ≤ 70 then c.toNat+10-65
  else -1

/-- The second character is read only behind a digit. -/
def hex2Bin : List UInt8 → Option ℤ
  | [] => none
  | c :: s =>
    let i := hex1Bin c
    if i < 0 then some (-1)
    else match s with
      | [] => none
      | c :: _ =>
        let j := hex1Bin c
        if j < 0 then some (-1) else some (i*16+j)

/-- A row of `n` bytes, as far as there are digits, with whether they are all there and what
comes behind them. -/
@[grind]
def hexBytes : ℕ → List UInt8 → Option (List UInt8 × Bool × List UInt8)
  | 0, input => some ([], true, input)
  | n+1, input => do
    let v ← hex2Bin input
    if v < 0 then some ([], false, input)
    else
      let r ← hexBytes n (input.drop 2)
      some (UInt8.ofNat v.toNat :: r.1, r.2)

/-- The input behind the first `S`, or at the terminator. -/
@[grind]
def skipStart : List UInt8 → Option (List UInt8)
  | [] => none
  | c :: input => if c = 0 then some (c :: input) else if c = 83 then some input else skipStart input

/-- The type of a record and its number of data bytes, from the character behind the `S` and the
count field. -/
def recordType (v : UInt8) (count : ℤ) : Option (ℤ × ℤ) :=
  match v with
  | 48 => some (srecStart, count-3)
  | 49 => some (srecData2, count-3)
  | 50 => some (srecData3, count-4)
  | 51 => some (srecData4, count-5)
  | 53 => some (srecCount, 0)
  | 55 => some (srecEnd4, count-5)
  | 56 => some (srecEnd3, count-4)
  | 57 => some (srecEnd2, count-3)
  | _ => none

/-- The bytes of the address field, by the case at which its reading starts. -/
def addressBytes (v : UInt8) : ℕ :=
  if v = 51 ∨ v = 55 then 4 else if v = 50 ∨ v = 56 then 3 else 2

def addressOf (bytes : List UInt8) : UInt32 := bytes.foldl (fun addr v => addr*256+v.toUInt32) 0

/-- The result with what has been stored through the pointers; `data` are the bytes from the
start of the buffer on. -/
structure Decoded where
  type : ℤ
  count : ℤ
  addr : UInt32
  data : List UInt8
  deriving DecidableEq

/-- `count` and `addr` are what the pointers lead to before the call. -/
def srecDecode (input : List UInt8) (count : ℤ) (addr : UInt32) : Option Decoded := do
  let input ← skipStart input
  match input with
  | [] => none
  | v :: input =>
    if v = 0 then some ⟨srecEmpty, count, addr, []⟩
    else
      let field ← hex2Bin input
      if field < 0 then some ⟨srecENosrec, field, addr, []⟩
      else match recordType v field with
        | none => some ⟨srecEBadtype, field, addr, []⟩
        | some (type, count) =>
          let address ← hexBytes (addressBytes v) (input.drop 2)
          let addr := addressOf address.1
          if address.2.1 = false then some ⟨srecENosrec, count, addr, []⟩
          else
            let data ← hexBytes count.toNat address.2.2
            if data.2.1 = false then some ⟨srecENosrec, count, addr, data.1⟩
            else
              let v ← hex2Bin data.2.2
              let chksum := UInt8.ofNat field.toNat+address.1.sum+data.1.sum
              if v < 0 then some ⟨srecENosrec, count, addr, data.1⟩
              else if UInt8.ofNat v.toNat ≠ ~~~chksum then some ⟨srecEBadchks, count, addr, data.1⟩
              else some ⟨type, count, addr, data.1⟩

/-! ## Loading -/

/-- A line of at most `len` characters and what comes behind it; `none` in its place stands for
the result -1. Without a character more the reading goes on. -/
@[grind]
def readRecord : ℕ → List UInt8 → Option (Option (List UInt8) × List UInt8)
  | 0, input => some (some [], input)
  | _+1, [] => none
  | len+1, c :: input =>
    if c = 13 ∨ c = 10 then some (some [], input)
    else if c = 0 ∨ c = 3 then some (none, input)
    else (readRecord len input).map fun r => (r.1.map (c :: ·), r.2)

/-- `flash_info` and `flash_write`: whether an address is one of the flash, and the memory after
a write there or its error. -/
structure Flash where
  addr2info : UInt32 → Bool
  write : Memory → List UInt8 → UInt32 → Except ℤ Memory

structure Loading where
  mem : Memory
  startAddr : UInt32
  endAddr : UInt32
  binlen : ℤ
  addr : UInt32

/-- What `load_serial` returns, with the memory and the size that it sets `filesize` to. -/
structure Loaded where
  rval : UInt32
  mem : Memory
  size : Option UInt32

def failed : UInt32 := 4294967295

/-- The store of a data record; a negative length has no result. -/
def storeRecord (flash : Flash) (s : Loading) (data : List UInt8) (storeAddr : UInt32) :
    Option (Except ℤ Memory) :=
  if flash.addr2info storeAddr then some (flash.write s.mem data storeAddr)
  else if s.binlen < 0 then none
  else some (.ok (copy s.mem storeAddr data))

/-- Every turn takes a character, so the characters bound the turns. -/
@[grind]
def loadLoop (flash : Flash) (offset : UInt32) : ℕ → List UInt8 → Loading → Option Loaded
  | 0, _, _ => none
  | turns+1, input, s => do
    let r ← readRecord srecMaxreclen input
    match r.1 with
    | none => some ⟨failed, s.mem, none⟩
    | some line =>
      let d ← srecDecode (line ++ [0]) s.binlen s.addr
      let s := { s with binlen := d.count, addr := d.addr }
      if d.type < 0 then some ⟨failed, s.mem, none⟩
      else if d.type = srecData2 ∨ d.type = srecData3 ∨ d.type = srecData4 then
        let storeAddr := d.addr+offset
        match ← storeRecord flash s d.data storeAddr with
        | .error _ => some ⟨failed, s.mem, none⟩
        | .ok mem =>
          let last := storeAddr+UInt32.ofInt d.count-1
          loadLoop flash offset turns r.2 { s with
            mem := mem
            startAddr := if storeAddr < s.startAddr then storeAddr else s.startAddr
            endAddr := if last > s.endAddr then last else s.endAddr }
      else if d.type = srecEnd2 ∨ d.type = srecEnd3 ∨ d.type = srecEnd4 then
        some ⟨d.addr, s.mem, some (s.endAddr-s.startAddr+1)⟩
      else loadLoop flash offset turns r.2 s

def loadSerial (flash : Flash) (mem : Memory) (offset : UInt32) (input : List UInt8)
    (binlen : ℤ) (addr : UInt32) : Option Loaded :=
  loadLoop flash offset (input.length+1) input ⟨mem, failed, 0, binlen, addr⟩

/-! ## Saving -/

def srecBytesPerRecord : ℕ := 16

/-- `S0030000FC` and `S70500000000FA` with the ends of their lines. -/
def srec3Start : List UInt8 := [83, 48, 48, 51, 48, 48, 48, 48, 70, 67, 10]
def srec3End : List UInt8 := [83, 55, 48, 53, 48, 48, 48, 48, 48, 48, 48, 48, 70, 65, 10]

/-- `S3%02X%08lX%s%02X` -/
def srec3Record (length : ℕ) (address : UInt32) (data : List UInt8) (checksum : ℕ) : List UInt8 :=
  83 :: 51 :: (pair upperA (UInt8.ofNat length) ++ (pairs upperA (be 4 address.toNat) ++
    (data ++ (pair upperA (UInt8.ofNat checksum) ++ [10]))))

/-- The text that has been written and the result. -/
structure Saved where
  text : List UInt8
  rval : ℤ
  deriving DecidableEq

/-- `write_record` of a text before what comes next. -/
def writeRecord (ctrlc : Bool) (record : List UInt8) (next : Saved) : Saved :=
  if ctrlc then ⟨record, -1⟩ else ⟨record ++ next.text, next.rval⟩

/-- The sum of the bytes of `v` from the low one on. -/
@[grind]
def byteSum : ℕ → ℕ → ℕ
  | 0, _ => 0
  | n+1, v => v % 256+byteSum n (v/256)

/-- `n` records have been written before. The digits of the bytes that are collected stand in
`data`, and `reclen` counts them. -/
@[grind]
def saveLoop (ctrlc : ℕ → Bool) (mem : Memory) :
    ℕ → ℕ → UInt32 → ℕ → ℕ → List UInt8 → Saved
  | 0, n, _, _, _, _ => writeRecord (ctrlc n) srec3End ⟨[], 0⟩
  | count+1, n, address, reclen, checksum, data =>
    let c := mem (address+UInt32.ofNat reclen)
    let checksum := checksum+c.toNat
    let data := data ++ pair upperA c
    let reclen := reclen+1
    if reclen = srecBytesPerRecord ∨ count = 0 then
      let length := 4+reclen+1
      let checksum := checksum+byteSum 2 length+byteSum 4 address.toNat
      writeRecord (ctrlc n) (srec3Record length address data (255-checksum % 256))
        (saveLoop ctrlc mem count (n+1) (address+UInt32.ofNat reclen) 0 0 [])
    else saveLoop ctrlc mem count n address reclen checksum data

def saveSerial (ctrlc : ℕ → Bool) (mem : Memory) (address count : UInt32) : Saved :=
  writeRecord (ctrlc 0) srec3Start (saveLoop ctrlc mem count.toNat 1 address 0 0 [])

/-- What a driver of the console puts on the line: many send a carriage return in front of the
end of a line. -/
def wire (carriage : Bool) (text : List UInt8) : List UInt8 :=
  text.flatMap fun c => if carriage ∧ c = 10 then [13, 10] else [c]

end UBoot.SRecord
