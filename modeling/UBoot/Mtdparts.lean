import UBoot.StableSort
import Mathlib.Data.Nat.Notation

/-!
# MTD partitions

The texts of `cmd_mtdparts.c`: `parse_mtdparts` makes the list of devices and
partitions of a text, `generate_mtdparts` writes the text of a list. The sizes and
offsets of `load_kernel.h` have 32 bits. The table of flash chips is a parameter.
-/

set_option autoImplicit false

namespace UBoot.Mtdparts

abbrev Text := List Char

def w32 (n : ℕ) : ℕ := n % 4294967296

def sizeRemaining : ℕ := 0xffffffff
def offsetNotSpecified : ℕ := 0xffffffff
def minPartSize : ℕ := 4096
def mtdWriteableCmd : ℕ := 1
def mtdpartsMaxlen : ℕ := 512

inductive DevType
  | nor | nand | onenand
deriving DecidableEq, Repr

structure MtdId where
  type : DevType
  num : ℕ
  size : UInt32
  mtdId : Text
deriving DecidableEq, Repr

structure PartInfo where
  name : Text
  autoName : Bool
  size : ℕ
  offset : ℕ
  maskFlags : ℕ
deriving DecidableEq, Repr

structure MtdDevice where
  id : MtdId
  parts : List PartInfo
deriving DecidableEq, Repr

/-- `num_parts` counts in 16 bits. -/
def MtdDevice.numParts (d : MtdDevice) : ℕ := d.parts.length % 65536

structure EraseRegion where
  offset : ℕ
  erasesize : ℕ
  numblocks : ℕ
deriving DecidableEq, Repr

structure MtdInfo where
  size : ℕ
  erasesize : ℕ
  eraseregions : List EraseRegion
deriving DecidableEq, Repr

/-- `get_mtd_info`. -/
abbrev Flash := DevType → ℕ → Option MtdInfo

/-! ## Numbers -/

def isxdigit (c : Char) : Bool :=
  c.isDigit || (decide ('a' ≤ c) && decide (c ≤ 'f')) || (decide ('A' ≤ c) && decide (c ≤ 'F'))

def digitValue (c : Char) : ℕ := if c.isDigit then c.toNat-48 else c.toUpper.toNat-55

@[grind]
def strtoulLoop (base : ℕ) : ℕ → Text → ℕ × Text
  | result, [] => (result, [])
  | result, c::t =>
    if isxdigit c ∧ digitValue c < base then
      strtoulLoop base (w32 (result*base+digitValue c)) t
    else (result, c::t)

def simpleStrtoul (t : Text) (base : ℕ) : ℕ × Text :=
  if t.head? = some '0' then
    if t.tail.head? = some 'x' ∧ t.tail.tail.head?.any isxdigit then strtoulLoop 16 0 t.tail.tail
    else strtoulLoop (if base = 0 then 8 else base) 0 t.tail
  else strtoulLoop (if base = 0 then 10 else base) 0 t

def shift10 (n : ℕ) : ℕ := w32 (n*1024)

@[grind]
def memsizeParse (t : Text) : ℕ × Text :=
  let r := simpleStrtoul t 0
  match r.2 with
  | [] => r
  | c::rest =>
    if c = 'G' ∨ c = 'g' then (shift10 (shift10 (shift10 r.1)), rest)
    else if c = 'M' ∨ c = 'm' then (shift10 (shift10 r.1), rest)
    else if c = 'K' ∨ c = 'k' then (shift10 r.1, rest)
    else r

def sizeGb : ℕ := 1073741824
def sizeMb : ℕ := 1048576
def sizeKb : ℕ := 1024

def memsizeFormat (size : ℕ) : Text :=
  if size % sizeGb = 0 then Nat.toDigits 10 (size/sizeGb) ++ ['g']
  else if size % sizeMb = 0 then Nat.toDigits 10 (size/sizeMb) ++ ['m']
  else if size % sizeKb = 0 then Nat.toDigits 10 (size/sizeKb) ++ ['k']
  else Nat.toDigits 10 size

def hex12 (n : ℕ) : Text := List.leftpad 12 '0' (Nat.toDigits 16 n)

/-- The generated name is cut behind 21 of its 29 characters. -/
def generatedName (size offset : ℕ) : Text :=
  (['0', 'x'] ++ hex12 size ++ ['@', '0', 'x'] ++ hex12 offset).take 21

/-! ## One partition -/

def fetchSize (t : Text) : Option (ℕ × Text) :=
  if t.head? = some '-' then some (sizeRemaining, t.tail)
  else if (memsizeParse t).1 < minPartSize then none
  else some (memsizeParse t)

def fetchOffset (t : Text) : ℕ × Text :=
  if t.head? = some '@' then memsizeParse t.tail else (offsetNotSpecified, t)

def fetchName (t : Text) : Option (Option Text × Text) :=
  if t.head? = some '(' then
    let name := t.tail.takeWhile (· ≠ ')')
    match t.tail.dropWhile (· ≠ ')') with
    | [] => none
    | _::rest => if name = [] then none else some (some name, rest)
  else some (none, t)

def fetchFlags (t : Text) : ℕ × Text :=
  if t.take 2 = ['r', 'o'] then (mtdWriteableCmd, t.drop 2) else (0, t)

def fetchEnd (size : ℕ) (t : Text) : Option Text :=
  match t with
  | [] => some []
  | c::rest =>
    if c = ',' then if size = sizeRemaining then none else some rest
    else if c = ';' then some (c::rest)
    else none

def partParse (partdef : Text) : Option (PartInfo × Text) := do
  let size ← fetchSize partdef
  let offset := fetchOffset size.2
  let name ← fetchName offset.2
  let flags := fetchFlags name.2
  let rest ← fetchEnd size.1 flags.2
  return (⟨name.1.getD (generatedName size.1 offset.1), name.1.isNone, size.1, offset.1, flags.1⟩,
    rest)

def blockStarts (r : EraseRegion) : List ℕ :=
  (List.range r.numblocks).map (fun j => w32 (r.offset+j*r.erasesize))

/-- Where the last loop over the erase regions leaves `start`. -/
def lastStart (regions : List EraseRegion) : ℕ :=
  match regions.getLast? with
  | none => 0
  | some r => w32 (r.offset+r.numblocks*r.erasesize)

def partValidateEraseblock (flash : Flash) (id : MtdId) (p : PartInfo) : Bool :=
  match flash id.type id.num with
  | none => false
  | some mtd =>
    if mtd.eraseregions = [] then p.offset % mtd.erasesize = 0 && p.size % mtd.erasesize = 0
    else p.offset ∈ mtd.eraseregions.flatMap blockStarts &&
      (w32 (p.offset+p.size) ∈ mtd.eraseregions.flatMap blockStarts ||
        w32 (p.offset+p.size) = lastStart mtd.eraseregions)

def fillUp (id : MtdId) (part : PartInfo) : PartInfo :=
  if part.size = sizeRemaining then
    { part with size := w32 (id.size.toNat+(4294967296-part.offset)) }
  else part

def partValidate (flash : Flash) (id : MtdId) (part : PartInfo) : Option PartInfo :=
  let p := fillUp id part
  if id.size.toNat < p.offset then none
  else if w32 (p.offset+p.size) ≤ p.offset then none
  else if id.size.toNat < w32 (p.offset+p.size) then none
  else if partValidateEraseblock flash id p then some p
  else none

@[grind]
def partSortAdd (part : PartInfo) : List PartInfo → Option (List PartInfo)
  | [] => some [part]
  | p::parts =>
    if part.offset = p.offset ∧ p.offset = 0 then none
    else if part.offset ≤ p.offset then some (part::p::parts)
    else (partSortAdd part parts).map (p::·)

def partAdd (flash : Flash) (dev : MtdDevice) (part : PartInfo) : Option MtdDevice := do
  let p ← partValidate flash dev.id part
  let parts ← partSortAdd p dev.parts
  return { dev with parts := parts }

/-! ## Devices -/

def deviceFind (devices : List MtdDevice) (type : DevType) (num : ℕ) : Option MtdDevice :=
  devices.find? (fun d => d.id.type = type ∧ d.id.num = num)

def idFindByMtdId (ids : List MtdId) (mtdId : Text) : Option MtdId :=
  ids.find? (fun id => id.mtdId = mtdId)

/-- The loop of `device_parse` over the partitions. -/
@[grind]
def parseParts (flash : Flash) (id : MtdId) : ℕ → ℕ → Text → Option (List PartInfo × Text)
  | 0, _, _ => none
  | n+1, offset, t =>
    if t = [] ∨ t.head? = some ';' then some ([], t)
    else do
      let r ← partParse t
      let p ← partValidate flash id
        { r.1 with offset := if r.1.offset = offsetNotSpecified then w32 offset else r.1.offset }
      let ps ← parseParts flash id n (p.offset+p.size) r.2
      return (p::ps.1, ps.2)

/-- Where the partitions of a device in the list end. -/
def startOffset (devices : List MtdDevice) (id : MtdId) : ℕ :=
  match deviceFind devices id.type id.num with
  | none => 0
  | some d =>
    match d.parts.getLast? with
    | none => 0
    | some p => w32 (p.offset+p.size)

def sortAddAll (parts : List PartInfo) : Option (List PartInfo) :=
  parts.foldlM (fun acc p => partSortAdd p acc) []

def deviceParse (flash : Flash) (ids : List MtdId) (devices : List MtdDevice) (mtdDev : Text) :
    Option (MtdDevice × Text) :=
  match mtdDev.dropWhile (· ≠ ':') with
  | [] => none
  | _::t => do
    let id ← idFindByMtdId ids (mtdDev.takeWhile (· ≠ ':'))
    let ps ← parseParts flash id (t.length+1) (startOffset devices id) t
    if ps.1.length % 65536 = 0 then none
    else do
      let parts ← sortAddAll ps.1
      return (⟨id, parts⟩, ps.2.tail)

@[grind]
def parseDevices (flash : Flash) (ids : List MtdId) :
    ℕ → List MtdDevice → Text → Option (List MtdDevice)
  | 0, _, _ => none
  | n+1, devices, t =>
    if t = [] then some devices
    else do
      let r ← deviceParse flash ids devices t
      if (deviceFind devices r.1.id.type r.1.id.num).isSome then none
      else parseDevices flash ids n (devices ++ [r.1]) r.2

def mtdpartsTag : Text := ['m', 't', 'd', 'p', 'a', 'r', 't', 's', '=']

/-- What `parse_mtdparts` returns and the list of devices it leaves. -/
def parseMtdparts (flash : Flash) (ids : List MtdId) (mtdparts : Text) : ℕ × List MtdDevice :=
  if mtdparts.take 9 = mtdpartsTag then
    let t := mtdparts.drop 9
    if t = [] then (1, [])
    else match parseDevices flash ids (t.length+1) [] t with
      | none => (1, [])
      | some devices => (0, devices)
  else (1, [])

/-! ## The text of a list -/

/-- The offset is written when there is a gap in front of the partition. -/
def gapBefore (prev : Option PartInfo) (p : PartInfo) : Bool :=
  match prev with
  | none => p.offset ≠ 0
  | some q => w32 (q.offset+q.size) ≠ p.offset

def partPieces (prev : Option PartInfo) (p : PartInfo) (more : Bool) : List Text :=
  [memsizeFormat p.size] ++
    (if gapBefore prev p then ['@'::memsizeFormat p.offset] else []) ++
    (if p.autoName then [] else ['('::p.name ++ [')']]) ++
    (if p.maskFlags ≠ 0 then [['r', 'o']] else []) ++
    (if more then [[',']] else [])

@[grind]
def partsPieces (numParts : ℕ) : ℕ → Option PartInfo → List PartInfo → List Text
  | _, _, [] => []
  | cnt, prev, p::ps =>
    partPieces prev p (cnt+1 < numParts) ++ partsPieces numParts (cnt+1) (some p) ps

@[grind]
def devicesPieces : List MtdDevice → List Text
  | [] => []
  | d::ds => [d.id.mtdId ++ [':']] ++ partsPieces d.numParts 0 none d.parts ++
      (if ds = [] then [] else [[';']]) ++ devicesPieces ds

/-- A piece is written while there is room for it. -/
def put (out : ℕ × Text) (piece : Text) : Option (ℕ × Text) :=
  if out.1 < piece.length then none else some (out.1-piece.length, out.2 ++ piece)

/-- The first nine characters are not counted. -/
def generateMtdparts (devices : List MtdDevice) (buflen : ℕ) : Option Text :=
  if devices = [] then some []
  else ((devicesPieces devices).foldlM put (buflen-1, mtdpartsTag)).map (·.2)

end UBoot.Mtdparts
