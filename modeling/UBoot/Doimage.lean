import UBoot.LittleEndian

/-!
# Boot images

`doimage.c` builds a block of headers and the image behind it. The buffer of the
headers is zero behind what has been built, so it is the list of the bytes built so
far. A REG source is the list of the words that `fscanf` reads from its text, a BIN source the bytes
of its file. The RSA key and signatures of the security header are a parameter.
`none` stands for a failure of the tool or undefined behaviour.
-/

set_option autoImplicit false

namespace UBoot.Doimage

open LittleEndian

abbrev Bytes := List UInt8

def maxHeaderSize : ℕ := 196608
def maxTwsiHdrSize : ℕ := 61440
def extHdrBaseSize : ℕ := 8
def secHdrSize : ℕ := 1060

inductive ImgType
  | sata | uart | flash | mmc | nand | pex | i2c
deriving DecidableEq, Repr

def ImgType.blockId : ImgType → UInt8
  | .i2c => 0x4D
  | .flash => 0x5A
  | .nand => 0x8B
  | .sata => 0x78
  | .pex => 0x9C
  | .mmc => 0xAE
  | .uart => 0x69

inductive Source
  | reg (words : List UInt32)
  | bin (bytes : Bytes)
deriving DecidableEq, Repr

/-- What the security header holds between its head and its tail, made from the block of headers
and the image. -/
abbrev Security := Bytes → Bytes → Option (Vector UInt8 1052)

structure UserOptions where
  imageType : ImgType
  imageSource : UInt32
  imageDest : UInt32
  imageExec : UInt32
  nandPageSize : UInt32
  nandBlkSize : UInt32
  nandSlc : Bool
  prepadding : Option ℕ
  postpadding : Option ℕ
  twsi : Option (List UInt32)
  dram : Option (List UInt32)
  binFile : Option Bytes
  hdrsList : List Source
  security : Option Security

/-- The headers in the order in which they are built. -/
def UserOptions.sources (opt : UserOptions) : List Source :=
  (opt.dram.map Source.reg).toList ++ (opt.binFile.map Source.bin).toList ++ opt.hdrsList

def leWord (w : UInt32) : Bytes := le 4 w.toNat

/-! ## Sums -/

def checksum8 (l : Bytes) : UInt8 := l.foldl (· + ·) 0

def checksum32 : Bytes → ℕ
  | a::b::c::d::l => (ofLe [a, b, c, d]+checksum32 l) % 4294967296
  | _ => 0

/-! ## Extension headers -/

/-- The main header counts the extension headers; `bytes` are those built so far. -/
structure Exts where
  ext : ℕ
  bytes : Bytes
deriving DecidableEq, Repr

def extHead (type : UInt8) (len : ℕ) : Bytes := [type] ++ le 1 (len/65536) ++ le 2 len

/-- The tail in front of a new header says that there is a next one. -/
def markNext (x : Exts) : Bytes := if x.ext ≠ 0 then x.bytes.set (x.bytes.length-4) 1 else x.bytes

def maxBytesToWrite (currentSize : ℕ) : ℕ :=
  (maxHeaderSize+4294967296-currentSize-extHdrBaseSize) % 4294967296

def addExt (x : Exts) (type : UInt8) (payload tail : Bytes) : Exts :=
  ⟨x.ext+1, markNext x ++ (extHead type (extHdrBaseSize+payload.length) ++ payload ++ tail)⟩

/-- The words that are stored: up to a pair of zeros, the last one with a zero when it is alone. -/
def regWords : List UInt32 → List UInt32
  | [] => []
  | [a] => if a = 0 then [] else [a, 0]
  | a::b::ws => if a = 0 ∧ b = 0 then [] else a::b::regWords ws

def buildRegHeader (words : List UInt32) (x : Exts) : Option Exts :=
  if x.ext = 255 then none
  else if maxBytesToWrite (32+x.bytes.length)/8 ≤ (regWords words).length then none
  else some (addExt x 3 ((regWords words).flatMap leWord) [0, 0, 0, 0])

/-- What is left of the file behind its last whole word is read into the tail. -/
def buildBinHeader (file : Bytes) (x : Exts) : Option Exts :=
  let n := file.length/4
  if x.ext = 255 then none
  else if maxBytesToWrite (32+x.bytes.length)/4 ≤ n then none
  else some (addExt x 2 (file.take (4*n)) ((file.drop (4*n) ++ [0, 0, 0, 0]).take 4))

/-- `build_hdr_func`. -/
def buildHdrFunc : Source → Exts → Option Exts
  | .reg words => buildRegHeader words
  | .bin file => buildBinHeader file

/-- A header that does not fit into the buffer is written behind its end. -/
def buildHeader (source : Source) (x : Exts) : Option Exts := do
  let y ← buildHdrFunc source x
  if maxHeaderSize < 32+y.bytes.length then none else some y

def buildAll (sources : List Source) (x : Exts) : Option Exts :=
  sources.foldlM (fun x s => buildHeader s x) x

/-- Room for the security header, which is filled last. -/
def securityRoom (opt : UserOptions) : Exts :=
  if opt.security.isSome then ⟨1, [1] ++ List.replicate 1059 0⟩ else ⟨0, []⟩

def fillSecurity (bytes : Bytes) (payload : Bytes) : Bytes :=
  extHead 1 secHdrSize ++ payload ++ bytes.drop 1056

/-! ## Sizes -/

def alignWord (n : ℕ) : ℕ := if n % 4 ≠ 0 then n+(4-n % 4) else n

def UserOptions.pre (opt : UserOptions) : ℕ := alignWord (opt.prepadding.getD 0)
def UserOptions.post (opt : UserOptions) : ℕ := alignWord (opt.postpadding.getD 0)

def imageSize (opt : UserOptions) (size : ℕ) : ℕ :=
  alignWord (size+opt.pre+opt.post)+(if opt.imageType = .uart then 0 else 4)

/-- The headers are filled up to a page, a block or a packet, by a whole one when they end there. -/
def alignHeader (opt : UserOptions) (headerSize : ℕ) : ℕ :=
  match opt.imageType with
  | .nand => (headerSize+opt.nandPageSize.toNat+4294967296-
      (headerSize &&& ((opt.nandPageSize.toNat+4294967295) % 4294967296))) % 4294967296
  | .sata | .mmc => headerSize+512-headerSize % 512
  | .uart => headerSize+128-headerSize % 128
  | _ => headerSize

def imgGap (opt : UserOptions) (headerSize : ℕ) : ℕ :=
  let boundary := if opt.imageType = .nand ∨ opt.imageType = .mmc then 512 else 32
  if opt.imageType = .sata then 0
  else if opt.imageSource ≠ 0 ∧ headerSize < opt.imageSource.toNat then
    opt.imageSource.toNat-headerSize
  else if headerSize % boundary ≠ 0 then boundary-headerSize % boundary
  else 0

def sourceAddr (opt : UserOptions) (headerSize : ℕ) : ℕ :=
  if opt.imageType = .sata then
    if opt.imageSource ≠ 0 ∧ headerSize < opt.imageSource.toNat then opt.imageSource.toNat
    else headerSize/512
  else headerSize+imgGap opt headerSize

/-! ## The image -/

def overwrite (buf : Bytes) (i : ℕ) (bytes : Bytes) : Bytes :=
  buf.take i ++ bytes ++ buf.drop (i+bytes.length)

def preLoadImage (opt : UserOptions) (image : Bytes) : Option Bytes :=
  let size := imageSize opt image.length
  let buf := overwrite (List.replicate size 0) 0 (List.replicate opt.pre 5)
  if opt.post = 0 then some (overwrite buf opt.pre image)
  else if size < 4+opt.post then none
  else some (overwrite (overwrite buf (size-4-opt.post) (List.replicate opt.post 10)) opt.pre image)

/-- The sum is put over the last word. -/
def buildRegularImg (buf : Bytes) : Option Bytes :=
  if buf.length ≤ 4 then none
  else some (buf.take (buf.length-4) ++ le 4 (checksum32 (buf.take (buf.length-4))))

/-! ## The headers -/

def mainHeader (opt : UserOptions) (size headerSize ext : ℕ) (checkSum : UInt8) : Bytes :=
  [opt.imageType.blockId, 0, 0, 0] ++ le 4 (imageSize opt size) ++ [1] ++ le 1 (headerSize/65536) ++
    le 2 headerSize ++ le 4 (sourceAddr opt headerSize) ++ leWord opt.imageDest ++
    leWord opt.imageExec ++ [0] ++
    (if opt.imageType = .nand then le 1 opt.nandBlkSize.toNat ++ [if opt.nandSlc then 0 else 1] else [0, 0]) ++
    [0, 0, 0] ++ le 1 ext ++ [checkSum]

structure Output where
  twsi : Bytes
  headers : Bytes
  gap : ℕ
  image : Bytes

def buildTwsiHeader (words : List UInt32) : Option Bytes :=
  let n := min words.length (maxTwsiHdrSize/4)
  let size := (n+2)*4/512*512+512
  if maxTwsiHdrSize < size then none
  else some ((words.take n).flatMap (fun w => (leWord w).reverse) ++ List.replicate (size-4*n) 0xff)

def headersBlock (opt : UserOptions) (size headerSize : ℕ) (x : Exts) (checkSum : UInt8) : Bytes :=
  let front := mainHeader opt size headerSize x.ext checkSum ++ x.bytes
  front ++ List.replicate (headerSize-front.length) 0

/-- The security header is filled from the finished block and the image. -/
def signHeaders (opt : UserOptions) (size headerSize : ℕ) (x : Exts) (img : Bytes) : Option Exts :=
  match opt.security with
  | none => some x
  | some sign => do
    let zeros := fillSecurity x.bytes (List.replicate 1052 0)
    let payload ← sign (headersBlock opt size headerSize ⟨x.ext, zeros⟩ 0) (img.take (img.length-4))
    return ⟨x.ext, fillSecurity x.bytes payload.toList⟩

def twsiPart (opt : UserOptions) : Option Bytes :=
  match opt.twsi with
  | none => some []
  | some words => buildTwsiHeader words

/-- `process_image` with a header and an image, for options within the range of `int`. -/
def processImage (opt : UserOptions) (image : Bytes) : Option Output := do
  let x ← buildAll opt.sources (securityRoom opt)
  let twsi ← twsiPart opt
  let headerSize := alignHeader opt (32+x.bytes.length)
  if headerSize = 0 ∨ maxHeaderSize < headerSize then none
  else if 2147483648 ≤ opt.pre ∨ 2147483648 ≤ opt.post then none
  else if 4294967296 ≤ imageSize opt image.length then none
  else do
    let buf ← preLoadImage opt image
    let y ← signHeaders opt image.length headerSize x buf
    let sum := checksum8 (headersBlock opt image.length headerSize y 0)
    let img ← buildRegularImg buf
    return ⟨twsi, headersBlock opt image.length headerSize y sum, imgGap opt headerSize, img⟩

/-- What stands behind the TWSI header when the files are put together. -/
def Output.block (o : Output) : Bytes := o.headers ++ List.replicate o.gap 0 ++ o.image

end UBoot.Doimage
