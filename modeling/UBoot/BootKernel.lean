import UBoot.Crc32
import UBoot.FitCoverage
import UBoot.Tftp

/-!
# The kernel that `bootm` starts: `boot_get_kernel` of `common/cmd_bootm.c`

The image is legacy or a FIT. In a FIT the kernel is that of a configuration
or a named sub-image. `none` is a walk without an end or an access through a
null pointer; `some none` is a null pointer returned.
-/

set_option autoImplicit false

namespace UBoot.Fit
open UBoot.Fdt UBoot.Crc32
open UBoot.Tftp (digitValue digits)

abbrev Memory := ℕ → UInt8

def blobAt (mem : Memory) (addr : ℕ) : Blob := fun a => mem (w32 (addr+a))

/-! ## The arguments -/

/-- `simple_strtoul` with base 16. -/
def simpleStrtoul16 (l : Name) : ℕ :=
  match l with
  | 48::120::d::rest => if (digitValue d).isSome then digits 16 0 (d::rest) else 0
  | 48::rest => digits 16 0 rest
  | l => digits 16 0 l

/-- `fit_parse_spec`: the address and the name behind the separator. -/
def fitParseSpec (spec : Name) (sepc : UInt8) (addrCurr : ℕ) : Option (ℕ × Name) :=
  if sepc ∈ spec then
    some (if spec.head? = some sepc then addrCurr else simpleStrtoul16 spec,
      (spec.dropWhile (· ≠ sepc)).drop 1)
  else none

def fitParseConf (spec : Name) (addrCurr : ℕ) : Option (ℕ × Name) := fitParseSpec spec 35 addrCurr
def fitParseSubimage (spec : Name) (addrCurr : ℕ) : Option (ℕ × Name) := fitParseSpec spec 58 addrCurr

/-- What the first argument says. -/
structure KernelArg where
  imgAddr : ℕ
  fitUnameConfig : Option Name
  fitUnameKernel : Option Name
  deriving DecidableEq

def kernelArg (loadAddr : ℕ) : Option Name → KernelArg
  | none => ⟨loadAddr, none, none⟩
  | some spec =>
    match fitParseConf spec loadAddr with
    | some (addr, name) => ⟨addr, some name, none⟩
    | none =>
      match fitParseSubimage spec loadAddr with
      | some (addr, name) => ⟨addr, none, some name⟩
      | none => ⟨simpleStrtoul16 spec, none, none⟩

/-- `getenv_yesno` of a variable's value. -/
def getenvYesno : Option Name → ℤ
  | none => -1
  | some s => if s.headD 0 ∈ ([49, 121, 89, 116, 84] : Name) then 1 else 0

/-! ## Legacy images -/

def ihMagic : ℕ := 0x27051956

inductive ImageFormat where
  | invalid | legacy | fit
  deriving DecidableEq

def genimgGetFormat (b : Blob) : ImageFormat :=
  if fdt32 b 0 = ihMagic then .legacy else if checkHeader b = 0 then .fit else .invalid

def ihArchArm : ℕ := 2
def ihTypeStandalone : ℕ := 1
def ihTypeKernel : ℕ := 2
def ihTypeMulti : ℕ := 4
def ihTypeKernelNoload : ℕ := 14

def imageGetSize (b : Blob) : ℕ := fdt32 b 12
def imageGetArch (b : Blob) : ℕ := (byteAt b 29).toNat
def imageGetType (b : Blob) : ℕ := (byteAt b 30).toNat

/-- The header is checked with its own checksum set to zero. -/
def imageCheckHcrc (b : Blob) : Bool :=
  (crc32 0 (memory b 0 4 ++ [0, 0, 0, 0] ++ memory b 8 56)).toNat = fdt32 b 4

def imageCheckDcrc (b : Blob) : Bool := (crc32 0 (memory b 64 (imageGetSize b))).toNat = fdt32 b 24

def imageGetKernel (b : Blob) (verify : Bool) : Bool :=
  fdt32 b 0 = ihMagic && imageCheckHcrc b && (!verify || imageCheckDcrc b) && imageGetArch b = ihArchArm

/-- The loop of `image_multi_count`. -/
@[grind]
def imageMultiCount (b : Blob) : ℕ → ℕ → Option ℕ
  | 0, _ => none
  | fuel+1, i => if fdt32 b (64+4*i) = 0 then some i else imageMultiCount b fuel (i+1)

/-- `image_multi_getimg` for the first image: the address and the length. -/
def imageMultiGetimg (b : Blob) : Option (ℕ × ℕ) := do
  let count ← imageMultiCount b 1073741824 0
  if 0 < count then return (64+(count+1)*4, fdt32 b 64) else return (0, 0)

/-! ## Images of a FIT -/

def uimageArch : List (ℕ × Name) :=
  [(1, text "alpha"), (2, text "arm"), (3, text "x86"), (4, text "ia64"), (12, text "m68k"),
    (14, text "microblaze"), (5, text "mips"), (6, text "mips64"), (15, text "nios2"),
    (7, text "powerpc"), (7, text "ppc"), (8, text "s390"), (9, text "sh"), (10, text "sparc"),
    (11, text "sparc64"), (16, text "blackfin"), (17, text "avr32"), (20, text "nds32"),
    (21, text "or1k")]

def uimageType : List (ℕ × Name) :=
  [(13, text "aisimage"), (7, text "filesystem"), (5, text "firmware"), (8, text "flat_dt"),
    (2, text "kernel"), (14, text "kernel_noload"), (9, text "kwbimage"), (10, text "imximage"),
    (4, text "multi"), (12, text "omapimage"), (15, text "pblimage"), (3, text "ramdisk"),
    (6, text "script"), (1, text "standalone"), (11, text "ublimage")]

/-- `get_table_entry_id`, with the `-1` of a byte if there is none. -/
def getTableEntryId (table : List (ℕ × Name)) (name : Name) : ℕ :=
  ((table.find? fun t => t.2 = name).map Prod.fst).getD 255

/-- `fit_image_check_arch` and `fit_image_check_type`. -/
def fitImageCheckId (prop : Name) (table : List (ℕ × Name)) (b : Blob) (noffset id : ℕ) :
    Option Bool := do
  match ← lookup b noffset prop with
  | none => return false
  | some v => return getTableEntryId table (cstrAt b v.data) = id

def fitImageCheckArch (b : Blob) (noffset arch : ℕ) : Option Bool :=
  fitImageCheckId (text "arch") uimageArch b noffset arch

def fitImageCheckType (b : Blob) (noffset type : ℕ) : Option Bool :=
  fitImageCheckId (text "type") uimageType b noffset type

/-- `fit_image_hash_get_ignore` -/
def fitImageHashGetIgnore (b : Blob) (noffset : ℕ) : Option Bool := do
  match ← lookup b noffset (text "uboot-ignore") with
  | none => return false
  | some v => return v.len = 4 ∧ fdt32 b v.data ≠ 0

/-- The digest that `calculate_hash` computes, if it knows the algorithm. -/
abbrev HashFunction := List UInt8 → Name → Option (List UInt8)

/-- One hash subnode of an image. -/
def checkHash (calculateHash : HashFunction) (b : Blob) (data : Value) (noffset : ℕ) :
    Option Bool := do
  if ← namedAs b (text "hash") noffset then
    match ← fitImageHashGetAlgo b noffset with
    | none => return false
    | some algo =>
      if ← fitImageHashGetIgnore b noffset then return true
      else
        match ← fitImageHashGetValue b noffset with
        | none => return false
        | some v =>
          let digest := calculateHash (memory b data.data data.len) (cstrAt b algo.data)
          return digest = some (memory b v.data v.len)
  else return true

@[grind]
def checkHashesLoop (calculateHash : HashFunction) (b : Blob) (data : Value) :
    ℕ → ℕ → ℤ → Option Bool
  | 0, _, _ => none
  | fuel+1, noffset, ndepth =>
    if isNeg noffset ∨ ndepth ≤ 0 then
      some (noffset ≠ errTruncated ∧ noffset ≠ errBadstructure)
    else
      match (if ndepth = 1 then checkHash calculateHash b data noffset else some true) with
      | none => none
      | some false => some false
      | some true =>
        match nextNode b noffset ndepth with
        | none => none
        | some (noffset', ndepth') => checkHashesLoop calculateHash b data fuel noffset' ndepth'

def fitImageCheckHashes (calculateHash : HashFunction) (b : Blob) (imageNoffset : ℕ) :
    Option Bool := do
  match ← fitImageGetData b imageNoffset with
  | none => return false
  | some data =>
    let (noffset, ndepth) ← nextNode b imageNoffset 0
    checkHashesLoop calculateHash b data walkFuel noffset ndepth

def fitCheckKernel (calculateHash : HashFunction) (b : Blob) (osNoffset : ℕ) (verify : Bool) :
    Option Bool := do
  let hashes ← if verify then fitImageCheckHashes calculateHash b osNoffset else some true
  if !hashes then return false
  else if !(← fitImageCheckArch b osNoffset ihArchArm) then return false
  else if ← fitImageCheckType b osNoffset ihTypeKernel then return true
  else fitImageCheckType b osNoffset ihTypeKernelNoload

def fitCheckFormat (b : Blob) : Option Bool := do
  match ← lookup b 0 (text "description") with
  | none => return false
  | some _ =>
    let images ← pathOffset b fitImagesPath 0
    return ¬isNeg images

/-! ## `boot_get_kernel` -/

/-- The kernel that is found: the image, its data and its node in a FIT, and
the configuration that `fit_config_verify` has accepted on the way. -/
structure Kernel where
  imgAddr : ℕ
  osData : ℕ
  osLen : ℕ
  fitNoffsetOs : Option ℕ
  verifiedCfg : Option ℕ
  deriving DecidableEq

/-- The branch of a legacy image. -/
def legacyKernel (b : Blob) (imgAddr : ℕ) (verify : Bool) : Option (Option Kernel) :=
  if imageGetKernel b verify then
    if imageGetType b = ihTypeKernel ∨ imageGetType b = ihTypeKernelNoload then
      some (some ⟨imgAddr, w32 (imgAddr+64), imageGetSize b, none, none⟩)
    else if imageGetType b = ihTypeMulti then
      (imageMultiGetimg b).map fun (data, len) =>
        some ⟨imgAddr, if len = 0 then 0 else w32 (imgAddr+data), len, none, none⟩
    else if imageGetType b = ihTypeStandalone then
      some (some ⟨imgAddr, w32 (imgAddr+64), imageGetSize b, none, none⟩)
    else some none
  else some none

section Kernel

variable (force : Bool) (P : Primitives) (calculateHash : HashFunction) (ctl : Blob)

/-- The node of the kernel, and the configuration that is verified on the way. -/
def kernelNode (b : Blob) (arg : KernelArg) (verify : Bool) : Option (Option (ℕ × Option ℕ)) := do
  match arg.fitUnameKernel with
  | some uname => return some (← fitImageGetNode b uname, none)
  | none =>
    let cfg ← fitConfGetNode b arg.fitUnameConfig
    if isNeg cfg then return none
    else if verify then
      if (← fitConfigVerify force P ctl b cfg) ≠ 0 then return none
      else return some (← fitConfGetKernelNode b cfg, some cfg)
    else return some (← fitConfGetKernelNode b cfg, none)

/-- The branch of a FIT. -/
def fitKernel (b : Blob) (arg : KernelArg) (verify : Bool) : Option (Option Kernel) := do
  if !(← fitCheckFormat b) then return none
  else
    match ← kernelNode force P ctl b arg verify with
    | none => return none
    | some (os, cfg) =>
      if isNeg os then return none
      else if !(← fitCheckKernel calculateHash b os verify) then return none
      else
        match ← fitImageGetData b os with
        | none => return none
        | some v => return some ⟨arg.imgAddr, w32 (arg.imgAddr+v.data), v.len, some os, cfg⟩

def bootGetKernel (mem : Memory) (loadAddr : ℕ) (argv1 : Option Name) (verify : Option Name) :
    Option (Option Kernel) :=
  let arg := kernelArg loadAddr argv1
  let b := blobAt mem arg.imgAddr
  match genimgGetFormat b with
  | .legacy => legacyKernel b arg.imgAddr (getenvYesno verify ≠ 0)
  | .fit => fitKernel force P calculateHash ctl b arg (getenvYesno verify ≠ 0)
  | .invalid => some none

/-! ## Verified kernels -/

/-- The kernel is that of a configuration that has been verified. -/
def VerifiedKernel (b : Blob) (k : Kernel) : Prop :=
  genimgGetFormat b = .fit ∧ ∃ cfg os, k.verifiedCfg = some cfg ∧ IsNode b cfg ∧
    fitConfigVerify force P ctl b cfg = some 0 ∧ fitConfGetKernelNode b cfg = some os ∧
    k.fitNoffsetOs = some os

end Kernel

/-- A tree with the format of a FIT has a root. -/
theorem fitCheckFormat_root (b : Blob) (h : fitCheckFormat b = some true) : IsNode b 0 := by
  obtain ⟨v, hv, h⟩ := Option.bind_eq_some_iff.mp h
  cases v with
  | none => cases h
  | some v =>
    obtain ⟨r, hr, hv⟩ := Option.map_eq_some_iff.mp hv
    cases r with
    | error e => cases hv
    | ok v => exact ⟨.refl, getprop_ok b 0 _ v hr⟩

section Verified

variable (force : Bool) (P : Primitives) (calculateHash : HashFunction) (ctl : Blob)

/-- The node of the kernel comes with a verified configuration exactly if it is
not named itself and `verify` is on. -/
theorem kernelNode_verified (b : Blob) (arg : KernelArg) (verify : Bool) (os : ℕ) (cfg : Option ℕ)
    (h : kernelNode force P ctl b arg verify = some (some (os, cfg))) :
    (arg.fitUnameKernel = none ∧ verify = true ↔ cfg ≠ none) ∧
      ∀ c, cfg = some c → fitConfGetNode b arg.fitUnameConfig = some c ∧ ¬isNeg c ∧
        fitConfigVerify force P ctl b c = some 0 ∧ fitConfGetKernelNode b c = some os := by
  unfold kernelNode at h
  cases hk : arg.fitUnameKernel with
  | some uname =>
    rw [hk] at h
    obtain ⟨node, -, h⟩ := Option.bind_eq_some_iff.mp h
    cases h
    simp
  | none =>
    rw [hk] at h
    obtain ⟨c, hc, h⟩ := Option.bind_eq_some_iff.mp h
    split_ifs at h with h1 h2
    · cases h
    · obtain ⟨ret, hret, h⟩ := Option.bind_eq_some_iff.mp h
      split_ifs at h with h3
      · cases h
      · obtain ⟨node, hnode, h⟩ := Option.bind_eq_some_iff.mp h
        cases h
        rw [not_not] at h3
        subst h3
        refine ⟨by simp [h2], fun c' hc' => ?_⟩
        cases hc'
        exact ⟨hc, h1, hret, hnode⟩
    · obtain ⟨node, -, h⟩ := Option.bind_eq_some_iff.mp h
      cases h
      simp [h2]

theorem fitKernel_cases (b : Blob) (arg : KernelArg) (verify : Bool) (k : Kernel)
    (h : fitKernel force P calculateHash ctl b arg verify = some (some k)) :
    fitCheckFormat b = some true ∧ ∃ os, k.fitNoffsetOs = some os ∧
      kernelNode force P ctl b arg verify = some (some (os, k.verifiedCfg)) := by
  obtain ⟨format, hformat, h⟩ := Option.bind_eq_some_iff.mp h
  cases format with
  | false => cases h
  | true =>
    obtain ⟨node, hnode, h⟩ := Option.bind_eq_some_iff.mp h
    cases node with
    | none => cases h
    | some node =>
      obtain ⟨os, cfg⟩ := node
      dsimp only at h
      split_ifs at h with h1
      · cases h
      · obtain ⟨checked, -, h⟩ := Option.bind_eq_some_iff.mp h
        cases checked with
        | false => cases h
        | true =>
          obtain ⟨v, -, h⟩ := Option.bind_eq_some_iff.mp h
          cases v with
          | none => cases h
          | some v =>
            cases h
            exact ⟨hformat, os, rfl, hnode⟩

/-- A kernel is verified exactly if it comes from a FIT, by a configuration,
with `verify` not switched off. -/
theorem boot_verified (mem : Memory) (loadAddr : ℕ) (argv1 verify : Option Name) (k : Kernel)
    (h : bootGetKernel force P calculateHash ctl mem loadAddr argv1 verify = some (some k)) :
    VerifiedKernel force P ctl (blobAt mem (kernelArg loadAddr argv1).imgAddr) k ↔
      genimgGetFormat (blobAt mem (kernelArg loadAddr argv1).imgAddr) = .fit ∧
        (kernelArg loadAddr argv1).fitUnameKernel = none ∧ getenvYesno verify ≠ 0 := by
  unfold bootGetKernel at h
  unfold VerifiedKernel
  dsimp only at h
  cases hf : genimgGetFormat (blobAt mem (kernelArg loadAddr argv1).imgAddr) with
  | invalid =>
    rw [hf] at h
    cases h
  | legacy => simp
  | fit =>
    rw [hf] at h
    obtain ⟨hformat, os, hos, hnode⟩ := fitKernel_cases force P calculateHash ctl _ _ _ k h
    obtain ⟨hiff, hcfg⟩ := kernelNode_verified force P ctl _ _ _ os k.verifiedCfg hnode
    have hroot := fitCheckFormat_root _ hformat
    constructor
    · rintro ⟨-, cfg, -, hk, -⟩
      obtain ⟨h1, h2⟩ := hiff.mpr (by simp [hk])
      exact ⟨rfl, h1, by simpa using h2⟩
    · rintro ⟨-, h1, h2⟩
      obtain ⟨cfg, hk⟩ := Option.ne_none_iff_exists'.mp (hiff.mp ⟨h1, by simpa using h2⟩)
      obtain ⟨hconf, hneg, hver, hkernel⟩ := hcfg cfg hk
      exact ⟨rfl, cfg, os, hk, fitConfGetNode_node _ _ cfg hroot hconf hneg, hver, hkernel, hos⟩

end Verified

/-- A FIT with the kernel `k` and the signed configuration `c` as its default. -/
def signedFit : Blob := ofWords
  [0xd00dfeed, 0x1a0, 0x28, 0x150, 0, 0x11, 0x10, 0, 0x50, 0x128,
    1, 0,
    3, 2, 0, 0x66000000,
    -- `images` and `k` with `data`, `type` and `arch`
    1, 0x696d6167, 0x65730000,
    1, 0x6b000000,
    3, 4, 0xc, 0x1020304,
    3, 7, 0x11, 0x6b65726e, 0x656c0000,
    3, 4, 0x16, 0x61726d00,
    2, 2,
    -- `configurations` with `default`, `c` with `kernel`, and its signature
    1, 0x636f6e66, 0x69677572, 0x6174696f, 0x6e730000,
    3, 2, 0x1b, 0x63000000,
    1, 0x63000000,
    3, 2, 0x23, 0x6b000000,
    1, 0x7369676e, 0x61747572, 0x65000000,
    3, 0x11, 0x2a, 0x73686132, 0x35362c73, 0x65637032, 0x35367231, 0,
    3, 4, 0x2f, 0x1020304,
    3, 4, 0x35, 0x64657600,
    3, 0x12, 0x43, 0x2f636f6e, 0x66696775, 0x72617469, 0x6f6e732f, 0x63000000,
    2, 2, 2, 2, 9,
    0x64657363, 0x72697074, 0x696f6e00, 0x64617461, 0x747970, 0x65006172, 0x63680064, 0x65666175,
    0x6c74006b, 0x65726e65, 0x6c00616c, 0x676f0076, 0x616c7565, 0x6b6579, 0x2d6e616d, 0x652d6869,
    0x6e740068, 0x61736865, 0x642d6e6f, 0x64657300]

/-- A legacy kernel image of four bytes. -/
def legacyImage : Blob := ofWords
  [0x27051956, 0xd1f1c15e, 0, 4, 0x8000, 0x8000, 0xb63cfbcd, 0x5020200, 0, 0, 0, 0, 0, 0, 0, 0,
    0x1020304]

/-- The image at an address of the memory. -/
def placed (addr : ℕ) (b : Blob) : Memory := fun a => b (a-addr)

def noHash : HashFunction := fun _ _ => none

theorem legacyImage_kernel :
    bootGetKernel true devOnly noHash devKey (placed 0x2000000 legacyImage) 0x2000000 none none =
      some (some ⟨0x2000000, 0x2000040, 4, none, none⟩) := by
  have hformat : genimgGetFormat (blobAt (placed 0x2000000 legacyImage) 0x2000000) = .legacy := by
    decide +kernel
  have hmagic : fdt32 (blobAt (placed 0x2000000 legacyImage) 0x2000000) 0 = ihMagic := by
    decide +kernel
  have hdcrc : imageCheckDcrc (blobAt (placed 0x2000000 legacyImage) 0x2000000) = true := by
    decide +kernel
  have harch : imageGetArch (blobAt (placed 0x2000000 legacyImage) 0x2000000) = ihArchArm := by
    decide +kernel
  -- the checksum of the header, taken in four parts
  have hhcrc : imageCheckHcrc (blobAt (placed 0x2000000 legacyImage) 0x2000000) = true := by
    have hparts : memory (blobAt (placed 0x2000000 legacyImage) 0x2000000) 0 4 ++ [0, 0, 0, 0] ++
          memory (blobAt (placed 0x2000000 legacyImage) 0x2000000) 8 56 =
        [39, 5, 25, 86, 0, 0, 0, 0, 0, 0, 0, 0, 0, 0, 0, 4] ++
          ([0, 0, 128, 0, 0, 0, 128, 0, 182, 60, 251, 205, 5, 2, 2, 0] ++
            (List.replicate 16 0 ++ List.replicate 16 0)) := by decide +kernel
    have h1 : crc32 0 [39, 5, 25, 86, 0, 0, 0, 0, 0, 0, 0, 0, 0, 0, 0, 4] = 0x531c994f := by decide +kernel
    have h2 : crc32 0x531c994f [0, 0, 128, 0, 0, 0, 128, 0, 182, 60, 251, 205, 5, 2, 2, 0] = 0xba2f217b := by
      decide +kernel
    have h3 : crc32 0xba2f217b (List.replicate 16 0) = 0x5e8454b7 := by decide +kernel
    have h4 : crc32 0x5e8454b7 (List.replicate 16 0) = 0xd1f1c15e := by decide +kernel
    rw [imageCheckHcrc, hparts, crc32_append, crc32_append, crc32_append, h1, h2, h3, h4]
    decide +kernel
  have hkernel : imageGetKernel (blobAt (placed 0x2000000 legacyImage) 0x2000000) true = true := by
    simp only [imageGetKernel, hmagic, hhcrc, hdcrc, harch]
    rfl
  have hverify : decide (getenvYesno none ≠ 0) = true := by decide
  simp only [bootGetKernel, kernelArg, hformat, legacyKernel, hverify, hkernel, if_true]
  decide +kernel

/-- The default configuration is verified. -/
theorem boot_verified_default : VerifiedKernel true devOnly devKey
    (blobAt (placed 0x2000000 signedFit) 0x2000000) ⟨0x2000000, 0x2000060, 4, some 36, some 140⟩ :=
  (boot_verified true devOnly noHash devKey (placed 0x2000000 signedFit) 0x2000000 none none
    ⟨0x2000000, 0x2000060, 4, some 36, some 140⟩ (by decide +kernel)).mpr (by decide +kernel)

/-- A legacy image, a kernel named as a sub-image and, with `verify` off, the
kernel of a configuration are started without a configuration being verified. -/
theorem unverified_boots :
    (∃ k, bootGetKernel true devOnly noHash devKey (placed 0x2000000 legacyImage) 0x2000000 none none =
        some (some k) ∧
      ¬VerifiedKernel true devOnly devKey (blobAt (placed 0x2000000 legacyImage) 0x2000000) k) ∧
    (∃ k, bootGetKernel true devOnly noHash devKey (placed 0x2000000 signedFit) 0x2000000
        (some (text "2000000:k")) none = some (some k) ∧
      ¬VerifiedKernel true devOnly devKey (blobAt (placed 0x2000000 signedFit) 0x2000000) k) ∧
    ∃ k, bootGetKernel true devOnly noHash devKey (placed 0x2000000 signedFit) 0x2000000 none
        (some (text "n")) = some (some k) ∧
      ¬VerifiedKernel true devOnly devKey (blobAt (placed 0x2000000 signedFit) 0x2000000) k := by
  refine ⟨⟨_, legacyImage_kernel, ?_⟩,
    ⟨⟨0x2000000, 0x2000060, 4, some 36, none⟩, by decide +kernel, ?_⟩,
    ⟨⟨0x2000000, 0x2000060, 4, some 36, none⟩, by decide +kernel, ?_⟩⟩ <;>
  · rintro ⟨-, cfg, os, hcfg, -⟩
    cases hcfg

end UBoot.Fit
