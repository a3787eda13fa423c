import Mathlib.Tactic

/-!
# The `bootm` sub-commands: `common/cmd_bootm.c`

The functions of other files are parameters. They act on the fields of
`images` and on the rest of the machine (memory, environment, logical memory
blocks), but none of them names `images.state`, which is kept apart.
-/

set_option autoImplicit false

namespace UBoot.Bootm

abbrev Arg := List Char

/-- The entries of `cmd_bootm_sub`. -/
inductive Stage where
  | start | loados | ramdisk | fdt | cmdline | bdt | prep | go
  deriving DecidableEq, Repr

/-- The number of the bit of a stage. -/
def Stage.bit : Stage → ℕ
  | .start => 0
  | .loados => 1
  | .ramdisk => 2
  | .fdt => 3
  | .cmdline => 4
  | .bdt => 5
  | .prep => 6
  | .go => 7

/-- `BOOTM_STATE_START` to `BOOTM_STATE_OS_GO` -/
def Stage.state (k : Stage) : ℕ := 2^k.bit

def Stage.name : Stage → Arg
  | .start => "start".toList
  | .loados => "loados".toList
  | .ramdisk => "ramdisk".toList
  | .fdt => "fdt".toList
  | .cmdline => "cmdline".toList
  | .bdt => "bdt".toList
  | .prep => "prep".toList
  | .go => "go".toList

def cmdBootmSub : List Stage := [.start, .loados, .ramdisk, .fdt, .cmdline, .bdt, .prep, .go]

/-- The loop of `find_cmd_tbl`, with the last abbreviated match and the number of them. -/
def findLoop (key : Arg) : List Stage → Option Stage → ℕ → Option Stage
  | [], temp, found => if found = 1 then temp else none
  | k::rest, temp, found =>
    if key.isPrefixOf k.name then
      if key.length = k.name.length then some k else findLoop key rest (some k) (found+1)
    else findLoop key rest temp found

/-- Only the part before the first dot is compared. -/
def findCmdTbl (cmd : Arg) : Option Stage :=
  findLoop (cmd.takeWhile (· ≠ '.')) cmdBootmSub none 0

/-! ## `images` -/

/-- `image_info_t` -/
structure ImageInfo where
  start : UInt32
  stop : UInt32
  imageStart : UInt32
  imageLen : UInt32
  load : UInt32
  comp : UInt8
  type : UInt8
  os : UInt8

/-- The fields of `bootm_headers_t` that this file reads or writes, less `state`. -/
structure Headers where
  verify : Bool
  legacyHdrValid : Bool
  /-- `fit_uname_os` is not `NULL`. -/
  fitUnameOs : Bool
  os : ImageInfo
  ep : UInt32
  rdStart : UInt32
  rdEnd : UInt32
  ftAddr : UInt32
  ftLen : UInt32
  initrdStart : UInt32
  initrdEnd : UInt32

/-- What `memset` leaves. -/
def Headers.zero : Headers :=
  ⟨false, false, false, ⟨0, 0, 0, 0, 0, 0, 0, 0⟩, 0, 0, 0, 0, 0, 0, 0⟩

structure Machine (W : Type) where
  headers : Headers
  world : W

def Machine.setOs {W : Type} (m : Machine W) (os : ImageInfo) : Machine W :=
  ⟨{ m.headers with os := os }, m.world⟩

def Machine.setEp {W : Type} (m : Machine W) (ep : UInt32) : Machine W :=
  ⟨{ m.headers with ep := ep }, m.world⟩

inductive Format where
  | legacy | fit | invalid
  deriving DecidableEq

/-- What a boot function returns, or `none` when it starts the system. -/
abbrev BootFn (W : Type) := ℕ → List Arg → Machine W → Option (ℤ × Machine W)

/-- The functions of other files; a `Bool` is `true` when they fail. -/
structure Callees (W : Type) where
  getenvYesno : W → Bool
  bootStartLmb : W → W
  bootGetKernel : List Arg → Machine W → UInt32 × Machine W
  genimgGetFormat : UInt32 → W → Format
  imageGetType : UInt32 → W → UInt8
  imageGetComp : UInt32 → W → UInt8
  imageGetOs : UInt32 → W → UInt8
  imageGetImageEnd : UInt32 → W → UInt32
  imageGetLoad : UInt32 → W → UInt32
  /-- `image_get_ep` of the copy of the header in `images`. -/
  imageGetEp : W → UInt32
  fitImageGetType : Machine W → Bool × Machine W
  fitImageGetComp : Machine W → Bool × Machine W
  fitImageGetOs : Machine W → Bool × Machine W
  fitGetEnd : W → UInt32
  fitImageGetLoad : Machine W → Bool × Machine W
  fitImageGetEntry : Machine W → Bool × Machine W
  bootGetRamdisk : List Arg → Machine W → Bool × Machine W
  bootGetFdt : List Arg → Machine W → Bool × Machine W
  setWorkingFdtAddr : UInt32 → W → W
  memmoveWd : UInt32 → UInt32 → UInt32 → W → W
  /-- The decompressors compiled in, with the length they give. -/
  decompress : UInt8 → Option (UInt32 → UInt32 → UInt32 → W → Option UInt32 × W)
  flushCache : UInt32 → UInt32 → W → W
  lmbReserve : UInt32 → UInt32 → W → W
  bootRamdiskHigh : UInt32 → UInt32 → Machine W → ℤ × Machine W
  setenvInitrd : Headers → W → W
  bootFdtAddMemRsvRegions : UInt32 → W → W
  bootRelocateFdt : Machine W → ℤ × Machine W
  /-- `disable_interrupts`, `eth_halt` and `arch_preboot_os` -/
  prebootOs : W → W
  bootOs : UInt8 → Option (BootFn W)

variable {W : Type} (c : Callees W)

/-! ## `bootm_start` -/

/-- A check that leaves what it has written when it fails. -/
abbrev Attempt (W : Type) := ExceptT Unit (StateM (Machine W))

def attempt (f : Machine W → Bool × Machine W) : Attempt W Unit := do
  let r := f (← get)
  set r.2
  if r.1 then throw ()

def legacyParameters (osHdr : UInt32) (m : Machine W) : Machine W :=
  m.setOs ⟨m.headers.os.start, c.imageGetImageEnd osHdr m.world, m.headers.os.imageStart,
    m.headers.os.imageLen, c.imageGetLoad osHdr m.world, c.imageGetComp osHdr m.world,
    c.imageGetType osHdr m.world, c.imageGetOs osHdr m.world⟩

def fitParameters : Attempt W Unit := do
  attempt c.fitImageGetType
  attempt c.fitImageGetComp
  attempt c.fitImageGetOs
  modify fun m => m.setOs { m.headers.os with stop := c.fitGetEnd m.world }
  attempt c.fitImageGetLoad

def entryPoint : Attempt W Unit := do
  let m ← get
  if m.headers.legacyHdrValid then set (m.setEp (c.imageGetEp m.world))
  else if m.headers.fitUnameOs then attempt c.fitImageGetEntry
  else throw ()

def ihTypeKernel : UInt8 := 2
def ihTypeMulti : UInt8 := 4
def ihTypeKernelNoload : UInt8 := 14
def ihOsLinux : UInt8 := 5

/-- A kernel that runs from any address stays where it is. -/
def relocateNoload (m : Machine W) : Machine W :=
  let os := m.headers.os
  if os.type = ihTypeKernelNoload then
    (m.setOs { os with load := os.imageStart }).setEp (m.headers.ep+os.imageStart)
  else m

/-- `bootm_start` up to the last assignments. -/
def prepareImages (argv : List Arg) : Attempt W UInt32 := do
  modify fun m => ⟨{ Headers.zero with verify := c.getenvYesno m.world }, c.bootStartLmb m.world⟩
  let r := c.bootGetKernel argv (← get)
  set r.2
  if r.2.headers.os.imageLen = 0 then throw ()
  match c.genimgGetFormat r.1 r.2.world with
  | .legacy => modify (legacyParameters c r.1)
  | .fit => fitParameters c
  | .invalid => throw ()
  entryPoint c
  modify relocateNoload
  let os := (← get).headers.os
  if (os.type = ihTypeKernel ∨ os.type = ihTypeKernelNoload ∨ os.type = ihTypeMulti) ∧
      os.os = ihOsLinux then
    attempt (c.bootGetRamdisk argv)
    attempt (c.bootGetFdt argv)
    modify fun m => ⟨m.headers, c.setWorkingFdtAddr m.headers.ftAddr m.world⟩
  return r.1

/-- The global `images`, with the machine around it. -/
structure Boot (W : Type) where
  state : ℕ
  machine : Machine W

/-- The state is `BOOTM_STATE_START` after a success, and 0 after a failure. -/
def bootmStart (argv : List Arg) (m : Machine W) : ℤ × Boot W :=
  match (prepareImages c argv).run.run m with
  | (.ok osHdr, m) => (0, ⟨Stage.start.state, m.setOs { m.headers.os with start := osHdr }⟩)
  | (.error _, m) => (1, ⟨0, m⟩)

/-! ## The stages -/

def bootmErrReset : ℤ := -1
def bootmErrOverlap : ℤ := -2
def bootmErrUnimplemented : ℤ := -3

/-- `bootm_load_os` after the image is in place. -/
def finishLoad (os : ImageInfo) (noOverlap : Bool) (loadEnd : UInt32) (w : W) : ℤ × UInt32 × W :=
  let w := c.flushCache os.load ((loadEnd-os.load)*4) w
  if !noOverlap ∧ os.load < os.stop ∧ os.start < loadEnd then (bootmErrOverlap, loadEnd, w)
  else (0, loadEnd, w)

/-- `bootm_load_os`, with the end of the loaded image. -/
def bootmLoadOs (os : ImageInfo) (w : W) : ℤ × UInt32 × W :=
  if os.comp = 0 then
    if os.load = os.start ∨ os.load = os.imageStart then
      finishLoad c os true (os.load+os.imageLen) w
    else
      finishLoad c os false (os.load+os.imageLen) (c.memmoveWd os.load os.imageStart os.imageLen w)
  else
    match c.decompress os.comp with
    | none => (bootmErrUnimplemented, 0, w)
    | some unpack =>
      match unpack os.load os.imageStart os.imageLen w with
      | (none, w) => (bootmErrReset, 0, w)
      | (some len, w) => finishLoad c os false (os.load+len) w

/-- A boot function that is missing is called all the same, at address 0. -/
def callBootFn (flag : ℕ) (argv : List Arg) (m : Machine W) : Option (ℤ × Machine W) :=
  match c.bootOs m.headers.os.os with
  | none => none
  | some bootFn => bootFn flag argv m

def loados (m : Machine W) : ℤ × Machine W :=
  let os := m.headers.os
  let r := bootmLoadOs c os m.world
  if r.1 = 0 then (0, ⟨m.headers, c.lmbReserve os.load (r.2.1-os.load) r.2.2⟩)
  else (r.1, ⟨m.headers, r.2.2⟩)

def ramdisk (m : Machine W) : ℤ × Machine W :=
  let r := c.bootRamdiskHigh m.headers.rdStart (m.headers.rdEnd-m.headers.rdStart) m
  if r.1 = 0 then (0, ⟨r.2.headers, c.setenvInitrd r.2.headers r.2.world⟩) else r

def fdt (m : Machine W) : ℤ × Machine W :=
  c.bootRelocateFdt ⟨m.headers, c.bootFdtAddMemRsvRegions m.headers.ftAddr m.world⟩

/-- The case of a stage, and what it gives; `none` when control does not come back. -/
def runStage (argv : List Arg) (m : Machine W) : Stage → Option (ℤ × Machine W)
  | .start => some (0, m)
  | .loados => some (loados c m)
  | .ramdisk => some (ramdisk c m)
  | .fdt => some (fdt c m)
  | .cmdline => callBootFn c Stage.cmdline.state argv m
  | .bdt => callBootFn c Stage.bdt.state argv m
  | .prep => callBootFn c Stage.prep.state argv m
  | .go => callBootFn c Stage.go.state argv ⟨m.headers, c.prebootOs m.world⟩

/-! ## `do_bootm_subcommand` -/

def cmdRetUsage : ℤ := -1

/-- What a sub-command does: `bootm_start`, the case of a stage, or nothing. -/
inductive Event where
  | started (ok : Bool)
  | ran (k : Stage) (ret : Option ℤ)
  | refused
  deriving DecidableEq

/-- A sub-command with the value it returns, if it returns. -/
structure Report (W : Type) where
  event : Event
  after : Option (ℤ × Boot W)

/-- The value that `go` gets from the boot function is dropped. -/
def subcommandRet (k : Stage) (ret : ℤ) : ℤ := if k = .go then 0 else ret

/-- `do_bootm` calls it with at least two arguments. -/
def doBootmSubcommand (argv : List Arg) (b : Boot W) : Report W :=
  match findCmdTbl (argv.getD 1 []) with
  | none => ⟨.refused, some (cmdRetUsage, b)⟩
  | some .start =>
    let r := bootmStart c argv.tail b.machine
    ⟨.started (r.1 = 0), some r⟩
  | some k =>
    if k.state ≤ b.state then ⟨.refused, some (cmdRetUsage, b)⟩
    else
      match runStage c argv b.machine k with
      | none => ⟨.ran k none, none⟩
      | some (ret, m) => ⟨.ran k (some ret), some (subcommandRet k ret, ⟨b.state ||| k.state, m⟩)⟩

end UBoot.Bootm
