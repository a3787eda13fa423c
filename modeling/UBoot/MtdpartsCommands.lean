import UBoot.MtdpartsRoundTrip

/-!
# The mtdparts commands

`mtdparts_init` and the commands that begin with it, over the three variables, the
copies of the texts seen last, the list of devices and the current partition.
A device is known by its place in the list. `none` stands for undefined behaviour: a
current partition that is not there is read, a text without its end is read, or a buffer
is written behind its end.
-/

set_option autoImplicit false

namespace UBoot.Mtdparts

structure Config where
  flash : Flash
  mtdidsDefault : Option Text
  mtdpartsDefault : Option Text

structure State where
  envIds : Option Text
  envParts : Option Text
  envPartition : Option Text
  lastIds : Text
  lastParts : Text
  lastPartition : Text
  ids : List MtdId
  devices : List MtdDevice
  current : Option ℕ
  partnum : ℕ
deriving DecidableEq, Repr

/-- Before the first command, with any variables. -/
def State.start (envIds envParts envPartition : Option Text) : State :=
  ⟨envIds, envParts, envPartition, [], [], [], [], [], none, 0⟩

def mtdidsMaxlen : ℕ := 128
def partitionMaxlen : ℕ := 16
def partAddDescMaxlen : ℕ := 64

/-! ## The current partition -/

def DevType.text : DevType → Text
  | .nor => ['n', 'o', 'r']
  | .nand => ['n', 'a', 'n', 'd']
  | .onenand => ['o', 'n', 'e', 'n', 'a', 'n', 'd']

def mtdPartInfo (devices : List MtdDevice) (dev partNum : ℕ) : Option PartInfo :=
  match devices[dev]? with
  | none => none
  | some d => if d.numParts ≤ partNum then none else d.parts[partNum]?

/-- The name of the current partition is read. -/
def indexPartitions (s : State) : Option State :=
  match s.current with
  | none => some s
  | some dev => (mtdPartInfo s.devices dev s.partnum).map (fun _ => s)

def currentSave (s : State) : Option State :=
  match s.current with
  | none => indexPartitions { s with envPartition := none, lastPartition := [] }
  | some dev =>
    match s.devices[dev]? with
    | none => none
    | some d =>
      let buf := d.id.type.text ++ Nat.toDigits 10 d.id.num ++ [','] ++ Nat.toDigits 10 s.partnum
      indexPartitions { s with envPartition := some buf, lastPartition := buf }

def mtdDevicesInit (s : State) : Option State :=
  (currentSave { s with lastParts := [], current := none }).map
    (fun s => { s with devices := [] })

/-! ## Identifiers -/

def mtdIdParse (t : Text) : Option (DevType × ℕ × Text) :=
  let number := fun (type : DevType) (t : Text) =>
    if t.head?.any Char.isDigit then
      some (type, (simpleStrtoul t 0).1 % 256, (simpleStrtoul t 0).2)
    else none
  if t.take 4 = DevType.nand.text then number .nand (t.drop 4)
  else if t.take 3 = DevType.nor.text then number .nor (t.drop 3)
  else if t.take 7 = DevType.onenand.text then number .onenand (t.drop 7)
  else none

def idFind (ids : List MtdId) (type : DevType) (num : ℕ) : Option MtdId :=
  ids.find? (fun id => id.type = type ∧ id.num = num)

def parseIds (flash : Flash) : ℕ → List MtdId → Text → ℕ × List MtdId
  | 0, ids, _ => (1, ids)
  | n+1, ids, t =>
    if t = [] then (0, ids)
    else match mtdIdParse t with
      | none => (1, [])
      | some (type, num, t1) =>
        if t1.head? ≠ some '=' then (1, [])
        else match flash type num with
          | none => (1, ids)
          | some mtd =>
            if (idFind ids type num).isSome then (1, [])
            else parseIds flash n
              (ids ++ [⟨type, num, UInt32.ofNat mtd.size, t1.tail.takeWhile (· ≠ ',')⟩])
              (t1.tail.dropWhile (· ≠ ',')).tail

/-- What `parse_mtdids` returns and the list it leaves. -/
def parseMtdids (flash : Flash) (ids : Text) : ℕ × List MtdId :=
  if ids = [] then (1, []) else parseIds flash (ids.length+1) [] ids

def findName (id : Text) : ℕ → List MtdDevice → Option (ℕ × ℕ)
  | _, [] => none
  | dev, d::ds =>
    match d.parts.findIdx? (fun p => p.name = id) with
    | some part => some (dev, part)
    | none => findName id (dev+1) ds

def findDevAndPart (devices : List MtdDevice) (id : Text) : Option (ℕ × ℕ) :=
  match findName id 0 devices with
  | some r => some r
  | none => do
    let r ← mtdIdParse id
    if r.2.2.head? ≠ some ',' ∨ r.2.2.tail = [] then none
    else
      let n := simpleStrtoul r.2.2.tail 0
      if n.2 ≠ [] then none
      else do
        let dev ← devices.findIdx? (fun d => d.id.type = r.1 ∧ d.id.num = r.2.1)
        let _ ← mtdPartInfo devices dev (n.1 % 256)
        return (dev, n.1 % 256)

/-! ## `mtdparts_init` -/

/-- The variable `partition` is looked at in the end. -/
def useCurrent (tmpEp : Option Text) (s : State) : Option (ℕ × State) :=
  match tmpEp with
  | none => if s.envPartition = none then (currentSave s).map (fun s => (0, s)) else some (0, s)
  | some ep =>
    if partitionMaxlen ≤ ep.length then none
    else if ep ≠ [] ∧ ep ≠ s.lastPartition then
      match findDevAndPart s.devices ep with
      | none => some (0, s)
      | some (dev, part) =>
        (currentSave { s with current := some dev, partnum := part % 256 }).map (fun s => (0, s))
    else if s.envPartition = none then (currentSave s).map (fun s => (0, s))
    else some (0, s)

/-- The partitions are parsed when one of the texts has changed. -/
def readParts (cfg : Config) (idsChanged : Bool) (parts : Text) (s : State) :
    Option (ℕ × State) :=
  if s.lastParts = [] ∨ s.lastParts ≠ parts ∨ idsChanged then do
    let s ← mtdDevicesInit s
    let r := parseMtdparts cfg.flash s.ids parts
    if r.1 ≠ 0 then return (1, { s with devices := r.2 })
    else if r.2 = [] then return (1, { s with devices := r.2 })
    else do
      let s ← currentSave { s with devices := r.2, lastParts := parts, current := some 0, partnum := 0 }
      return (0, s)
  else some (0, s)

def afterIds (cfg : Config) (idsChanged : Bool) (tmpEp : Option Text) (s : State) :
    Option (ℕ × State) :=
  match s.envParts with
  | none => if s.lastParts ≠ [] then (mtdDevicesInit s).map (fun s => (0, s)) else some (0, s)
  | some parts => do
    let r ← readParts cfg idsChanged parts s
    if r.1 ≠ 0 then return r else useCurrent tmpEp r.2

def mtdpartsInit (cfg : Config) (s : State) : Option (ℕ × State) :=
  let tmpEp := s.envPartition
  let envIds := if s.envIds = none then cfg.mtdidsDefault else s.envIds
  match envIds with
  | none => some (1, s)
  | some ids =>
    let s := { s with envIds := some ids }
    if mtdidsMaxlen-1 < ids.length then some (1, s)
    else if mtdpartsMaxlen-1 < (s.envParts.getD []).length then some (1, s)
    else if s.lastIds ≠ [] ∧ s.lastIds = ids then afterIds cfg false tmpEp s
    else
      let r := parseMtdids cfg.flash ids
      if r.1 ≠ 0 then (mtdDevicesInit { s with ids := r.2, lastIds := [] }).map (fun s => (1, s))
      else afterIds cfg true tmpEp { s with ids := r.2, lastIds := ids }

/-! ## The commands -/

def generateMtdpartsSave (s : State) : Option (ℕ × State) :=
  match generateMtdparts s.devices mtdpartsMaxlen with
  | none => some (1, { s with lastParts := [], envParts := none })
  | some text =>
    if mtdpartsMaxlen ≤ text.length then none
    else some (0, { s with lastParts := text, envParts := if text = [] then none else some text })

def deviceDel (s : State) (dev : ℕ) : Option State :=
  let devices := s.devices.eraseIdx dev
  if s.current = some dev then
    if devices = [] then currentSave { s with devices := devices, current := none }
    else currentSave { s with devices := devices, current := some 0, partnum := 0 }
  else indexPartitions
    { s with
      devices := devices
      current := s.current.map (fun c => if dev < c then c-1 else c) }

/-- The number of the current partition when one is deleted; `none` when there is no current one. -/
def partnumAfterDel (s : State) (dev part : ℕ) : Option ℕ :=
  if s.current = some dev then
    match mtdPartInfo s.devices dev s.partnum, mtdPartInfo s.devices dev part with
    | some cur, some p =>
      if s.partnum = part then some 0
      else if p.offset ≤ cur.offset then some ((s.partnum+255) % 256)
      else some s.partnum
    | _, _ => none
  else none

def partDelCmd (s : State) (dev part : ℕ) : Option State :=
  match s.devices[dev]? with
  | none => none
  | some d =>
    if d.numParts = 1 then deviceDel s dev
    else
      let devices := partDel s.devices dev part
      match partnumAfterDel s dev part with
      | some n => currentSave { s with devices := devices, partnum := n }
      | none => indexPartitions { s with devices := devices }

def deletePartition (s : State) (id : Text) : Option (ℕ × State) :=
  match findDevAndPart s.devices id with
  | none => some (1, s)
  | some (dev, part) => do
    let s ← partDelCmd s dev part
    generateMtdpartsSave s

def deviceAdd (s : State) (dev : MtdDevice) : Option State :=
  let devices := s.devices ++ [dev]
  if s.devices = [] then currentSave { s with devices := devices, current := some 0, partnum := 0 }
  else indexPartitions { s with devices := devices }

/-- `part_add` on the device at this place. -/
def partAddCmd (cfg : Config) (s : State) (i : ℕ) (part : PartInfo) : Option (ℕ × State) :=
  match s.devices[i]? with
  | none => none
  | some d =>
    match partValidate cfg.flash d.id part with
    | none => some (1, s)
    | some p =>
      match partSortAdd p d.parts with
      | none => some (1, s)
      | some parts =>
        let s1 := { s with devices := s.devices.set i { d with parts := parts } }
        let cur := if s.current = some i then mtdPartInfo s.devices i s.partnum else none
        match cur, d.parts.find? (fun q => p.offset ≤ q.offset) with
        | some c, some q =>
          if q.offset ≤ c.offset then
            (currentSave { s1 with partnum := (s.partnum+1) % 256 }).map (fun s => (0, s))
          else (indexPartitions s1).map (fun s => (0, s))
        | _, _ => (indexPartitions s1).map (fun s => (0, s))

def addText (id : MtdId) (size name flag : Text) : Text :=
  id.mtdId ++ [':'] ++ size ++ ['('] ++ name ++ [')'] ++ flag

/-- The length as it is counted in 8 bits. -/
def addLen (id : MtdId) (size name flag : Text) : ℕ :=
  (id.mtdId.length+1+size.length+(name.length+2)+(if flag.length = 2 then 2 else 0)) % 256

def linkDevice (cfg : Config) (s : State) (dev : MtdDevice) : Option (ℕ × State) :=
  match s.devices.findIdx? (fun d => d.id.type = dev.id.type ∧ d.id.num = dev.id.num) with
  | none => (deviceAdd s dev).map (fun s => (0, s))
  | some i =>
    match dev.parts.head? with
    | none => none
    | some p => partAddCmd cfg s i p

def addPartition (cfg : Config) (s : State) (dev size name flag : Text) : Option (ℕ × State) :=
  match mtdIdParse dev with
  | none => some (1, s)
  | some (type, num, _) =>
    match idFind s.ids type num with
    | none => some (1, s)
    | some id =>
      if partAddDescMaxlen ≤ addLen id size name flag then some (1, s)
      else if partAddDescMaxlen ≤ (addText id size name flag).length then none
      else match deviceParse cfg.flash s.ids s.devices (addText id size name flag) with
        | none => some (1, s)
        | some r => do
          let s ← indexPartitions s
          let q ← linkDevice cfg s r.1
          if q.1 ≠ 0 then return q else generateMtdpartsSave q.2

inductive Cmd
  | setIds (t : Option Text)
  | setParts (t : Option Text)
  | setPartition (t : Option Text)
  | init
  | default
  | delall
  | add (dev size name flag : Text)
  | del (id : Text)
  | chpart (id : Text)
deriving DecidableEq, Repr

def chpart (s : State) (id : Text) : Option (ℕ × State) :=
  match findDevAndPart s.devices id with
  | none => some (1, s)
  | some (dev, part) =>
    (currentSave { s with current := some dev, partnum := part % 256 }).map (fun s => (0, s))

/-- A command that begins with `mtdparts_init`. -/
def afterInit (cfg : Config) (s : State) (act : State → Option (ℕ × State)) : Option (ℕ × State) := do
  let r ← mtdpartsInit cfg s
  if r.1 ≠ 0 then return (1, r.2) else act r.2

def setDefaults (cfg : Config) (s : State) : State :=
  { s with envIds := cfg.mtdidsDefault, envParts := cfg.mtdpartsDefault, envPartition := none }

def exec (cfg : Config) (s : State) : Cmd → Option (ℕ × State)
  | .setIds t => some (0, { s with envIds := t })
  | .setParts t => some (0, { s with envParts := t })
  | .setPartition t => some (0, { s with envPartition := t })
  | .init => mtdpartsInit cfg s
  | .default => (mtdpartsInit cfg (setDefaults cfg s)).map (fun r => (0, r.2))
  | .delall => do
    let r ← mtdpartsInit cfg s
    let s ← mtdDevicesInit { r.2 with envParts := none }
    return (0, s)
  | .add dev size name flag => afterInit cfg s (fun s => addPartition cfg s dev size name flag)
  | .del id => afterInit cfg s (fun s => deletePartition s id)
  | .chpart id => afterInit cfg s (fun s => chpart s id)

/-! ## What the variables describe -/

def described (flash : Flash) (s : State) : List MtdDevice :=
  match s.envIds, s.envParts with
  | some ids, some parts => (parseMtdparts flash (parseMtdids flash ids).2 parts).2
  | _, _ => []

/-- The current partition is there, or there are no devices. -/
structure Designates (s : State) : Prop where
  empty : s.current = none → s.devices = []
  there : ∀ dev, s.current = some dev → ∃ p, mtdPartInfo s.devices dev s.partnum = some p

end UBoot.Mtdparts
