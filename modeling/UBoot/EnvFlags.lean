import UBoot.EnvAttr
import UBoot.EnvScan
import Mathlib

/-!
# Flags and callbacks of environment variables

`common/env_flags.c` and `common/env_callback.c`: what a new entry of the
environment table gets, the check before a change, and the callbacks of
`.flags` and `.callbacks`, which set the attributes of all entries anew.
Memory is taken to suffice.
-/

set_option autoImplicit false

namespace UBoot.EnvFlags
open UBoot.HashTable UBoot.EnvAttr UBoot.ByteStore UBoot.EnvScan

/-! ## Reading a variable -/

/-- `getenv_f` with a buffer of `len` bytes: its value and what is in the buffer. -/
def getenvF (data : Memory) (size : ℕ) (name : CStr) (len : ℕ) : Option (Option (ℕ × CStr)) :=
  (scan data size name (size+2) 0 0).map fun
    | .unterminated => none
    | .absent _ _ => none
    | .present _ nxt val =>
      let value := load data val (nxt-val)
      if value.length < len then some (value.length, value) else some (len, value.take (len-1))

/-- `sizeof(gd->env_buf)` -/
def envBufSize : ℕ := 32

/-- What `getenv` finds outside the table: a text that is not empty, in the small buffer. -/
def getenvRaw (data : Memory) (size : ℕ) (name : CStr) : Option CStr :=
  match getenvF data size name envBufSize with
  | some (some (n, value)) => if 0 < n then some value else none
  | _ => none

def noHooks : Hooks :=
  ⟨fun _ => true, fun _ _ => none, fun _ _ => 0, none, fun _ t _ _ _ _ => some t⟩

/-- The slot that `hsearch_r` finds, which makes no use of the hooks. -/
def find (t : HTab) (name : CStr) : Option ℕ :=
  (hsearchR noHooks name none .find t 0).bind fun r => r.retval

structure Board where
  envFlagsListStatic : CStr
  envCallbackListStatic : CStr
  /-- The names of the linker list of callbacks. -/
  callbacks : List CStr
  defaultEnvironment : Memory
  /-- `CONFIG_ENV_SIZE` -/
  envSize : ℕ
  /-- `GD_FLG_ENV_READY`; before that the image is read. -/
  ready : Bool
  image : Memory
  /-- The bytes in front of a list in memory. -/
  before : CStr → CStr
  /-- Whether a callback other than those of the attribute variables accepts a change. -/
  accepts : CStr → CStr → Option CStr → EnvOp → ℕ → Bool

variable (b : Board)

def getenv (t : HTab) (name : CStr) : Option CStr :=
  if b.ready then (find t name).bind fun i => (t.table i).entry.data
  else getenvRaw b.image b.envSize name

/-- The default environment is read as an image before relocation is. -/
def getenvDefault (name : CStr) : Option CStr := getenvRaw b.defaultEnvironment b.envSize name

/-! ## Types and access -/

def vartypeRep : CStr := [115, 100, 120, 98, 105, 109]
def varaccessRep : CStr := [97, 114, 111, 99]

inductive VarAccess where
  | any | readonly | writeonce | changedefault
  deriving DecidableEq, Repr

def preventDelete : ℕ := 8
def preventCreate : ℕ := 16
def preventOverwr : ℕ := 32
def preventNondefOverwr : ℕ := 64

/-- `env_flags_varaccess_mask` -/
def VarAccess.mask : VarAccess → ℕ
  | .any => 0
  | .readonly => preventDelete ||| preventCreate ||| preventOverwr
  | .writeonce => preventDelete ||| preventOverwr
  | .changedefault => preventDelete ||| preventNondefOverwr

/-- `env_flags_parse_vartype`; a type that is not known is a string. -/
def parseVartype (flags : CStr) : ℕ :=
  match flags with
  | [] => 0
  | c::_ => if c ∈ vartypeRep then vartypeRep.idxOf c else 0

def parseVaraccess (flags : CStr) : VarAccess :=
  match flags with
  | _::c::_ =>
    if c = 114 then .readonly else if c = 111 then .writeonce
    else if c = 99 then .changedefault else .any
  | _ => .any

def parseFlagsToBin (flags : CStr) : ℕ := (parseVartype flags &&& 7) ||| (parseVaraccess flags).mask

/-- The access part of the flags of an entry. -/
def accessOf (flags : ℕ) : ℕ := flags &&& 120

def isdigit (c : UInt8) : Bool := 48 ≤ c ∧ c ≤ 57
def isxdigit (c : UInt8) : Bool := isdigit c ∨ (65 ≤ c ∧ c ≤ 70) ∨ (97 ≤ c ∧ c ≤ 102)

def isHexPrefix (value : CStr) : Bool :=
  value.getD 0 0 = 48 ∧ (value.getD 1 0 = 120 ∨ value.getD 1 0 = 88)

/-- The digits that `skip_num` passes, at most as many as given. -/
@[grind]
def skipDigits (hex : Bool) : Option ℕ → CStr → CStr
  | _, [] => []
  | some 0, value => value
  | left, c::value =>
    if (if hex then isxdigit c else isdigit c) then skipDigits hex (left.map (·-1)) value
    else c::value

def skipNum (hex : Bool) (value : CStr) (maxDigits : Option ℕ) : CStr :=
  skipDigits hex maxDigits (if hex && isHexPrefix value then value.drop 2 else value)

/-- The numbers of an address, `left` of them, with the separator between them. -/
@[grind]
def numbers (hex : Bool) (digits : ℕ) (sep : UInt8) : ℕ → CStr → Bool
  | 0, _ => true
  | left+1, cur =>
    let stop := skipNum hex cur (some digits)
    if stop.length = cur.length then false
    else if hex && isHexPrefix cur && stop.length+2 = cur.length then false
    else if left = 0 then stop = []
    else stop.head? = some sep && numbers hex digits sep left stop.tail

/-- `_env_flags_validate_type` -/
def validateType (value : CStr) (type : ℕ) : Bool :=
  match type with
  | 1 => skipNum false value none = []
  | 2 => skipNum true value none = [] ∧ ¬(isHexPrefix value ∧ value.length = 2)
  | 3 => (value.getD 0 0 ∈ ([49, 121, 116, 89, 84, 48, 110, 102, 78, 70] : CStr)) ∧
      value.getD 1 0 = 0
  | 4 => numbers false 3 46 4 value
  | 5 => numbers true 2 58 6 value
  | 6 => false
  | _ => true

/-! ## The check before a change -/

def hForce : ℕ := 2

/-- `env_flags_validate`; `true` is a denial. -/
def envFlagsValidate (item : Entry) (newval : Option CStr) (op : EnvOp) (flag : ℕ) : Bool :=
  if op ≠ .delete ∧ !validateType (newval.getD []) (item.flags &&& 7) then true
  else if flag &&& hForce ≠ 0 then false
  else match op with
    | .delete => item.flags &&& preventDelete ≠ 0
    | .overwrite =>
      if item.flags &&& preventOverwr ≠ 0 then true
      else if item.flags &&& preventNondefOverwr ≠ 0 then
        item.data.getD [] ≠ (getenvDefault b (item.key.getD [])).getD []
      else false
    | .create => item.flags &&& preventCreate ≠ 0

/-! ## Attributes of a new entry -/

def flagsVar : CStr := [46, 102, 108, 97, 103, 115]
def callbackVar : CStr := [46, 99, 97, 108, 108, 98, 97, 99, 107, 115]

/-- The list of the environment first, then the static one; `none` if the name is in neither.
A lookup that does not end is taken for one that finds nothing. -/
def lookupAttr (dynamic : Option CStr) (static name : CStr) : Option CStr :=
  match dynamic.bind fun list => (envAttrLookup (b.before list) list name).join with
  | some attributes => some attributes
  | none => (envAttrLookup (b.before static) static name).join

def findEnvCallback (name : CStr) : Option ℕ :=
  if name ∈ b.callbacks then some (b.callbacks.idxOf name) else none

/-- `env_flags_init`; an entry starts without flags. -/
def envFlagsInit (t : HTab) (name : CStr) : ℕ :=
  match lookupAttr b (getenv b t flagsVar) b.envFlagsListStatic name with
  | none => 0
  | some flags => if flags = [] then 0 else parseFlagsToBin flags

/-- `env_callback_init`; an entry starts without a callback. -/
def envCallbackInit (t : HTab) (name : CStr) : Option ℕ :=
  match lookupAttr b (getenv b t callbackVar) b.envCallbackListStatic name with
  | none => none
  | some callback => if callback = [] then none else findEnvCallback b callback

/-! ## The callbacks of the attribute variables -/

/-- `hwalk_r` -/
def hwalk (f : Entry → Entry) (t : HTab) : HTab :=
  { t with table := fun i =>
      if 1 ≤ i ∧ i ≤ t.size ∧ 0 < (t.table i).used then
        ⟨(t.table i).used, f (t.table i).entry⟩
      else t.table i }

def clearFlags (e : Entry) : Entry := { e with flags := 0 }
def clearCallback (e : Entry) : Entry := { e with callback := none }

def setFlags (t : HTab) (name : CStr) (value : Option CStr) : ℤ × HTab :=
  match find t name with
  | none => (0, t)
  | some i =>
    let flags := if value.getD [] = [] then 0 else parseFlagsToBin (value.getD [])
    (0, t.setEntry i { (t.table i).entry with flags := flags })

def onFlags (value : Option CStr) (t : HTab) : HTab :=
  let t := hwalk clearFlags t
  let t := (envAttrWalk setFlags (some b.envFlagsListStatic) t).2
  (envAttrWalk setFlags value t).2

/-- A callback that is not known leaves the one that is there. -/
def setCallback (t : HTab) (name : CStr) (value : Option CStr) : ℤ × HTab :=
  match find t name with
  | none => (0, t)
  | some i =>
    if value.getD [] = [] then (0, t.setEntry i { (t.table i).entry with callback := none })
    else match findEnvCallback b (value.getD []) with
      | none => (0, t)
      | some c => (0, t.setEntry i { (t.table i).entry with callback := some c })

def onCallbacks (value : Option CStr) (t : HTab) : HTab :=
  let t := hwalk clearCallback t
  let t := (envAttrWalk (setCallback b) (some b.envCallbackListStatic) t).2
  (envAttrWalk (setCallback b) value t).2

def flagsCallback : CStr := [102, 108, 97, 103, 115]
def callbacksCallback : CStr := [99, 97, 108, 108, 98, 97, 99, 107, 115]

/-- The callback with a number of the linker list. -/
def runCallbackNumber (c : ℕ) (t : HTab) (key : CStr) (value : Option CStr) (op : EnvOp)
    (flag : ℕ) : Option HTab :=
  let name := b.callbacks.getD c []
  if name = flagsCallback then some (onFlags b value t)
  else if name = callbacksCallback then some (onCallbacks b value t)
  else if b.accepts name key value op flag then some t else none

/-- The hooks of `env_htab`. -/
def envHooks : Hooks where
  malloc _ := true
  envCallbackInit := envCallbackInit b
  envFlagsInit := envFlagsInit b
  changeOk := some fun _ item newval op flag => envFlagsValidate b item newval op flag
  callback := runCallbackNumber b

end UBoot.EnvFlags
