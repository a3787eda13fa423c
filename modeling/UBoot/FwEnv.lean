import UBoot.EnvFlags

/-!
# Editing an environment image from Linux: `tools/env/fw_env.c`

The data area is a memory, changed in place. `none` is a loop that does not
stop inside the area. The access flags and the flash device are parameters.
-/

set_option autoImplicit false

namespace UBoot.FwEnv
open UBoot.ByteStore UBoot.EnvScan
open UBoot.EnvFlags (VarAccess preventDelete preventCreate preventOverwr preventNondefOverwr)

abbrev Str := List UInt8

/-! ## Reading -/

/-- `fw_getenv`: the text from the value on, up to the end of the entry. -/
def fwGetenv (data : Memory) (size : ℕ) (name : Str) : Option (Option Str) :=
  (scan data size name (size+2) 0 0).map fun
    | .unterminated => none
    | .absent _ _ => none
    | .present _ nxt val => some (load data val (nxt-val))

/-! ## Access flags -/

structure Tool where
  /-- `ENV_SIZE` -/
  size : ℕ
  /-- `env_flags_get_varaccess`, which reads `.flags` from the data area. -/
  getVaraccess : Memory → Str → VarAccess
  fwGetdefenv : Str → Option Str

variable (t : Tool)

/-- `env_flags_validate_varaccess`; true if the access is denied. -/
def Tool.validateVaraccess (data : Memory) (name : Str) (mask : ℕ) : Bool :=
  mask &&& (t.getVaraccess data name).mask ≠ 0

/-! ## Writing -/

/-- The loop that moves the entries behind the deleted one. -/
@[grind]
def shift : ℕ → ℕ → ℕ → Memory → Option (ℕ × Memory)
  | 0, _, _, _ => none
  | fuel+1, env, nxt, data =>
    let data' := Function.update data env (data nxt)
    if data' env = 0 ∧ data' (nxt+1) = 0 then some (env, data')
    else shift fuel (env+1) (nxt+1) data'

/-- Deletes the entry at `env`, which ends at `nxt`. -/
def deleteEntry (env nxt : ℕ) (data : Memory) : Option Memory :=
  if data (nxt+1) = 0 then some (Function.update (Function.update data env 0) (env+1) 0)
  else (shift (t.size+1) env (nxt+1) data).map fun r => Function.update r.2 (r.1+1) 0

/-- The first of two terminators. -/
@[grind]
def findEnd (data : Memory) : ℕ → ℕ → Option ℕ
  | 0, _ => none
  | fuel+1, env =>
    if data env = 0 ∧ data (env+1) = 0 then some env else findEnd data fuel (env+1)

inductive Ret where
  | ok | einval | erofs | overflow
  deriving DecidableEq, Repr

/-- Appends a new definition; on overflow nothing is written. -/
def appendEntry (name value : Str) (data : Memory) : Option (Ret × Memory) :=
  (findEnd data (t.size+1) 0).map fun stop =>
    let env := if 0 < stop then stop+1 else stop
    if t.size < env+(name.length+2+(value.length+1)) then (.overflow, data)
    else (.ok, store data env (name ++ 61::(value ++ [0, 0])))

/-- Whether an overwrite of the old value is denied. -/
def Tool.overwriteDenied (data : Memory) (name oldval : Str) : Bool :=
  if t.validateVaraccess data name preventOverwr then true
  else t.validateVaraccess data name preventNondefOverwr &&
    oldval ≠ (t.fwGetdefenv name).getD []

/-- `fw_env_write`; an empty value is the same as none. -/
def fwEnvWrite (name value : Str) (data : Memory) : Option (Ret × Memory) :=
  (scan data t.size name (t.size+2) 0 0).bind fun
    | .unterminated => some (.einval, data)
    | .absent _ _ =>
      if value = [] then some (.ok, data)
      else if t.validateVaraccess data name preventCreate then some (.erofs, data)
      else appendEntry t name value data
    | .present env nxt val =>
      if value = [] then
        if t.validateVaraccess data name preventDelete then some (.erofs, data)
        else (deleteEntry t env nxt data).map fun data' => (.ok, data')
      else if t.overwriteDenied data name (load data val (nxt-val)) then some (.erofs, data)
      else (deleteEntry t env nxt data).bind (appendEntry t name value)

/-- The rest of the machine that `fw_setenv` uses. -/
structure Host where
  /-- `env_flags_validate_env_set_params` -/
  validateSetParams : Memory → Str → List Str → Bool
  realloc : ℕ → Bool
  /-- `fw_env_close` writes the image to flash. -/
  fwEnvClose : Memory → ℤ

/-- The arguments of `fw_setenv` in one string; `none` if it gets no memory. -/
@[grind]
def joinValues (realloc : ℕ → Bool) : List Str → Option Str → Option Str
  | [], value => some (value.getD [])
  | val::rest, none =>
    if realloc (val.length+1) then joinValues realloc rest (some val) else none
  | val::rest, some value =>
    if realloc (value.length+1+val.length+1) then joinValues realloc rest (some (value ++ 32::val))
    else none

/-- `fw_setenv` on an open environment; what `fw_env_write` returns is not looked at. -/
def fwSetenv (h : Host) (name : Str) (args : List Str) (data : Memory) : Option (ℤ × Memory) :=
  if !h.validateSetParams data name args then some (1, data)
  else match joinValues h.realloc args none with
    | none => some (-1, data)
    | some value => (fwEnvWrite t name value data).map fun r => (h.fwEnvClose r.2, r.2)

end UBoot.FwEnv
