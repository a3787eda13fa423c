import UBoot.HashTable
import UBoot.ShellSort
import Mathlib

/-!
# Text form of the environment: `hexport_r` and `himport_r`

The exporter measures the live entries, sorts them and writes them out; the
importer walks over a private copy of the text. Both passes of the exporter
are kept apart, because the length they arrive at need not agree. The importer
only moves forward and overwrites only what it has passed, so its position is
the rest of the text; running off the end of the copy is the result `none`.
-/

set_option autoImplicit false

namespace UBoot.EnvText
open UBoot.HashTable

def backslash : UInt8 := 92
def equals : UInt8 := 61

/-! ## Comparison and order -/

/-- Conversion of an `int` to `signed char`. -/
def signedChar (d : ℤ) : ℤ := (d+128) % 256-128

/-- `strcmp`; the difference of two characters is kept in a `signed char`. -/
def strcmp : CStr → CStr → ℤ
  | [], [] => 0
  | [], c::_ => signedChar (0-c.toNat)
  | c::_, [] => signedChar (c.toNat-0)
  | c::cs, d::ds => if signedChar (c.toNat-d.toNat) ≠ 0
      then signedChar (c.toNat-d.toNat) else strcmp cs ds

/-- A pointer that the C code dereferences without a test. -/
def deref (s : Option CStr) : CStr := s.getD []

def cmpkey (a b : Entry) : ℤ := strcmp (deref a.key) (deref b.key)

def qsort (l : List Entry) : List Entry :=
  ShellSort.front l.length
    (ShellSort.sort (fun a b => cmpkey a b ≤ 0) l.length (fun i => l.getD i ⟨none, none, none, 0⟩))

/-! ## Export -/

def hNoclear : ℕ := 1
def hHideDot : ℕ := 8

def liveEntries (t : HTab) : List Entry :=
  ((List.range' 1 t.size).filter fun i => 0 < (t.table i).used).map fun i => (t.table i).entry

/-- The entries that pass 1 selects: named in `argv`, if that has names, and
not hidden. -/
def selected (t : HTab) (flag : ℕ) (argv : List CStr) : List Entry :=
  (liveEntries t).filter fun e => (argv = [] ∨ deref e.key ∈ argv) ∧
    ¬ (flag &&& hHideDot ≠ 0 ∧ (deref e.key).head? = some 46)

/-- Needs an escape character in front. -/
def special (sep c : UInt8) : Bool := c = sep ∨ c = backslash

/-- The length that pass 1 allows for a value. -/
def measured (sep : UInt8) (v : CStr) : ℕ :=
  if sep = 0 then v.length else v.length+v.countP (special sep)

def entryLen (sep : UInt8) (e : Entry) : ℕ :=
  (deref e.key).length+2+measured sep (deref e.data)+2

def totlen (sep : UInt8) (es : List Entry) : ℕ := (es.map (entryLen sep)).sum

/-- The characters that pass 2 writes for a value. -/
def escaped (sep : UInt8) (v : CStr) : CStr :=
  v.flatMap fun c => if special sep c then [backslash, c] else [c]

def encode (sep : UInt8) (k v : CStr) : CStr := k ++ equals::(escaped sep v ++ [sep])

def encodeEntry (sep : UInt8) (e : Entry) : CStr := encode sep (deref e.key) (deref e.data)

/-- What pass 2 stores from the start of the buffer on, the terminator
included, and the buffer size that is returned. -/
structure Export where
  text : List UInt8
  size : ℕ
  deriving DecidableEq, Repr

/-- The stores of pass 2 stay inside the buffer. -/
def Export.Inside (e : Export) : Prop := e.text.length ≤ e.size

def Export.buffer (e : Export) : List UInt8 := e.text ++ List.replicate (e.size-e.text.length) 0

/-- `resp` says whether the caller gave a buffer, `calloc` whether one can be
allocated otherwise. -/
def hexportR (t : HTab) (sep : UInt8) (flag : ℕ) (resp calloc : Bool) (size : ℕ)
    (argv : List CStr) : Except Errno Export :=
  let list := selected t flag argv
  if size ≠ 0 ∧ size < totlen sep list+1 then .error .enomem
  else if !resp && !calloc then .error .enomem
  else .ok ⟨(qsort list).flatMap (encodeEntry sep) ++ [0],
    if size ≠ 0 then size else totlen sep list+1⟩

/-! ## Import -/

def isblank (c : UInt8) : Bool := c = 32 ∨ c = 9

inductive Item where
  | comment
  | delete (name : CStr)
  | set (name value : CStr)
  deriving DecidableEq, Repr

/-- The value loop: an escape character is dropped unless a terminator follows. -/
@[grind]
def parseValue (sep : UInt8) : List UInt8 → Option (CStr × List UInt8)
  | [] => none
  | [c] => if c = 0 ∨ c = sep then some ([], []) else none
  | c::d::rest =>
    if c = 0 ∨ c = sep then some ([], d::rest)
    else if c = backslash ∧ d ≠ 0 then (parseValue sep rest).map fun (v, r) => (d::v, r)
    else (parseValue sep (d::rest)).map fun (v, r) => (c::v, r)

/-- One round of the parse loop: the item and the rest of the text. -/
def parseItem (sep : UInt8) (text : List UInt8) : Option (Item × List UInt8) :=
  match text.dropWhile isblank with
  | [] => none
  | c::rest =>
    if c = 35 then
      match (c::rest).dropWhile (fun c => c ≠ 0 && c ≠ sep) with
      | [] => none
      | _::after => some (.comment, after)
    else
      let name := (c::rest).takeWhile (fun c => c ≠ equals && c ≠ 0 && c ≠ sep)
      match (c::rest).dropWhile (fun c => c ≠ equals && c ≠ 0 && c ≠ sep) with
      | [] => none
      | d::after =>
        if d = 0 then some (.delete name, after)
        else match after with
          | [] => none
          | e::after' =>
            if e = 0 ∨ d = sep ∨ e = sep then
              some (.delete name, if d = equals then after' else after)
            else (parseValue sep after).map fun (v, r) => (.set name v, r)

/-- `drop_var_from_set` on the local copy of the variable list. -/
def dropVarFromSet (name : CStr) (vars : List (Option CStr)) : Bool × List (Option CStr) :=
  if vars = [] then (true, vars)
  else (some name ∈ vars, vars.map fun v => if v = some name then none else v)

/-- Whether a deletion or an entry succeeds is not looked at. -/
def applyItem (h : Hooks) (flag : ℕ) (t : HTab) (vars : List (Option CStr)) :
    Item → Option (HTab × List (Option CStr))
  | .comment => some (t, vars)
  | .delete name =>
    let (wanted, vars') := dropVarFromSet name vars
    if wanted then (hdeleteR h name t flag).map fun r => (r.htab, vars') else some (t, vars')
  | .set name value =>
    let (wanted, vars') := dropVarFromSet name vars
    if wanted then (hsearchR h name (some value) .enter t flag).map fun r => (r.htab, vars')
    else some (t, vars')

@[grind]
def importLoop (h : Hooks) (sep : UInt8) (flag : ℕ) :
    ℕ → List UInt8 → HTab → List (Option CStr) → Option (HTab × List (Option CStr))
  | 0, _, _, _ => none
  | fuel+1, text, t, vars =>
    (parseItem sep text).bind fun (item, rest) =>
      (applyItem h flag t vars item).bind fun (t', vars') =>
        match rest with
        | [] => some (t', vars')
        | c::_ => if c = 0 then some (t', vars') else importLoop h sep flag fuel rest t' vars'

@[grind]
def deleteRest (h : Hooks) (flag : ℕ) : List (Option CStr) → HTab → Option HTab
  | [], t => some t
  | none::vars, t => deleteRest h flag vars t
  | some v::vars, t => (hdeleteR h v t flag).bind fun r => deleteRest h flag vars r.htab

def configEnvMinEntries : ℕ := 128
def configEnvMaxEntries : ℕ := 512

/-- The table that the text is read into: the given one if there is one and it
is not to be cleared, else one created for the size of the text. -/
def importTable (htab : Option HTab) (size flag : ℕ) : Option HTab :=
  match if flag &&& hNoclear = 0 then none else htab with
  | some t => some t
  | none => hcreateR (min (configEnvMinEntries+size/8) configEnvMaxEntries)

/-- `himport_r` on a text given with its size; `none` when it reads past the
end of its copy, otherwise the return value and the table, if there is one. -/
def himportR (h : Hooks) (htab : Option HTab) (malloc : Bool) (env : List UInt8) (sep : UInt8)
    (flag : ℕ) (vars : List CStr) : Option (ℕ × Option HTab) :=
  if !malloc then some (0, htab)
  else match importTable htab env.length flag with
    | none => some (0, none)
    | some t =>
      (importLoop h sep flag (env.length+1) env t (vars.map some)).bind fun (t', rest) =>
        (deleteRest h flag rest t').map fun t'' => (1, some t'')

end UBoot.EnvText
