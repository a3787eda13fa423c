import Mathlib.Tactic

/-!
# Flattened device trees: `lib/libfdt/fdt.c` and `fdt_ro.c`

A blob is the memory seen from the address it is at. Offsets are 32-bit words;
those from 2^31 on are negative, and a negative result is an error code. `none`
is a walk that does not end.
-/

set_option autoImplicit false

namespace UBoot.Fdt

abbrev Blob := ℕ → UInt8
abbrev Name := List UInt8

instance : LawfulBEq Name := inferInstance

@[irreducible] def w32 (x : ℕ) : ℕ := x % 4294967296

/-- The difference of two 32-bit words. -/
def minus (x y : ℕ) : ℕ := w32 (4294967296+x-y)

def isNeg (x : ℕ) : Prop := 2147483648 ≤ x

instance (x : ℕ) : Decidable (isNeg x) := inferInstanceAs (Decidable (_ ≤ _))

/-- `-FDT_ERR_...` -/
def err (code : ℕ) : ℕ := 4294967296-code

def errNotfound : ℕ := err 1
def errNospace : ℕ := err 3
def errBadoffset : ℕ := err 4
def errBadpath : ℕ := err 5
def errBadstate : ℕ := err 7
def errTruncated : ℕ := err 8
def errBadmagic : ℕ := err 9
def errBadversion : ℕ := err 10
def errBadstructure : ℕ := err 11
def errBadlayout : ℕ := err 12

def byteAt (b : Blob) (a : ℕ) : UInt8 := b (w32 a)

@[irreducible] def fdt32 (b : Blob) (a : ℕ) : ℕ :=
  16777216*(byteAt b a).toNat+65536*(byteAt b (a+1)).toNat+256*(byteAt b (a+2)).toNat+
    (byteAt b (a+3)).toNat

/-! ## The header -/

def magic (b : Blob) : ℕ := fdt32 b 0
def totalsize (b : Blob) : ℕ := fdt32 b 4
def offDtStruct (b : Blob) : ℕ := fdt32 b 8
def offDtStrings (b : Blob) : ℕ := fdt32 b 12
def version (b : Blob) : ℕ := fdt32 b 20
def lastCompVersion (b : Blob) : ℕ := fdt32 b 24
def sizeDtStruct (b : Blob) : ℕ := fdt32 b 36

def fdtMagic : ℕ := 0xd00dfeed
def fdtSwMagic : ℕ := 0x2ff20112

def checkHeader (b : Blob) : ℕ :=
  if magic b = fdtMagic then
    if version b < 0x10 then errBadversion
    else if 0x11 < lastCompVersion b then errBadversion
    else 0
  else if magic b = fdtSwMagic then
    if sizeDtStruct b = 0 then errBadstate else 0
  else errBadmagic

/-! ## Tags -/

/-- `fdt_offset_ptr`, as the address it points to. -/
def offsetPtr (b : Blob) (offset len : ℕ) : Option ℕ :=
  let absoffset := w32 (offset+offDtStruct b)
  if absoffset < offset ∨ w32 (absoffset+len) < absoffset ∨ totalsize b < w32 (absoffset+len) then
    none
  else if 0x11 ≤ version b ∧
      (w32 (offset+len) < offset ∨ sizeDtStruct b < w32 (offset+len)) then none
  else some (w32 (offDtStruct b+offset))

inductive Tag where
  | beginNode | endNode | prop | nop | done
  deriving DecidableEq, Repr

/-- A tag and the offset behind it, or the end and why it comes. -/
structure Step where
  tag : Tag
  next : ℕ
  deriving DecidableEq, Repr

def walkFuel : ℕ := 1099511627776

/-- The offset behind the name of a node. -/
@[grind]
def skipName (b : Blob) : ℕ → ℕ → Option ℕ
  | 0, _ => none
  | fuel+1, offset =>
    match offsetPtr b offset 1 with
    | none => none
    | some p => if byteAt b p ≠ 0 then skipName b fuel (w32 (offset+1)) else some (w32 (offset+1))

/-- The tag at an offset and the offset behind what it heads. -/
def tagBody (b : Blob) (tag offset : ℕ) : Option (Tag × ℕ) :=
  if tag = 1 then (skipName b walkFuel offset).map fun e => (.beginNode, e)
  else if tag = 3 then (offsetPtr b offset 4).map fun p => (.prop, w32 (offset+8+fdt32 b p))
  else if tag = 9 then some (.done, offset)
  else if tag = 2 then some (.endNode, offset)
  else if tag = 4 then some (.nop, offset)
  else none

def tagalign (x : ℕ) : ℕ := w32 (x+3)/4*4

@[grind]
def nextTag (b : Blob) (startoffset : ℕ) : Step :=
  match offsetPtr b startoffset 4 with
  | none => ⟨.done, errTruncated⟩
  | some p =>
    match tagBody b (fdt32 b p) (w32 (startoffset+4)) with
    | none => ⟨.done, errBadstructure⟩
    | some (tag, offset) =>
      match offsetPtr b startoffset (minus offset startoffset) with
      | none => ⟨.done, errBadstructure⟩
      | some _ => ⟨tag, tagalign offset⟩

/-- `_fdt_check_node_offset` and `_fdt_check_prop_offset`. -/
def checkOffset (b : Blob) (tag : Tag) (offset : ℕ) : ℕ :=
  if isNeg offset ∨ offset % 4 ≠ 0 ∨ (nextTag b offset).tag ≠ tag then errBadoffset
  else (nextTag b offset).next

def checkNodeOffset (b : Blob) (offset : ℕ) : ℕ := checkOffset b .beginNode offset
def checkPropOffset (b : Blob) (offset : ℕ) : ℕ := checkOffset b .prop offset

/-! ## Nodes -/

/-- The loop of `fdt_next_node`: the offset and the depth. -/
@[grind]
def nextNodeLoop (b : Blob) : ℕ → ℕ → ℤ → Option (ℕ × ℤ)
  | 0, _, _ => none
  | fuel+1, offset, depth =>
    match (nextTag b offset).tag with
    | .prop => nextNodeLoop b fuel (nextTag b offset).next depth
    | .nop => nextNodeLoop b fuel (nextTag b offset).next depth
    | .beginNode => some (offset, depth+1)
    | .endNode =>
      if depth-1 < 0 then some ((nextTag b offset).next, depth-1)
      else nextNodeLoop b fuel (nextTag b offset).next (depth-1)
    | .done =>
      if isNeg (nextTag b offset).next then some ((nextTag b offset).next, depth)
      else some (errNotfound, depth)

def nextNode (b : Blob) (offset : ℕ) (depth : ℤ) : Option (ℕ × ℤ) :=
  if isNeg offset then nextNodeLoop b walkFuel 0 depth
  else if isNeg (checkNodeOffset b offset) then some (checkNodeOffset b offset, depth)
  else nextNodeLoop b walkFuel (checkNodeOffset b offset) depth

def firstSubnode (b : Blob) (offset : ℕ) : Option ℕ :=
  (nextNode b offset 0).map fun (o, depth) => if isNeg o ∨ depth ≠ 1 then errNotfound else o

@[grind]
def nextSubnodeLoop (b : Blob) : ℕ → ℕ → ℤ → Option ℕ
  | 0, _, _ => none
  | fuel+1, offset, depth =>
    match nextNode b offset depth with
    | none => none
    | some (o, d) =>
      if isNeg o ∨ d < 1 then some errNotfound
      else if 1 < d then nextSubnodeLoop b fuel o d
      else some o

def nextSubnode (b : Blob) (offset : ℕ) : Option ℕ := nextSubnodeLoop b walkFuel offset 1

/-- `fdt_for_each_subnode` with a body that may leave the loop with a result;
otherwise the value of the loop variable behind the loop. -/
@[grind]
def forEachSubnode {α : Type} (b : Blob) (body : ℕ → Option (Option α)) :
    ℕ → ℕ → Option (Except ℕ α)
  | 0, _ => none
  | fuel+1, node =>
    if isNeg node then some (.error node)
    else
      match body node with
      | none => none
      | some (some a) => some (.ok a)
      | some none =>
        match nextSubnode b node with
        | none => none
        | some node' => forEachSubnode b body fuel node'

def forSubnodes {α : Type} (b : Blob) (parent : ℕ) (body : ℕ → Option (Option α)) :
    Option (Except ℕ α) :=
  (firstSubnode b parent).bind fun node => forEachSubnode b body walkFuel node

/-! ## Names -/

/-- The string at an address. -/
@[grind]
def cstr (b : Blob) : ℕ → ℕ → Name
  | 0, _ => []
  | fuel+1, a => if byteAt b a = 0 then [] else byteAt b a::cstr b fuel (a+1)

def memory (b : Blob) (a len : ℕ) : Name := (List.range len).map fun k => byteAt b (a+k)

def cstrAt (b : Blob) (a : ℕ) : Name := cstr b 4294967296 a

/-- `strcmp` of the string at an address. -/
def strEq (b : Blob) (a : ℕ) (s : Name) : Bool :=
  memory b a s.length = s ∧ byteAt b (a+s.length) = 0

def nodenameEq (b : Blob) (offset : ℕ) (s : Name) : Bool :=
  match offsetPtr b (w32 (offset+4)) (s.length+1) with
  | none => false
  | some p => memory b p s.length = s ∧
    (byteAt b (p+s.length) = 0 ∨ 64 ∉ s ∧ byteAt b (p+s.length) = 64)

/-- `fdt_get_name`, as the address of the name. -/
def getName (b : Blob) (nodeoffset : ℕ) : Option ℕ :=
  if checkHeader b ≠ 0 ∨ isNeg (checkNodeOffset b nodeoffset) then none
  else some (w32 (offDtStruct b+nodeoffset+4))

def fdtString (b : Blob) (stroffset : ℕ) : ℕ := w32 (offDtStrings b+stroffset)

@[grind]
def subnodeLoop (b : Blob) (name : Name) : ℕ → ℕ → ℤ → Option ℕ
  | 0, _, _ => none
  | fuel+1, offset, depth =>
    if isNeg offset ∨ depth < 0 then some (if depth < 0 then errNotfound else offset)
    else if depth = 1 ∧ nodenameEq b offset name then some offset
    else
      match nextNode b offset depth with
      | none => none
      | some (o, d) => subnodeLoop b name fuel o d

def subnodeOffset (b : Blob) (parent : ℕ) (name : Name) : Option ℕ :=
  if checkHeader b ≠ 0 then some (checkHeader b)
  else subnodeLoop b name walkFuel parent 0

/-- `fdt_path_offset` of an absolute path, given by its components. -/
@[grind]
def pathOffset (b : Blob) : List Name → ℕ → Option ℕ
  | [], offset => some offset
  | name::rest, offset =>
    match subnodeOffset b offset name with
    | none => none
    | some o => if isNeg o then some o else pathOffset b rest o

/-! ## Properties -/

@[grind]
def nextpropLoop (b : Blob) : ℕ → ℕ → Option ℕ
  | 0, _ => none
  | fuel+1, offset =>
    match (nextTag b offset).tag with
    | .done => some (if isNeg (nextTag b offset).next then (nextTag b offset).next
        else errBadstructure)
    | .prop => some offset
    | .nop => nextpropLoop b fuel (nextTag b offset).next
    | .beginNode => some errNotfound
    | .endNode => some errNotfound

def nextprop (b : Blob) (offset : ℕ) : Option ℕ := nextpropLoop b walkFuel offset

def firstPropertyOffset (b : Blob) (nodeoffset : ℕ) : Option ℕ :=
  if isNeg (checkNodeOffset b nodeoffset) then some (checkNodeOffset b nodeoffset)
  else nextprop b (checkNodeOffset b nodeoffset)

def nextPropertyOffset (b : Blob) (offset : ℕ) : Option ℕ :=
  if isNeg (checkPropOffset b offset) then some (checkPropOffset b offset)
  else nextprop b (checkPropOffset b offset)

/-- The fields of a property at an address. -/
def propLen (b : Blob) (offset : ℕ) : ℕ := fdt32 b (w32 (offDtStruct b+offset)+4)
def propNameoff (b : Blob) (offset : ℕ) : ℕ := fdt32 b (w32 (offDtStruct b+offset)+8)
def propData (b : Blob) (offset : ℕ) : ℕ := w32 (offDtStruct b+offset+12)

@[grind]
def getPropertyLoop (b : Blob) (name : Name) : ℕ → ℕ → Option (Except ℕ ℕ)
  | 0, _ => none
  | fuel+1, offset =>
    if isNeg offset then some (.error offset)
    else if isNeg (checkPropOffset b offset) then some (.error (err 13))
    else if strEq b (fdtString b (propNameoff b offset)) name then some (.ok offset)
    else
      match nextPropertyOffset b offset with
      | none => none
      | some o => getPropertyLoop b name fuel o

/-- `fdt_get_property`: the offset of the property. -/
def getProperty (b : Blob) (nodeoffset : ℕ) (name : Name) : Option (Except ℕ ℕ) :=
  (firstPropertyOffset b nodeoffset).bind fun o => getPropertyLoop b name walkFuel o

/-- The address of a property's value and its length. -/
structure Value where
  data : ℕ
  len : ℕ
  deriving DecidableEq, Repr

def getprop (b : Blob) (nodeoffset : ℕ) (name : Name) : Option (Except ℕ Value) :=
  (getProperty b nodeoffset name).map fun r => r.map fun o => ⟨propData b o, propLen b o⟩

/-- A blob given by its words. -/
def ofWords (words : List ℕ) : Blob := fun a => UInt8.ofNat (words.getD (a/4) 0/256^(3-a%4))

end UBoot.Fdt
