import UBoot.EnvAttr

/-!
# PXE menus: the parser of `common/cmd_pxe.c`

Memory is the list of the bytes from the menu text on, and grows when a file is stored
behind its end. The place in the text is the list of what is in front of the cursor. What
`get_pxe_file` finds under a path is a parameter. A `fault` is a read behind the memory,
other undefined behaviour, or a loop that has used up its turns.
-/

set_option autoImplicit false

namespace UBoot.Pxe

open EnvAttr (isspace)

abbrev Bytes := List UInt8

def word (l : List Char) : Bytes := l.map fun c => c.toNat.toUInt8

structure PxeLabel where
  name : Bytes
  menu : Option Bytes
  kernel : Option Bytes
  append : Option Bytes
  initrd : Option Bytes
  fdt : Option Bytes
  localboot : ℤ
  deriving DecidableEq, Repr

def labelCreate (name : Bytes) : PxeLabel := ⟨name, none, none, none, none, none, 0⟩

structure PxeMenu where
  title : Option Bytes
  defaultLabel : Option Bytes
  timeout : ℤ
  prompt : ℤ
  labels : List PxeLabel
  deriving DecidableEq, Repr

def emptyMenu : PxeMenu := ⟨none, none, 0, 0, []⟩

/-! ## Outcomes -/

inductive Outcome (α : Type)
  | ok (a : α)
  | err (code : ℤ)
  | fault

namespace Outcome
variable {α β : Type}

def bind (x : Outcome α) (f : α → Outcome β) : Outcome β :=
  match x with
  | ok a => f a
  | err code => err code
  | fault => fault

instance : Monad Outcome where
  pure := ok
  bind := bind

@[simp] theorem ok_bind (a : α) (f : α → Outcome β) : (ok a >>= f) = f a := rfl
@[simp] theorem err_bind (code : ℤ) (f : α → Outcome β) : (err code >>= f) = err code := rfl
@[simp] theorem fault_bind (f : α → Outcome β) : (fault >>= f) = fault := rfl
@[simp] theorem pure_eq (a : α) : (pure a : Outcome α) = ok a := rfl

end Outcome

def EINVAL : ℤ := 22
def EMLINK : ℤ := 31

/-! ## Tokens -/

inductive TokenType
  | tEol | tString | tEof | tMenu | tTitle | tTimeout | tLabel | tKernel | tLinux | tAppend
  | tInitrd | tLocalboot | tDefault | tPrompt | tInclude | tFdt | tInvalid
  deriving DecidableEq, Repr

structure Token where
  val : Bytes
  type : TokenType

def keywords : List (Bytes × TokenType) :=
  [(word ['m', 'e', 'n', 'u'], .tMenu),
   (word ['t', 'i', 't', 'l', 'e'], .tTitle),
   (word ['t', 'i', 'm', 'e', 'o', 'u', 't'], .tTimeout),
   (word ['d', 'e', 'f', 'a', 'u', 'l', 't'], .tDefault),
   (word ['p', 'r', 'o', 'm', 'p', 't'], .tPrompt),
   (word ['l', 'a', 'b', 'e', 'l'], .tLabel),
   (word ['k', 'e', 'r', 'n', 'e', 'l'], .tKernel),
   (word ['l', 'i', 'n', 'u', 'x'], .tLinux),
   (word ['l', 'o', 'c', 'a', 'l', 'b', 'o', 'o', 't'], .tLocalboot),
   (word ['a', 'p', 'p', 'e', 'n', 'd'], .tAppend),
   (word ['i', 'n', 'i', 't', 'r', 'd'], .tInitrd),
   (word ['i', 'n', 'c', 'l', 'u', 'd', 'e'], .tInclude),
   (word ['f', 'd', 't'], .tFdt)]

inductive LexState
  | normal | keyword | sliteral

def isblank (c : UInt8) : Bool := c = 32 ∨ c = 9

def isupper (c : UInt8) : Bool := (65 ≤ c ∧ c ≤ 90) ∨ (192 ≤ c ∧ c ≤ 222 ∧ c ≠ 215)

def tolower (c : UInt8) : UInt8 := if isupper c then c+32 else c

/-- Whether `get_string` stops at a character. -/
def stops (delim c : UInt8) : Bool := c = 0 ∨ (delim = 32 ∧ isspace c) ∨ delim = c

def getString (p : Bytes) (delim : UInt8) (lower : Bool) : Outcome (Bytes × Bytes) :=
  match p.dropWhile fun c => !stops delim c with
  | [] => .fault
  | c::e => .ok ((p.takeWhile fun c => !stops delim c).map fun c => if lower then tolower c else c, c::e)

/-- The type of a word; one that is no keyword is a string. -/
def getKeyword (val : Bytes) : TokenType := (keywords.lookup val).getD .tString

def skipLine (p : Bytes) : Bytes := p.dropWhile fun c => c ≠ 0 ∧ c ≠ 10

def getToken (p : Bytes) (state : LexState) : Outcome (Token × Bytes) :=
  let blank := p.dropWhile isblank
  let c := if blank.head? = some 35 then skipLine blank else blank
  match c, state with
  | [], _ => .fault
  | 10::c, _ => .ok (⟨[], .tEol⟩, c)
  | 0::c, _ => .ok (⟨[], .tEof⟩, c)
  | c, .sliteral => do
    let (val, e) ← getString c 10 false
    return (⟨val, .tString⟩, e)
  | c, .keyword => do
    let (val, e) ← getString c 32 true
    return (⟨val, getKeyword val⟩, e)
  | c, .normal => .ok (⟨[], .tInvalid⟩, c)

def eolOrEof (c : Bytes) : Outcome Bytes :=
  match skipLine c with
  | [] => .fault
  | x::e => .ok (x::e)

/-! ## Literals -/

/-- No literal stands for the error; the cursor has moved then, too. -/
def parseSliteral (c : Bytes) : Outcome (Option Bytes × Bytes) := do
  let (t, c) ← getToken c .sliteral
  return (if t.type = .tString then some t.val else none, c)

/-- `parse_sliteral` with its error checked. -/
def literal (c : Bytes) : Outcome (Bytes × Bytes) := do
  let (val, c) ← parseSliteral c
  match val with
  | none => .err (-EINVAL)
  | some val => .ok (val, c)

def digitValue (c : UInt8) : Option ℕ :=
  if 48 ≤ c ∧ c ≤ 57 then some (c.toNat-48)
  else if 97 ≤ c ∧ c ≤ 102 then some (c.toNat-87)
  else if 65 ≤ c ∧ c ≤ 70 then some (c.toNat-55)
  else none

def strtoulLoop (base : ℕ) : ℕ → Bytes → ℕ × Bytes
  | result, [] => (result, [])
  | result, c::l =>
    match digitValue c with
    | none => (result, c::l)
    | some v => if v < base then strtoulLoop base ((result*base+v) % 4294967296) l else (result, c::l)

/-- `simple_strtoul` for a base of 10. -/
def simpleStrtoul (l : Bytes) : ℕ × Bytes :=
  match l with
  | 48::120::c::l => if (digitValue c).isSome then strtoulLoop 16 0 (c::l) else (0, 120::c::l)
  | 48::l => strtoulLoop 10 0 l
  | l => strtoulLoop 10 0 l

def strictStrtoul (l : Bytes) : Option ℕ :=
  let (val, tail) := simpleStrtoul l
  if l = [] ∨ tail.length = l.length then none
  else if tail = [] ∨ tail = [10] then some val
  else none

def toInt (n : ℕ) : ℤ := if n < 2147483648 then n else n-4294967296

def parseInteger (c : Bytes) : Outcome (ℤ × Bytes) := do
  let (val, c) ← literal c
  match strictStrtoul val with
  | none => .err (-EINVAL)
  | some n => .ok (toInt n, c)

/-! ## Labels -/

def parseLabelMenu (c : Bytes) (cfg : PxeMenu) (label : PxeLabel) :
    Outcome (Bytes × PxeMenu × PxeLabel) := do
  let (t, c) ← getToken c .keyword
  match t.type with
  | .tDefault => do
    let c ← eolOrEof c
    return (c, { cfg with defaultLabel := some label.name }, label)
  | .tLabel => do
    let (menu, c) ← parseSliteral c
    let c ← eolOrEof c
    return (c, cfg, { label with menu := menu.or label.menu })
  | _ => do
    let c ← eolOrEof c
    return (c, cfg, label)

def initrdEq : Bytes := word ['i', 'n', 'i', 't', 'r', 'd', '=']

/-- `strstr`: the rest of the string from the first place where the other one stands. -/
def strstr (pat : Bytes) : Bytes → Option Bytes
  | [] => if pat = [] then some [] else none
  | c::l => if pat.isPrefixOf (c::l) then some (c::l) else strstr pat l

/-- The initrd of a label after an `append` line; the argument must end with a blank. -/
def appendInitrd (initrd append : Option Bytes) : Outcome (Option Bytes) :=
  match initrd, append with
  | some initrd, _ => .ok (some initrd)
  | none, none => .fault
  | none, some append =>
    match strstr initrdEq append with
    | none => .ok none
    | some s => if 32 ∈ s.drop 7 then .ok (some ((s.drop 7).takeWhile (· ≠ 32))) else .fault

/-- The `T_APPEND` case. The string is searched also after an error, when it is the one of an
earlier line, or none at all. -/
def parseAppend (c : Bytes) (label : PxeLabel) : Outcome (Bytes × PxeLabel) := do
  let (val, c) ← parseSliteral c
  let initrd ← appendInitrd label.initrd (val.or label.append)
  match val with
  | none => .err (-EINVAL)
  | some val => .ok (c, { label with append := some val, initrd := initrd })

/-- A statement of a label, or `none` for the end of the label. -/
def labelStatement (type : TokenType) (c : Bytes) (cfg : PxeMenu) (label : PxeLabel) :
    Outcome (Option (Bytes × PxeMenu × PxeLabel)) :=
  match type with
  | .tMenu => do return some (← parseLabelMenu c cfg label)
  | .tKernel | .tLinux => do
    let (val, c) ← literal c
    return some (c, cfg, { label with kernel := some val })
  | .tAppend => do
    let (c, label) ← parseAppend c label
    return some (c, cfg, label)
  | .tInitrd =>
    if label.initrd.isSome then .ok (some (c, cfg, label))
    else do
      let (val, c) ← literal c
      return some (c, cfg, { label with initrd := some val })
  | .tFdt =>
    if label.fdt.isSome then .ok (some (c, cfg, label))
    else do
      let (val, c) ← literal c
      return some (c, cfg, { label with fdt := some val })
  | .tLocalboot => do
    let (n, c) ← parseInteger c
    return some (c, cfg, { label with localboot := n })
  | .tEol => .ok (some (c, cfg, label))
  | _ => .ok none

/-- The loop of `parse_label`; the token behind the label is put back. -/
def labelLoop : ℕ → Bytes → PxeMenu → PxeLabel → Outcome (Bytes × PxeMenu × PxeLabel)
  | 0, _, _, _ => .fault
  | n+1, s, cfg, label => do
    let (t, c) ← getToken s .keyword
    match ← labelStatement t.type c cfg label with
    | none => .ok (s, cfg, label)
    | some (c, cfg, label) => labelLoop n c cfg label

/-- Each turn of the loop goes forward, so there are fewer than there are bytes. -/
def parseLabel (c : Bytes) (cfg : PxeMenu) : Outcome (Bytes × PxeMenu) := do
  let (name, c) ← literal c
  let (c, cfg, label) ← labelLoop (c.length+1) c cfg (labelCreate name)
  return (c, { cfg with labels := cfg.labels ++ [label] })

/-! ## Menus -/

abbrev Files := Bytes → Except ℤ Bytes

/-- A file is stored and a NUL behind it. -/
def loadFile (m : Bytes) (base : ℕ) (content : Bytes) : Bytes :=
  (m ++ List.replicate (base-m.length) 0).take base ++ (content ++ [0]) ++
    m.drop (base+content.length+1)

def strlen (m : Bytes) (b : ℕ) : Outcome ℕ :=
  if 0 ∈ m.drop b then .ok ((m.drop b).takeWhile (· ≠ 0)).length else .fault

def align4 (n : ℕ) : ℕ := (n+3)/4*4

section Include
variable (files : Files) (top : Bytes → ℕ → PxeMenu → Outcome (Bytes × PxeMenu))

/-- `handle_include`: the memory, the place behind the path and the menu after it. -/
def handleInclude (m c : Bytes) (base : ℕ) (cfg : PxeMenu) : Outcome (Bytes × ℕ × PxeMenu) := do
  let (path, c) ← literal c
  match files path with
  | .error code => .err code
  | .ok content => do
    let (m', cfg) ← top (loadFile m base content) base cfg
    return (m', m.length-c.length, cfg)

def parseMenu (m c : Bytes) (b : ℕ) (cfg : PxeMenu) : Outcome (Bytes × ℕ × PxeMenu) := do
  let (t, c) ← getToken c .keyword
  match t.type with
  | .tTitle => do
    let (title, c) ← literal c
    let c ← eolOrEof c
    return (m, m.length-c.length, { cfg with title := some title })
  | .tInclude => do
    let len ← strlen m b
    let (m, p, cfg) ← handleInclude files top m c (b+len+1) cfg
    let c ← eolOrEof (m.drop p)
    return (m, m.length-c.length, cfg)
  | _ => do
    let c ← eolOrEof c
    return (m, m.length-c.length, cfg)

/-- A statement of a menu, or `none` for the end of the file. -/
def topStatement (type : TokenType) (m c : Bytes) (b : ℕ) (cfg : PxeMenu) :
    Outcome (Option (Bytes × ℕ × PxeMenu)) :=
  match type with
  | .tMenu => do return some (← parseMenu files top m c b cfg)
  | .tTimeout => do
    let (n, c) ← parseInteger c
    return some (m, m.length-c.length, { cfg with timeout := n })
  | .tLabel => do
    let (c, cfg) ← parseLabel c cfg
    return some (m, m.length-c.length, cfg)
  | .tDefault => do
    let (val, c) ← parseSliteral c
    -- without a literal an unset pointer is read
    match val with
    | none => .fault
    | some val => .ok (some (m, m.length-c.length, { cfg with defaultLabel := some val }))
  | .tInclude => do
    let len ← strlen m b
    return some (← handleInclude files top m c (b+align4 len) cfg)
  | .tPrompt => do
    let (n, c) ← parseInteger c
    return some (m, m.length-c.length, { cfg with prompt := n })
  | .tEol => .ok (some (m, m.length-c.length, cfg))
  | .tEof => .ok none
  | _ => do
    let c ← eolOrEof c
    return some (m, m.length-c.length, cfg)

/-- The loop of `parse_pxefile_top` over the text at `b`, from the place `p`. -/
def topLoop (b : ℕ) : ℕ → Bytes → ℕ → PxeMenu → Outcome (Bytes × PxeMenu)
  | 0, _, _, _ => .fault
  | n+1, m, p, cfg => do
    let (t, c) ← getToken (m.drop p) .keyword
    match ← topStatement files top t.type m c b cfg with
    | none => .ok (m, cfg)
    | some (m, p, cfg) => topLoop b n m p cfg

end Include

def maxNestLevel : ℕ := 16

/-- `parse_pxefile_top`, with the number of levels that are left. -/
def parsePxefileTop (files : Files) (turns : ℕ) : ℕ → Bytes → ℕ → PxeMenu → Outcome (Bytes × PxeMenu)
  | 0, _, _, _ => .err (-EMLINK)
  | levels+1, m, b, cfg => topLoop files (parsePxefileTop files turns levels) b turns m b cfg

/-- The menu of the text at the beginning of the memory, or `none` after an error. -/
def parsePxefile (files : Files) (turns : ℕ) (m : Bytes) : Outcome (Option PxeMenu) :=
  match parsePxefileTop files turns maxNestLevel m 0 emptyMenu with
  | .ok (_, cfg) => .ok (some cfg)
  | .err _ => .ok none
  | .fault => .fault

end UBoot.Pxe
