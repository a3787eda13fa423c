import UBoot.Pxe

/-!
# The lines of a PXE menu

What a menu text says, line by line: a line is empty or a comment, or has a first word and
perhaps an argument. The statements of a label follow its `label` line; any other
statement ends it. The text of an included file is read at the place of its line.
-/

set_option autoImplicit false

namespace UBoot.Pxe

open EnvAttr (isspace)

/-! ## Lines -/

@[grind]
def splitLines : Bytes → List Bytes
  | [] => [[]]
  | c::l =>
    match splitLines l with
    | [] => []
    | first::rest => if c = 10 then []::first::rest else (c::first)::rest

/-- The first word of a line and what follows it. -/
def firstWord (line : Bytes) : Option (TokenType × Bytes) :=
  let l := line.dropWhile isblank
  if l = [] ∨ l.head? = some 35 then none
  else some (getKeyword ((l.takeWhile fun c => !isspace c).map tolower), l.dropWhile fun c => !isspace c)

def argument (rest : Bytes) : Option Bytes :=
  let l := rest.dropWhile isblank
  if l = [] ∨ l.head? = some 35 then none else some l

/-! ## Statements -/

/-- The menu read so far and the label that is not yet complete. -/
structure Reading where
  menu : PxeMenu
  label : Option PxeLabel

def Reading.close (r : Reading) : PxeMenu :=
  match r.label with
  | none => r.menu
  | some label => { r.menu with labels := r.menu.labels ++ [label] }

@[grind]
def needed (rest : Bytes) : Except ℤ Bytes :=
  match argument rest with
  | none => .error (-EINVAL)
  | some val => .ok val

@[grind]
def number (rest : Bytes) : Except ℤ ℤ := do
  let val ← needed rest
  match strictStrtoul val with
  | none => .error (-EINVAL)
  | some n => .ok (toInt n)

/-- The initrd= argument reaches to the next blank or to the end of the line. -/
def initrdArgument (val : Bytes) : Option Bytes :=
  (strstr initrdEq val).map fun s => (s.drop 7).takeWhile (· ≠ 32)

/-- A menu line of a label. -/
def labelMenuLine (rest : Bytes) (r : PxeMenu × PxeLabel) : PxeMenu × PxeLabel :=
  match firstWord rest with
  | some (.tDefault, _) => ({ r.1 with defaultLabel := some r.2.name }, r.2)
  | some (.tLabel, rest) => (r.1, { r.2 with menu := (argument rest).or r.2.menu })
  | _ => r

/-- A statement of a label, or `none` for one that ends it. A second initrd or fdt line is ignored. -/
def labelLine (type : TokenType) (rest : Bytes) (menu : PxeMenu) (label : PxeLabel) :
    Option (Except ℤ (PxeMenu × PxeLabel)) :=
  match type with
  | .tMenu => some (.ok (labelMenuLine rest (menu, label)))
  | .tKernel | .tLinux =>
    some ((needed rest).map fun val => (menu, { label with kernel := some val }))
  | .tAppend => some ((needed rest).map fun val =>
      (menu, { label with append := some val, initrd := label.initrd.or (initrdArgument val) }))
  | .tInitrd =>
    if label.initrd.isSome then some (.ok (menu, label))
    else some ((needed rest).map fun val => (menu, { label with initrd := some val }))
  | .tFdt =>
    if label.fdt.isSome then some (.ok (menu, label))
    else some ((needed rest).map fun val => (menu, { label with fdt := some val }))
  | .tLocalboot => some ((number rest).map fun n => (menu, { label with localboot := n }))
  | _ => none

section Files
variable (files : Files) (read : Bytes → PxeMenu → Except ℤ PxeMenu)

/-- The text of a file ends at its first NUL. -/
def includeLine (rest : Bytes) (menu : PxeMenu) : Except ℤ PxeMenu := do
  let path ← needed rest
  let content ← files path
  read (content.takeWhile (· ≠ 0)) menu

def menuLine (type : TokenType) (rest : Bytes) (menu : PxeMenu) : Except ℤ Reading :=
  match type with
  | .tMenu =>
    match firstWord rest with
    | some (.tTitle, rest) => (needed rest).map fun val => ⟨{ menu with title := some val }, none⟩
    | some (.tInclude, rest) => (includeLine files read rest menu).map fun menu => ⟨menu, none⟩
    | _ => .ok ⟨menu, none⟩
  | .tTimeout => (number rest).map fun n => ⟨{ menu with timeout := n }, none⟩
  | .tLabel => (needed rest).map fun name => ⟨menu, some (labelCreate name)⟩
  | .tDefault => (needed rest).map fun val => ⟨{ menu with defaultLabel := some val }, none⟩
  | .tInclude => (includeLine files read rest menu).map fun menu => ⟨menu, none⟩
  | .tPrompt => (number rest).map fun n => ⟨{ menu with prompt := n }, none⟩
  | _ => .ok ⟨menu, none⟩

@[grind]
def readLine (line : Bytes) (r : Reading) : Except ℤ Reading :=
  match firstWord line with
  | none => .ok r
  | some (type, rest) =>
    match r.label with
    | none => menuLine files read type rest r.menu
    | some label =>
      match labelLine type rest r.menu label with
      | none => menuLine files read type rest r.close
      | some x => x.map fun x => ⟨x.1, some x.2⟩

@[grind]
def readLines : List Bytes → Reading → Except ℤ PxeMenu
  | [], r => .ok r.close
  | line::lines, r => do readLines lines (← readLine files read line r)

end Files

/-- What a text says, with the number of levels that it may take. -/
@[grind]
def readText (files : Files) : ℕ → Bytes → PxeMenu → Except ℤ PxeMenu
  | 0, _, _ => .error (-EMLINK)
  | levels+1, text, menu => readLines files (readText files levels) (splitLines text) ⟨menu, none⟩

/-! ## Lines that are read as they are meant -/

/-- The arguments that a statement of a label must have or must not have. -/
def LabelSafe (type : TokenType) (rest : Bytes) (label : PxeLabel) : Prop :=
  match type with
  | .tMenu =>
    match firstWord rest with
    | none => False
    | some (.tLabel, rest) => argument rest ≠ none
    | some _ => True
  | .tAppend =>
    match argument rest with
    -- the append line before is searched, if there is one
    | none => label.initrd ≠ none ∨ ∃ val, label.append = some val ∧ strstr initrdEq val = none
    | some val => label.initrd = none → ∀ s, strstr initrdEq val = some s → 32 ∈ s.drop 7
  | .tInitrd => label.initrd ≠ none → argument rest = none
  | .tFdt => label.fdt ≠ none → argument rest = none
  | _ => True

section Safe
variable (files : Files) (read : Bytes → PxeMenu → Except ℤ PxeMenu)
  (safe : Bytes → PxeMenu → Prop)

def IncludeSafe (rest : Bytes) (menu : PxeMenu) : Prop :=
  ∀ path content, argument rest = some path → files path = .ok content →
    safe (content.takeWhile (· ≠ 0)) menu

/-- `len` is the length of the text that the line stands in. -/
def MenuSafe (len : ℕ) (type : TokenType) (rest : Bytes) (menu : PxeMenu) : Prop :=
  match type with
  | .tMenu =>
    match firstWord rest with
    | none => False
    | some (.tInclude, rest) => IncludeSafe files safe rest menu
    | some _ => True
  | .tDefault => argument rest ≠ none
  | .tInclude => len % 4 ≠ 0 ∧ IncludeSafe files safe rest menu
  | _ => True

@[grind]
def LineSafe (len : ℕ) (line : Bytes) (r : Reading) : Prop :=
  match firstWord line with
  | none => True
  | some (type, rest) =>
    match r.label with
    | none => MenuSafe files safe len type rest r.menu
    | some label =>
      match labelLine type rest r.menu label with
      | none => MenuSafe files safe len type rest r.close
      | some _ => LabelSafe type rest label

@[grind]
def LinesSafe (len : ℕ) : List Bytes → Reading → Prop
  | [], _ => True
  | line::lines, r => LineSafe files safe len line r ∧
      ∀ r', readLine files read line r = .ok r' → LinesSafe len lines r'

end Safe

@[grind]
def TextSafe (files : Files) : ℕ → Bytes → PxeMenu → Prop
  | 0, _, _ => True
  | levels+1, text, menu =>
    LinesSafe files (readText files levels) (TextSafe files levels) text.length (splitLines text)
      ⟨menu, none⟩

end UBoot.Pxe
