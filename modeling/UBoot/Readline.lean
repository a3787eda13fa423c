import Mathlib.Data.List.Basic
import Mathlib.Tactic

/-!
# Reading a command line

`cread_line` one key at a time, with the history behind it, and `get_user_input`, which hands
the line on to the shell. A buffer is the list of all its bytes: `none` stands for an access
behind its end, and for the completion key, which is not modelled.
-/

set_option autoImplicit false

namespace UBoot.Readline

abbrev Bytes := List UInt8

def cbsize : ℕ := 1024
def histMax : ℕ := 20

def store (buf : Bytes) (i : ℕ) (c : UInt8) : Option Bytes :=
  if i < buf.length then some (buf.set i c) else none

def memmove (buf : Bytes) (dst src n : ℕ) : Option Bytes :=
  if dst+n ≤ buf.length ∧ src+n ≤ buf.length then
    some (buf.take dst ++ (buf.drop src).take n ++ buf.drop (dst+n))
  else none

def strcpy (buf : Bytes) (i : ℕ) (s : Bytes) : Option Bytes :=
  if i+s.length+1 ≤ buf.length then some (buf.take i ++ s ++ [0] ++ buf.drop (i+s.length+1)) else none

/-- The string that a buffer begins with. -/
def cstr (buf : Bytes) : Option Bytes := if 0 ∈ buf then some (buf.takeWhile (· ≠ 0)) else none

/-! ## History -/

structure History where
  list : List Bytes
  addIdx : ℕ
  max : ℕ
  cur : ℤ
deriving DecidableEq, Repr

def histInit : History := ⟨List.replicate histMax [], 0, 0, -1⟩

/-- A line of the history has room for `cbsize` characters. -/
def creadAddToHist (h : History) (line : Bytes) : Option History :=
  if cbsize < line.length then none
  else
    let addIdx := if histMax ≤ h.addIdx+1 then 0 else h.addIdx+1
    some ⟨h.list.set h.addIdx line, addIdx, if h.max < addIdx then addIdx else h.max, h.cur⟩

def histPrev (h : History) : History × Option Bytes :=
  if h.cur < 0 then (h, none)
  else
    let cur := if h.cur-1 < 0 then (h.max : ℤ) else h.cur-1
    if cur = h.addIdx then (h, none)
    else ({ h with cur := cur }, some (h.list.getD cur.toNat []))

def histNext (h : History) : History × Option Bytes :=
  if h.cur < 0 then (h, none)
  else if h.cur = h.addIdx then (h, none)
  else
    let cur := if h.max < h.cur+1 then 0 else h.cur+1
    if cur = h.addIdx then ({ h with cur := cur }, some [])
    else ({ h with cur := cur }, some (h.list.getD cur.toNat []))

/-! ## The line -/

structure Line where
  buf : Bytes
  num : ℕ
  eolNum : ℕ
  insert : Bool
  escLen : ℕ
  escSave : Bytes
deriving DecidableEq, Repr

/-- With room for the character. -/
def placeChar (ichar : UInt8) (insert : Bool) (l : Line) : Option Line := do
  if insert then
    let wlen := l.eolNum-l.num
    let buf ← if 1 < wlen then memmove l.buf (l.num+1) l.num (wlen-1) else some l.buf
    let buf ← store buf l.num ichar
    return { l with buf := buf, num := l.num+1 }
  else
    let buf ← store l.buf l.num ichar
    return { l with buf := buf, num := l.num+1 }

def creadAddChar (len : ℕ) (insert : Bool) (l : Line) (ichar : UInt8) : Option Line :=
  if insert = true ∨ l.num = l.eolNum then
    if len-1 < l.eolNum then some l
    else placeChar ichar insert { l with eolNum := l.eolNum+1 }
  else placeChar ichar insert l

def creadAddStr (len : ℕ) (insert : Bool) (l : Line) (str : Bytes) : Option Line :=
  str.foldlM (creadAddChar len insert) l

def creadStart (len : ℕ) (buf : Bytes) : Option Line := do
  let str ← cstr buf
  creadAddStr len true ⟨buf, 0, 0, true, 0, List.replicate 8 0⟩ str

inductive Outcome
  | more (l : Line) (h : History)
  | entered (line : Bytes) (buf : Bytes) (h : History)
  | broken (buf : Bytes) (h : History)
deriving DecidableEq, Repr

def beginningOfLine (l : Line) : Line := { l with num := 0 }
def eraseToEol (l : Line) : Line := if l.num < l.eolNum then { l with eolNum := l.num } else l
def refreshToEol (l : Line) : Line := if l.num < l.eolNum then { l with num := l.eolNum } else l

def showHist (l : Line) (r : History × Option Bytes) : Option Outcome :=
  match r.2 with
  | none => some (.more { l with escLen := 0 } r.1)
  | some hline => do
    let l := eraseToEol (beginningOfLine { l with escLen := 0 })
    let buf ← strcpy l.buf 0 hline
    let s ← cstr buf
    return .more (refreshToEol { l with buf := buf, eolNum := s.length }) r.1

def deleteChar (l : Line) : Option Line :=
  if l.num < l.eolNum then do
    let wlen := l.eolNum-l.num-1
    let buf ← if wlen ≠ 0 then memmove l.buf l.num (l.num+1) wlen else some l.buf
    return { l with buf := buf, eolNum := l.eolNum-1 }
  else some l

def backspace (l : Line) : Option Line :=
  if l.num ≠ 0 then do
    let buf ← memmove l.buf (l.num-1) l.num (l.eolNum-l.num)
    return { l with buf := buf, num := l.num-1, eolNum := l.eolNum-1 }
  else some l

/-- The second `switch`; 9 is the completion key. -/
def control (len : ℕ) (l : Line) (h : History) (ichar : UInt8) : Option Outcome :=
  if ichar = 27 then
    if l.escLen = 0 then
      (store l.escSave l.escLen ichar).map (fun e => .more { l with escSave := e, escLen := 1 } h)
    else some (.more { l with escLen := 0 } h)
  else if ichar = 1 then some (.more (beginningOfLine l) h)
  else if ichar = 3 then (store l.buf 0 0).map (fun buf => .broken buf h)
  else if ichar = 6 then
    some (.more (if l.num < l.eolNum then { l with num := l.num+1 } else l) h)
  else if ichar = 2 then some (.more (if l.num ≠ 0 then { l with num := l.num-1 } else l) h)
  else if ichar = 4 then (deleteChar l).map (fun l => .more l h)
  else if ichar = 11 then some (.more (eraseToEol l) h)
  else if ichar = 5 then some (.more (refreshToEol l) h)
  else if ichar = 15 then some (.more { l with insert := !l.insert } h)
  else if ichar = 24 ∨ ichar = 21 then some (.more (eraseToEol (beginningOfLine l)) h)
  else if ichar = 255 ∨ ichar = 127 ∨ ichar = 8 then (backspace l).map (fun l => .more l h)
  else if ichar = 16 then showHist l (histPrev h)
  else if ichar = 14 then showHist l (histNext h)
  else if ichar = 9 then none
  else (creadAddChar len l.insert l ichar).map (fun l => .more l h)

/-- Behind the loop: the line is terminated and goes to the history. -/
def finish (l : Line) (h : History) : Option Outcome := do
  let buf ← store l.buf l.eolNum 0
  let s ← cstr buf
  let h ← if s ≠ [] ∧ s.head? ≠ some 33 then creadAddToHist h s else some h
  return .entered (buf.take l.eolNum) buf { h with cur := h.addIdx }

/-- The keys of the `esc [` sequences that stand for a control key. -/
def arrow (ichar : UInt8) : Option UInt8 :=
  if ichar = 68 then some 2
  else if ichar = 67 then some 6
  else if ichar = 72 then some 1
  else if ichar = 65 then some 16
  else if ichar = 66 then some 14
  else none

def creadKey (len : ℕ) (l : Line) (h : History) (ichar : UInt8) : Option Outcome :=
  if ichar = 10 ∨ ichar = 13 then finish l h
  else if l.escLen = 0 then control len l h ichar
  else if l.escLen = 1 then
    if ichar = 91 then
      (store l.escSave l.escLen ichar).map (fun e => .more { l with escSave := e, escLen := 2 } h)
    else
      (creadAddStr len l.insert l (l.escSave.take l.escLen)).map
        (fun l => .more { l with escLen := 0 } h)
  else
    match arrow ichar with
    | some c => control len { l with escLen := 0 } h c
    | none => do
      let e ← store l.escSave l.escLen ichar
      let l ← creadAddStr len l.insert l (e.take (l.escLen+1))
      return .more { l with escSave := e, escLen := 0 } h

/-! ## Handing the line on -/

/-- What the shell decides before a line is asked for: the prompt, whether control C was seen,
and whether the last command can still be repeated. -/
structure Choice where
  ps1 : Bool
  hadCtrlc : Bool
  repeatable : Bool
deriving DecidableEq, Repr

structure Command where
  theCommand : Bytes
  flagRepeat : Bool
deriving DecidableEq, Repr

def newline : UInt8 := 10

/-- The first line of a command. -/
def takeFirst (flagRepeat : Bool) (line theCommand : Bytes) : Option Command := do
  if line.head? = some newline ∧ flagRepeat = false then
    let cmd ← strcpy theCommand 0 line
    return ⟨cmd, flagRepeat⟩
  else if line.head? ≠ some newline then
    let cmd ← strcpy theCommand 0 line
    return ⟨cmd, true⟩
  else return ⟨theCommand, flagRepeat⟩

def emptyCommand (theCommand : Bytes) : Option Bytes := do
  let cmd ← store theCommand 0 newline
  store cmd 1 0

def appendLine (flagRepeat : Bool) (line theCommand : Bytes) : Option Command := do
  if line.head? = some newline then return ⟨theCommand, flagRepeat⟩
  else
    let s ← cstr theCommand
    if s.length+line.length < cbsize then
      -- the newline goes; with nothing there the index is -1
      let cmd ← if s.length = 0 then none else store theCommand (s.length-1) 32
      let cmd ← strcpy cmd s.length line
      return ⟨cmd, flagRepeat⟩
    else
      let cmd ← emptyCommand theCommand
      return ⟨cmd, false⟩

/-- A further line of a command. -/
def takeNext (interrupted flagRepeat : Bool) (line theCommand : Bytes) : Option Command := do
  let c ← appendLine flagRepeat line theCommand
  if interrupted then
    let cmd ← emptyCommand c.theCommand
    return ⟨cmd, c.flagRepeat⟩
  else return c

/-- From the return of `readline` on; the buffer of the console is left with the newline. -/
def getUserInput (ch : Choice) (interrupted : Bool) (console : Bytes) (cmd : Command) :
    Option (Bytes × Command) := do
  let s ← cstr console
  let console ← store console s.length newline
  let console ← store console (s.length+1) 0
  let line ← cstr console
  let flagRepeat := cmd.flagRepeat && ch.repeatable && !interrupted && !ch.hadCtrlc
  let cmd ←
    if ch.ps1 then takeFirst flagRepeat line cmd.theCommand
    else takeNext interrupted flagRepeat line cmd.theCommand
  return (console, cmd)

/-! ## A session -/

structure Session where
  line : Line
  hist : History
  command : Command
  returned : List Bytes
deriving DecidableEq, Repr

/-- `readline` makes the buffer empty. -/
def prompt (console : Bytes) (h : History) (cmd : Command) (returned : List Bytes) : Option Session := do
  let console ← store console 0 0
  let l ← creadStart cbsize console
  return ⟨l, h, cmd, returned⟩

/-- `shell n` is what the shell decides for prompt `n`. -/
def press (shell : ℕ → Choice) (s : Session) (ichar : UInt8) : Option Session := do
  let o ← creadKey cbsize s.line s.hist ichar
  match o with
  | .more l h => return { s with line := l, hist := h }
  | .entered line buf h =>
    let r ← getUserInput (shell s.returned.length) false buf s.command
    prompt r.1 h r.2 (s.returned ++ [line])
  | .broken buf h =>
    let r ← getUserInput (shell s.returned.length) true buf s.command
    prompt r.1 h r.2 (s.returned ++ [[]])

def powerOn : Option Session :=
  prompt (List.replicate (cbsize+1) 0) histInit ⟨List.replicate cbsize 0, false⟩ []

def session (shell : ℕ → Choice) (keys : Bytes) : Option Session := do
  let s ← powerOn
  keys.foldlM (press shell) s

end UBoot.Readline
