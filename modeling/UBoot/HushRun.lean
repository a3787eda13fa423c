import UBoot.Hush
import Mathlib

/-!
# The hush interpreter: `run_list_real`, `run_pipe_real`, `parse_stream_outer`

What a command does and what the environment holds are parameters. A run needs
not end, so every loop has a number of rounds; `fuel` says that they are spent.

`run_list_real` is given the function that runs one pipe. The pipe comes with
its position in the list, since the source passes a pointer into it.
-/

set_option autoImplicit false

namespace UBoot.Hush

inductive Stop | fuel | fault
  deriving DecidableEq, Repr

abbrev Run := Except Stop

structure Variable where
  name : Text
  value : Text
  readOnly : Bool
  deriving DecidableEq, Repr

/-- `ran` records the argument vectors given to `cmd_process`. -/
structure Shell (σ : Type) where
  lastReturnCode : ℤ
  topVars : List Variable
  recursiveParse : Bool
  ran : List (List Text)
  world : σ
  deriving DecidableEq, Repr

structure Machine (σ : Type) where
  getenv : σ → Text → Option Text
  hadCtrlc : σ → Bool
  cmdProcess : List Text → Shell σ → ℤ × Shell σ

/-- All commands fail, there are no variables and there is no interrupt. -/
def failing : Machine Unit := ⟨fun _ _ => none, fun _ => false, fun _ s => (1, s)⟩

variable {σ : Type} (m : Machine σ)

/-! ## Variables -/

def isAssignment : Text → Bool
  | [] => false
  | c::cs => isalpha c ∧ (cs.dropWhile nameChar).head? = some '='

def getLocalVar (s : Shell σ) (name : Text) : Option Text :=
  match name with
  | '$'::rest =>
    if rest.head? = some '?' then
      some (Nat.toDigits 10 (s.lastReturnCode % 2^32).toNat)
    else none
  | _ => (s.topVars.find? fun v => v.name = name).map (·.value)

def assignVar (name value : Text) : List Variable → List Variable
  | [] => [⟨name, value, false⟩]
  | v::vs =>
    if v.name = name then
      (if v.readOnly then v else { v with value := value })::vs
    else v::assignVar name value vs

/-- The lookup in the environment is done with the whole assignment. -/
def setLocalVar (text : Text) (s : Shell σ) : Shell σ :=
  if ((text.head?).map isalpha) ≠ some true then s
  else if (m.getenv s.world text).isSome then s
  else
    match text.dropWhile (· ≠ '=') with
    | _::value =>
      { s with topVars := assignVar (text.takeWhile (· ≠ '=')) value s.topVars }
    | [] => s

def lookupParam (src : Text) (s : Shell σ) : Option Text × Shell σ :=
  let name := src.takeWhile (· ≠ ':')
  let mode := (src.dropWhile (· ≠ ':')).drop 1
  let default : Option Text :=
    if mode.head? = some '-' ∨ mode.head? = some '=' ∨ mode.head? = some '+' then
      some (mode.drop 1)
    else none
  let p := (m.getenv s.world name).or (getLocalVar s name)
  if p = none ∨ p = some [] then
    if mode.head? = some '=' then
      (default, setLocalVar m (name ++ '='::mode.drop 1) s)
    else (default, s)
  else if mode.head? = some '+' then (some [], s)
  else (p, s)

def tagged (tag : Bool) (value : Text) : Text :=
  if tag then substedVarSymbol::value ++ [substedVarSymbol] else value

/-- The text between the marks: characters, then the name of a variable, and so
on. -/
def insertPieces (tag : Bool) : List Text → Shell σ → Text × Shell σ
  | lit::name::rest, s =>
    let found := lookupParam m name s
    let tail := insertPieces tag rest found.2
    (lit ++ (found.1.map (tagged tag)).getD [] ++ tail.1, tail.2)
  | [lit], s => (lit, s)
  | [], s => ([], s)

def insertVarValueSub (inp : Text) (tag : Bool) (s : Shell σ) : Text × Shell σ :=
  if specialVarSymbol ∈ inp then
    let r := insertPieces m tag (inp.splitOn specialVarSymbol) s
    (r.1.map fun c => if c = '\n' then ' ' else c, r.2)
  else (inp, s)

def insertVarValue (inp : Text) (s : Shell σ) : Text × Shell σ := insertVarValueSub m inp false s

def makeListIn (name : Text) : List Text → Shell σ → List Text × Shell σ
  | [], s => ([], s)
  | word::words, s =>
    let value := insertVarValue m word s
    let tail := makeListIn name words value.2
    (((value.1.splitOn ' ').filter (· ≠ [])).map (fun v => name ++ '='::v) ++ tail.1, tail.2)

def joinWords (tag : Bool) : List Text → Shell σ → Text × Shell σ
  | [], s => ([], s)
  | [word], s => insertVarValueSub m word tag s
  | word::words, s =>
    let value := insertVarValueSub m word tag s
    let tail := joinWords tag words value.2
    (value.1 ++ ' '::tail.1, tail.2)

def makeString (argv : List Text) (s : Shell σ) : Text × Shell σ :=
  let noeval := match getLocalVar s "HUSH_NO_EVAL".toList with
    | some (c::_) => c ≠ '0'
    | _ => false
  let r := joinWords m noeval argv s
  (r.1 ++ ['\n'], r.2)

/-! ## `run_list_real` -/

/-- The syntax check for `for` in front of the main loop. -/
def forSyntax : List Pipe → Bool
  | [] => true
  | [pi] => pi.rMode ≠ .resIn ∧ pi.rMode ≠ .resFor
  | pi::next::rest =>
    ¬ ((pi.rMode = .resIn ∧ next.rMode = .resIn ∧ next.argv ≠ []) ∨
       (pi.rMode = .resFor ∧ next.rMode ≠ .resIn)) ∧ forSyntax (next::rest)

/-- The local variables of `run_list_real`. -/
structure Locals where
  pi : Option ℕ
  rpipe : Option ℕ
  list : Option (List Text)
  flagRep : Bool
  flagSkip : Bool
  flagRestore : Bool
  rcode : ℤ
  ifCode : ℤ
  nextIfCode : ℤ
  skipMore : ReservedStyle

def Locals.start : Locals := ⟨some 0, none, none, false, true, false, 0, 0, 0, .resXxxx⟩

/-- The third expression of the `for` statement. -/
def Locals.advance (st : Locals) (i : ℕ) : Locals :=
  { st with pi := if st.flagRestore then st.rpipe else some (i+1) }

inductive Control
  | goOn (st : Locals)
  | leave (rcode : ℤ)

/-- A `for` takes its next value. `none` says that the pipe is passed over. -/
def forValue (pipes : List Pipe) (i : ℕ) (pi : Pipe) (st : Locals) (s : Shell σ) :
    Locals × Option Pipe × Shell σ :=
  let next := (pipes.getD (i+1) newPipe).argv
  if st.list = none ∧ next = [] then (st, none, s)
  else
    let (list, st, s) := match st.list with
      | some list => (list, st, s)
      | none =>
        let made := makeListIn m (pi.argv.headD []) next s
        (made.1, { st with flagRep := true }, made.2)
    match list with
    | [] => ({ st with list := none, flagRep := false }, none, s)
    | v::list => ({ st with list := some list }, some { pi with argv := v::pi.argv.drop 1 }, s)

/-- What the code of a pipe leaves in the local variables. -/
def Locals.note (st : Locals) (rmode : ReservedStyle) (followup : PipeStyle) (rcode : ℤ) : Locals :=
  { st with
    rcode := rcode
    nextIfCode := if rmode = .resIf ∨ rmode = .resElif then rcode else st.nextIfCode
    flagRep := if rmode = .resWhile then rcode = 0
      else if rmode = .resUntil then rcode ≠ 0 else st.flagRep
    skipMore := if (rcode = 0 ∧ followup = .pipeOr) ∨ (rcode ≠ 0 ∧ followup = .pipeAnd)
      then rmode else st.skipMore }

def Shell.record (rcode : ℤ) (s : Shell σ) : Shell σ :=
  { s with lastReturnCode := if rcode < -1 then -rcode-2 else if rcode = 0 then 0 else 1 }

def Locals.atDone (st : Locals) (w : ReservedStyle) : Locals :=
  if w = .resDone then
    (if st.flagRep then { st with flagRestore := true } else { st with rpipe := none })
  else st

/-- From the call of `run_pipe_real` to the end of the body. -/
def afterRun (i : ℕ) (pi : Pipe) (st : Locals) (rcode : ℤ) : Control :=
  if rcode < -1 then .leave (-2)
  else .goOn ((st.note pi.rMode pi.followup rcode).advance i)

variable (runPipe : ℕ → Pipe → Shell σ → Run (ℤ × Shell σ))

/-- From the handling of `done` on. -/
def runBody (i : ℕ) (pi : Pipe) (st : Locals) (s : Shell σ) : Run (Control × Shell σ) :=
  if pi.numProgs = 0 then .ok (.goOn ((st.atDone pi.rMode).advance i), s)
  else do
    let r ← runPipe i pi s
    .ok (afterRun i pi (st.atDone pi.rMode) r.1, r.2.record r.1)

def looping (w : ReservedStyle) : Bool := w = .resWhile ∨ w = .resUntil ∨ w = .resFor

/-- A loop head notes where the loop starts. -/
def Locals.head (st : Locals) (i : ℕ) (w : ReservedStyle) : Locals :=
  if looping w then
    { st with
      flagRestore := false
      flagRep := if st.rpipe = none then false else st.flagRep
      rpipe := some (st.rpipe.getD i) }
  else st

def Locals.skip (st : Locals) (followup : PipeStyle) : Locals :=
  { st with flagSkip := if followup = .pipeSeq then false else st.flagSkip }

def Locals.unskip (st : Locals) (w : ReservedStyle) : Locals :=
  { st with
    flagSkip := true
    skipMore := .resXxxx
    ifCode := if w = .resThen ∨ w = .resElse then st.nextIfCode else st.ifCode }

/-- The pipes that `if_code`, `in` and `flag_rep` pass over. -/
def Locals.passes (st : Locals) (w : ReservedStyle) : Prop :=
  (w = .resThen ∧ st.ifCode ≠ 0) ∨ (w = .resElse ∧ st.ifCode = 0) ∨ w = .resIn ∨
    (w = .resDo ∧ st.flagRep = false)

instance (st : Locals) (w : ReservedStyle) : Decidable (st.passes w) :=
  inferInstanceAs (Decidable (_ ∨ _ ∨ _ ∨ _))

/-- A pipe that is not passed over because of `&&` or `||`. -/
def listStepOpen (pipes : List Pipe) (i : ℕ) (pi : Pipe) (st : Locals) (s : Shell σ) :
    Run (Control × Shell σ) :=
  if st.passes pi.rMode then .ok (.goOn (st.advance i), s)
  else if pi.rMode = .resElif ∧ st.ifCode = 0 then .ok (.leave st.rcode, s)
  else if pi.rMode = .resFor ∧ pi.numProgs ≠ 0 then
    match forValue m pipes i pi st s with
    | (st, none, s) => .ok (.goOn (st.advance i), s)
    | (st, some pi, s) => runBody runPipe i pi st s
  else runBody runPipe i pi st s

/-- The body of the main loop of `run_list_real`. -/
def listStep (pipes : List Pipe) (i : ℕ) (pi : Pipe) (st : Locals) (s : Shell σ) :
    Run (Control × Shell σ) :=
  if looping pi.rMode ∧ m.hadCtrlc s.world then .ok (.leave 1, s)
  else if pi.rMode = st.skipMore ∧ st.flagSkip then
    .ok (.goOn (((st.head i pi.rMode).skip pi.followup).advance i), s)
  else listStepOpen m runPipe pipes i pi ((st.head i pi.rMode).unskip pi.rMode) s

def listLoop (pipes : List Pipe) : ℕ → Locals → Shell σ → Run (ℤ × Shell σ)
  | 0, _, _ => .error .fuel
  | n+1, st, s =>
    match st.pi.bind fun i => (pipes[i]?).map fun pi => (i, pi) with
    | none => .ok (st.rcode, s)
    | some (i, pi) => do
      let r ← listStep m runPipe pipes i pi st s
      match r.1 with
      | .goOn st => listLoop pipes n st r.2
      | .leave rcode => .ok (rcode, r.2)

def runListReal (n : ℕ) (pipes : List Pipe) (s : Shell σ) : Run (ℤ × Shell σ) :=
  if forSyntax pipes then listLoop m runPipe pipes n Locals.start s else .ok (1, s)

/-! ## `parse_stream_outer` -/

structure OuterFlag where
  exitFromLoop : Bool
  parseSemicolon : Bool
  reparsing : Bool
  deriving DecidableEq, Repr

def Shell.charMap (s : Shell σ) (flag : OuterFlag) : Char → ℕ :=
  UBoot.Hush.charMap ((m.getenv s.world "IFS".toList).getD [' ', '\t', '\n'])
    (s.recursiveParse = false ∧ (flag.parseSemicolon = false ∨ flag.reparsing = true))

def startParse (quote : Bool) : Parse := ⟨⟨[], false, quote⟩, initializeContext, []⟩

/-- What is given to `run_list`: the last word and the last pipe are closed. -/
def finishList (semicolon : Bool) (p : Parse) : List Pipe :=
  ((doneWord semicolon p).2.donePipe .pipeSeq).ctx.listHead

variable (run : List Pipe → Shell σ → Run (ℤ × Shell σ))

/-- `inp` is `inp->p`, with `none` for the null pointer that a refused line
leaves behind. -/
def parseStreamOuter (flag : OuterFlag) :
    ℕ → Option Text → Bool → ℤ → Shell σ → Run (ℤ × Shell σ)
  | 0, _, _, _, _ => .error .fuel
  | _+1, none, _, _, _ => .error .fault
  | n+1, some inp, quote, code, s =>
    match parseStream (s.charMap m flag) flag.parseSemicolon (startParse quote) inp with
    | .fault => .error .fault
    | .done rcode p rest =>
      if rcode ≠ 1 ∧ p.ctx.oldFlag = [] then do
        let r ← run (finishList flag.parseSemicolon p) s
        if r.1 = -2 then .ok (0, r.2)
        else if rcode = -1 ∨ flag.exitFromLoop then .ok (if r.1 ≠ 0 then 1 else 0, r.2)
        else parseStreamOuter flag n (some rest) (doneWord flag.parseSemicolon p).2.dest.quote r.1 r.2
      else if rcode = -1 ∨ flag.exitFromLoop then .ok (if code ≠ 0 then 1 else 0, s)
      else parseStreamOuter flag n none false code s

/-- A newline is added unless the only one of the text is its last character. -/
def withNewline (text : Text) : Text :=
  match text.dropWhile (· ≠ '\n') with
  | [_] => text
  | _ => text ++ ['\n']

def parseStringOuter (n : ℕ) (text : Text) (flag : OuterFlag) (s : Shell σ) :
    Run (ℤ × Shell σ) :=
  if text = [] then .ok (1, s)
  else parseStreamOuter m run flag n (some (withNewline text)) false 0 s

/-! ## `run_pipe_real` -/

def setVars : List Text → Shell σ → Shell σ
  | [], s => s
  | word::words, s =>
    let value := insertVarValue m word s
    setVars words (setLocalVar m value.1 value.2)

/-- `cmd_process` gets the whole vector, the assignments in front included. -/
def runCommandWords (argv : List Text) (rest : List Text) (s : Shell σ) : ℤ × Shell σ :=
  if ';' ∈ rest.headD [] then (-1, s)
  else
    let r := m.cmdProcess argv s
    (r.1, { r.2 with ran := s.ran ++ [argv] })

/-- `child->sp` is counted down for the assignments in front. The count that the
source leaves for a second run of the same child is not kept. -/
def runSimple (n : ℕ) (argv : List Text) (sp : ℕ) (s : Shell σ) : Run (ℤ × Shell σ) :=
  let front := argv.takeWhile isAssignment
  let rest := argv.dropWhile isAssignment
  let s' := setVars m front s
  if rest = [] then .ok (0, s')
  else if sp ≠ (front.filter (specialVarSymbol ∈ ·)).length then do
    let str := makeString m rest s'
    let r ← parseStringOuter m run n str.1 ⟨true, false, true⟩ str.2
    .ok (r.2.lastReturnCode, r.2)
  else .ok (runCommandWords m argv rest s')

def runPipeReal : ℕ → Pipe → Shell σ → Run (ℤ × Shell σ)
  | 0, _, _ => .error .fuel
  | n+1, pi, s =>
    if pi.group.isEmpty = false then
      runListReal m (fun _ => runPipeReal n) n pi.group s
    else if pi.argv ≠ [] then
      runSimple m (runListReal m (fun _ => runPipeReal n) n) n pi.argv pi.sp s
    else .ok (-1, s)

/-- `run_list`. -/
def runList (n : ℕ) (pipes : List Pipe) (s : Shell σ) : Run (ℤ × Shell σ) :=
  runListReal m (fun _ => runPipeReal m n) n pipes s

/-! ## `main.c` -/

def runCommand (n : ℕ) (cmd : Text) (s : Shell σ) : Run (ℤ × Shell σ) :=
  parseStringOuter m (runList m n) n cmd ⟨true, true, false⟩ s

/-- `len = none` is the length -1. -/
def runCommandList (n : ℕ) (cmd : Text) (len : Option ℕ) (s : Shell σ) : Run (ℤ × Shell σ) :=
  parseStringOuter m (runList m n) n (len.elim cmd (cmd.take ·)) ⟨false, true, false⟩ s

end UBoot.Hush
