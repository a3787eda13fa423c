import Mathlib.Data.Int.Notation
import Mathlib.Data.List.Basic

/-!
# The hush parser: `reserved_word`, `done_word`, `done_pipe`, `parse_stream`

A pipe of this port holds at most one command, because a single `|` or `&` is
refused. An absent argument vector and an absent group are the empty list: the
source never allocates either without an element. A parser context keeps the
pipes it has closed and the child of the pipe it is filling.

The input is the rest of the text in front of its terminator. Reading the
terminator is the end of file; what the code reads behind it is `fault`.
-/

set_option autoImplicit false

namespace UBoot.Hush

abbrev Text := List Char

inductive PipeStyle | invalid | pipeSeq | pipeAnd | pipeOr
  deriving DecidableEq, Repr

inductive ReservedStyle
  | resNone | resIf | resThen | resElif | resElse | resFi | resFor | resWhile | resUntil
  | resDo | resDone | resXxxx | resIn | resSntx
  deriving DecidableEq, Repr

/-- `FLAG_x` is `1 << RES_x`, so a flag word is a set of codes. -/
abbrev Flag := List ReservedStyle

def flagEnd : ReservedStyle := .resNone
def flagStart : ReservedStyle := .resXxxx

structure Pipe where
  argv : List Text
  group : List Pipe
  sp : ℕ
  followup : PipeStyle
  rMode : ReservedStyle

def Pipe.numProgs (pi : Pipe) : ℕ := if pi.argv = [] ∧ pi.group.isEmpty then 0 else 1

def newPipe : Pipe := ⟨[], [], 0, .invalid, .resNone⟩

structure ChildProg where
  argv : List Text
  group : List Pipe
  sp : ℕ

structure PContext where
  pipes : List Pipe
  child : ChildProg
  w : ReservedStyle
  oldFlag : Flag

structure OString where
  data : Text
  nonnull : Bool
  quote : Bool

/-- What `parse_stream` works on: the word being collected, the context and the
contexts under it. -/
structure Parse where
  dest : OString
  ctx : PContext
  stack : List PContext

def initializeContext : PContext := ⟨[], ⟨[], [], 0⟩, .resNone, []⟩

/-! ## Words -/

def OString.add (o : OString) (ch : Char) : OString := { o with data := o.data ++ [ch] }

def OString.addText (o : OString) (t : Text) : OString := { o with data := o.data ++ t }

def OString.reset (o : OString) : OString := { o with data := [], nonnull := false }

/-- `b_addqchr`. -/
def OString.addq (o : OString) (ch : Char) : OString :=
  if o.quote ∧ ch ∈ ['*', '?', '[', '\\'] then (o.add '\\').add ch else o.add ch

/-- The copy that `done_word` makes: each backslash is dropped and the character
behind it kept. For a backslash at the very end the source copies on behind the
terminator of the word; the copy here ends. -/
@[grind]
def unescape : Text → Text
  | [] => []
  | '\\'::[] => []
  | '\\'::c::cs => c::unescape cs
  | c::cs => c::unescape cs

/-! ## Pipes and reserved words -/

def PContext.donePipe (c : PContext) (type : PipeStyle) : PContext :=
  { c with
    pipes := c.pipes ++ [⟨c.child.argv, c.child.group, c.child.sp, type, c.w⟩]
    child := ⟨[], [], 0⟩ }

/-- The list from `list_head` on, with the pipe still being filled. -/
def PContext.listHead (c : PContext) : List Pipe :=
  c.pipes ++ [⟨c.child.argv, c.child.group, c.child.sp, .invalid, .resNone⟩]

def Parse.donePipe (p : Parse) (type : PipeStyle) : Parse := { p with ctx := p.ctx.donePipe type }

structure ReservedCombo where
  literal : Text
  code : ReservedStyle
  flag : Flag
  deriving DecidableEq

def reservedList : List ReservedCombo :=
  [⟨"if".toList, .resIf, [.resThen, flagStart]⟩,
   ⟨"then".toList, .resThen, [.resElif, .resElse, .resFi]⟩,
   ⟨"elif".toList, .resElif, [.resThen]⟩,
   ⟨"else".toList, .resElse, [.resFi]⟩,
   ⟨"fi".toList, .resFi, [flagEnd]⟩,
   ⟨"for".toList, .resFor, [.resIn, flagStart]⟩,
   ⟨"while".toList, .resWhile, [.resDo, flagStart]⟩,
   ⟨"until".toList, .resUntil, [.resDo, flagStart]⟩,
   ⟨"in".toList, .resIn, [.resDo]⟩,
   ⟨"do".toList, .resDo, [.resDone]⟩,
   ⟨"done".toList, .resDone, [flagEnd]⟩]

def Parse.syntaxWord (p : Parse) : Parse :=
  { p with dest := p.dest.reset, ctx := { p.ctx with w := .resSntx } }

/-- The part of `reserved_word` behind the order checks. -/
def Parse.enterWord (r : ReservedCombo) (p : Parse) : Parse :=
  let ctx := { p.ctx with w := r.code, oldFlag := r.flag }
  if flagEnd ∈ r.flag then
    match p.stack with
    | old::stack =>
      { p with
        dest := p.dest.reset
        ctx := { old with child := { old.child with group := (ctx.donePipe .pipeSeq).listHead } }
        stack := stack }
    | [] => { p with dest := p.dest.reset, ctx := ctx.donePipe .pipeSeq }
  else { p with dest := p.dest.reset, ctx := ctx }

/-- `none` when the word is not reserved. -/
def reservedWord (p : Parse) : Option Parse :=
  (reservedList.find? fun r => r.literal = p.dest.data).map fun r =>
    if flagStart ∈ r.flag then
      if p.ctx.w = .resIn ∨ p.ctx.w = .resFor then p.syntaxWord
      else Parse.enterWord r { p with ctx := initializeContext, stack := p.ctx::p.stack }
    else if p.ctx.w = .resNone ∨ r.code ∉ p.ctx.oldFlag then p.syntaxWord
    else Parse.enterWord r p

def Parse.pushWord (p : Parse) : Parse :=
  { p with
    dest := p.dest.reset
    ctx := { p.ctx with
      child := { p.ctx.child with argv := p.ctx.child.argv ++ [unescape p.dest.data] } } }

/-- The word that `done_word` appends; the name of a `for` closes its pipe. -/
def Parse.argument (p : Parse) : Parse :=
  if p.ctx.w = .resFor then p.pushWord.donePipe .pipeSeq else p.pushWord

/-- `true` is the return value 1. -/
def doneWord (semicolon : Bool) (p : Parse) : Bool × Parse :=
  if p.dest.data = [] ∧ p.dest.nonnull = false then (false, p)
  else if p.ctx.child.group.isEmpty = false then (true, p)
  else if p.ctx.child.argv = [] ∧ semicolon = true then
    match reservedWord p with
    | some q => (q.ctx.w = .resSntx, q)
    | none => (false, p.argument)
  else (false, p.argument)

/-! ## The stream -/

/-- `isalpha` of `lib/ctype.c`, with the upper half of Latin 1. -/
def isalpha (c : Char) : Bool :=
  c.isAlpha ∨ (192 ≤ c.toNat ∧ c.toNat ≤ 255 ∧ c.toNat ≠ 215 ∧ c.toNat ≠ 247)

def isalnum (c : Char) : Bool := isalpha c ∨ c.isDigit

def specialVarSymbol : Char := '\x03'
def substedVarSymbol : Char := '\x04'

/-- `map` after `update_ifs_map`; a later `mapset` wins. With `plain`, the
characters `;$&|` are mapped back to 0. -/
def charMap (ifs : Text) (plain : Bool) (ch : Char) : ℕ :=
  if plain ∧ ch ∈ [';', '$', '&', '|'] then 0
  else if ch ∈ ifs then 2
  else if ch ∈ [';', '&', '|', '#'] then 1
  else if ch ∈ ['\\', '$', '\'', '"', substedVarSymbol] then 3
  else 0

inductive Result
  | done (rcode : ℤ) (p : Parse) (rest : Text)
  | fault

inductive Step
  | next (p : Parse) (rest : Text)
  | stop (r : Result)

def Parse.add (p : Parse) (ch : Char) : Parse := { p with dest := p.dest.add ch }
def Parse.addText (p : Parse) (t : Text) : Parse := { p with dest := p.dest.addText t }
def Parse.addq (p : Parse) (ch : Char) : Parse := { p with dest := p.dest.addq ch }
def Parse.setNonnull (p : Parse) : Parse := { p with dest := { p.dest with nonnull := true } }

def Parse.countVar (p : Parse) : Parse :=
  { p with ctx := { p.ctx with child := { p.ctx.child with sp := p.ctx.child.sp+1 } } }

def Parse.addVar (p : Parse) (name : Text) : Parse :=
  p.countVar.addText (specialVarSymbol::name ++ [specialVarSymbol])

def nameChar (c : Char) : Bool := isalnum c ∨ c = '_'

def handleDollar (p : Parse) (rest : Text) : Step :=
  match rest with
  | '?'::rest => .next (p.addVar ['$', '?']) rest
  | '{'::rest =>
    match rest.dropWhile (· ≠ '}') with
    | _::rest' => .next (p.addVar (rest.takeWhile (· ≠ '}'))) rest'
    | [] => .stop (.done 1 (p.countVar.addText (specialVarSymbol::rest)) [])
  | c::cs =>
    if isalpha c then
      .next (p.addVar ((c::cs).takeWhile nameChar)) ((c::cs).dropWhile nameChar)
    else .next (p.addq '$') rest
  | [] => .next (p.addq '$') []

/-- The characters up to the mate of `q` are taken as they are. -/
def quotedRun (q : Char) (p : Parse) (rest : Text) : Step :=
  match rest.dropWhile (· ≠ q) with
  | _::rest' => .next (p.setNonnull.addText (rest.takeWhile (· ≠ q))) rest'
  | [] => .stop (.done 1 (p.setNonnull.addText rest) [])

/-- `&` and `|`: the result of `done_word` is dropped. -/
def doubled (semicolon : Bool) (ch : Char) (type : PipeStyle) (p : Parse) (rest : Text) : Step :=
  match rest with
  | c::rest' => if c = ch then .next ((doneWord semicolon p).2.donePipe type) rest'
      else .stop (.done 1 (doneWord semicolon p).2 rest)
  | [] => .stop (.done 1 (doneWord semicolon p).2 [])

/-- The `switch` of `parse_stream`. `static_peek` gives the terminator and not
`EOF`, so the test behind a backslash and the end of a comment are not seen. -/
def parseSpecial (semicolon : Bool) (p : Parse) (ch : Char) (rest : Text) : Step :=
  if ch = '#' then
    if p.dest.data = [] ∧ p.dest.quote = false then
      match rest.dropWhile (· ≠ '\n') with
      | [] => .stop .fault
      | rest' => .next p rest'
    else .next (p.addq ch) rest
  else if ch = '\\' then
    match rest with
    | [] => .stop .fault
    | c::rest' => .next ((p.addq '\\').addq c) rest'
  else if ch = '$' then handleDollar p rest
  else if ch = '\'' then quotedRun '\'' p rest
  else if ch = '"' then
    .next { p with dest := { p.dest with nonnull := true, quote := !p.dest.quote } } rest
  else if ch = ';' then .next ((doneWord semicolon p).2.donePipe .pipeSeq) rest
  else if ch = '&' then doubled semicolon '&' .pipeAnd p rest
  else if ch = '|' then doubled semicolon '|' .pipeOr p rest
  else if ch = substedVarSymbol then quotedRun substedVarSymbol p rest
  else .stop (.done 1 p rest)

/-- `ch == end_trigger`, with the newline that both callers pass. -/
def triggered (p : Parse) (ch : Char) : Prop :=
  ch = '\n' ∧ p.dest.quote = false ∧ p.ctx.w = .resNone

instance (p : Parse) (ch : Char) : Decidable (triggered p ch) :=
  inferInstanceAs (Decidable (_ ∧ _ ∧ _))

def parseBlank (semicolon : Bool) (p : Parse) (ch : Char) (rest : Text) : Step :=
  match doneWord semicolon p with
  | (true, q) => .stop (.done 1 q rest)
  | (false, q) =>
    let q' := if ch = '\n' then q.donePipe .pipeSeq else q
    if triggered q' ch then .stop (.done 0 q' rest) else .next q' rest

/-- The body of the loop of `parse_stream`. -/
def parseStep (map : Char → ℕ) (semicolon : Bool) (p : Parse) (ch : Char) (rest : Text) : Step :=
  if map ch = 0 ∨ (map ch = 1 ∨ map ch = 2) ∧ p.dest.quote then .next (p.addq ch) rest
  else if map ch = 2 then parseBlank semicolon p ch rest
  else if triggered p ch then .stop (.done 0 p rest)
  else parseSpecial semicolon p ch rest

/-- Every round takes a character, so `rest.length` rounds are enough. -/
@[grind]
def parseRounds (map : Char → ℕ) (semicolon : Bool) : ℕ → Parse → Text → Result
  | _, p, [] => .done (-1) p []
  | 0, _, _::_ => .fault
  | n+1, p, ch::rest =>
    match parseStep map semicolon p ch rest with
    | .next q rest' => parseRounds map semicolon n q rest'
    | .stop r => r

def parseStream (map : Char → ℕ) (semicolon : Bool) (p : Parse) (text : Text) : Result :=
  parseRounds map semicolon text.length p text

end UBoot.Hush
