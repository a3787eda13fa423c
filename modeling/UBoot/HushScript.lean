import UBoot.HushParse
import UBoot.HushRun
import UBoot.ShellScript

/-!
# What the parser makes of a script

A script is written with `;` behind every command of a list and blanks behind
the reserved words. `listPipes` is the pipe list of it: the commands of all parts
of a compound stand in one list, told apart by the mode of their pipes, and the
compound is the group of one pipe of the list around it.
-/

set_option autoImplicit false

namespace UBoot.Hush
open UBoot.ShellScript

/-- The variable of a `for` and the words behind `in`. -/
structure LoopHead where
  name : Text
  first : Char
  rest : Text
  name_eq : name = first::rest
  letter : isalpha first = true
  nameChars : ∀ c ∈ name, nameChar c = true
  notReserved : name ∉ reservedWords
  values : List Word
  valueNotReserved : ∀ w ∈ values.head?, w.data ∉ reservedWords

/-- A command that a loop may run again. A run counts the variables of the
assignments in front of a command word off `child->sp` and the next run starts
from what is left, so there are none. -/
structure ScriptCommand extends Command where
  steady : toCommand.argv.dropWhile isAssignment = [] ∨
    ∀ t ∈ toCommand.argv.takeWhile isAssignment, specialVarSymbol ∉ t

abbrev HushScript := Script ScriptCommand LoopHead

def loopWord (sense : Bool) : Text := if sense then "while".toList else "until".toList
def loopMode (sense : Bool) : ReservedStyle := if sense then .resWhile else .resUntil

def thenCombo : ReservedCombo := ⟨"then".toList, .resThen, [.resElif, .resElse, .resFi]⟩
def elifCombo : ReservedCombo := ⟨"elif".toList, .resElif, [.resThen]⟩
def elseCombo : ReservedCombo := ⟨"else".toList, .resElse, [.resFi]⟩
def doCombo : ReservedCombo := ⟨"do".toList, .resDo, [.resDone]⟩
def fiCombo : ReservedCombo := ⟨"fi".toList, .resFi, [flagEnd]⟩
def doneCombo : ReservedCombo := ⟨"done".toList, .resDone, [flagEnd]⟩
def inCombo : ReservedCombo := ⟨"in".toList, .resIn, [.resDo]⟩
def ifCombo : ReservedCombo := ⟨"if".toList, .resIf, [.resThen, flagStart]⟩
def forCombo : ReservedCombo := ⟨"for".toList, .resFor, [.resIn, flagStart]⟩
def loopCombo (sense : Bool) : ReservedCombo := ⟨loopWord sense, loopMode sense, [.resDo, flagStart]⟩

def separator : Text := [';', ' ']

def LoopHead.text (h : LoopHead) : Text :=
  h.name ++ ' '::(inCombo.literal ++ if h.values = [] then [] else ' '::wordsText h.values)

@[grind]
def scriptText : {k : Bool} → HushScript k → Text
  | _, .simple c => c.text
  | _, .seq a b => scriptText a ++ (separator ++ scriptText b)
  | _, .branch c b t => ifCombo.literal ++ ' '::(scriptText c ++ (separator ++
      (thenCombo.literal ++ ' '::(scriptText b ++ (separator ++ scriptText t)))))
  | _, .loop sense c b => (loopCombo sense).literal ++ ' '::(scriptText c ++ (separator ++
      (doCombo.literal ++ ' '::(scriptText b ++ (separator ++ doneCombo.literal)))))
  | _, .each h b => forCombo.literal ++ ' '::(h.text ++ (separator ++
      (doCombo.literal ++ ' '::(scriptText b ++ (separator ++ doneCombo.literal)))))
  | _, .fi => fiCombo.literal
  | _, .orElse e => elseCombo.literal ++ ' '::(scriptText e ++ (separator ++ fiCombo.literal))
  | _, .elif c b t => elifCombo.literal ++ ' '::(scriptText c ++ (separator ++
      (thenCombo.literal ++ ' '::(scriptText b ++ (separator ++ scriptText t)))))

def groupPipe (group : List Pipe) (w : ReservedStyle) : Pipe := ⟨[], group, 0, .pipeSeq, w⟩

/-- The pipe of the last reserved word, and the one behind it. -/
def closing (w : ReservedStyle) : List Pipe := [⟨[], [], 0, .pipeSeq, w⟩, newPipe]

def LoopHead.pipes (h : LoopHead) : List Pipe :=
  [⟨[h.name], [], 0, .pipeSeq, .resFor⟩,
   ⟨h.values.map Word.data, [], (h.values.map Word.vars).sum, .pipeSeq, .resIn⟩]

@[grind]
def listPipes : {k : Bool} → ReservedStyle → HushScript k → List Pipe
  | _, w, .simple c => [c.pipe .pipeSeq w]
  | _, w, .seq a b => listPipes w a ++ listPipes w b
  | _, w, .branch c b t =>
      [groupPipe (listPipes .resIf c ++ listPipes .resThen b ++ listPipes w t ++ closing .resFi) w]
  | _, w, .loop sense c b =>
      [groupPipe (listPipes (loopMode sense) c ++ listPipes .resDo b ++ closing .resDone) w]
  | _, w, .each h b => [groupPipe (h.pipes ++ listPipes .resDo b ++ closing .resDone) w]
  | _, _, .fi => []
  | _, _, .orElse e => listPipes .resElse e
  | _, w, .elif c b t => listPipes .resElif c ++ listPipes .resThen b ++ listPipes w t

theorem listPipes_mode (w : ReservedStyle) (sc : HushScript true) :
    ∀ pi ∈ listPipes w sc, pi.rMode = w := by
  generalize hk : true = k at sc
  induction sc with
  | simple c => simp [listPipes, Command.pipe]
  | seq a b ha hb =>
    intro pi hpi
    rcases List.mem_append.mp hpi with h | h
    · exact ha rfl pi h
    · exact hb rfl pi h
  | branch c b t => simp [listPipes, groupPipe]
  | loop sense c b => simp [listPipes, groupPipe]
  | each h b => simp [listPipes, groupPipe]
  | fi => exact absurd hk (by simp)
  | orElse e => exact absurd hk (by simp)
  | elif c b t => exact absurd hk (by simp)

theorem tailPipes_mode (w : ReservedStyle) (t : HushScript false) :
    ∀ pi ∈ listPipes w t, pi.rMode = .resElif ∨ pi.rMode = .resThen ∨ pi.rMode = .resElse := by
  generalize hk : false = k at t
  induction t with
  | fi => simp [listPipes]
  | orElse e => exact fun pi hpi => Or.inr (Or.inr (listPipes_mode .resElse e pi hpi))
  | elif c b t _ _ ht =>
    intro pi hpi
    rcases List.mem_append.mp hpi with h | h
    · rcases List.mem_append.mp h with h | h
      · exact Or.inl (listPipes_mode .resElif c pi h)
      · exact Or.inr (Or.inl (listPipes_mode .resThen b pi h))
    · exact ht rfl pi h
  | simple c => exact absurd hk (by simp)
  | seq a b => exact absurd hk (by simp)
  | branch c b t => exact absurd hk (by simp)
  | loop sense c b => exact absurd hk (by simp)
  | each h b => exact absurd hk (by simp)

theorem listPipes_ne (w : ReservedStyle) (sc : HushScript true) : listPipes w sc ≠ [] := by
  generalize hk : true = k at sc
  induction sc with
  | simple c => simp [listPipes]
  | seq a b ha hb => simp [listPipes, ha rfl]
  | branch c b t => simp [listPipes]
  | loop sense c b => simp [listPipes]
  | each h b => simp [listPipes]
  | fi => exact absurd hk (by simp)
  | orElse e => exact absurd hk (by simp)
  | elif c b t => exact absurd hk (by simp)

/-! ## Reserved words -/

/-- At the start of a command. -/
def ready (pipes : List Pipe) (w : ReservedStyle) (flag : Flag) (stack : List PContext) : Parse :=
  ⟨⟨[], false, false⟩, ⟨pipes, ⟨[], [], 0⟩, w, flag⟩, stack⟩

/-- A compound has been closed and its group is pending. -/
def grouped (pipes : List Pipe) (w : ReservedStyle) (flag : Flag) (stack : List PContext)
    (group : List Pipe) : Parse :=
  ⟨⟨[], false, false⟩, ⟨pipes, ⟨[], group, 0⟩, w, flag⟩, stack⟩

theorem parse_plain (p : Parse) (argv : List Text) (sp : ℕ) (data t rest : Text)
    (h : ∀ c ∈ t, stdMap c = 0) :
    parseStream stdMap true (p.fill argv sp data) (t ++ rest) =
      parseStream stdMap true (p.fill argv sp (data ++ t)) rest := by
  induction t generalizing data with
  | nil => simp
  | cons c t ih =>
    rw [List.cons_append, parse_lit _ _ _ _ _ _ (h c (by simp)), ih _ (fun d hd => h d (by simp [hd])),
      List.append_assoc, List.singleton_append]

theorem reserved_plain : ∀ r ∈ reservedList, ∀ c ∈ r.literal, stdMap c = 0 := by
  have h : ∀ r ∈ reservedList, r.literal.all (fun c => stdMap c = 0) = true := by decide
  intro r hr
  simpa using h r hr

theorem reserved_ne : ∀ r ∈ reservedList, r.literal ≠ [] := by decide

theorem reserved_found :
    ∀ r ∈ reservedList, (reservedList.find? fun x => x.literal = r.literal) = some r := by
  decide

theorem reservedWord_found (p : Parse) (r : ReservedCombo) (hr : r ∈ reservedList)
    (h : p.dest.data = r.literal) :
    reservedWord p = some (if flagStart ∈ r.flag then
      if p.ctx.w = .resIn ∨ p.ctx.w = .resFor then p.syntaxWord
      else Parse.enterWord r { p with ctx := initializeContext, stack := p.ctx::p.stack }
    else if p.ctx.w = .resNone ∨ r.code ∉ p.ctx.oldFlag then p.syntaxWord
    else Parse.enterWord r p) := by
  have hf : (reservedList.find? fun x => x.literal = p.dest.data) = some r := by
    rw [h]
    exact reserved_found r hr
  rw [reservedWord, hf]
  rfl

theorem keyword_ends (r : ReservedCombo) (hr : r ∈ reservedList) (p q : Parse)
    (h : reservedWord (p.fill [] 0 r.literal) = some q) (hq : q.ctx.w ≠ .resSntx) :
    Ends true (p.fill [] 0 []) r.literal q := by
  refine ⟨p.fill [] 0 r.literal, ?_, rfl, ?_⟩
  · intro rest
    exact parse_plain p [] 0 [] r.literal rest (reserved_plain r hr)
  · rw [doneWord, if_neg (fun hc => reserved_ne r hr hc.1), if_neg (by simp [Parse.fill]),
      if_pos ⟨rfl, rfl⟩, h]
    simp [hq]

section Words
variable (r : ReservedCombo) (hr : r ∈ reservedList) (pipes : List Pipe) (w : ReservedStyle)
variable (flag : Flag) (stack : List PContext) (rest : Text)
include hr

theorem open_parsed (hs : flagStart ∈ r.flag) (he : flagEnd ∉ r.flag) (hc : r.code ≠ .resSntx)
    (hw : w ≠ .resIn ∧ w ≠ .resFor) :
    parseStream stdMap true (ready pipes w flag stack) (r.literal ++ ' '::rest) =
      parseStream stdMap true
        (ready [] r.code r.flag (⟨pipes, ⟨[], [], 0⟩, w, flag⟩::stack)) rest := by
  refine (keyword_ends r hr (ready pipes w flag stack) _ ?_ ?_).space rest
  · rw [reservedWord_found _ r hr rfl]
    simp [Parse.fill, hs, he, hw.1, hw.2, ready, Parse.enterWord, initializeContext, OString.reset]
  · exact hc

theorem next_ends (hs : flagStart ∉ r.flag) (he : flagEnd ∉ r.flag) (hc : r.code ≠ .resSntx)
    (hw : w ≠ .resNone) (hf : r.code ∈ flag) :
    Ends true (ready pipes w flag stack) r.literal (ready pipes r.code r.flag stack) := by
  refine keyword_ends r hr (ready pipes w flag stack) _ ?_ ?_
  · rw [reservedWord_found _ r hr rfl]
    simp [Parse.fill, hs, he, hw, hf, ready, Parse.enterWord, OString.reset]
  · exact hc

theorem close_ends (hs : flagStart ∉ r.flag) (he : flagEnd ∈ r.flag) (hw : w ≠ .resNone)
    (hf : r.code ∈ flag) (w' : ReservedStyle) (pipes' : List Pipe) (flag' : Flag)
    (hw' : w' ≠ .resSntx) :
    Ends true (ready pipes w flag (⟨pipes', ⟨[], [], 0⟩, w', flag'⟩::stack)) r.literal
      (grouped pipes' w' flag' stack (pipes ++ closing r.code)) := by
  refine keyword_ends r hr (ready pipes w flag (⟨pipes', ⟨[], [], 0⟩, w', flag'⟩::stack)) _ ?_ ?_
  · rw [reservedWord_found _ r hr rfl]
    simp [Parse.fill, hs, he, hw, hf, ready, grouped, Parse.enterWord, OString.reset, PContext.donePipe,
      PContext.listHead, closing, newPipe]
  · exact hw'

end Words

/-! ## Scripts -/

/-- A list leaves its last word pending; what follows a `then` part closes the
whole compound. -/
@[grind]
def Parsed : {k : Bool} → HushScript k → Prop
  | true, sc => ∀ pipes w flag stack, w ≠ .resIn ∧ w ≠ .resFor → w ≠ .resSntx →
      ∃ q, Ends true (ready pipes w flag stack) (scriptText sc) q ∧
        q.donePipe .pipeSeq = ready (pipes ++ listPipes w sc) w flag stack ∧
        q.dest.quote = false ∧ q.ctx.w = w
  | false, t => ∀ pipes w' pipes' flag' stack, w' ≠ .resSntx →
      Ends true
        (ready pipes .resThen thenCombo.flag (⟨pipes', ⟨[], [], 0⟩, w', flag'⟩::stack))
        (scriptText t) (grouped pipes' w' flag' stack (pipes ++ listPipes w' t ++ closing .resFi))

theorem blank_parsed (pipes : List Pipe) (w : ReservedStyle) (flag : Flag) (stack : List PContext)
    (rest : Text) :
    parseStream stdMap true (ready pipes w flag stack) (' '::rest) =
      parseStream stdMap true (ready pipes w flag stack) rest :=
  parse_space _ _ rest rfl (doneWord_empty (ready pipes w flag stack) [] 0)

section Parts
variable {sc : HushScript true} (hsc : Parsed sc) (pipes : List Pipe) (w : ReservedStyle) (flag : Flag)
variable (stack : List PContext) (hw : w ≠ .resIn ∧ w ≠ .resFor) (hn : w ≠ .resSntx)
include hsc hw hn

theorem list_parsed (rest : Text) :
    parseStream stdMap true (ready pipes w flag stack) (scriptText sc ++ (separator ++ rest)) =
      parseStream stdMap true (ready (pipes ++ listPipes w sc) w flag stack) rest := by
  obtain ⟨q, hq, hd, -, -⟩ := hsc pipes w flag stack hw hn
  have h := hq.semi (' '::rest)
  rw [hd, blank_parsed] at h
  exact h

/-- A part and the reserved word behind it. -/
theorem part_parsed (r : ReservedCombo) (hr : r ∈ reservedList) (hs : flagStart ∉ r.flag)
    (he : flagEnd ∉ r.flag) (hc : r.code ≠ .resSntx) (h0 : w ≠ .resNone) (hf : r.code ∈ flag)
    (rest : Text) :
    parseStream stdMap true (ready pipes w flag stack)
        (scriptText sc ++ (separator ++ (r.literal ++ ' '::rest))) =
      parseStream stdMap true (ready (pipes ++ listPipes w sc) r.code r.flag stack) rest := by
  rw [list_parsed hsc pipes w flag stack hw hn]
  exact (next_ends r hr _ w flag stack hs he hc h0 hf).space rest

/-- A part and the word that closes the compound. -/
theorem last_ends (r : ReservedCombo) (hr : r ∈ reservedList) (hs : flagStart ∉ r.flag)
    (he : flagEnd ∈ r.flag) (h0 : w ≠ .resNone) (hf : r.code ∈ flag) (w' : ReservedStyle)
    (pipes' : List Pipe) (flag' : Flag) (hw' : w' ≠ .resSntx) :
    Ends true (ready pipes w flag (⟨pipes', ⟨[], [], 0⟩, w', flag'⟩::stack))
      (scriptText sc ++ (separator ++ r.literal))
      (grouped pipes' w' flag' stack (pipes ++ listPipes w sc ++ closing r.code)) := by
  apply (close_ends r hr (pipes ++ listPipes w sc) w flag stack hs he h0 hf w' pipes' flag' hw').via
  intro rest
  rw [List.append_assoc, List.append_assoc]
  exact list_parsed hsc pipes w flag _ hw hn _

end Parts

/-- The front of a compound: the word that opens it, a part, and the next word. -/
theorem front_parsed (r r' : ReservedCombo) (hr : r ∈ reservedList) (hs : flagStart ∈ r.flag)
    (he : flagEnd ∉ r.flag) (hc : r.code ≠ .resSntx) (hi : r.code ≠ .resIn ∧ r.code ≠ .resFor)
    (h0 : r.code ≠ .resNone) (hr' : r' ∈ reservedList) (hs' : flagStart ∉ r'.flag)
    (he' : flagEnd ∉ r'.flag) (hc' : r'.code ≠ .resSntx) (hf : r'.code ∈ r.flag)
    (sc : HushScript true) (hsc : Parsed sc) (pipes : List Pipe) (w : ReservedStyle) (flag : Flag)
    (stack : List PContext) (hw : w ≠ .resIn ∧ w ≠ .resFor) (rest : Text) :
    parseStream stdMap true (ready pipes w flag stack)
        (r.literal ++ ' '::(scriptText sc ++ (separator ++ (r'.literal ++ ' '::rest)))) =
      parseStream stdMap true (ready (listPipes r.code sc) r'.code r'.flag
        (⟨pipes, ⟨[], [], 0⟩, w, flag⟩::stack)) rest := by
  rw [open_parsed r hr pipes w flag stack _ hs he hc hw]
  exact part_parsed hsc [] r.code r.flag _ hi hc r' hr' hs' he' hc' h0 hf rest

theorem simple_parsed (c : ScriptCommand) : Parsed (.simple c : HushScript true) := by
  intro pipes w flag stack hw hn
  exact ⟨_, command_ends true (ready pipes w flag stack) c.toCommand hw.2, rfl, rfl, rfl⟩

theorem seq_parsed (a b : HushScript true) (ha : Parsed a) (hb : Parsed b) : Parsed (.seq a b) := by
  intro pipes w flag stack hw hn
  obtain ⟨q, hq, hd, hquote, hmode⟩ := hb (pipes ++ listPipes w a) w flag stack hw hn
  refine ⟨q, ?_, ?_, hquote, hmode⟩
  · apply hq.via
    intro rest
    rw [scriptText, List.append_assoc, List.append_assoc]
    exact list_parsed ha pipes w flag stack hw hn _
  · rw [hd, listPipes, List.append_assoc]

theorem branch_parsed (c b : HushScript true) (t : HushScript false) (hc : Parsed c) (hb : Parsed b)
    (ht : Parsed t) : Parsed (.branch c b t) := by
  intro pipes w flag stack hw hn
  refine ⟨grouped pipes w flag stack (listPipes .resIf c ++ listPipes .resThen b ++
    listPipes w t ++ closing .resFi), ?_, rfl, rfl, rfl⟩
  apply (ht (listPipes .resIf c ++ listPipes .resThen b) w pipes flag stack hn).via
  intro rest
  have hfront := front_parsed ifCombo thenCombo (by decide) (by decide) (by decide) (by decide)
    (by decide) (by decide) (by decide) (by decide) (by decide) (by decide) (by decide) c hc pipes w
    flag stack hw (scriptText b ++ (separator ++ (scriptText t ++ rest)))
  have hbody := list_parsed hb (listPipes .resIf c) .resThen thenCombo.flag
    (⟨pipes, ⟨[], [], 0⟩, w, flag⟩::stack) (by decide) (by decide) (scriptText t ++ rest)
  simpa only [scriptText, List.append_assoc, List.cons_append] using hfront.trans hbody

theorem loop_parsed (sense : Bool) (c b : HushScript true) (hc : Parsed c) (hb : Parsed b) :
    Parsed (.loop sense c b) := by
  intro pipes w flag stack hw hn
  refine ⟨grouped pipes w flag stack (listPipes (loopMode sense) c ++ listPipes .resDo b ++
    closing .resDone), ?_, rfl, rfl, rfl⟩
  have hlast := last_ends hb (listPipes (loopMode sense) c) .resDo doCombo.flag stack (by decide)
    (by decide) doneCombo (by decide) (by decide) (by decide) (by decide) (by decide) w pipes flag hn
  apply hlast.via
  intro rest
  have hfront := front_parsed (loopCombo sense) doCombo (by cases sense <;> decide)
    (by cases sense <;> decide) (by cases sense <;> decide) (by cases sense <;> decide)
    (by cases sense <;> decide) (by cases sense <;> decide) (by decide) (by decide) (by decide)
    (by decide) (by cases sense <;> decide) c hc pipes w flag stack hw
    ((scriptText b ++ (separator ++ doneCombo.literal)) ++ rest)
  simp only [scriptText, List.append_assoc, List.cons_append] at hfront ⊢
  exact hfront

theorem nameChar_plain (c : Char) (h : nameChar c = true) : stdMap c = 0 := by
  have hs : [' ', '\t', '\n', ';', '&', '|', '#', '\\', '$', '\'', '"', substedVarSymbol].all
      (fun d => nameChar d = false) = true := by decide
  have hc : ∀ d ∈ [' ', '\t', '\n', ';', '&', '|', '#', '\\', '$', '\'', '"', substedVarSymbol],
      c ≠ d := by
    intro d hd he
    have hd' := List.all_eq_true.mp hs d hd
    rw [← he, h] at hd'
    exact absurd hd' (by simp)
  simp only [List.forall_mem_cons, List.not_mem_nil, false_implies, implies_true, and_true] at hc
  simp [stdMap, charMap, hc]

def LoopHead.word (h : LoopHead) : Word where
  pieces := h.name.map .lit
  nonempty := by simp [h.name_eq]
  valid := by
    intro x hx
    obtain ⟨c, hc, rfl⟩ := List.mem_map.mp hx
    exact nameChar_plain c (h.nameChars c hc)

theorem LoopHead.word_text (h : LoopHead) : h.word.text = h.name := by
  simp [Word.text, LoopHead.word, List.flatMap_map, Piece.text]

theorem LoopHead.word_data (h : LoopHead) : h.word.data = h.name := by
  simp [Word.data, LoopHead.word, List.flatMap_map, Piece.data]

theorem LoopHead.word_vars (h : LoopHead) : h.word.vars = 0 := by
  simp [Word.vars, LoopHead.word, Piece.vars, Function.comp_def]

/-- The name of the variable closes its pipe. -/
theorem name_ends (h : LoopHead) (flag : Flag) (stack : List PContext) :
    Ends true (ready [] .resFor flag stack) h.name
      (ready [⟨[h.name], [], 0, .pipeSeq, .resFor⟩] .resFor flag stack) := by
  refine ⟨(ready [] .resFor flag stack).fill [] 0 h.word.data, ?_, rfl, ?_⟩
  · intro rest
    have hp : parseStream stdMap true ((ready [] .resFor flag stack).fill [] 0 [])
        (h.word.text ++ rest) = _ := parse_word (ready [] .resFor flag stack) [] 0 rest h.word
    rw [h.word_text, h.word_vars] at hp
    exact hp
  · rw [doneWord_word _ _ _ _ (Or.inr (by rw [h.word_data]; exact h.notReserved))]
    have hname : unescape h.name = h.name := by
      rw [← h.word_data]
      exact unescape_id _ h.word.data_plain
    simp only [Parse.argument, Parse.fill, ready, if_true, Parse.pushWord, Parse.donePipe,
      PContext.donePipe, h.word_data, hname, OString.reset, List.nil_append]

theorem head_parsed (h : LoopHead) (stack : List PContext) (rest : Text) :
    parseStream stdMap true (ready [] .resFor forCombo.flag stack)
        (h.text ++ (separator ++ rest)) =
      parseStream stdMap true (ready h.pipes .resIn inCombo.flag stack) rest := by
  have hname := (name_ends h forCombo.flag stack).space
  have hin := next_ends inCombo (by decide) [⟨[h.name], [], 0, .pipeSeq, .resFor⟩] .resFor
    forCombo.flag stack (by decide) (by decide) (by decide) (by decide) (by decide)
  simp only [LoopHead.text, List.append_assoc, List.cons_append]
  rw [hname]
  by_cases hv : h.values = []
  · rw [if_pos hv]
    refine (hin.semi (' '::rest)).trans ?_
    simp only [LoopHead.pipes, hv]
    exact blank_parsed _ _ _ _ rest
  · rw [if_neg hv, List.cons_append, hin.space]
    have hwords := words_end true (ready [⟨[h.name], [], 0, .pipeSeq, .resFor⟩] .resIn inCombo.flag
      stack) h.values hv [] 0 (by simp [ready])
      (Or.inr (h.valueNotReserved _ (by simp [List.head?_eq_some_head hv])))
    refine (hwords.semi (' '::rest)).trans ?_
    have hblank := blank_parsed h.pipes .resIn inCombo.flag stack rest
    simpa [LoopHead.pipes, ready, Parse.fill, Parse.donePipe, PContext.donePipe] using hblank

theorem each_parsed (h : LoopHead) (b : HushScript true) (hb : Parsed b) : Parsed (.each h b) := by
  intro pipes w flag stack hw hn
  refine ⟨grouped pipes w flag stack (h.pipes ++ listPipes .resDo b ++ closing .resDone), ?_, rfl,
    rfl, rfl⟩
  have hlast := last_ends hb h.pipes .resDo doCombo.flag stack (by decide)
    (by decide) doneCombo (by decide) (by decide) (by decide) (by decide) (by decide) w pipes flag hn
  apply hlast.via
  intro rest
  have hopen := open_parsed forCombo (by decide) pipes w flag stack
    (h.text ++ (separator ++ (doCombo.literal ++ ' '::(scriptText b ++ (separator ++
      (doneCombo.literal ++ rest)))))) (by decide) (by decide) (by decide) hw
  have hhead := head_parsed h (⟨pipes, ⟨[], [], 0⟩, w, flag⟩::stack)
    (doCombo.literal ++ ' '::(scriptText b ++ (separator ++ (doneCombo.literal ++ rest))))
  have hdo := (next_ends doCombo (by decide) h.pipes .resIn inCombo.flag
    (⟨pipes, ⟨[], [], 0⟩, w, flag⟩::stack) (by decide) (by decide) (by decide) (by decide)
    (by decide)).space (scriptText b ++ (separator ++ (doneCombo.literal ++ rest)))
  have hall := (hopen.trans hhead).trans hdo
  simp only [scriptText, List.append_assoc, List.cons_append] at hall ⊢
  exact hall

theorem fi_parsed : Parsed (.fi : HushScript false) := by
  intro pipes w' pipes' flag' stack hw'
  have h := close_ends fiCombo (by decide) pipes .resThen thenCombo.flag stack (by decide)
    (by decide) (by decide) (by decide) w' pipes' flag' hw'
  rw [listPipes, List.append_nil]
  exact h

theorem orElse_parsed (e : HushScript true) (he : Parsed e) : Parsed (.orElse e) := by
  intro pipes w' pipes' flag' stack hw'
  have hlast := last_ends he pipes .resElse elseCombo.flag stack (by decide)
    (by decide) fiCombo (by decide) (by decide) (by decide) (by decide) (by decide) w' pipes' flag' hw'
  apply hlast.via
  intro rest
  have helse := (next_ends elseCombo (by decide) pipes .resThen thenCombo.flag
    (⟨pipes', ⟨[], [], 0⟩, w', flag'⟩::stack) (by decide) (by decide) (by decide) (by decide)
    (by decide)).space (scriptText e ++ (separator ++ (fiCombo.literal ++ rest)))
  simp only [scriptText, List.append_assoc, List.cons_append] at helse ⊢
  exact helse

theorem elif_parsed (c b : HushScript true) (t : HushScript false) (hc : Parsed c) (hb : Parsed b)
    (ht : Parsed t) : Parsed (.elif c b t) := by
  intro pipes w' pipes' flag' stack hw'
  have htail := ht (pipes ++ (listPipes .resElif c ++ listPipes .resThen b)) w' pipes' flag' stack hw'
  rw [show pipes ++ (listPipes .resElif c ++ listPipes .resThen b) ++ listPipes w' t =
    pipes ++ listPipes w' (.elif c b t) by simp only [listPipes, List.append_assoc]] at htail
  apply htail.via
  intro rest
  have helif := (next_ends elifCombo (by decide) pipes .resThen thenCombo.flag
    (⟨pipes', ⟨[], [], 0⟩, w', flag'⟩::stack) (by decide) (by decide) (by decide) (by decide)
    (by decide)).space (scriptText c ++ (separator ++ (thenCombo.literal ++ ' '::(scriptText b ++
      (separator ++ (scriptText t ++ rest))))))
  have hcond := part_parsed hc pipes .resElif elifCombo.flag
    (⟨pipes', ⟨[], [], 0⟩, w', flag'⟩::stack) (by decide) (by decide) thenCombo (by decide) (by decide)
    (by decide) (by decide) (by decide) (by decide) (scriptText b ++ (separator ++ (scriptText t ++ rest)))
  have hbody := list_parsed hb (pipes ++ listPipes .resElif c) .resThen thenCombo.flag
    (⟨pipes', ⟨[], [], 0⟩, w', flag'⟩::stack) (by decide) (by decide) (scriptText t ++ rest)
  have hall := (helif.trans hcond).trans hbody
  simp only [scriptText, List.append_assoc, List.cons_append] at hall ⊢
  exact hall

theorem parsed {k : Bool} (sc : HushScript k) : Parsed sc := by
  induction sc with
  | simple c => exact simple_parsed c
  | seq a b ha hb => exact seq_parsed a b ha hb
  | branch c b t hc hb ht => exact branch_parsed c b t hc hb ht
  | loop sense c b hc hb => exact loop_parsed sense c b hc hb
  | each h b hb => exact each_parsed h b hb
  | fi => exact fi_parsed
  | orElse e he => exact orElse_parsed e he
  | elif c b t hc hb ht => exact elif_parsed c b t hc hb ht

/-- A whole line. -/
theorem script_parsed (sc : HushScript true) :
    parseStream stdMap true (ready [] .resNone [] []) (scriptText sc ++ ['\n']) =
      .done 0 (ready (listPipes .resNone sc) .resNone [] []) [] := by
  obtain ⟨q, hq, hd, hquote, hmode⟩ := parsed sc [] .resNone [] [] (by decide) (by decide)
  rw [hq.newline hquote hmode, hd]
  rfl

end UBoot.Hush
