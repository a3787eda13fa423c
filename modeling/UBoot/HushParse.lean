import UBoot.HushLex
import Mathlib

/-!
# How `parse_stream` moves over a text

Every round takes at least the character it looks at, which makes the number of
rounds irrelevant. The rest of the module says what the parser does with the
parts a line is written from: words, blanks, separators and operators.
-/

set_option autoImplicit false

namespace UBoot.Hush

variable {map : Char → ℕ} {semicolon : Bool}

/-! ## Rounds -/

theorem parseBlank_rest (p q : Parse) (ch : Char) (rest rest' : Text)
    (h : parseBlank semicolon p ch rest = .next q rest') : rest' = rest := by
  unfold parseBlank at h
  split at h
  next => exact absurd h (by simp)
  next r =>
    dsimp only at h
    split_ifs at h
    · cases h
      rfl
    · cases h
      rfl

theorem apply_rest (p q : Parse) (ch : Char) (l : Lexed) (rest' : Text)
    (h : p.apply semicolon ch l = .next q rest') : rest' = l.rest := by
  cases l with
  | chars dest vars rest =>
    cases h
    rfl
  | blank rest => exact parseBlank_rest p q ch rest rest' h
  | sep type rest =>
    cases h
    rfl
  | lone rest => exact absurd h (by simp [Parse.apply])
  | bad dest vars rest => exact absurd h (by simp [Parse.apply])
  | behind => exact absurd h (by simp [Parse.apply])

theorem parseStep_suffix (p q : Parse) (ch : Char) (rest rest' : Text)
    (h : parseStep map semicolon p ch rest = .next q rest') : rest' <:+ rest := by
  unfold parseStep at h
  split_ifs at h
  · cases h
    exact List.suffix_rfl
  · have hr := parseBlank_rest p q ch rest rest' h
    subst hr
    exact List.suffix_rfl
  · rw [parseSpecial_lex] at h
    rw [apply_rest p q ch _ rest' h]
    exact lexSpecial_suffix p.dest ch rest

theorem parseRounds_enough (n : ℕ) (p : Parse) (text : Text) (h : text.length ≤ n) :
    parseRounds map semicolon n p text = parseStream map semicolon p text := by
  unfold parseStream
  induction n using Nat.strongRecOn generalizing p text with
  | ind n ih =>
    cases text with
    | nil => cases n <;> rfl
    | cons ch rest =>
      obtain ⟨k, rfl⟩ : ∃ k, n = k+1 := ⟨n-1, by simp only [List.length_cons] at h; omega⟩
      simp only [List.length_cons] at h
      simp only [List.length_cons, parseRounds]
      cases hs : parseStep map semicolon p ch rest with
      | stop r => rfl
      | next q rest' =>
        have hl := (parseStep_suffix _ _ _ _ _ hs).length_le
        dsimp only
        rw [ih k (by omega) q rest' (by omega)]
        by_cases he : rest.length = k
        · rw [he, ih k (by omega) q rest' (by omega)]
        · rw [ih rest.length (by omega) q rest' hl]

theorem parseStream_cons (p : Parse) (ch : Char) (rest : Text) :
    parseStream map semicolon p (ch::rest) =
      match parseStep map semicolon p ch rest with
      | .next q rest' => parseStream map semicolon q rest'
      | .stop r => r := by
  rw [parseStream, List.length_cons, parseRounds]
  cases hs : parseStep map semicolon p ch rest with
  | stop r => rfl
  | next q rest' => exact parseRounds_enough _ _ _ (parseStep_suffix _ _ _ _ _ hs).length_le

/-! ## The parts of a line -/

/-- The map of characters while `IFS` is not set. -/
def stdMap : Char → ℕ := charMap [' ', '\t', '\n'] false

inductive Piece
  | lit (c : Char)
  | var (name : Text)

def Piece.text : Piece → Text
  | .lit c => [c]
  | .var name => '$' :: '{' :: name ++ ['}']

/-- What `handle_dollar` and `b_addqchr` put into the word. -/
def Piece.data : Piece → Text
  | .lit c => [c]
  | .var name => specialVarSymbol::name ++ [specialVarSymbol]

def Piece.vars : Piece → ℕ
  | .lit _ => 0
  | .var _ => 1

def Piece.Valid : Piece → Prop
  | .lit c => stdMap c = 0
  | .var name => '}' ∉ name ∧ '\\' ∉ name

/-- A word without quotes. -/
structure Word where
  pieces : List Piece
  nonempty : pieces ≠ []
  valid : ∀ x ∈ pieces, x.Valid

def Word.text (w : Word) : Text := w.pieces.flatMap Piece.text
def Word.data (w : Word) : Text := w.pieces.flatMap Piece.data
def Word.vars (w : Word) : ℕ := (w.pieces.map Piece.vars).sum

def reservedWords : List Text := reservedList.map (·.literal)

/-- The words of a simple command, the first of which is not reserved. -/
structure Command where
  words : List Word
  nonempty : words ≠ []
  notReserved : (words.head nonempty).data ∉ reservedWords

def Command.argv (c : Command) : List Text := c.words.map Word.data
def Command.vars (c : Command) : ℕ := (c.words.map Word.vars).sum

def Command.pipe (c : Command) (type : PipeStyle) (w : ReservedStyle) : Pipe :=
  ⟨c.argv, [], c.vars, type, w⟩

@[grind]
def wordsText : List Word → Text
  | [] => []
  | [w] => w.text
  | w::ws => w.text ++ ' '::wordsText ws

def Command.text (c : Command) : Text := wordsText c.words

/-! ## Words -/

/-- `argv` and `data` are collected so far, outside of quotes. -/
def Parse.fill (p : Parse) (argv : List Text) (sp : ℕ) (data : Text) : Parse :=
  { p with dest := ⟨data, false, false⟩, ctx := { p.ctx with child := ⟨argv, [], sp⟩ } }

theorem parse_lit (p : Parse) (argv : List Text) (sp : ℕ) (data rest : Text) (c : Char)
    (h : stdMap c = 0) :
    parseStream stdMap semicolon (p.fill argv sp data) (c::rest) =
      parseStream stdMap semicolon (p.fill argv sp (data ++ [c])) rest := by
  rw [parseStream_cons, parseStep, if_pos (Or.inl h)]
  rfl

theorem handleDollar_brace (p : Parse) (rest name : Text) (h : '}' ∉ name) :
    handleDollar p ('{'::name ++ '}'::rest) = .next (p.addVar name) rest := by
  have hin : ∀ c ∈ name, decide (c ≠ '}') = true := by
    intro c hc
    exact decide_eq_true (fun he => h (he ▸ hc))
  have hd : (name ++ '}'::rest).dropWhile (· ≠ '}') = '}'::rest := by
    rw [List.dropWhile_append_of_pos hin]
    rfl
  have ht : (name ++ '}'::rest).takeWhile (· ≠ '}') = name := by
    rw [List.takeWhile_append_of_pos hin]
    simp
  simp only [List.cons_append, handleDollar]
  rw [hd]
  dsimp only
  rw [ht]

theorem parse_var (p : Parse) (argv : List Text) (sp : ℕ) (data rest name : Text)
    (h : '}' ∉ name) :
    parseStream stdMap semicolon (p.fill argv sp data) ('$' :: '{' :: name ++ '}'::rest) =
      parseStream stdMap semicolon
        (p.fill argv (sp+1) (data ++ (specialVarSymbol::name ++ [specialVarSymbol]))) rest := by
  have hs : parseStep stdMap semicolon (p.fill argv sp data) '$' ('{'::name ++ '}'::rest) =
      handleDollar (p.fill argv sp data) ('{'::name ++ '}'::rest) := rfl
  rw [List.cons_append, parseStream_cons, hs, handleDollar_brace _ _ _ h]
  rfl

theorem parse_piece (p : Parse) (argv : List Text) (sp : ℕ) (data rest : Text) (x : Piece)
    (h : x.Valid) :
    parseStream stdMap semicolon (p.fill argv sp data) (x.text ++ rest) =
      parseStream stdMap semicolon (p.fill argv (sp+x.vars) (data ++ x.data)) rest := by
  cases x with
  | lit c => exact parse_lit p argv sp data rest c h
  | var name =>
    rw [Piece.text, List.append_assoc]
    exact parse_var p argv sp data rest name h.1

theorem parse_pieces (p : Parse) (argv : List Text) (xs : List Piece) (sp : ℕ) (data rest : Text)
    (h : ∀ x ∈ xs, x.Valid) :
    parseStream stdMap semicolon (p.fill argv sp data) (xs.flatMap Piece.text ++ rest) =
      parseStream stdMap semicolon
        (p.fill argv (sp+(xs.map Piece.vars).sum) (data ++ xs.flatMap Piece.data)) rest := by
  induction xs generalizing sp data with
  | nil => simp
  | cons x xs ih =>
    rw [List.flatMap_cons, List.append_assoc, parse_piece p argv sp data _ x (h x (by simp)),
      ih _ _ (fun y hy => h y (by simp [hy]))]
    simp [Nat.add_assoc]

theorem parse_word (p : Parse) (argv : List Text) (sp : ℕ) (rest : Text) (w : Word) :
    parseStream stdMap semicolon (p.fill argv sp []) (w.text ++ rest) =
      parseStream stdMap semicolon (p.fill argv (sp+w.vars) w.data) rest :=
  parse_pieces p argv w.pieces sp [] rest w.valid

theorem unescape_id (t : Text) (h : '\\' ∉ t) : unescape t = t := by
  induction t with
  | nil => rfl
  | cons c cs ih =>
    have hc : c ≠ '\\' := fun he => h (by simp [he])
    rw [unescape.eq_4 _ _ (fun he _ => hc he) (fun _ _ he _ => hc he),
      ih (fun hm => h (by simp [hm]))]

theorem Word.data_plain (w : Word) : '\\' ∉ w.data := by
  intro h
  obtain ⟨x, hx, hm⟩ := List.mem_flatMap.mp h
  have hv := w.valid x hx
  cases x with
  | lit c =>
    have he : '\\' = c := by simpa [Piece.data] using hm
    rw [← he] at hv
    exact absurd (show stdMap '\\' = 0 from hv) (by decide)
  | var name =>
    have hs : '\\' ≠ specialVarSymbol := by decide
    simp only [Piece.data, List.cons_append, List.mem_cons, List.mem_append, hs, false_or,
      List.not_mem_nil, or_false] at hm
    exact hv.2 hm

theorem Word.data_ne (w : Word) : w.data ≠ [] := by
  intro h
  cases hp : w.pieces with
  | nil => exact w.nonempty hp
  | cons x xs =>
    rw [Word.data, hp, List.flatMap_cons] at h
    cases x <;> simp [Piece.data] at h

theorem reservedWord_none (p : Parse) (h : p.dest.data ∉ reservedWords) : reservedWord p = none := by
  have hf : (reservedList.find? fun r => r.literal = p.dest.data) = none := by
    rw [List.find?_eq_none]
    intro r hr he
    exact h (List.mem_map.mpr ⟨r, hr, by simpa using he⟩)
  rw [reservedWord, hf]
  rfl

theorem doneWord_empty (p : Parse) (argv : List Text) (sp : ℕ) :
    doneWord semicolon (p.fill argv sp []) = (false, p.fill argv sp []) := by
  simp [doneWord, Parse.fill]

theorem doneWord_word (p : Parse) (argv : List Text) (sp : ℕ) (w : Word)
    (hr : argv ≠ [] ∨ w.data ∉ reservedWords) :
    doneWord semicolon (p.fill argv sp w.data) = (false, (p.fill argv sp w.data).argument) := by
  have hd : ¬ ((p.fill argv sp w.data).dest.data = [] ∧
      (p.fill argv sp w.data).dest.nonnull = false) := fun h => w.data_ne h.1
  rw [doneWord, if_neg hd, if_neg (by simp [Parse.fill])]
  rcases hr with h | h
  · rw [if_neg (fun hc => h hc.1)]
  · rw [reservedWord_none _ h]
    split_ifs <;> rfl

theorem argument_word (p : Parse) (argv : List Text) (sp : ℕ) (w : Word) (hf : p.ctx.w ≠ .resFor) :
    (p.fill argv sp w.data).argument = p.fill (argv ++ [w.data]) sp [] := by
  have hw : (p.fill argv sp w.data).ctx.w ≠ .resFor := hf
  rw [Parse.argument, if_neg hw, Parse.pushWord, Parse.fill]
  simp only [unescape_id _ w.data_plain]
  rfl

/-! ## Separators -/

theorem parse_space (p q : Parse) (rest : Text) (hq : p.dest.quote = false)
    (h : doneWord semicolon p = (false, q)) :
    parseStream stdMap semicolon p (' '::rest) = parseStream stdMap semicolon q rest := by
  have hm : stdMap ' ' = 2 := by decide
  have hs : parseStep stdMap semicolon p ' ' rest = .next q rest := by
    simp [parseStep, hm, hq, parseBlank, h, triggered]
  rw [parseStream_cons, hs]

theorem parse_semicolon (p : Parse) (rest : Text) (hq : p.dest.quote = false) :
    parseStream stdMap semicolon p (';'::rest) =
      parseStream stdMap semicolon ((doneWord semicolon p).2.donePipe .pipeSeq) rest := by
  have hm : stdMap ';' = 1 := by decide
  have hs : parseStep stdMap semicolon p ';' rest =
      .next ((doneWord semicolon p).2.donePipe .pipeSeq) rest := by
    simp [parseStep, hm, hq, triggered, parseSpecial]
  rw [parseStream_cons, hs]

theorem parse_and (p : Parse) (rest : Text) (hq : p.dest.quote = false) :
    parseStream stdMap semicolon p ('&' :: '&' :: rest) =
      parseStream stdMap semicolon ((doneWord semicolon p).2.donePipe .pipeAnd) rest := by
  have hm : stdMap '&' = 1 := by decide
  have hs : parseStep stdMap semicolon p '&' ('&'::rest) =
      .next ((doneWord semicolon p).2.donePipe .pipeAnd) rest := by
    simp [parseStep, hm, hq, triggered, parseSpecial, doubled]
  rw [parseStream_cons, hs]

theorem parse_or (p : Parse) (rest : Text) (hq : p.dest.quote = false) :
    parseStream stdMap semicolon p ('|' :: '|' :: rest) =
      parseStream stdMap semicolon ((doneWord semicolon p).2.donePipe .pipeOr) rest := by
  have hm : stdMap '|' = 1 := by decide
  have hs : parseStep stdMap semicolon p '|' ('|'::rest) =
      .next ((doneWord semicolon p).2.donePipe .pipeOr) rest := by
    simp [parseStep, hm, hq, triggered, parseSpecial, doubled]
  rw [parseStream_cons, hs]

theorem parse_newline (p q : Parse) (rest : Text) (hq : p.dest.quote = false)
    (h : doneWord semicolon p = (false, q)) (hq' : q.dest.quote = false) (hw : q.ctx.w = .resNone) :
    parseStream stdMap semicolon p ('\n'::rest) = .done 0 (q.donePipe .pipeSeq) rest := by
  have hm : stdMap '\n' = 2 := by decide
  have hs : parseStep stdMap semicolon p '\n' rest = .stop (.done 0 (q.donePipe .pipeSeq) rest) := by
    simp [parseStep, hm, hq, parseBlank, h, triggered, Parse.donePipe, PContext.donePipe, hq', hw]
  rw [parseStream_cons, hs]

/-- Behind `text` a word is pending, and its end leads to `q`. -/
def Ends (semicolon : Bool) (p : Parse) (text : Text) (q : Parse) : Prop :=
  ∃ r, (∀ rest, parseStream stdMap semicolon p (text ++ rest) = parseStream stdMap semicolon r rest) ∧
    r.dest.quote = false ∧ doneWord semicolon r = (false, q)

theorem Ends.via {p p' q : Parse} {text text' : Text} (h : Ends semicolon p' text' q)
    (hp : ∀ rest, parseStream stdMap semicolon p (text ++ rest) =
      parseStream stdMap semicolon p' (text' ++ rest)) : Ends semicolon p text q := by
  obtain ⟨r, hr, hq, hd⟩ := h
  exact ⟨r, fun rest => (hp rest).trans (hr rest), hq, hd⟩

theorem Ends.space {p q : Parse} {text : Text} (h : Ends semicolon p text q) (rest : Text) :
    parseStream stdMap semicolon p (text ++ ' '::rest) = parseStream stdMap semicolon q rest := by
  obtain ⟨r, hr, hq, hd⟩ := h
  rw [hr, parse_space r q rest hq hd]

theorem Ends.semi {p q : Parse} {text : Text} (h : Ends semicolon p text q) (rest : Text) :
    parseStream stdMap semicolon p (text ++ ';'::rest) =
      parseStream stdMap semicolon (q.donePipe .pipeSeq) rest := by
  obtain ⟨r, hr, hq, hd⟩ := h
  rw [hr, parse_semicolon r rest hq, hd]

theorem Ends.newline {p q : Parse} {text : Text} (h : Ends semicolon p text q)
    (hq' : q.dest.quote = false) (hw : q.ctx.w = .resNone) (rest : Text) :
    parseStream stdMap semicolon p (text ++ '\n'::rest) = .done 0 (q.donePipe .pipeSeq) rest := by
  obtain ⟨r, hr, hq, hd⟩ := h
  rw [hr, parse_newline r q rest hq hd hq' hw]

/-! ## Simple commands -/

theorem word_ends (b : Bool) (p : Parse) (argv : List Text) (sp : ℕ) (w : Word) (hf : p.ctx.w ≠ .resFor)
    (hr : argv ≠ [] ∨ w.data ∉ reservedWords) :
    Ends b (p.fill argv sp []) w.text (p.fill (argv ++ [w.data]) (sp+w.vars) []) := by
  refine ⟨p.fill argv (sp+w.vars) w.data, ?_, rfl, ?_⟩
  · intro rest
    exact parse_word p argv sp rest w
  · rw [doneWord_word p argv _ w hr, argument_word p argv _ w hf]

theorem words_end (b : Bool) (p : Parse) (ws : List Word) (hne : ws ≠ []) (argv : List Text) (sp : ℕ)
    (hf : p.ctx.w ≠ .resFor) (hr : argv ≠ [] ∨ (ws.head hne).data ∉ reservedWords) :
    Ends b (p.fill argv sp []) (wordsText ws)
      (p.fill (argv ++ ws.map Word.data) (sp+(ws.map Word.vars).sum) []) := by
  induction ws generalizing argv sp with
  | nil => exact absurd rfl hne
  | cons w ws ih =>
    have hw := word_ends b p argv sp w hf hr
    cases ws with
    | nil => simpa [wordsText] using hw
    | cons v vs =>
      have htail := ih (by simp) (argv ++ [w.data]) (sp+w.vars) (Or.inl (by simp))
      have h : Ends b (p.fill argv sp []) (wordsText (w::v::vs))
          (p.fill (argv ++ [w.data] ++ (v::vs).map Word.data)
            (sp+w.vars+((v::vs).map Word.vars).sum) []) := by
        apply htail.via
        intro rest
        rw [wordsText, List.append_assoc, List.cons_append]
        · exact hw.space _
        · simp
      simpa [Nat.add_assoc] using h

theorem command_ends (b : Bool) (p : Parse) (c : Command) (hf : p.ctx.w ≠ .resFor) :
    Ends b (p.fill [] 0 []) c.text (p.fill c.argv c.vars []) := by
  have h := words_end b p c.words c.nonempty [] 0 hf (Or.inr c.notReserved)
  simpa [Command.text, Command.argv, Command.vars] using h

end UBoot.Hush
