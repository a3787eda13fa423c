import UBoot.Hush
import Mathlib.Data.List.TakeWhile
import Mathlib.Tactic.Common
import Mathlib.Tactic.SplitIfs

/-!
# The characters of `parse_stream`

A round of `parse_stream` looks at the word being collected, the next character
and the text behind it, and only then at the context. `lexStep` is the first
half: it collects characters into the word, or it says what has ended the word.
The second half is `Parse.apply`. A newline has the map value 0 or 2, as it has
in every map of `update_ifs_map`.
-/

set_option autoImplicit false

namespace UBoot.Hush

/-- What a character amounts to: it is collected, with the number of variables
that were counted, it ends a word, it is an error in itself, or it makes the
code read behind the text. -/
inductive Lexed
  | chars (dest : OString) (vars : ℕ) (rest : Text)
  | blank (rest : Text)
  | sep (type : PipeStyle) (rest : Text)
  | lone (rest : Text)
  | bad (dest : OString) (vars : ℕ) (rest : Text)
  | behind

def OString.addVar (o : OString) (name : Text) : OString :=
  o.addText (specialVarSymbol::name ++ [specialVarSymbol])

def lexDollar (o : OString) (rest : Text) : Lexed :=
  match rest with
  | '?'::rest => .chars (o.addVar ['$', '?']) 1 rest
  | '{'::rest =>
    match rest.dropWhile (· ≠ '}') with
    | _::rest' => .chars (o.addVar (rest.takeWhile (· ≠ '}'))) 1 rest'
    | [] => .bad (o.addText (specialVarSymbol::rest)) 1 []
  | c::cs =>
    if isalpha c then .chars (o.addVar ((c::cs).takeWhile nameChar)) 1 ((c::cs).dropWhile nameChar)
    else .chars (o.addq '$') 0 rest
  | [] => .chars (o.addq '$') 0 []

def lexQuoted (q : Char) (o : OString) (rest : Text) : Lexed :=
  match rest.dropWhile (· ≠ q) with
  | _::rest' => .chars ({ o with nonnull := true }.addText (rest.takeWhile (· ≠ q))) 0 rest'
  | [] => .bad ({ o with nonnull := true }.addText rest) 0 []

def lexDoubled (ch : Char) (type : PipeStyle) (rest : Text) : Lexed :=
  match rest with
  | c::rest' => if c = ch then .sep type rest' else .lone rest
  | [] => .lone []

def lexSpecial (o : OString) (ch : Char) (rest : Text) : Lexed :=
  if ch = '#' then
    if o.data = [] ∧ o.quote = false then
      match rest.dropWhile (· ≠ '\n') with
      | [] => .behind
      | rest' => .chars o 0 rest'
    else .chars (o.addq ch) 0 rest
  else if ch = '\\' then
    match rest with
    | [] => .behind
    | c::rest' => .chars ((o.addq '\\').addq c) 0 rest'
  else if ch = '$' then lexDollar o rest
  else if ch = '\'' then lexQuoted '\'' o rest
  else if ch = '"' then .chars { o with nonnull := true, quote := !o.quote } 0 rest
  else if ch = ';' then .sep .pipeSeq rest
  else if ch = '&' then lexDoubled '&' .pipeAnd rest
  else if ch = '|' then lexDoubled '|' .pipeOr rest
  else if ch = substedVarSymbol then lexQuoted substedVarSymbol o rest
  else .bad o 0 rest

def lexStep (map : Char → ℕ) (o : OString) (ch : Char) (rest : Text) : Lexed :=
  if map ch = 0 ∨ (map ch = 1 ∨ map ch = 2) ∧ o.quote then .chars (o.addq ch) 0 rest
  else if map ch = 2 then .blank rest
  else lexSpecial o ch rest

def Parse.collect (p : Parse) (dest : OString) (vars : ℕ) : Parse :=
  { p with
    dest := dest
    ctx := { p.ctx with child := { p.ctx.child with sp := p.ctx.child.sp+vars } } }

def Parse.apply (semicolon : Bool) (p : Parse) (ch : Char) : Lexed → Step
  | .chars dest vars rest => .next (p.collect dest vars) rest
  | .blank rest => parseBlank semicolon p ch rest
  | .sep type rest => .next ((doneWord semicolon p).2.donePipe type) rest
  | .lone rest => .stop (.done 1 (doneWord semicolon p).2 rest)
  | .bad dest vars rest => .stop (.done 1 (p.collect dest vars) rest)
  | .behind => .stop .fault

section Apply
variable {map : Char → ℕ} {semicolon : Bool} (p : Parse) (ch : Char) (rest : Text)

theorem handleDollar_lex : handleDollar p rest = p.apply semicolon ch (lexDollar p.dest rest) := by
  unfold handleDollar
  split
  next => rfl
  next r =>
    rw [lexDollar]
    cases r.dropWhile (· ≠ '}') <;> rfl
  next c cs h1 h2 =>
    rw [lexDollar.eq_3 p.dest c cs h1 h2]
    split_ifs <;> rfl
  next => rfl

theorem quotedRun_lex (q : Char) :
    quotedRun q p rest = p.apply semicolon ch (lexQuoted q p.dest rest) := by
  unfold quotedRun lexQuoted
  cases rest.dropWhile (· ≠ q) <;> rfl

theorem doubled_lex (q : Char) (type : PipeStyle) :
    doubled semicolon q type p rest = p.apply semicolon ch (lexDoubled q type rest) := by
  unfold doubled lexDoubled
  cases rest with
  | nil => rfl
  | cons c rest =>
    dsimp only
    split_ifs <;> rfl

theorem parseSpecial_lex :
    parseSpecial semicolon p ch rest = p.apply semicolon ch (lexSpecial p.dest ch rest) := by
  unfold parseSpecial lexSpecial
  split_ifs
  · cases rest.dropWhile (· ≠ '\n') <;> rfl
  · rfl
  · cases rest <;> rfl
  · exact handleDollar_lex p ch rest
  · exact quotedRun_lex p ch rest _
  · rfl
  · rfl
  · exact doubled_lex p ch rest _ _
  · exact doubled_lex p ch rest _ _
  · exact quotedRun_lex p ch rest _
  · rfl

theorem parseStep_lex (hmap : map '\n' = 0 ∨ map '\n' = 2) :
    parseStep map semicolon p ch rest = p.apply semicolon ch (lexStep map p.dest ch rest) := by
  unfold parseStep lexStep
  split_ifs with h0 h2 h
  · rfl
  · rfl
  · -- the end trigger is a newline
    exfalso
    rw [h.1] at h0 h2
    rcases hmap with hm | hm
    · exact h0 (Or.inl hm)
    · exact h2 hm
  · exact parseSpecial_lex p ch rest

end Apply

/-! ## What is left of the text -/

def Lexed.rest : Lexed → Text
  | .chars _ _ rest => rest
  | .blank rest => rest
  | .sep _ rest => rest
  | .lone rest => rest
  | .bad _ _ rest => rest
  | .behind => []

theorem dropWhile_suffix (f : Char → Bool) (rest rest' : Text) (c : Char)
    (h : rest.dropWhile f = c::rest') : rest' <:+ rest :=
  (List.suffix_cons c rest').trans (h ▸ List.dropWhile_suffix f)

theorem lexDollar_suffix (o : OString) (rest : Text) : (lexDollar o rest).rest <:+ rest := by
  unfold lexDollar
  split
  · exact List.suffix_cons _ _
  · split
    next c r hd => exact (dropWhile_suffix _ _ _ _ hd).trans (List.suffix_cons _ _)
    next => exact List.nil_suffix
  · split_ifs
    · exact List.dropWhile_suffix nameChar
    · exact List.suffix_rfl
  · exact List.suffix_rfl

theorem lexQuoted_suffix (q : Char) (o : OString) (rest : Text) :
    (lexQuoted q o rest).rest <:+ rest := by
  unfold lexQuoted
  split
  next c r hd => exact dropWhile_suffix _ _ _ _ hd
  next => exact List.nil_suffix

theorem lexDoubled_suffix (ch : Char) (type : PipeStyle) (rest : Text) :
    (lexDoubled ch type rest).rest <:+ rest := by
  unfold lexDoubled
  split
  · split_ifs
    · exact List.suffix_cons _ _
    · exact List.suffix_rfl
  · exact List.suffix_rfl

theorem lexSpecial_suffix (o : OString) (ch : Char) (rest : Text) :
    (lexSpecial o ch rest).rest <:+ rest := by
  unfold lexSpecial
  split_ifs
  · split
    next => exact List.nil_suffix
    next => exact List.dropWhile_suffix _
  · exact List.suffix_rfl
  · split
    · exact List.nil_suffix
    · exact List.suffix_cons _ _
  · exact lexDollar_suffix o rest
  · exact lexQuoted_suffix _ o rest
  · exact List.suffix_rfl
  · exact List.suffix_rfl
  · exact lexDoubled_suffix _ _ rest
  · exact lexDoubled_suffix _ _ rest
  · exact lexQuoted_suffix _ o rest
  · exact List.suffix_rfl

theorem lexStep_suffix (map : Char → ℕ) (o : OString) (ch : Char) (rest : Text) :
    (lexStep map o ch rest).rest <:+ rest := by
  unfold lexStep
  split_ifs
  · exact List.suffix_rfl
  · exact List.suffix_rfl
  · exact lexSpecial_suffix o ch rest

theorem lexDollar_inside (o : OString) (rest : Text) : lexDollar o rest ≠ .behind := by
  unfold lexDollar
  split
  · simp
  · split <;> simp
  · split_ifs <;> simp
  · simp

theorem lexQuoted_inside (q : Char) (o : OString) (rest : Text) : lexQuoted q o rest ≠ .behind := by
  unfold lexQuoted
  split <;> simp

theorem lexDoubled_inside (ch : Char) (type : PipeStyle) (rest : Text) :
    lexDoubled ch type rest ≠ .behind := by
  unfold lexDoubled
  split
  · split_ifs <;> simp
  · simp

/-- Only a comment and a backslash ask for a character behind them. -/
theorem lexSpecial_inside (o : OString) (ch : Char) (rest : Text) (h : '\n' ∈ rest) :
    lexSpecial o ch rest ≠ .behind := by
  have hdrop : rest.dropWhile (· ≠ '\n') ≠ [] := by
    rw [Ne, List.dropWhile_eq_nil_iff]
    intro hall
    exact absurd (hall _ h) (by simp)
  unfold lexSpecial
  split_ifs
  · split
    next hd => exact absurd hd hdrop
    next => simp
  · simp
  · cases rest with
    | nil => simp at h
    | cons c rest => simp
  · exact lexDollar_inside o rest
  · exact lexQuoted_inside _ o rest
  · simp
  · simp
  · exact lexDoubled_inside _ _ rest
  · exact lexDoubled_inside _ _ rest
  · exact lexQuoted_inside _ o rest
  · simp

/-- The code does not read behind a text whose last character is a newline. -/
theorem lexStep_inside (map : Char → ℕ) (o : OString) (ch : Char) (rest : Text)
    (h : (ch::rest).getLast? = some '\n') (hmap : map '\n' = 0 ∨ map '\n' = 2) :
    lexStep map o ch rest ≠ .behind := by
  unfold lexStep
  split_ifs with h0 h2
  · simp
  · simp
  · apply lexSpecial_inside
    cases rest with
    | nil =>
      have hch : ch = '\n' := by simpa using h
      rw [hch] at h0 h2
      rcases hmap with hm | hm
      · exact absurd (Or.inl hm) h0
      · exact absurd hm h2
    | cons c rest =>
      rw [List.getLast?_cons_cons] at h
      exact List.mem_of_getLast? h

end UBoot.Hush
