import UBoot.HushLines

/-!
# What `done_word` makes of a collected word

A word is collected from parts: characters of the line with the backslashes that
`parse_stream` adds, marked variables, texts inside single quotes and substituted
texts. All of them leave through the two loops of `done_word`, which take every
backslash for one that `parse_stream` has added. `calls` runs the parser and
keeps beside it the parts of the word, for each call of `done_word`.
-/

set_option autoImplicit false

namespace UBoot.Hush

/-! ## The loops of `done_word` -/

/-- The loop that counts; `none` when it goes on behind the terminator. -/
@[grind]
def countLoop : ℕ → Text → Option ℕ
  | cnt, [] => some cnt
  | _, '\\'::[] => none
  | cnt, '\\'::_::cs => countLoop (cnt+1) cs
  | cnt, _::cs => countLoop (cnt+1) cs

/-- The loop that copies; `none` when it goes on behind the terminator. -/
@[grind]
def copyLoop : Text → Option Text
  | [] => some []
  | '\\'::[] => none
  | '\\'::c::cs => (copyLoop cs).map (c::·)
  | c::cs => (copyLoop cs).map (c::·)

/-- A character of a word, with or without a backslash in front. -/
structure Letter where
  escaped : Bool
  ch : Char

def Letter.Proper (u : Letter) : Prop := u.escaped = false → u.ch ≠ '\\'

def Letter.written (u : Letter) : Text := if u.escaped then ['\\', u.ch] else [u.ch]

/-! ## Backslashes -/

/-- Whether the next character is the one behind an escaping backslash. -/
@[grind]
def escaping : Bool → Text → Bool
  | b, [] => b
  | b, c::cs => escaping (c = '\\' && !b) cs

/-- The characters of a text that the copy keeps. -/
@[grind]
def taken : Bool → Text → Text
  | _, [] => []
  | b, c::cs => if c = '\\' ∧ b = false then taken true cs else c::taken false cs

/-- The number of backslashes at the end is odd. -/
def endsOdd (t : Text) : Bool := (t.reverse.takeWhile (· = '\\')).length % 2 = 1

theorem escaping_append (b : Bool) (x y : Text) :
    escaping b (x ++ y) = escaping (escaping b x) y := by
  induction x generalizing b with
  | nil => rfl
  | cons c cs ih => exact ih _

theorem taken_append (b : Bool) (x y : Text) :
    taken b (x ++ y) = taken b x ++ taken (escaping b x) y := by
  induction x generalizing b with
  | nil => rfl
  | cons c cs ih =>
    rw [List.cons_append, taken, taken, escaping]
    by_cases h : c = '\\' ∧ b = false
    · rw [if_pos h, if_pos h, ih, h.1, h.2]
      rfl
    · have hesc : (decide (c = '\\') && !b) = false := by
        rw [Bool.and_eq_false_iff, decide_eq_false_iff_not, Bool.not_eq_false']
        by_cases hc : c = '\\'
        · exact .inr (Bool.not_eq_false _ ▸ fun hb => h ⟨hc, hb⟩)
        · exact .inl hc
      rw [if_neg h, if_neg h, ih, hesc]
      rfl

theorem escaping_endsOdd (t : Text) : escaping false t = endsOdd t := by
  induction t using List.reverseRecOn with
  | nil => rfl
  | append_singleton t c ih =>
    rw [escaping_append, ih, endsOdd, endsOdd, List.reverse_append, List.reverse_singleton,
      List.singleton_append, List.takeWhile_cons]
    by_cases hc : c = '\\'
    · rw [Bool.eq_iff_iff]
      simp [escaping, hc]
      omega
    · simp [escaping, hc]

theorem taken_length (b : Bool) (s : Text) : (taken b s).length ≤ s.length := by
  induction s generalizing b with
  | nil => exact Nat.le_refl 0
  | cons c cs ih =>
    rw [taken]
    split_ifs
    · exact Nat.le_succ_of_le (ih true)
    · exact Nat.succ_le_succ (ih false)

theorem taken_same_false (s : Text) : taken false s = s ↔ '\\' ∉ s := by
  induction s with
  | nil => simp [taken]
  | cons c cs ih =>
    rw [taken]
    by_cases hc : c = '\\'
    · rw [if_pos ⟨hc, rfl⟩]
      constructor
      · intro h
        have hlen := taken_length true cs
        rw [h, List.length_cons] at hlen
        exact absurd hlen (Nat.not_succ_le_self _)
      · intro h
        exact absurd (List.mem_cons.mpr (.inl hc.symm)) h
    · rw [if_neg fun h => hc h.1, List.cons.injEq, ih, List.mem_cons, not_or]
      exact ⟨fun h => ⟨Ne.symm hc, h.2⟩, fun h => ⟨rfl, h.2⟩⟩

/-- A text is kept as it is when it has no backslash but perhaps an escaped one
at its start. -/
theorem taken_same (b : Bool) (s : Text) : taken b s = s ↔ '\\' ∉ if b then s.tail else s := by
  cases b with
  | false => exact taken_same_false s
  | true =>
    cases s with
    | nil => simp [taken]
    | cons c cs =>
      rw [taken, if_neg fun h => Bool.noConfusion h.2, List.cons.injEq, taken_same_false]
      exact ⟨fun h => h.2, fun h => ⟨rfl, h⟩⟩

/-- The last arm of the loops. -/
theorem not_backslash (c : Char) (cs : Text) (h1 : c = '\\' → cs = [] → False)
    (h2 : ∀ d ds, c = '\\' → cs = d::ds → False) : c ≠ '\\' := by
  intro hc
  cases cs with
  | nil => exact h1 hc rfl
  | cons d ds => exact h2 d ds hc rfl

theorem copyLoop_eq (t : Text) :
    copyLoop t = if escaping false t then none else some (taken false t) := by
  induction t using copyLoop.induct with
  | case1 => rfl
  | case2 => rfl
  | case3 c cs ih =>
    have hesc : escaping false ('\\'::c::cs) = escaping false cs := by simp [escaping]
    have htaken : taken false ('\\'::c::cs) = c::taken false cs := by simp [taken]
    rw [copyLoop, ih, hesc, htaken]
    split_ifs <;> rfl
  | case4 c cs h1 h2 ih =>
    have hc := not_backslash c cs h1 h2
    have hesc : escaping false (c::cs) = escaping false cs := by simp [escaping, hc]
    have htaken : taken false (c::cs) = c::taken false cs := by simp [taken, hc]
    rw [copyLoop.eq_4 c cs h1 h2, ih, hesc, htaken]
    split_ifs <;> rfl

theorem countLoop_eq (t : Text) (n : ℕ) :
    countLoop n t = (copyLoop t).map fun a => n+a.length := by
  induction n, t using countLoop.induct with
  | case1 n => rfl
  | case2 n => rfl
  | case3 n c cs ih =>
    rw [countLoop, copyLoop, ih, Option.map_map]
    congr 1
    funext a
    simp only [Function.comp_apply, List.length_cons]
    omega
  | case4 n c cs h1 h2 ih =>
    rw [countLoop.eq_4 n c cs h1 h2, copyLoop.eq_4 c cs h1 h2, ih, Option.map_map]
    congr 1
    funext a
    simp only [Function.comp_apply, List.length_cons]
    omega

/-- A word that the loops copy is one of escaped and other characters. -/
theorem copied_letters (t a : Text) (h : copyLoop t = some a) :
    ∃ us : List Letter, (∀ u ∈ us, u.Proper) ∧ t = us.flatMap Letter.written ∧
      a = us.map Letter.ch := by
  induction t using copyLoop.induct generalizing a with
  | case1 => exact ⟨[], by simp, rfl, (Option.some.inj h).symm⟩
  | case2 => cases h
  | case3 c cs ih =>
    rw [copyLoop] at h
    obtain ⟨a', ha, rfl⟩ := Option.map_eq_some_iff.mp h
    obtain ⟨us, hus, rfl, rfl⟩ := ih a' ha
    refine ⟨⟨true, c⟩::us, ?_, rfl, rfl⟩
    intro u hu
    rcases List.mem_cons.mp hu with rfl | hu
    · exact fun h => Bool.noConfusion h
    · exact hus u hu
  | case4 c cs h1 h2 ih =>
    have hc := not_backslash c cs h1 h2
    rw [copyLoop.eq_4 c cs h1 h2] at h
    obtain ⟨a', ha, rfl⟩ := Option.map_eq_some_iff.mp h
    obtain ⟨us, hus, rfl, rfl⟩ := ih a' ha
    refine ⟨⟨false, c⟩::us, ?_, rfl, rfl⟩
    intro u hu
    rcases List.mem_cons.mp hu with rfl | hu
    · exact fun _ => hc
    · exact hus u hu

/-! ## The parts of a word -/

inductive Part
  | plain (t : Text)
  | var (t : Text)
  | single (t : Text)
  | subst (t : Text)
  deriving DecidableEq

def Part.text : Part → Text
  | .plain t => t
  | .var t => t
  | .single t => t
  | .subst t => t

def wordText (parts : List Part) : Text := parts.flatMap Part.text

/-- What `b_addqchr` adds. -/
def addqText (quote : Bool) (ch : Char) : Text :=
  if quote ∧ ch ∈ ['*', '?', '[', '\\'] then ['\\', ch] else [ch]

def marked (name : Text) : Text := specialVarSymbol::name ++ [specialVarSymbol]

def dollarParts (o : OString) (rest : Text) : List Part :=
  match rest with
  | '?'::_ => [.var (marked ['$', '?'])]
  | '{'::rest => [.var (marked (rest.takeWhile (· ≠ '}')))]
  | c::cs =>
    if isalpha c then [.var (marked ((c::cs).takeWhile nameChar))]
    else [.plain (addqText o.quote '$')]
  | [] => [.plain (addqText o.quote '$')]

/-- What a round of `parse_stream` that collects adds to the word. -/
def lexParts (map : Char → ℕ) (o : OString) (ch : Char) (rest : Text) : List Part :=
  if map ch = 0 ∨ (map ch = 1 ∨ map ch = 2) ∧ o.quote then [.plain (addqText o.quote ch)]
  else if ch = '#' then
    if o.data = [] ∧ o.quote = false then [] else [.plain (addqText o.quote ch)]
  else if ch = '\\' then
    match rest with
    | [] => []
    | c::_ => [.plain (addqText o.quote '\\' ++ addqText o.quote c)]
  else if ch = '$' then dollarParts o rest
  else if ch = '\'' then [.single (rest.takeWhile (· ≠ '\''))]
  else if ch = substedVarSymbol then [.subst (rest.takeWhile (· ≠ substedVarSymbol))]
  else []

theorem addq_data (o : OString) (ch : Char) : (o.addq ch).data = o.data ++ addqText o.quote ch := by
  unfold OString.addq addqText OString.add
  split_ifs
  · simp
  · rfl

theorem addq_quote (o : OString) (ch : Char) : (o.addq ch).quote = o.quote := by
  unfold OString.addq OString.add
  split_ifs <;> rfl

theorem lexDollar_parts (o dest : OString) (rest rest' : Text) (vars : ℕ)
    (h : lexDollar o rest = .chars dest vars rest') :
    dest.data = o.data ++ wordText (dollarParts o rest) := by
  unfold lexDollar at h
  split at h
  next =>
    obtain ⟨rfl, -, -⟩ := Lexed.chars.inj h
    rfl
  next r =>
    split at h
    · obtain ⟨rfl, -, -⟩ := Lexed.chars.inj h
      simp [dollarParts, wordText, Part.text, marked, OString.addVar, OString.addText]
    · cases h
  next c cs h1 h2 =>
    rw [dollarParts.eq_3 o c cs h1 h2]
    split_ifs at h ⊢ with hc
    · obtain ⟨rfl, -, -⟩ := Lexed.chars.inj h
      simp [wordText, Part.text, marked, OString.addVar, OString.addText]
    · obtain ⟨rfl, -, -⟩ := Lexed.chars.inj h
      simp [wordText, Part.text, addq_data]
  next =>
    obtain ⟨rfl, -, -⟩ := Lexed.chars.inj h
    simp [dollarParts, wordText, Part.text, addq_data]

theorem lexQuoted_parts (q : Char) (o dest : OString) (rest rest' : Text) (vars : ℕ)
    (h : lexQuoted q o rest = .chars dest vars rest') :
    dest.data = o.data ++ rest.takeWhile (· ≠ q) := by
  unfold lexQuoted at h
  split at h
  · obtain ⟨rfl, -, -⟩ := Lexed.chars.inj h
    rfl
  · cases h

theorem lexDoubled_ends (ch : Char) (type : PipeStyle) (dest : OString) (rest rest' : Text)
    (vars : ℕ) : lexDoubled ch type rest ≠ .chars dest vars rest' := by
  intro h
  unfold lexDoubled at h
  split at h
  · split_ifs at h
  · cases h

/-- What a round of `parse_stream` makes of a character that is not plain, where it collects. -/
inductive Collects (o : OString) : Char → Text → OString → Text → Prop
  | comment {rest : Text} (c : Char) (cs : Text) (hempty : o.data = [] ∧ o.quote = false)
      (hd : rest.dropWhile (· ≠ '\n') = c::cs) : Collects o '#' rest o (c::cs)
  | hash {rest : Text} (hempty : ¬ (o.data = [] ∧ o.quote = false)) :
      Collects o '#' rest (o.addq '#') rest
  | escape (c : Char) (cs : Text) : Collects o '\\' (c::cs) ((o.addq '\\').addq c) cs
  | dollar {rest rest' : Text} {dest : OString} {vars : ℕ}
      (hd : lexDollar o rest = .chars dest vars rest') : Collects o '$' rest dest rest'
  | single {rest rest' : Text} {dest : OString} {vars : ℕ}
      (hq : lexQuoted '\'' o rest = .chars dest vars rest') : Collects o '\'' rest dest rest'
  | double {rest : Text} :
      Collects o '"' rest { o with nonnull := true, quote := !o.quote } rest
  | subst {rest rest' : Text} {dest : OString} {vars : ℕ}
      (hq : lexQuoted substedVarSymbol o rest = .chars dest vars rest') :
      Collects o substedVarSymbol rest dest rest'

theorem lexSpecial_chars (o dest : OString) (ch : Char) (rest rest' : Text) (vars : ℕ)
    (h : lexSpecial o ch rest = .chars dest vars rest') : Collects o ch rest dest rest' := by
  unfold lexSpecial at h
  split_ifs at h with h1 h2 h3 h4 h5 h6 h7 h8 h9 h10
  · cases hd : rest.dropWhile (· ≠ '\n') with
    | nil =>
      rw [hd] at h
      cases h
    | cons c cs =>
      rw [hd] at h
      obtain ⟨rfl, -, rfl⟩ := Lexed.chars.inj h
      exact h1 ▸ .comment c cs h2 hd
  · obtain ⟨rfl, -, rfl⟩ := Lexed.chars.inj h
    subst h1
    exact .hash h2
  · cases rest with
    | nil => cases h
    | cons c cs =>
      obtain ⟨rfl, -, rfl⟩ := Lexed.chars.inj h
      subst h3
      exact .escape c cs
  · exact h4 ▸ .dollar h
  · exact h5 ▸ .single h
  · obtain ⟨rfl, -, rfl⟩ := Lexed.chars.inj h
    exact h6 ▸ .double
  · exact absurd h (lexDoubled_ends '&' .pipeAnd dest rest rest' vars)
  · exact absurd h (lexDoubled_ends '|' .pipeOr dest rest rest' vars)
  · exact h10 ▸ .subst h

/-- A round that collects takes a plain character or a special one. -/
theorem lexStep_chars (map : Char → ℕ) (o dest : OString) (ch : Char) (rest rest' : Text)
    (vars : ℕ) (h : lexStep map o ch rest = .chars dest vars rest') :
    ((map ch = 0 ∨ (map ch = 1 ∨ map ch = 2) ∧ o.quote) ∧ dest = o.addq ch ∧ rest' = rest) ∨
      (¬ (map ch = 0 ∨ (map ch = 1 ∨ map ch = 2) ∧ o.quote) ∧ map ch ≠ 2 ∧
        Collects o ch rest dest rest') := by
  unfold lexStep at h
  by_cases hplain : map ch = 0 ∨ (map ch = 1 ∨ map ch = 2) ∧ o.quote
  · rw [if_pos hplain] at h
    obtain ⟨rfl, -, rfl⟩ := Lexed.chars.inj h
    exact .inl ⟨hplain, rfl, rfl⟩
  rw [if_neg hplain] at h
  by_cases hblank : map ch = 2
  · rw [if_pos hblank] at h
    cases h
  rw [if_neg hblank] at h
  exact .inr ⟨hplain, hblank, lexSpecial_chars o dest ch rest rest' vars h⟩

/-- The parts of a round are what it adds to the word. -/
theorem lexStep_parts (map : Char → ℕ) (o dest : OString) (ch : Char) (rest rest' : Text) (vars : ℕ)
    (h : lexStep map o ch rest = .chars dest vars rest') :
    dest.data = o.data ++ wordText (lexParts map o ch rest) := by
  unfold lexParts
  rcases lexStep_chars map o dest ch rest rest' vars h with
    ⟨hplain, rfl, rfl⟩ | ⟨hplain, -, hspecial⟩
  · rw [if_pos hplain]
    simp [wordText, Part.text, addq_data]
  rw [if_neg hplain]
  cases hspecial with
  | comment c cs hempty hd =>
    rw [if_pos rfl, if_pos hempty]
    simp [wordText]
  | hash hempty =>
    rw [if_pos rfl, if_neg hempty]
    simp [wordText, Part.text, addq_data]
  | escape c cs =>
    rw [if_neg (by decide), if_pos rfl]
    simp [wordText, Part.text, addq_data, addq_quote]
  | dollar hd =>
    rw [if_neg (by decide), if_neg (by decide), if_pos rfl]
    exact lexDollar_parts o dest rest rest' _ hd
  | single hq =>
    rw [if_neg (by decide), if_neg (by decide), if_neg (by decide), if_pos rfl]
    rw [lexQuoted_parts '\'' o dest rest rest' _ hq]
    simp [wordText, Part.text]
  | double =>
    rw [if_neg (by decide), if_neg (by decide), if_neg (by decide), if_neg (by decide),
      if_neg (by decide)]
    simp [wordText]
  | subst hq =>
    rw [if_neg (by decide), if_neg (by decide), if_neg (by decide), if_neg (by decide), if_pos rfl]
    rw [lexQuoted_parts substedVarSymbol o dest rest rest' _ hq]
    simp [wordText, Part.text]

/-- A word starts, and goes on behind this part, without an escaping backslash. -/
def Part.Closed : Part → Prop
  | .plain t => escaping false t = false
  | .var t => escaping false t = false
  | .single _ => True
  | .subst _ => True

theorem addqText_closed (quote : Bool) (ch : Char) (h : ch = '\\' → quote = true) :
    escaping false (addqText quote ch) = false := by
  unfold addqText
  split_ifs with hq
  · simp [escaping]
  · have hc : ch ≠ '\\' := fun hc => hq ⟨h hc, by rw [hc]; decide⟩
    simp [escaping, hc]

theorem marked_closed (name : Text) : escaping false (marked name) = false := by
  rw [marked, escaping_append]
  simp [escaping, specialVarSymbol]

theorem dollarParts_closed (o : OString) (rest : Text) (p : Part) (h : p ∈ dollarParts o rest) :
    p.Closed := by
  unfold dollarParts at h
  split at h
  · rw [List.mem_singleton.mp h]
    exact marked_closed _
  · rw [List.mem_singleton.mp h]
    exact marked_closed _
  · split_ifs at h
    · rw [List.mem_singleton.mp h]
      exact marked_closed _
    · rw [List.mem_singleton.mp h]
      exact addqText_closed _ _ fun hd => absurd hd (by decide)
  · rw [List.mem_singleton.mp h]
    exact addqText_closed _ _ fun hd => absurd hd (by decide)

/-- A backslash that is collected outside single quotes and substituted texts
comes with the character it escapes. -/
theorem lexParts_closed (map : Char → ℕ) (o : OString) (ch : Char) (rest : Text)
    (hmap : map '\\' ≠ 0) (p : Part) (h : p ∈ lexParts map o ch rest) : p.Closed := by
  unfold lexParts at h
  split_ifs at h with h0 h1 h2 h3 h4 h5 h6
  · rw [List.mem_singleton.mp h]
    refine addqText_closed _ _ fun hc => ?_
    rw [hc] at h0
    exact (h0.resolve_left hmap).2
  · cases h
  · rw [List.mem_singleton.mp h]
    exact addqText_closed _ _ fun hc => absurd (h1.symm.trans hc) (by decide)
  · cases rest with
    | nil => cases h
    | cons c cs =>
      rw [List.mem_singleton.mp h]
      unfold Part.Closed addqText
      cases hq : o.quote with
      | false => simp [escaping]
      | true =>
        by_cases hc : c ∈ ['*', '?', '[', '\\']
        · simp [escaping, hc]
        · have hne : c ≠ '\\' := fun he => hc (by rw [he]; decide)
          simp [escaping, hc, hne]
  · exact dollarParts_closed o rest p h
  · rw [List.mem_singleton.mp h]
    trivial
  · rw [List.mem_singleton.mp h]
    trivial
  · cases h

/-! ## The calls of `done_word` -/

def Lexed.ends : Lexed → Bool
  | .blank _ => true
  | .sep _ _ => true
  | .lone _ => true
  | _ => false

/-- The parts behind a round: a word that is left behind starts anew. -/
def partsAfter (map : Char → ℕ) (parts : List Part) (p : Parse) (ch : Char) (rest : Text)
    (q : Parse) : List Part :=
  if (lexStep map p.dest ch rest).ends then if q.dest.data = [] then [] else parts
  else parts ++ lexParts map p.dest ch rest

/-- The call of `parse_stream_outer` behind `parse_stream`. -/
def lastCall (parts : List Part) (p : Parse) : List (List Part × Parse) :=
  if p.ctx.oldFlag = [] then [(parts, p)] else []

/-- Each call of `done_word` while a text is parsed, with the parts of the word. The
call that it makes itself behind the name of a `for` finds the word empty. -/
def calls (map : Char → ℕ) (semicolon : Bool) :
    ℕ → List Part → Parse → Text → List (List Part × Parse)
  | _, parts, p, [] => lastCall parts p
  | 0, _, _, _::_ => []
  | n+1, parts, p, ch::rest =>
    (if (lexStep map p.dest ch rest).ends then [(parts, p)] else []) ++
      match parseStep map semicolon p ch rest with
      | .next q rest' => calls map semicolon n (partsAfter map parts p ch rest q) q rest'
      | .stop (.done 0 q _) => lastCall (partsAfter map parts p ch rest q) q
      | .stop _ => []

/-- The parts make up the word. -/
structure Tracks (parts : List Part) (p : Parse) : Prop where
  word : wordText parts = p.dest.data
  closed : ∀ part ∈ parts, part.Closed

theorem wordText_append (xs ys : List Part) : wordText (xs ++ ys) = wordText xs ++ wordText ys :=
  List.flatMap_append

theorem doneWord_data (semicolon : Bool) (p : Parse) :
    (doneWord semicolon p).2.dest.data = [] ∨ (doneWord semicolon p).2.dest.data = p.dest.data := by
  rcases doneWord_dest semicolon p with h | h
  · exact .inr (congrArg OString.data h)
  · exact .inl (congrArg OString.data h)

section Calls
variable {map : Char → ℕ} {semicolon : Bool}

/-- A word that ends is reset or kept. -/
theorem tracks_ended (parts : List Part) (p q : Parse) (h : Tracks parts p)
    (hq : q.dest.data = [] ∨ q.dest.data = p.dest.data) :
    Tracks (if q.dest.data = [] then [] else parts) q := by
  by_cases hnil : q.dest.data = []
  · rw [if_pos hnil]
    exact ⟨hnil.symm, by simp⟩
  · rw [if_neg hnil]
    exact ⟨h.word.trans (hq.resolve_left hnil).symm, h.closed⟩

theorem parseBlank_dest (p : Parse) (ch : Char) (rest : Text) (q : Parse) (rest' : Text)
    (h : parseBlank semicolon p ch rest = .next q rest' ∨
      parseBlank semicolon p ch rest = .stop (.done 0 q rest')) :
    q.dest = (doneWord semicolon p).2.dest := by
  unfold parseBlank at h
  cases hd : doneWord semicolon p with
  | mk r p' =>
    rw [hd] at h
    cases r with
    | true => simp at h
    | false =>
      dsimp only at h ⊢
      split_ifs at h with hn ht ht
      · rcases h with h | h
        · cases h
        · cases h
          rfl
      · rcases h with h | h
        · cases h
          rfl
        · cases h
      · rcases h with h | h
        · cases h
        · cases h
          rfl
      · rcases h with h | h
        · cases h
          rfl
        · cases h

/-- A round keeps the parts in step with the word. -/
theorem tracks_step (hnl : map '\n' = 0 ∨ map '\n' = 2) (hback : map '\\' ≠ 0)
    (parts : List Part) (p q : Parse) (ch : Char) (rest rest' : Text) (h : Tracks parts p)
    (hq : parseStep map semicolon p ch rest = .next q rest' ∨
      parseStep map semicolon p ch rest = .stop (.done 0 q rest')) :
    Tracks (partsAfter map parts p ch rest q) q := by
  rw [parseStep_lex p ch rest hnl] at hq
  unfold partsAfter
  cases hl : lexStep map p.dest ch rest with
  | chars dest vars r =>
    rw [hl] at hq
    rcases hq with hq | hq
    · cases hq
      rw [if_neg (by simp [Lexed.ends])]
      constructor
      · rw [wordText_append, h.word]
        exact (lexStep_parts map p.dest dest ch rest rest' vars hl).symm
      · intro part hpart
        rcases List.mem_append.mp hpart with hpart | hpart
        · exact h.closed part hpart
        · exact lexParts_closed map p.dest ch rest hback part hpart
    · cases hq
  | blank r =>
    rw [hl] at hq
    rw [if_pos (show (Lexed.blank r).ends = true from rfl)]
    refine tracks_ended parts p q h ?_
    rw [parseBlank_dest p ch r q rest' hq]
    exact doneWord_data semicolon p
  | sep type r =>
    rw [hl] at hq
    rw [if_pos (show (Lexed.sep type r).ends = true from rfl)]
    refine tracks_ended parts p q h ?_
    rcases hq with hq | hq
    · cases hq
      exact doneWord_data semicolon p
    · cases hq
  | lone r =>
    rw [hl] at hq
    rcases hq with hq | hq <;> cases hq
  | bad dest vars r =>
    rw [hl] at hq
    rcases hq with hq | hq <;> cases hq
  | behind =>
    rw [hl] at hq
    rcases hq with hq | hq <;> cases hq

/-- At each call of `done_word` the word is that of its parts. -/
theorem calls_tracked (hnl : map '\n' = 0 ∨ map '\n' = 2) (hback : map '\\' ≠ 0) (n : ℕ)
    (parts : List Part) (p : Parse) (text : Text) (h : Tracks parts p)
    (c : List Part × Parse) (hc : c ∈ calls map semicolon n parts p text) : Tracks c.1 c.2 := by
  have hlast : ∀ parts p, Tracks parts p → c ∈ lastCall parts p → Tracks c.1 c.2 := by
    intro parts p h hc
    unfold lastCall at hc
    split_ifs at hc
    · rw [List.mem_singleton.mp hc]
      exact h
    · cases hc
  induction n generalizing parts p text with
  | zero =>
    cases text with
    | nil => exact hlast parts p h hc
    | cons ch rest => cases hc
  | succ n ih =>
    cases text with
    | nil => exact hlast parts p h hc
    | cons ch rest =>
      rw [calls] at hc
      rcases List.mem_append.mp hc with hc | hc
      · split_ifs at hc
        · rw [List.mem_singleton.mp hc]
          exact h
        · cases hc
      · split at hc
        next q rest' hstep =>
          exact ih _ q rest' (tracks_step hnl hback parts p q ch rest rest' h (.inl hstep)) hc
        next q rest' hstep =>
          exact hlast _ q (tracks_step hnl hback parts p q ch rest rest' h (.inr hstep)) hc
        next => cases hc

end Calls

theorem charMap_backslash (ifs : Text) (plain : Bool) : charMap ifs plain '\\' ≠ 0 := by
  by_cases h : '\\' ∈ ifs <;> simp [charMap, h]

/-! ## What is delivered -/

/-- The loops stay in the word and the room they count, what they copy is the
word without one level of backslashes, and each text inside single quotes is
copied as it is. -/
structure Delivered (parts : List Part) (word : Text) : Prop where
  level : ∃ us : List Letter, (∀ u ∈ us, u.Proper) ∧ word = us.flatMap Letter.written ∧
    countLoop 1 word = some (1+us.length) ∧ copyLoop word = some (us.map Letter.ch)
  literal : ∀ pre s post, parts = pre ++ .single s::post →
    taken (escaping false (wordText pre)) s = s

/-- No text inside single quotes has a backslash, other than as the first
character behind an odd number of them, and a word with a substituted text ends
in an even number of backslashes. -/
structure FewBackslashes (parts : List Part) (word : Text) : Prop where
  single : ∀ pre s post, parts = pre ++ .single s::post →
    '\\' ∉ if endsOdd (wordText pre) then s.tail else s
  subst : (∃ s, .subst s ∈ parts) → endsOdd word = false

/-- Only substituted texts leave an escaping backslash at the end. -/
theorem closed_word (parts : List Part) (hclosed : ∀ part ∈ parts, part.Closed)
    (hsubst : ∀ s, .subst s ∉ parts)
    (hsingle : ∀ pre s post, parts = pre ++ .single s::post →
      '\\' ∉ if endsOdd (wordText pre) then s.tail else s) :
    escaping false (wordText parts) = false := by
  induction parts using List.reverseRecOn with
  | nil => rfl
  | append_singleton pre part ih =>
    have hpre := ih (fun q hq => hclosed q (List.mem_append_left _ hq))
      (fun s hs => hsubst s (List.mem_append_left _ hs))
      (fun pre' s post hp => hsingle pre' s (post ++ [part]) (by rw [hp]; simp))
    have hlast : part ∈ pre ++ [part] := List.mem_append_right _ List.mem_cons_self
    rw [wordText_append, escaping_append, hpre]
    cases part with
    | plain t =>
      have ht : escaping false t = false := hclosed _ hlast
      simpa [wordText, Part.text] using ht
    | var t =>
      have ht : escaping false t = false := hclosed _ hlast
      simpa [wordText, Part.text] using ht
    | subst s => exact absurd hlast (hsubst s)
    | single s =>
      have hs := hsingle pre s [] rfl
      rw [← escaping_endsOdd, hpre] at hs
      have hmem : '\\' ∉ s := hs
      have hnone : endsOdd s = false := by
        unfold endsOdd
        rw [List.takeWhile_eq_nil_iff.mpr]
        · rfl
        · intro hlen
          simp only [decide_eq_true_eq]
          intro he
          exact hmem (by rw [← he]; exact List.mem_reverse.mp (List.getElem_mem _))
      simpa [wordText, Part.text, escaping_endsOdd] using hnone

/-- Each word is delivered as it should be exactly if its single quotes hold no
backslash and no substituted text leaves an odd one at its end. -/
theorem word_delivered_iff (ifs : Text) (plain semicolon quote : Bool) (text : Text)
    (c : List Part × Parse)
    (hc : c ∈ calls (charMap ifs plain) semicolon text.length [] (startParse quote) text) :
    Delivered c.1 c.2.dest.data ↔ FewBackslashes c.1 c.2.dest.data := by
  have ht : Tracks c.1 c.2 :=
    calls_tracked (charMap_newline ifs plain) (charMap_backslash ifs plain) text.length []
      (startParse quote) text ⟨rfl, by simp⟩ c hc
  constructor
  · intro h
    obtain ⟨us, -, -, -, hcopy⟩ := h.level
    have hesc : escaping false c.2.dest.data = false := by
      by_contra hne
      rw [copyLoop_eq, if_pos (by simpa using hne)] at hcopy
      cases hcopy
    refine ⟨fun pre s post hp => ?_, fun _ => escaping_endsOdd _ ▸ hesc⟩
    rw [← escaping_endsOdd]
    exact (taken_same _ s).mp (h.literal pre s post hp)
  · intro h
    have hesc : escaping false c.2.dest.data = false := by
      by_cases hsubst : ∃ s, .subst s ∈ c.1
      · rw [escaping_endsOdd]
        exact h.subst hsubst
      · rw [← ht.word]
        exact closed_word c.1 ht.closed (fun s hs => hsubst ⟨s, hs⟩) h.single
    have hcopy : copyLoop c.2.dest.data = some (taken false c.2.dest.data) := by
      rw [copyLoop_eq, hesc]
      rfl
    obtain ⟨us, hus, hword, htaken⟩ := copied_letters _ _ hcopy
    refine ⟨⟨us, hus, hword, ?_, by rw [hcopy, htaken]⟩, fun pre s post hp => ?_⟩
    · rw [countLoop_eq, hcopy, Option.map_some, htaken, List.length_map]
    · rw [taken_same, escaping_endsOdd]
      exact h.single pre s post hp

/-- The text `'a\'` and a newline. -/
def quotedBackslash : Text := ['\'', 'a', '\\', '\'', '\n']

def defaultIfs : Text := [' ', '\t', '\n']

theorem quotedBackslash_called :
    ([Part.single ['a', '\\']], ⟨⟨['a', '\\'], true, false⟩, initializeContext, []⟩) ∈
      calls (charMap defaultIfs false) true quotedBackslash.length [] (startParse false)
        quotedBackslash :=
  List.mem_cons_self

theorem word_delivered_quoted :
    Delivered [Part.single ['a', '\\']] ['a', '\\'] ↔
      FewBackslashes [Part.single ['a', '\\']] ['a', '\\'] :=
  word_delivered_iff defaultIfs false true false quotedBackslash _ quotedBackslash_called

/-- The loops of `done_word` leave the word `a\` that stood in single quotes. -/
theorem quoted_backslash_overruns : ¬ ∀ (ifs : Text) (plain semicolon quote : Bool) (text : Text)
    (c : List Part × Parse),
    c ∈ calls (charMap ifs plain) semicolon text.length [] (startParse quote) text →
    Delivered c.1 c.2.dest.data := by
  intro h
  obtain ⟨us, -, -, -, hcopy⟩ :=
    (h defaultIfs false true false quotedBackslash _ quotedBackslash_called).level
  cases hcopy

end UBoot.Hush
