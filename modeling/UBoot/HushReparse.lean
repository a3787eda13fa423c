import UBoot.HushReread

/-!
# Words beside a variable: `make_string` and the second parse

When a word of a command marks a variable, `run_pipe_real` joins all words with
blanks, the values put in, and parses the text again. `Unaffected` says that
each word without a variable comes out of it as it went in, made of its own
characters; `Harmless` says when.
-/

set_option autoImplicit false

namespace UBoot.Hush

variable {σ : Type} (m : Machine σ)

/-! ## The text -/

/-- The flags of `run_pipe_real` for the second parse. -/
def reparseFlag : OuterFlag := ⟨true, false, true⟩

/-- What `parse_stream` reads. -/
def secondText (words : List Text) (s : Shell σ) : Text := withNewline (makeString m words s).1

def secondMap (words : List Text) (s : Shell σ) : Char → ℕ :=
  (makeString m words s).2.charMap m reparseFlag

def secondIfs (words : List Text) (s : Shell σ) : Text :=
  (m.getenv (makeString m words s).2.world "IFS".toList).getD [' ', '\t', '\n']

def noEval (s : Shell σ) : Bool :=
  match getLocalVar s "HUSH_NO_EVAL".toList with
  | some (c::_) => c ≠ '0'
  | _ => false

/-- The texts of some words, one after the other. -/
def wordTexts (tag : Bool) : List Text → Shell σ → List Text × Shell σ
  | [], s => ([], s)
  | word::words, s =>
    let value := insertVarValueSub m word tag s
    let tail := wordTexts tag words value.2
    (value.1::tail.1, tail.2)

/-- What stands in front of a word. -/
def frontText (pre : List Text) (s : Shell σ) : Text :=
  (wordTexts m (noEval s) pre s).1.flatMap (· ++ [' '])

/-- What stands behind a word. -/
def behindText (words pre : List Text) (w : Text) (s : Shell σ) : Text :=
  (secondText m words s).drop ((frontText m pre s).length+w.length)

theorem wordTexts_append (tag : Bool) (xs ys : List Text) (s : Shell σ) :
    (wordTexts m tag (xs ++ ys) s).1 =
      (wordTexts m tag xs s).1 ++ (wordTexts m tag ys (wordTexts m tag xs s).2).1 := by
  induction xs generalizing s with
  | nil => rfl
  | cons x xs ih =>
    simp only [List.cons_append, wordTexts]
    rw [ih]

theorem joinWords_texts (tag : Bool) (word : Text) (words : List Text) (s : Shell σ) :
    (joinWords m tag (word::words) s).1 = (insertVarValueSub m word tag s).1 ++
      (wordTexts m tag words (insertVarValueSub m word tag s).2).1.flatMap (' '::·) := by
  induction words generalizing word s with
  | nil => simp [joinWords, wordTexts]
  | cons next words ih =>
    rw [joinWords]
    · simp only [wordTexts, List.flatMap_cons]
      rw [ih]
      rfl
    · simp

theorem literal_kept (tag : Bool) (w : Text) (s : Shell σ) (hw : specialVarSymbol ∉ w) :
    insertVarValueSub m w tag s = (w, s) := by
  rw [insertVarValueSub, if_neg hw]

theorem blanks_shift (ts : List Text) :
    ts.flatMap (' '::·) ++ [' '] = ' '::ts.flatMap (· ++ [' ']) := by
  induction ts with
  | nil => rfl
  | cons t ts ih =>
    rw [List.flatMap_cons, List.flatMap_cons, List.append_assoc, ih]
    simp

/-- The joined text around a word without a variable. -/
theorem joinWords_split (tag : Bool) (pre : List Text) (w : Text) (post : List Text) (s : Shell σ)
    (hw : specialVarSymbol ∉ w) :
    (joinWords m tag (pre ++ w::post) s).1 =
      (wordTexts m tag pre s).1.flatMap (· ++ [' ']) ++ (w ++
        (wordTexts m tag post (wordTexts m tag pre s).2).1.flatMap (' '::·)) := by
  cases pre with
  | nil =>
    rw [List.nil_append, joinWords_texts, literal_kept m tag w s hw]
    rfl
  | cons x pre =>
    rw [List.cons_append, joinWords_texts, wordTexts_append]
    simp only [wordTexts, literal_kept m tag w _ hw, List.flatMap_append, List.flatMap_cons,
      List.append_assoc]
    congr 1
    have hshift := blanks_shift (wordTexts m tag pre (insertVarValueSub m x tag s).2).1
    rw [← List.append_assoc, ← List.singleton_append, ← List.append_assoc _ [' '], hshift]
    simp only [List.cons_append, List.append_assoc, List.nil_append]

theorem makeString_text (words : List Text) (s : Shell σ) :
    (makeString m words s).1 = (joinWords m (noEval s) words s).1 ++ ['\n'] := rfl

theorem withNewline_ends (t : Text) : ∃ e, withNewline (t ++ ['\n']) = t ++ '\n'::e := by
  unfold withNewline
  split
  · exact ⟨[], rfl⟩
  · exact ⟨['\n'], by simp⟩

/-- The text around a word without a variable, and what comes behind the word. -/
theorem secondText_split (words pre : List Text) (w : Text) (post : List Text) (s : Shell σ)
    (h : words = pre ++ w::post) (hw : specialVarSymbol ∉ w) :
    secondText m words s = frontText m pre s ++ (w ++ behindText m words pre w s) ∧
    ∃ cs, behindText m words pre w s = (if post = [] then '\n' else ' ')::cs := by
  obtain ⟨e, he⟩ := withNewline_ends (joinWords m (noEval s) words s).1
  have htext : secondText m words s = frontText m pre s ++ (w ++
      ((wordTexts m (noEval s) post (wordTexts m (noEval s) pre s).2).1.flatMap (' '::·) ++
        '\n'::e)) := by
    rw [secondText, makeString_text, he, h, joinWords_split m _ pre w post s hw, frontText]
    simp only [List.append_assoc]
  have hback : behindText m words pre w s =
      (wordTexts m (noEval s) post (wordTexts m (noEval s) pre s).2).1.flatMap (' '::·) ++
        '\n'::e := by
    rw [behindText, htext, ← List.append_assoc, List.drop_left' (by simp)]
  rw [hback]
  refine ⟨htext, ?_⟩
  cases post with
  | nil => exact ⟨e, rfl⟩
  | cons v post =>
    rw [if_neg (by simp)]
    exact ⟨_, rfl⟩

/-! ## One word of the second parse -/

/-- The parse comes to the first character of the word with nothing collected and
to its last one without a rest, and what ends the word makes it an argument. -/
def KeptWord (map : Char → ℕ) (text w back : Text) : Prop :=
  ∃ p q c cs, Reads map (startParse false) text p (w ++ back) ∧ p.dest = emptyWord ∧
    Reads map p (w ++ back) q back ∧ back = c::cs ∧ (lexStep map q.dest c cs).ends = true ∧
    (doneWord false q).2.ctx.child.argv = q.ctx.child.argv ++ [w]

theorem charMap_blank (ifs : Text) (plain : Bool) (c : Char) (hc : c = ' ' ∨ c = '\n') :
    charMap ifs plain c = if c ∈ ifs then 2 else 0 := by
  rcases hc with rfl | rfl <;> simp [charMap, substedVarSymbol]

section Word
variable {map : Char → ℕ}

/-- A blank ends a word outside quotes. -/
theorem blank_ends (o : OString) (c : Char) (cs : Text) (hmap : map c = 0 ∨ map c = 2) :
    (lexStep map o c cs).ends = true ↔ map c = 2 ∧ o.quote = false := by
  constructor
  · intro h
    rw [lexStep] at h
    split_ifs at h with h1 h2
    · cases h
    · refine ⟨h2, ?_⟩
      by_contra hq
      exact h1 (.inr ⟨.inr h2, by simpa using hq⟩)
    · rcases hmap with h0 | h2'
      · exact absurd (.inl h0) h1
      · exact absurd h2' h2
  · rintro ⟨h2, hq⟩
    rw [lexStep, if_neg, if_pos h2]
    · rfl
    · rintro (h0 | ⟨-, hq'⟩)
      · rw [h2] at h0
        cases h0
      · exact Bool.noConfusion (hq.symm.trans hq')

/-- The argument that a word makes. -/
theorem doneWord_argv (q : Parse) (w : Text) (h : Simple q) :
    (doneWord false q).2.ctx.child.argv = q.ctx.child.argv ++ [w] ↔
      ¬ (q.dest.data = [] ∧ q.dest.nonnull = false) ∧ unescape q.dest.data = w := by
  unfold doneWord
  split_ifs with h1 h2 h3
  · constructor
    · intro he
      have hlen := congrArg List.length he
      simp at hlen
    · intro hn
      exact absurd h1 hn.1
  · rw [h.group] at h2
    cases h2
  · cases h3.2
  · have hfor : q.ctx.w ≠ .resFor := by
      rw [h.w]
      decide
    unfold Parse.argument
    rw [if_neg hfor]
    constructor
    · intro he
      exact ⟨h1, (List.cons.inj (List.append_cancel_left he)).1⟩
    · rintro ⟨-, rfl⟩
      rfl

/-- A word is kept exactly if the parse comes to it between two words, its
characters flow through and a blank is behind it. -/
theorem keptWord_iff (hnl : map '\n' = 0 ∨ map '\n' = 2) (hback : map '\\' ≠ 0) (text w : Text)
    (c : Char) (cs : Text) (hw : specialVarSymbol ∉ w) (hc : map c = 0 ∨ map c = 2) :
    KeptWord map text w (c::cs) ↔
      Lexes map emptyWord text emptyWord (w ++ c::cs) ∧ (w ≠ [] ∧ Flows map (c::cs) true w) ∧
      map c = 2 := by
  constructor
  · rintro ⟨p, q, c', cs', hp, hempty, hq, he, hends, hargv⟩
    obtain ⟨rfl, rfl⟩ := List.cons.inj he
    obtain ⟨hlp, hsp⟩ := reads_lexes hnl _ _ _ _ (simple_start false) hp
    obtain ⟨hlq, hsq⟩ := reads_lexes hnl _ _ _ _ hsp hq
    rw [hempty] at hlp hlq
    obtain ⟨hnull, hword⟩ := (doneWord_argv q w hsq).mp hargv
    obtain ⟨hne, hf, -⟩ := (word_flows_iff hback w (c::cs) hw q.dest).mp ⟨hlq, hnull, hword⟩
    exact ⟨hlp, ⟨hne, hf⟩, ((blank_ends q.dest c cs hc).mp hends).1⟩
  · rintro ⟨hlp, ⟨hne, hf⟩, h2⟩
    obtain ⟨p, hp, hempty⟩ :=
      lexes_reads hnl _ _ _ _ hlp (startParse false) (simple_start false) rfl
    have hsp := (reads_lexes hnl _ _ _ _ (simple_start false) hp).2
    obtain ⟨hlq, hnull, hword⟩ :=
      (word_flows_iff hback w (c::cs) hw ⟨w, false, false⟩).mpr ⟨hne, hf, rfl⟩
    obtain ⟨q, hq, hdest⟩ := lexes_reads hnl _ _ _ _ hlq p hsp hempty
    have hsq := (reads_lexes hnl _ _ _ _ hsp hq).2
    refine ⟨p, q, c, cs, hp, hempty, hq, rfl, ?_, ?_⟩
    · rw [blank_ends q.dest c cs hc, hdest]
      exact ⟨h2, rfl⟩
    · rw [doneWord_argv q w hsq, hdest]
      exact ⟨hnull, hword⟩

end Word

/-! ## All words -/

/-- The second parse goes through to its run, and every word without a variable
is one of its words. -/
structure Unaffected (words : List Text) (s : Shell σ) : Prop where
  runs : ∃ rc p rest, parseStream (secondMap m words s) false (startParse false)
    (secondText m words s) = .done rc p rest ∧ rc ≠ 1 ∧ p.ctx.oldFlag = []
  kept : ∀ pre w post, words = pre ++ w::post → specialVarSymbol ∉ w →
    KeptWord (secondMap m words s) (secondText m words s) w (behindText m words pre w s)

/-- Each word without a variable is not empty, its characters flow through, the
text in front of it, with the values put in, ends between two words, and the
blank behind it is one of `IFS`; and nothing in the text is an error. -/
structure Harmless (words : List Text) (s : Shell σ) : Prop where
  flows : ∀ pre w post, words = pre ++ w::post → specialVarSymbol ∉ w →
    w ≠ [] ∧ Flows (secondMap m words s) (behindText m words pre w s) true w
  between : ∀ pre w post, words = pre ++ w::post → specialVarSymbol ∉ w →
    Lexes (secondMap m words s) emptyWord (secondText m words s) emptyWord
      (w ++ behindText m words pre w s)
  blanks : ∀ pre w post, words = pre ++ w::post → specialVarSymbol ∉ w →
    (if post = [] then '\n' else ' ') ∈ secondIfs m words s
  readable : Readable (secondMap m words s) emptyWord (secondText m words s)

theorem secondMap_blank (words : List Text) (s : Shell σ) (c : Char) (hc : c = ' ' ∨ c = '\n') :
    secondMap m words s c = if c ∈ secondIfs m words s then 2 else 0 :=
  charMap_blank _ _ c hc

/-- What it takes to keep one word of the second parse. -/
theorem second_kept_iff (words pre : List Text) (w : Text) (post : List Text) (s : Shell σ)
    (h : words = pre ++ w::post) (hw : specialVarSymbol ∉ w) :
    KeptWord (secondMap m words s) (secondText m words s) w (behindText m words pre w s) ↔
      Lexes (secondMap m words s) emptyWord (secondText m words s) emptyWord
        (w ++ behindText m words pre w s) ∧
      (w ≠ [] ∧ Flows (secondMap m words s) (behindText m words pre w s) true w) ∧
      (if post = [] then '\n' else ' ') ∈ secondIfs m words s := by
  obtain ⟨-, cs, hcs⟩ := secondText_split m words pre w post s h hw
  have hblank : (if post = [] then '\n' else ' ') = ' ' ∨
      (if post = [] then '\n' else ' ') = '\n' := by
    split_ifs
    · exact .inr rfl
    · exact .inl rfl
  have hmap := secondMap_blank m words s _ hblank
  have hnl : secondMap m words s '\n' = 0 ∨ secondMap m words s '\n' = 2 := charMap_newline _ _
  have hback : secondMap m words s '\\' ≠ 0 := charMap_backslash _ _
  have hzero : secondMap m words s (if post = [] then '\n' else ' ') = 0 ∨
      secondMap m words s (if post = [] then '\n' else ' ') = 2 := by
    rw [hmap]
    by_cases hm : (if post = [] then '\n' else ' ') ∈ secondIfs m words s
    · exact .inr (if_pos hm)
    · exact .inl (if_neg hm)
  have htwo : secondMap m words s (if post = [] then '\n' else ' ') = 2 ↔
      (if post = [] then '\n' else ' ') ∈ secondIfs m words s := by
    rw [hmap]
    by_cases hm : (if post = [] then '\n' else ' ') ∈ secondIfs m words s
    · rw [if_pos hm]
      exact ⟨fun _ => hm, fun _ => rfl⟩
    · rw [if_neg hm]
      exact ⟨fun h0 => absurd h0 (by decide), fun h2 => absurd h2 hm⟩
  rw [hcs, keptWord_iff hnl hback _ w _ cs hw hzero, htwo]

/-- The words without a variable come out of the second parse as they are exactly
if they and the values in front of them are harmless to it. -/
theorem literals_kept_iff (words : List Text) (s : Shell σ) :
    Unaffected m words s ↔ Harmless m words s := by
  have hruns := parse_runs_iff (secondMap m words s) (charMap_newline _ _)
    (secondText m words s).length (startParse false) (secondText m words s) (Nat.le_refl _)
    (simple_start false)
  constructor
  · intro h
    refine ⟨fun pre w post he hw => ?_, fun pre w post he hw => ?_, fun pre w post he hw => ?_,
      hruns.mp h.runs⟩
    · exact ((second_kept_iff m words pre w post s he hw).mp (h.kept pre w post he hw)).2.1
    · exact ((second_kept_iff m words pre w post s he hw).mp (h.kept pre w post he hw)).1
    · exact ((second_kept_iff m words pre w post s he hw).mp (h.kept pre w post he hw)).2.2
  · intro h
    refine ⟨hruns.mpr h.readable, fun pre w post he hw => ?_⟩
    exact (second_kept_iff m words pre w post s he hw).mpr
      ⟨h.between pre w post he hw, h.flows pre w post he hw, h.blanks pre w post he hw⟩

/-- `echo 'a b' $x` -/
def quotedBlank : List Text :=
  [['e', 'c', 'h', 'o'], ['a', ' ', 'b'], [specialVarSymbol, 'x', specialVarSymbol]]

/-- The second parse makes two words of `'a b'`. -/
theorem quoted_blank_split :
    ¬ ∀ (words : List Text) (s : Shell Unit), Unaffected failing words s := by
  intro h
  have hkept := (h quotedBlank ⟨0, [], false, [], ()⟩).kept [['e', 'c', 'h', 'o']] ['a', ' ', 'b']
    [[specialVarSymbol, 'x', specialVarSymbol]] rfl (by decide)
  have hmap : secondMap failing quotedBlank ⟨0, [], false, [], ()⟩ ' ' = 2 := by
    rw [secondMap_blank failing quotedBlank _ ' ' (.inl rfl)]
    exact if_pos List.mem_cons_self
  obtain ⟨-, ⟨-, -, hblank, -⟩, -⟩ := (second_kept_iff failing quotedBlank _ _ _ _ rfl
    (by decide)).mp hkept
  rcases hblank with h0 | ⟨h2, -⟩
  · rw [hmap] at h0
    cases h0
  · exact h2 hmap

end UBoot.Hush
