import UBoot.HushWords

/-!
# Reading a text a second time

`Lexes` is what a parse does to the word being collected, without the words and
pipes that it has made; in a parse that knows no reserved words the two go
together. A text that is read from an empty word and delivered as it is must flow
through character by character. The proof counts what each round
can still deliver of the characters it takes.
-/

set_option autoImplicit false

namespace UBoot.Hush

/-! ## Rounds of the lexer -/

def emptyWord : OString := ⟨[], false, false⟩

/-- The word and the text behind a round, unless there is an error or the line
ends. -/
def readStep (map : Char → ℕ) (o : OString) (ch : Char) (rest : Text) : Option (OString × Text) :=
  match lexStep map o ch rest with
  | .chars dest _ rest' => some (dest, rest')
  | .blank rest' => if ch = '\n' then none else some (o.reset, rest')
  | .sep _ rest' => some (o.reset, rest')
  | _ => none

inductive Lexes (map : Char → ℕ) : OString → Text → OString → Text → Prop
  | refl (o : OString) (text : Text) : Lexes map o text o text
  | step (o o1 o2 : OString) (ch : Char) (rest rest1 rest2 : Text)
      (hstep : readStep map o ch rest = some (o1, rest1)) (h : Lexes map o1 rest1 o2 rest2) :
      Lexes map o (ch::rest) o2 rest2

inductive Reads (map : Char → ℕ) : Parse → Text → Parse → Text → Prop
  | refl (p : Parse) (text : Text) : Reads map p text p text
  | step (p p1 p2 : Parse) (ch : Char) (rest rest1 rest2 : Text)
      (hstep : parseStep map false p ch rest = .next p1 rest1) (h : Reads map p1 rest1 p2 rest2) :
      Reads map p (ch::rest) p2 rest2

/-- No group and no compound command is open. -/
structure Simple (p : Parse) : Prop where
  group : p.ctx.child.group = []
  w : p.ctx.w = .resNone
  oldFlag : p.ctx.oldFlag = []

theorem simple_start (quote : Bool) : Simple (startParse quote) := ⟨rfl, rfl, rfl⟩

theorem doneWord_simple (p : Parse) (h : Simple p) :
    (doneWord false p).1 = false ∧ (doneWord false p).2.dest = p.dest.reset ∧
    Simple (doneWord false p).2 := by
  unfold doneWord
  split_ifs with h1 h2 h3
  · refine ⟨rfl, ?_, h⟩
    obtain ⟨⟨data, nonnull, quote⟩, ctx, stack⟩ := p
    obtain ⟨rfl, rfl⟩ := h1
    rfl
  · rw [h.group] at h2
    cases h2
  · cases h3.2
  · have hfor : p.ctx.w ≠ .resFor := by
      rw [h.w]
      decide
    unfold Parse.argument
    rw [if_neg hfor]
    exact ⟨rfl, rfl, h.group, h.w, h.oldFlag⟩

theorem donePipe_simple (p : Parse) (type : PipeStyle) (h : Simple p) : Simple (p.donePipe type) :=
  ⟨rfl, h.w, h.oldFlag⟩

section Simulation
variable {map : Char → ℕ}

theorem lexDollar_not_blank (o : OString) (rest rest' : Text) : lexDollar o rest ≠ .blank rest' := by
  intro h
  unfold lexDollar at h
  split at h
  · cases h
  · split at h <;> cases h
  · split_ifs at h
  · cases h

theorem lexQuoted_not_blank (q : Char) (o : OString) (rest rest' : Text) :
    lexQuoted q o rest ≠ .blank rest' := by
  intro h
  unfold lexQuoted at h
  split at h <;> cases h

theorem lexDoubled_not_blank (ch : Char) (type : PipeStyle) (rest rest' : Text) :
    lexDoubled ch type rest ≠ .blank rest' := by
  intro h
  unfold lexDoubled at h
  split at h
  · split_ifs at h
  · cases h

theorem lexSpecial_not_blank (o : OString) (ch : Char) (rest rest' : Text) :
    lexSpecial o ch rest ≠ .blank rest' := by
  intro h
  unfold lexSpecial at h
  split_ifs at h
  · split at h <;> cases h
  · cases rest <;> cases h
  · exact lexDollar_not_blank _ _ _ h
  · exact lexQuoted_not_blank _ _ _ _ h
  · exact lexDoubled_not_blank _ _ _ _ h
  · exact lexDoubled_not_blank _ _ _ _ h
  · exact lexQuoted_not_blank _ _ _ _ h

theorem blank_unquoted (o : OString) (ch : Char) (rest rest' : Text)
    (h : lexStep map o ch rest = .blank rest') : o.quote = false := by
  unfold lexStep at h
  split_ifs at h with h1 h2
  · by_contra hq
    exact h1 (.inr ⟨.inr h2, by simpa using hq⟩)
  · exact absurd h (lexSpecial_not_blank o ch rest rest')

/-- What a round of the parser does to a parse without compound commands. -/
theorem parseStep_simple (hnl : map '\n' = 0 ∨ map '\n' = 2) (p : Parse) (ch : Char) (rest : Text)
    (h : Simple p) :
    (∃ q rest', parseStep map false p ch rest = .next q rest' ∧ Simple q ∧
      readStep map p.dest ch rest = some (q.dest, rest')) ∨
    (readStep map p.dest ch rest = none ∧
      (((∃ r, lexStep map p.dest ch rest = .blank r) ∧
        ∃ q r, parseStep map false p ch rest = .stop (.done 0 q r) ∧ Simple q) ∨
      ((∀ r, lexStep map p.dest ch rest ≠ .blank r) ∧
        (parseStep map false p ch rest = .stop .fault ∨
          ∃ q r, parseStep map false p ch rest = .stop (.done 1 q r))))) := by
  have hd := doneWord_simple p h
  rw [parseStep_lex p ch rest hnl, readStep]
  cases hl : lexStep map p.dest ch rest with
  | chars dest vars r => exact .inl ⟨_, r, rfl, ⟨h.group, h.w, h.oldFlag⟩, rfl⟩
  | sep type r =>
    refine .inl ⟨_, r, rfl, donePipe_simple _ _ hd.2.2, ?_⟩
    dsimp only
    rw [← hd.2.1]
    rfl
  | lone r => exact .inr ⟨rfl, .inr ⟨fun r hr => Lexed.noConfusion hr, .inr ⟨_, r, rfl⟩⟩⟩
  | bad dest vars r => exact .inr ⟨rfl, .inr ⟨fun r hr => Lexed.noConfusion hr, .inr ⟨_, r, rfl⟩⟩⟩
  | behind => exact .inr ⟨rfl, .inr ⟨fun r hr => Lexed.noConfusion hr, .inl rfl⟩⟩
  | blank r =>
    have hquote := blank_unquoted p.dest ch rest r hl
    dsimp only [Parse.apply]
    unfold parseBlank
    cases hdw : doneWord false p with
    | mk b q =>
      rw [hdw] at hd
      obtain ⟨rfl, hdest, hq⟩ := hd
      dsimp only
      by_cases hn : ch = '\n'
      · have htrig : triggered (q.donePipe .pipeSeq) ch := by
          refine ⟨hn, ?_, hq.w⟩
          change q.dest.quote = false
          dsimp only at hdest
          rw [hdest]
          exact hquote
        rw [if_pos hn, if_pos hn, if_pos htrig]
        exact .inr ⟨rfl, .inl ⟨⟨r, rfl⟩, _, _, rfl, donePipe_simple _ _ hq⟩⟩
      · have htrig : ¬ triggered q ch := fun ht => hn ht.1
        rw [if_neg hn, if_neg hn, if_neg htrig]
        refine .inl ⟨q, r, rfl, hq, ?_⟩
        dsimp only at hdest
        rw [hdest]

theorem reads_lexes (hnl : map '\n' = 0 ∨ map '\n' = 2) (p q : Parse) (text rest : Text)
    (h : Simple p) (hr : Reads map p text q rest) :
    Lexes map p.dest text q.dest rest ∧ Simple q := by
  induction hr with
  | refl p text => exact ⟨.refl _ _, h⟩
  | step p p1 p2 ch rest rest1 rest2 hstep _ ih =>
    rcases parseStep_simple hnl p ch rest h with ⟨q, r, hq, hsimple, hread⟩ | ⟨-, hstop⟩
    · rw [hstep] at hq
      cases hq
      exact ⟨.step _ _ _ ch rest rest1 rest2 hread (ih hsimple).1, (ih hsimple).2⟩
    · rw [hstep] at hstop
      rcases hstop with ⟨-, q, r, hq, -⟩ | ⟨-, hq | ⟨q, r, hq⟩⟩ <;> cases hq

theorem lexes_reads (hnl : map '\n' = 0 ∨ map '\n' = 2) (o o' : OString) (text rest : Text)
    (hl : Lexes map o text o' rest) (p : Parse) (h : Simple p) (ho : p.dest = o) :
    ∃ q, Reads map p text q rest ∧ q.dest = o' := by
  induction hl generalizing p with
  | refl o text => exact ⟨p, .refl _ _, ho⟩
  | step o o1 o2 ch rest rest1 rest2 hstep _ ih =>
    rcases parseStep_simple hnl p ch rest h with ⟨q, r, hq, hsimple, hread⟩ | ⟨hread, -⟩
    · rw [ho, hstep] at hread
      obtain ⟨hdest, rfl⟩ := Prod.mk.inj (Option.some.inj hread)
      obtain ⟨q2, hq2, hdest2⟩ := ih q hsimple hdest.symm
      exact ⟨q2, .step _ _ _ ch rest rest1 rest2 hq hq2, hdest2⟩
    · rw [ho, hstep] at hread
      cases hread

end Simulation

/-! ## Texts that can be read to their end -/

def Lexed.fails : Lexed → Bool
  | .lone _ => true
  | .bad _ _ _ => true
  | .behind => true
  | _ => false

/-- No round that is reached is an error or goes on behind the text. -/
def Readable (map : Char → ℕ) (o : OString) (text : Text) : Prop :=
  ∀ o' ch rest, Lexes map o text o' (ch::rest) → (lexStep map o' ch rest).fails = false

theorem readStep_fails (map : Char → ℕ) (o : OString) (ch : Char) (rest : Text)
    (h : (lexStep map o ch rest).fails = true) : readStep map o ch rest = none := by
  unfold readStep
  cases hl : lexStep map o ch rest <;> rw [hl] at h <;> first | rfl | cases h

theorem readable_step (map : Char → ℕ) (o o1 : OString) (ch : Char) (rest rest1 : Text)
    (hstep : readStep map o ch rest = some (o1, rest1)) :
    Readable map o (ch::rest) ↔ Readable map o1 rest1 := by
  constructor
  · intro h o' c r hl
    exact h o' c r (.step _ _ _ ch rest rest1 _ hstep hl)
  · intro h o' c r hl
    cases hl with
    | refl =>
      by_contra hne
      rw [readStep_fails map o ch rest (by simpa using hne)] at hstep
      cases hstep
    | step _ o2 _ _ _ rest2 _ hstep2 hl =>
      rw [hstep] at hstep2
      obtain ⟨rfl, rfl⟩ := Prod.mk.inj (Option.some.inj hstep2)
      exact h o' c r hl

theorem readable_stop (map : Char → ℕ) (o : OString) (ch : Char) (rest : Text)
    (hstep : readStep map o ch rest = none) :
    Readable map o (ch::rest) ↔ (lexStep map o ch rest).fails = false := by
  constructor
  · intro h
    exact h o ch rest (.refl _ _)
  · intro h o' c r hl
    cases hl with
    | refl => exact h
    | step _ o2 _ _ _ rest2 _ hstep2 hl =>
      rw [hstep] at hstep2
      cases hstep2

theorem readStep_shorter (map : Char → ℕ) (o o1 : OString) (ch : Char) (rest rest1 : Text)
    (hstep : readStep map o ch rest = some (o1, rest1)) : rest1 <:+ rest := by
  have hsuf := lexStep_suffix map o ch rest
  unfold readStep at hstep
  cases hl : lexStep map o ch rest with
  | chars dest vars r =>
    rw [hl] at hstep hsuf
    obtain ⟨-, rfl⟩ := Prod.mk.inj (Option.some.inj hstep)
    exact hsuf
  | blank r =>
    rw [hl] at hstep hsuf
    dsimp only at hstep
    split_ifs at hstep
    obtain ⟨-, rfl⟩ := Prod.mk.inj (Option.some.inj hstep)
    exact hsuf
  | sep type r =>
    rw [hl] at hstep hsuf
    obtain ⟨-, rfl⟩ := Prod.mk.inj (Option.some.inj hstep)
    exact hsuf
  | lone r =>
    rw [hl] at hstep
    cases hstep
  | bad dest vars r =>
    rw [hl] at hstep
    cases hstep
  | behind =>
    rw [hl] at hstep
    cases hstep

theorem lexes_suffix (map : Char → ℕ) (o o' : OString) (text rest : Text)
    (h : Lexes map o text o' rest) : rest <:+ text := by
  induction h with
  | refl o text => exact List.suffix_rfl
  | step o o1 o2 ch rest rest1 rest2 hstep _ ih =>
    have hshort := readStep_shorter map o o1 ch rest rest1 hstep
    exact (ih.trans hshort).trans (List.suffix_cons ch rest)

/-- A parse without compound commands comes to the end of its line or its text
exactly if the text can be read. -/
theorem parse_runs_iff (map : Char → ℕ) (hnl : map '\n' = 0 ∨ map '\n' = 2) (n : ℕ) (p : Parse)
    (text : Text) (hlen : text.length ≤ n) (h : Simple p) :
    (∃ rc q rest, parseRounds map false n p text = .done rc q rest ∧ rc ≠ 1 ∧
      q.ctx.oldFlag = []) ↔
      Readable map p.dest text := by
  induction n generalizing p text with
  | zero =>
    have hnil : text = [] := List.eq_nil_of_length_eq_zero (by omega)
    subst hnil
    constructor
    · intro _ o' c r hl
      cases hl
    · intro _
      exact ⟨-1, p, [], rfl, by decide, h.oldFlag⟩
  | succ n ih =>
    cases text with
    | nil =>
      constructor
      · intro _ o' c r hl
        cases hl
      · intro _
        exact ⟨-1, p, [], rfl, by decide, h.oldFlag⟩
    | cons ch rest =>
      rw [parseRounds]
      rcases parseStep_simple hnl p ch rest h with ⟨q, r, hq, hsimple, hread⟩ | ⟨hnone, hstop⟩
      · rw [hq, readable_step map p.dest q.dest ch rest r hread]
        have hsuf := (readStep_shorter map _ _ ch rest r hread).length_le
        rw [List.length_cons] at hlen
        exact ih q r (by omega) hsimple
      · rw [readable_stop map p.dest ch rest hnone]
        rcases hstop with ⟨⟨r, hr⟩, q, r', hq, hsimple⟩ | ⟨hblank, hq⟩
        · rw [hq, hr]
          exact ⟨fun _ => rfl, fun _ => ⟨0, q, r', rfl, by decide, hsimple.oldFlag⟩⟩
        · have hfails : (lexStep map p.dest ch rest).fails = true := by
            unfold readStep at hnone
            cases hl : lexStep map p.dest ch rest with
            | chars dest vars r =>
              rw [hl] at hnone
              cases hnone
            | blank r => exact absurd hl (hblank r)
            | sep type r =>
              rw [hl] at hnone
              cases hnone
            | lone r => rfl
            | bad dest vars r => rfl
            | behind => rfl
          rw [hfails]
          constructor
          · rintro ⟨rc, q, r, hdone, hrc, -⟩
            rcases hq with hq | ⟨q', r', hq⟩
            · rw [hq] at hdone
              cases hdone
            · rw [hq] at hdone
              cases hdone
              exact absurd rfl hrc
          · intro hf
            cases hf

/-! ## Characters that flow through -/

def startsVar : Text → Bool
  | [] => false
  | c::_ => c = '?' ∨ c = '{' ∨ isalpha c

/-- An unquoted character that flows through: an ordinary one, a `#` inside a word
or a `$` with no variable behind it. -/
def FlowsChar (map : Char → ℕ) (first : Bool) (c : Char) (rest : Text) : Prop :=
  map c = 0 ∨ map c ≠ 2 ∧ (c = '#' ∧ first = false ∨ c = '$' ∧ startsVar rest = false)

/-- Each character flows through, in front of the text `back`. -/
def Flows (map : Char → ℕ) (back : Text) : Bool → Text → Prop
  | _, [] => True
  | first, c::cs => FlowsChar map first c (cs ++ back) ∧ Flows map back false cs

/-- What the copy makes of the characters collected, and of the backslash that it
still holds. -/
def weight (t : Text) : ℕ := (taken false t).length+(if escaping false t then 1 else 0)

theorem taken_bound (b : Bool) (y : Text) :
    (taken b y).length+(if escaping b y then 1 else 0) ≤ (if b then 1 else 0)+y.length := by
  induction y generalizing b with
  | nil =>
    rw [taken, escaping]
    simp
  | cons c cs ih =>
    have htrue := ih true
    have hfalse := ih false
    rw [taken, escaping, List.length_cons]
    cases b with
    | true =>
      rw [if_neg fun h => Bool.noConfusion h.2]
      simp only [Bool.not_true, Bool.and_false, List.length_cons, Bool.false_eq_true, if_true,
        if_false] at hfalse ⊢
      omega
    | false =>
      by_cases hc : c = '\\'
      · rw [if_pos ⟨hc, rfl⟩]
        simp only [hc, decide_true, Bool.not_false, Bool.and_true, Bool.false_eq_true, if_true,
          if_false] at htrue ⊢
        omega
      · rw [if_neg fun h => hc h.1]
        simp only [hc, decide_false, Bool.false_and, List.length_cons, Bool.false_eq_true,
          if_false] at hfalse ⊢
        omega

theorem weight_append (x y : Text) : weight (x ++ y) ≤ weight x+y.length := by
  have h := taken_bound (escaping false x) y
  unfold weight
  rw [taken_append, escaping_append, List.length_append]
  omega

/-- A backslash and the character that it escapes count once. -/
theorem weight_pair (x : Text) (c : Char) : weight (x ++ ['\\', c]) ≤ weight x+1 := by
  unfold weight
  rw [taken_append, escaping_append, List.length_append]
  cases escaping false x with
  | false => simp [taken, escaping]
  | true =>
    by_cases hc : c = '\\'
    · simp [taken, escaping, hc]
    · simp [taken, escaping, hc]

theorem weight_addq (x : Text) (quote : Bool) (ch : Char) :
    weight (x ++ addqText quote ch) ≤ weight x+1 := by
  unfold addqText
  split_ifs
  · exact weight_pair x ch
  · exact weight_append x [ch]

theorem unescape_taken (t : Text) : unescape t = taken false t := by
  induction t using unescape.induct with
  | case1 => rfl
  | case2 => rfl
  | case3 c cs ih =>
    rw [unescape, ih]
    simp [taken]
  | case4 c cs h1 h2 ih =>
    have hc := not_backslash c cs h1 h2
    rw [unescape.eq_4 c cs h1 h2, ih, taken, if_neg fun h => hc h.1]

section Weight
variable {map : Char → ℕ}

/-- What a round that collects can add: the mark of a variable, at most as much as
it takes, or just as much when the character flows through. -/
structure Bounded (map : Char → ℕ) (o dest : OString) (ch : Char) (rest rest' : Text) : Prop where
  grows : ∃ y, dest.data = o.data ++ y
  shorter : rest'.length ≤ rest.length
  bound : weight dest.data+rest'.length ≤ weight o.data+rest.length+1
  flows : o.quote = false → weight dest.data+rest'.length = weight o.data+rest.length+1 →
    FlowsChar map (o.data.isEmpty) ch rest ∧ rest' = rest ∧
      dest = { o with data := o.data ++ [ch] }

theorem bounded_addq (o : OString) (ch : Char) (rest : Text)
    (hflows : o.quote = false → FlowsChar map (o.data.isEmpty) ch rest) :
    Bounded map o (o.addq ch) ch rest rest := by
  have hw := weight_addq o.data o.quote ch
  refine ⟨⟨_, addq_data o ch⟩, Nat.le_refl _, ?_, fun hq _ => ⟨hflows hq, rfl, ?_⟩⟩
  · rw [addq_data]
    omega
  · rw [OString.addq, if_neg fun h => Bool.noConfusion (hq.symm.trans h.1)]
    rfl

/-- A round that takes more than it adds. -/
theorem bounded_less (o dest : OString) (ch : Char) (rest rest' y : Text)
    (hdata : dest.data = o.data ++ y) (hlen : rest'.length ≤ rest.length)
    (hw : weight dest.data+rest'.length < weight o.data+rest.length+1) :
    Bounded map o dest ch rest rest' :=
  ⟨⟨y, hdata⟩, hlen, Nat.le_of_lt hw, fun _ he => absurd he (Nat.ne_of_lt hw)⟩

theorem lexQuoted_bounded (q ch : Char) (o dest : OString) (rest rest' : Text) (vars : ℕ)
    (h : lexQuoted q o rest = .chars dest vars rest') : Bounded map o dest ch rest rest' := by
  have hdata := lexQuoted_parts q o dest rest rest' vars h
  have hlen : (rest.takeWhile (· ≠ q)).length+1+rest'.length = rest.length := by
    have hsplit := congrArg List.length (List.takeWhile_append_dropWhile (p := (· ≠ q)) (l := rest))
    unfold lexQuoted at h
    split at h
    next c r hd =>
      obtain ⟨-, -, rfl⟩ := Lexed.chars.inj h
      rw [hd, List.length_append, List.length_cons] at hsplit
      omega
    next => cases h
  have hw := weight_append o.data (rest.takeWhile (· ≠ q))
  refine bounded_less o dest ch rest rest' _ hdata (by omega) ?_
  rw [hdata]
  omega

theorem lexDollar_bounded (o dest : OString) (rest rest' : Text) (vars : ℕ) (hmap : map '$' ≠ 2)
    (h : lexDollar o rest = .chars dest vars rest') :
    Bounded map o dest '$' rest rest' ∨
      specialVarSymbol ∈ dest.data ∧ ∃ y, dest.data = o.data ++ y := by
  have hvar : ∀ name, specialVarSymbol ∈ (o.addVar name).data ∧
      ∃ y, (o.addVar name).data = o.data ++ y := by
    intro name
    exact ⟨by simp [OString.addVar, OString.addText], _, rfl⟩
  have hplain : startsVar rest = false → Bounded map o (o.addq '$') '$' rest rest := fun hs =>
    bounded_addq o '$' rest fun _ => .inr ⟨hmap, .inr ⟨rfl, hs⟩⟩
  unfold lexDollar at h
  split at h
  next =>
    obtain ⟨rfl, -, -⟩ := Lexed.chars.inj h
    exact .inr (hvar _)
  next r =>
    split at h
    next =>
      obtain ⟨rfl, -, -⟩ := Lexed.chars.inj h
      exact .inr (hvar _)
    next => cases h
  next c cs h1 h2 =>
    split_ifs at h with ha
    · obtain ⟨rfl, -, -⟩ := Lexed.chars.inj h
      exact .inr (hvar _)
    · obtain ⟨rfl, -, rfl⟩ := Lexed.chars.inj h
      have h1' : c ≠ '?' := h1
      have h2' : c ≠ '{' := h2
      exact .inl (hplain (by simp [startsVar, h1', h2', ha]))
  next =>
    obtain ⟨rfl, -, rfl⟩ := Lexed.chars.inj h
    exact .inl (hplain rfl)

theorem escape_bounded (o : OString) (c : Char) (rest : Text) :
    Bounded map o ((o.addq '\\').addq c) '\\' (c::rest) rest := by
  have hdata : ((o.addq '\\').addq c).data =
      o.data ++ (addqText o.quote '\\' ++ addqText o.quote c) := by
    rw [addq_data, addq_data, addq_quote, List.append_assoc]
  cases hq : o.quote with
  | false =>
    have hpair : addqText false '\\' ++ addqText false c = ['\\', c] := rfl
    rw [hq, hpair] at hdata
    have hw := weight_pair o.data c
    refine bounded_less o _ _ _ _ _ hdata (by simp) ?_
    rw [hdata, List.length_cons]
    omega
  | true =>
    rw [hq] at hdata
    have h1 := weight_addq o.data true '\\'
    have h2 := weight_addq (o.data ++ addqText true '\\') true c
    rw [List.append_assoc] at h2
    refine ⟨⟨_, hdata⟩, by simp, ?_, fun hf => absurd hf (by rw [hq]; decide)⟩
    rw [hdata, List.length_cons]
    omega

theorem lexStep_bounded (o dest : OString) (ch : Char) (rest rest' : Text) (vars : ℕ)
    (h : lexStep map o ch rest = .chars dest vars rest') :
    Bounded map o dest ch rest rest' ∨
      specialVarSymbol ∈ dest.data ∧ ∃ y, dest.data = o.data ++ y := by
  have hless : ∀ dest : OString, dest.data = o.data → rest'.length ≤ rest.length →
      Bounded map o dest ch rest rest' := by
    intro dest hd hlen
    refine bounded_less o dest ch rest rest' [] (by rw [hd, List.append_nil]) hlen ?_
    rw [hd]
    omega
  rcases lexStep_chars map o dest ch rest rest' vars h with
    ⟨hplain, rfl, rfl⟩ | ⟨-, hblank, hspecial⟩
  · refine .inl (bounded_addq o ch _ fun hq => .inl (hplain.resolve_right fun hr => ?_))
    exact Bool.noConfusion (hq.symm.trans hr.2)
  cases hspecial with
  | comment c cs hempty hd =>
    exact .inl (hless _ rfl (hd ▸ (List.dropWhile_suffix _).length_le))
  | hash hempty =>
    refine .inl (bounded_addq o '#' _ fun hq => .inr ⟨hblank, .inl ⟨rfl, ?_⟩⟩)
    rw [List.isEmpty_eq_false_iff]
    exact fun hd => hempty ⟨hd, hq⟩
  | escape c cs => exact .inl (escape_bounded o c rest')
  | dollar hd => exact lexDollar_bounded o dest rest rest' _ hblank hd
  | single hq => exact .inl (lexQuoted_bounded '\'' '\'' o dest rest rest' _ hq)
  | double => exact .inl (hless _ rfl (Nat.le_refl _))
  | subst hq =>
    exact .inl (lexQuoted_bounded substedVarSymbol substedVarSymbol o dest rest rest' _ hq)

/-! ## Runs over a text -/

/-- What is left of a word at the end of a run over `x`. -/
structure Carried (map : Char → ℕ) (o o' : OString) (x back : Text) : Prop where
  grows : ∃ y, o'.data = o.data ++ y
  bound : specialVarSymbol ∉ o'.data → weight o'.data ≤ weight o.data+x.length
  flows : specialVarSymbol ∉ o'.data → o.quote = false →
    weight o'.data = weight o.data+x.length →
    Flows map back o.data.isEmpty x ∧ o' = { o with data := o.data ++ x }

theorem carried_nil (o : OString) (back : Text) : Carried map o o [] back :=
  ⟨⟨[], (List.append_nil _).symm⟩, fun _ => Nat.le_refl _,
    fun _ _ _ => ⟨trivial, by rw [List.append_nil]⟩⟩

/-- A round in front of a run that carries the word. -/
theorem carried_chars (o o1 o' : OString) (ch : Char) (x x1 back : Text)
    (hb : Bounded map o o1 ch (x ++ back) (x1 ++ back)) (h : Carried map o1 o' x1 back) :
    Carried map o o' (ch::x) back := by
  have hlen := hb.bound
  simp only [List.length_append] at hlen
  refine ⟨?_, fun hs => ?_, fun hs hq he => ?_⟩
  · obtain ⟨y, hy⟩ := hb.grows
    obtain ⟨z, hz⟩ := h.grows
    exact ⟨y ++ z, by rw [hz, hy, List.append_assoc]⟩
  · have hrest := h.bound hs
    rw [List.length_cons]
    omega
  · have hrest := h.bound hs
    rw [List.length_cons] at he
    obtain ⟨hflows, hsame, hdest⟩ := hb.flows hq (by simp only [List.length_append]; omega)
    have hx : x1 = x := List.append_cancel_right hsame
    subst hx
    have hq1 : o1.quote = false := by rw [hdest]; exact hq
    obtain ⟨hf, ho'⟩ := h.flows hs hq1 (by omega)
    rw [hdest] at hf ho'
    refine ⟨⟨hflows, ?_⟩, ?_⟩
    · have hne : (o.data ++ [ch]).isEmpty = false := by simp
      rwa [hne] at hf
    · rw [ho']
      simp

/-- A run over a text carries the word on, or the word has been started anew. -/
theorem lexes_carried (o o' : OString) (x back : Text) (hl : Lexes map o (x ++ back) o' back) :
    Carried map o o' x back ∨
      (specialVarSymbol ∉ o'.data → weight o'.data < x.length) := by
  generalize htext : x ++ back = text at hl
  induction hl generalizing x with
  | refl o text =>
    have hx : x = [] := List.append_left_eq_self.mp htext
    rw [hx]
    exact .inl (carried_nil o _)
  | step o o1 o2 ch rest rest1 rest2 hstep hl ih =>
    have hsuf := readStep_shorter map o o1 ch rest rest1 hstep
    cases x with
    | nil =>
      have h1 := (lexes_suffix map o1 o2 rest1 rest2 hl).length_le
      have h2 := hsuf.length_le
      have h3 := congrArg List.length htext
      simp only [List.nil_append, List.length_cons] at h3
      omega
    | cons c x =>
      obtain ⟨rfl, hrest⟩ := List.cons.inj htext
      obtain ⟨x1, hx1⟩ := lexes_suffix map o1 o2 rest1 rest2 hl
      have hlen : x1.length ≤ x.length := by
        have h2 := hsuf.length_le
        have h3 : (x ++ rest2).length = rest.length := congrArg List.length hrest
        have h4 : (x1 ++ rest2).length = rest1.length := congrArg List.length hx1
        simp only [List.length_append] at h3 h4
        omega
      have hrun := ih x1 hx1
      have hanew : (specialVarSymbol ∉ o2.data → weight o2.data < x1.length) →
          specialVarSymbol ∉ o2.data → weight o2.data < (c::x).length := by
        intro hw hs
        have := hw hs
        rw [List.length_cons]
        omega
      have hreset : o1 = o.reset → specialVarSymbol ∉ o2.data → weight o2.data < (c::x).length := by
        intro ho1 hs
        rcases hrun with hrun | hrun
        · have hb := hrun.bound hs
          have hzero : weight o1.data = 0 := by rw [ho1]; rfl
          rw [List.length_cons]
          omega
        · exact hanew hrun hs
      unfold readStep at hstep
      cases hlex : lexStep map o c rest with
      | chars dest vars r =>
        rw [hlex] at hstep
        obtain ⟨rfl, rfl⟩ := Prod.mk.inj (Option.some.inj hstep)
        rcases hrun with hrun | hrun
        · rcases lexStep_bounded o dest c rest _ vars hlex with hb | ⟨hs, y, hy⟩
          · rw [← hrest, ← hx1] at hb
            exact .inl (carried_chars o dest o2 c x x1 rest2 hb hrun)
          · obtain ⟨z, hz⟩ := hrun.grows
            have hmem : specialVarSymbol ∈ o2.data := by
              rw [hz]
              exact List.mem_append_left _ hs
            exact .inr fun hn => absurd hmem hn
        · exact .inr (hanew hrun)
      | blank r =>
        rw [hlex] at hstep
        dsimp only at hstep
        split_ifs at hstep
        exact .inr (hreset (Prod.mk.inj (Option.some.inj hstep)).1.symm)
      | sep type r =>
        rw [hlex] at hstep
        exact .inr (hreset (Prod.mk.inj (Option.some.inj hstep)).1.symm)
      | lone r =>
        rw [hlex] at hstep
        cases hstep
      | bad dest vars r =>
        rw [hlex] at hstep
        cases hstep
      | behind =>
        rw [hlex] at hstep
        cases hstep

theorem flowsChar_step (o : OString) (c : Char) (rest : Text) (hq : o.quote = false)
    (h : FlowsChar map o.data.isEmpty c rest) :
    readStep map o c rest = some (o.addq c, rest) := by
  have hlex : ∃ vars, lexStep map o c rest = .chars (o.addq c) vars rest := by
    unfold lexStep
    by_cases h0 : map c = 0
    · rw [if_pos (.inl h0)]
      exact ⟨0, rfl⟩
    · obtain ⟨h2, hc⟩ := h.resolve_left h0
      rw [if_neg fun hp => hp.elim h0 fun hr => Bool.noConfusion (hq.symm.trans hr.2), if_neg h2]
      unfold lexSpecial
      rcases hc with ⟨rfl, hfirst⟩ | ⟨rfl, hvar⟩
      · have hd : o.data ≠ [] := List.isEmpty_eq_false_iff.mp hfirst
        rw [if_pos rfl, if_neg fun hn => hd hn.1]
        exact ⟨0, rfl⟩
      · rw [if_neg (by decide), if_neg (by decide), if_pos rfl]
        cases rest with
        | nil => exact ⟨0, rfl⟩
        | cons d ds =>
          simp only [startsVar, decide_eq_false_iff_not, not_or] at hvar
          rw [lexDollar.eq_3 o d ds hvar.1 hvar.2.1, if_neg hvar.2.2]
          exact ⟨0, rfl⟩
  obtain ⟨vars, hlex⟩ := hlex
  rw [readStep, hlex]

/-- A text that flows through is collected as it is. -/
theorem flows_lexes (back x : Text) (o : OString) (hq : o.quote = false)
    (h : Flows map back o.data.isEmpty x) :
    Lexes map o (x ++ back) { o with data := o.data ++ x } back := by
  induction x generalizing o with
  | nil =>
    rw [List.append_nil]
    exact .refl _ _
  | cons c x ih =>
    obtain ⟨hc, hx⟩ := h
    have hadd : o.addq c = { o with data := o.data ++ [c] } := by
      rw [OString.addq, if_neg fun h => Bool.noConfusion (hq.symm.trans h.1)]
      rfl
    have hstep := flowsChar_step o c (x ++ back) hq hc
    have hne : (o.data ++ [c]).isEmpty = false := by simp
    have hrest := ih (o.addq c) (by rw [addq_quote]; exact hq)
      (by rw [hadd, hne]; exact hx)
    rw [hadd] at hrest hstep
    refine .step _ _ _ c _ _ back hstep ?_
    simpa using hrest

/-! ## One word -/

theorem mem_taken (b : Bool) (t : Text) (c : Char) (hc : c ≠ '\\') (h : c ∈ t) : c ∈ taken b t := by
  induction t generalizing b with
  | nil => cases h
  | cons d ds ih =>
    rw [taken]
    rcases List.mem_cons.mp h with rfl | h
    · rw [if_neg fun hd => hc hd.1]
      exact List.mem_cons_self
    · split_ifs
      · exact ih _ h
      · exact List.mem_cons_of_mem _ (ih _ h)

theorem flows_plain (hback : map '\\' ≠ 0) (back x : Text) (first : Bool)
    (h : Flows map back first x) : '\\' ∉ x := by
  induction x generalizing first with
  | nil => exact List.not_mem_nil
  | cons c x ih =>
    obtain ⟨hc, hx⟩ := h
    rw [List.mem_cons, not_or]
    refine ⟨fun he => ?_, ih false hx⟩
    rcases hc with hc | ⟨-, ⟨hc, -⟩ | ⟨hc, -⟩⟩
    · exact hback (he ▸ hc)
    · exact absurd (he.trans hc) (by decide)
    · exact absurd (he.trans hc) (by decide)

/-- A text read from an empty word makes the word that it is exactly if it flows
through. -/
theorem word_flows_iff (hback : map '\\' ≠ 0) (w back : Text) (hw : specialVarSymbol ∉ w)
    (o : OString) :
    (Lexes map emptyWord (w ++ back) o back ∧ ¬ (o.data = [] ∧ o.nonnull = false) ∧
      unescape o.data = w) ↔
    w ≠ [] ∧ Flows map back true w ∧ o = ⟨w, false, false⟩ := by
  constructor
  · rintro ⟨hl, hnull, hword⟩
    rw [unescape_taken] at hword
    have hs : specialVarSymbol ∉ o.data := fun hm =>
      hw (hword ▸ mem_taken false o.data _ (by decide) hm)
    have hlen : w.length ≤ weight o.data := by
      rw [weight, hword]
      omega
    rcases lexes_carried emptyWord o w back hl with hc | hless
    · have hbound := hc.bound hs
      have hzero : weight emptyWord.data = 0 := rfl
      obtain ⟨hf, ho⟩ := hc.flows hs rfl (by omega)
      have ho' : o = ⟨w, false, false⟩ := ho
      refine ⟨fun hn => hnull ?_, hf, ho'⟩
      rw [ho', hn]
      exact ⟨rfl, rfl⟩
    · have := hless hs
      omega
  · rintro ⟨hne, hf, rfl⟩
    exact ⟨flows_lexes back w emptyWord rfl hf, fun h => hne h.1,
      unescape_id w (flows_plain hback back w true hf)⟩

end Weight

end UBoot.Hush
