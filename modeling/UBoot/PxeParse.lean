import UBoot.PxeGrammar
import Mathlib.Data.List.TakeWhile

/-!
# How the PXE parser moves over lines

The cursor stands in a line, with the lines behind it, a NUL, and other memory. A word and a
literal are taken from their line; only where there is none the cursor moves on to the next
line, or behind the NUL. The statements of a label are read up to the line that ends it.
-/

set_option autoImplicit false

namespace UBoot.Pxe

open EnvAttr (isspace)

/-! ## Lines in memory -/

def Clean (line : Bytes) : Prop := ∀ c ∈ line, c ≠ 10 ∧ c ≠ 0

/-- The lines that follow a line, and the NUL. -/
def after : List Bytes → Bytes
  | [] => [0]
  | line::lines => 10::(line ++ after lines)

theorem after_head (lines : List Bytes) (tail : Bytes) :
    ∃ x l, after lines ++ tail = x::l ∧ (x = 10 ∨ x = 0) := by
  cases lines with
  | nil => exact ⟨0, tail, rfl, .inr rfl⟩
  | cons line lines => exact ⟨10, _, rfl, .inl rfl⟩

theorem splitLines_after (text : Bytes) (h : 0 ∉ text) : ∃ line lines,
    splitLines text = line::lines ∧ (∀ l ∈ line::lines, Clean l) ∧
    text ++ [0] = line ++ after lines := by
  induction text with
  | nil =>
    refine ⟨[], [], rfl, ?_, rfl⟩
    intro l hl c hc
    rw [List.mem_singleton.mp hl] at hc
    simp at hc
  | cons c text ih =>
    obtain ⟨line, lines, hsplit, hclean, htext⟩ := ih (fun h0 => h (List.mem_cons_of_mem c h0))
    have hc0 : c ≠ 0 := fun h0 => h (h0 ▸ List.mem_cons_self)
    rw [splitLines, hsplit]
    by_cases hc : c = 10
    · refine ⟨[], line::lines, if_pos hc, ?_, ?_⟩
      · intro l hl x hx
        rcases List.mem_cons.mp hl with rfl | hl
        · simp at hx
        · exact hclean l hl x hx
      · rw [List.cons_append, htext, hc]
        rfl
    · refine ⟨c::line, lines, if_neg hc, ?_, ?_⟩
      · intro l hl x hx
        rcases List.mem_cons.mp hl with rfl | hl
        · rcases List.mem_cons.mp hx with rfl | hx
          · exact ⟨hc, hc0⟩
          · exact hclean line List.mem_cons_self x hx
        · exact hclean l (List.mem_cons_of_mem _ hl) x hx
      · rw [List.cons_append, htext, List.cons_append]

section Stop

variable (p : UInt8 → Bool) (hp10 : p 10 = false) (hp0 : p 0 = false) (line : Bytes)
  (lines : List Bytes) (tail : Bytes)
include hp10 hp0

theorem stop_after : (after lines ++ tail).takeWhile p = [] ∧
    (after lines ++ tail).dropWhile p = after lines ++ tail := by
  obtain ⟨x, l, heq, hx⟩ := after_head lines tail
  have hpx : p x = false := by
    rcases hx with rfl | rfl
    · exact hp10
    · exact hp0
  rw [heq, List.takeWhile_cons_of_neg (by rw [hpx]; decide),
    List.dropWhile_cons_of_neg (by rw [hpx]; decide)]
  exact ⟨rfl, rfl⟩

theorem dropWhile_line : (line ++ (after lines ++ tail)).dropWhile p =
    line.dropWhile p ++ (after lines ++ tail) := by
  rw [List.dropWhile_append, (stop_after p hp10 hp0 lines tail).2]
  split_ifs with h
  · rw [List.isEmpty_iff.mp h, List.nil_append]
  · rfl

theorem takeWhile_line : (line ++ (after lines ++ tail)).takeWhile p = line.takeWhile p := by
  rw [List.takeWhile_append, (stop_after p hp10 hp0 lines tail).1, List.append_nil]
  split_ifs with h
  · exact (List.takeWhile_prefix p).eq_of_length h |>.symm
  · rfl

end Stop

theorem Clean.dropWhile {line : Bytes} (h : Clean line) (p : UInt8 → Bool) :
    Clean (line.dropWhile p) := fun c hc => h c ((List.dropWhile_sublist p).subset hc)

theorem skipLine_line (line : Bytes) (hc : Clean line) (lines : List Bytes) (tail : Bytes) :
    skipLine (line ++ (after lines ++ tail)) = after lines ++ tail := by
  unfold skipLine
  rw [dropWhile_line _ (by decide) (by decide)]
  have hnil : line.dropWhile (fun c => c ≠ 0 ∧ c ≠ 10) = [] := by
    apply List.dropWhile_eq_nil_iff.mpr
    intro c hcl
    exact decide_eq_true ⟨(hc c hcl).2, (hc c hcl).1⟩
  rw [hnil, List.nil_append]

theorem eolOrEof_line (line : Bytes) (hc : Clean line) (lines : List Bytes) (tail : Bytes) :
    eolOrEof (line ++ (after lines ++ tail)) = .ok (after lines ++ tail) := by
  obtain ⟨x, l, heq, -⟩ := after_head lines tail
  unfold eolOrEof
  rw [skipLine_line line hc, heq]

/-! ## Tokens -/

/-- Where the cursor is when a line is at its end. -/
def nextLine (lines : List Bytes) (tail : Bytes) : TokenType × Bytes :=
  match lines with
  | [] => (.tEof, tail)
  | line::lines => (.tEol, line ++ (after lines ++ tail))

theorem firstWord_none (line : Bytes) : firstWord line = none ↔ argument line = none := by
  unfold firstWord argument
  simp only
  split_ifs <;> simp

theorem while_congr (p q : UInt8 → Bool) (l : Bytes) (h : ∀ c ∈ l, p c = q c) :
    l.takeWhile p = l.takeWhile q ∧ l.dropWhile p = l.dropWhile q := by
  induction l with
  | nil => exact ⟨rfl, rfl⟩
  | cons c l ih =>
    obtain ⟨htake, hdrop⟩ := ih fun x hx => h x (List.mem_cons_of_mem c hx)
    have hpq := h c List.mem_cons_self
    cases hq : q c with
    | false =>
      rw [hq] at hpq
      simp [hpq, hq]
    | true =>
      rw [hq] at hpq
      simp [hpq, hq, htake, hdrop]

theorem getString_line (delim : UInt8) (hd : stops delim 10 = true) (lower : Bool) (line : Bytes)
    (lines : List Bytes) (tail : Bytes) :
    getString (line ++ (after lines ++ tail)) delim lower =
      .ok ((line.takeWhile fun c => !stops delim c).map fun c => if lower then tolower c else c,
        (line.dropWhile fun c => !stops delim c) ++ (after lines ++ tail)) := by
  have h10 : (!stops delim 10) = false := by rw [hd]; rfl
  have h0 : (!stops delim 0) = false := by simp [stops]
  obtain ⟨x, l, heq, -⟩ := after_head lines tail
  unfold getString
  rw [dropWhile_line _ h10 h0, takeWhile_line _ h10 h0]
  cases hrest : line.dropWhile fun c => !stops delim c with
  | nil =>
    rw [List.nil_append, heq]
  | cons y ys => rfl

/-- The beginning of a word or a literal. -/
theorem argument_some (line val : Bytes) (h : argument line = some val) :
    line.dropWhile isblank = val ∧ ∃ x l, val = x::l ∧ x ≠ 35 := by
  unfold argument at h
  simp only at h
  split_ifs at h with hn
  obtain ⟨hne, hhash⟩ := not_or.mp hn
  have hval : line.dropWhile isblank = val := Option.some.inj h
  rw [hval] at hne hhash
  cases val with
  | nil => exact absurd rfl hne
  | cons x l => exact ⟨hval, x, l, rfl, fun hx => hhash (by rw [hx]; rfl)⟩

theorem firstWord_word (line : Bytes) (x : UInt8) (l : Bytes) (h : line.dropWhile isblank = x::l)
    (hx : x ≠ 35) : firstWord line =
      some (getKeyword (((x::l).takeWhile fun c => !isspace c).map tolower),
        (x::l).dropWhile fun c => !isspace c) := by
  unfold firstWord
  simp only [h]
  apply if_neg
  rintro (hnil | hhash)
  · cases hnil
  · exact hx (Option.some.inj hhash)

section Token

variable (line : Bytes) (hc : Clean line) (lines : List Bytes) (tail : Bytes)
include hc

/-- Without a word or a literal in the line the token is the end of the line. -/
theorem getToken_none (h : argument line = none) (state : LexState) :
    getToken (line ++ (after lines ++ tail)) state =
      .ok (⟨[], (nextLine lines tail).1⟩, (nextLine lines tail).2) := by
  have hblank := dropWhile_line isblank (by decide) (by decide) line lines tail
  have hrest : (if (line.dropWhile isblank ++ (after lines ++ tail)).head? = some 35 then
      skipLine (line.dropWhile isblank ++ (after lines ++ tail))
      else line.dropWhile isblank ++ (after lines ++ tail)) = after lines ++ tail := by
    unfold argument at h
    simp only at h
    split_ifs at h with hn
    rcases hn with hn | hn
    · obtain ⟨x, l, heq, hx⟩ := after_head lines tail
      rw [hn, List.nil_append, heq, List.head?_cons, if_neg]
      rcases hx with rfl | rfl <;> decide
    · have hne : line.dropWhile isblank ≠ [] := fun hnil => by
        rw [hnil] at hn
        cases hn
      rw [if_pos (by rw [List.head?_append_of_ne_nil _ hne, hn]),
        skipLine_line _ (hc.dropWhile isblank)]
  unfold getToken
  simp only [hblank, hrest]
  cases lines with
  | nil => rfl
  | cons l ls =>
    have hline : after (l::ls) ++ tail = 10::(l ++ (after ls ++ tail)) := by
      rw [after, List.cons_append, List.append_assoc]
    rw [hline]
    rfl

theorem getToken_start (val : Bytes) (h : argument line = some val) (state : LexState) :
    getToken (line ++ (after lines ++ tail)) state =
      match state with
      | .sliteral => do
        let (val, e) ← getString (val ++ (after lines ++ tail)) 10 false
        return (⟨val, .tString⟩, e)
      | .keyword => do
        let (val, e) ← getString (val ++ (after lines ++ tail)) 32 true
        return (⟨val, getKeyword val⟩, e)
      | .normal => .ok (⟨[], .tInvalid⟩, val ++ (after lines ++ tail)) := by
  obtain ⟨hdrop, x, l, rfl, hx⟩ := argument_some line val h
  have hclean : Clean (x::l) := hdrop ▸ hc.dropWhile isblank
  obtain ⟨h10, h0⟩ := hclean x List.mem_cons_self
  have hhash : ¬(x::l ++ (after lines ++ tail)).head? = some 35 := fun he => hx (Option.some.inj he)
  unfold getToken
  simp only [dropWhile_line isblank (by decide) (by decide), hdrop, if_neg hhash]
  cases state with
  | normal => simp only [List.cons_append]; split <;> simp_all
  | keyword => simp only [List.cons_append]; split <;> simp_all
  | sliteral => simp only [List.cons_append]; split <;> simp_all

theorem getToken_literal (val : Bytes) (h : argument line = some val) :
    getToken (line ++ (after lines ++ tail)) .sliteral =
      .ok (⟨val, .tString⟩, after lines ++ tail) := by
  have hval : Clean val := (argument_some line val h).1 ▸ hc.dropWhile isblank
  have hgo : ∀ c ∈ val, (!stops 10 c) = true := by
    intro c hcv
    obtain ⟨h10, h0⟩ := hval c hcv
    simp [stops, h0, Ne.symm h10]
  rw [getToken_start line hc lines tail val h .sliteral]
  simp only
  rw [getString_line 10 (by decide), List.takeWhile_eq_self_iff.mpr hgo,
    List.dropWhile_eq_nil_iff.mpr hgo]
  simp

theorem getToken_word (type : TokenType) (rest : Bytes) (h : firstWord line = some (type, rest)) :
    ∃ val, getToken (line ++ (after lines ++ tail)) .keyword =
      .ok (⟨val, type⟩, rest ++ (after lines ++ tail)) := by
  obtain ⟨l, hl⟩ : ∃ l, argument line = some l := by
    rw [← Option.ne_none_iff_exists']
    intro hnone
    rw [(firstWord_none line).mpr hnone] at h
    cases h
  obtain ⟨hdrop, x, l', rfl, hx⟩ := argument_some line _ hl
  have hval : Clean (x::l') := hdrop ▸ hc.dropWhile isblank
  obtain ⟨htake, hrest⟩ := while_congr (fun c => !stops 32 c) (fun c => !isspace c) (x::l') (by
    intro c hcl
    have h0 := (hval c hcl).2
    by_cases h32 : c = 32
    · rw [h32]
      decide
    · simp [stops, h0, Ne.symm h32])
  rw [firstWord_word line x l' hdrop hx] at h
  obtain ⟨htype, hr⟩ := Prod.mk.inj (Option.some.inj h)
  rw [getToken_start line hc lines tail _ hl .keyword]
  simp only
  rw [getString_line 32 (by decide), htake, hrest, htype.symm, hr.symm]
  exact ⟨_, rfl⟩

end Token

/-! ## The first word of a line -/

theorem getKeyword_cases (val : Bytes) : getKeyword val = .tString ∨
    ∃ word ∈ keywords, word.1 = val ∧ word.2 = getKeyword val := by
  unfold getKeyword
  cases h : keywords.lookup val with
  | none => exact .inl rfl
  | some type =>
    obtain ⟨l₁, l₂, hsplit, -⟩ := List.lookup_eq_some_iff.mp h
    exact .inr ⟨(val, type), hsplit ▸ List.mem_append_right l₁ List.mem_cons_self, rfl, rfl⟩

theorem keywords_real (word : Bytes × TokenType) (h : word ∈ keywords) :
    word.1 ≠ [] ∧ word.2 ≠ .tEol ∧ word.2 ≠ .tEof := by
  revert word
  decide

theorem getKeyword_real (val : Bytes) : getKeyword val ≠ .tEol ∧ getKeyword val ≠ .tEof ∧
    (getKeyword val ≠ .tString → val ≠ []) := by
  rcases getKeyword_cases val with h | ⟨word, hmem, hval, htype⟩
  · rw [h]
    exact ⟨by decide, by decide, fun hne => absurd rfl hne⟩
  · obtain ⟨hne, heol, heof⟩ := keywords_real word hmem
    rw [← htype, ← hval]
    exact ⟨heol, heof, fun _ => hne⟩

theorem firstWord_rest (line : Bytes) (type : TokenType) (rest : Bytes)
    (h : firstWord line = some (type, rest)) :
    line ≠ [] ∧ rest <:+ line ∧ (type ≠ .tString → rest.length < line.length) ∧
      type ≠ .tEol ∧ type ≠ .tEof := by
  obtain ⟨val, hval⟩ : ∃ val, argument line = some val := by
    rw [← Option.ne_none_iff_exists']
    intro hnone
    rw [(firstWord_none line).mpr hnone] at h
    cases h
  obtain ⟨hdrop, x, l, rfl, hx⟩ := argument_some line val hval
  rw [firstWord_word line x l hdrop hx] at h
  obtain ⟨htype, hr⟩ := Prod.mk.inj (Option.some.inj h)
  obtain ⟨heol, heof, hword⟩ := getKeyword_real (((x::l).takeWhile fun c => !isspace c).map tolower)
  rw [htype] at heol heof hword
  have hsuf : x::l <:+ line := hdrop ▸ List.dropWhile_suffix isblank
  refine ⟨?_, hr ▸ (List.dropWhile_suffix _).trans hsuf, ?_, heol, heof⟩
  · rintro rfl
    cases hdrop
  · intro hstring
    have hne : (x::l).takeWhile (fun c => !isspace c) ≠ [] := by
      intro hnil
      exact hword hstring (by rw [hnil]; rfl)
    have hsplit : (x::l).takeWhile (fun c => !isspace c) ++ (x::l).dropWhile (fun c => !isspace c) =
        x::l := List.takeWhile_append_dropWhile
    have hlen := congrArg List.length hsplit
    have hpos := List.length_pos_iff.mpr hne
    have hle := hsuf.length_le
    rw [List.length_append, hr] at hlen
    omega

/-! ## Literals and numbers -/

def taken {α : Type} (x : Except ℤ α) (c : Bytes) : Outcome (α × Bytes) :=
  match x with
  | .error code => .err code
  | .ok a => .ok (a, c)

section Literal

variable (line : Bytes) (hc : Clean line) (lines : List Bytes) (tail : Bytes)
include hc

theorem parseSliteral_some (val : Bytes) (h : argument line = some val) :
    parseSliteral (line ++ (after lines ++ tail)) = .ok (some val, after lines ++ tail) := by
  unfold parseSliteral
  rw [getToken_literal line hc lines tail val h]
  rfl

theorem parseSliteral_none (h : argument line = none) :
    parseSliteral (line ++ (after lines ++ tail)) = .ok (none, (nextLine lines tail).2) := by
  unfold parseSliteral
  rw [getToken_none line hc lines tail h]
  cases lines <;> rfl

theorem literal_line :
    literal (line ++ (after lines ++ tail)) = taken (needed line) (after lines ++ tail) := by
  unfold literal needed
  cases h : argument line with
  | none =>
    rw [parseSliteral_none line hc lines tail h]
    rfl
  | some val =>
    rw [parseSliteral_some line hc lines tail val h]
    rfl

theorem parseInteger_line :
    parseInteger (line ++ (after lines ++ tail)) = taken (number line) (after lines ++ tail) := by
  unfold parseInteger number
  rw [literal_line line hc lines tail]
  cases needed line with
  | error code => rfl
  | ok val =>
    simp only [taken, Outcome.ok_bind]
    cases h : strictStrtoul val <;> simp [h, bind, Except.bind]

end Literal

/-! ## Statements of a label -/

theorem labelStatement_none (type : TokenType) (rest c : Bytes) (cfg : PxeMenu) (label : PxeLabel)
    (h : labelLine type rest cfg label = none) (hne : type ≠ .tEol) :
    labelStatement type c cfg label = .ok none := by
  unfold labelLine at h
  cases type
  case tInitrd =>
    simp only at h
    split_ifs at h
  case tFdt =>
    simp only at h
    split_ifs at h
  case tEol => exact absurd rfl hne
  all_goals first | rfl | cases h

/-- A statement of a label leaves the cursor at the end of its line. -/
def LabelMoves (type : TokenType) (rest : Bytes) (lines : List Bytes) (cfg : PxeMenu)
    (label : PxeLabel) (x : Except ℤ (PxeMenu × PxeLabel)) : Prop :=
  match x with
  | .error code => ∀ tail, labelStatement type (rest ++ (after lines ++ tail)) cfg label = .err code
  | .ok r => ∃ rest', rest' <:+ rest ∧ firstWord rest' = none ∧ ∀ tail,
      labelStatement type (rest ++ (after lines ++ tail)) cfg label =
        .ok (some (rest' ++ (after lines ++ tail), r))

theorem labelMoves_taken {α : Type} (type : TokenType) (rest : Bytes) (lines : List Bytes)
    (cfg : PxeMenu) (label : PxeLabel) (x : Except ℤ α) (f : α → PxeMenu × PxeLabel)
    (h : ∀ tail, labelStatement type (rest ++ (after lines ++ tail)) cfg label = (do
      let (val, c) ← taken x (after lines ++ tail)
      return some (c, f val))) :
    LabelMoves type rest lines cfg label (x.map f) := by
  cases x with
  | error code => exact h
  | ok val => exact ⟨[], List.nil_suffix, rfl, h⟩

section LabelStatement

variable (rest : Bytes) (hc : Clean rest) (lines : List Bytes) (cfg : PxeMenu) (label : PxeLabel)

/-- A second initrd or fdt line is passed by when nothing stands behind its word. -/
theorem labelMoves_passed (type : TokenType) (hnone : argument rest = none)
    (h : ∀ tail, labelStatement type (rest ++ (after lines ++ tail)) cfg label =
      .ok (some (rest ++ (after lines ++ tail), cfg, label))) :
    LabelMoves type rest lines cfg label (.ok (cfg, label)) :=
  ⟨rest, List.suffix_rfl, (firstWord_none rest).mpr hnone, h⟩

include hc

theorem labelMoves_menu (hsafe : LabelSafe .tMenu rest label) :
    LabelMoves .tMenu rest lines cfg label (.ok (labelMenuLine rest (cfg, label))) := by
  refine ⟨[], List.nil_suffix, rfl, fun tail => ?_⟩
  have hgoal : parseLabelMenu (rest ++ (after lines ++ tail)) cfg label =
      .ok (after lines ++ tail, labelMenuLine rest (cfg, label)) := by
    unfold LabelSafe at hsafe
    unfold parseLabelMenu labelMenuLine
    cases hw : firstWord rest with
    | none =>
      rw [hw] at hsafe
      exact hsafe.elim
    | some word =>
      obtain ⟨type, rest2⟩ := word
      obtain ⟨val, htoken⟩ := getToken_word rest hc lines tail type rest2 hw
      have hc2 : Clean rest2 := fun c hcm => hc c ((firstWord_rest rest type rest2 hw).2.1.subset hcm)
      rw [htoken, Outcome.ok_bind]
      rw [hw] at hsafe
      have heol := eolOrEof_line rest2 hc2 lines tail
      cases type
      case tLabel =>
        obtain ⟨val, harg⟩ := Option.ne_none_iff_exists'.mp hsafe
        simp only
        rw [parseSliteral_some rest2 hc2 lines tail val harg, Outcome.ok_bind, harg]
        have heol := eolOrEof_line [] (fun c h => absurd h List.not_mem_nil) lines tail
        rw [List.nil_append] at heol
        simp only [heol, Outcome.ok_bind, Outcome.pure_eq]
      all_goals simp only [heol, Outcome.ok_bind, Outcome.pure_eq]
  simp only [labelStatement]
  rw [hgoal]
  rfl

theorem labelMoves_append (hsafe : LabelSafe .tAppend rest label) :
    LabelMoves .tAppend rest lines cfg label ((needed rest).map fun val =>
      (cfg, { label with append := some val, initrd := label.initrd.or (initrdArgument val) })) := by
  unfold LabelSafe at hsafe
  simp only at hsafe
  unfold needed
  cases harg : argument rest with
  | none =>
    rw [harg] at hsafe
    have hinitrd : ∃ x, appendInitrd label.initrd label.append = .ok x := by
      unfold appendInitrd
      rcases hsafe with hne | ⟨val, happ, hnone⟩
      · obtain ⟨i, hi⟩ := Option.ne_none_iff_exists'.mp hne
        exact ⟨some i, by rw [hi]⟩
      · cases label.initrd with
        | none => exact ⟨none, by simp only [happ, hnone]⟩
        | some i => exact ⟨some i, rfl⟩
    obtain ⟨x, hx⟩ := hinitrd
    intro tail
    simp only [labelStatement, parseAppend]
    rw [parseSliteral_none rest hc lines tail harg]
    simp [hx]
  | some val =>
    rw [harg] at hsafe
    refine ⟨[], List.nil_suffix, rfl, fun tail => ?_⟩
    have hinitrd : appendInitrd label.initrd (some val) =
        .ok (label.initrd.or (initrdArgument val)) := by
      unfold appendInitrd initrdArgument
      cases hi : label.initrd with
      | some i => rfl
      | none =>
        cases hs : strstr initrdEq val with
        | none =>
          simp only [hs]
          rfl
        | some s =>
          simp only [hs, if_pos (hsafe hi s hs)]
          rfl
    simp only [labelStatement, parseAppend]
    rw [parseSliteral_some rest hc lines tail val harg]
    simp [hinitrd]

/-- A statement of a label does what its line says. -/
theorem labelStatement_line (type : TokenType) (hsafe : LabelSafe type rest label)
    (x : Except ℤ (PxeMenu × PxeLabel)) (h : labelLine type rest cfg label = some x) :
    LabelMoves type rest lines cfg label x := by
  have hlit := fun tail => literal_line rest hc lines tail
  have hint := fun tail => parseInteger_line rest hc lines tail
  unfold labelLine at h
  cases type
  case tMenu =>
    obtain rfl := Option.some.inj h
    exact labelMoves_menu rest hc lines cfg label hsafe
  case tAppend =>
    obtain rfl := Option.some.inj h
    exact labelMoves_append rest hc lines cfg label hsafe
  case tKernel =>
    obtain rfl := Option.some.inj h
    exact labelMoves_taken _ _ _ _ _ _ _ (fun tail => by simp only [labelStatement, hlit])
  case tLinux =>
    obtain rfl := Option.some.inj h
    exact labelMoves_taken _ _ _ _ _ _ _ (fun tail => by simp only [labelStatement, hlit])
  case tLocalboot =>
    obtain rfl := Option.some.inj h
    exact labelMoves_taken _ _ _ _ _ _ _ (fun tail => by simp only [labelStatement, hint])
  case tInitrd =>
    simp only at h
    split_ifs at h with hset
    · obtain rfl := Option.some.inj h
      exact labelMoves_passed rest lines cfg label .tInitrd
        (hsafe (Option.isSome_iff_ne_none.mp hset)) (fun tail => by
          simp only [labelStatement, if_pos hset])
    · obtain rfl := Option.some.inj h
      exact labelMoves_taken _ _ _ _ _ _ _ (fun tail => by
        simp only [labelStatement, hlit, if_neg hset])
  case tFdt =>
    simp only at h
    split_ifs at h with hset
    · obtain rfl := Option.some.inj h
      exact labelMoves_passed rest lines cfg label .tFdt
        (hsafe (Option.isSome_iff_ne_none.mp hset)) (fun tail => by
          simp only [labelStatement, if_pos hset])
    · obtain rfl := Option.some.inj h
      exact labelMoves_taken _ _ _ _ _ _ _ (fun tail => by
        simp only [labelStatement, hlit, if_neg hset])
  all_goals cases h

end LabelStatement

/-! ## The loop of a label -/

section Lines

variable (files : Files) (read : Bytes → PxeMenu → Except ℤ PxeMenu)
  (safe : Bytes → PxeMenu → Prop) (len : ℕ)

/-- From the first place on the lines say the same as from the second. -/
structure Goes (line : Bytes) (lines : List Bytes) (r : Reading) (line' : Bytes)
    (lines' : List Bytes) (r' : Reading) : Prop where
  suffix : line' ++ after lines' <:+ line ++ after lines
  clean : ∀ l ∈ line'::lines', Clean l
  reads : readLines files read (line::lines) r = readLines files read (line'::lines') r'
  safe : LinesSafe files read safe len (line'::lines') r'

theorem Goes.trans {files read safe len} {l₁ l₂ l₃ : Bytes} {ls₁ ls₂ ls₃ : List Bytes}
    {r₁ r₂ r₃ : Reading} (h : Goes files read safe len l₁ ls₁ r₁ l₂ ls₂ r₂)
    (h' : Goes files read safe len l₂ ls₂ r₂ l₃ ls₃ r₃) :
    Goes files read safe len l₁ ls₁ r₁ l₃ ls₃ r₃ :=
  ⟨h'.suffix.trans h.suffix, h'.clean, h.reads.trans h'.reads, h'.safe⟩

variable (line : Bytes) (lines : List Bytes) (r r' : Reading)

theorem readLine_none (h : firstWord line = none) : readLine files read line r = .ok r := by
  unfold readLine
  rw [h]

theorem readLines_ok (h : readLine files read line r = .ok r') :
    readLines files read (line::lines) r = readLines files read lines r' := by
  rw [readLines, h]
  rfl

theorem readLines_error (code : ℤ) (h : readLine files read line r = .error code) :
    readLines files read (line::lines) r = .error code := by
  rw [readLines, h]
  rfl

/-- After a line nothing is left of it but blanks or a comment. -/
theorem goes_line (hclean : ∀ l ∈ line::lines, Clean l)
    (hsafe : LinesSafe files read safe len (line::lines) r)
    (h : readLine files read line r = .ok r') (rest : Bytes) (hrest : rest <:+ line)
    (hnone : firstWord rest = none) : Goes files read safe len line lines r rest lines r' := by
  have hread := readLine_none files read rest r' hnone
  refine ⟨?_, ?_, ?_, ?_⟩
  · obtain ⟨front, rfl⟩ := hrest
    exact ⟨front, by rw [List.append_assoc]⟩
  · intro l hl
    rcases List.mem_cons.mp hl with rfl | hl
    · exact fun c hcl => hclean line List.mem_cons_self c (hrest.subset hcl)
    · exact hclean l (List.mem_cons_of_mem _ hl)
  · rw [readLines_ok files read line lines r r' h, readLines_ok files read rest lines r' r' hread]
  · refine ⟨by unfold LineSafe; rw [hnone]; exact trivial, ?_⟩
    intro r2 h2
    rw [hread] at h2
    obtain rfl := Except.ok.inj h2
    exact hsafe.2 r' h

/-- A line without a word is passed. -/
theorem goes_next (next : Bytes) (hclean : ∀ l ∈ line::next::lines, Clean l)
    (hsafe : LinesSafe files read safe len (line::next::lines) r) (h : firstWord line = none) :
    Goes files read safe len line (next::lines) r next lines r := by
  have hread := readLine_none files read line r h
  refine ⟨⟨line ++ [10], by simp [after]⟩, fun l hl => hclean l (List.mem_cons_of_mem _ hl),
    readLines_ok files read line _ r r hread, hsafe.2 r hread⟩

/-- The line that ends a label is one of the menu. -/
theorem goes_close (menu : PxeMenu) (label : PxeLabel) (hclean : ∀ l ∈ line::lines, Clean l)
    (hsafe : LinesSafe files read safe len (line::lines) ⟨menu, some label⟩)
    (h : ∀ type rest, firstWord line = some (type, rest) → labelLine type rest menu label = none)
    (hlast : firstWord line = none → lines = []) :
    Goes files read safe len line lines ⟨menu, some label⟩ line lines
      ⟨(⟨menu, some label⟩ : Reading).close, none⟩ := by
  cases hw : firstWord line with
  | none =>
    obtain rfl := hlast hw
    refine ⟨List.suffix_rfl, hclean, ?_, ?_⟩
    · rw [readLines_ok _ _ _ _ _ _ (readLine_none files read line _ hw),
        readLines_ok _ _ _ _ _ _ (readLine_none files read line _ hw)]
      rfl
    · exact ⟨by unfold LineSafe; rw [hw]; exact trivial, fun _ _ => trivial⟩
  | some word =>
    obtain ⟨type, rest⟩ := word
    have hl := h type rest hw
    have hsame : readLine files read line ⟨menu, some label⟩ =
        readLine files read line ⟨(⟨menu, some label⟩ : Reading).close, none⟩ := by
      simp only [readLine, hw, hl]
    refine ⟨List.suffix_rfl, hclean, ?_, ?_, ?_⟩
    · rw [readLines, readLines, hsame]
    · have hline := hsafe.1
      simp only [LineSafe, hw, hl] at hline
      simpa only [LineSafe, hw] using hline
    · intro r2 h2
      exact hsafe.2 r2 (hsame.trans h2)

/-- The statements of a label are read up to the line that ends it, in fewer turns than bytes. -/
def LabelReads (size : ℕ) (line : Bytes) (lines : List Bytes) (cfg : PxeMenu) (label : PxeLabel) :
    Prop :=
  (∃ code, (∀ n tail, size < n →
      labelLoop n (line ++ (after lines ++ tail)) cfg label = .err code) ∧
    readLines files read (line::lines) ⟨cfg, some label⟩ = .error code) ∨
  ∃ line' lines' cfg' label', (∀ n tail, size < n →
      labelLoop n (line ++ (after lines ++ tail)) cfg label =
        .ok (line' ++ (after lines' ++ tail), cfg', label')) ∧
    Goes files read safe len line lines ⟨cfg, some label⟩ line' lines'
      ⟨(⟨cfg', some label'⟩ : Reading).close, none⟩

theorem LabelReads.step {files read safe len} {size : ℕ} {line line' : Bytes}
    {lines lines' : List Bytes} {cfg cfg' : PxeMenu} {label label' : PxeLabel}
    (hgoes : Goes files read safe len line lines ⟨cfg, some label⟩ line' lines' ⟨cfg', some label'⟩)
    (hstep : ∀ n tail, labelLoop (n+1) (line ++ (after lines ++ tail)) cfg label =
      labelLoop n (line' ++ (after lines' ++ tail)) cfg' label')
    (h : LabelReads files read safe len size line' lines' cfg' label') :
    LabelReads files read safe len (size+1) line lines cfg label := by
  rcases h with ⟨code, hloop, hread⟩ | ⟨line2, lines2, cfg2, label2, hloop, hgoes2⟩
  · refine Or.inl ⟨code, ?_, hgoes.reads.trans hread⟩
    intro n tail hn
    obtain ⟨n, rfl⟩ : ∃ n', n = n'+1 := ⟨n-1, by omega⟩
    rw [hstep, hloop n tail (by omega)]
  · refine Or.inr ⟨line2, lines2, cfg2, label2, ?_, hgoes.trans hgoes2⟩
    intro n tail hn
    obtain ⟨n, rfl⟩ : ∃ n', n = n'+1 := ⟨n-1, by omega⟩
    rw [hstep, hloop n tail (by omega)]

theorem labelLoop_reads (size : ℕ) (line : Bytes) (lines : List Bytes) (cfg : PxeMenu)
    (label : PxeLabel) (hsize : (line ++ after lines).length ≤ size)
    (hclean : ∀ l ∈ line::lines, Clean l)
    (hsafe : LinesSafe files read safe len (line::lines) ⟨cfg, some label⟩) :
    LabelReads files read safe len size line lines cfg label := by
  induction size generalizing line lines cfg label with
  | zero =>
    obtain ⟨x, l, heq, -⟩ := after_head lines []
    rw [List.append_nil] at heq
    rw [heq, List.length_append, List.length_cons] at hsize
    omega
  | succ size ih =>
    have hc := hclean line List.mem_cons_self
    cases hw : firstWord line with
    | none =>
      have htoken := fun tail => getToken_none line hc lines tail ((firstWord_none line).mp hw) .keyword
      cases lines with
      | nil =>
        refine Or.inr ⟨line, [], cfg, label, ?_, goes_close files read safe len line [] cfg label hclean
          hsafe (fun type rest h => absurd (hw.symm.trans h) (by simp)) (fun _ => rfl)⟩
        intro n tail hn
        obtain ⟨n, rfl⟩ : ∃ n', n = n'+1 := ⟨n-1, by omega⟩
        rw [labelLoop, htoken tail]
        rfl
      | cons next lines =>
        have hgoes := goes_next files read safe len line lines ⟨cfg, some label⟩ next hclean hsafe hw
        refine LabelReads.step hgoes ?_ (ih next lines cfg label ?_ hgoes.clean hgoes.safe)
        · intro n tail
          rw [labelLoop, htoken tail]
          rfl
        · simp only [after, List.length_append, List.length_cons] at hsize ⊢
          omega
    | some word =>
      obtain ⟨type, rest⟩ := word
      obtain ⟨hne, hrest, hless, heol, heof⟩ := firstWord_rest line type rest hw
      have htoken := fun tail => getToken_word line hc lines tail type rest hw
      have hsafe1 := hsafe.1
      simp only [LineSafe, hw] at hsafe1
      cases hl : labelLine type rest cfg label with
      | none =>
        refine Or.inr ⟨line, lines, cfg, label, ?_, goes_close files read safe len line lines cfg label
          hclean hsafe (fun type' rest' h => ?_) (fun h => absurd (hw.symm.trans h) (by simp))⟩
        · intro n tail hn
          obtain ⟨n, rfl⟩ : ∃ n', n = n'+1 := ⟨n-1, by omega⟩
          obtain ⟨val, hval⟩ := htoken tail
          rw [labelLoop, hval]
          simp only [Outcome.ok_bind, labelStatement_none type rest _ cfg label hl heol]
        · obtain ⟨rfl, rfl⟩ := Prod.mk.inj (Option.some.inj (hw.symm.trans h))
          exact hl
      | some x =>
        rw [hl] at hsafe1
        have hcr : Clean rest := fun c hcm => hc c (hrest.subset hcm)
        have hmoves := labelStatement_line rest hcr lines cfg label type hsafe1 x hl
        have hread : readLine files read line ⟨cfg, some label⟩ =
            x.map fun x => ⟨x.1, some x.2⟩ := by
          simp only [readLine, hw, hl]
        cases x with
        | error code =>
          refine Or.inl ⟨code, ?_, readLines_error files read line lines _ code hread⟩
          intro n tail hn
          obtain ⟨n, rfl⟩ : ∃ n', n = n'+1 := ⟨n-1, by omega⟩
          obtain ⟨val, hval⟩ := htoken tail
          have hstep := hmoves tail
          rw [labelLoop, hval]
          simp only [Outcome.ok_bind, hstep, Outcome.err_bind]
        | ok x =>
          obtain ⟨cfg', label'⟩ := x
          obtain ⟨rest', hsuf, hnone, hstep⟩ := hmoves
          have hgoes := goes_line files read safe len line lines _ _ hclean hsafe hread rest'
            (hsuf.trans hrest) hnone
          refine LabelReads.step hgoes ?_ (ih rest' lines cfg' label' ?_ hgoes.clean hgoes.safe)
          · intro n tail
            obtain ⟨val, hval⟩ := htoken tail
            rw [labelLoop, hval]
            simp only [Outcome.ok_bind, hstep tail]
          · have hlt := hless (by rintro rfl; cases hl)
            have hle := hsuf.length_le
            simp only [List.length_append] at hsize ⊢
            omega

end Lines

end UBoot.Pxe
