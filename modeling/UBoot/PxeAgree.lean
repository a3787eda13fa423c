import UBoot.PxeParse

/-!
# A PXE menu is read as its lines say

The text of a menu stands in memory up to its NUL, and parsing leaves the memory up to there
as it is: an included file is stored behind it, unless the length is a multiple of four. Then
the parser takes the statements of the lines in their order, and the result does not
depend on what is behind the NUL.
-/

set_option autoImplicit false

namespace UBoot.Pxe

/-! ## A text in memory -/

structure Loaded (m : Bytes) (b : ℕ) (text : Bytes) : Prop where
  lies : (m.take (b+text.length+1)).drop b = text ++ [0]
  noNul : 0 ∉ text

/-- The lines from the place `p` on, up to a NUL at `k`. -/
structure Stands (m : Bytes) (k p : ℕ) (line : Bytes) (lines : List Bytes) : Prop where
  lies : (m.take (k+1)).drop p = line ++ after lines
  inside : k < m.length
  clean : ∀ l ∈ line::lines, Clean l

section Stands

variable {m : Bytes} {k p : ℕ} {line : Bytes} {lines : List Bytes}

theorem after_pos (line : Bytes) (lines : List Bytes) : 0 < (line ++ after lines).length := by
  rw [List.length_append]
  cases lines with
  | nil => exact Nat.succ_pos _
  | cons next lines =>
    rw [after, List.length_cons]
    omega

theorem Stands.length (h : Stands m k p line lines) : p+(line ++ after lines).length = k+1 := by
  have hlen := congrArg List.length h.lies
  have hpos := after_pos line lines
  have hin := h.inside
  rw [List.length_drop, List.length_take] at hlen
  omega

theorem Stands.drop (h : Stands m k p line lines) :
    m.drop p = line ++ (after lines ++ m.drop (k+1)) := by
  have hlen := h.length
  have hin := h.inside
  conv_lhs => rw [← List.take_append_drop (k+1) m]
  rw [List.drop_append_of_le_length (by rw [List.length_take]; omega), h.lies, List.append_assoc]

/-- The cursor has moved to another place in front of the NUL. -/
theorem Stands.moved (h : Stands m k p line lines) {line' : Bytes} {lines' : List Bytes}
    (hs : line' ++ after lines' <:+ line ++ after lines) (hc : ∀ l ∈ line'::lines', Clean l) :
    Stands m k (m.length-(line' ++ (after lines' ++ m.drop (k+1))).length) line' lines' := by
  refine ⟨?_, h.inside, hc⟩
  have hin := h.inside
  have hsuf : line' ++ after lines' <:+ m.take (k+1) :=
    hs.trans (h.lies ▸ List.drop_suffix p (m.take (k+1)))
  rw [List.suffix_iff_eq_drop] at hsuf
  have hle := hs.length_le
  have hlen := h.length
  rw [List.length_take] at hsuf
  conv_rhs => rw [hsuf]
  congr 1
  simp only [List.length_append, List.length_drop] at *
  omega

/-- The cursor has moved to the end of the line. -/
theorem Stands.ended (h : Stands m k p line lines) :
    Stands m k (m.length-(after lines ++ m.drop (k+1)).length) [] lines := by
  have hs : [] ++ after lines <:+ line ++ after lines := ⟨line, rfl⟩
  refine h.moved hs ?_
  intro l hl
  rcases List.mem_cons.mp hl with rfl | hl
  · exact fun c hc => absurd hc List.not_mem_nil
  · exact h.clean l (List.mem_cons_of_mem line hl)

theorem Stands.kept (h : Stands m k p line lines) {m' : Bytes} (hk : m'.take (k+1) = m.take (k+1)) :
    Stands m' k p line lines := by
  refine ⟨hk ▸ h.lies, ?_, h.clean⟩
  have hin := h.inside
  have hlen := congrArg List.length hk
  rw [List.length_take, List.length_take] at hlen
  omega

end Stands

section Loaded

variable {m : Bytes} {b : ℕ} {text : Bytes}

theorem Loaded.length (h : Loaded m b text) : b+text.length < m.length := by
  have hlen := congrArg List.length h.lies
  rw [List.length_drop, List.length_take, List.length_append, List.length_singleton] at hlen
  omega

theorem Loaded.kept (h : Loaded m b text) {m' : Bytes}
    (hk : m'.take (b+text.length+1) = m.take (b+text.length+1)) : Loaded m' b text :=
  ⟨hk ▸ h.lies, h.noNul⟩

theorem Loaded.drop (h : Loaded m b text) : ∃ tail, m.drop b = text ++ 0::tail := by
  have hin := h.length
  refine ⟨m.drop (b+text.length+1), ?_⟩
  conv_lhs => rw [← List.take_append_drop (b+text.length+1) m]
  rw [List.drop_append_of_le_length (by rw [List.length_take]; omega), h.lies, List.append_assoc]
  rfl

theorem loaded_drop (tail : Bytes) (h : m.drop b = text ++ 0::tail) (h0 : 0 ∉ text) :
    Loaded m b text := by
  refine ⟨?_, h0⟩
  rw [List.drop_take, h, show b+text.length+1-b = (text ++ [0]).length by
    rw [List.length_append, List.length_singleton]
    omega, show text ++ 0::tail = text ++ [0] ++ tail from List.append_cons text 0 tail]
  exact List.take_left

theorem takeWhile_nul (text tail : Bytes) (h : 0 ∉ text) :
    (text ++ 0::tail).takeWhile (· ≠ 0) = text := by
  rw [List.takeWhile_append_of_pos, List.takeWhile_cons_of_neg (by decide), List.append_nil]
  intro c hc
  exact decide_eq_true fun h0 => h (h0 ▸ hc)

theorem Loaded.strlen (h : Loaded m b text) : strlen m b = .ok text.length := by
  obtain ⟨tail, hdrop⟩ := h.drop
  unfold Pxe.strlen
  rw [hdrop, if_pos (List.mem_append_right text List.mem_cons_self), takeWhile_nul text tail h.noNul]

theorem cut_noNul (content : Bytes) : 0 ∉ content.takeWhile (· ≠ 0) := by
  intro h0
  have hne := List.mem_takeWhile_imp h0
  simp at hne

theorem cut_stored (content : Bytes) :
    ∃ tail, content ++ [0] = content.takeWhile (· ≠ 0) ++ 0::tail := by
  induction content with
  | nil => exact ⟨[], rfl⟩
  | cons x l ih =>
    by_cases hx : x = 0
    · exact ⟨l ++ [0], by rw [hx]; rfl⟩
    · obtain ⟨tail, htail⟩ := ih
      refine ⟨tail, ?_⟩
      rw [List.takeWhile_cons_of_pos (by simpa using hx), List.cons_append, htail, List.cons_append]

/-- A file that is stored behind a text. -/
theorem loaded_file (content : Bytes) (k base : ℕ) (hk : k+1 ≤ base) (hin : k < m.length) :
    (loadFile m base content).take (k+1) = m.take (k+1) ∧
      Loaded (loadFile m base content) base (content.takeWhile (· ≠ 0)) := by
  have hfront : ((m ++ List.replicate (base-m.length) 0).take base).length = base := by
    rw [List.length_take, List.length_append, List.length_replicate]
    omega
  constructor
  · unfold loadFile
    rw [List.append_assoc, List.take_append_of_le_length (by omega), List.take_take,
      min_eq_left hk, List.take_append_of_le_length (by omega)]
  · obtain ⟨tail, htail⟩ := cut_stored content
    refine loaded_drop (tail ++ m.drop (base+content.length+1)) ?_ (cut_noNul content)
    unfold loadFile
    rw [List.append_assoc, List.drop_left' hfront, htail, List.append_assoc, List.cons_append]

end Loaded

/-! ## Statements of a menu -/

/-- What a function that reads a text must return, up to the memory behind `keep` bytes. -/
def Ends (keep : ℕ) (m : Bytes) (x : Outcome (Bytes × PxeMenu)) (y : Except ℤ PxeMenu) : Prop :=
  match y with
  | .error code => x = .err code
  | .ok menu => ∃ m', x = .ok (m', menu) ∧ m'.take keep = m.take keep

/-- Texts are read as their lines say when the loops may take enough turns. -/
def Reads (files : Files) (levels : ℕ) : Prop :=
  ∀ text menu, TextSafe files levels text menu → 0 ∉ text → ∃ N, ∀ turns, N ≤ turns → ∀ m b,
    Loaded m b text → Ends (b+text.length+1) m (parsePxefileTop files turns levels m b menu)
      (readText files levels text menu)

section Statement

variable (files : Files) (levels : ℕ)

/-- An included file, stored from `base` on, is read, and the text that includes it is kept. -/
def Includes (turns : ℕ) (m c : Bytes) (lines : List Bytes) (k base : ℕ) (menu : PxeMenu)
    (x : Except ℤ PxeMenu) : Prop :=
  match x with
  | .error code => handleInclude files (parsePxefileTop files turns levels) m c base menu = .err code
  | .ok menu' => ∃ m' p, handleInclude files (parsePxefileTop files turns levels) m c base menu =
      .ok (m', p, menu') ∧ m'.take (k+1) = m.take (k+1) ∧ Stands m' k p [] lines

theorem handleInclude_reads (ih : Reads files levels) (rest : Bytes) (hc : Clean rest)
    (lines : List Bytes) (menu : PxeMenu)
    (hsafe : IncludeSafe files (TextSafe files levels) rest menu) :
    ∃ N, ∀ turns, N ≤ turns → ∀ m k p line base, Stands m k p line lines → k+1 ≤ base →
      Includes files levels turns m (rest ++ (after lines ++ m.drop (k+1))) lines k base menu
        (includeLine files (readText files levels) rest menu) := by
  have hlit := fun tail => literal_line rest hc lines tail
  cases harg : argument rest with
  | none =>
    have hneed : needed rest = .error (-EINVAL) := by rw [needed, harg]
    have hline : includeLine files (readText files levels) rest menu = .error (-EINVAL) := by
      rw [includeLine, hneed]
      rfl
    refine ⟨0, fun turns _ m k p line base _ _ => ?_⟩
    rw [hline]
    change handleInclude _ _ _ _ _ _ = _
    rw [handleInclude, hlit, hneed]
    rfl
  | some path =>
    have hneed : needed rest = .ok path := by rw [needed, harg]
    cases hfile : files path with
    | error code =>
      have hline : includeLine files (readText files levels) rest menu = .error code := by
        simp [includeLine, hneed, hfile, bind, Except.bind]
      refine ⟨0, fun turns _ m k p line base _ _ => ?_⟩
      rw [hline]
      change handleInclude _ _ _ _ _ _ = _
      rw [handleInclude, hlit, hneed]
      simp only [taken, Outcome.ok_bind, hfile]
    | ok content =>
      obtain ⟨N, hN⟩ := ih _ menu (hsafe path content harg hfile) (cut_noNul content)
      refine ⟨N, fun turns hturns m k p line base hstands hk => ?_⟩
      obtain ⟨hkeep, hload⟩ := loaded_file content k base hk hstands.inside
      have hends := hN turns hturns (loadFile m base content) base hload
      have hline : includeLine files (readText files levels) rest menu =
          readText files levels (content.takeWhile (· ≠ 0)) menu := by
        simp [includeLine, hneed, hfile, bind, Except.bind]
      rw [hline]
      cases htext : readText files levels (content.takeWhile (· ≠ 0)) menu with
      | error code =>
        rw [htext] at hends
        change handleInclude _ _ _ _ _ _ = _
        rw [handleInclude, hlit, hneed]
        simp only [taken, Outcome.ok_bind, hfile]
        rw [show parsePxefileTop _ _ _ _ _ _ = _ from hends, Outcome.err_bind]
      | ok menu' =>
        rw [htext] at hends
        obtain ⟨m', hparse, hkeep'⟩ := hends
        have hle : k+1 ≤ base+(content.takeWhile (· ≠ 0)).length+1 := by omega
        have hcut := congrArg (List.take (k+1)) hkeep'
        rw [List.take_take, List.take_take, min_eq_left hle] at hcut
        refine ⟨m', _, ?_, hcut.trans hkeep, hstands.ended.kept (hcut.trans hkeep)⟩
        rw [handleInclude, hlit, hneed]
        simp only [taken, Outcome.ok_bind, hfile, hparse, Outcome.pure_eq]

/-- A statement of a menu leaves the cursor at the end of its line. -/
def MenuMoves (text : Bytes) (N : ℕ) (type : TokenType) (rest : Bytes) (lines : List Bytes)
    (menu : PxeMenu) (x : Except ℤ Reading) : Prop :=
  ∀ turns, N ≤ turns → ∀ m b p line, Loaded m b text → Stands m (b+text.length) p line lines →
    match x with
    | .error code => topStatement files (parsePxefileTop files turns levels) type m
        (rest ++ (after lines ++ m.drop (b+text.length+1))) b menu = .err code
    | .ok r => ∃ m' p', topStatement files (parsePxefileTop files turns levels) type m
        (rest ++ (after lines ++ m.drop (b+text.length+1))) b menu =
          .ok (some (m', p', r.menu)) ∧
        m'.take (b+text.length+1) = m.take (b+text.length+1) ∧
        Stands m' (b+text.length) p' [] lines

theorem menuMoves_taken {α : Type} (text : Bytes) (type : TokenType) (rest : Bytes)
    (lines : List Bytes) (menu : PxeMenu) (x : Except ℤ α) (f : α → PxeMenu)
    (h : ∀ top m tail b, topStatement files top type m (rest ++ (after lines ++ tail)) b menu = (do
      let (val, c) ← taken x (after lines ++ tail)
      return some (m, m.length-c.length, f val))) :
    MenuMoves files levels text 0 type rest lines menu (x.map fun val => ⟨f val, none⟩) := by
  intro turns _ m b p line hload hstands
  cases x with
  | error code => exact h _ m _ b
  | ok val => exact ⟨m, _, h _ m _ b, rfl, hstands.ended⟩

theorem menuMoves_include (ih : Reads files levels) (text rest : Bytes) (hc : Clean rest)
    (lines : List Bytes) (menu : PxeMenu) (hlen : text.length % 4 ≠ 0)
    (hsafe : IncludeSafe files (TextSafe files levels) rest menu) :
    ∃ N, MenuMoves files levels text N .tInclude rest lines menu
      ((includeLine files (readText files levels) rest menu).map fun menu => ⟨menu, none⟩) := by
  obtain ⟨N, hN⟩ := handleInclude_reads files levels ih rest hc lines menu hsafe
  refine ⟨N, fun turns hturns m b p line hload hstands => ?_⟩
  have hinc := hN turns hturns m _ p line (b+align4 text.length) hstands (by
    unfold align4
    omega)
  cases hx : includeLine files (readText files levels) rest menu with
  | error code =>
    rw [hx] at hinc
    change topStatement _ _ _ _ _ _ _ = _
    simp only [topStatement, hload.strlen, Outcome.ok_bind]
    rw [show handleInclude _ _ _ _ _ _ = _ from hinc, Outcome.err_bind]
  | ok menu' =>
    rw [hx] at hinc
    obtain ⟨m', p', hrun, hkeep, hstands'⟩ := hinc
    refine ⟨m', p', ?_, hkeep, hstands'⟩
    simp only [topStatement, hload.strlen, Outcome.ok_bind, hrun, Outcome.pure_eq]

theorem eolOrEof_end (lines : List Bytes) (tail : Bytes) :
    eolOrEof (after lines ++ tail) = .ok (after lines ++ tail) :=
  eolOrEof_line [] (fun _ h => absurd h List.not_mem_nil) lines tail

section MenuLine

variable (ih : Reads files levels) (text rest rest' : Bytes) (hc : Clean rest) (hc' : Clean rest')
  (lines : List Bytes) (menu : PxeMenu)
include hc

include hc' ih in
theorem menuMoves_menuInclude (hw : firstWord rest = some (.tInclude, rest'))
    (hsafe : IncludeSafe files (TextSafe files levels) rest' menu) :
    ∃ N, MenuMoves files levels text N .tMenu rest lines menu
      ((includeLine files (readText files levels) rest' menu).map fun menu => ⟨menu, none⟩) := by
  obtain ⟨N, hN⟩ := handleInclude_reads files levels ih rest' hc' lines menu hsafe
  refine ⟨N, fun turns hturns m b p line hload hstands => ?_⟩
  obtain ⟨val, htoken⟩ := getToken_word rest hc lines (m.drop (b+text.length+1)) _ rest' hw
  have hinc := hN turns hturns m _ p line (b+text.length+1) hstands le_rfl
  cases hx : includeLine files (readText files levels) rest' menu with
  | error code =>
    rw [hx] at hinc
    change topStatement _ _ _ _ _ _ _ = _
    simp only [topStatement, parseMenu, htoken, hload.strlen, Outcome.ok_bind]
    rw [show handleInclude _ _ _ _ _ _ = _ from hinc, Outcome.err_bind, Outcome.err_bind]
  | ok menu' =>
    rw [hx] at hinc
    obtain ⟨m', p', hrun, hkeep, hstands'⟩ := hinc
    refine ⟨m', _, ?_, hkeep, hstands'.ended⟩
    have hdrop := hstands'.drop
    rw [List.nil_append] at hdrop
    simp only [topStatement, parseMenu, htoken, hload.strlen, Outcome.ok_bind, hrun, hdrop,
      eolOrEof_end, Outcome.pure_eq]

include hc' in
theorem menuMoves_menuTitle (hw : firstWord rest = some (.tTitle, rest')) :
    MenuMoves files levels text 0 .tMenu rest lines menu
      ((needed rest').map fun val => ⟨{ menu with title := some val }, none⟩) := by
  apply menuMoves_taken
  intro top m tail b
  obtain ⟨val, htoken⟩ := getToken_word rest hc lines tail _ rest' hw
  have hlit := literal_line rest' hc' lines tail
  cases hneed : needed rest' with
  | error code =>
    rw [hneed] at hlit
    simp only [topStatement, parseMenu, htoken, hlit, taken, Outcome.ok_bind, Outcome.err_bind]
  | ok title =>
    rw [hneed] at hlit
    simp only [topStatement, parseMenu, htoken, hlit, taken, Outcome.ok_bind, eolOrEof_end,
      Outcome.pure_eq]

include ih in
theorem menuMoves_menu (hsafe : MenuSafe files (TextSafe files levels) text.length .tMenu rest menu) :
    ∃ N, MenuMoves files levels text N .tMenu rest lines menu
      (menuLine files (readText files levels) .tMenu rest menu) := by
  unfold MenuSafe at hsafe
  unfold menuLine
  cases hw : firstWord rest with
  | none =>
    rw [hw] at hsafe
    exact hsafe.elim
  | some word =>
    obtain ⟨type, rest'⟩ := word
    have hc' : Clean rest' := fun c hcm => hc c ((firstWord_rest rest type rest' hw).2.1.subset hcm)
    rw [hw] at hsafe
    cases type
    case tTitle => exact ⟨0, menuMoves_menuTitle files levels text rest rest' hc hc' lines menu hw⟩
    case tInclude =>
      exact menuMoves_menuInclude files levels ih text rest rest' hc hc' lines menu hw hsafe
    all_goals
      refine ⟨0, fun turns _ m b p line hload hstands => ⟨m, _, ?_, rfl, hstands.ended⟩⟩
      obtain ⟨val, htoken⟩ := getToken_word rest hc lines (m.drop (b+text.length+1)) _ rest' hw
      simp only [topStatement, parseMenu, htoken, eolOrEof_line rest' hc', Outcome.ok_bind,
        Outcome.pure_eq]

end MenuLine

/-- A statement of a menu does what its line says. -/
theorem topStatement_line (ih : Reads files levels) (text : Bytes) (type : TokenType) (rest : Bytes)
    (hc : Clean rest) (lines : List Bytes) (menu : PxeMenu)
    (hsafe : MenuSafe files (TextSafe files levels) text.length type rest menu)
    (hlabel : type ≠ .tLabel) (heol : type ≠ .tEol) (heof : type ≠ .tEof) :
    ∃ N, MenuMoves files levels text N type rest lines menu
      (menuLine files (readText files levels) type rest menu) := by
  have hint := fun tail => parseInteger_line rest hc lines tail
  have hskip := fun tail => eolOrEof_line rest hc lines tail
  cases type
  case tMenu => exact menuMoves_menu files levels ih text rest hc lines menu hsafe
  case tInclude => exact menuMoves_include files levels ih text rest hc lines menu hsafe.1 hsafe.2
  case tLabel => exact absurd rfl hlabel
  case tEol => exact absurd rfl heol
  case tEof => exact absurd rfl heof
  case tTimeout =>
    exact ⟨0, menuMoves_taken files levels text _ rest lines menu (number rest) _
      (fun top m tail b => by simp only [topStatement, hint])⟩
  case tPrompt =>
    exact ⟨0, menuMoves_taken files levels text _ rest lines menu (number rest) _
      (fun top m tail b => by simp only [topStatement, hint])⟩
  case tDefault =>
    obtain ⟨val, harg⟩ := Option.ne_none_iff_exists'.mp hsafe
    refine ⟨0, menuMoves_taken files levels text _ rest lines menu (needed rest) _
      (fun top m tail b => ?_)⟩
    simp only [topStatement, parseSliteral_some rest hc lines tail val harg, needed, harg, taken,
      Outcome.ok_bind, Outcome.pure_eq]
  all_goals
    refine ⟨0, fun turns _ m b p line hload hstands => ⟨m, _, ?_, rfl, hstands.ended⟩⟩
    simp only [topStatement, hskip, Outcome.ok_bind, Outcome.pure_eq]

/-! ## The loop over a text -/

theorem menuLine_label (read : Bytes → PxeMenu → Except ℤ PxeMenu) (type : TokenType) (rest : Bytes)
    (menu : PxeMenu) (hlabel : type ≠ .tLabel) (r : Reading)
    (h : menuLine files read type rest menu = .ok r) : r.label = none := by
  have hmap : ∀ {α : Type} (x : Except ℤ α) (f : α → PxeMenu),
      x.map (fun a => (⟨f a, none⟩ : Reading)) = .ok r → r.label = none := by
    intro α x f hx
    cases x with
    | error code => cases hx
    | ok a => exact Except.ok.inj hx ▸ rfl
  unfold menuLine at h
  cases type
  case tLabel => exact absurd rfl hlabel
  case tMenu =>
    simp only at h
    split at h
    · exact hmap _ _ h
    · exact hmap _ _ h
    · exact Except.ok.inj h ▸ rfl
  case tTimeout => exact hmap _ _ h
  case tPrompt => exact hmap _ _ h
  case tDefault => exact hmap _ _ h
  case tInclude => exact hmap _ _ h
  all_goals exact Except.ok.inj h ▸ rfl

/-- From its place on a text is read as its lines say, in fewer turns than bytes. -/
def TopReads (text : Bytes) (size : ℕ) (line : Bytes) (lines : List Bytes) (menu : PxeMenu) : Prop :=
  ∃ N, ∀ turns, N ≤ turns → ∀ n m b p, size < n → Loaded m b text →
    Stands m (b+text.length) p line lines →
      Ends (b+text.length+1) m (topLoop files (parsePxefileTop files turns levels) b n m p menu)
        (readLines files (readText files levels) (line::lines) ⟨menu, none⟩)

theorem TopReads.step {files levels} {text : Bytes} {size N : ℕ} {line line' : Bytes}
    {lines lines' : List Bytes} {menu menu' : PxeMenu}
    (hgoes : Goes files (readText files levels) (TextSafe files levels) text.length line lines
      ⟨menu, none⟩ line' lines' ⟨menu', none⟩)
    (hstep : ∀ turns, N ≤ turns → ∀ m b p, Loaded m b text → Stands m (b+text.length) p line lines →
      ∃ m' p', m'.take (b+text.length+1) = m.take (b+text.length+1) ∧
        Stands m' (b+text.length) p' line' lines' ∧
        ∀ n, topLoop files (parsePxefileTop files turns levels) b (n+1) m p menu =
          topLoop files (parsePxefileTop files turns levels) b n m' p' menu')
    (h : TopReads files levels text size line' lines' menu') :
    TopReads files levels text (size+1) line lines menu := by
  obtain ⟨N', hN'⟩ := h
  refine ⟨max N N', fun turns hturns n m b p hn hload hstands => ?_⟩
  obtain ⟨m', p', hkeep, hstands', hloop⟩ :=
    hstep turns (le_trans (le_max_left N N') hturns) m b p hload hstands
  obtain ⟨n, rfl⟩ : ∃ n', n = n'+1 := ⟨n-1, by omega⟩
  have hends := hN' turns (le_trans (le_max_right N N') hturns) n m' b p' (by omega)
    (hload.kept hkeep) hstands'
  rw [hloop, hgoes.reads]
  unfold Ends at hends ⊢
  split at hends
  · exact hends
  · obtain ⟨m2, hrun, hkeep2⟩ := hends
    exact ⟨m2, hrun, hkeep2.trans hkeep⟩

theorem topReads_error (text : Bytes) (size N : ℕ) (line : Bytes) (lines : List Bytes)
    (menu : PxeMenu) (code : ℤ)
    (hread : readLines files (readText files levels) (line::lines) ⟨menu, none⟩ = .error code)
    (hloop : ∀ turns, N ≤ turns → ∀ n m b p, Loaded m b text → Stands m (b+text.length) p line lines →
      topLoop files (parsePxefileTop files turns levels) b (n+1) m p menu = .err code) :
    TopReads files levels text size line lines menu := by
  refine ⟨N, fun turns hturns n m b p hn hload hstands => ?_⟩
  obtain ⟨n, rfl⟩ : ∃ n', n = n'+1 := ⟨n-1, by omega⟩
  rw [hread]
  exact hloop turns hturns n m b p hload hstands

section TopLine

variable (ih : Reads files levels) (text : Bytes) (size : ℕ) (line : Bytes) (lines : List Bytes)
  (menu : PxeMenu) (hclean : ∀ l ∈ line::lines, Clean l)
  (hsafe : LinesSafe files (readText files levels) (TextSafe files levels) text.length
    (line::lines) ⟨menu, none⟩)
  (hnext : ∀ line' lines' menu', (line' ++ after lines').length < (line ++ after lines).length →
    (∀ l ∈ line'::lines', Clean l) →
    LinesSafe files (readText files levels) (TextSafe files levels) text.length (line'::lines')
      ⟨menu', none⟩ → TopReads files levels text size line' lines' menu')
include hclean hsafe hnext

theorem topLoop_blank (hw : firstWord line = none) :
    TopReads files levels text (size+1) line lines menu := by
  have hc := hclean line List.mem_cons_self
  have htoken := fun tail => getToken_none line hc lines tail ((firstWord_none line).mp hw) .keyword
  cases lines with
  | nil =>
    refine ⟨0, fun turns _ n m b p hn hload hstands => ?_⟩
    obtain ⟨n, rfl⟩ : ∃ n', n = n'+1 := ⟨n-1, by omega⟩
    rw [readLines_ok _ _ _ _ _ _ (readLine_none files _ line _ hw)]
    refine ⟨m, ?_, rfl⟩
    rw [topLoop, hstands.drop, htoken]
    rfl
  | cons next lines =>
    have hgoes := goes_next files (readText files levels) (TextSafe files levels) text.length line
      lines ⟨menu, none⟩ next hclean hsafe hw
    have hless : (next ++ after lines).length < (line ++ after (next::lines)).length := by
      simp only [after, List.length_append, List.length_cons]
      omega
    refine TopReads.step (N := 0) hgoes ?_ (hnext next lines menu hless hgoes.clean hgoes.safe)
    intro turns _ m b p hload hstands
    refine ⟨m, _, rfl, hstands.moved hgoes.suffix hgoes.clean, fun n => ?_⟩
    rw [topLoop, hstands.drop, htoken]
    rfl

theorem topLoop_label (rest : Bytes) (hw : firstWord line = some (.tLabel, rest)) :
    TopReads files levels text (size+1) line lines menu := by
  obtain ⟨hne, hrest, -, -, -⟩ := firstWord_rest line _ rest hw
  have hc := hclean line List.mem_cons_self
  have hcr : Clean rest := fun c hcm => hc c (hrest.subset hcm)
  have hread : readLine files (readText files levels) line ⟨menu, none⟩ =
      (needed rest).map fun name => ⟨menu, some (labelCreate name)⟩ := by
    simp only [readLine, hw, menuLine]
  have hlit := fun tail => literal_line rest hcr lines tail
  cases hneed : needed rest with
  | error code =>
    rw [hneed] at hread hlit
    refine topReads_error files levels text _ 0 line lines menu code
      (readLines_error _ _ _ _ _ _ hread) ?_
    intro turns _ n m b p _ hstands
    obtain ⟨val, htoken⟩ := getToken_word line hc lines (m.drop (b+text.length+1)) _ rest hw
    rw [topLoop, hstands.drop, htoken]
    simp only [Outcome.ok_bind, topStatement, parseLabel, hlit, taken, Outcome.err_bind]
  | ok name =>
    rw [hneed] at hread hlit
    have hgoes := goes_line files (readText files levels) (TextSafe files levels) text.length line lines
      _ _ hclean hsafe hread [] List.nil_suffix rfl
    have hturns : ∀ tail, (after lines).length < (after lines ++ tail).length+1 := by
      intro tail
      rw [List.length_append]
      omega
    rcases labelLoop_reads files (readText files levels) (TextSafe files levels) text.length
        (after lines).length [] lines menu (labelCreate name) le_rfl hgoes.clean hgoes.safe with
      ⟨code, hlabel, herr⟩ | ⟨line', lines', cfg', label', hlabel, hgoes'⟩
    · refine topReads_error files levels text _ 0 line lines menu code (hgoes.reads.trans herr) ?_
      intro turns _ n m b p _ hstands
      obtain ⟨val, htoken⟩ := getToken_word line hc lines (m.drop (b+text.length+1)) _ rest hw
      have hloop := hlabel _ (m.drop (b+text.length+1)) (hturns (m.drop (b+text.length+1)))
      rw [List.nil_append] at hloop
      rw [topLoop, hstands.drop, htoken]
      simp only [Outcome.ok_bind, topStatement, parseLabel, hlit, taken, hloop, Outcome.err_bind]
    · have hless : (line' ++ after lines').length < (line ++ after lines).length := by
        have hle := hgoes'.suffix.length_le
        have hpos := List.length_pos_iff.mpr hne
        simp only [List.length_append, List.length_nil] at hle ⊢
        omega
      have hall := hgoes.trans hgoes'
      refine TopReads.step (N := 0) hall ?_ (hnext line' lines' _ hless hall.clean hall.safe)
      intro turns _ m b p hload hstands
      refine ⟨m, _, rfl, hstands.moved hall.suffix hall.clean, fun n => ?_⟩
      obtain ⟨val, htoken⟩ := getToken_word line hc lines (m.drop (b+text.length+1)) _ rest hw
      have hloop := hlabel _ (m.drop (b+text.length+1)) (hturns (m.drop (b+text.length+1)))
      rw [List.nil_append] at hloop
      rw [topLoop, hstands.drop, htoken]
      simp only [Outcome.ok_bind, topStatement, parseLabel, hlit, taken, hloop, Outcome.pure_eq]
      rfl

include ih in
theorem topLoop_line (type : TokenType) (rest : Bytes) (hw : firstWord line = some (type, rest))
    (hlabel : type ≠ .tLabel) : TopReads files levels text (size+1) line lines menu := by
  obtain ⟨hne, hrest, -, heol, heof⟩ := firstWord_rest line type rest hw
  have hc := hclean line List.mem_cons_self
  have hcr : Clean rest := fun c hcm => hc c (hrest.subset hcm)
  have hline := hsafe.1
  simp only [LineSafe, hw] at hline
  have hread : readLine files (readText files levels) line ⟨menu, none⟩ =
      menuLine files (readText files levels) type rest menu := by
    simp only [readLine, hw]
  obtain ⟨N, hN⟩ := topStatement_line files levels ih text type rest hcr lines menu hline hlabel heol
    heof
  cases hx : menuLine files (readText files levels) type rest menu with
  | error code =>
    refine topReads_error files levels text _ N line lines menu code
      (readLines_error _ _ _ _ _ _ (hread.trans hx)) ?_
    intro turns hturns n m b p hload hstands
    have hstep := hN turns hturns m b p line hload hstands
    rw [hx] at hstep
    obtain ⟨val, htoken⟩ := getToken_word line hc lines (m.drop (b+text.length+1)) _ rest hw
    rw [topLoop, hstands.drop, htoken]
    simp only [Outcome.ok_bind, hstep, Outcome.err_bind]
  | ok r =>
    obtain ⟨menu', label⟩ := r
    obtain rfl := menuLine_label files _ type rest menu hlabel _ hx
    have hgoes := goes_line files (readText files levels) (TextSafe files levels) text.length line lines
      _ _ hclean hsafe (hread.trans hx) [] List.nil_suffix rfl
    have hless : ([] ++ after lines).length < (line ++ after lines).length := by
      have hpos := List.length_pos_iff.mpr hne
      simp only [List.length_append, List.length_nil]
      omega
    refine TopReads.step (N := N) hgoes ?_ (hnext [] lines menu' hless hgoes.clean hgoes.safe)
    intro turns hturns m b p hload hstands
    have hstep := hN turns hturns m b p line hload hstands
    rw [hx] at hstep
    obtain ⟨m', p', hrun, hkeep, hstands'⟩ := hstep
    obtain ⟨val, htoken⟩ := getToken_word line hc lines (m.drop (b+text.length+1)) _ rest hw
    refine ⟨m', p', hkeep, hstands', fun n => ?_⟩
    rw [topLoop, hstands.drop, htoken]
    simp only [Outcome.ok_bind, hrun]

end TopLine

theorem topLoop_reads (ih : Reads files levels) (text : Bytes) (size : ℕ) (line : Bytes)
    (lines : List Bytes) (menu : PxeMenu) (hsize : (line ++ after lines).length ≤ size)
    (hclean : ∀ l ∈ line::lines, Clean l)
    (hsafe : LinesSafe files (readText files levels) (TextSafe files levels) text.length
      (line::lines) ⟨menu, none⟩) :
    TopReads files levels text size line lines menu := by
  induction size generalizing line lines menu with
  | zero =>
    have hpos := after_pos line lines
    omega
  | succ size hsmall =>
    have hnext : ∀ line' lines' menu', (line' ++ after lines').length < (line ++ after lines).length →
        (∀ l ∈ line'::lines', Clean l) →
        LinesSafe files (readText files levels) (TextSafe files levels) text.length (line'::lines')
          ⟨menu', none⟩ → TopReads files levels text size line' lines' menu' :=
      fun line' lines' menu' hless => hsmall line' lines' menu' (by omega)
    cases hw : firstWord line with
    | none => exact topLoop_blank files levels text size line lines menu hclean hsafe hnext hw
    | some word =>
      obtain ⟨type, rest⟩ := word
      by_cases hlabel : type = .tLabel
      · subst hlabel
        exact topLoop_label files levels text size line lines menu hclean hsafe hnext rest hw
      · exact topLoop_line files levels ih text size line lines menu hclean hsafe hnext type rest hw
          hlabel

end Statement

/-- By induction on the levels that are left. -/
theorem reads_levels (files : Files) (levels : ℕ) : Reads files levels := by
  induction levels with
  | zero => exact fun text menu _ _ => ⟨0, fun turns _ m b _ => rfl⟩
  | succ levels ih =>
    intro text menu hsafe h0
    obtain ⟨line, lines, hsplit, hclean, htext⟩ := splitLines_after text h0
    rw [TextSafe, hsplit] at hsafe
    obtain ⟨N, hN⟩ := topLoop_reads files levels ih text _ line lines menu le_rfl hclean hsafe
    refine ⟨max N ((line ++ after lines).length+1), fun turns hturns m b hload => ?_⟩
    have hstands : Stands m (b+text.length) b line lines :=
      ⟨hload.lies.trans htext, hload.length, hclean⟩
    rw [readText, hsplit]
    exact hN turns (le_trans (le_max_left _ _) hturns) turns m b b
      (Nat.lt_of_lt_of_le (Nat.lt_succ_self _) (le_trans (le_max_right _ _) hturns)) hload hstands

/-! ## The menu of a text -/

/-- The parser returns, with the menu that the lines of the text say. -/
def Agrees (files : Files) (text : Bytes) : Prop :=
  ∃ N, ∀ turns, N ≤ turns → ∀ tail, parsePxefile files turns (text ++ 0::tail) =
    .ok (readText files maxNestLevel text emptyMenu).toOption

theorem menu_agrees (files : Files) (text : Bytes) (h0 : 0 ∉ text)
    (hsafe : TextSafe files maxNestLevel text emptyMenu) : Agrees files text := by
  obtain ⟨N, hN⟩ := reads_levels files maxNestLevel text emptyMenu hsafe h0
  refine ⟨N, fun turns hturns tail => ?_⟩
  have hends := hN turns hturns (text ++ 0::tail) 0 (loaded_drop tail rfl h0)
  unfold parsePxefile
  cases hx : readText files maxNestLevel text emptyMenu with
  | error code =>
    rw [hx] at hends
    rw [show parsePxefileTop _ _ _ _ _ _ = _ from hends]
    rfl
  | ok menu =>
    rw [hx] at hends
    obtain ⟨m', hrun, -⟩ := hends
    rw [hrun]
    rfl

def oneLabel : Files := fun _ => .ok (word ['l', 'a', 'b', 'e', 'l', ' ', 'a'])

theorem menu_agrees_include : Agrees oneLabel (word "include cfg".toList) := by
  apply menu_agrees _ _ (by decide)
  refine ⟨⟨by decide, ?_⟩, fun _ _ => trivial⟩
  intro path content _ hfile
  obtain rfl := Except.ok.inj hfile
  exact ⟨trivial, fun _ _ => trivial⟩

/-- The included file is stored over the NUL, and what follows the include line is this file. -/
theorem included_twice : ¬∀ (files : Files) (text : Bytes), 0 ∉ text → Agrees files text := by
  intro h
  obtain ⟨N, hN⟩ := h oneLabel (word "include cfg\n".toList) (by decide)
  have hmenu := hN (N+5) (Nat.le_add_right N 5) []
  have htwice : parsePxefile oneLabel (N+5) (word "include cfg\n".toList ++ [0]) =
      .ok (some { emptyMenu with labels := [labelCreate [97], labelCreate [97]] }) := rfl
  rw [htwice] at hmenu
  injection hmenu with hmenu
  revert hmenu
  decide

end UBoot.Pxe
