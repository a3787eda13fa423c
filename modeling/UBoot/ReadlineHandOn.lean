import UBoot.ReadlineEditor

/-!
# Handing a line on

What `get_user_input` copies fits when the line is short enough for the prompt: at the first
prompt of a command it goes to `the_command` with a newline and a terminator, at the others
the newline and the terminator only have to fit behind it.
-/

set_option autoImplicit false

namespace UBoot.Readline

/-- The characters of a line that the shell sees. -/
def seen (line : Bytes) : ℕ := (line.takeWhile (· ≠ 0)).length

def Choice.limit (ch : Choice) : ℕ := if ch.ps1 then cbsize-2 else cbsize-1

/-- After `n` lines; there is no command before the first. -/
structure Command.Sound (cmd : Command) (n : ℕ) : Prop where
  size : cmd.theCommand.length = cbsize
  text : ∃ s rest, cmd.theCommand = s ++ 0::rest ∧ (0 : UInt8) ∉ s ∧
    (s = [] → n = 0 ∧ cmd.flagRepeat = false)

/-! ## The buffers -/

theorem takeWhile_split (buf : Bytes) (h : (0 : UInt8) ∈ buf) :
    ∃ rest, buf = buf.takeWhile (· ≠ 0) ++ 0::rest := by
  induction buf with
  | nil => cases h
  | cons b buf ih =>
    by_cases hb : b = 0
    · exact ⟨buf, by rw [List.takeWhile_cons_of_neg (by simpa using hb), hb]; rfl⟩
    · obtain ⟨rest, hrest⟩ := ih ((List.mem_cons.mp h).resolve_left (Ne.symm hb))
      refine ⟨rest, ?_⟩
      rw [List.takeWhile_cons_of_pos (by simpa using hb), List.cons_append, ← hrest]

theorem cstr_split {buf s : Bytes} (h : cstr buf = some s) :
    ∃ rest, buf = s ++ 0::rest ∧ (0 : UInt8) ∉ s := by
  rw [cstr] at h
  split_ifs at h with hmem
  cases h
  obtain ⟨rest, hrest⟩ := takeWhile_split buf hmem
  exact ⟨rest, hrest, (fits_takeWhile (le_refl buf.length)).2⟩

theorem strcpy_behind (xs ys s : Bytes) (h : s.length+1 ≤ ys.length) :
    strcpy (xs ++ ys) xs.length s = some (xs ++ s ++ 0::ys.drop (s.length+1)) := by
  rw [strcpy, if_pos (by rw [List.length_append]; omega), List.take_left, List.drop_append,
    List.drop_of_length_le (by omega), show xs.length+s.length+1-xs.length = s.length+1 by omega]
  simp

theorem store_second (s rest : Bytes) (z c : UInt8) :
    store (s ++ newline::z::rest) (s.length+1) c = some (s ++ newline::c::rest) := by
  have hsplit : ∀ x : UInt8, s ++ newline::x::rest = (s ++ [newline]) ++ x::rest := by
    intro x
    simp
  rw [hsplit, hsplit, ← store_at (s ++ [newline]) rest z c, List.length_append]
  rfl

/-- A copy to the front of the command. -/
theorem copied_sound {cmd : Bytes} (hsize : cmd.length = cbsize) {line : Bytes} (hne : line ≠ [])
    (hzero : (0 : UInt8) ∉ line) (hlen : line.length+1 ≤ cbsize) (flag : Bool) (n : ℕ) :
    ∃ cmd', strcpy cmd 0 line = some cmd' ∧ Command.Sound ⟨cmd', flag⟩ n := by
  refine ⟨_, strcpy_front cmd line (by omega), ?_, line, _, rfl, hzero, fun h => absurd h hne⟩
  simp
  omega

theorem emptyCommand_sound {cmd : Bytes} (hsize : cmd.length = cbsize) (flag : Bool) (n : ℕ) :
    ∃ cmd', emptyCommand cmd = some cmd' ∧ Command.Sound ⟨cmd', flag⟩ n := by
  rcases cmd with _ | ⟨a, _ | ⟨b, rest⟩⟩
  · cases hsize
  · cases hsize
  · exact ⟨newline::0::rest, rfl, hsize, [newline], rest, rfl, by decide,
      fun h => absurd h (by decide)⟩

/-! ## The two prompts -/

theorem takeFirst_sound {cmd : Command} {n : ℕ} (hs : cmd.Sound n) {flag : Bool}
    (hflag : flag = true → cmd.flagRepeat = true) {line : Bytes} (hne : line ≠ [])
    (hzero : (0 : UInt8) ∉ line) (hlen : line.length+1 ≤ cbsize) :
    ∃ cmd', takeFirst flag line cmd.theCommand = some cmd' ∧ cmd'.Sound (n+1) := by
  unfold takeFirst
  split_ifs with h1 h2
  · obtain ⟨cmd', hcopy, hsound⟩ := copied_sound hs.size hne hzero hlen flag (n+1)
    rw [hcopy]
    exact ⟨_, rfl, hsound⟩
  · obtain ⟨cmd', hcopy, hsound⟩ := copied_sound hs.size hne hzero hlen true (n+1)
    rw [hcopy]
    exact ⟨_, rfl, hsound⟩
  · -- the last command is repeated, so there is one
    obtain ⟨s, rest, hcmd, hs0, hempty⟩ := hs.text
    refine ⟨_, rfl, hs.size, s, rest, hcmd, hs0, fun h => ?_⟩
    have hhead : line.head? = some newline := not_not.mp h2
    have htrue : flag = true := Bool.not_eq_false _ ▸ fun h => h1 ⟨hhead, h⟩
    exact absurd (hflag htrue) (by rw [(hempty h).2]; decide)

theorem takeFirst_long {flag : Bool} {line cmd : Bytes} (hsize : cmd.length = cbsize)
    (hhead : line.head? ≠ some newline) (hlen : cbsize ≤ line.length) :
    takeFirst flag line cmd = none := by
  unfold takeFirst
  rw [if_neg (fun h => hhead h.1), if_pos hhead, strcpy, if_neg (by omega)]
  rfl

theorem appendLine_sound {cmd : Command} {n : ℕ} (hs : cmd.Sound n) (hn : 0 < n) (flag : Bool)
    {line : Bytes} (hzero : (0 : UInt8) ∉ line) : ∃ cmd', appendLine flag line cmd.theCommand = some cmd' ∧ cmd'.Sound (n+1) := by
  obtain ⟨s, rest, hcmd, hs0, hempty⟩ := hs.text
  have hne : s ≠ [] := fun h => absurd (hempty h).1 (by omega)
  have hsize := hs.size
  unfold appendLine
  by_cases hhead : line.head? = some newline
  · rw [if_pos hhead]
    exact ⟨_, rfl, hs.size, s, rest, hcmd, hs0, fun h => absurd h hne⟩
  · rw [if_neg hhead]
    simp only [hcmd, cstr_of s rest hs0, Option.bind_eq_bind, Option.bind_some]
    rw [hcmd] at hsize
    by_cases hroom : s.length+line.length < cbsize
    · rw [if_pos hroom]
      obtain ⟨t, c, rfl⟩ : ∃ t c, s = t ++ [c] := by
        rcases List.eq_nil_or_concat s with h | ⟨t, c, h⟩
        · exact absurd h hne
        · exact ⟨t, c, h.trans (List.concat_eq_append ..)⟩
      have hstore : store (t ++ [c] ++ 0::rest) ((t ++ [c]).length-1) 32 =
          some (t ++ 32::0::rest) := by
        rw [List.length_append, List.append_assoc]
        exact store_at t (0::rest) c 32
      have hlen : (t ++ [c]).length = t.length+1 := by rw [List.length_append]; rfl
      have hroom' : line.length+1 ≤ (0::rest).length := by
        rw [List.length_append, hlen] at hsize
        rw [hlen] at hroom
        omega
      have hcopy := strcpy_behind (t ++ [32]) (0::rest) line hroom'
      rw [List.append_assoc, List.singleton_append, List.length_append] at hcopy
      rw [if_neg (by omega), hstore, hlen]
      simp only [Option.bind_some]
      rw [show t.length+1 = t.length+[(32 : UInt8)].length from rfl, hcopy]
      refine ⟨_, rfl, ?_, t ++ [32] ++ line, _, rfl, ?_, fun h => absurd h (by simp)⟩
      · simp at hsize hroom' ⊢
        omega
      · intro hmem
        rcases List.mem_append.mp hmem with hmem | hmem
        · rcases List.mem_append.mp hmem with hmem | hmem
          · exact hs0 (List.mem_append_left _ hmem)
          · exact absurd (List.mem_singleton.mp hmem) (by decide)
        · exact hzero hmem
    · rw [if_neg hroom]
      obtain ⟨cmd', hcopy, hsound⟩ := emptyCommand_sound hsize false (n+1)
      rw [hcopy]
      exact ⟨_, rfl, hsound⟩

theorem takeNext_sound {cmd : Command} {n : ℕ} (hs : cmd.Sound n) (hn : 0 < n)
    (interrupted flag : Bool) {line : Bytes} (hzero : (0 : UInt8) ∉ line) :
    ∃ cmd', takeNext interrupted flag line cmd.theCommand = some cmd' ∧ cmd'.Sound (n+1) := by
  obtain ⟨c, happ, hc⟩ := appendLine_sound hs hn flag hzero
  unfold takeNext
  rw [happ]
  simp only [Option.bind_eq_bind, Option.bind_some]
  cases interrupted with
  | false => exact ⟨c, rfl, hc⟩
  | true =>
    obtain ⟨cmd', hcmd', hsound⟩ := emptyCommand_sound hc.size c.flagRepeat (n+1)
    rw [if_pos rfl, hcmd']
    exact ⟨_, rfl, hsound⟩

/-! ## `get_user_input` -/

/-- The newline and the terminator behind a line. -/
theorem ended {console s : Bytes} (hsize : console.length = cbsize+1) (hs : cstr console = some s) :
    (s.length ≤ cbsize-1 → ∃ rest, store console s.length newline >>= (store · (s.length+1) 0) =
      some (s ++ newline::0::rest) ∧ (s ++ newline::0::rest).length = cbsize+1) ∧
    (cbsize-1 < s.length → store console s.length newline >>= (store · (s.length+1) 0) = none) := by
  obtain ⟨rest, rfl, -⟩ := cstr_split hs
  rw [List.length_append, List.length_cons] at hsize
  constructor
  · intro hlen
    cases rest with
    | nil =>
      rw [List.length_nil] at hsize
      unfold cbsize at hsize hlen
      omega
    | cons z rest =>
      rw [store_at]
      refine ⟨rest, store_second s rest z 0, ?_⟩
      rw [List.length_append, List.length_cons, List.length_cons]
      exact hsize
  · intro hlen
    rw [store_at]
    have hrest : rest = [] := List.length_eq_zero_iff.mp (by omega)
    subst hrest
    exact if_neg (by simp)

theorem getUserInput_eq (ch : Choice) (interrupted : Bool) (console : Bytes) (cmd : Command)
    {s : Bytes} (hs : cstr console = some s) : getUserInput ch interrupted console cmd =
      (store console s.length newline >>= (store · (s.length+1) 0)) >>= fun console =>
        cstr console >>= fun line =>
          (if ch.ps1 then
            takeFirst (cmd.flagRepeat && ch.repeatable && !interrupted && !ch.hadCtrlc) line
              cmd.theCommand
          else
            takeNext interrupted (cmd.flagRepeat && ch.repeatable && !interrupted && !ch.hadCtrlc)
              line cmd.theCommand) >>= fun cmd => some (console, cmd) := by
  unfold getUserInput
  rw [hs]
  simp only [Option.bind_eq_bind, Option.bind_some, Option.bind_assoc]
  by_cases hps : ch.ps1 = true
  · simp only [if_pos hps]
    rfl
  · simp only [if_neg hps]
    rfl

theorem getUserInput_sound {ch : Choice} {cmd : Command} {n : ℕ} (hs : cmd.Sound n)
    (hn : n = 0 → ch.ps1 = true) (interrupted : Bool) {console s : Bytes}
    (hsize : console.length = cbsize+1) (hstr : cstr console = some s) (hlen : s.length ≤ ch.limit) :
    ∃ r, getUserInput ch interrupted console cmd = some r ∧ r.1.length = cbsize+1 ∧
      r.2.Sound (n+1) := by
  have hzero : (0 : UInt8) ∉ s ++ [newline] := by
    obtain ⟨-, -, hs0⟩ := cstr_split hstr
    rw [List.mem_append, not_or]
    exact ⟨hs0, by decide⟩
  have hlimit : ch.limit ≤ cbsize-1 := by
    unfold Choice.limit
    split_ifs <;> decide
  obtain ⟨rest, hended, hsize'⟩ := (ended hsize hstr).1 (hlen.trans hlimit)
  have hline : cstr (s ++ newline::0::rest) = some (s ++ [newline]) := by
    rw [show s ++ newline::0::rest = (s ++ [newline]) ++ 0::rest by simp]
    exact cstr_of _ rest hzero
  rw [getUserInput_eq ch interrupted console cmd hstr, hended]
  simp only [Option.bind_eq_bind, Option.bind_some, hline]
  have hflag : (cmd.flagRepeat && ch.repeatable && !interrupted && !ch.hadCtrlc) = true →
      cmd.flagRepeat = true := by
    simp only [Bool.and_eq_true]
    exact fun h => h.1.1.1
  by_cases hps : ch.ps1 = true
  · rw [Choice.limit, if_pos hps] at hlen
    obtain ⟨cmd', hcmd', hsound⟩ := takeFirst_sound hs hflag
      (List.append_ne_nil_of_right_ne_nil s (List.cons_ne_nil newline [])) hzero
      (by
        rw [List.length_append, List.length_singleton]
        unfold cbsize at hlen ⊢
        omega)
    rw [if_pos hps, hcmd']
    exact ⟨_, rfl, hsize', hsound⟩
  · obtain ⟨cmd', hcmd', hsound⟩ := takeNext_sound hs (Nat.pos_of_ne_zero fun h => hps (hn h))
      interrupted (cmd.flagRepeat && ch.repeatable && !interrupted && !ch.hadCtrlc) hzero
    rw [if_neg hps, hcmd']
    exact ⟨_, rfl, hsize', hsound⟩

theorem getUserInput_long {ch : Choice} {cmd : Command} {n : ℕ} (hs : cmd.Sound n)
    (interrupted : Bool) {console s : Bytes} (hsize : console.length = cbsize+1)
    (hstr : cstr console = some s) (hnew : newline ∉ s) (hlen : ch.limit < s.length) :
    getUserInput ch interrupted console cmd = none := by
  rw [getUserInput_eq ch interrupted console cmd hstr]
  by_cases hlast : s.length ≤ cbsize-1
  · -- only the copy into the command is too long
    have hps : ch.ps1 = true := by
      by_contra h
      rw [Choice.limit, if_neg h] at hlen
      omega
    rw [Choice.limit, if_pos hps] at hlen
    obtain ⟨rest, hended, -⟩ := (ended hsize hstr).1 hlast
    obtain ⟨-, -, hs0⟩ := cstr_split hstr
    have hline : cstr (s ++ newline::0::rest) = some (s ++ [newline]) := by
      rw [show s ++ newline::0::rest = (s ++ [newline]) ++ 0::rest by simp]
      exact cstr_of _ rest (by simpa [newline] using hs0)
    have hhead : (s ++ [newline]).head? ≠ some newline := by
      cases s with
      | nil => exact absurd hlen (Nat.not_lt_zero _)
      | cons c s =>
        intro h
        exact hnew (List.mem_cons.mpr (Or.inl (Option.some.inj h).symm))
    rw [hended]
    simp only [Option.bind_eq_bind, Option.bind_some, hline]
    rw [if_pos hps, takeFirst_long hs.size hhead]
    · rfl
    · rw [List.length_append, List.length_singleton]
      unfold cbsize at hlen ⊢
      omega
  · rw [(ended hsize hstr).2 (by omega)]
    rfl

/-! ## No newline is typed -/

def Clean (line : Bytes) : Prop := newline ∉ line

instance (line : Bytes) : Decidable (Clean line) := inferInstanceAs (Decidable (¬_))

structure Editor.Clean (e : Editor) : Prop where
  before : Readline.Clean e.before
  after : Readline.Clean e.after

theorem clean_append {xs ys : Bytes} (hx : Clean xs) (hy : Clean ys) : Clean (xs ++ ys) := by
  intro h
  rcases List.mem_append.mp h with h | h
  · exact hx h
  · exact hy h

theorem clean_of_subset {xs ys : Bytes} (hy : Clean ys) (h : xs ⊆ ys) : Clean xs :=
  fun hmem => hy (h hmem)

theorem put_clean {len : ℕ} {e : Editor} (h : e.Clean) {c : UInt8} (hc : c ≠ newline) :
    (e.put len c).Clean := by
  have hadd : Clean (e.before ++ [c]) := by
    refine clean_append h.before (fun hmem => hc ?_)
    exact (List.mem_singleton.mp hmem).symm
  unfold Editor.put
  split_ifs
  · exact h
  · exact ⟨hadd, h.after⟩
  · exact ⟨hadd, clean_of_subset h.after (List.tail_subset _)⟩

theorem puts_clean {len : ℕ} {e : Editor} (h : e.Clean) {str : Bytes} (hs : Clean str) :
    (str.foldl (Editor.put len) e).Clean := by
  induction str generalizing e with
  | nil => exact h
  | cons c str ih =>
    have hc : c ≠ newline := fun heq => hs (heq ▸ List.mem_cons_self)
    exact ih (put_clean h hc) (clean_of_subset hs (List.subset_cons_self _ _))

theorem clean_nil : Clean [] := List.not_mem_nil

theorem show_clean {e : Editor} (h : e.Clean) {line : Option Bytes} (hl : ∀ s ∈ line, Clean s) :
    (e.show line).Clean := by
  cases line with
  | none => exact h
  | some s => exact ⟨hl s rfl, clean_nil⟩

/-- The text that a key leaves, or the line that it ends. -/
def Result.Clean : Result → Prop
  | .more e _ => e.Clean
  | .entered line _ => Readline.Clean line ∧ line.length ≤ cbsize
  | .broken _ => True

def Result.hist : Result → History
  | .more _ h => h
  | .entered _ h => h
  | .broken h => h

theorem perform_clean {e : Editor} (h : e.Clean) (hlen : e.text.length ≤ cbsize) {hist : History}
    (hh : hist.All Clean) (a : Action) (ha : ∀ str, a = .put str → Clean str) :
    (perform cbsize e hist a).Clean := by
  have htext : Clean e.text := clean_append h.before h.after
  cases a with
  | put str => exact puts_clean h (ha str rfl)
  | home => exact ⟨clean_nil, htext⟩
  | left =>
    refine ⟨clean_of_subset h.before (List.dropLast_subset _), clean_append ?_ h.after⟩
    refine clean_of_subset h.before (fun c hc => ?_)
    exact List.mem_of_getLast? (Option.mem_toList.mp hc)
  | right =>
    refine ⟨clean_append h.before ?_, clean_of_subset h.after (List.tail_subset _)⟩
    refine clean_of_subset h.after (fun c hc => ?_)
    exact List.mem_of_head? (Option.mem_toList.mp hc)
  | toEnd => exact ⟨htext, clean_nil⟩
  | delete => exact ⟨h.before, clean_of_subset h.after (List.tail_subset _)⟩
  | backspace => exact ⟨clean_of_subset h.before (List.dropLast_subset _), h.after⟩
  | killEnd => exact ⟨h.before, clean_nil⟩
  | killLine => exact ⟨clean_nil, clean_nil⟩
  | toggle => exact ⟨h.before, h.after⟩
  | prev => exact show_clean h (histPrev_all clean_nil hh).2
  | next => exact show_clean h (histNext_all clean_nil hh).2
  | abort => trivial
  | enter => exact ⟨htext, hlen⟩
  | wait => exact ⟨h.before, h.after⟩

theorem perform_hist {P : Bytes → Prop} (hnil : P []) {e : Editor} {hist : History}
    (hh : hist.All P) (hlen : e.text.length ≤ cbsize) (htext : P (e.text.takeWhile (· ≠ 0)))
    (a : Action) : (perform cbsize e hist a).hist.All P := by
  cases a with
  | prev => exact (histPrev_all hnil hh).1
  | next => exact (histNext_all hnil hh).1
  | enter => exact remember_all hh htext hlen
  | _ => exact hh

theorem ite_put {p : Prop} [Decidable p] {a b : Action} {str : Bytes} (ha : ∀ s, a ≠ .put s)
    (h : (if p then a else b) = .put str) : b = .put str := by
  by_cases hp : p
  · rw [if_pos hp] at h
    exact absurd h (ha str)
  · rw [if_neg hp] at h
    exact h

theorem plainKey_put {c : UInt8} {str : Bytes} (h : plainKey c = .put str) : str = [c] := by
  unfold plainKey at h
  iterate 12 replace h := ite_put (fun _ => Action.noConfusion) h
  exact (Action.put.inj h).symm

theorem arrow_clean {c d : UInt8} (h : arrow c = some d) : Clean [d] := by
  unfold arrow at h
  split_ifs at h <;> cases h <;> decide

theorem decode_put {e e' : Escape} {c : UInt8} {str : Bytes} (h : decode e c = (e', .put str)) :
    Clean str := by
  rw [decode.eq_def] at h
  by_cases hend : c = 10 ∨ c = 13
  · rw [if_pos hend] at h
    cases h
  rw [if_neg hend] at h
  have hc : c ≠ newline := fun heq => hend (Or.inl heq)
  have hclean : Clean [c] := fun hmem => hc (List.mem_singleton.mp hmem).symm
  cases e with
  | idle =>
    dsimp only at h
    by_cases h27 : c = 27
    · rw [if_pos h27] at h
      cases h
    · rw [if_neg h27] at h
      rw [plainKey_put (congrArg Prod.snd h)]
      exact hclean
  | escape =>
    dsimp only at h
    by_cases h91 : c = 91
    · rw [if_pos h91] at h
      cases h
    · rw [if_neg h91] at h
      cases h
      decide
  | bracket =>
    have hkey : bracketKey c = .put str := congrArg Prod.snd h
    rw [arrow_bracketKey] at hkey
    cases ha : arrow c with
    | none =>
      rw [ha] at hkey
      rw [← Action.put.inj hkey]
      exact clean_append (by decide : Clean [27, 91]) hclean
    | some d =>
      rw [ha] at hkey
      rw [plainKey_put hkey]
      exact arrow_clean ha

/-! ## Every session -/

/-- The code and the reference after the same keys. -/
structure InStep (s : Session) (d : Desk) : Prop where
  line : Mirrors cbsize s.line d.editor
  hist : s.hist = d.hist
  returned : s.returned = d.returned
  fits : d.hist.All (Fits cbsize)
  clean : d.editor.Clean
  cleanHist : d.hist.All Clean
  command : s.command.Sound s.returned.length

def AllFit (shell : ℕ → Choice) (lines : List Bytes) : Prop :=
  ∀ k line, lines[k]? = some line → seen line ≤ (shell k).limit

theorem allFit_append (shell : ℕ → Choice) (lines : List Bytes) (line : Bytes) :
    AllFit shell (lines ++ [line]) ↔ AllFit shell lines ∧ seen line ≤ (shell lines.length).limit := by
  constructor
  · intro h
    refine ⟨fun k l hk => h k l ?_, h lines.length line (by simp)⟩
    rw [List.getElem?_append_left (List.getElem?_eq_some_iff.mp hk).1]
    exact hk
  · rintro ⟨hall, hlast⟩ k l hk
    rcases Nat.lt_or_ge k lines.length with hlt | hge
    · rw [List.getElem?_append_left hlt] at hk
      exact hall k l hk
    · rw [List.getElem?_append_right hge, List.getElem?_singleton] at hk
      split_ifs at hk with hzero
      rw [show k = lines.length by omega, ← Option.some.inj hk]
      exact hlast

theorem prompt_inStep {console : Bytes} (hsize : console.length = cbsize+1) {h : History}
    (hf : h.All (Fits cbsize)) (hc : h.All Clean) {cmd : Command} {returned : List Bytes}
    (hcmd : cmd.Sound returned.length) :
    ∃ s, prompt console h cmd returned = some s ∧ InStep s ⟨.blank, h, returned⟩ := by
  cases console with
  | nil => cases hsize
  | cons b rest =>
    have hlen : (0::rest : Bytes).length = cbsize+1 := hsize
    have hstart : creadStart cbsize (0::rest) =
        some ⟨0::rest, 0, 0, true, 0, List.replicate 8 0⟩ := by
      unfold creadStart
      rw [show cstr (0::rest) = some [] from cstr_of [] rest (by simp)]
      rfl
    have hstore : store (b::rest) 0 0 = some (0::rest) := rfl
    refine ⟨⟨⟨0::rest, 0, 0, true, 0, List.replicate 8 0⟩, h, cmd, returned⟩, ?_, ?_⟩
    · unfold prompt
      rw [hstore]
      simp only [Option.bind_eq_bind, Option.bind_some, hstart]
      rfl
    · refine ⟨⟨⟨0::rest, rfl⟩, hlen, rfl, rfl, Nat.zero_le _, rfl, rfl, rfl⟩, rfl, rfl, hf, ?_, hc, hcmd⟩
      exact ⟨clean_nil, clean_nil⟩

theorem powerOn_inStep : ∃ s, powerOn = some s ∧ InStep s .start := by
  have hnil : ∀ P : Bytes → Prop, P [] → histInit.All P := by
    intro P hP line hline
    rw [List.eq_of_mem_replicate hline]
    exact hP
  refine prompt_inStep ?_ (hnil _ (fits_nil _)) (hnil _ clean_nil) ⟨?_, [], List.replicate 1023 0, ?_, ?_, ?_⟩
  · exact List.length_replicate
  · exact List.length_replicate
  · rfl
  · exact List.not_mem_nil
  · exact fun _ => ⟨rfl, rfl⟩

/-- Asking for the next line after one that is handed on. -/
theorem next_prompt {ch : Choice} {cmd : Command} {returned : List Bytes} {line buf : Bytes}
    {h : History} (interrupted : Bool) (hcmd : cmd.Sound returned.length)
    (hfirst : returned.length = 0 → ch.ps1 = true) (hsize : buf.length = cbsize+1)
    (hstr : cstr buf = some (line.takeWhile (· ≠ 0))) (hclean : Clean line)
    (hf : h.All (Fits cbsize)) (hc : h.All Clean) :
    (seen line ≤ ch.limit → ∃ s, (getUserInput ch interrupted buf cmd >>= fun r =>
      prompt r.1 h r.2 (returned ++ [line])) = some s ∧ InStep s ⟨.blank, h, returned ++ [line]⟩) ∧
    (¬seen line ≤ ch.limit → (getUserInput ch interrupted buf cmd >>= fun r =>
      prompt r.1 h r.2 (returned ++ [line])) = none) := by
  constructor
  · intro hfit
    obtain ⟨r, hr, hrsize, hrcmd⟩ := getUserInput_sound hcmd hfirst interrupted hsize hstr hfit
    rw [hr]
    refine prompt_inStep hrsize hf hc ?_
    rw [List.length_append]
    exact hrcmd
  · intro hfit
    have hnew : newline ∉ line.takeWhile (· ≠ 0) :=
      clean_of_subset hclean (List.takeWhile_subset _)
    rw [getUserInput_long hcmd interrupted hsize hstr hnew (Nat.lt_of_not_le hfit)]
    rfl

theorem press_inStep (shell : ℕ → Choice) (hfirst : (shell 0).ps1 = true) {s : Session} {d : Desk}
    (h : InStep s d) (hall : AllFit shell d.returned) (c : UInt8) (h9 : c ≠ 9) :
    (AllFit shell (d.type c).returned →
      ∃ s', press shell s c = some s' ∧ InStep s' (d.type c)) ∧
    (¬AllFit shell (d.type c).returned → press shell s c = none) := by
  obtain ⟨o, ho, hagree⟩ := key_agree h.line h.fits c h9
  have hlen : d.editor.text.length ≤ cbsize := by
    rw [Editor.text, List.length_append, ← h.line.eolNum]
    exact h.line.room
  have htext : Clean (d.editor.text.takeWhile (· ≠ 0)) :=
    clean_of_subset (clean_append h.clean.before h.clean.after) (List.takeWhile_subset _)
  have hclean : (typed cbsize d.editor d.hist c).Clean :=
    perform_clean (e := { d.editor with escape := (decode d.editor.escape c).1 })
      ⟨h.clean.before, h.clean.after⟩ hlen h.cleanHist _ (fun str hstr => decode_put (Prod.ext rfl hstr))
  have hfits' : (typed cbsize d.editor d.hist c).hist.All (Fits cbsize) :=
    perform_hist (e := { d.editor with escape := (decode d.editor.escape c).1 }) (fits_nil _) h.fits
      hlen (fits_takeWhile hlen) _
  have hclean' : (typed cbsize d.editor d.hist c).hist.All Clean :=
    perform_hist (e := { d.editor with escape := (decode d.editor.escape c).1 }) clean_nil h.cleanHist
      hlen htext _
  have hps : s.returned.length = 0 → (shell s.returned.length).ps1 = true := by
    intro hzero
    rw [hzero]
    exact hfirst
  unfold press Desk.type
  rw [h.hist, ho]
  simp only [Option.bind_eq_bind, Option.bind_some]
  cases hr : typed cbsize d.editor d.hist c with
  | more e h' =>
    rw [hr] at hagree hclean hfits' hclean'
    cases o with
    | more l h'' =>
      refine ⟨fun _ => ⟨_, rfl, ?_⟩, fun hnot => absurd hall hnot⟩
      exact ⟨hagree.1, hagree.2, h.returned, hfits', hclean, hclean', h.command⟩
    | entered line buf h'' => exact hagree.elim
    | broken buf h'' => exact hagree.elim
  | entered line h' =>
    rw [hr] at hagree hclean hfits' hclean'
    cases o with
    | more l h'' => exact hagree.elim
    | entered line' buf h'' =>
      obtain ⟨rfl, rfl, hsize, hstr⟩ := hagree
      have hnext := next_prompt false h.command hps hsize hstr hclean.1 hfits' hclean'
      rw [h.returned] at hnext ⊢
      constructor
      · exact fun hfit => hnext.1 ((allFit_append _ _ _).mp hfit).2
      · exact fun hfit => hnext.2 (fun hle => hfit ((allFit_append _ _ _).mpr ⟨hall, hle⟩))
    | broken buf h'' => exact hagree.elim
  | broken h' =>
    rw [hr] at hagree hfits' hclean'
    cases o with
    | more l h'' => exact hagree.elim
    | entered line buf h'' => exact hagree.elim
    | broken buf h'' =>
      obtain ⟨rfl, hsize, hstr⟩ := hagree
      have hempty : cstr buf = some (([] : Bytes).takeWhile (· ≠ 0)) := hstr
      have hnext := next_prompt true h.command hps hsize hempty clean_nil hfits' hclean'
      rw [h.returned] at hnext ⊢
      constructor
      · exact fun hfit => hnext.1 ((allFit_append _ _ _).mp hfit).2
      · exact fun hfit => hnext.2 (fun hle => hfit ((allFit_append _ _ _).mpr ⟨hall, hle⟩))

theorem type_returned (d : Desk) (c : UInt8) : d.returned <+: (d.type c).returned := by
  unfold Desk.type
  cases typed cbsize d.editor d.hist c with
  | more e h => exact List.prefix_rfl
  | entered line h => exact List.prefix_append _ _
  | broken h => exact List.prefix_append _ _

theorem allFit_initial {shell : ℕ → Choice} {xs ys : List Bytes} (h : AllFit shell ys) (hp : xs <+: ys) :
    AllFit shell xs := by
  intro k line hk
  obtain ⟨t, rfl⟩ := hp
  refine h k line ?_
  rw [List.getElem?_append_left (List.getElem?_eq_some_iff.mp hk).1]
  exact hk

/-- By induction on the keys, the last one first. -/
theorem session_inStep (shell : ℕ → Choice) (hfirst : (shell 0).ps1 = true) (keys : Bytes)
    (h9 : (9 : UInt8) ∉ keys) :
    (AllFit shell (desk keys).returned → ∃ s, session shell keys = some s ∧ InStep s (desk keys)) ∧
    (¬AllFit shell (desk keys).returned → session shell keys = none) := by
  induction keys using List.reverseRecOn with
  | nil =>
    obtain ⟨s, hs, hstep⟩ := powerOn_inStep
    have hsession : session shell [] = some s := by
      unfold session
      rw [hs]
      rfl
    refine ⟨fun _ => ⟨s, hsession, hstep⟩, fun hnot => absurd (fun k line hk => ?_) hnot⟩
    cases hk
  | append_singleton keys c ih =>
    rw [List.mem_append, not_or, List.mem_singleton] at h9
    have hdesk : desk (keys ++ [c]) = (desk keys).type c := List.foldl_concat ..
    have hsession : session shell (keys ++ [c]) = session shell keys >>= (press shell · c) := by
      unfold session
      cases powerOn with
      | none => rfl
      | some s =>
        simp only [Option.bind_eq_bind, Option.bind_some, List.foldlM_append, List.foldlM_cons,
          List.foldlM_nil]
        cases keys.foldlM (press shell) s with
        | none => rfl
        | some s' =>
          rw [Option.bind_some, Option.bind_some]
          cases press shell s' c with
          | none => rfl
          | some s'' => rfl
    obtain ⟨hok, hbad⟩ := ih h9.1
    rw [hdesk, hsession]
    by_cases hall : AllFit shell (desk keys).returned
    · obtain ⟨s, hs, hstep⟩ := hok hall
      rw [hs]
      exact press_inStep shell hfirst hstep hall c (Ne.symm h9.2)
    · have hlater : ¬AllFit shell ((desk keys).type c).returned :=
        fun h => hall (allFit_initial h (type_returned _ _))
      rw [hbad hall]
      exact ⟨fun h => absurd h hlater, fun _ => rfl⟩

theorem desk_initial {xs ys : Bytes} (h : xs <+: ys) : (desk xs).returned <+: (desk ys).returned := by
  obtain ⟨t, rfl⟩ := h
  induction t using List.reverseRecOn with
  | nil => rw [List.append_nil]
  | append_singleton t c ih =>
    rw [← List.append_assoc, show desk (xs ++ t ++ [c]) = (desk (xs ++ t)).type c from
      List.foldl_concat ..]
    exact ih.trans (type_returned _ _)

/-- After every part of the keys the code is still inside of its buffers, the counters are in
order, and the text and the lines returned are those of the reference. -/
def Edits (shell : ℕ → Choice) (keys : Bytes) : Prop :=
  ∀ part, part <+: keys → ∃ s, session shell part = some s ∧ s.line.num ≤ s.line.eolNum ∧
    s.line.eolNum ≤ cbsize ∧ s.line.buf.length = cbsize+1 ∧
    s.line.buf.take s.line.eolNum = (desk part).editor.text ∧
    s.line.num = (desk part).editor.before.length ∧ s.returned = (desk part).returned

theorem edits_iff (shell : ℕ → Choice) (keys : Bytes) (hfirst : (shell 0).ps1 = true)
    (h9 : (9 : UInt8) ∉ keys) : Edits shell keys ↔ AllFit shell (desk keys).returned := by
  constructor
  · intro h
    by_contra hnot
    obtain ⟨s, hs, -⟩ := h keys List.prefix_rfl
    rw [(session_inStep shell hfirst keys h9).2 hnot] at hs
    cases hs
  · intro h part hpart
    have h9' : (9 : UInt8) ∉ part := fun hmem => h9 (hpart.subset hmem)
    obtain ⟨s, hs, hstep⟩ :=
      (session_inStep shell hfirst part h9').1 (allFit_initial h (desk_initial hpart))
    have hline := hstep.line
    obtain ⟨rest, hbuf⟩ := hline.buf
    refine ⟨s, hs, ?_, hline.room, hline.size, ?_, hline.num, hstep.returned⟩
    · rw [hline.num, hline.eolNum]
      exact Nat.le_add_right _ _
    · rw [hbuf, ← List.append_assoc, hline.eolNum, ← List.length_append]
      exact List.take_left

/-- The keys `a`, `b`, left, `x` and return. -/
theorem edits_short : Edits (fun _ => ⟨true, false, true⟩) [97, 98, 2, 120, 10] := by
  refine (edits_iff _ _ rfl (by decide)).mpr ?_
  have hlines : (desk [97, 98, 2, 120, 10]).returned = [[97, 120, 98]] := by decide
  rw [hlines]
  intro k line hk
  cases k with
  | zero =>
    cases hk
    decide
  | succ k => cases hk

def Printable (c : UInt8) : Prop := 32 ≤ c ∧ c < 127

theorem typed_printable {e : Editor} (he : e.escape = .idle) (hist : History) {c : UInt8}
    (hc : Printable c) : typed cbsize e hist c = .more (e.put cbsize c) hist := by
  obtain ⟨hlow, hhigh⟩ := hc
  have hne : ∀ k : UInt8, k < 32 ∨ 127 ≤ k → c ≠ k := by
    rintro k hk rfl
    rcases hk with hk | hk
    · exact absurd hk (UInt8.not_lt.mpr hlow)
    · exact absurd hhigh (UInt8.not_lt.mpr hk)
  have hkey : decode .idle c = (.idle, .put [c]) := by
    rw [decode.eq_def]
    simp only [plainKey, hne 10 (by decide), hne 13 (by decide), hne 27 (by decide),
      hne 1 (by decide), hne 3 (by decide), hne 6 (by decide), hne 2 (by decide),
      hne 4 (by decide), hne 11 (by decide), hne 5 (by decide), hne 15 (by decide),
      hne 24 (by decide), hne 21 (by decide), hne 255 (by decide), hne 127 (by decide),
      hne 8 (by decide), hne 16 (by decide), hne 14 (by decide), or_self, if_false]
  have hsame : { e with escape := .idle } = e := by rw [← he]
  rw [typed, he, hkey, hsame]
  rfl

/-- Printable characters that fit make up the line. -/
theorem desk_printable (str : Bytes) (hs : ∀ c ∈ str, Printable c) (hlen : str.length ≤ cbsize) :
    desk str = ⟨⟨str, [], true, .idle⟩, histInit, []⟩ := by
  induction str using List.reverseRecOn with
  | nil => rfl
  | append_singleton str c ih =>
    rw [List.length_append, List.length_singleton] at hlen
    have hprev := ih (fun d hd => hs d (List.mem_append_left _ hd)) (by omega)
    rw [show desk (str ++ [c]) = (desk str).type c from List.foldl_concat .., hprev, Desk.type,
      typed_printable rfl _ (hs c (by simp)), Editor.put, if_pos (Or.inl rfl), if_neg]
    simp [Editor.text]
    omega

/-- At the first prompt of a command a line with 1023 characters does not fit any more. -/
theorem long_line_overruns : ¬∀ (shell : ℕ → Choice) (keys : Bytes), (shell 0).ps1 = true →
    (9 : UInt8) ∉ keys → Edits shell keys := by
  intro h
  have hprint : ∀ c ∈ List.replicate 1023 (97 : UInt8), Printable c := by
    intro c hc
    rw [List.eq_of_mem_replicate hc]
    exact ⟨by decide, by decide⟩
  have h9 : (9 : UInt8) ∉ List.replicate 1023 97 ++ [10] := by
    rw [List.mem_append, not_or]
    exact ⟨fun hmem => absurd (List.eq_of_mem_replicate hmem) (by decide), by decide⟩
  have hlen : (List.replicate 1023 (97 : UInt8)).length = 1023 := List.length_replicate
  have hdesk := desk_printable _ hprint (by rw [hlen]; decide)
  have hline : (desk (List.replicate 1023 97 ++ [10])).returned = [List.replicate 1023 97] := by
    rw [show desk (List.replicate 1023 97 ++ [10]) = (desk (List.replicate 1023 97)).type 10 from
      List.foldl_concat .., hdesk]
    exact congrArg (fun l => [l]) (List.append_nil _)
  have hseen : seen (List.replicate 1023 97) = 1023 := by
    rw [seen, List.takeWhile_replicate, if_pos (by decide), hlen]
  obtain ⟨s, hs, -⟩ := h (fun _ => ⟨true, false, true⟩) _ rfl h9 _ List.prefix_rfl
  rw [(session_inStep _ rfl _ h9).2] at hs
  · cases hs
  · rw [hline]
    intro hfit
    have := hfit 0 _ rfl
    rw [hseen] at this
    exact absurd this (by decide)

end UBoot.Readline
