import UBoot.HushFuel
import UBoot.HushParse
import UBoot.HushSteps

/-!
# Scripts of several lines: `run_command` and `run_command_list`

`Lines` is the run of a script as its text describes it: one line after the
other is read and run until the end of the text, an `exit` or a line that is
refused. It keeps the status of the last line that had something to run. What
the two entry points return is compared with it.
-/

set_option autoImplicit false

namespace UBoot.Hush

/-! ## Reading a line -/

theorem charMap_newline (ifs : Text) (plain : Bool) :
    charMap ifs plain '\n' = 0 ∨ charMap ifs plain '\n' = 2 := by
  by_cases h : '\n' ∈ ifs <;> simp [charMap, h, substedVarSymbol]

/-- The text is empty or ends in a newline. -/
def Closed (text : Text) : Prop := text = [] ∨ text.getLast? = some '\n'

theorem Closed.of_suffix {text rest : Text} (h : Closed text) (hs : rest <:+ text) : Closed rest := by
  obtain ⟨pre, rfl⟩ := hs
  by_cases hr : rest = []
  · exact Or.inl hr
  · right
    rcases h with h | h
    · exact absurd (List.append_eq_nil_iff.mp h).2 hr
    · rwa [List.getLast?_append_of_ne_nil _ hr] at h

theorem closed_withNewline (text : Text) : Closed (withNewline text) := by
  right
  unfold withNewline
  split
  next c h =>
    have hc : c = '\n' := by
      have hn := List.head?_dropWhile_not (· ≠ '\n') text
      rw [h] at hn
      simpa using hn
    have ht : text = text.takeWhile (· ≠ '\n') ++ ['\n'] := by
      conv_lhs => rw [← List.takeWhile_append_dropWhile (p := (· ≠ '\n')) (l := text), h, hc]
    rw [ht, List.getLast?_concat]
  next => exact List.getLast?_concat

/-- The word is left as it is or started anew. -/
theorem doneWord_dest (semicolon : Bool) (p : Parse) :
    (doneWord semicolon p).2.dest = p.dest ∨ (doneWord semicolon p).2.dest = p.dest.reset := by
  have harg : p.argument.dest = p.dest.reset := by
    unfold Parse.argument
    split_ifs <;> rfl
  have hres : ∀ q, reservedWord p = some q → q.dest = p.dest.reset := by
    intro q hq
    unfold reservedWord Parse.enterWord at hq
    obtain ⟨r, -, rfl⟩ := Option.map_eq_some_iff.mp hq
    split_ifs
    · rfl
    · rfl
    · rfl
    · rfl
    · split <;> rfl
    · rfl
  unfold doneWord
  split_ifs
  · exact .inl rfl
  · exact .inl rfl
  · split
    next q hq => exact .inr (hres q hq)
    next => exact .inr harg
  · exact .inr harg

theorem doneWord_quote (semicolon : Bool) (p : Parse) :
    (doneWord semicolon p).2.dest.quote = p.dest.quote := by
  rcases doneWord_dest semicolon p with h | h
  · rw [h]
  · rw [h]
    rfl

section Reading
variable {map : Char → ℕ} {semicolon : Bool}

/-- A code of `parse_stream` in front of the end of the text. -/
def Halted (rcode : ℤ) (q : Parse) : Prop := rcode = 1 ∨ rcode = 0 ∧ q.dest.quote = false

theorem parseBlank_stop (p : Parse) (ch : Char) (rest : Text) (r : Result)
    (h : parseBlank semicolon p ch rest = .stop r) :
    ∃ rcode q, r = .done rcode q rest ∧ Halted rcode q := by
  unfold parseBlank at h
  split at h
  next q _ =>
    cases h
    exact ⟨1, q, rfl, Or.inl rfl⟩
  next q _ =>
    dsimp only at h
    split_ifs at h with h1 ht ht
    · cases h
      exact ⟨0, _, rfl, Or.inr ⟨rfl, ht.2.1⟩⟩
    · cases h
      exact ⟨0, _, rfl, Or.inr ⟨rfl, ht.2.1⟩⟩

theorem apply_stop (p : Parse) (ch : Char) (l : Lexed) (r : Result) (hl : l ≠ .behind)
    (h : p.apply semicolon ch l = .stop r) :
    ∃ rcode q, r = .done rcode q l.rest ∧ Halted rcode q := by
  cases l with
  | chars dest vars rest => exact absurd h (by simp [Parse.apply])
  | sep type rest => exact absurd h (by simp [Parse.apply])
  | lone rest =>
    cases h
    exact ⟨1, _, rfl, Or.inl rfl⟩
  | bad dest vars rest =>
    cases h
    exact ⟨1, _, rfl, Or.inl rfl⟩
  | behind => exact absurd rfl hl
  | blank rest => exact parseBlank_stop p ch rest r h

variable (semicolon) in
/-- The parser stays inside of the text and stops at its end or in front of it. -/
theorem parse_inside (hmap : map '\n' = 0 ∨ map '\n' = 2) (text : Text) (h : Closed text)
    (p : Parse) :
    ∃ rcode q rest, parseStream map semicolon p text = .done rcode q rest ∧
      (rcode = -1 ∨ Halted rcode q ∧ rest <:+ text ∧ rest.length < text.length) := by
  induction hn : text.length using Nat.strongRecOn generalizing text p with
  | ind n ih =>
    subst hn
    cases text with
    | nil => exact ⟨-1, p, [], rfl, Or.inl rfl⟩
    | cons ch rest =>
      have hlast : (ch::rest).getLast? = some '\n' := h.resolve_left (by simp)
      have hsuf := lexStep_suffix map p.dest ch rest
      have hcons := hsuf.trans (List.suffix_cons ch rest)
      rw [parseStream_cons, parseStep_lex p ch rest hmap]
      cases hs : p.apply semicolon ch (lexStep map p.dest ch rest) with
      | next q rest' =>
        have hr := apply_rest p q ch _ rest' hs
        rw [← hr] at hsuf hcons
        have hlen : rest'.length < (ch::rest).length := Nat.lt_succ_of_le hsuf.length_le
        obtain ⟨rcode, q', rest2, hp, hin⟩ := ih _ hlen rest' (h.of_suffix hcons) q rfl
        refine ⟨rcode, q', rest2, hp, ?_⟩
        rcases hin with h1 | ⟨h1, h2, h3⟩
        · exact Or.inl h1
        · exact Or.inr ⟨h1, h2.trans hcons, h3.trans hlen⟩
      | stop r =>
        have hin := lexStep_inside map p.dest ch rest hlast hmap
        obtain ⟨rcode, q, rfl, hq⟩ := apply_stop p ch _ r hin hs
        exact ⟨rcode, q, _, rfl, Or.inr ⟨hq, hcons, Nat.lt_succ_of_le hsuf.length_le⟩⟩

end Reading

/-- What is read at once: the list to run, unless the line is refused, and the
text behind the line, unless the end of file was read. `none` when the code reads
behind the text. -/
def readLine (map : Char → ℕ) (text : Text) : Option (Option (List Pipe) × Option Text) :=
  match parseStream map true (startParse false) text with
  | .fault => none
  | .done rcode p rest =>
    some (if rcode ≠ 1 ∧ p.ctx.oldFlag = [] then some (finishList true p) else none,
      if rcode = -1 then none else some rest)

section Lines
variable {σ : Type} (m : Machine σ)

/-- The map of the two entry points. -/
def Shell.lineMap (s : Shell σ) : Char → ℕ := s.charMap m ⟨true, true, false⟩

def Runs (pipes : List Pipe) (s : Shell σ) (x : ℤ × Shell σ) : Prop := ∃ n, runList m n pipes s = .ok x

/-- A list that has nothing to run: no pipe has a command and none stands in a
compound. -/
def idle (pipes : List Pipe) : Prop :=
  ∀ pi ∈ pipes, pi.numProgs = 0 ∧ (pi.rMode = .resNone ∨ pi.rMode = .resSntx)

instance (pipes : List Pipe) : Decidable (idle pipes) := inferInstanceAs (Decidable (∀ _ ∈ _, _))

inductive Ending
  | refused (more : Bool)
  | exited
  | ended (idle : Bool)
  deriving DecidableEq, Repr

/-- The status behind a line; an idle line leaves it. -/
def statusAfter (pipes : List Pipe) (r : ℤ) (status : Option ℤ) : Option ℤ :=
  if idle pipes then status else some r

/-- The run of a script: from the code of the line before, the status of the last
line that had something to run and the state, to these at the end. -/
inductive Lines : Text → ℤ → Option ℤ → Shell σ → ℤ → Option ℤ → Ending → Shell σ → Prop
  | refuse (text : Text) (code : ℤ) (status : Option ℤ) (s : Shell σ) (more : Option Text)
      (h : readLine (s.lineMap m) text = some (none, more)) :
      Lines text code status s code status (.refused more.isSome) s
  | exit (text : Text) (code : ℤ) (status : Option ℤ) (s s' : Shell σ) (pipes : List Pipe)
      (more : Option Text) (h : readLine (s.lineMap m) text = some (some pipes, more))
      (hr : Runs m pipes s (-2, s')) :
      Lines text code status s (-2) (some s'.lastReturnCode) .exited s'
  | last (text : Text) (code r : ℤ) (status : Option ℤ) (s s' : Shell σ) (pipes : List Pipe)
      (h : readLine (s.lineMap m) text = some (some pipes, none)) (hr : Runs m pipes s (r, s'))
      (hx : r ≠ -2) :
      Lines text code status s r (statusAfter pipes r status) (.ended (decide (idle pipes))) s'
  | next (text rest : Text) (code r code' : ℤ) (status status' : Option ℤ) (s s1 s' : Shell σ)
      (pipes : List Pipe) (e : Ending)
      (h : readLine (s.lineMap m) text = some (some pipes, some rest)) (hr : Runs m pipes s (r, s1))
      (hx : r ≠ -2) (ht : Lines rest r (statusAfter pipes r status) s1 code' status' e s') :
      Lines text code status s code' status' e s'

/-! ## The outer loop -/

theorem lineMap_newline (s : Shell σ) : s.lineMap m '\n' = 0 ∨ s.lineMap m '\n' = 2 :=
  charMap_newline _ _

theorem readLine_inside (s : Shell σ) (text : Text) (h : Closed text) :
    ∃ l more, readLine (s.lineMap m) text = some (l, more) ∧
      ∀ rest, more = some rest → rest <:+ text ∧ rest.length < text.length := by
  obtain ⟨rcode, q, rest, hp, hin⟩ :=
    parse_inside true (lineMap_newline m s) text h (startParse false)
  refine ⟨_, _, by rw [readLine, hp], ?_⟩
  intro rest' hr
  rcases hin with h1 | ⟨-, h2⟩
  · rw [if_pos h1] at hr
    exact absurd hr (by simp)
  · by_cases h1 : rcode = -1
    · rw [if_pos h1] at hr
      exact absurd hr (by simp)
    · rw [if_neg h1] at hr
      cases hr
      exact h2

def boolCode (code : ℤ) : ℤ := if code ≠ 0 then 1 else 0

variable {m} {run : List Pipe → Shell σ → Run (ℤ × Shell σ)} {s : Shell σ} {text : Text}

theorem outer_run (exit : Bool) (n : ℕ) (code : ℤ) (hc : Closed text) (pipes : List Pipe)
    (more : Option Text) (h : readLine (s.lineMap m) text = some (some pipes, more)) :
    parseStreamOuter m run ⟨exit, true, false⟩ (n+1) (some text) false code s = (do
      let r ← run pipes s
      if r.1 = -2 then .ok (0, r.2)
      else if more = none ∨ exit then .ok (boolCode r.1, r.2)
      else parseStreamOuter m run ⟨exit, true, false⟩ n more false r.1 r.2) := by
  obtain ⟨rcode, q, rest, hp, hin⟩ :=
    parse_inside true (lineMap_newline m s) text hc (startParse false)
  have hp' : parseStream (s.charMap m ⟨exit, true, false⟩) true (startParse false) text =
      .done rcode q rest := hp
  rw [readLine, hp] at h
  simp only [Option.some.injEq, Prod.mk.injEq] at h
  obtain ⟨h1, h2⟩ := h
  have hok : rcode ≠ 1 ∧ q.ctx.oldFlag = [] := by
    by_contra hno
    rw [if_neg hno] at h1
    exact absurd h1 (by simp)
  rw [if_pos hok, Option.some.injEq] at h1
  rw [parseStreamOuter]
  dsimp only
  rw [hp']
  dsimp only
  rw [if_pos hok, h1, ← h2]
  refine congrArg _ (funext fun r => ?_)
  rcases hin with hend | ⟨hhalt, -⟩
  · simp [hend, boolCode]
  · obtain ⟨h0, hq⟩ := hhalt.resolve_left hok.1
    rw [h0, doneWord_quote, hq]
    simp [boolCode]

theorem outer_refused (exit : Bool) (n : ℕ) (code : ℤ) (more : Option Text)
    (h : readLine (s.lineMap m) text = some (none, more)) :
    parseStreamOuter m run ⟨exit, true, false⟩ (n+1) (some text) false code s =
      if more = none ∨ exit then .ok (boolCode code, s)
      else parseStreamOuter m run ⟨exit, true, false⟩ n none false code s := by
  unfold readLine at h
  split at h
  next => exact absurd h (by simp)
  next rcode q rest hp =>
    have hp' : parseStream (s.charMap m ⟨exit, true, false⟩) true (startParse false) text =
        .done rcode q rest := hp
    simp only [Option.some.injEq, Prod.mk.injEq] at h
    obtain ⟨h1, h2⟩ := h
    have hno : ¬ (rcode ≠ 1 ∧ q.ctx.oldFlag = []) := by
      intro hok
      rw [if_pos hok] at h1
      exact absurd h1 (by simp)
    rw [parseStreamOuter]
    dsimp only
    rw [hp']
    dsimp only
    rw [if_neg hno, ← h2]
    by_cases hend : rcode = -1
    · simp [hend, boolCode]
    · simp [hend, boolCode]

/-! ## Idle lists -/

theorem listStep_idle (f : ℕ → Pipe → Shell σ → Run (ℤ × Shell σ)) (pipes : List Pipe) (i : ℕ)
    (pi : Pipe) (st : Locals) (h : pi.numProgs = 0 ∧ (pi.rMode = .resNone ∨ pi.rMode = .resSntx))
    (hskip : st.skipMore = .resXxxx) (hfwd : st.flagRestore = false) :
    listStep m f pipes i pi st s = .ok (.goOn { st.unskip pi.rMode with pi := some (i+1) }, s) := by
  have hl : looping pi.rMode = false := by rcases h.2 with h | h <;> rw [h] <;> rfl
  have hx : ¬ (pi.rMode = st.skipMore ∧ st.flagSkip = true) := by
    rw [hskip]
    rcases h.2 with h | h <;> simp [h]
  rw [listStep_open (by simp [hl]) hx, Locals.head_still _ _ hl, listStepOpen_run, runBody_empty h.1,
    Locals.atDone_still, Locals.advance_forward i (show (st.unskip pi.rMode).flagRestore = false from hfwd)]
  · rcases h.2 with h | h <;> simp [h]
  · rcases h.2 with h | h <;> simp [h, Locals.passes]
  · rcases h.2 with h | h <;> simp [h]
  · rcases h.2 with h | h <;> simp [h]

theorem listLoop_idle (f : ℕ → Pipe → Shell σ → Run (ℤ × Shell σ)) (pipes ps : List Pipe) (i : ℕ)
    (st : Locals) (h : idle ps) (hd : pipes.drop i = ps) (hi : st.pi = some i)
    (hskip : st.skipMore = .resXxxx) (hfwd : st.flagRestore = false) :
    listLoop m f pipes (ps.length+1) st s = .ok (st.rcode, s) := by
  induction ps generalizing i st with
  | nil => exact listLoop_end _ hi (drop_nil hd)
  | cons pi ps ih =>
    obtain ⟨hpi, hd'⟩ := drop_cons hd
    rw [List.length_cons, listLoop_at _ hi hpi, listStep_idle f pipes i pi st (h pi (by simp)) hskip hfwd]
    exact ih (i+1) _ (fun x hx => h x (by simp [hx])) hd' rfl rfl hfwd

theorem runs_unique (pipes : List Pipe) (x y : ℤ × Shell σ) (hx : Runs m pipes s x)
    (hy : Runs m pipes s y) : x = y := by
  obtain ⟨n, hn⟩ := hx
  obtain ⟨k, hk⟩ := hy
  have h1 := (runList_below n (max n k) (Nat.le_max_left n k) pipes s).ok hn
  have h2 := (runList_below k (max n k) (Nat.le_max_right n k) pipes s).ok hk
  rw [h1] at h2
  exact Except.ok.inj h2

theorem idle_runs (pipes : List Pipe) (h : idle pipes) : Runs m pipes s (0, s) := by
  have hsyn : forSyntax pipes = true := by
    apply forSyntax_noFor
    intro pi hpi
    rcases (h pi hpi).2 with h | h <;> simp [h]
  refine ⟨pipes.length+1, ?_⟩
  rw [runList, runListReal, if_pos hsyn]
  exact listLoop_idle _ pipes pipes 0 Locals.start h rfl rfl rfl rfl

/-! ## What the entry points return -/

/-- What `parse_stream_outer` gives behind a script, the code of its last line
being `code`. A refused line leaves a null pointer to read from. -/
def Ending.result : Ending → ℤ → Shell σ → Run (ℤ × Shell σ)
  | .refused true, _, _ => .error .fault
  | .refused false, code, s => .ok (boolCode code, s)
  | .exited, _, s => .ok (0, s)
  | .ended _, code, s => .ok (boolCode code, s)

theorem Ending.result_ne (e : Ending) (code : ℤ) (s : Shell σ) : e.result code s ≠ .error .fuel := by
  cases e with
  | refused more => cases more <;> simp [Ending.result]
  | exited => simp [Ending.result]
  | ended b => simp [Ending.result]

variable {code code' : ℤ} {status status' : Option ℤ} {e : Ending} {s' : Shell σ}

theorem Lines.outer (h : Lines m text code status s code' status' e s') (hc : Closed text) :
    ∃ n, parseStreamOuter m (runList m n) ⟨false, true, false⟩ n (some text) false code s =
      e.result code' s' := by
  induction h with
  | refuse text code status s more h =>
    refine ⟨2, ?_⟩
    rw [outer_refused false 1 code more h]
    cases more <;> rfl
  | exit text code status s s' pipes more h hr =>
    obtain ⟨n, hn⟩ := hr
    refine ⟨n+1, ?_⟩
    rw [outer_run false n code hc pipes more h, (runList_below n (n+1) (by omega) pipes s).ok hn]
    rfl
  | last text code r status s s' pipes h hr hx =>
    obtain ⟨n, hn⟩ := hr
    refine ⟨n+1, ?_⟩
    rw [outer_run false n code hc pipes none h, (runList_below n (n+1) (by omega) pipes s).ok hn]
    simp [Ending.result, hx, bind, Except.bind]
  | next text rest code r code' status status' s s1 s' pipes e h hr hx _ ih =>
    obtain ⟨l, more, hl, hin⟩ := readLine_inside m s text hc
    rw [h, Option.some.injEq, Prod.mk.injEq] at hl
    obtain ⟨n, hn⟩ := hr
    obtain ⟨k, hk⟩ := ih (hc.of_suffix (hin rest hl.2.symm).1)
    have hrun := (runList_below n (max n k+1) (by omega) pipes s).ok hn
    have hrest := (parseStreamOuter_below (fun l s => runList_below k (max n k+1) (by omega) l s)
      ⟨false, true, false⟩ k (max n k) (by omega) (some rest) false r s1).eq
      (by rw [hk]; exact e.result_ne code' s')
    refine ⟨max n k+1, ?_⟩
    rw [outer_run false _ code hc pipes (some rest) h, hrun]
    simp [hx, bind, Except.bind, hrest, hk]

/-- An idle last line has the code 0; another one has just given the status. -/
theorem Lines.lastCode (h : Lines m text code status s code' status' e s') (b : Bool)
    (he : e = .ended b) : if b then code' = 0 else status' = some code' := by
  induction h with
  | refuse => exact absurd he (by simp)
  | exit => exact absurd he (by simp)
  | last text code r status s s' pipes h hr hx =>
    cases he
    by_cases hi : idle pipes
    · have hr0 := congrArg Prod.fst (runs_unique pipes _ _ hr (idle_runs pipes hi))
      simpa [hi] using hr0
    · simp [hi, statusAfter]
  | next _ _ _ _ _ _ _ _ _ _ _ _ _ _ _ _ ih => exact ih he

variable (m) in
/-- Every line that can be read from a part of the text is run to its end. -/
def LinesTerminate (text : Text) : Prop :=
  ∀ (t : Text) (s : Shell σ) (pipes : List Pipe) (more : Option Text), t <:+ text →
    readLine (s.lineMap m) t = some (some pipes, more) → ∃ x, Runs m pipes s x

theorem lines_end (h : LinesTerminate m text) (hc : Closed text) (code : ℤ) (status : Option ℤ)
    (s : Shell σ) : ∃ code' status' e s', Lines m text code status s code' status' e s' := by
  induction hn : text.length using Nat.strongRecOn generalizing text code status s with
  | ind n ih =>
    subst hn
    obtain ⟨l, more, hl, hin⟩ := readLine_inside m s text hc
    cases l with
    | none => exact ⟨_, _, _, _, .refuse text code status s more hl⟩
    | some pipes =>
      obtain ⟨⟨r, s1⟩, hr⟩ := h text s pipes more List.suffix_rfl hl
      by_cases hx : r = -2
      · subst hx
        exact ⟨_, _, _, _, .exit text code status s s1 pipes more hl hr⟩
      · cases more with
        | none => exact ⟨_, _, _, _, .last text code r status s s1 pipes hl hr hx⟩
        | some rest =>
          obtain ⟨hsuf, hlen⟩ := hin rest rfl
          obtain ⟨code', status', e, s', ht⟩ := ih rest.length hlen
            (fun t s pipes more ht => h t s pipes more (ht.trans hsuf)) (hc.of_suffix hsuf) r
            (statusAfter pipes r status) s1 rfl
          exact ⟨code', status', e, s', .next text rest code r code' status status' s s1 s' pipes e hl hr
            hx ht⟩

/-- What a script should return: 0 exactly when its last command succeeded, and
not 0 when a line was refused. -/
def Reported (e : Ending) (status : Option ℤ) (ret : ℤ) : Prop :=
  match e with
  | .refused _ => ret ≠ 0
  | _ => ∀ r, status = some r → (ret = 0 ↔ r = 0)

/-- No line in front of the end was refused, and a line that is refused at the
end stands behind one that failed; an `exit` is one with 0; and if the last line
is idle, then the last command succeeded. -/
def Kept (code : ℤ) (status : Option ℤ) : Ending → Prop
  | .refused more => more = false ∧ code ≠ 0
  | .exited => ∀ r, status = some r → r = 0
  | .ended b => b = true → ∀ r, status = some r → r = 0

theorem boolCode_eq (code : ℤ) : boolCode code = 0 ↔ code = 0 := by
  by_cases h : code = 0 <;> simp [boolCode, h]

theorem Lines.reported (h : Lines m text code status s code' status' e s') :
    (∃ ret, e.result code' s' = .ok (ret, s') ∧ Reported e status' ret) ↔ Kept code' status' e := by
  cases e with
  | refused more => cases more <;> simp [Ending.result, Reported, Kept, boolCode_eq]
  | exited => simp [Ending.result, Reported, Kept, eq_comm]
  | ended b =>
    have hb := h.lastCode b rfl
    cases b with
    | true =>
      have h0 : code' = 0 := hb
      simp [Ending.result, Reported, Kept, boolCode, h0, eq_comm]
    | false =>
      have hs : status' = some code' := hb
      simp [Ending.result, Reported, Kept, boolCode_eq, hs]

/-! ## `run_command` -/

variable (m) in
/-- The lines of the text are idle. -/
inductive Quiet (s : Shell σ) : Option Text → Prop
  | ended : Quiet s none
  | line (text : Text) (pipes : List Pipe) (more : Option Text)
      (h : readLine (s.lineMap m) text = some (some pipes, more)) (hi : idle pipes)
      (ht : Quiet s more) : Quiet s (some text)

theorem Quiet.lines {more : Option Text} (hq : Quiet m s more)
    (h : Lines m text code status s code' status' e s') (hm : more = some text) :
    s' = s ∧ status' = status ∧ e = .ended true := by
  induction hq generalizing text code status with
  | ended => exact absurd hm (by simp)
  | line t pipes more hl hi _ ih =>
    cases hm
    have hrun : ∀ r s1, Runs m pipes s (r, s1) → r = 0 ∧ s1 = s := by
      intro r s1 hr
      exact Prod.mk.inj (runs_unique pipes _ _ hr (idle_runs pipes hi))
    cases h with
    | refuse _ _ _ _ more' h =>
      rw [hl] at h
      exact absurd h (by simp)
    | exit _ _ _ _ _ pipes' more' h hr =>
      rw [hl] at h
      cases h
      exact absurd (hrun _ _ hr).1 (by simp)
    | last _ _ r _ _ _ pipes' h hr hx =>
      rw [hl] at h
      cases h
      exact ⟨(hrun _ _ hr).2, by simp [statusAfter, hi], by simp [hi]⟩
    | next _ rest _ r _ _ _ _ s1 _ pipes' _ h hr hx ht =>
      rw [hl] at h
      cases h
      obtain ⟨-, rfl⟩ := hrun _ _ hr
      have hrest := ih ht rfl
      rwa [statusAfter, if_pos hi] at hrest

variable (m) in
/-- The first line is not refused and nothing is to be run behind it; if it exits
then with 0. -/
def Single (text : Text) (s : Shell σ) : Prop :=
  ∃ pipes more, readLine (s.lineMap m) text = some (some pipes, more) ∧
    ∀ r s1, Runs m pipes s (r, s1) → if r = -2 then s1.lastReturnCode = 0 else Quiet m s1 more

theorem reported_line (pipes : List Pipe) (r : ℤ) (b : Bool) :
    Reported (.ended b) (statusAfter pipes r none) (boolCode r) := by
  intro r' hr'
  by_cases hi : idle pipes
  · rw [statusAfter, if_pos hi] at hr'
    exact absurd hr' (by simp)
  · rw [statusAfter, if_neg hi, Option.some.injEq] at hr'
    rw [boolCode_eq, hr']

theorem single_reported (h : Lines m text 0 none s code' status' e s') (hc : Closed text)
    (hs : Single m text s) :
    ∃ n ret, parseStreamOuter m (runList m n) ⟨true, true, false⟩ n (some text) false 0 s =
      .ok (ret, s') ∧ Reported e status' ret := by
  obtain ⟨pipes, more, hl, hrun⟩ := hs
  have hfirst : ∀ r s1, Runs m pipes s (r, s1) → ∃ n,
      parseStreamOuter m (runList m n) ⟨true, true, false⟩ n (some text) false 0 s =
        .ok (if r = -2 then 0 else boolCode r, s1) := by
    rintro r s1 ⟨n, hn⟩
    refine ⟨n+1, ?_⟩
    rw [outer_run true n 0 hc pipes more hl, (runList_below n (n+1) (by omega) pipes s).ok hn]
    by_cases hx : r = -2 <;> simp [hx, bind, Except.bind]
  cases h with
  | refuse _ _ _ _ more' h =>
    rw [hl] at h
    exact absurd h (by simp)
  | exit _ _ _ _ _ pipes' more' h hr =>
    rw [hl] at h
    cases h
    obtain ⟨n, hn⟩ := hfirst _ _ hr
    have h0 := hrun _ _ hr
    rw [if_pos rfl] at h0
    exact ⟨n, 0, hn, by simp [Reported, h0, eq_comm]⟩
  | last _ _ r _ _ _ pipes' h hr hx =>
    rw [hl] at h
    cases h
    obtain ⟨n, hn⟩ := hfirst _ _ hr
    rw [if_neg hx] at hn
    exact ⟨n, _, hn, reported_line pipes _ _⟩
  | next _ rest _ r _ _ _ _ s1 _ pipes' _ h hr hx ht =>
    rw [hl] at h
    cases h
    obtain ⟨n, hn⟩ := hfirst _ _ hr
    have hq := hrun _ _ hr
    rw [if_neg hx] at hn hq
    obtain ⟨hs', hst, he⟩ := hq.lines ht rfl
    rw [hs', hst, he]
    exact ⟨n, boolCode r, hn, reported_line pipes r _⟩

/-- The script that the two entry points are given. -/
def scriptOf (cmd : Text) (len : Option ℕ) : Text := len.elim cmd (cmd.take ·)

/-- The text that is read; an empty script is not read at all. -/
def linesText (text : Text) : Text := if text = [] then [] else withNewline text

theorem closed_linesText (text : Text) : Closed (linesText text) := by
  unfold linesText
  split_ifs
  · exact Or.inl rfl
  · exact closed_withNewline text

theorem lines_empty (h : Lines m [] 0 none s code' status' e s') :
    s' = s ∧ status' = none ∧ e = .ended true := by
  have hq : Quiet m s (some []) :=
    .line [] (finishList true (startParse false)) none rfl (by decide) .ended
  exact hq.lines h rfl

theorem reported_list (cmd : Text) (len : Option ℕ)
    (h : Lines m (linesText (scriptOf cmd len)) 0 none s code' status' e s') :
    (∃ n ret, runCommandList m n cmd len s = .ok (ret, s') ∧ Reported e status' ret) ↔
      Kept code' status' e := by
  by_cases hne : scriptOf cmd len = []
  · have hrun : ∀ n, runCommandList m n cmd len s = .ok (1, s) := by
      intro n
      rw [runCommandList, parseStringOuter]
      exact if_pos hne
    rw [linesText, if_pos hne] at h
    obtain ⟨rfl, rfl, rfl⟩ := lines_empty h
    simp [hrun, Reported, Kept]
  · rw [linesText, if_neg hne] at h
    have hrun : ∀ n, runCommandList m n cmd len s = parseStreamOuter m (runList m n)
        ⟨false, true, false⟩ n (some (withNewline (scriptOf cmd len))) false 0 s := by
      intro n
      rw [runCommandList, parseStringOuter]
      exact if_neg hne
    obtain ⟨n, hn⟩ := h.outer (closed_withNewline _)
    rw [← h.reported]
    constructor
    · rintro ⟨k, ret, hk, hrep⟩
      -- more rounds change neither result
      rw [hrun] at hk
      have h1 := (parseStreamOuter_below (fun l s => runList_below k (max n k) (by omega) l s)
        ⟨false, true, false⟩ k (max n k) (by omega) (some (withNewline (scriptOf cmd len))) false 0 s).ok hk
      have h2 := (parseStreamOuter_below (fun l s => runList_below n (max n k) (by omega) l s)
        ⟨false, true, false⟩ n (max n k) (by omega) (some (withNewline (scriptOf cmd len))) false 0 s).eq
        (by rw [hn]; exact e.result_ne code' s')
      exact ⟨ret, by rw [← hn, ← h2, h1], hrep⟩
    · rintro ⟨ret, hret, hrep⟩
      exact ⟨n, ret, by rw [hrun, hn, hret], hrep⟩

theorem reported_command (text : Text) (h : Lines m (linesText text) 0 none s code' status' e s')
    (hs : Single m (linesText text) s) :
    ∃ n ret, runCommand m n text s = .ok (ret, s') ∧ Reported e status' ret := by
  by_cases hne : text = []
  · rw [linesText, if_pos hne] at h
    obtain ⟨rfl, rfl, rfl⟩ := lines_empty h
    refine ⟨0, 1, ?_, by simp [Reported]⟩
    rw [runCommand, parseStringOuter]
    exact if_pos hne
  · rw [linesText, if_neg hne] at h hs
    obtain ⟨n, ret, hn, hrep⟩ := single_reported h (closed_withNewline _) hs
    refine ⟨n, ret, ?_, hrep⟩
    rw [runCommand, parseStringOuter]
    exact (if_neg hne).trans hn

theorem lineMap_std (s : Shell σ) (h : m.getenv s.world "IFS".toList = none) :
    s.lineMap m = stdMap := by
  rw [Shell.lineMap, Shell.charMap, h]
  simp [stdMap]

end Lines

/-- The list of the line `a`. -/
def lineA : List Pipe :=
  [⟨[['a']], [], 0, .pipeSeq, .resNone⟩, ⟨[], [], 0, .pipeSeq, .resNone⟩, newPipe]

theorem read_lineA : readLine stdMap ['a', '\n'] = some (some lineA, some []) := rfl

theorem lineA_runs (s : Shell Unit) :
    Runs failing lineA s (1, { s with lastReturnCode := 1, ran := s.ran ++ [[['a']]] }) :=
  ⟨9, rfl⟩

theorem lineA_terminates : LinesTerminate failing (linesText ['a']) := by
  intro t s pipes more ht hl
  rw [lineMap_std s rfl] at hl
  have hc : t = ['a', '\n'] ∨ t = ['\n'] ∨ t = [] := by
    rcases List.suffix_cons_iff.mp ht with h | h
    · exact Or.inl h
    · rcases List.suffix_cons_iff.mp h with h | h
      · exact Or.inr (Or.inl h)
      · exact Or.inr (Or.inr (List.suffix_nil.mp h))
  rcases hc with rfl | rfl | rfl
  · rw [read_lineA] at hl
    cases hl
    exact ⟨_, lineA_runs s⟩
  · cases hl
    exact ⟨_, idle_runs _ (by decide)⟩
  · cases hl
    exact ⟨_, idle_runs _ (by decide)⟩

end UBoot.Hush
