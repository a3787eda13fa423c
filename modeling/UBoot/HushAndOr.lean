import UBoot.HushParse
import UBoot.HushSteps

/-!
# And-or lists

Commands are known by their place in the line and the code they return there; a
code below -1 is that of `exit`. `shellRuns` is the left associative meaning of a
line, `executed` what the two skip flags of `run_list_real` amount to: a command
that decides its operator against the next one takes all of the list up to the
next `;` with it. The two agree as long as no operator of the other kind stands
in the part that is passed over.
-/

set_option autoImplicit false

namespace UBoot.Hush

inductive Op | opAnd | opOr | opSeq
  deriving DecidableEq, Repr

def Op.text : Op → Text
  | .opAnd => " && ".toList
  | .opOr => " || ".toList
  | .opSeq => "; ".toList

def Op.style : Op → PipeStyle
  | .opAnd => .pipeAnd
  | .opOr => .pipeOr
  | .opSeq => .pipeSeq

/-- The command behind the operator runs after this status. -/
def Op.passes : Op → ℤ → Bool
  | .opAnd, status => status = 0
  | .opOr, status => status ≠ 0
  | .opSeq, _ => true

structure AndOr where
  first : Command
  rest : List (Op × Command)

def lineText (c : Command) : List (Op × Command) → Text
  | [] => c.text ++ ['\n']
  | (op, d)::rest => c.text ++ op.text ++ lineText d rest

def AndOr.text (l : AndOr) : Text := lineText l.first l.rest

def AndOr.ops (l : AndOr) : List Op := l.rest.map Prod.fst

/-! ## Meaning -/

/-- The places of the commands that run, from the command at `i` on, which
stands behind `op` with the status so far. -/
def shellRuns (code : ℕ → ℤ) : ℕ → Op → ℤ → List Op → List ℕ
  | i, op, status, [] => if op.passes status then [i] else []
  | i, op, status, next::ops =>
    if op.passes status then
      i::(if code i < -1 then [] else shellRuns code (i+1) next (code i) ops)
    else shellRuns code (i+1) next status ops

/-- The same for the skip flags; `some op` while commands are passed over because
of `op`. -/
def executed (code : ℕ → ℤ) : ℕ → Option Op → List Op → List ℕ
  | i, none, [] => [i]
  | i, none, op::ops =>
    i::(if code i < -1 then []
      else executed code (i+1) (if op.passes (code i) then none else some op) ops)
  | _, some _, [] => []
  | i, some k, op::ops => executed code (i+1) (if op = .opSeq then none else some k) ops

/-- While commands are passed over because of an operator, only that operator
stands between them up to the next `;`. -/
def Unmixed (code : ℕ → ℤ) : ℕ → Option Op → List Op → Prop
  | _, _, [] => True
  | i, none, op::ops =>
    code i < -1 ∨ Unmixed code (i+1) (if op.passes (code i) then none else some op) ops
  | i, some k, op::ops =>
    (op = .opSeq ∨ op = k) ∧ Unmixed code (i+1) (if op = .opSeq then none else some k) ops

theorem executed_later (code : ℕ → ℤ) (ops : List Op) (i j : ℕ) (k : Option Op)
    (h : j ∈ executed code i k ops) : i ≤ j ∧ (k ≠ none → i < j) := by
  induction ops generalizing i k with
  | nil =>
    cases k with
    | none =>
      rw [executed, List.mem_singleton] at h
      exact ⟨Nat.le_of_eq h.symm, fun hk => absurd rfl hk⟩
    | some op => simp [executed] at h
  | cons op ops ih =>
    cases k with
    | none =>
      rw [executed, List.mem_cons] at h
      refine ⟨?_, fun hk => absurd rfl hk⟩
      rcases h with h | h
      · exact Nat.le_of_eq h.symm
      · split_ifs at h with hc
        · exact absurd h (by simp)
        · exact Nat.le_of_succ_le (ih _ _ h).1
        · exact Nat.le_of_succ_le (ih _ _ h).1
    | some k =>
      rw [executed] at h
      have hl := (ih _ _ h).1
      exact ⟨Nat.le_of_succ_le hl, fun _ => hl⟩

/-- Running, or passed over because of the operator in front. -/
def Agree (k : Option Op) (op : Op) (status : ℤ) : Prop :=
  match k with
  | none => op.passes status = true
  | some k => op = k ∧ op.passes status = false

theorem executed_iff (code : ℕ → ℤ) (ops : List Op) (i : ℕ) (k : Option Op) (op : Op) (status : ℤ)
    (h : Agree k op status) :
    executed code i k ops = shellRuns code i op status ops ↔ Unmixed code i k ops := by
  induction ops generalizing i k op status with
  | nil =>
    cases k with
    | none => simp [executed, shellRuns, Unmixed, show op.passes status = true from h]
    | some k => simp [executed, shellRuns, Unmixed, h.2]
  | cons next ops ih =>
    cases k with
    | none =>
      have hp : op.passes status = true := h
      rw [executed, shellRuns, if_pos hp, Unmixed, List.cons.injEq]
      by_cases hc : code i < -1
      · simp [hc]
      · have hk : Agree (if next.passes (code i) then none else some next) next (code i) := by
          by_cases hn : next.passes (code i) = true
          · rw [if_pos hn]
            exact hn
          · rw [if_neg hn]
            exact ⟨rfl, by simpa using hn⟩
        simp only [hc, if_false, true_and, false_or]
        exact ih (i+1) _ next (code i) hk
    | some k =>
      obtain ⟨rfl, hp⟩ := h
      have hpass : shellRuns code i op status (next::ops) = shellRuns code (i+1) next status ops := by
        simp [shellRuns, hp]
      rw [executed, hpass, Unmixed]
      by_cases hs : next = .opSeq
      · rw [if_pos hs]
        subst hs
        simp only [true_or, true_and]
        exact ih (i+1) none .opSeq status rfl
      · rw [if_neg hs]
        by_cases hk : next = op
        · subst hk
          simp only [or_true, true_and]
          exact ih (i+1) (some next) next status ⟨rfl, hp⟩
        · -- the other operator lets the next command of the shell run
          have hn : next.passes status = true := by
            cases op <;> cases next <;> simp_all [Op.passes]
          simp only [hs, hk, or_self, false_and, iff_false]
          intro he
          have hm : i+1 ∈ shellRuns code (i+1) next status ops := by
            cases ops <;> simp [shellRuns, hn]
          rw [← he] at hm
          exact absurd ((executed_later code ops (i+1) (i+1) (some op) hm).2 (by simp)) (by omega)

/-! ## The pipe list -/

def pipesFrom (c : Command) : List (Op × Command) → List Pipe
  | [] => [c.pipe .pipeSeq .resNone]
  | (op, d)::rest => c.pipe op.style .resNone::pipesFrom d rest

/-- A context at the start of a command, outside of every compound. -/
def topLevel (pipes : List Pipe) : Parse := ⟨⟨[], false, false⟩, ⟨pipes, ⟨[], [], 0⟩, .resNone, []⟩, []⟩

theorem op_parsed (op : Op) (c : Command) (pipes : List Pipe) (rest : Text) :
    parseStream stdMap true (topLevel pipes) (c.text ++ op.text ++ rest) =
      parseStream stdMap true (topLevel (pipes ++ [c.pipe op.style .resNone])) rest := by
  have hc := command_ends true (topLevel pipes) c (by simp [topLevel])
  have hspace : ∀ qs, parseStream stdMap true (topLevel qs) (' '::rest) =
      parseStream stdMap true (topLevel qs) rest :=
    fun qs => parse_space _ _ rest rfl (doneWord_empty (topLevel qs) [] 0)
  cases op with
  | opAnd =>
    have h := hc.space ('&' :: '&' :: ' ' :: rest)
    rw [parse_and _ _ rfl, doneWord_empty] at h
    rw [List.append_assoc]
    exact h.trans (hspace _)
  | opOr =>
    have h := hc.space ('|' :: '|' :: ' '::rest)
    rw [parse_or _ _ rfl, doneWord_empty] at h
    rw [List.append_assoc]
    exact h.trans (hspace _)
  | opSeq =>
    have h := hc.semi (' '::rest)
    rw [List.append_assoc]
    exact h.trans (hspace _)

theorem line_parsed (rest : List (Op × Command)) (c : Command) (pipes : List Pipe) :
    parseStream stdMap true (topLevel pipes) (lineText c rest) =
      .done 0 (topLevel (pipes ++ pipesFrom c rest)) [] := by
  induction rest generalizing c pipes with
  | nil =>
    exact (command_ends true (topLevel pipes) c (by simp [topLevel])).newline rfl rfl []
  | cons x rest ih =>
    obtain ⟨op, d⟩ := x
    rw [lineText, op_parsed, ih d, pipesFrom, List.append_assoc, List.singleton_append]

/-! ## The run -/

section Run
variable {σ : Type} {m : Machine σ} {runPipe : ℕ → Pipe → Shell σ → Run (ℤ × Shell σ)}
variable {pipes : List Pipe} {i : ℕ} {pi : Pipe} {st : Locals} {s : Shell σ}

/-- The walk stands at `i`; with `some op` it passes over. -/
structure At (st : Locals) (i : ℕ) (k : Option Op) : Prop where
  place : st.pi = some i
  forward : st.flagRestore = false
  skipping : k ≠ none ↔ st.skipMore = .resNone ∧ st.flagSkip = true

theorem step_skip (m : Machine σ) (runPipe : ℕ → Pipe → Shell σ → Run (ℤ × Shell σ))
    (pipes : List Pipe) (pi : Pipe) (s : Shell σ) (k : Op) (hm : pi.rMode = .resNone) (h : At st i (some k)) :
    ∃ st', listStep m runPipe pipes i pi st s = .ok (.goOn st', s) ∧
      At st' (i+1) (if pi.followup = .pipeSeq then none else some k) := by
  obtain ⟨hskip, hflag⟩ := h.skipping.mp (by simp)
  refine ⟨(st.skip pi.followup).advance i, ?_, ?_⟩
  · exact listStep_skip (by rw [hm]; rfl) ⟨by rw [hm, hskip], hflag⟩
  · refine ⟨by simp [Locals.advance, Locals.skip, h.forward], h.forward, ?_⟩
    by_cases hf : pi.followup = .pipeSeq <;> simp [Locals.advance, Locals.skip, hf, hskip, hflag]

theorem listStep_run (hm : pi.rMode = .resNone) (h : At st i none) :
    listStep m runPipe pipes i pi st s = runBody runPipe i pi (st.unskip .resNone) s := by
  have hs : ¬ (pi.rMode = st.skipMore ∧ st.flagSkip = true) := by
    rintro ⟨h1, h2⟩
    exact absurd rfl (h.skipping.mpr ⟨by rw [← h1, hm], h2⟩)
  rw [listStep_open (by simp [hm, looping]) hs, hm, Locals.head_still _ _ rfl,
    listStepOpen_run (by simp [hm, Locals.passes]) (by simp [hm]) (by simp [hm])]

/-- The empty pipes at the end of a line. -/
theorem step_empty (m : Machine σ) (runPipe : ℕ → Pipe → Shell σ → Run (ℤ × Shell σ))
    (pipes : List Pipe) (pi : Pipe) (s : Shell σ) (hm : pi.rMode = .resNone) (hp : pi.numProgs = 0) (k : Option Op)
    (h : At st i k) :
    ∃ st' k', listStep m runPipe pipes i pi st s = .ok (.goOn st', s) ∧ At st' (i+1) k' := by
  cases k with
  | some k =>
    obtain ⟨st', hstep, hat⟩ := step_skip m runPipe pipes pi s k hm h
    exact ⟨st', _, hstep, hat⟩
  | none =>
    refine ⟨(st.unskip .resNone).advance i, none, ?_, ?_⟩
    · rw [listStep_run hm h, runBody_empty hp, hm]
      rfl
    · exact ⟨by simp [Locals.advance, Locals.unskip, h.forward], h.forward,
        by simp [Locals.advance, Locals.unskip]⟩

end Run

/-- `run_pipe_real` for commands that are known by their codes; the world is the
list of the places that ran. -/
def logged (code : ℕ → ℤ) (i : ℕ) (_ : Pipe) (s : Shell (List ℕ)) :
    Run (ℤ × Shell (List ℕ)) :=
  .ok (code i, { s with world := s.world ++ [i] })

section Logged
variable {m : Machine (List ℕ)} {code : ℕ → ℤ} {pipes : List Pipe} {st : Locals}
variable {s : Shell (List ℕ)}

theorem Command.numProgs_pipe (c : Command) (type : PipeStyle) (w : ReservedStyle) :
    (c.pipe type w).numProgs ≠ 0 := by
  have h : c.argv ≠ [] := by simpa [Command.argv] using c.nonempty
  simp [Pipe.numProgs, Command.pipe, h]

theorem step_run (m : Machine (List ℕ)) (code : ℕ → ℤ) (pipes : List Pipe) (s : Shell (List ℕ))
    (i : ℕ) (c : Command) (op : Op) (h : At st i none) :
    ∃ s', s'.world = s.world ++ [i] ∧
      if code i < -1 then
        listStep m (logged code) pipes i (c.pipe op.style .resNone) st s = .ok (.leave (-2), s')
      else ∃ st', listStep m (logged code) pipes i (c.pipe op.style .resNone) st s =
          .ok (.goOn st', s') ∧ At st' (i+1) (if op.passes (code i) then none else some op) := by
  refine ⟨({ s with world := s.world ++ [i] } : Shell (List ℕ)).record (code i), rfl, ?_⟩
  rw [listStep_run rfl h, runBody_run (c.numProgs_pipe _ _), Locals.atDone_still _ (by simp [Command.pipe])]
  by_cases hc : code i < -1
  · rw [if_pos hc]
    simp [logged, afterRun, hc, bind, Except.bind]
  · rw [if_neg hc]
    refine ⟨_, by simp [logged, afterRun, hc, Command.pipe, bind, Except.bind]; rfl, ?_⟩
    refine ⟨by simp [Locals.advance, Locals.note, Locals.unskip, h.forward], h.forward, ?_⟩
    by_cases h0 : code i = 0 <;> cases op <;>
      simp [Locals.advance, Locals.note, Locals.unskip, Op.passes, Op.style, h0]

/-- The two empty pipes behind a line. -/
def lineEnd : List Pipe := [⟨[], [], 0, .pipeSeq, .resNone⟩, newPipe]

theorem end_run (m : Machine (List ℕ)) (code : ℕ → ℤ) (s : Shell (List ℕ)) (n i : ℕ) (k : Option Op) (h : At st i k) (hd : pipes.drop i = lineEnd) :
    ∃ rcode, listLoop m (logged code) pipes (n+3) st s = .ok (rcode, s) := by
  obtain ⟨hp1, hd1⟩ := drop_cons hd
  obtain ⟨hp2, hd2⟩ := drop_cons hd1
  obtain ⟨st1, k1, hs1, hat1⟩ := step_empty m (logged code) pipes ⟨[], [], 0, .pipeSeq, .resNone⟩ s
    rfl rfl k h
  obtain ⟨st2, k2, hs2, hat2⟩ := step_empty m (logged code) pipes newPipe s rfl rfl k1 hat1
  refine ⟨st2.rcode, ?_⟩
  rw [listLoop_at _ h.place hp1, hs1]
  dsimp only [bind, Except.bind]
  rw [listLoop_at _ hat1.place hp2, hs2]
  exact listLoop_end n hat2.place (drop_nil hd2)

theorem line_run (rest : List (Op × Command)) (n i : ℕ) (c : Command) (k : Option Op)
    (h : At st i k) (hd : pipes.drop i = pipesFrom c rest ++ lineEnd) :
    ∃ rcode s', listLoop m (logged code) pipes (n+rest.length+4) st s = .ok (rcode, s') ∧
      s'.world = s.world ++ executed code i k (rest.map Prod.fst) := by
  induction rest generalizing i c k st s with
  | nil =>
    obtain ⟨hp, hd'⟩ := drop_cons hd
    cases k with
    | none =>
      obtain ⟨s', hw, hstep⟩ := step_run m code pipes s i c .opSeq h
      rw [show n+([] : List (Op × Command)).length+4 = (n+3)+1 from rfl, listLoop_at _ h.place hp]
      by_cases hc : code i < -1
      · rw [if_pos hc] at hstep
        exact ⟨-2, s', by rw [show PipeStyle.pipeSeq = Op.opSeq.style from rfl, hstep]; rfl, hw⟩
      · rw [if_neg hc] at hstep
        obtain ⟨st', hs', hat⟩ := hstep
        obtain ⟨rcode, hend⟩ := end_run m code s' n (i+1) none hat hd'
        exact ⟨rcode, s', by rw [show PipeStyle.pipeSeq = Op.opSeq.style from rfl, hs']; exact hend, hw⟩
    | some k =>
      obtain ⟨st', hs', hat⟩ := step_skip m (logged code) pipes (c.pipe .pipeSeq .resNone) s k
        rfl h
      obtain ⟨rcode, hend⟩ := end_run m code s n (i+1) _ hat hd'
      refine ⟨rcode, s, ?_, by simp [executed]⟩
      rw [show n+([] : List (Op × Command)).length+4 = (n+3)+1 from rfl, listLoop_at _ h.place hp, hs']
      exact hend
  | cons x rest ih =>
    obtain ⟨op, d⟩ := x
    obtain ⟨hp, hd'⟩ := drop_cons hd
    rw [show n+((op, d)::rest).length+4 = (n+rest.length+4)+1 by rw [List.length_cons]; omega,
      listLoop_at _ h.place hp]
    cases k with
    | none =>
      obtain ⟨s', hw, hstep⟩ := step_run m code pipes s i c op h
      rw [List.map_cons, executed]
      by_cases hc : code i < -1
      · rw [if_pos hc] at hstep
        refine ⟨-2, s', by rw [hstep]; rfl, ?_⟩
        rw [hw, if_pos hc]
      · rw [if_neg hc] at hstep
        obtain ⟨st', hs', hat⟩ := hstep
        obtain ⟨rcode, s'', hrun, hw'⟩ := ih (s := s') (i+1) d _ hat hd'
        refine ⟨rcode, s'', by rw [hs']; exact hrun, ?_⟩
        rw [hw', hw, if_neg hc, List.append_assoc, List.singleton_append]
    | some k =>
      obtain ⟨st', hs', hat⟩ := step_skip m (logged code) pipes (c.pipe op.style .resNone) s k
        rfl h
      have hk : (if (c.pipe op.style .resNone).followup = .pipeSeq then none else some k) =
          if op = .opSeq then none else some k := by
        cases op <;> rfl
      rw [hk] at hat
      obtain ⟨rcode, s'', hrun, hw'⟩ := ih (s := s) (i+1) d _ hat hd'
      refine ⟨rcode, s'', by rw [hs']; exact hrun, ?_⟩
      rw [hw', List.map_cons, executed]

end Logged

/-- The places that `run_list_real` runs of the list that `parse_stream` has built
from a line. -/
def lineRuns (m : Machine (List ℕ)) (code : ℕ → ℤ) (line : Text) (s : Shell (List ℕ)) :
    Option (List ℕ) :=
  match parseStream stdMap true (startParse false) line with
  | .done rcode p _ =>
    if rcode = 0 then
      ((runListReal m (logged code) ((finishList true p).length+1)
        (finishList true p) s).toOption).map (·.2.world)
    else none
  | .fault => none

theorem pipesFrom_plain (rest : List (Op × Command)) (c : Command) :
    ∀ pi ∈ pipesFrom c rest, pi.rMode = .resNone := by
  induction rest generalizing c with
  | nil => simp [pipesFrom, Command.pipe]
  | cons x rest ih =>
    intro pi hpi
    rcases List.mem_cons.mp hpi with h | h
    · rw [h]
      rfl
    · exact ih x.2 pi h

theorem length_pipesFrom (rest : List (Op × Command)) (c : Command) :
    (pipesFrom c rest).length = rest.length+1 := by
  induction rest generalizing c with
  | nil => rfl
  | cons x rest ih => rw [pipesFrom, List.length_cons, ih, List.length_cons]

theorem lineRuns_executed (m : Machine (List ℕ)) (code : ℕ → ℤ) (l : AndOr) (s : Shell (List ℕ)) :
    lineRuns m code l.text s = some (s.world ++ executed code 0 none l.ops) := by
  have hparse : parseStream stdMap true (startParse false) l.text =
      .done 0 (topLevel (pipesFrom l.first l.rest)) [] :=
    line_parsed l.rest l.first []
  have hlist : finishList true (topLevel (pipesFrom l.first l.rest)) =
      pipesFrom l.first l.rest ++ lineEnd := by
    rw [finishList, show doneWord true (topLevel (pipesFrom l.first l.rest)) =
      (false, topLevel (pipesFrom l.first l.rest)) from doneWord_empty (topLevel _) [] 0]
    simp [Parse.donePipe, PContext.donePipe, PContext.listHead, topLevel, lineEnd, newPipe]
  have hsyntax : forSyntax (pipesFrom l.first l.rest ++ lineEnd) = true := by
    apply forSyntax_noFor
    intro pi hpi
    have hmode : pi.rMode = .resNone := by
      rcases List.mem_append.mp hpi with h | h
      · exact pipesFrom_plain l.rest l.first pi h
      · rcases List.mem_cons.mp h with rfl | h
        · rfl
        · rw [List.mem_singleton.mp h]
          rfl
    rw [hmode]
    decide
  have hat : At Locals.start 0 none := ⟨rfl, rfl, by simp [Locals.start]⟩
  have hlen : (pipesFrom l.first l.rest ++ lineEnd).length+1 = 0+l.rest.length+4 := by
    simp [length_pipesFrom, lineEnd]
  obtain ⟨rcode, s', hrun, hw⟩ := line_run (m := m) (s := s) l.rest 0 0 l.first none hat rfl
  rw [lineRuns, hparse]
  dsimp only
  rw [if_pos rfl, hlist, runListReal, if_pos hsyntax, hlen, hrun]
  exact congrArg some hw

/-- A line runs as in the shell exactly when no operator of the other kind stands
in a part that is passed over. -/
theorem and_or_iff (m : Machine (List ℕ)) (code : ℕ → ℤ) (l : AndOr) (s : Shell (List ℕ)) :
    lineRuns m code l.text s = some (s.world ++ shellRuns code 0 .opSeq 0 l.ops) ↔
      Unmixed code 0 none l.ops := by
  rw [lineRuns_executed, Option.some.injEq, List.append_cancel_left_eq]
  exact executed_iff code l.ops 0 none .opSeq 0 rfl

def oneLetter (c : Char) (h : stdMap c = 0) (hr : [c] ∉ reservedWords) : Command :=
  ⟨[⟨[.lit c], by simp, by simpa [Piece.Valid] using h⟩], by simp, by simpa [Word.data, Piece.data]⟩

/-- `a && b || c` with a failing `a`. -/
def failsFirst : AndOr :=
  ⟨oneLetter 'a' (by decide) (by decide),
   [(.opAnd, oneLetter 'b' (by decide) (by decide)), (.opOr, oneLetter 'c' (by decide) (by decide))]⟩

theorem last_not_run : ∃ (m : Machine (List ℕ)) (code : ℕ → ℤ) (s : Shell (List ℕ)),
    lineRuns m code failsFirst.text s ≠ some (s.world ++ shellRuns code 0 .opSeq 0 failsFirst.ops) ∧
      lineRuns m code failsFirst.text s = some [0] ∧
      shellRuns code 0 .opSeq 0 failsFirst.ops = [0, 2] := by
  refine ⟨⟨fun _ _ => none, fun _ => false, fun _ s => (0, s)⟩, fun i => if i = 0 then 1 else 0,
    ⟨0, [], false, [], []⟩, ?_⟩
  decide +kernel

end UBoot.Hush
