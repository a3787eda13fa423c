import UBoot.HushRun
import Mathlib.Tactic.Common
import Mathlib.Tactic.SplitIfs

/-!
# One round of `run_list_real`

What a round does with a pipe it passes over, with an empty pipe and with a pipe
it runs, for every mode.
-/

set_option autoImplicit false

namespace UBoot.Hush

variable {σ : Type} {m : Machine σ} {runPipe : ℕ → Pipe → Shell σ → Run (ℤ × Shell σ)}
variable {pipes : List Pipe} {i : ℕ} {pi : Pipe} {st : Locals} {s : Shell σ}

theorem drop_cons {l : List Pipe} (h : pipes.drop i = pi::l) :
    pipes[i]? = some pi ∧ pipes.drop (i+1) = l := by
  constructor
  · rw [← List.head?_drop, h]
    rfl
  · rw [← List.tail_drop, h]
    rfl

theorem drop_nil (h : pipes.drop i = []) : pipes[i]? = none := by
  rw [← List.head?_drop, h]
  rfl

theorem listLoop_at (n : ℕ) (hi : st.pi = some i) (hpi : pipes[i]? = some pi) :
    listLoop m runPipe pipes (n+1) st s = (do
      let r ← listStep m runPipe pipes i pi st s
      match r.1 with
      | .goOn st => listLoop m runPipe pipes n st r.2
      | .leave rcode => .ok (rcode, r.2)) := by
  rw [listLoop, hi, Option.bind_some, hpi]
  rfl

theorem listLoop_end (n : ℕ) (hi : st.pi = some i) (hpi : pipes[i]? = none) :
    listLoop m runPipe pipes (n+1) st s = .ok (st.rcode, s) := by
  rw [listLoop, hi, Option.bind_some, hpi]
  rfl

theorem listStep_skip (hc : looping pi.rMode = false)
    (hs : pi.rMode = st.skipMore ∧ st.flagSkip = true) :
    listStep m runPipe pipes i pi st s = .ok (.goOn ((st.skip pi.followup).advance i), s) := by
  rw [listStep, if_neg (by simp [hc]), if_pos hs, Locals.head, if_neg (by simp [hc])]

theorem listStep_open (hc : looping pi.rMode = true → m.hadCtrlc s.world = false)
    (hs : ¬ (pi.rMode = st.skipMore ∧ st.flagSkip = true)) :
    listStep m runPipe pipes i pi st s =
      listStepOpen m runPipe pipes i pi ((st.head i pi.rMode).unskip pi.rMode) s := by
  rw [listStep, if_neg, if_neg hs]
  rintro ⟨hl, hi⟩
  rw [hc hl] at hi
  exact absurd hi (by simp)

theorem listStepOpen_pass (h : st.passes pi.rMode) :
    listStepOpen m runPipe pipes i pi st s = .ok (.goOn (st.advance i), s) := by
  rw [listStepOpen, if_pos h]

theorem listStepOpen_run (h : ¬ st.passes pi.rMode)
    (he : ¬ (pi.rMode = .resElif ∧ st.ifCode = 0)) (hf : pi.rMode ≠ .resFor) :
    listStepOpen m runPipe pipes i pi st s = runBody runPipe i pi st s := by
  rw [listStepOpen, if_neg h, if_neg he, if_neg (fun hh => hf hh.1)]

theorem runBody_empty (h : pi.numProgs = 0) :
    runBody runPipe i pi st s = .ok (.goOn ((st.atDone pi.rMode).advance i), s) := by
  rw [runBody, if_pos h]

theorem runBody_run (h : pi.numProgs ≠ 0) :
    runBody runPipe i pi st s = (do
      let r ← runPipe i pi s
      .ok (afterRun i pi (st.atDone pi.rMode) r.1, r.2.record r.1)) := by
  rw [runBody, if_neg h]

theorem Locals.head_still (i : ℕ) (w : ReservedStyle) (h : looping w = false) :
    st.head i w = st := by
  rw [Locals.head, if_neg (by simp [h])]

theorem Locals.atDone_still (w : ReservedStyle) (h : w ≠ .resDone) : st.atDone w = st := by
  rw [Locals.atDone, if_neg h]

theorem Locals.advance_forward (i : ℕ) (h : st.flagRestore = false) :
    st.advance i = { st with pi := some (i+1) } := by
  simp [Locals.advance, h]

theorem forSyntax_noFor (pipes : List Pipe)
    (h : ∀ pi ∈ pipes, pi.rMode ≠ .resIn ∧ pi.rMode ≠ .resFor) : forSyntax pipes = true := by
  induction pipes with
  | nil => rfl
  | cons pi pipes ih =>
    have hp := h pi (by simp)
    cases pipes with
    | nil => simp [forSyntax, hp]
    | cons next rest => simp [forSyntax, hp, ih (fun x hx => h x (by simp [hx]))]

end UBoot.Hush
