import UBoot.HushFuel
import UBoot.HushScript
import UBoot.HushSteps

/-!
# What `run_list_real` makes of a script

A walk over a pipe list is taken apart into segments: the pipes of one list of
commands are run one after the other and leave the local variables as `after`
says; pipes of a part that is not due are passed over. Both directions are kept
through all of it, so that the walk ends exactly when the script does. The
number of rounds is carried along because the rounds of a loop are only bounded
by it.
-/

set_option autoImplicit false

namespace UBoot.Hush
open UBoot.ShellScript

section Walks
variable {σ : Type} (m : Machine σ)

/-- Enough rounds make the pipe end with this result. -/
def PipeRuns (pi : Pipe) (s : Shell σ) (x : ℤ × Shell σ) : Prop := ∃ n, runPipeReal m n pi s = .ok x

def Walks (n : ℕ) (pipes : List Pipe) (st : Locals) (s : Shell σ) (x : ℤ × Shell σ) : Prop :=
  ∃ k, listLoop m (fun _ => runPipeReal m k) pipes n st s = .ok x

def Walk (pipes : List Pipe) (st : Locals) (s : Shell σ) (x : ℤ × Shell σ) : Prop :=
  ∃ n, Walks m n pipes st s x

variable {m} {pipes : List Pipe} {i : ℕ} {pi : Pipe} {st st' : Locals} {s s' : Shell σ}
variable {x : ℤ × Shell σ}

theorem walks_go (n : ℕ) (hi : st.pi = some i) (hpi : pipes[i]? = some pi)
    (h : ∀ f, listStep m f pipes i pi st s = .ok (.goOn st', s')) :
    Walks m (n+1) pipes st s x ↔ Walks m n pipes st' s' x := by
  constructor <;> rintro ⟨k, hk⟩ <;> refine ⟨k, ?_⟩
  · rw [listLoop_at n hi hpi, h] at hk
    exact hk
  · rw [listLoop_at n hi hpi, h]
    exact hk

theorem walks_leave (n : ℕ) (r : ℤ) (hi : st.pi = some i) (hpi : pipes[i]? = some pi)
    (h : ∀ f, listStep m f pipes i pi st s = .ok (.leave r, s')) :
    Walks m (n+1) pipes st s x ↔ x = (r, s') := by
  constructor
  · rintro ⟨k, hk⟩
    rw [listLoop_at n hi hpi, h] at hk
    cases hk
    rfl
  · intro hx
    refine ⟨0, ?_⟩
    rw [listLoop_at n hi hpi, h, hx]
    rfl

theorem walks_end (n : ℕ) (hi : st.pi = some i) (hpi : pipes[i]? = none) :
    Walks m (n+1) pipes st s x ↔ x = (st.rcode, s) := by
  constructor
  · rintro ⟨k, hk⟩
    rw [listLoop_end n hi hpi] at hk
    cases hk
    rfl
  · intro hx
    exact ⟨0, by rw [listLoop_end n hi hpi, hx]⟩

theorem not_walks_zero : ¬ Walks m 0 pipes st s x := by
  rintro ⟨k, hk⟩
  cases hk

theorem Walks.mono {n n' : ℕ} (h : Walks m n pipes st s x) (hn : n ≤ n') :
    Walks m n' pipes st s x := by
  obtain ⟨k, hk⟩ := h
  exact ⟨k, (listLoop_below (fun _ _ _ => Below.refl _) pipes n n' hn st s).ok hk⟩

/-- A pipe that is run. -/
theorem walks_run (n : ℕ) (pi' : Pipe) (st' : Locals) (s0 : Shell σ) (hi : st.pi = some i)
    (hpi : pipes[i]? = some pi)
    (h : ∀ f, listStep m f pipes i pi st s = (do
      let r ← f i pi' s0
      .ok (afterRun i pi' st' r.1, r.2.record r.1))) :
    Walks m (n+1) pipes st s x ↔ ∃ r s1, PipeRuns m pi' s0 (r, s1) ∧
      if exits r then x = (-2, s1.record r)
      else Walks m n pipes ((st'.note pi'.rMode pi'.followup r).advance i) (s1.record r) x := by
  constructor
  · rintro ⟨k, hk⟩
    rw [listLoop_at n hi hpi, h] at hk
    obtain ⟨y, hy, hrest⟩ := bind_eq_ok.mp hk
    obtain ⟨⟨r, s1⟩, hr, hy'⟩ := bind_eq_ok.mp hy
    cases hy'
    refine ⟨r, s1, ⟨k, hr⟩, ?_⟩
    by_cases he : exits r
    · rw [if_pos he]
      simp only [afterRun, if_pos (show r < -1 from he)] at hrest
      cases hrest
      rfl
    · rw [if_neg he]
      simp only [afterRun, if_neg (show ¬ r < -1 from he)] at hrest
      exact ⟨k, hrest⟩
  · rintro ⟨r, s1, ⟨k, hk⟩, hrest⟩
    by_cases he : exits r
    · rw [if_pos he] at hrest
      refine ⟨k, ?_⟩
      rw [listLoop_at n hi hpi, h, hk]
      simp only [afterRun, if_pos (show r < -1 from he), hrest, bind, Except.bind]
    · rw [if_neg he] at hrest
      obtain ⟨k', hk'⟩ := hrest
      refine ⟨max k k', ?_⟩
      rw [listLoop_at n hi hpi, h, (runPipeReal_below k _ (Nat.le_max_left k k') pi' s0).ok hk]
      simp only [afterRun, if_neg (show ¬ r < -1 from he), bind, Except.bind]
      exact (listLoop_below (fun _ pi s => runPipeReal_below k' _ (Nat.le_max_right k k') pi s)
        pipes n n (Nat.le_refl n) _ _).ok hk'

theorem walk_step (h : ∀ n, Walks m (n+1) pipes st s x ↔ Walks m n pipes st' s' x) :
    Walk m pipes st s x ↔ Walk m pipes st' s' x := by
  constructor
  · rintro ⟨n, hn⟩
    cases n with
    | zero => exact absurd hn not_walks_zero
    | succ n => exact ⟨n, (h n).mp hn⟩
  · rintro ⟨n, hn⟩
    exact ⟨n+1, (h n).mpr hn⟩

/-- One number of rounds is enough for the walk and its pipes. -/
theorem walk_iff : Walk m pipes st s x ↔
    ∃ n, listLoop m (fun _ => runPipeReal m n) pipes n st s = .ok x := by
  constructor
  · rintro ⟨n, k, hk⟩
    refine ⟨max n k, ?_⟩
    exact (listLoop_below (fun _ pi s => runPipeReal_below k _ (Nat.le_max_right n k) pi s) pipes n _
      (Nat.le_max_left n k) st s).ok hk
  · rintro ⟨n, hn⟩
    exact ⟨n, n, hn⟩

end Walks

section Segments
variable {σ : Type} (m : Machine σ) (pipes : List Pipe)

/-- From `st` the walk does what `R` says; unless that has left the list it goes
on at `next`. -/
structure Segment (st : Locals) (s : Shell σ) (R : ℤ → Shell σ → Prop) (next : ℤ → Locals) :
    Prop where
  into : ∀ x r s1, R r s1 → (if exits r then x = (r, s1) else Walk m pipes (next r) s1 x) →
    Walk m pipes st s x
  out : ∀ n x, Walks m n pipes st s x →
    ∃ r s1, R r s1 ∧ if exits r then x = (r, s1) else ∃ n' < n, Walks m n' pipes (next r) s1 x

/-- From `st` the walk does what `R` says and ends. -/
def Final (st : Locals) (s : Shell σ) (R : ℤ → Shell σ → Prop) : Prop :=
  ∀ x, Walk m pipes st s x ↔ R x.1 x.2

variable {m pipes} {st : Locals} {s : Shell σ} {A : ℤ → Shell σ → Prop}
variable {B : ℤ → Shell σ → ℤ → Shell σ → Prop} {next next' : ℤ → Locals}

theorem Segment.andThen (h1 : Segment m pipes st s A next)
    (h2 : ∀ r s1, ¬ exits r → Segment m pipes (next r) s1 (B r s1) next') :
    Segment m pipes st s
      (fun r s' => ∃ r1 s1, A r1 s1 ∧ if exits r1 then r = r1 ∧ s' = s1 else B r1 s1 r s') next' where
  into := by
    rintro x r s' ⟨r1, s1, hA, hB⟩ hx
    by_cases he : exits r1
    · rw [if_pos he] at hB
      obtain ⟨rfl, rfl⟩ := hB
      rw [if_pos he] at hx
      exact h1.into x r s' hA (by rwa [if_pos he])
    · rw [if_neg he] at hB
      exact h1.into x r1 s1 hA (by rw [if_neg he]; exact (h2 r1 s1 he).into x r s' hB hx)
  out := by
    intro n x hn
    obtain ⟨r1, s1, hA, hx⟩ := h1.out n x hn
    by_cases he : exits r1
    · rw [if_pos he] at hx
      exact ⟨r1, s1, ⟨r1, s1, hA, by rw [if_pos he]; exact ⟨rfl, rfl⟩⟩, by rwa [if_pos he]⟩
    · rw [if_neg he] at hx
      obtain ⟨n1, hn1, hw⟩ := hx
      obtain ⟨r, s', hB, hx'⟩ := (h2 r1 s1 he).out n1 x hw
      refine ⟨r, s', ⟨r1, s1, hA, by rwa [if_neg he]⟩, ?_⟩
      by_cases he' : exits r
      · rwa [if_pos he'] at hx' ⊢
      · rw [if_neg he'] at hx' ⊢
        obtain ⟨n2, hn2, hw2⟩ := hx'
        exact ⟨n2, by omega, hw2⟩

theorem Segment.final (h1 : Segment m pipes st s A next)
    (h2 : ∀ r s1, ¬ exits r → Final m pipes (next r) s1 (B r s1)) :
    Final m pipes st s
      (fun r s' => ∃ r1 s1, A r1 s1 ∧ if exits r1 then r = r1 ∧ s' = s1 else B r1 s1 r s') := by
  intro x
  constructor
  · rintro ⟨n, hn⟩
    obtain ⟨r1, s1, hA, hx⟩ := h1.out n x hn
    refine ⟨r1, s1, hA, ?_⟩
    by_cases he : exits r1
    · rw [if_pos he] at hx ⊢
      rw [hx]
      exact ⟨rfl, rfl⟩
    · rw [if_neg he] at hx ⊢
      obtain ⟨n1, -, hw⟩ := hx
      exact (h2 r1 s1 he x).mp ⟨n1, hw⟩
  · rintro ⟨r1, s1, hA, hB⟩
    refine h1.into x r1 s1 hA ?_
    by_cases he : exits r1
    · rw [if_pos he] at hB ⊢
      exact Prod.ext hB.1 hB.2
    · rw [if_neg he] at hB ⊢
      exact (h2 r1 s1 he x).mpr hB

theorem Segment.shift (h : Segment m pipes st s A next)
    (hs : ∀ r s1 n x, Walks m (n+1) pipes (next r) s1 x ↔ Walks m n pipes (next' r) s1 x) :
    Segment m pipes st s A next' where
  into := by
    intro x r s1 hA hx
    refine h.into x r s1 hA ?_
    by_cases he : exits r
    · rwa [if_pos he] at hx ⊢
    · rw [if_neg he] at hx ⊢
      exact (walk_step fun n => hs r s1 n x).mpr hx
  out := by
    intro n x hn
    obtain ⟨r, s1, hA, hx⟩ := h.out n x hn
    refine ⟨r, s1, hA, ?_⟩
    by_cases he : exits r
    · rwa [if_pos he] at hx ⊢
    · rw [if_neg he] at hx ⊢
      obtain ⟨n1, hn1, hw⟩ := hx
      cases n1 with
      | zero => exact absurd hw not_walks_zero
      | succ n1 => exact ⟨n1, by omega, (hs r s1 n1 x).mp hw⟩

theorem Final.congr {R R' : ℤ → Shell σ → Prop} (h : Final m pipes st s R)
    (hR : ∀ r s', R r s' ↔ R' r s') : Final m pipes st s R' :=
  fun x => (h x).trans (hR x.1 x.2)

end Segments

/-! ## Running the commands of a list -/

section Lists
variable {σ : Type} {m : Machine σ} {pipes : List Pipe}

/-- The local variables behind a list of mode `w` that stood at `i`, up to `j`. -/
def after (w : ReservedStyle) (i j : ℕ) (st : Locals) (r : ℤ) : Locals :=
  { ((st.head i w).unskip w).note w .pipeSeq r with pi := some j }

/-- The commands of a list of mode `w` are due. -/
structure Due (w : ReservedStyle) (st : Locals) : Prop where
  kind : w ∈ [.resNone, .resIf, .resThen, .resElse, .resElif, .resWhile, .resUntil, .resDo]
  noSkip : st.skipMore = .resXxxx
  forward : looping w = true ∨ st.flagRestore = false
  thenCode : w = .resThen → st.nextIfCode = 0
  elseCode : w = .resElse → st.nextIfCode ≠ 0
  elifCode : w = .resElif → st.ifCode ≠ 0
  rep : w = .resDo → st.flagRep = true

theorem Due.after {w : ReservedStyle} {st : Locals} (h : Due w st) (i j : ℕ) (r : ℤ) :
    Due w (after w i j st r) := by
  obtain ⟨hk, hs, hf, ht, he, hl, hr⟩ := h
  have hkind := hk
  simp only [List.mem_cons, List.not_mem_nil, or_false] at hkind
  refine ⟨hk, by simp [Hush.after, Locals.note, Locals.unskip], ?_, ?_, ?_, ?_, ?_⟩ <;>
    rcases hkind with rfl | rfl | rfl | rfl | rfl | rfl | rfl | rfl <;>
    simp_all [Hush.after, Locals.note, Locals.unskip, Locals.head, looping]

theorem after_after {w : ReservedStyle} {st : Locals} (h : Due w st) (i j k : ℕ) (r r' : ℤ) :
    after w j k (after w i j st r) r' = after w i k st r' := by
  have hkind := h.kind
  simp only [List.mem_cons, List.not_mem_nil, or_false] at hkind
  rcases hkind with rfl | rfl | rfl | rfl | rfl | rfl | rfl | rfl <;>
    simp [after, Locals.note, Locals.unskip, Locals.head, looping]

theorem Due.notSkipped {w : ReservedStyle} {st : Locals} (h : Due w st) :
    ¬ (w = st.skipMore ∧ st.flagSkip = true) := by
  rintro ⟨he, -⟩
  have hk := h.kind
  rw [he, h.noSkip] at hk
  exact absurd hk (by decide)

theorem listStep_due {w : ReservedStyle} {st : Locals} {s : Shell σ} {i : ℕ} {pi : Pipe}
    (f : ℕ → Pipe → Shell σ → Run (ℤ × Shell σ)) (hc : ∀ u, m.hadCtrlc u = false) (h : Due w st)
    (hm : pi.rMode = w) (hp : pi.numProgs ≠ 0) :
    listStep m f pipes i pi st s = (do
      let r ← f i pi s
      .ok (afterRun i pi ((st.head i w).unskip w) r.1, r.2.record r.1)) := by
  subst hm
  have hk := h.kind
  simp only [List.mem_cons, List.not_mem_nil, or_false] at hk
  have hpass : ¬ ((st.head i pi.rMode).unskip pi.rMode).passes pi.rMode := by
    rcases hk with hw | hw | hw | hw | hw | hw | hw | hw <;>
      simp [hw, Locals.passes, Locals.unskip, Locals.head, looping, h.thenCode, h.elseCode, h.rep]
  have helif : ¬ (pi.rMode = .resElif ∧ ((st.head i pi.rMode).unskip pi.rMode).ifCode = 0) := by
    rintro ⟨hw, h0⟩
    rw [hw] at h0
    exact h.elifCode hw (by simpa [Locals.unskip, Locals.head, looping] using h0)
  have hfor : pi.rMode ≠ .resFor := by
    intro hw
    rw [hw] at hk
    simp at hk
  have hdone : pi.rMode ≠ .resDone := by
    intro hw
    rw [hw] at hk
    simp at hk
  rw [listStep_open (fun _ => hc _) h.notSkipped, listStepOpen_run hpass helif hfor, runBody_run hp,
    Locals.atDone_still _ hdone]

theorem advance_due {w : ReservedStyle} {st : Locals} (h : Due w st) (i : ℕ) (r : ℤ) :
    (((st.head i w).unskip w).note w .pipeSeq r).advance i = after w i (i+1) st r := by
  have hr : (((st.head i w).unskip w).note w .pipeSeq r).flagRestore = false := by
    rcases h.forward with hl | hf
    · simp [Locals.note, Locals.unskip, Locals.head, hl]
    · by_cases hl : looping w = true <;> simp [Locals.note, Locals.unskip, Locals.head, hl, hf]
  rw [Locals.advance_forward i hr]
  rfl

/-- One command of a list that is due. -/
theorem due_segment {w : ReservedStyle} {st : Locals} {i : ℕ} {pi : Pipe}
    (hc : ∀ u, m.hadCtrlc u = false) (h : Due w st) (hm : pi.rMode = w) (hf : pi.followup = .pipeSeq)
    (hp : pi.numProgs ≠ 0) (hi : st.pi = some i) (hpi : pipes[i]? = some pi) (s : Shell σ) :
    Segment m pipes st s
      (fun r s' => ∃ rc s1, PipeRuns m pi s (rc, s1) ∧ r = clip rc ∧ s' = s1.record rc)
      (after w i (i+1) st) := by
  have hstep : ∀ n x, Walks m (n+1) pipes st s x ↔ ∃ r s1, PipeRuns m pi s (r, s1) ∧
      if exits r then x = (-2, s1.record r)
      else Walks m n pipes (after w i (i+1) st r) (s1.record r) x := by
    intro n x
    rw [walks_run n pi _ s hi hpi (fun f => listStep_due f hc h hm hp), hm, hf]
    simp only [advance_due h]
  constructor
  · rintro x r s' ⟨rc, s1, hrun, rfl, rfl⟩ hx
    by_cases he : exits rc
    · rw [clip, if_pos he, if_pos (by decide)] at hx
      exact ⟨1, (hstep 0 x).mpr ⟨rc, s1, hrun, by rwa [if_pos he]⟩⟩
    · rw [clip, if_neg he, if_neg he] at hx
      obtain ⟨n, hn⟩ := hx
      exact ⟨n+1, (hstep n x).mpr ⟨rc, s1, hrun, by rwa [if_neg he]⟩⟩
  · intro n x hn
    cases n with
    | zero => exact absurd hn not_walks_zero
    | succ n =>
      obtain ⟨rc, s1, hrun, hx⟩ := (hstep n x).mp hn
      refine ⟨clip rc, s1.record rc, ⟨rc, s1, hrun, rfl, rfl⟩, ?_⟩
      by_cases he : exits rc
      · rw [if_pos he] at hx
        rw [clip, if_pos he, if_pos (by decide)]
        exact hx
      · rw [if_neg he] at hx
        rw [clip, if_neg he, if_neg he]
        exact ⟨n, by omega, hx⟩

/-! ## Passing over pipes -/

/-- The local variables behind pipes of mode `w` that were passed over, up to `j`. -/
def passed (w : ReservedStyle) (j : ℕ) (st : Locals) : Locals := { st.unskip w with pi := some j }

theorem listStep_pass {w : ReservedStyle} {st : Locals} {s : Shell σ} {i : ℕ} {pi : Pipe}
    (f : ℕ → Pipe → Shell σ → Run (ℤ × Shell σ)) (hm : pi.rMode = w) (hl : looping w = false)
    (hx : w ≠ .resXxxx) (hskip : st.skipMore = .resXxxx) (hfwd : st.flagRestore = false)
    (hpass : (st.unskip w).passes w) :
    listStep m f pipes i pi st s = .ok (.goOn (passed w (i+1) st), s) := by
  subst hm
  rw [listStep_open (by simp [hl]) (by rw [hskip]; exact fun h => hx h.1), Locals.head_still _ _ hl,
    listStepOpen_pass hpass, Locals.advance_forward i (show (st.unskip pi.rMode).flagRestore = false from hfwd)]
  rfl

theorem passed_passed (w : ReservedStyle) (j k : ℕ) (st : Locals) :
    passed w k (passed w j st) = passed w k st := by
  by_cases h : w = .resThen ∨ w = .resElse <;> simp [passed, Locals.unskip, h]

theorem passed_passes (w : ReservedStyle) (j : ℕ) (st : Locals) (h : (st.unskip w).passes w) :
    ((passed w j st).unskip w).passes w := by
  by_cases hw : w = .resThen ∨ w = .resElse <;>
    simpa [Locals.passes, passed, Locals.unskip, hw] using h

/-- The pipes of a part that is not due. -/
theorem pass_list {w : ReservedStyle} (hl : looping w = false) (hx : w ≠ .resXxxx) (ps : List Pipe)
    (hne : ps ≠ []) (hmode : ∀ pi ∈ ps, pi.rMode = w) (st : Locals) (i : ℕ) (s : Shell σ)
    (post : List Pipe) (hskip : st.skipMore = .resXxxx) (hfwd : st.flagRestore = false)
    (hpass : (st.unskip w).passes w) (hi : st.pi = some i) (hd : pipes.drop i = ps ++ post) (n : ℕ)
    (x : ℤ × Shell σ) :
    Walks m (n+ps.length) pipes st s x ↔
      Walks m n pipes (passed w (i+ps.length) st) s x := by
  induction ps generalizing st i with
  | nil => exact absurd rfl hne
  | cons pi ps ih =>
    obtain ⟨hpi, hd'⟩ := drop_cons hd
    have hstep : Walks m (n+ps.length+1) pipes st s x ↔
        Walks m (n+ps.length) pipes (passed w (i+1) st) s x :=
      walks_go _ hi hpi (fun f => listStep_pass f (hmode pi (by simp)) hl hx hskip hfwd hpass)
    rw [List.length_cons, ← Nat.add_assoc, hstep]
    cases ps with
    | nil => rfl
    | cons pi' ps =>
      have h := ih (by simp) (fun p hp => hmode p (by simp [hp]))
        (passed w (i+1) st) (i+1) rfl hfwd (passed_passes w _ st hpass) rfl hd'
      rw [h, passed_passed, Nat.add_assoc, Nat.add_comm 1]

theorem walk_pass {w : ReservedStyle} (hl : looping w = false) (hx : w ≠ .resXxxx) (ps : List Pipe)
    (hne : ps ≠ []) (hmode : ∀ pi ∈ ps, pi.rMode = w) (st : Locals) (i : ℕ) (s : Shell σ)
    (post : List Pipe) (hskip : st.skipMore = .resXxxx) (hfwd : st.flagRestore = false)
    (hpass : (st.unskip w).passes w) (hi : st.pi = some i) (hd : pipes.drop i = ps ++ post)
    (x : ℤ × Shell σ) :
    Walk m pipes st s x ↔ Walk m pipes (passed w (i+ps.length) st) s x := by
  have h := pass_list (m := m) hl hx ps hne hmode st i s post hskip hfwd hpass hi hd
  constructor
  · rintro ⟨n, hn⟩
    exact ⟨n, (h n x).mp (hn.mono (Nat.le_add_right n _))⟩
  · rintro ⟨n, hn⟩
    exact ⟨_, (h n x).mpr hn⟩

theorem listStep_empty {w : ReservedStyle} {st : Locals} {s : Shell σ} {i : ℕ} {pi : Pipe}
    (f : ℕ → Pipe → Shell σ → Run (ℤ × Shell σ)) (hm : pi.rMode = w)
    (hw : w = .resNone ∨ w = .resFi ∨ w = .resDone) (hp : pi.numProgs = 0)
    (hskip : st.skipMore = .resXxxx) :
    listStep m f pipes i pi st s = .ok (.goOn (((st.unskip w).atDone w).advance i), s) := by
  subst hm
  have hl : looping pi.rMode = false := by rcases hw with h | h | h <;> rw [h] <;> rfl
  have hx : ¬ (pi.rMode = st.skipMore ∧ st.flagSkip = true) := by
    rw [hskip]
    rcases hw with h | h | h <;> simp [h]
  rw [listStep_open (by simp [hl]) hx, Locals.head_still _ _ hl, listStepOpen_run, runBody_empty hp]
  · rcases hw with h | h | h <;> simp [h, Locals.passes]
  · rcases hw with h | h | h <;> simp [h]
  · rcases hw with h | h | h <;> simp [h]

/-- The empty pipes at the end of a list. -/
theorem closing_final {w : ReservedStyle} (st : Locals) {i : ℕ}
    (hw : w = .resNone ∨ w = .resFi ∨ w = .resDone ∧ st.flagRep = false)
    (hskip : st.skipMore = .resXxxx) (hfwd : st.flagRestore = false) (hi : st.pi = some i)
    (hd : pipes.drop i = closing w) (s : Shell σ) :
    Final m pipes st s (fun r s' => r = st.rcode ∧ s' = s) := by
  intro x
  obtain ⟨hp1, hd1⟩ := drop_cons hd
  obtain ⟨hp2, hd2⟩ := drop_cons hd1
  have hadv : ∃ st1, ((st.unskip w).atDone w).advance i = st1 ∧ st1.pi = some (i+1) ∧
      st1.skipMore = .resXxxx ∧ st1.flagRestore = false ∧ st1.rcode = st.rcode := by
    refine ⟨_, rfl, ?_⟩
    rcases hw with rfl | rfl | ⟨rfl, hrep⟩ <;>
      simp [Locals.unskip, Locals.atDone, Locals.advance, *]
  obtain ⟨st1, hst1, hi1, hskip1, hfwd1, hr1⟩ := hadv
  have h1 : ∀ n, Walks m (n+1) pipes st s x ↔ Walks m n pipes st1 s x := by
    intro n
    apply walks_go n hi hp1
    intro f
    rw [listStep_empty f rfl (by tauto) rfl hskip, hst1]
  have h2 : ∀ n, Walks m (n+1) pipes st1 s x ↔
      Walks m n pipes ((st1.unskip .resNone).advance (i+1)) s x := by
    intro n
    apply walks_go n hi1 hp2
    intro f
    rw [listStep_empty f rfl (Or.inl rfl) rfl hskip1, Locals.atDone_still _ (by decide)]
    rfl
  have hadv2 : (st1.unskip .resNone).advance (i+1) = { st1.unskip .resNone with pi := some (i+1+1) } :=
    Locals.advance_forward _ hfwd1
  rw [walk_step h1, walk_step h2, hadv2]
  constructor
  · rintro ⟨n, hn⟩
    cases n with
    | zero => exact absurd hn not_walks_zero
    | succ n =>
      rw [walks_end n rfl (drop_nil hd2)] at hn
      rw [hn]
      exact ⟨hr1, rfl⟩
  · rintro ⟨hr, hs⟩
    refine ⟨1, (walks_end 0 rfl (drop_nil hd2)).mpr ?_⟩
    exact Prod.ext (hr.trans hr1.symm) hs

end Lists

/-! ## Compound commands -/

section Compounds
variable {σ : Type} (m : Machine σ)

/-- The pipe of a simple command, in whatever part it stands. -/
def meaning : Meaning ScriptCommand LoopHead Text (Shell σ) where
  act := fun c s r s' => PipeRuns m (c.pipe .pipeSeq .resNone) s (r, s')
  start := fun h s => makeListIn m h.name (h.values.map Word.data) s
  assign := fun v s => (setVars m [v] s).record 0
  record := Shell.record

variable {m} {pipes : List Pipe}

theorem pipeRuns_mode (c : Command) (w : ReservedStyle) (s : Shell σ) (x : ℤ × Shell σ) :
    PipeRuns m (c.pipe .pipeSeq w) s x ↔ PipeRuns m (c.pipe .pipeSeq .resNone) s x := by
  have h : ∀ n, runPipeReal m n (c.pipe .pipeSeq w) s =
      runPipeReal m n (c.pipe .pipeSeq .resNone) s := by
    intro n
    cases n <;> rfl
  simp only [PipeRuns, h]

theorem group_runs (group : List Pipe) (w : ReservedStyle) (hne : group ≠ [])
    (hsyn : forSyntax group = true) (s : Shell σ) (x : ℤ × Shell σ) :
    PipeRuns m (groupPipe group w) s x ↔ Walk m group Locals.start s x := by
  have h : ∀ n, runPipeReal m (n+1) (groupPipe group w) s =
      listLoop m (fun _ => runPipeReal m n) group n Locals.start s := by
    intro n
    rw [runPipeReal, if_pos (by simpa [groupPipe] using hne), runListReal]
    exact if_pos hsyn
  rw [walk_iff]
  constructor
  · rintro ⟨n, hn⟩
    cases n with
    | zero => cases hn
    | succ n => exact ⟨n, by rwa [h] at hn⟩
  · rintro ⟨n, hn⟩
    exact ⟨n+1, by rwa [h]⟩

/-- What a list of commands does wherever it stands and is due. -/
def ListRuns (m : Machine σ) (sc : HushScript true) : Prop :=
  ∀ (pipes : List Pipe) (w : ReservedStyle) (i : ℕ) (post : List Pipe) (st : Locals) (s : Shell σ)
    (q : ℤ), Due w st → st.pi = some i → pipes.drop i = listPipes w sc ++ post →
    Segment m pipes st s (Exec (meaning m) sc q s) (after w i (i+(listPipes w sc).length) st)

theorem seq_runs (a b : HushScript true) (ha : ListRuns m a) (hb : ListRuns m b) :
    ListRuns m (.seq a b) := by
  intro pipes w i post st s q hdue hi hd
  rw [listPipes, List.append_assoc] at hd
  have hd' : pipes.drop (i+(listPipes w a).length) = listPipes w b ++ post := by
    rw [← List.drop_drop, hd, List.drop_left]
  have h1 := ha pipes w i _ st s q hdue hi hd
  refine h1.andThen ?_
  intro r s1 _
  have h2 := hb pipes w _ post (after w i (i+(listPipes w a).length) st r) s1 r (hdue.after _ _ _)
    rfl hd'
  rw [show (listPipes w (.seq a b)).length = (listPipes w a).length+(listPipes w b).length by
    rw [listPipes, List.length_append], ← Nat.add_assoc]
  have he : after w (i+(listPipes w a).length) (i+(listPipes w a).length+(listPipes w b).length)
      (after w i (i+(listPipes w a).length) st r) =
      after w i (i+(listPipes w a).length+(listPipes w b).length) st :=
    funext fun r' => after_after hdue _ _ _ r r'
  rwa [he] at h2

/-- What follows a `then` part that was not due. -/
def TailRuns (m : Machine σ) (t : HushScript false) : Prop :=
  ∀ (pipes : List Pipe) (w : ReservedStyle) (i : ℕ) (st : Locals) (s : Shell σ), st.pi = some i →
    st.skipMore = .resXxxx → st.flagRestore = false → st.ifCode ≠ 0 → st.nextIfCode ≠ 0 →
    pipes.drop i = listPipes w t ++ closing .resFi →
    Final m pipes st s (Exec (meaning m) t st.rcode s)

/-- A list and the end of the compound. -/
theorem Segment.close {st : Locals} {s : Shell σ} {A : ℤ → Shell σ → Prop} {next : ℤ → Locals}
    (h : Segment m pipes st s A next)
    (hend : ∀ r s1, Final m pipes (next r) s1 (fun r' s' => r' = r ∧ s' = s1)) :
    Final m pipes st s A := by
  refine (h.final fun r s1 _ => hend r s1).congr ?_
  intro r s'
  constructor
  · rintro ⟨r1, s1, hA, hr⟩
    obtain ⟨rfl, rfl⟩ : r = r1 ∧ s' = s1 := by
      by_cases he : exits r1 <;> simpa [he] using hr
    exact hA
  · intro hA
    refine ⟨r, s', hA, ?_⟩
    by_cases he : exits r <;> simp [he]

/-- What follows a `then` part that has been run. -/
theorem tail_dead (t : HushScript false) (w : ReservedStyle) (i : ℕ) (st : Locals) (s : Shell σ)
    (hi : st.pi = some i) (hskip : st.skipMore = .resXxxx) (hfwd : st.flagRestore = false)
    (hif : st.ifCode = 0) (hnext : st.nextIfCode = 0)
    (hd : pipes.drop i = listPipes w t ++ closing .resFi) :
    Final m pipes st s (fun r s' => r = st.rcode ∧ s' = s) := by
  cases t with
  | fi => exact closing_final st (Or.inr (Or.inl rfl)) hskip hfwd hi hd s
  | orElse e =>
    intro x
    have hd' : pipes.drop (i+(listPipes .resElse e).length) = closing .resFi := by
      rw [← List.drop_drop, hd, listPipes, List.drop_left]
    rw [walk_pass rfl (by decide) (listPipes .resElse e) (listPipes_ne _ e) (listPipes_mode _ e) st i s
      _ hskip hfwd (Or.inr (Or.inl ⟨rfl, hnext⟩)) hi hd]
    exact closing_final (passed .resElse (i+(listPipes .resElse e).length) st) (Or.inr (Or.inl rfl)) rfl
      hfwd rfl hd' s x
  | elif c b t =>
    intro x
    obtain ⟨pi, ps, hps⟩ := List.exists_cons_of_ne_nil (listPipes_ne .resElif c)
    have hmode := listPipes_mode .resElif c pi (by simp [hps])
    rw [listPipes, hps] at hd
    obtain ⟨hpi, -⟩ := drop_cons hd
    have hstep : ∀ f, listStep m f pipes i pi st s = .ok (.leave st.rcode, s) := by
      intro f
      rw [listStep_open (by simp [hmode, looping]) (by rw [hskip, hmode]; simp), hmode,
        Locals.head_still _ _ rfl, listStepOpen, if_neg, if_pos]
      · rfl
      · exact ⟨hmode, by simpa [Locals.unskip] using hif⟩
      · simp [hmode, Locals.passes]
    constructor
    · rintro ⟨n, hn⟩
      cases n with
      | zero => exact absurd hn not_walks_zero
      | succ n =>
        rw [(walks_leave n st.rcode hi hpi hstep).mp hn]
        exact ⟨rfl, rfl⟩
    · rintro ⟨hr, hs⟩
      exact ⟨1, (walks_leave 0 st.rcode hi hpi hstep).mpr (Prod.ext hr hs)⟩

/-- The part of an `if` from a condition on. -/
theorem choose_final (w w' : ReservedStyle) (hw : w = .resIf ∨ w = .resElif) (c b : HushScript true)
    (t : HushScript false) (hcond : ListRuns m c) (hbody : ListRuns m b) (htail : TailRuns m t)
    (i : ℕ) (st : Locals) (s : Shell σ) (q : ℤ) (hdue : Due w st) (hi : st.pi = some i)
    (hfwd : st.flagRestore = false)
    (hd : pipes.drop i =
      listPipes w c ++ (listPipes .resThen b ++ (listPipes w' t ++ closing .resFi))) :
    Final m pipes st s (choose (Exec (meaning m) c) (Exec (meaning m) b) (Exec (meaning m) t) q s) := by
  have hd1 : pipes.drop (i+(listPipes w c).length) =
      listPipes .resThen b ++ (listPipes w' t ++ closing .resFi) := by
    rw [← List.drop_drop, hd, List.drop_left]
  have hd2 : pipes.drop (i+(listPipes w c).length+(listPipes .resThen b).length) =
      listPipes w' t ++ closing .resFi := by
    rw [← List.drop_drop, hd1, List.drop_left]
  refine (hcond pipes w i _ st s q hdue hi hd).final ?_
  intro r s1 _
  have hnext : (after w i (i+(listPipes w c).length) st r).nextIfCode = r := by
    rcases hw with rfl | rfl <;> simp [after, Locals.note]
  have hskip1 : (after w i (i+(listPipes w c).length) st r).skipMore = .resXxxx := by
    simp [after, Locals.note, Locals.unskip]
  have hfwd1 : (after w i (i+(listPipes w c).length) st r).flagRestore = false := by
    rcases hw with rfl | rfl <;> simp [after, Locals.note, Locals.unskip, Locals.head, looping, hfwd]
  by_cases h0 : r = 0
  · have hdue1 : Due .resThen (after w i (i+(listPipes w c).length) st r) :=
      ⟨by decide, hskip1, Or.inr hfwd1, fun _ => by rw [hnext, h0], by simp, by simp, by simp⟩
    simp only [if_pos h0]
    refine (hbody pipes .resThen _ _ _ s1 r hdue1 rfl hd1).close ?_
    intro r2 s2
    apply tail_dead t w' _ _ s2 rfl
    · simp [after, Locals.note, Locals.unskip]
    · simpa [after, Locals.note, Locals.unskip, Locals.head, looping] using hfwd1
    · simpa [after, Locals.note, Locals.unskip, Locals.head, looping] using hnext.trans h0
    · simpa [after, Locals.note, Locals.unskip, Locals.head, looping] using hnext.trans h0
    · exact hd2
  · intro x
    simp only [if_neg h0]
    rw [walk_pass rfl (by decide) (listPipes .resThen b) (listPipes_ne _ b) (listPipes_mode _ b) _ _ s1
      _ hskip1 hfwd1 (Or.inl ⟨rfl, by simpa [Locals.unskip, hnext] using h0⟩) rfl hd1]
    exact htail pipes w' _ (passed .resThen _ (after w i (i+(listPipes w c).length) st r)) s1 rfl rfl
      hfwd1 (by simpa [passed, Locals.unskip, hnext] using h0)
      (by simpa [passed, Locals.unskip, hnext] using h0) hd2 x

theorem fi_tail : TailRuns m .fi := by
  intro pipes w i st s hi hskip hfwd _ _ hd
  exact closing_final st (Or.inr (Or.inl rfl)) hskip hfwd hi hd s

theorem orElse_tail (e : HushScript true) (he : ListRuns m e) : TailRuns m (.orElse e) := by
  intro pipes w i st s hi hskip hfwd _ hnext hd
  have hd' : pipes.drop (i+(listPipes .resElse e).length) = closing .resFi := by
    rw [← List.drop_drop, hd, listPipes, List.drop_left]
  have hdue : Due .resElse st :=
    ⟨by decide, hskip, Or.inr hfwd, by simp, fun _ => hnext, by simp, by simp⟩
  refine (he pipes .resElse i _ st s st.rcode hdue hi hd).close ?_
  intro r s1
  refine closing_final _ (Or.inr (Or.inl rfl)) ?_ ?_ rfl hd' s1
  · simp [after, Locals.note, Locals.unskip]
  · simpa [after, Locals.note, Locals.unskip, Locals.head, looping] using hfwd

theorem elif_tail (c b : HushScript true) (t : HushScript false) (hcond : ListRuns m c)
    (hbody : ListRuns m b) (htail : TailRuns m t) : TailRuns m (.elif c b t) := by
  intro pipes w i st s hi hskip hfwd hif _ hd
  have hdue : Due .resElif st :=
    ⟨by decide, hskip, Or.inr hfwd, by simp, by simp, fun _ => hif, by simp⟩
  refine choose_final .resElif w (Or.inr rfl) c b t hcond hbody htail i st s st.rcode hdue hi hfwd ?_
  rw [hd, listPipes, List.append_assoc, List.append_assoc]

/-! ## Loops -/

/-- At the start of a round. -/
structure AtHead (st : Locals) : Prop where
  place : st.pi = some 0
  noSkip : st.skipMore = .resXxxx
  rpipe : st.rpipe = none ∨ st.rpipe = some 0

/-- Back from `done` to the head of the loop. -/
def back (st : Locals) : Locals := { st.unskip .resDone with flagRestore := true, pi := some 0 }

theorem done_step (j : ℕ) (st : Locals) (s : Shell σ) (hi : st.pi = some j)
    (hskip : st.skipMore = .resXxxx) (hrep : st.flagRep = true) (hr : st.rpipe = some 0)
    (hd : pipes.drop j = closing .resDone) (n : ℕ) (x : ℤ × Shell σ) :
    Walks m (n+1) pipes st s x ↔ Walks m n pipes (back st) s x := by
  obtain ⟨hpi, -⟩ := drop_cons hd
  have hdone : ((st.unskip .resDone).atDone .resDone).advance j = back st := by
    simp [back, Locals.atDone, Locals.advance, Locals.unskip, hrep, hr]
  apply walks_go n hi hpi
  intro f
  rw [listStep_empty f rfl (Or.inr (Or.inr rfl)) rfl hskip, hdone]

/-- The body of a loop that is over is passed over. -/
theorem over_final (b : HushScript true) (i : ℕ) (st : Locals) (s : Shell σ) (hi : st.pi = some i)
    (hskip : st.skipMore = .resXxxx) (hfwd : st.flagRestore = false) (hrep : st.flagRep = false)
    (hd : pipes.drop i = listPipes .resDo b ++ closing .resDone) :
    Final m pipes st s (fun r s' => r = st.rcode ∧ s' = s) := by
  intro x
  have hd' : pipes.drop (i+(listPipes .resDo b).length) = closing .resDone := by
    rw [← List.drop_drop, hd, List.drop_left]
  rw [walk_pass rfl (by decide) (listPipes .resDo b) (listPipes_ne _ b) (listPipes_mode _ b) st i s
    _ hskip hfwd (Or.inr (Or.inr (Or.inr ⟨rfl, hrep⟩))) hi hd]
  exact closing_final (passed .resDo (i+(listPipes .resDo b).length) st) (Or.inr (Or.inr ⟨rfl, hrep⟩))
    rfl hfwd rfl hd' s x

/-- The body of a loop that goes on, and the way back to its head. -/
theorem body_segment (b : HushScript true) (hbody : ListRuns m b) (i : ℕ) (st : Locals) (s : Shell σ)
    (q : ℤ) (hi : st.pi = some i) (hskip : st.skipMore = .resXxxx) (hfwd : st.flagRestore = false)
    (hrep : st.flagRep = true) (hr : st.rpipe = some 0)
    (hd : pipes.drop i = listPipes .resDo b ++ closing .resDone) :
    Segment m pipes st s (Exec (meaning m) b q s)
      (fun r => back (after .resDo i (i+(listPipes .resDo b).length) st r)) := by
  have hd' : pipes.drop (i+(listPipes .resDo b).length) = closing .resDone := by
    rw [← List.drop_drop, hd, List.drop_left]
  have hdue : Due .resDo st :=
    ⟨by decide, hskip, Or.inr hfwd, by simp, by simp, by simp, fun _ => hrep⟩
  refine (hbody pipes .resDo i _ st s q hdue hi hd).shift ?_
  intro r s1 n x
  apply done_step _ _ s1 rfl _ _ _ hd'
  · simp [after, Locals.note, Locals.unskip]
  · simpa [after, Locals.note, Locals.unskip, Locals.head, looping] using hrep
  · simpa [after, Locals.note, Locals.unskip, Locals.head, looping] using hr

/-- What the condition of a loop leaves behind. -/
structure Judged (sense : Bool) (j : ℕ) (st : Locals) (r : ℤ) : Prop where
  place : st.pi = some j
  noSkip : st.skipMore = .resXxxx
  forward : st.flagRestore = false
  rpipe : st.rpipe = some 0
  rep : st.flagRep = decide (again sense r)
  rcode : st.rcode = r

theorem AtHead.judged {st : Locals} (h : AtHead st) (sense : Bool) (j : ℕ) (r : ℤ) :
    Judged sense j (after (loopMode sense) 0 j st r) r := by
  have hr : st.rpipe.getD 0 = 0 := by
    rcases h.rpipe with h | h <;> rw [h] <;> rfl
  cases sense <;> constructor <;>
    simp [after, loopMode, Locals.note, Locals.unskip, Locals.head, looping, again, hr]

theorem AtHead.due {st : Locals} (h : AtHead st) (sense : Bool) : Due (loopMode sense) st := by
  cases sense <;>
    exact ⟨by decide, h.noSkip, Or.inl rfl, by simp [loopMode], by simp [loopMode], by simp [loopMode],
      by simp [loopMode]⟩

theorem atHead_back (i j : ℕ) (st : Locals) (r : ℤ) (h : st.rpipe = some 0) :
    AtHead (back (after .resDo i j st r)) :=
  ⟨rfl, rfl, Or.inr h⟩

section Rounds
variable (sense : Bool) (c b : HushScript true) (hcond : ListRuns m c) (hbody : ListRuns m b)
variable (hd : pipes = listPipes (loopMode sense) c ++ (listPipes .resDo b ++ closing .resDone))
include hcond hbody hd

theorem rounds_into (q r : ℤ) (s s' : Shell σ)
    (h : Rounds sense (Exec (meaning m) c) (Exec (meaning m) b) q s r s') (st : Locals)
    (hst : AtHead st) : Walk m pipes st s (r, s') := by
  have hd1 : pipes.drop (0+(listPipes (loopMode sense) c).length) =
      listPipes .resDo b ++ closing .resDone := by
    rw [Nat.zero_add, hd, List.drop_left]
  induction h generalizing st with
  | stop q r s s1 hC hstop =>
    have hj := hst.judged sense (0+(listPipes (loopMode sense) c).length) r
    refine (hcond pipes _ 0 _ st s q (hst.due sense) hst.place hd).into _ r s1 hC ?_
    by_cases he : exits r
    · rw [if_pos he]
    · rw [if_neg he]
      have hn := hstop.resolve_left he
      have hover := over_final (m := m) b _ _ s1 hj.place hj.noSkip hj.forward
        (by rw [hj.rep]; exact decide_eq_false hn) hd1
      exact (hover (r, s1)).mpr ⟨hj.rcode.symm, rfl⟩
  | leave q r r2 s s1 s2 hC hne ha hB he =>
    have hj := hst.judged sense (0+(listPipes (loopMode sense) c).length) r
    refine (hcond pipes _ 0 _ st s q (hst.due sense) hst.place hd).into _ r s1 hC ?_
    rw [if_neg hne]
    refine (body_segment b hbody _ _ s1 r hj.place hj.noSkip hj.forward
      (by rw [hj.rep]; exact decide_eq_true ha) hj.rpipe hd1).into _ r2 s2 hB ?_
    rw [if_pos he]
  | next q r r2 r3 s s1 s2 s3 hC hne ha hB hne2 _ ih =>
    have hj := hst.judged sense (0+(listPipes (loopMode sense) c).length) r
    refine (hcond pipes _ 0 _ st s q (hst.due sense) hst.place hd).into _ r s1 hC ?_
    rw [if_neg hne]
    refine (body_segment b hbody _ _ s1 r hj.place hj.noSkip hj.forward
      (by rw [hj.rep]; exact decide_eq_true ha) hj.rpipe hd1).into _ r2 s2 hB ?_
    rw [if_neg hne2]
    exact ih _ (atHead_back _ _ _ _ hj.rpipe)

theorem rounds_out (n : ℕ) (q : ℤ) (s : Shell σ) (x : ℤ × Shell σ) (st : Locals) (hst : AtHead st)
    (h : Walks m n pipes st s x) :
    Rounds sense (Exec (meaning m) c) (Exec (meaning m) b) q s x.1 x.2 := by
  have hd1 : pipes.drop (0+(listPipes (loopMode sense) c).length) =
      listPipes .resDo b ++ closing .resDone := by
    rw [Nat.zero_add, hd, List.drop_left]
  induction n using Nat.strongRecOn generalizing q s st with
  | ind n ih =>
    obtain ⟨r, s1, hC, hx⟩ := (hcond pipes _ 0 _ st s q (hst.due sense) hst.place hd).out n x h
    have hj := hst.judged sense (0+(listPipes (loopMode sense) c).length) r
    by_cases he : exits r
    · rw [if_pos he] at hx
      rw [hx]
      exact .stop q r s s1 hC (Or.inl he)
    · rw [if_neg he] at hx
      obtain ⟨n1, hn1, hw⟩ := hx
      by_cases ha : again sense r
      · obtain ⟨r2, s2, hB, hx2⟩ := (body_segment b hbody _ _ s1 r hj.place hj.noSkip hj.forward
          (by rw [hj.rep]; exact decide_eq_true ha) hj.rpipe hd1).out n1 x hw
        by_cases he2 : exits r2
        · rw [if_pos he2] at hx2
          rw [hx2]
          exact .leave q r r2 s s1 s2 hC he ha hB he2
        · rw [if_neg he2] at hx2
          obtain ⟨n2, hn2, hw2⟩ := hx2
          exact .next q r r2 x.1 s s1 s2 x.2 hC he ha hB he2
            (ih n2 (by omega) r2 s2 _ (atHead_back _ _ _ _ hj.rpipe) hw2)
      · have hover := over_final (m := m) b _ _ s1 hj.place hj.noSkip hj.forward
          (by rw [hj.rep]; exact decide_eq_false ha) hd1
        obtain ⟨hr, hs⟩ := (hover x).mp ⟨n1, hw⟩
        rw [hr, hs, hj.rcode]
        exact .stop q r s s1 hC (Or.inr ha)

end Rounds

/-! ## `for` -/

theorem assignment (h : LoopHead) (v : Text) : isAssignment (h.name ++ '='::v) = true := by
  have hrest : ∀ c ∈ h.rest, nameChar c = true := by
    intro c hc
    exact h.nameChars c (by rw [h.name_eq]; simp [hc])
  have heq : nameChar '=' = false := by decide
  rw [h.name_eq, List.cons_append, isAssignment]
  simp [h.letter, List.dropWhile_append_of_pos hrest, heq]

theorem makeListIn_assignments (h : LoopHead) (words : List Text) (s : Shell σ) :
    ∀ v ∈ (makeListIn m h.name words s).1, isAssignment v = true := by
  induction words generalizing s with
  | nil => simp [makeListIn]
  | cons word words ih =>
    intro v hv
    rw [makeListIn] at hv
    rcases List.mem_append.mp hv with hv | hv
    · obtain ⟨t, -, rfl⟩ := List.mem_map.mp hv
      exact assignment h t
    · exact ih _ v hv

theorem assign_runs (v : Text) (hv : isAssignment v = true) (s : Shell σ) (x : ℤ × Shell σ) :
    PipeRuns m ⟨[v], [], 0, .pipeSeq, .resFor⟩ s x ↔ x = (0, setVars m [v] s) := by
  have h : ∀ n, runPipeReal m (n+1) ⟨[v], [], 0, .pipeSeq, .resFor⟩ s =
      .ok (0, setVars m [v] s) := by
    intro n
    simp [runPipeReal, runSimple, hv]
  constructor
  · rintro ⟨n, hn⟩
    cases n with
    | zero => cases hn
    | succ n =>
      rw [h] at hn
      cases hn
      rfl
  · intro hx
    exact ⟨1, by rw [h, hx]⟩

/-- The first pipe of a `for`. -/
def LoopHead.forPipe (h : LoopHead) : Pipe := ⟨[h.name], [], 0, .pipeSeq, .resFor⟩

def LoopHead.inPipe (h : LoopHead) : Pipe :=
  ⟨h.values.map Word.data, [], (h.values.map Word.vars).sum, .pipeSeq, .resIn⟩

/-- What a round of `for` does with the values that are left. -/
def forTurn (f : ℕ → Pipe → Shell σ → Run (ℤ × Shell σ)) (st : Locals) (s : Shell σ) :
    List Text → Run (Control × Shell σ)
  | [] => .ok (.goOn { st with list := none, flagRep := false, pi := some 1 }, s)
  | v::vs => runBody f 0 ⟨[v], [], 0, .pipeSeq, .resFor⟩ { st with list := some vs, flagRep := true } s

/-- A value has been assigned and `vs` are left. -/
def turned (st : Locals) (vs : List Text) : Locals :=
  { (st.head 0 .resFor).unskip .resFor with
    list := some vs
    flagRep := true
    rcode := 0
    pi := some 1 }

section Each
variable (h : LoopHead) (b : HushScript true)
variable (hp : pipes = h.forPipe::h.inPipe::(listPipes .resDo b ++ closing .resDone))
include hp

/-- The loop is over: `in` and the body are passed over. -/
theorem for_over (st : Locals) (s : Shell σ) (hi : st.pi = some 1) (hskip : st.skipMore = .resXxxx)
    (hfwd : st.flagRestore = false) (hrep : st.flagRep = false) :
    Final m pipes st s (fun r s' => r = st.rcode ∧ s' = s) := by
  intro x
  have hd : pipes.drop 1 = [h.inPipe] ++ (listPipes .resDo b ++ closing .resDone) := by rw [hp]; rfl
  have hd' : pipes.drop 2 = listPipes .resDo b ++ closing .resDone := by rw [hp]; rfl
  rw [walk_pass rfl (by decide) [h.inPipe] (by simp) (by simp [LoopHead.inPipe]) st 1 s _ hskip hfwd
    (Or.inr (Or.inr (Or.inl rfl))) hi hd]
  exact over_final b 2 (passed .resIn 2 st) s rfl rfl hfwd hrep hd' x

/-- A value has been taken: `in` is passed over and the body is run. -/
theorem for_body (hbody : ListRuns m b) (st : Locals) (s : Shell σ) (hi : st.pi = some 1)
    (hskip : st.skipMore = .resXxxx) (hfwd : st.flagRestore = false) (hrep : st.flagRep = true)
    (hr : st.rpipe = some 0) :
    Segment m pipes st s (Exec (meaning m) b 0 s)
      (fun r => back (after .resDo 2 (2+(listPipes .resDo b).length) (passed .resIn 2 st) r)) := by
  have hd : pipes.drop 1 = [h.inPipe] ++ (listPipes .resDo b ++ closing .resDone) := by rw [hp]; rfl
  have hd' : pipes.drop 2 = listPipes .resDo b ++ closing .resDone := by rw [hp]; rfl
  have hpass := pass_list (m := m) (w := .resIn) rfl (by decide) [h.inPipe] (by simp)
    (by simp [LoopHead.inPipe]) st 1 s _ hskip hfwd (Or.inr (Or.inr (Or.inl rfl))) hi hd
  have hseg := body_segment b hbody 2 (passed .resIn 2 st) s 0 rfl rfl hfwd hrep hr hd'
  constructor
  · intro x r s1 hB hx
    obtain ⟨n, hn⟩ := hseg.into x r s1 hB hx
    exact ⟨n+1, (hpass n x).mpr hn⟩
  · intro n x hn
    cases n with
    | zero => exact absurd hn not_walks_zero
    | succ n =>
      obtain ⟨r, s1, hB, hx⟩ := hseg.out n x ((hpass n x).mp hn)
      refine ⟨r, s1, hB, ?_⟩
      by_cases he : exits r
      · rwa [if_pos he] at hx ⊢
      · rw [if_neg he] at hx ⊢
        obtain ⟨n1, hn1, hw⟩ := hx
        exact ⟨n1, by omega, hw⟩

end Each

variable (hc : ∀ u, m.hadCtrlc u = false)
include hc

theorem simple_runs (c : ScriptCommand) : ListRuns m (.simple c) := by
  intro pipes w i post st s q hdue hi hd
  obtain ⟨hpi, -⟩ := drop_cons hd
  have hp : (c.pipe .pipeSeq w).numProgs ≠ 0 := by
    have h : c.argv ≠ [] := by simpa [Command.argv] using c.nonempty
    simp [Pipe.numProgs, Command.pipe, h]
  have h := due_segment hc hdue rfl rfl hp hi hpi s
  simp only [pipeRuns_mode] at h
  exact h

/-- A compound command, from what its group does. -/
theorem compound_runs (group : List Pipe) (A : Rel (Shell σ)) (hne : group ≠ [])
    (hsyn : forSyntax group = true)
    (hclip : ∀ s r s', A 0 s r s' → clip r = r)
    (hfinal : ∀ s, Final m group Locals.start s (A 0 s)) (pipes : List Pipe) (w : ReservedStyle)
    (i : ℕ) (post : List Pipe) (st : Locals) (s : Shell σ) (q : ℤ) (hdue : Due w st)
    (hi : st.pi = some i) (hd : pipes.drop i = [groupPipe group w] ++ post) :
    Segment m pipes st s (closed (meaning m) A q s) (after w i (i+1) st) := by
  obtain ⟨hpi, -⟩ := drop_cons hd
  have hp : (groupPipe group w).numProgs ≠ 0 := by simp [Pipe.numProgs, groupPipe, hne]
  have h := due_segment hc hdue rfl rfl hp hi hpi s
  have hR : (fun (r : ℤ) (s' : Shell σ) => ∃ rc s1, PipeRuns m (groupPipe group w) s (rc, s1) ∧
      r = clip rc ∧ s' = s1.record rc) = closed (meaning m) A q s := by
    funext r s'
    refine propext ⟨?_, ?_⟩
    · rintro ⟨rc, s1, hrun, hr, hs'⟩
      have hA := (hfinal s (rc, s1)).mp ((group_runs group w hne hsyn s _).mp hrun)
      rw [hclip s rc s1 hA] at hr
      rw [hr]
      exact ⟨s1, hA, hs'⟩
    · rintro ⟨s1, hA, hs'⟩
      exact ⟨r, s1, (group_runs group w hne hsyn s _).mpr ((hfinal s (r, s1)).mpr hA),
        (hclip s r s1 hA).symm, hs'⟩
  rwa [hR] at h

omit hc in
theorem closing_noFor (w : ReservedStyle) (hw : w ≠ .resIn ∧ w ≠ .resFor) :
    ∀ pi ∈ closing w, pi.rMode ≠ .resIn ∧ pi.rMode ≠ .resFor := by
  simp [closing, newPipe, hw]

theorem branch_runs (c b : HushScript true) (t : HushScript false) (hcond : ListRuns m c)
    (hbody : ListRuns m b) (htail : TailRuns m t) : ListRuns m (.branch c b t) := by
  intro pipes w i post st s q hdue hi hd
  refine compound_runs hc _ (choose (Exec (meaning m) c) (Exec (meaning m) b) (Exec (meaning m) t))
    ?_ ?_ ?_ ?_ pipes w i post st s q hdue hi hd
  · simp [closing]
  · apply forSyntax_noFor
    intro pi hpi
    simp only [List.mem_append] at hpi
    rcases hpi with ((h | h) | h) | h
    · simp [listPipes_mode _ c pi h]
    · simp [listPipes_mode _ b pi h]
    · rcases tailPipes_mode w t pi h with h | h | h <;> simp [h]
    · exact closing_noFor _ (by decide) pi h
  · intro s r s' h
    exact choose_clipped (fun q s r s' => Exec.clipped c q r s s') (fun q s r s' => Exec.clipped b q r s s')
      (fun q s r s' => Exec.clipped t q r s s') 0 r s s' h rfl
  · intro s
    refine choose_final .resIf w (Or.inl rfl) c b t hcond hbody htail 0 Locals.start s 0 ?_ rfl rfl ?_
    · exact ⟨by decide, rfl, Or.inr rfl, by simp, by simp, by simp, by simp⟩
    · rw [List.drop_zero, List.append_assoc, List.append_assoc]

theorem loop_runs (sense : Bool) (c b : HushScript true) (hcond : ListRuns m c)
    (hbody : ListRuns m b) : ListRuns m (.loop sense c b) := by
  intro pipes w i post st s q hdue hi hd
  refine compound_runs hc _ (Rounds sense (Exec (meaning m) c) (Exec (meaning m) b))
    ?_ ?_ ?_ ?_ pipes w i post st s q hdue hi hd
  · simp [closing]
  · apply forSyntax_noFor
    intro pi hpi
    simp only [List.mem_append] at hpi
    rcases hpi with (h | h) | h
    · rw [listPipes_mode _ c pi h]
      cases sense <;> decide
    · simp [listPipes_mode _ b pi h]
    · exact closing_noFor _ (by decide) pi h
  · intro s r s' h
    exact h.clipped (fun q s r s' => Exec.clipped c q r s s') (fun q s r s' => Exec.clipped b q r s s') rfl
  · intro s x
    have hhead : AtHead Locals.start := ⟨rfl, rfl, Or.inl rfl⟩
    constructor
    · rintro ⟨n, hn⟩
      exact rounds_out sense c b hcond hbody (List.append_assoc _ _ _) n 0 s x _ hhead hn
    · intro h
      exact rounds_into sense c b hcond hbody (List.append_assoc _ _ _) 0 x.1 s x.2 h _ hhead

/-! ### The rounds of `for` -/

section EachRounds
variable (h : LoopHead)

theorem for_turn (st : Locals) (s s' : Shell σ) (vs : List Text) (hskip : st.skipMore = .resXxxx)
    (hval : forValue m pipes 0 h.forPipe ((st.head 0 .resFor).unskip .resFor) s =
      match vs with
      | [] => ({ (st.head 0 .resFor).unskip .resFor with list := none, flagRep := false }, none, s')
      | v::vs => ({ (st.head 0 .resFor).unskip .resFor with list := some vs, flagRep := true },
          some ⟨[v], [], 0, .pipeSeq, .resFor⟩, s'))
    (f : ℕ → Pipe → Shell σ → Run (ℤ × Shell σ)) :
    listStep m f pipes 0 h.forPipe st s = forTurn f ((st.head 0 .resFor).unskip .resFor) s' vs := by
  rw [listStep_open (fun _ => hc _) (by rw [hskip]; simp [LoopHead.forPipe])]
  rw [listStepOpen, if_neg (by simp [LoopHead.forPipe, Locals.passes]),
    if_neg (by simp [LoopHead.forPipe]), if_pos (by simp [LoopHead.forPipe, Pipe.numProgs]),
    show h.forPipe.rMode = .resFor from rfl, hval]
  cases vs with
  | nil => simp [forTurn, Locals.advance, Locals.head, Locals.unskip, looping]
  | cons v vs => rfl

/-- Behind the first round the values come from the list. -/
theorem for_again (st : Locals) (s : Shell σ) (vs : List Text) (hst : AtHead st)
    (hlist : st.list = some vs) (hr : st.rpipe = some 0) (hrep : st.flagRep = true)
    (f : ℕ → Pipe → Shell σ → Run (ℤ × Shell σ)) :
    listStep m f pipes 0 h.forPipe st s = forTurn f ((st.head 0 .resFor).unskip .resFor) s vs := by
  apply for_turn hc h st s s vs hst.noSkip
  cases vs <;> simp [forValue, Locals.head, Locals.unskip, looping, hlist, hrep, hr, LoopHead.forPipe]

variable (b : HushScript true)
variable (hp : pipes = h.forPipe::h.inPipe::(listPipes .resDo b ++ closing .resDone))
include hp

/-- The first round makes the list. -/
theorem for_start (s : Shell σ) (f : ℕ → Pipe → Shell σ → Run (ℤ × Shell σ)) :
    listStep m f pipes 0 h.forPipe Locals.start s =
      forTurn f ((Locals.start.head 0 .resFor).unskip .resFor)
        (makeListIn m h.name (h.values.map Word.data) s).2
        (makeListIn m h.name (h.values.map Word.data) s).1 := by
  apply for_turn hc h Locals.start s _ _ rfl
  have hnext : (pipes[1]?.getD newPipe).argv = h.values.map Word.data := by rw [hp]; rfl
  by_cases hv : h.values.map Word.data = []
  · simp [forValue, hnext, hv, makeListIn, Locals.head, Locals.unskip, looping, Locals.start]
  · rcases hm : makeListIn m h.name (h.values.map Word.data) s with ⟨vs, s1⟩
    cases vs <;>
      simp [forValue, hnext, hv, hm, Locals.head, Locals.unskip, looping, Locals.start, LoopHead.forPipe]

/-- The rounds from one that has `vs` left. -/
theorem values_final (hbody : ListRuns m b) (vs : List Text) (hvs : ∀ v ∈ vs, isAssignment v = true)
    (st : Locals) (s s0 : Shell σ) (hst : AtHead st)
    (hturn : ∀ f, listStep m f pipes 0 h.forPipe st s =
      forTurn f ((st.head 0 .resFor).unskip .resFor) s0 vs) :
    Final m pipes st s (values (meaning m).assign (Exec (meaning m) b) vs st.rcode s0) := by
  have hpi : pipes[0]? = some h.forPipe := by rw [hp]; rfl
  induction vs generalizing st s s0 with
  | nil =>
    intro x
    rw [walk_step fun n => walks_go n hst.place hpi hturn]
    exact for_over h b hp _ s0 rfl rfl (by simp [Locals.head, Locals.unskip, looping]) rfl x
  | cons v vs ih =>
    have hr : st.rpipe.getD 0 = 0 := by
      rcases hst.rpipe with h | h <;> rw [h] <;> rfl
    have hrun : ∀ f, listStep m f pipes 0 h.forPipe st s = (do
        let r ← f 0 ⟨[v], [], 0, .pipeSeq, .resFor⟩ s0
        .ok (afterRun 0 ⟨[v], [], 0, .pipeSeq, .resFor⟩
          { (st.head 0 .resFor).unskip .resFor with list := some vs, flagRep := true } r.1,
          r.2.record r.1)) := by
      intro f
      rw [hturn]
      exact runBody_run (by simp [Pipe.numProgs])
    have hadv : (({ (st.head 0 .resFor).unskip .resFor with list := some vs, flagRep := true } :
        Locals).note .resFor .pipeSeq 0).advance 0 = turned st vs := by
      simp [turned, Locals.note, Locals.advance, Locals.unskip, Locals.head, looping]
    have hstep : ∀ n x, Walks m (n+1) pipes st s x ↔
        Walks m n pipes (turned st vs) ((meaning m).assign v s0) x := by
      intro n x
      rw [walks_run n ⟨[v], [], 0, .pipeSeq, .resFor⟩ _ s0 hst.place hpi hrun]
      simp only [assign_runs v (hvs v (by simp)), Prod.mk.injEq]
      constructor
      · rintro ⟨r, s1, ⟨rfl, rfl⟩, hw⟩
        rw [if_neg (by decide), hadv] at hw
        exact hw
      · intro hw
        refine ⟨0, _, ⟨rfl, rfl⟩, ?_⟩
        rw [if_neg (by decide), hadv]
        exact hw
    have hseg := for_body h b hp hbody (turned st vs) ((meaning m).assign v s0) rfl
      rfl (by simp [turned, Locals.head, Locals.unskip, looping]) rfl
      (by simp [turned, Locals.head, Locals.unskip, looping, hr])
    intro x
    rw [walk_step fun n => hstep n x]
    refine hseg.final (B := fun r s1 => values (meaning m).assign (Exec (meaning m) b) vs r s1) ?_ x
    intro r s1 _
    have hhead := atHead_back 2 (2+(listPipes .resDo b).length) (passed .resIn 2 (turned st vs)) r
      (by simp [passed, turned, Locals.head, Locals.unskip, looping, hr])
    refine ih (fun v hv => hvs v (by simp [hv])) _ s1 s1 hhead ?_
    exact for_again hc h _ s1 vs hhead rfl
      (by simp [back, after, passed, turned, Locals.note, Locals.head, Locals.unskip, looping, hr]) rfl

end EachRounds

theorem each_runs (h : LoopHead) (b : HushScript true) (hbody : ListRuns m b) :
    ListRuns m (.each h b) := by
  intro pipes w i post st s q hdue hi hd
  refine compound_runs hc _ (fun q s => values (meaning m).assign (Exec (meaning m) b)
    ((meaning m).start h s).1 q ((meaning m).start h s).2) ?_ ?_ ?_ ?_ pipes w i post st s q hdue hi hd
  · simp [closing]
  · have hrest : forSyntax (listPipes .resDo b ++ closing .resDone) = true := by
      apply forSyntax_noFor
      intro pi hpi
      rcases List.mem_append.mp hpi with h | h
      · simp [listPipes_mode _ b pi h]
      · exact closing_noFor _ (by decide) pi h
    obtain ⟨pi, ps, hps⟩ := List.exists_cons_of_ne_nil (listPipes_ne .resDo b)
    have hmode := listPipes_mode .resDo b pi (by simp [hps])
    rw [hps, List.cons_append] at hrest
    simp [LoopHead.pipes, hps, forSyntax, hmode, hrest]
  · intro s r s' h
    exact values_clipped (fun q s r s' => Exec.clipped b q r s s') _ 0 r _ s' h rfl
  · intro s
    have hhead : AtHead Locals.start := ⟨rfl, rfl, Or.inl rfl⟩
    exact values_final hc h b rfl hbody _ (makeListIn_assignments h _ s) Locals.start s _ hhead
      (for_start hc h b rfl s)

/-! ## Scripts -/

theorem script_runs {k : Bool} (sc : HushScript k) :
    match k, sc with
    | true, sc => ListRuns m sc
    | false, t => TailRuns m t := by
  induction sc with
  | simple c => exact simple_runs hc c
  | seq a b ha hb => exact seq_runs a b ha hb
  | branch c b t hcond hbody htail => exact branch_runs hc c b t hcond hbody htail
  | loop sense c b hcond hbody => exact loop_runs hc sense c b hcond hbody
  | each h b hbody => exact each_runs hc h b hbody
  | fi => exact fi_tail
  | orElse e he => exact orElse_tail e he
  | elif c b t hcond hbody htail => exact elif_tail c b t hcond hbody htail

/-- The whole list of a line. -/
theorem line_final (sc : HushScript true) (s : Shell σ) :
    Final m (listPipes .resNone sc ++ closing .resNone) Locals.start s (Exec (meaning m) sc 0 s) := by
  have hdue : Due .resNone Locals.start :=
    ⟨by decide, rfl, Or.inr rfl, by simp, by simp, by simp, by simp⟩
  have hd : (listPipes .resNone sc ++ closing .resNone).drop (0+(listPipes .resNone sc).length) =
      closing .resNone := by
    rw [Nat.zero_add, List.drop_left]
  have hlist : ListRuns m sc := script_runs hc sc
  refine (hlist _ .resNone 0 _ Locals.start s 0 hdue rfl rfl).close ?_
  intro r s1
  refine closing_final _ (Or.inl rfl) ?_ ?_ rfl hd s1
  · simp [after, Locals.note, Locals.unskip]
  · rfl

omit hc in
theorem runList_iff (ps : List Pipe) (hsyn : forSyntax ps = true) (s : Shell σ) (x : ℤ × Shell σ) :
    (∃ n, runList m n ps s = .ok x) ↔ Walk m ps Locals.start s x := by
  simp only [walk_iff, runList, runListReal, if_pos hsyn]

omit hc in
theorem finishList_ready (ps : List Pipe) :
    finishList true (ready ps .resNone [] []) = ps ++ closing .resNone := by
  rw [finishList, show doneWord true (ready ps .resNone [] []) = (false, ready ps .resNone [] []) from
    doneWord_empty (ready ps .resNone [] []) [] 0]
  simp [Parse.donePipe, PContext.donePipe, PContext.listHead, ready, closing, newPipe]

/-- A script is parsed without an error and its list does what the script says. -/
theorem script_run (sc : HushScript true) (s : Shell σ) :
    ∃ p, parseStream stdMap true (startParse false) (scriptText sc ++ ['\n']) = .done 0 p [] ∧
      p.ctx.oldFlag = [] ∧
      ∀ r s', (∃ n, runList m n (finishList true p) s = .ok (r, s')) ↔
        Exec (meaning m) sc 0 s r s' := by
  refine ⟨ready (listPipes .resNone sc) .resNone [] [], script_parsed sc, rfl, ?_⟩
  intro r s'
  have hsyn : forSyntax (listPipes .resNone sc ++ closing .resNone) = true := by
    apply forSyntax_noFor
    intro pi hpi
    rcases List.mem_append.mp hpi with h | h
    · simp [listPipes_mode _ sc pi h]
    · exact closing_noFor _ (by decide) pi h
  rw [finishList_ready, runList_iff _ hsyn]
  exact line_final hc sc s (r, s')

end Compounds

def falseCommand : ScriptCommand where
  words := [⟨"false".toList.map .lit, by decide, by simp [Piece.Valid]; decide⟩]
  nonempty := by simp
  notReserved := by decide
  steady := by decide

def emptyHead : LoopHead :=
  ⟨['x'], 'x', [], rfl, by decide, by simpa using (by decide : nameChar 'x' = true), by decide, [],
    by simp⟩

/-- `false; for x in; do false; done`. -/
def emptyLoop : HushScript true := .seq (.simple falseCommand) (.each emptyHead (.simple falseCommand))

theorem script_run_failing : (∀ u, failing.hadCtrlc u = false) ∧
    ∃ p, parseStream stdMap true (startParse false) (scriptText emptyLoop ++ ['\n']) = .done 0 p [] ∧
      p.ctx.oldFlag = [] ∧
      ∀ r s', (∃ n, runList failing n (finishList true p) ⟨0, [], false, [], ()⟩ = .ok (r, s')) ↔
        Exec (meaning failing) emptyLoop 0 ⟨0, [], false, [], ()⟩ r s' :=
  ⟨fun _ => rfl, script_run (fun _ => rfl) emptyLoop _⟩

/-- The only command that was run has failed. -/
theorem empty_loop_succeeds : ∃ p,
    parseStream stdMap true (startParse false) (scriptText emptyLoop ++ ['\n']) = .done 0 p [] ∧
      p.ctx.oldFlag = [] ∧ (∀ argv s, (failing.cmdProcess argv s).1 = 1) ∧
      runList failing 9 (finishList true p) ⟨0, [], false, [], ()⟩ =
        .ok (0, ⟨0, [], false, [["false".toList]], ()⟩) := by
  refine ⟨ready (listPipes .resNone emptyLoop) .resNone [] [], script_parsed emptyLoop, rfl,
    fun _ _ => rfl, ?_⟩
  decide +kernel

end UBoot.Hush
