import UBoot.StepLoop

/-!
# Programs that ask

A program asks for values and goes on with the answers. It can be run over a state
that changes with each question, and over a function that answers each one; where
all that is asked is allowed, both give the same.
-/

set_option autoImplicit false

namespace UBoot.StepLoop

/-- A result, or a question with what is done for each answer. -/
inductive Asking (ι ο α : Type) where
  | done (result : α)
  | ask (question : ι) (go : ο → Asking ι ο α)

namespace Asking

variable {ι ο α β S : Type}

def bind : Asking ι ο α → (α → Asking ι ο β) → Asking ι ο β
  | done a, f => f a
  | ask i go, f => ask i fun o => (go o).bind f

def run (answer : S → ι → ο × S) : Asking ι ο α → S → α × S
  | done a, s => (a, s)
  | ask i go, s => (go (answer s i).1).run answer (answer s i).2

/-- All that is asked is allowed in the state in which it is asked. -/
def RunOk (answer : S → ι → ο × S) (ok : S → ι → Prop) : Asking ι ο α → S → Prop
  | done _, _ => True
  | ask i go, s => ok s i ∧ (go (answer s i).1).RunOk answer ok (answer s i).2

def value (val : ι → ο) : Asking ι ο α → α
  | done a => a
  | ask i go => (go (val i)).value val

def asked (val : ι → ο) : Asking ι ο α → List ι
  | done _ => []
  | ask i go => i::(go (val i)).asked val

@[simp] theorem value_bind (val : ι → ο) (p : Asking ι ο α) (f : α → Asking ι ο β) :
    (p.bind f).value val = (f (p.value val)).value val := by
  induction p with
  | done a => rfl
  | ask i go ih => exact ih _

section Agree

variable {answer : S → ι → ο × S} {ok : S → ι → Prop} {allowed : ι → Prop} {val : ι → ο}
  {I : S → Prop}

/-- The states answer what is allowed as the function does. -/
structure Answers (answer : S → ι → ο × S) (ok : S → ι → Prop) (allowed : ι → Prop) (val : ι → ο)
    (I : S → Prop) : Prop where
  ok_iff : ∀ s i, I s → (ok s i ↔ allowed i)
  answer_eq : ∀ s i, I s → allowed i → (answer s i).1 = val i ∧ I (answer s i).2

theorem Answers.run_iff (h : Answers answer ok allowed val I) (p : Asking ι ο α) {s : S} (hs : I s) :
    (p.RunOk answer ok s ↔ ∀ i ∈ p.asked val, allowed i) ∧
      (p.RunOk answer ok s → (p.run answer s).1 = p.value val ∧ I (p.run answer s).2) := by
  induction p generalizing s with
  | done a => exact ⟨iff_of_true trivial nofun, fun _ => ⟨rfl, hs⟩⟩
  | ask i go ih =>
    rw [RunOk, asked, List.forall_mem_cons, run, value, h.ok_iff s i hs]
    by_cases hi : allowed i
    · obtain ⟨heq, hnext⟩ := h.answer_eq s i hs hi
      obtain ⟨hiff, hrun⟩ := ih (answer s i).1 hnext
      rw [heq] at hiff hrun ⊢
      exact ⟨and_congr_right fun _ => hiff, fun hok => hrun hok.2⟩
    · exact ⟨iff_of_false (fun hok => hi hok.1) fun hall => hi hall.1, fun hok => absurd hok.1 hi⟩

end Agree

/-! ## Rounds that ask -/

section Loop

variable {σ : Type} (round : σ → Asking ι ο (Option σ))

/-- One round of a loop over states that answer. -/
def loopStep (answer : S → ι → ο × S) (c : S × σ) : Option (S × σ) :=
  let r := (round c.2).run answer c.1
  r.1.map fun next => (r.2, next)

def LoopOk (answer : S → ι → ο × S) (ok : S → ι → Prop) (c : S × σ) : Prop :=
  (round c.2).RunOk answer ok c.1

/-- The same loop with the function's answers. -/
def walk (val : ι → ο) (c : σ) : Option σ := (round c).value val

def WalkOk (val : ι → ο) (allowed : ι → Prop) (c : σ) : Prop :=
  ∀ i ∈ (round c).asked val, allowed i

variable {round} {answer : S → ι → ο × S} {ok : S → ι → Prop} {allowed : ι → Prop} {val : ι → ο}
  {I : S → Prop}

theorem Answers.loop_iff (h : Answers answer ok allowed val I) {s : S} (hs : I s) (c : σ) :
    EndsWithin (loopStep round answer) (LoopOk round answer ok) (s, c) ↔
      EndsWithin (walk round val) (WalkOk round val allowed) c := by
  refine endsWithin_congr (R := fun a b => I a.1 ∧ a.2 = b) ?_ ⟨hs, rfl⟩
  rintro ⟨s, c⟩ _ ⟨hs, rfl⟩
  obtain ⟨hiff, hrun⟩ := h.run_iff (round c) hs
  refine ⟨hiff, fun hok => ?_⟩
  obtain ⟨heq, hnext⟩ := hrun hok
  unfold loopStep walk
  dsimp only
  rw [heq]
  cases (round c).value val with
  | none => exact ⟨iff_of_true rfl rfl, fun _ _ ha => by cases ha⟩
  | some next =>
    refine ⟨iff_of_false nofun nofun, fun a b ha hb => ?_⟩
    cases ha
    cases hb
    exact ⟨hnext, rfl⟩

/-- A loop over finitely many states is left, with nothing asked that is not allowed, if and only
if it asks for nothing else and comes to no state twice. -/
theorem Answers.loop_iff_noReturn (h : Answers answer ok allowed val I) {s : S} (hs : I s) {c : σ}
    (hfin : {t | Reaches (walk round val) c t}.Finite) :
    EndsWithin (loopStep round answer) (LoopOk round answer ok) (s, c) ↔
      (∀ t, Reaches (walk round val) c t → WalkOk round val allowed t) ∧
        NoReturn (walk round val) c := by
  rw [h.loop_iff hs, EndsWithin, ends_iff_noReturn hfin, and_comm]

end Loop

end Asking

end UBoot.StepLoop
