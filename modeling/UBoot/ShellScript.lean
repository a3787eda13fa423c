import Mathlib.Data.Int.Notation
import Mathlib.Tactic.Common

/-!
# Scripts of compound commands

The syntax of `if`, `while`, `until` and `for` over arbitrary simple commands and
loop heads, and what such a script does. A status below -1 ends the whole script.
The status of a script is that of the last command it has run; a compound
command starts from 0.
-/

set_option autoImplicit false

namespace UBoot.ShellScript

/-- With index `true` a list of commands, with index `false` what stands behind a
`then` part. -/
inductive Script (α β : Type) : Bool → Type
  | simple (a : α) : Script α β true
  | seq (a b : Script α β true) : Script α β true
  | branch (c b : Script α β true) (t : Script α β false) : Script α β true
  | loop (sense : Bool) (c b : Script α β true) : Script α β true
  | each (h : β) (b : Script α β true) : Script α β true
  | fi : Script α β false
  | orElse (e : Script α β true) : Script α β false
  | elif (c b : Script α β true) (t : Script α β false) : Script α β false

/-- The simple commands, the values of a loop head, the assignment of one value
and what is kept of a status. -/
structure Meaning (α β γ S : Type) where
  act : α → S → ℤ → S → Prop
  start : β → S → List γ × S
  assign : γ → S → S
  record : ℤ → S → S

def exits (r : ℤ) : Prop := r < -1

instance (r : ℤ) : Decidable (exits r) := inferInstanceAs (Decidable (r < -1))

/-- The status that an exit leaves behind. -/
def clip (r : ℤ) : ℤ := if exits r then -2 else r

/-- From the status so far and a state to a status and a state. -/
abbrev Rel (S : Type) := ℤ → S → ℤ → S → Prop

section Combinators
variable {S γ : Type}

def andThen (A B : Rel S) : Rel S := fun q s r s' =>
  ∃ r1 s1, A q s r1 s1 ∧ if exits r1 then r = r1 ∧ s' = s1 else B r1 s1 r s'

def choose (C B T : Rel S) : Rel S := fun q s r s' =>
  ∃ r1 s1, C q s r1 s1 ∧
    if exits r1 then r = r1 ∧ s' = s1 else if r1 = 0 then B r1 s1 r s' else T r1 s1 r s'

/-- Another round after the condition has returned `r`. -/
def again (sense : Bool) (r : ℤ) : Prop := if sense then r = 0 else r ≠ 0

instance (sense : Bool) (r : ℤ) : Decidable (again sense r) :=
  inferInstanceAs (Decidable (if sense then r = 0 else r ≠ 0))

inductive Rounds (sense : Bool) (C B : Rel S) : ℤ → S → ℤ → S → Prop
  | stop (q r : ℤ) (s s1 : S) (hc : C q s r s1) (h : exits r ∨ ¬ again sense r) :
      Rounds sense C B q s r s1
  | leave (q r r2 : ℤ) (s s1 s2 : S) (hc : C q s r s1) (h : ¬ exits r) (ha : again sense r)
      (hb : B r s1 r2 s2) (he : exits r2) : Rounds sense C B q s r2 s2
  | next (q r r2 r3 : ℤ) (s s1 s2 s3 : S) (hc : C q s r s1) (h : ¬ exits r) (ha : again sense r)
      (hb : B r s1 r2 s2) (he : ¬ exits r2) (ht : Rounds sense C B r2 s2 r3 s3) :
      Rounds sense C B q s r3 s3

def values (assign : γ → S → S) (B : Rel S) : List γ → Rel S
  | [] => fun q s r s' => r = q ∧ s' = s
  | v::vs => fun _ s r s' =>
    ∃ r1 s1, B 0 (assign v s) r1 s1 ∧
      if exits r1 then r = r1 ∧ s' = s1 else values assign B vs r1 s1 r s'

end Combinators

section Exec
variable {α β γ S : Type} (sem : Meaning α β γ S)

/-- The status of a compound command is kept like that of a simple one. -/
def closed (A : Rel S) : Rel S := fun _ s r s' => ∃ s1, A 0 s r s1 ∧ s' = sem.record r s1

def Exec : {k : Bool} → Script α β k → Rel S
  | _, .simple a => fun _ s r s' => ∃ rc s1, sem.act a s rc s1 ∧ r = clip rc ∧ s' = sem.record rc s1
  | _, .seq a b => andThen (Exec a) (Exec b)
  | _, .branch c b t => closed sem (choose (Exec c) (Exec b) (Exec t))
  | _, .loop sense c b => closed sem (Rounds sense (Exec c) (Exec b))
  | _, .each h b => closed sem fun q s r s' =>
      values sem.assign (Exec b) (sem.start h s).1 q (sem.start h s).2 r s'
  | _, .fi => fun q s r s' => r = q ∧ s' = s
  | _, .orElse e => Exec e
  | _, .elif c b t => choose (Exec c) (Exec b) (Exec t)

variable {sem}

theorem clip_clip (r : ℤ) : clip (clip r) = clip r := by
  by_cases h : exits r
  · rw [clip, clip, if_pos h]
    rfl
  · rw [clip, clip, if_neg h, if_neg h]

theorem Rounds.clipped {sense : Bool} {C B : Rel S} {q r : ℤ} {s s' : S}
    (h : Rounds sense C B q s r s') (hC : ∀ q s r s', C q s r s' → clip q = q → clip r = r)
    (hB : ∀ q s r s', B q s r s' → clip q = q → clip r = r) (hq : clip q = q) : clip r = r := by
  induction h with
  | stop q r s s1 hc _ => exact hC q s r s1 hc hq
  | leave q r r2 s s1 s2 hc _ _ hb _ => exact hB r s1 r2 s2 hb (hC q s r s1 hc hq)
  | next q r r2 r3 s s1 s2 s3 hc _ _ hb _ _ ih => exact ih (hB r s1 r2 s2 hb (hC q s r s1 hc hq))

theorem values_clipped {assign : γ → S → S} {B : Rel S}
    (hB : ∀ q s r s', B q s r s' → clip q = q → clip r = r) (vs : List γ) (q r : ℤ) (s s' : S)
    (h : values assign B vs q s r s') (hq : clip q = q) : clip r = r := by
  induction vs generalizing q s with
  | nil => rw [h.1, hq]
  | cons v vs ih =>
    obtain ⟨r1, s1, h1, h2⟩ := h
    have hr1 := hB _ _ _ _ h1 rfl
    by_cases he : exits r1
    · rw [if_pos he] at h2
      rw [h2.1, hr1]
    · rw [if_neg he] at h2
      exact ih r1 s1 h2 hr1

theorem choose_clipped {C B T : Rel S} (hC : ∀ q s r s', C q s r s' → clip q = q → clip r = r)
    (hB : ∀ q s r s', B q s r s' → clip q = q → clip r = r)
    (hT : ∀ q s r s', T q s r s' → clip q = q → clip r = r) (q r : ℤ) (s s' : S)
    (h : choose C B T q s r s') (hq : clip q = q) : clip r = r := by
  obtain ⟨r1, s1, h1, h2⟩ := h
  have hr1 := hC _ _ _ _ h1 hq
  by_cases he : exits r1
  · rw [if_pos he] at h2
    rw [h2.1, hr1]
  · rw [if_neg he] at h2
    by_cases h0 : r1 = 0
    · rw [if_pos h0] at h2
      exact hB _ _ _ _ h2 hr1
    · rw [if_neg h0] at h2
      exact hT _ _ _ _ h2 hr1

/-- An exit is always the status -2. -/
theorem Exec.clipped {k : Bool} (sc : Script α β k) (q r : ℤ) (s s' : S)
    (h : Exec sem sc q s r s') (hq : clip q = q) : clip r = r := by
  induction sc generalizing q r s s' with
  | simple a =>
    obtain ⟨rc, s1, -, rfl, -⟩ := h
    exact clip_clip rc
  | seq a b iha ihb =>
    obtain ⟨r1, s1, h1, h2⟩ := h
    have hr1 := iha _ _ _ _ h1 hq
    by_cases he : exits r1
    · rw [if_pos he] at h2
      rw [h2.1, hr1]
    · rw [if_neg he] at h2
      exact ihb _ _ _ _ h2 hr1
  | branch c b t ihc ihb iht =>
    obtain ⟨s1, h1, -⟩ := h
    exact choose_clipped (fun q s r s' => ihc q r s s') (fun q s r s' => ihb q r s s')
      (fun q s r s' => iht q r s s') 0 r s s1 h1 rfl
  | loop sense c b ihc ihb =>
    obtain ⟨s1, h1, -⟩ := h
    exact h1.clipped (fun q s r s' => ihc q r s s') (fun q s r s' => ihb q r s s') rfl
  | each hd b ihb =>
    obtain ⟨s1, h1, -⟩ := h
    exact values_clipped (fun q s r s' => ihb q r s s') _ 0 r _ s1 h1 rfl
  | fi => rw [h.1, hq]
  | orElse e ihe => exact ihe q r s s' h hq
  | elif c b t ihc ihb iht =>
    exact choose_clipped (fun q s r s' => ihc q r s s') (fun q s r s' => ihb q r s s')
      (fun q s r s' => iht q r s s') q r s s' h hq

end Exec

end UBoot.ShellScript
