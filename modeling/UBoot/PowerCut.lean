import Mathlib.Tactic

/-!
# Programs that lose their power

A program is a list of operations on a store. An operation that is cut leaves
one of the stores that its `torn` relation allows. What holds before every
operation that is left, and after any of them is torn, holds after any cut.
-/

set_option autoImplicit false

namespace UBoot.PowerCut

variable {σ Op : Type} (apply : Op → σ → σ) (torn : Op → σ → σ → Prop)

/-- The store after all operations. -/
def runAll (ops : List Op) (s : σ) : σ := ops.foldl (fun s op => apply op s) s

theorem runAll_cons (op : Op) (ops : List Op) (s : σ) :
    runAll apply (op::ops) s = runAll apply ops (apply op s) := rfl

/-- The stores that a cut at any point leaves. -/
inductive Cut : List Op → σ → σ → Prop
  | between (ops : List Op) (s : σ) : Cut ops s s
  | during (op : Op) (ops : List Op) (s s' : σ) (h : torn op s s') : Cut (op::ops) s s'
  | later (op : Op) (ops : List Op) (s s' : σ) (h : Cut ops (apply op s) s') : Cut (op::ops) s s'

/-- The rule for cuts, with what is known before each list of operations that is left. -/
theorem cut_sound (known : List Op → σ → Prop) (safe : σ → Prop)
    (hsafe : ∀ ops s, known ops s → safe s)
    (htorn : ∀ op ops s s', known (op::ops) s → torn op s s' → safe s')
    (hnext : ∀ op ops s, known (op::ops) s → known ops (apply op s))
    (ops : List Op) (s s' : σ) (h : Cut apply torn ops s s') (hk : known ops s) : safe s' := by
  induction h with
  | between ops s => exact hsafe ops s hk
  | during op ops s s' ht => exact htorn op ops s s' hk ht
  | later op ops s s' _ ih => exact ih (hnext op ops s hk)

end UBoot.PowerCut
