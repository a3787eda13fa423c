import Mathlib.Data.Set.Card
import Mathlib.Data.Set.Finite.Basic
import Mathlib.Tactic

/-!
# Loops that go from state to state

A step gives the next state, or none where the loop is left. A loop that comes to
finitely many states is left if and only if it comes to none of them twice.
-/

set_option autoImplicit false

namespace UBoot.StepLoop

variable {σ τ : Type*}

/-- The state after some rounds, while the loop goes on. -/
@[grind]
def after (step : σ → Option σ) : ℕ → σ → Option σ
  | 0, s => some s
  | n+1, s => (step s).bind (after step n)

/-- The loop comes to a state. -/
def Reaches (step : σ → Option σ) (s t : σ) : Prop := ∃ n, after step n s = some t

def Ends (step : σ → Option σ) (s : σ) : Prop := ∃ n, after step n s = none

/-- The loop is left, and every state it comes to is allowed. -/
def EndsWithin (step : σ → Option σ) (ok : σ → Prop) (s : σ) : Prop :=
  Ends step s ∧ ∀ t, Reaches step s t → ok t

/-- No state comes twice. -/
def NoReturn (step : σ → Option σ) (s : σ) : Prop :=
  ∀ m n t, after step m s = some t → after step n s = some t → m = n

variable {step : σ → Option σ} {ok : σ → Prop} {s t : σ}

theorem after_add (m n : ℕ) (s : σ) : after step (m+n) s = (after step m s).bind (after step n) := by
  induction m generalizing s with
  | zero => rw [Nat.zero_add, after, Option.bind_some]
  | succ m ih =>
    rw [Nat.succ_add, after, after]
    cases step s with
    | none => rfl
    | some t => exact ih t

theorem reaches_self : Reaches step s s := ⟨0, rfl⟩

theorem reaches_next {u : σ} (h : step s = some t) (ht : Reaches step t u) : Reaches step s u := by
  obtain ⟨n, hn⟩ := ht
  exact ⟨n+1, by rw [after, h, Option.bind_some, hn]⟩

/-- A state is the first one, or the loop comes to it from the next. -/
theorem reaches_cases {u : σ} (h : Reaches step s u) :
    u = s ∨ ∃ t, step s = some t ∧ Reaches step t u := by
  obtain ⟨n, hn⟩ := h
  cases n with
  | zero => exact .inl (Option.some.inj hn).symm
  | succ n =>
    obtain ⟨t, ht, hn⟩ := Option.bind_eq_some_iff.1 hn
    exact .inr ⟨t, ht, n, hn⟩

theorem endsWithin_iff :
    EndsWithin step ok s ↔ ok s ∧ ∀ t, step s = some t → EndsWithin step ok t := by
  constructor
  · rintro ⟨⟨n, hn⟩, hok⟩
    refine ⟨hok s reaches_self, fun t ht => ⟨?_, fun u hu => hok u (reaches_next ht hu)⟩⟩
    cases n with
    | zero => cases hn
    | succ n =>
      rw [after, ht, Option.bind_some] at hn
      exact ⟨n, hn⟩
  · rintro ⟨hs, hnext⟩
    refine ⟨?_, fun u hu => ?_⟩
    · cases ht : step s with
      | none => exact ⟨1, by rw [after, ht, Option.bind_none]⟩
      | some t =>
        obtain ⟨⟨n, hn⟩, -⟩ := hnext t ht
        exact ⟨n+1, by rw [after, ht, Option.bind_some, hn]⟩
    · obtain rfl | ⟨t, ht, hu⟩ := reaches_cases hu
      · exact hs
      · exact (hnext t ht).2 u hu

/-- Induction over the rounds that are left. -/
theorem EndsWithin.induct {P : σ → Prop} (h : EndsWithin step ok s)
    (hstep : ∀ s, ok s → (∀ t, step s = some t → P t) → P s) : P s := by
  obtain ⟨⟨n, hn⟩, hok⟩ := h
  induction n generalizing s with
  | zero => cases hn
  | succ n ih =>
    refine hstep s (hok s reaches_self) fun t ht => ih (fun u hu => hok u (reaches_next ht hu)) ?_
    rwa [after, ht, Option.bind_some] at hn

/-- Two loops that go on and are left together. -/
theorem endsWithin_congr {step₂ : τ → Option τ} {ok₂ : τ → Prop} {R : σ → τ → Prop}
    (h : ∀ s t, R s t → (ok s ↔ ok₂ t) ∧ (ok s → (step s = none ↔ step₂ t = none) ∧
      ∀ s' t', step s = some s' → step₂ t = some t' → R s' t')) {s : σ} {t : τ} (hst : R s t) :
    EndsWithin step ok s ↔ EndsWithin step₂ ok₂ t := by
  constructor
  · intro hs
    refine EndsWithin.induct (P := fun s => ∀ t, R s t → EndsWithin step₂ ok₂ t) hs ?_ t hst
    intro s hs ih t hst
    obtain ⟨hok, hnext⟩ := h s t hst
    obtain ⟨hnone, hsome⟩ := hnext hs
    refine endsWithin_iff.2 ⟨hok.1 hs, fun t' ht' => ?_⟩
    cases hs' : step s with
    | none => cases (hnone.1 hs').symm.trans ht'
    | some s' => exact ih s' hs' t' (hsome s' t' hs' ht')
  · intro ht
    refine EndsWithin.induct (P := fun t => ∀ s, R s t → EndsWithin step ok s) ht ?_ s hst
    intro t ht ih s hst
    obtain ⟨hok, hnext⟩ := h s t hst
    have hs := hok.2 ht
    obtain ⟨hnone, hsome⟩ := hnext hs
    refine endsWithin_iff.2 ⟨hs, fun s' hs' => ?_⟩
    cases ht' : step₂ t with
    | none => cases (hnone.2 ht').symm.trans hs'
    | some t' => exact ih t' ht' s' (hsome s' t' hs' ht')

/-- A loop that keeps a property with which it goes on is not left. -/
theorem not_ends {I : σ → Prop} (hs : I s) (hstep : ∀ s, I s → ∃ t, step s = some t ∧ I t) :
    ¬Ends step s := by
  rintro ⟨n, hn⟩
  induction n generalizing s with
  | zero => cases hn
  | succ n ih =>
    obtain ⟨t, ht, hI⟩ := hstep s hs
    rw [after, ht, Option.bind_some] at hn
    exact ih hI hn

theorem noReturn_of_ends (h : Ends step s) : NoReturn step s := by
  obtain ⟨k, hk⟩ := h
  -- a state that comes again after some rounds comes again and again
  have hagain : ∀ m d t, after step m s = some t → after step (m+d) s = some t → 0 < d → False := by
    intro m d t hm hd hpos
    have hmany : ∀ i, after step (m+i*d) s = some t := fun i => by
      induction i with
      | zero => rwa [Nat.zero_mul, Nat.add_zero]
      | succ i ih =>
        rw [Nat.add_one_mul, ← Nat.add_assoc, after_add, ih, Option.bind_some]
        rwa [after_add, hm, Option.bind_some] at hd
    have hle : k ≤ m+k*d := (Nat.le_mul_of_pos_right k hpos).trans (Nat.le_add_left _ _)
    obtain ⟨j, hj⟩ := Nat.exists_eq_add_of_le hle
    have := hmany k
    rw [hj, after_add, hk, Option.bind_none] at this
    cases this
  intro m n t hm hn
  rcases Nat.lt_trichotomy m n with hlt | heq | hlt
  · obtain ⟨d, rfl⟩ := Nat.exists_eq_add_of_lt hlt
    exact absurd (hagain m (d+1) t hm hn (Nat.succ_pos d)) id
  · exact heq
  · obtain ⟨d, rfl⟩ := Nat.exists_eq_add_of_lt hlt
    exact absurd (hagain n (d+1) t hn hm (Nat.succ_pos d)) id

theorem ends_iff_noReturn (hfin : {t | Reaches step s t}.Finite) : Ends step s ↔ NoReturn step s := by
  refine ⟨noReturn_of_ends, fun h => ?_⟩
  by_contra hnot
  have hsome : ∀ n, ∃ t, after step n s = some t := fun n =>
    Option.ne_none_iff_exists'.1 fun hn => hnot ⟨n, hn⟩
  choose f hf using hsome
  have hinj : Function.Injective f := fun m n hmn => h m n (f m) (hf m) (hmn ▸ hf n)
  exact Set.infinite_of_injective_forall_mem hinj (fun n => (⟨n, hf n⟩ : Reaches step s (f n))) hfin

/-- A loop whose steps lead to finitely many states. -/
theorem reaches_finite {A : Set σ} (hA : A.Finite) (h : ∀ s t, step s = some t → t ∈ A) :
    {t | Reaches step s t}.Finite := by
  refine (hA.insert s).subset ?_
  rintro t ⟨n, hn⟩
  cases n with
  | zero => exact .inl (Option.some.inj hn).symm
  | succ n =>
    obtain ⟨u, -, hu⟩ := Option.bind_eq_some_iff.1 ((after_add n 1 s).symm.trans hn)
    obtain ⟨w, hw, hwt⟩ := Option.bind_eq_some_iff.1 hu
    exact .inr (Option.some.inj hwt ▸ h u w hw)

/-! ## Links that are cut -/

section Cut

variable [DecidableEq σ]

/-- A link is followed, and is cut. -/
def cutStep (c : (σ → Option σ) × σ) : Option ((σ → Option σ) × σ) :=
  (c.1 c.2).map fun t => (Function.update c.1 c.2 none, t)

theorem reaches_of_cut {s u t : σ} (h : Reaches (Function.update step s none) u t) :
    Reaches step u t := by
  obtain ⟨n, hn⟩ := h
  induction n generalizing u with
  | zero => exact ⟨0, hn⟩
  | succ n ih =>
    obtain ⟨w, hw, hn⟩ := Option.bind_eq_some_iff.1 hn
    have hne : u ≠ s := fun heq => by
      rw [heq, Function.update_self] at hw
      cases hw
    rw [Function.update_of_ne hne] at hw
    exact reaches_next hw (ih hn)

/-- A way leads past the link that is cut, or comes to it. -/
theorem cut_cases {s u t : σ} {n : ℕ} (h : after step n u = some t) :
    Reaches (Function.update step s none) u t ∨ ∃ k ≤ n, after step k s = some t := by
  induction n generalizing u with
  | zero => exact .inl ⟨0, h⟩
  | succ n ih =>
    by_cases heq : u = s
    · exact .inr ⟨n+1, le_rfl, heq ▸ h⟩
    · obtain ⟨w, hw, hn⟩ := Option.bind_eq_some_iff.1 h
      rcases ih hn with hcut | ⟨k, hk, hs⟩
      · exact .inl (reaches_next (by rwa [Function.update_of_ne heq]) hcut)
      · exact .inr ⟨k, hk.trans (Nat.le_succ n), hs⟩

theorem reaches_past {s u t : σ} (hu : step s = some u) (h : Reaches step u t) :
    t = s ∨ Reaches (Function.update step s none) u t := by
  obtain ⟨n, hn⟩ := h
  induction n using Nat.strong_induction_on with
  | _ n ih =>
    rcases cut_cases (s := s) hn with hcut | ⟨k, hk, hs⟩
    · exact .inr hcut
    · cases k with
      | zero => exact .inl (Option.some.inj hs).symm
      | succ k =>
        rw [after, hu, Option.bind_some] at hs
        exact ih k hk hs

/-- Where links are cut the loop is left after every state that there was a way to. -/
theorem cut_endsWithin_iff (hfin : {t | ok t}.Finite) :
    EndsWithin cutStep (fun c => ok c.2) (step, s) ↔ ∀ t, Reaches step s t → ok t := by
  constructor
  · intro h
    refine EndsWithin.induct (P := fun c => ∀ t, Reaches c.1 c.2 t → ok t) h ?_
    rintro ⟨next, s⟩ hs ih t ht
    obtain rfl | ⟨u, hu, ht⟩ := reaches_cases ht
    · exact hs
    · obtain rfl | hcut := reaches_past hu ht
      · exact hs
      · exact ih _ (by rw [cutStep, hu, Option.map_some]) t hcut
  · -- each round there are fewer states that a way leads to and on from
    intro h
    have hsub : {t | Reaches step s t ∧ step t ≠ none}.Finite := hfin.subset fun t ht => h t ht.1
    induction hn : {t | Reaches step s t ∧ step t ≠ none}.ncard using Nat.strong_induction_on
      generalizing step s with
    | _ n ih =>
      refine endsWithin_iff.2 ⟨h s reaches_self, ?_⟩
      rintro c hc
      obtain ⟨u, hu, rfl⟩ := Option.map_eq_some_iff.1 hc
      have hle : {t | Reaches (Function.update step s none) u t ∧
          Function.update step s none t ≠ none} ⊂ {t | Reaches step s t ∧ step t ≠ none} := by
        refine (Set.ssubset_iff_of_subset ?_).2 ⟨s, ⟨reaches_self, ?_⟩, fun hs => ?_⟩
        · rintro t ⟨ht, hnone⟩
          refine ⟨reaches_next hu (reaches_of_cut ht), fun hstep => hnone ?_⟩
          by_cases heq : t = s
          · rw [heq, Function.update_self]
          · rw [Function.update_of_ne heq, hstep]
        · exact fun hnone => by cases hnone.symm.trans hu
        · exact hs.2 (Function.update_self ..)
      exact ih _ (hn ▸ Set.ncard_lt_ncard hle hsub)
        (fun t ht => h t (reaches_next hu (reaches_of_cut ht))) (hsub.subset hle.subset) rfl

end Cut

end UBoot.StepLoop
