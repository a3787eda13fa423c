import UBoot.HushRun
import Mathlib.Tactic.Common
import Mathlib.Tactic.SplitIfs

/-!
# The number of rounds of a run

A run that has ended does not change when it is given more rounds. `Below` is
the order this is said in: a result, or no result yet.
-/

set_option autoImplicit false

namespace UBoot.Hush

def Below {α : Type} (a b : Run α) : Prop := a = .error .fuel ∨ a = b

theorem Below.refl {α : Type} (a : Run α) : Below a a := Or.inr rfl

theorem Below.ok {α : Type} {a b : Run α} {x : α} (h : Below a b) (hx : a = .ok x) : b = .ok x := by
  rcases h with h | h
  · rw [hx] at h
    exact absurd h (by simp)
  · rw [← h, hx]

theorem Below.eq {α : Type} {a b : Run α} (h : Below a b) (ha : a ≠ .error .fuel) : b = a :=
  (h.resolve_left ha).symm

theorem Below.bind {α β : Type} {a b : Run α} {f g : α → Run β} (h : Below a b)
    (hf : ∀ x, Below (f x) (g x)) : Below (a >>= f) (b >>= g) := by
  rcases h with h | h
  · left
    rw [h]
    rfl
  · rw [h]
    cases b with
    | error e => exact Below.refl _
    | ok x => exact hf x

theorem bind_eq_ok {α β : Type} {a : Run α} {f : α → Run β} {y : β} :
    a >>= f = .ok y ↔ ∃ x, a = .ok x ∧ f x = .ok y := by
  cases a with
  | error e =>
    constructor
    · intro h
      cases h
    · rintro ⟨x, hx, -⟩
      cases hx
  | ok x =>
    constructor
    · intro h
      exact ⟨x, rfl, h⟩
    · rintro ⟨x', hx, h⟩
      cases hx
      exact h

variable {σ : Type} {m : Machine σ}
variable {f g : ℕ → Pipe → Shell σ → Run (ℤ × Shell σ)}

theorem runBody_below (h : ∀ i pi s, Below (f i pi s) (g i pi s)) (i : ℕ) (pi : Pipe) (st : Locals)
    (s : Shell σ) : Below (runBody f i pi st s) (runBody g i pi st s) := by
  unfold runBody
  split_ifs
  · exact Below.refl _
  · exact (h _ _ _).bind fun x => Below.refl _

theorem listStep_below (h : ∀ i pi s, Below (f i pi s) (g i pi s)) (pipes : List Pipe) (i : ℕ)
    (pi : Pipe) (st : Locals) (s : Shell σ) :
    Below (listStep m f pipes i pi st s) (listStep m g pipes i pi st s) := by
  unfold listStep listStepOpen
  split_ifs
  · exact Below.refl _
  · exact Below.refl _
  · exact Below.refl _
  · exact Below.refl _
  · split
    · exact Below.refl _
    · exact runBody_below h _ _ _ _
  · exact runBody_below h _ _ _ _

theorem listLoop_below (h : ∀ i pi s, Below (f i pi s) (g i pi s)) (pipes : List Pipe) (n n' : ℕ)
    (hn : n ≤ n') (st : Locals) (s : Shell σ) :
    Below (listLoop m f pipes n st s) (listLoop m g pipes n' st s) := by
  induction n generalizing n' st s with
  | zero => exact Or.inl rfl
  | succ n ih =>
    obtain ⟨k, rfl⟩ : ∃ k, n' = k+1 := ⟨n'-1, by omega⟩
    rw [listLoop, listLoop]
    split
    · exact Below.refl _
    · apply (listStep_below h _ _ _ _ _).bind
      intro r
      cases r.1 with
      | goOn st' => exact ih k (by omega) st' r.2
      | leave rcode => exact Below.refl _

theorem runListReal_below (h : ∀ i pi s, Below (f i pi s) (g i pi s)) (n n' : ℕ) (hn : n ≤ n')
    (pipes : List Pipe) (s : Shell σ) :
    Below (runListReal m f n pipes s) (runListReal m g n' pipes s) := by
  unfold runListReal
  split_ifs
  · exact listLoop_below h pipes n n' hn _ s
  · exact Below.refl _

variable {run run' : List Pipe → Shell σ → Run (ℤ × Shell σ)}

theorem parseStreamOuter_below (h : ∀ l s, Below (run l s) (run' l s)) (flag : OuterFlag) (n n' : ℕ)
    (hn : n ≤ n') (inp : Option Text) (quote : Bool) (code : ℤ) (s : Shell σ) :
    Below (parseStreamOuter m run flag n inp quote code s)
      (parseStreamOuter m run' flag n' inp quote code s) := by
  induction n generalizing n' inp quote code s with
  | zero => exact Or.inl rfl
  | succ n ih =>
    obtain ⟨k, rfl⟩ : ∃ k, n' = k+1 := ⟨n'-1, by omega⟩
    cases inp with
    | none => exact Below.refl _
    | some inp =>
      rw [parseStreamOuter, parseStreamOuter]
      split
      · exact Below.refl _
      · split
        · apply (h _ _).bind
          intro r
          split
          · exact Below.refl _
          · split
            · exact Below.refl _
            · exact ih k (by omega) _ _ _ _
        · split
          · exact Below.refl _
          · exact ih k (by omega) _ _ _ _

theorem parseStringOuter_below (h : ∀ l s, Below (run l s) (run' l s)) (n n' : ℕ) (hn : n ≤ n')
    (text : Text) (flag : OuterFlag) (s : Shell σ) :
    Below (parseStringOuter m run n text flag s) (parseStringOuter m run' n' text flag s) := by
  unfold parseStringOuter
  split_ifs
  · exact Below.refl _
  · exact parseStreamOuter_below h flag n n' hn _ _ _ _

theorem runSimple_below (h : ∀ l s, Below (run l s) (run' l s)) (n n' : ℕ) (hn : n ≤ n')
    (argv : List Text) (sp : ℕ) (s : Shell σ) :
    Below (runSimple m run n argv sp s) (runSimple m run' n' argv sp s) := by
  unfold runSimple
  dsimp only
  split_ifs
  · exact Below.refl _
  · exact (parseStringOuter_below h n n' hn _ _ _).bind fun x => Below.refl _
  · exact Below.refl _

theorem runPipeReal_below (n n' : ℕ) (hn : n ≤ n') (pi : Pipe) (s : Shell σ) :
    Below (runPipeReal m n pi s) (runPipeReal m n' pi s) := by
  induction n generalizing n' pi s with
  | zero => exact Or.inl rfl
  | succ n ih =>
    obtain ⟨k, rfl⟩ : ∃ k, n' = k+1 := ⟨n'-1, by omega⟩
    have hk : n ≤ k := by omega
    rw [runPipeReal, runPipeReal]
    split_ifs
    · exact runListReal_below (fun _ pi s => ih k hk pi s) n k hk _ _
    · exact runSimple_below
        (fun l s => runListReal_below (fun _ pi s => ih k hk pi s) n k hk l s) n k hk _ _ _
    · exact Below.refl _

theorem runList_below (n n' : ℕ) (hn : n ≤ n') (pipes : List Pipe) (s : Shell σ) :
    Below (runList m n pipes s) (runList m n' pipes s) :=
  runListReal_below (fun _ pi s => runPipeReal_below n n' hn pi s) n n' hn pipes s

end UBoot.Hush
