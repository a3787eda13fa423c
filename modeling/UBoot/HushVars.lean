import UBoot.HushRun

/-!
# Assignments

`set_local_var` with what it returns, and what `${name}` stands for behind it. The
environment is asked for the whole text of the assignment, whatever that text is.
-/

set_option autoImplicit false

namespace UBoot.Hush

variable {σ : Type} (m : Machine σ)

/-- The name and the value are still one text. Giving a variable the value that it has is
counted, but changes nothing. -/
def setLocalVarCode (text : Text) (s : Shell σ) : ℤ × Shell σ :=
  if ((text.head?).map isalpha) ≠ some true then (-1, s)
  else if (m.getenv s.world text).isSome then (-1, s)
  else
    match text.dropWhile (· ≠ '=') with
    | _::value =>
      let name := text.takeWhile (· ≠ '=')
      match s.topVars.find? (fun v => v.name = name) with
      | some cur =>
        if cur.value = value then (1, s)
        else if cur.readOnly then (-1, s)
        else (0, { s with topVars := assignVar name value s.topVars })
      | none => (0, { s with topVars := assignVar name value s.topVars })
    | [] => (-1, s)

/-- The text that `${name}` is replaced with. -/
def expand (name : Text) (s : Shell σ) : Text := (lookupParam m name s).1.getD []

def StartsAlpha (name : Text) : Prop := (name.head?).map isalpha = some true

/-- A read-only variable that has another value. -/
def Protected (s : Shell σ) (name value : Text) : Prop :=
  ∃ v, s.topVars.find? (fun v => v.name = name) = some v ∧ v.readOnly = true ∧ v.value ≠ value

structure Assigned (s : Shell σ) (name value : Text) (r : ℤ × Shell σ) : Prop where
  expands : m.getenv s.world name = none → r.1 ≠ -1 → expand m name r.2 = value
  refused : m.getenv s.world name = none → (r.1 = -1 ↔ ¬StartsAlpha name ∨ Protected s name value)
  others : ∀ other, other ≠ name → getLocalVar r.2 other = getLocalVar s other
  world : r.2.world = s.world

/-! ## The list of variables -/

/-- A variable that can be written has the value afterwards. -/
theorem assignVar_find (name value : Text) (vars : List Variable)
    (h : ∀ v, vars.find? (fun v => v.name = name) = some v → v.readOnly = false) :
    ((assignVar name value vars).find? (fun v => v.name = name)).map (·.value) = some value := by
  induction vars with
  | nil => simp [assignVar]
  | cons w vars ih =>
    rw [assignVar]
    by_cases hw : w.name = name
    · have hro := h w (List.find?_cons_of_pos (by simpa using hw))
      rw [if_pos hw, hro, if_neg (by decide), List.find?_cons_of_pos (by simpa using hw)]
      rfl
    · rw [if_neg hw, List.find?_cons_of_neg (by simpa using hw)]
      refine ih (fun v hv => h v ?_)
      rw [List.find?_cons_of_neg (by simpa using hw)]
      exact hv

theorem assignVar_other (name value other : Text) (vars : List Variable) (hne : other ≠ name) :
    (assignVar name value vars).find? (fun v => v.name = other) =
      vars.find? (fun v => v.name = other) := by
  induction vars with
  | nil => simp [assignVar, hne.symm]
  | cons w vars ih =>
    rw [assignVar]
    by_cases hw : w.name = name
    · have hother : w.name ≠ other := fun h => hne (h.symm.trans hw)
      rw [if_pos hw, List.find?_cons_of_neg (by split_ifs <;> simpa using hother),
        List.find?_cons_of_neg (by simpa using hother)]
    · rw [if_neg hw, List.find?_cons, List.find?_cons, ih]

/-! ## `set_local_var` -/

theorem split_name {name : Text} (value : Text) (h : '=' ∉ name) :
    (name ++ '='::value).takeWhile (· ≠ '=') = name ∧
      (name ++ '='::value).dropWhile (· ≠ '=') = '='::value := by
  have hall : ∀ c ∈ name, decide (c ≠ '=') = true := by
    intro c hc
    exact decide_eq_true (fun heq => h (heq ▸ hc))
  constructor
  · rw [List.takeWhile_append_of_pos hall, List.takeWhile_cons_of_neg (by simp), List.append_nil]
  · rw [List.dropWhile_append_of_pos hall, List.dropWhile_cons_of_neg (by simp)]

theorem startsAlpha_text (name value : Text) :
    ((name ++ '='::value).head?).map isalpha = some true ↔ StartsAlpha name := by
  cases name with
  | nil =>
    constructor
    · intro h
      have halpha : isalpha '=' = true := Option.some.inj h
      exact absurd halpha (by decide)
    · intro h
      cases h
  | cons c name => exact Iff.rfl

/-- The result for a name that is not taken. -/
theorem setLocalVarCode_new {s : Shell σ} {name value : Text} (hname : '=' ∉ name)
    (halpha : StartsAlpha name) (henv : m.getenv s.world (name ++ '='::value) = none)
    (hfind : s.topVars.find? (fun v => v.name = name) = none) :
    setLocalVarCode m (name ++ '='::value) s =
      (0, { s with topVars := assignVar name value s.topVars }) := by
  obtain ⟨htake, hdrop⟩ := split_name value hname
  rw [setLocalVarCode, if_neg (not_not.mpr ((startsAlpha_text name value).mpr halpha)), henv,
    if_neg (by decide), hdrop, htake]
  dsimp only
  rw [hfind]

theorem setLocalVarCode_old {s : Shell σ} {name value : Text} (hname : '=' ∉ name)
    (halpha : StartsAlpha name) (henv : m.getenv s.world (name ++ '='::value) = none)
    {cur : Variable} (hfind : s.topVars.find? (fun v => v.name = name) = some cur) :
    setLocalVarCode m (name ++ '='::value) s =
      if cur.value = value then (1, s)
      else if cur.readOnly then (-1, s)
      else (0, { s with topVars := assignVar name value s.topVars }) := by
  obtain ⟨htake, hdrop⟩ := split_name value hname
  rw [setLocalVarCode, if_neg (not_not.mpr ((startsAlpha_text name value).mpr halpha)), henv,
    if_neg (by decide), hdrop, htake]
  dsimp only
  rw [hfind]

theorem getLocalVar_alpha {s : Shell σ} {name : Text} (h : StartsAlpha name) :
    getLocalVar s name = (s.topVars.find? (fun v => v.name = name)).map (·.value) := by
  cases name with
  | nil => rfl
  | cons c name =>
    have hc : c ≠ '$' := by
      rintro rfl
      have halpha : isalpha '$' = true := Option.some.inj h
      exact absurd halpha (by decide)
    unfold getLocalVar
    split
    · rename_i rest heq
      cases heq
      exact absurd rfl hc
    · rfl

/-- A plain `${name}` is looked up in the environment, then among the variables. -/
theorem expand_plain (s : Shell σ) {name : Text} (hmode : ':' ∉ name)
    (henv : m.getenv s.world name = none) : expand m name s = (getLocalVar s name).getD [] := by
  have hall : ∀ c ∈ name, decide (c ≠ ':') = true := by
    intro c hc
    exact decide_eq_true (fun heq => hmode (heq ▸ hc))
  have htake : name.takeWhile (· ≠ ':') = name := List.takeWhile_eq_self_iff.mpr hall
  have hdrop : name.dropWhile (· ≠ ':') = [] := List.dropWhile_eq_nil_iff.mpr hall
  unfold expand lookupParam
  rw [htake, hdrop]
  dsimp only
  rw [henv]
  cases hget : getLocalVar s name with
  | none => rfl
  | some value =>
    cases value with
    | nil => rfl
    | cons c value => simp

theorem expand_vars (s : Shell σ) (vars : List Variable) {name : Text} (hmode : ':' ∉ name)
    (halpha : StartsAlpha name) (henv : m.getenv s.world name = none) :
    expand m name { s with topVars := vars } =
      ((vars.find? (fun v => v.name = name)).map (·.value)).getD [] := by
  have hplain := expand_plain m { s with topVars := vars } hmode henv
  rw [hplain, getLocalVar_alpha halpha]

theorem others_kept (s : Shell σ) (name value : Text) {other : Text} (hne : other ≠ name) :
    getLocalVar { s with topVars := assignVar name value s.topVars } other = getLocalVar s other := by
  unfold getLocalVar
  split
  · rfl
  · rw [assignVar_other name value other s.topVars hne]

/-! ## After an assignment -/

theorem var_assigned (s : Shell σ) (name value : Text) (hname : '=' ∉ name) (hmode : ':' ∉ name)
    (henv : ∀ n, '=' ∈ n → m.getenv s.world n = none) :
    Assigned m s name value (setLocalVarCode m (name ++ '='::value) s) := by
  have hzero : (0 : ℤ) ≠ -1 := by decide
  have hone : (1 : ℤ) ≠ -1 := by decide
  by_cases halpha : StartsAlpha name
  · have hfree : m.getenv s.world (name ++ '='::value) = none := henv _ (by simp)
    cases hfind : s.topVars.find? (fun v => v.name = name) with
    | none =>
      rw [setLocalVarCode_new m hname halpha hfree hfind]
      have hvalue := assignVar_find name value s.topVars (fun v hv => by rw [hfind] at hv; cases hv)
      refine ⟨fun hn _ => ?_, fun _ => ?_, fun other hne => others_kept s name value hne, rfl⟩
      · rw [expand_vars m s _ hmode halpha hn, hvalue]
        rfl
      · refine ⟨fun h => absurd h hzero, ?_⟩
        rintro (h | ⟨v, hv, -, -⟩)
        · exact absurd halpha h
        · rw [hfind] at hv
          cases hv
    | some cur =>
      rw [setLocalVarCode_old m hname halpha hfree hfind]
      have hprot : Protected s name value ↔ cur.readOnly = true ∧ cur.value ≠ value := by
        constructor
        · rintro ⟨v, hv, hro, hne⟩
          cases hfind.symm.trans hv
          exact ⟨hro, hne⟩
        · rintro ⟨hro, hne⟩
          exact ⟨cur, hfind, hro, hne⟩
      by_cases hsame : cur.value = value
      · rw [if_pos hsame]
        refine ⟨fun hn _ => ?_, fun _ => ?_, fun other hne => rfl, rfl⟩
        · rw [expand_plain m _ hmode hn, getLocalVar_alpha halpha, hfind]
          exact hsame
        · rw [hprot]
          refine ⟨fun h => absurd h hone, ?_⟩
          rintro (h | ⟨-, h⟩)
          · exact absurd halpha h
          · exact absurd hsame h
      · rw [if_neg hsame]
        by_cases hro : cur.readOnly = true
        · rw [if_pos hro]
          refine ⟨fun _ h => absurd rfl h, fun _ => ?_, fun other hne => rfl, rfl⟩
          exact ⟨fun _ => Or.inr (hprot.mpr ⟨hro, hsame⟩), fun _ => rfl⟩
        · rw [if_neg hro]
          have hvalue := assignVar_find name value s.topVars (fun v hv => by
            cases hfind.symm.trans hv
            exact Bool.not_eq_true _ ▸ hro)
          refine ⟨fun hn _ => ?_, fun _ => ?_, fun other hne => others_kept s name value hne, rfl⟩
          · rw [expand_vars m s _ hmode halpha hn, hvalue]
            rfl
          · rw [hprot]
            refine ⟨fun h => absurd h hzero, ?_⟩
            rintro (h | ⟨h, -⟩)
            · exact absurd halpha h
            · exact absurd h hro
  · have hrefuse : setLocalVarCode m (name ++ '='::value) s = (-1, s) := by
      rw [setLocalVarCode, if_pos (fun h => halpha ((startsAlpha_text name value).mp h))]
    rw [hrefuse]
    exact ⟨fun _ h => absurd rfl h, fun _ => ⟨fun _ => Or.inl halpha, fun _ => rfl⟩,
      fun other hne => rfl, rfl⟩

/-- One variable, which can only be read. -/
def oneReadOnly : Shell Unit := ⟨0, [⟨['v'], ['1'], true⟩], false, [], ()⟩

theorem var_assigned_new :
    Assigned failing oneReadOnly ['x'] ['2'] (setLocalVarCode failing ['x', '=', '2'] oneReadOnly) :=
  var_assigned failing oneReadOnly ['x'] ['2'] (by decide) (by decide) (fun _ _ => rfl)

/-- A read-only variable may be given its own value. -/
theorem same_value_accepted : ¬∀ (m : Machine Unit) (s : Shell Unit) (name value : Text),
    '=' ∉ name → ':' ∉ name → (∀ n, '=' ∈ n → m.getenv s.world n = none) →
    ((setLocalVarCode m (name ++ '='::value) s).1 = -1 ↔ ¬StartsAlpha name ∨
      m.getenv s.world name ≠ none ∨
      ∃ v, s.topVars.find? (fun v => v.name = name) = some v ∧ v.readOnly = true) := by
  intro h
  have hone := (h failing oneReadOnly ['v'] ['1'] (by decide) (by decide) (fun _ _ => rfl)).mpr
    (Or.inr (Or.inr ⟨_, rfl, rfl⟩))
  exact absurd hone (by decide)

end UBoot.Hush
