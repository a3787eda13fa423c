import UBoot.EnvFlags
import UBoot.EnvImport
import UBoot.HashTableEffect

/-!
# Access control of environment variables

Every change of the environment table is checked by `env_flags_validate`
with the flags of its entry. The check of a change-default variable compares
with a copy of the default value in a buffer of 32 bytes.
-/

set_option autoImplicit false

namespace UBoot.EnvFlags
open UBoot.HashTable UBoot.OpenAddressing UBoot.EnvAttr UBoot.EnvText UBoot.ByteStore UBoot.EnvScan

/-! ## Callbacks touch attributes only -/

theorem same_hwalk (f : Entry → Entry) (hf : ∀ e, (f e).key = e.key ∧ (f e).data = e.data)
    (t : HTab) : SameContents t (hwalk f t) := by
  refine ⟨rfl, rfl, fun i => ?_⟩
  simp only [hwalk]
  by_cases hi : 1 ≤ i ∧ i ≤ t.size ∧ 0 < (t.table i).used
  · rw [if_pos hi]
    exact ⟨rfl, hf _⟩
  · rw [if_neg hi]
    exact ⟨rfl, rfl, rfl⟩

theorem same_setEntry (t : HTab) (i : ℕ) (e : Entry) (hk : e.key = (t.table i).entry.key)
    (hd : e.data = (t.table i).entry.data) : SameContents t (t.setEntry i e) := by
  refine ⟨rfl, rfl, fun j => ?_⟩
  simp only [HTab.setEntry, HTab.setSlot]
  by_cases hj : j = i
  · rw [if_pos hj, hj]
    exact ⟨rfl, hk, hd⟩
  · rw [if_neg hj]
    exact ⟨rfl, rfl, rfl⟩

theorem same_walkEntries (callback : HTab → CStr → Option CStr → ℤ × HTab)
    (hc : ∀ t name value, SameContents t (callback t name value).2) (es : List CStr) (t : HTab) :
    SameContents t (walkEntries callback es t).2 := by
  induction es generalizing t with
  | nil => exact SameContents.refl t
  | cons e es ih =>
    rw [walkEntries]
    split
    · exact ih t
    · rename_i name attributes _
      have h1 := hc t name attributes
      by_cases hr : (callback t name attributes).1 ≠ 0
      · simp only [if_pos hr]
        exact h1
      · simp only [if_neg hr]
        exact h1.trans (ih _)

theorem same_envAttrWalk (callback : HTab → CStr → Option CStr → ℤ × HTab)
    (hc : ∀ t name value, SameContents t (callback t name value).2) (list : Option CStr)
    (t : HTab) : SameContents t (envAttrWalk callback list t).2 := by
  cases list with
  | none => exact SameContents.refl t
  | some list => exact same_walkEntries callback hc (entries list) t

theorem same_setFlags (t : HTab) (name : CStr) (value : Option CStr) :
    SameContents t (setFlags t name value).2 := by
  unfold setFlags
  split
  · exact SameContents.refl t
  · exact same_setEntry t _ _ rfl rfl

variable (b : Board)

theorem same_setCallback (t : HTab) (name : CStr) (value : Option CStr) :
    SameContents t (setCallback b t name value).2 := by
  unfold setCallback
  split
  · exact SameContents.refl t
  · by_cases hv : value.getD [] = []
    · rw [if_pos hv]
      exact same_setEntry t _ _ rfl rfl
    · rw [if_neg hv]
      split
      · exact SameContents.refl t
      · exact same_setEntry t _ _ rfl rfl

theorem same_onFlags (value : Option CStr) (t : HTab) : SameContents t (onFlags b value t) := by
  have h1 := same_hwalk clearFlags (fun _ => ⟨rfl, rfl⟩) t
  have h2 := same_envAttrWalk setFlags same_setFlags (some b.envFlagsListStatic) (hwalk clearFlags t)
  exact (h1.trans h2).trans (same_envAttrWalk setFlags same_setFlags value _)

theorem same_onCallbacks (value : Option CStr) (t : HTab) :
    SameContents t (onCallbacks b value t) := by
  have h1 := same_hwalk clearCallback (fun _ => ⟨rfl, rfl⟩) t
  have h2 := same_envAttrWalk (setCallback b) (same_setCallback b) (some b.envCallbackListStatic)
    (hwalk clearCallback t)
  exact (h1.trans h2).trans (same_envAttrWalk (setCallback b) (same_setCallback b) value _)

theorem envHooks_lawful : Lawful (envHooks b) := by
  refine ⟨fun _ => rfl, ?_⟩
  intro c t key v op flag t' hc
  change runCallbackNumber b c t key v op flag = some t' at hc
  unfold runCallbackNumber at hc
  by_cases h1 : b.callbacks.getD c [] = flagsCallback
  · rw [if_pos h1] at hc
    cases hc
    exact same_onFlags b v t
  · rw [if_neg h1] at hc
    by_cases h2 : b.callbacks.getD c [] = callbacksCallback
    · rw [if_pos h2] at hc
      cases hc
      exact same_onCallbacks b v t
    · rw [if_neg h2] at hc
      by_cases h3 : b.accepts (b.callbacks.getD c []) key v op flag = true
      · rw [if_pos h3] at hc
        cases hc
        exact SameContents.refl t
      · rw [if_neg h3] at hc
        cases hc

/-! ## Values and flags of a variable -/

def valueOf (t : HTab) (name : CStr) : Option CStr :=
  (find t name).bind fun i => (t.table i).entry.data

def flagsOf (t : HTab) (name : CStr) : Option ℕ :=
  (find t name).map fun i => (t.table i).entry.flags

theorem find_cases (t : HTab) (m : EnvMap) (hm : Models t m) (name : CStr) :
    (∃ i d, 0 < i ∧ i ≤ t.size ∧ cells t i = .live name d ∧ m.lookup name = some d ∧
      find t name = some i) ∨ (m.lookup name = none ∧ find t name = none) := by
  rcases find_result noHooks name none t m hm 0 with ⟨i, d, hi, hin, hc, hl, hr⟩ | ⟨hl, hr⟩
  · exact .inl ⟨i, d, hi, hin, hc, hl, by rw [find, hr]; rfl⟩
  · exact .inr ⟨hl, by rw [find, hr]; rfl⟩

theorem valueOf_models (t : HTab) (m : EnvMap) (hm : Models t m) (name : CStr) :
    valueOf t name = m.lookup name := by
  rcases find_cases t m hm name with ⟨i, d, -, -, hc, hl, hf⟩ | ⟨hl, hf⟩
  · rw [valueOf, hf, hl, Option.bind_some]
    exact ((cell_live_iff t.size _ (hm.wf.slots i) name d).mp hc).2.2
  · rw [valueOf, hf, hl, Option.bind_none]

/-- The flags that are checked are those of the variable. -/
theorem flagsOf_live (t : HTab) (m : EnvMap) (hm : Models t m) (name d : CStr) (i : ℕ)
    (hi : 0 < i) (hin : i ≤ t.size) (hc : cells t i = .live name d) :
    flagsOf t name = some (t.table i).entry.flags := by
  have hlook := represents_live _ _ hm.represents i name d hi hin hc
  rcases find_cases t m hm name with ⟨j, e, hj, hjn, hc', -, hf⟩ | ⟨hl, -⟩
  · rw [flagsOf, hf, hm.wf.sound.single j i name e d hj hjn hi hin hc' hc, Option.map_some]
  · rw [hlook] at hl
    cases hl

/-- The flags that a variable would get now. -/
def currentFlags (t : HTab) (name : CStr) : ℕ := envFlagsInit b t name

/-- The value in the default environment. -/
def defaultValue (name : CStr) : CStr :=
  match scan b.defaultEnvironment b.envSize name (b.envSize+2) 0 0 with
  | some (.present _ nxt val) => load b.defaultEnvironment val (nxt-val)
  | _ => []

theorem getenvDefault_eq (name : CStr) (h : (defaultValue b name).length < envBufSize) :
    (getenvDefault b name).getD [] = defaultValue b name := by
  unfold getenvDefault getenvRaw getenvF
  unfold defaultValue at h ⊢
  cases hs : scan b.defaultEnvironment b.envSize name (b.envSize+2) 0 0 with
  | none => rfl
  | some r =>
    rw [hs] at h
    cases r with
    | unterminated => rfl
    | absent env nxt => rfl
    | present env nxt val =>
      simp only [Option.map_some] at h ⊢
      rw [if_pos h]
      simp only
      by_cases hz : 0 < (load b.defaultEnvironment val (nxt-val)).length
      · rw [if_pos hz, Option.getD_some]
      · rw [if_neg hz, Option.getD_none]
        exact (List.eq_nil_of_length_eq_zero (by omega)).symm

/-! ## One operation -/

/-- A protected variable stays as it is, and one that may not be is not created. -/
structure Respected (t t' : HTab) : Prop where
  fixed : ∀ name f v, flagsOf t name = some f → valueOf t name = some v →
    accessOf f = VarAccess.readonly.mask ∨ accessOf f = VarAccess.writeonce.mask →
      valueOf t' name = some v
  changedefault : ∀ name f v, flagsOf t name = some f → valueOf t name = some v →
    accessOf f = VarAccess.changedefault.mask →
      ∃ v', valueOf t' name = some v' ∧ (v' = v ∨ v = defaultValue b name)
  created : ∀ name, valueOf t name = none →
    accessOf (currentFlags b t name) = VarAccess.readonly.mask → valueOf t' name = none

/-- The operation is not forced, its entry goes into a slot of its own, the default value of a
change-default variable fits the buffer, and `.flags` is not judged by its own new list. -/
def Careful (t : HTab) : Op → Prop
  | .find _ => True
  | .delete _ flag => flag &&& hForce = 0
  | .enter name _ flag => flag &&& hForce = 0 ∧ ¬Clobbers t name ∧
      (∀ f, flagsOf t name = some f → f &&& preventNondefOverwr ≠ 0 →
        (defaultValue b name).length < envBufSize) ∧
      (name = flagsVar → valueOf t name = none →
        accessOf (currentFlags b t name) ≠ VarAccess.readonly.mask)

theorem careful_avoids (t : HTab) (op : Op) (h : Careful b t op) : Avoids t op := by
  cases op with
  | enter name v flag => exact h.2.1
  | find name => trivial
  | delete name flag => trivial

theorem and_of_accessOf (f mask bit : ℕ) (h : accessOf f = mask) (hb : 120 &&& bit = bit) :
    f &&& bit = mask &&& bit := by
  rw [← h, accessOf, Nat.and_assoc, hb]

/-- The names of the other variables keep their values. -/
theorem respected_of_other (t t' : HTab) (m m' : EnvMap) (hm : Models t m) (hm' : Models t' m')
    (key : CStr) (hother : ∀ name, name ≠ key → m'.lookup name = m.lookup name)
    (hfixed : ∀ f v, flagsOf t key = some f → m.lookup key = some v →
      accessOf f = VarAccess.readonly.mask ∨ accessOf f = VarAccess.writeonce.mask →
        m'.lookup key = some v)
    (hdefault : ∀ f v, flagsOf t key = some f → m.lookup key = some v →
      accessOf f = VarAccess.changedefault.mask →
        ∃ v', m'.lookup key = some v' ∧ (v' = v ∨ v = defaultValue b key))
    (hcreated : m.lookup key = none → accessOf (currentFlags b t key) = VarAccess.readonly.mask →
      m'.lookup key = none) : Respected b t t' := by
  have hv := valueOf_models t m hm
  have hv' := valueOf_models t' m' hm'
  refine ⟨?_, ?_, ?_⟩
  · intro name f v hf hval ha
    rw [hv] at hval
    rw [hv']
    by_cases hk : name = key
    · rw [hk] at hf hval ⊢
      exact hfixed f v hf hval ha
    · rw [hother name hk, hval]
  · intro name f v hf hval ha
    rw [hv] at hval
    rw [hv']
    by_cases hk : name = key
    · rw [hk] at hf hval ⊢
      exact hdefault f v hf hval ha
    · exact ⟨v, by rw [hother name hk, hval], .inl rfl⟩
  · intro name hval ha
    rw [hv] at hval
    rw [hv']
    by_cases hk : name = key
    · rw [hk] at hval ha ⊢
      exact hcreated hval ha
    · rw [hother name hk, hval]

theorem respected_refl (t t' : HTab) (m : EnvMap) (hm : Models t m) (hm' : Models t' m) :
    Respected b t t' :=
  respected_of_other b t t' m m hm hm' [] (fun _ _ => rfl) (fun _ _ _ h _ => h)
    (fun _ v _ h _ => ⟨v, h, .inl rfl⟩) fun h _ => h

theorem denied_envHooks (t : HTab) (i : ℕ) (v : Option CStr) (op : EnvOp) (flag : ℕ) :
    denied (envHooks b) t i v op flag = envFlagsValidate b (t.table i).entry v op flag := rfl

/-- What a change that was not denied says of the flags. -/
theorem overwrite_allowed (e : Entry) (v : Option CStr) (flag : ℕ) (hf : flag &&& hForce = 0)
    (hok : envFlagsValidate b e v .overwrite flag = false) :
    e.flags &&& preventOverwr = 0 ∧ (e.flags &&& preventNondefOverwr ≠ 0 →
      e.data.getD [] = (getenvDefault b (e.key.getD [])).getD []) := by
  unfold envFlagsValidate at hok
  split at hok
  · cases hok
  · rw [if_neg (by simpa using hf)] at hok
    by_cases ho : e.flags &&& preventOverwr = 0
    · simp only [ho, ne_eq, not_true_eq_false, if_false] at hok
      refine ⟨ho, fun hn => ?_⟩
      rw [if_pos hn] at hok
      simpa using hok
    · simp only [ne_eq, ho, not_false_eq_true, if_true] at hok
      cases hok

theorem delete_allowed (e : Entry) (flag : ℕ) (hf : flag &&& hForce = 0)
    (hok : envFlagsValidate b e none .delete flag = false) : e.flags &&& preventDelete = 0 := by
  unfold envFlagsValidate at hok
  rw [if_neg (by simp), if_neg (by simpa using hf)] at hok
  simpa using hok

theorem create_allowed (e : Entry) (v : Option CStr) (flag : ℕ) (hf : flag &&& hForce = 0)
    (hok : envFlagsValidate b e v .create flag = false) : e.flags &&& preventCreate = 0 := by
  unfold envFlagsValidate at hok
  split at hok
  · cases hok
  · rw [if_neg (by simpa using hf)] at hok
    simpa using hok

/-- The flags of a new entry are those that the list without it gives, unless it is `.flags`. -/
theorem seeded_flags (t : HTab) (m : EnvMap) (hm : Models t m) (key v : CStr) (i : ℕ)
    (hnew : Models (seeded (envHooks b) key v t i) (m.insert key v)) (hk : key ≠ flagsVar) :
    ((seeded (envHooks b) key v t i).table i).entry.flags = currentFlags b t key := by
  have hsame : SameContents (seeded (envHooks b) key v t i) (bound (envHooks b) key v t i) := by
    refine ⟨rfl, rfl, fun j => ?_⟩
    simp only [seeded, HTab.setEntry, HTab.setSlot]
    by_cases hj : j = i
    · rw [if_pos hj, hj]
      exact ⟨rfl, rfl, rfl⟩
    · rw [if_neg hj]
      exact ⟨rfl, rfl, rfl⟩
  have hget : getenv b (bound (envHooks b) key v t i) flagsVar = getenv b t flagsVar := by
    have h1 := valueOf_models _ _ (models_of_same hnew hsame) flagsVar
    have h2 := valueOf_models t m hm flagsVar
    rw [Finmap.lookup_insert_of_ne m (Ne.symm hk), ← h2] at h1
    unfold getenv
    unfold valueOf at h1
    rw [h1]
  rw [(seeded_slots (envHooks b) key v t i).slot]
  change envFlagsInit b (bound (envHooks b) key v t i) key = envFlagsInit b t key
  rw [envFlagsInit, hget]
  rfl

/-- A careful operation respects the access flags. -/
theorem effect_respected (t t' : HTab) (m m' : EnvMap) (op : Op) (hm : Models t m)
    (hm' : Models t' m') (hc : Careful b t op) (he : Effect (envHooks b) t m op t' m') :
    Respected b t t' := by
  cases he with
  | found key => exact respected_refl b t t m hm hm
  | full key v flag habs hfull => exact respected_refl b t t m hm hm
  | refused key v flag i d hlive hno => exact respected_refl b t t m hm hm
  | missing key flag habs => exact respected_refl b t t m hm hm
  | kept key flag i d hlive hno => exact respected_refl b t t m hm hm
  | withdrawn key v flag i hi hin habs hfree hno => exact respected_refl b t _ m hm hm'
  | overwritten key v flag i d t1 hi hin hlive hok hcb =>
    obtain ⟨hforce, -, hbuf, -⟩ := hc
    rw [denied_envHooks] at hok
    obtain ⟨hover, hdef⟩ := overwrite_allowed b _ _ flag hforce hok
    have hflags := flagsOf_live t m hm key d i hi hin hlive
    have hlook := represents_live _ _ hm.represents i key d hi hin hlive
    obtain ⟨-, hkey, hdata⟩ := (cell_live_iff t.size _ (hm.wf.slots i) key d).mp hlive
    apply respected_of_other b t _ m _ hm hm' key
    · intro name hname
      exact Finmap.lookup_insert_of_ne m hname
    · intro f w hf _ ha
      rw [hflags, Option.some.injEq] at hf
      rw [hf] at hover
      rcases ha with ha | ha <;>
        rw [and_of_accessOf f _ preventOverwr ha (by decide)] at hover <;> cases hover
    · intro f w hf hw ha
      rw [hlook, Option.some.injEq] at hw
      refine ⟨v, Finmap.lookup_insert m, .inr ?_⟩
      have hbit : f &&& preventNondefOverwr ≠ 0 := by
        rw [and_of_accessOf f _ preventNondefOverwr ha (by decide)]
        decide
      have hval := hbuf f hf hbit
      rw [hflags, Option.some.injEq] at hf
      rw [hkey, hdata, hf] at hdef
      rw [← hw, ← getenvDefault_eq b key hval]
      exact hdef hbit
    · intro hnone
      rw [hlook] at hnone
      cases hnone
  | created key v flag i t5 hi hin habs hfree hnew hok hcb =>
    obtain ⟨hforce, -, -, hself⟩ := hc
    rw [denied_envHooks] at hok
    have hcreate := create_allowed b _ _ flag hforce hok
    apply respected_of_other b t _ m _ hm hm' key
    · intro name hname
      exact Finmap.lookup_insert_of_ne m hname
    · intro f w _ hw
      rw [habs] at hw
      cases hw
    · intro f w _ hw
      rw [habs] at hw
      cases hw
    · intro _ ha
      exfalso
      by_cases hk : key = flagsVar
      · exact hself hk (by rw [valueOf_models t m hm, habs]) ha
      · rw [seeded_flags b t m hm key v i hnew hk,
          and_of_accessOf _ _ preventCreate ha (by decide)] at hcreate
        cases hcreate
  | deleted key flag i d t1 hi hin hlive hok hcb =>
    rw [denied_envHooks] at hok
    have hdel := delete_allowed b _ flag hc hok
    have hflags := flagsOf_live t m hm key d i hi hin hlive
    have hnot : ∀ f mask, flagsOf t key = some f → accessOf f = mask →
        mask &&& preventDelete = 0 := by
      intro f mask hf ha
      rw [hflags, Option.some.injEq] at hf
      rw [hf, and_of_accessOf f mask preventDelete ha (by decide)] at hdel
      exact hdel
    apply respected_of_other b t _ m _ hm hm' key
    · intro name hname
      exact Finmap.lookup_erase_ne hname
    · intro f w hf _ ha
      rcases ha with ha | ha <;> exact absurd (hnot f _ hf ha) (by decide)
    · intro f w hf _ ha
      exact absurd (hnot f _ hf ha) (by decide)
    · intro _ _
      exact Finmap.lookup_erase key m

/-! ## Sequences of operations -/

inductive EnvAction where
  | enter (name value : CStr) (flag : ℕ)
  | delete (name : CStr) (flag : ℕ)
  | importEnv (env : List UInt8) (sep : UInt8) (flag : ℕ) (vars : List CStr)

/-- `hsearch_r`, `hdelete_r` and `himport_r` on `env_htab`. -/
def perform (t : HTab) : EnvAction → Option HTab
  | .enter name value flag =>
    (hsearchR (envHooks b) name (some value) .enter t flag).map SearchResult.htab
  | .delete name flag => (hdeleteR (envHooks b) name t flag).map DeleteResult.htab
  | .importEnv env sep flag vars =>
    (himportR (envHooks b) (some t) true env sep flag vars).bind Prod.snd

/-- The operations that an action is made of. -/
def EnvAction.ops : EnvAction → Option (List Op)
  | .enter name value flag => some [.enter name value flag]
  | .delete name flag => some [.delete name flag]
  | .importEnv env sep flag vars => himportOps env sep flag vars

/-- An import that does not start with a new table. -/
def EnvAction.KeepsTable : EnvAction → Prop
  | .importEnv _ _ flag _ => flag &&& hNoclear ≠ 0
  | _ => True

theorem perform_eq (t : HTab) (a : EnvAction) (ha : a.KeepsTable) :
    perform b t a = a.ops.bind fun ops => (run (envHooks b) ops t).map Prod.snd := by
  cases a with
  | enter name value flag =>
    rw [perform, EnvAction.ops, Option.bind_some, run, apply]
    cases hsearchR (envHooks b) name (some value) .enter t flag <;> rfl
  | delete name flag =>
    rw [perform, EnvAction.ops, Option.bind_some, run, apply]
    cases hdeleteR (envHooks b) name t flag <;> rfl
  | importEnv env sep flag vars =>
    have ht : importTable (some t) env.length flag = some t := by
      rw [importTable, if_neg ha]
    rw [perform, EnvAction.ops, himportR_run (envHooks b) (some t) env sep flag vars t ht]
    cases himportOps env sep flag vars with
    | none => rfl
    | some ops =>
      simp only [Option.bind_some]
      cases run (envHooks b) ops t <;> rfl

/-- `P` holds of each operation of a run, in the table before it. -/
def Before (P : HTab → Op → Prop) : List Op → HTab → Prop
  | [], _ => True
  | op::ops, t => P t op ∧ ∀ r t', apply (envHooks b) t op = some (r, t') → Before P ops t'

/-- `P` holds of the tables before and after each operation of a run. -/
def Stepwise (P : HTab → HTab → Prop) : List Op → HTab → Prop
  | [], _ => True
  | op::ops, t => ∀ r t', apply (envHooks b) t op = some (r, t') → P t t' ∧ Stepwise P ops t'

/-- Every action of a sequence keeps the table and is made of careful operations. -/
def CarefulRun : List EnvAction → HTab → Prop
  | [], _ => True
  | a::as, t => a.KeepsTable ∧ (∀ ops, a.ops = some ops → Before b (Careful b) ops t) ∧
      ∀ t', perform b t a = some t' → CarefulRun as t'

/-- Every operation of every action respects the access flags. -/
def RespectedRun : List EnvAction → HTab → Prop
  | [], _ => True
  | a::as, t =>
    (perform b t a = a.ops.bind fun ops => (run (envHooks b) ops t).map Prod.snd) ∧
      (∀ ops, a.ops = some ops → Stepwise b (Respected b) ops t) ∧
      ∀ t', perform b t a = some t' → RespectedRun as t'

/-- What every operation does under `P` holds along a run, and the run has an end. -/
theorem run_invariant (P : HTab → Op → Prop) (Q : HTab → HTab → Prop) (I : HTab → Prop)
    (hav : ∀ t op, P t op → Avoids t op)
    (hstep : ∀ t t' m m' op, Models t m → Models t' m' → t'.size = t.size → P t op → I t →
      Effect (envHooks b) t m op t' m' → Q t t' ∧ I t')
    (ops : List Op) (t : HTab) (m : EnvMap) (hm : Models t m) (hi : I t) (hb : Before b P ops t) :
    Stepwise b Q ops t ∧
      ∃ as t' m', run (envHooks b) ops t = some (as, t') ∧ Models t' m' ∧ I t' := by
  induction ops generalizing t m with
  | nil => exact ⟨trivial, [], t, m, rfl, hm, hi⟩
  | cons op ops ih =>
    obtain ⟨hop, hrest⟩ := hb
    obtain ⟨r, t1, m1, ha, he, hm1, hsize⟩ :=
      step_effect (envHooks b) (envHooks_lawful b) op t m hm (hav t op hop)
    obtain ⟨hq, hi1⟩ := hstep t t1 m m1 op hm hm1 hsize hop hi he
    obtain ⟨hs, as, t2, m2, hr, hm2, hi2⟩ := ih t1 m1 hm1 hi1 (hrest r t1 ha)
    constructor
    · intro r' t' h'
      rw [ha, Option.some.injEq, Prod.mk.injEq] at h'
      obtain ⟨-, rfl⟩ := h'
      exact ⟨hq, hs⟩
    · exact ⟨r::as, t2, m2, by simp only [run, ha, hr, Option.bind_some, Option.map_some], hm2, hi2⟩

/-- A careful run of operations respects the flags and ends in a table of some map. -/
theorem run_respected (ops : List Op) (t : HTab) (m : EnvMap) (hm : Models t m)
    (hc : Before b (Careful b) ops t) :
    Stepwise b (Respected b) ops t ∧
      ∃ as t' m', run (envHooks b) ops t = some (as, t') ∧ Models t' m' := by
  obtain ⟨hs, as, t', m', hr, hm', -⟩ := run_invariant b (Careful b) (Respected b) (fun _ => True)
    (careful_avoids b)
    (fun t t' m m' op hm hm' _ hop _ he => ⟨effect_respected b t t' m m' op hm hm' hop he, trivial⟩)
    ops t m hm trivial hc
  exact ⟨hs, as, t', m', hr, hm'⟩

/-- A board on which the variable `x` has the given flags and the given default value. -/
def sampleBoard (flags value : CStr) : Board where
  envFlagsListStatic := [120, 58] ++ flags
  envCallbackListStatic := []
  callbacks := []
  defaultEnvironment := store (fun _ => 0) 0 (EnvScan.image [([120], value)])
  envSize := 64
  ready := true
  image := fun _ => 0
  before := fun _ => []
  accepts := fun _ _ _ _ _ => true

theorem map_eq_of_eq {α β : Type} {o : Option α} {f : α → β} {x : α} {y : β} (h : o = some x)
    (hm : o.map f = some y) : f x = y := by
  rw [h] at hm
  exact Option.some.inj hm

theorem not_clobbers_of_unused (t : HTab) (name : CStr) (i : ℕ) (hi : 0 < i) (hin : i ≤ t.size)
    (hu : (t.table i).used = 0) : ¬Clobbers t name :=
  fun hc => (hc.2.2 i hi hin).1 hu

end UBoot.EnvFlags
