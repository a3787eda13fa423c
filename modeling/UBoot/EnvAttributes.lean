import UBoot.EnvAccess
import UBoot.EnvAttrAgree

/-!
# Consistency of the attributes of environment variables

The attributes of an entry are looked up when it is made, and set anew by a
walk over the lists when `.flags` or `.callbacks` changes. Both give the same
as long as the lists are read alike by the lookup and by the walk, name known
callbacks only, and leave the two variables their own callbacks.
-/

set_option autoImplicit false

namespace UBoot.EnvFlags
open UBoot.HashTable UBoot.OpenAddressing UBoot.EnvAttr UBoot.EnvText

/-! ## Setting an attribute of one variable -/

def setAttr (f : Entry → CStr → Entry) (t : HTab) (name : CStr) (value : Option CStr) : HTab :=
  match find t name with
  | none => t
  | some i => t.setEntry i (f (t.table i).entry (value.getD []))

variable (b : Board)

def flagsFrom (attributes : CStr) : ℕ := if attributes = [] then 0 else parseFlagsToBin attributes

def updateFlags (e : Entry) (attributes : CStr) : Entry := { e with flags := flagsFrom attributes }

def updateCallback (e : Entry) (attributes : CStr) : Entry :=
  if attributes = [] then { e with callback := none }
  else match findEnvCallback b attributes with
    | none => e
    | some c => { e with callback := some c }

theorem setFlags_eq (t : HTab) (name : CStr) (value : Option CStr) :
    setFlags t name value = (0, setAttr updateFlags t name value) := by
  unfold setFlags setAttr
  cases find t name <;> rfl

theorem setCallback_eq (t : HTab) (name : CStr) (value : Option CStr) :
    setCallback b t name value = (0, setAttr (updateCallback b) t name value) := by
  unfold setCallback setAttr updateCallback
  cases find t name with
  | none => rfl
  | some i =>
    by_cases hv : value.getD [] = []
    · simp only [if_pos hv]
    · simp only [if_neg hv]
      cases findEnvCallback b (value.getD []) with
      | none =>
        simp only [Prod.mk.injEq, true_and]
        exact (setEntry_self t i).symm
      | some c => rfl
where
  setEntry_self (t : HTab) (i : ℕ) : t.setEntry i (t.table i).entry = t := by
    unfold HTab.setEntry HTab.setSlot
    congr
    funext j
    by_cases hj : j = i
    · rw [if_pos hj, hj]
    · rw [if_neg hj]

/-- The setter touches attributes only. -/
def Plain (f : Entry → CStr → Entry) : Prop := ∀ e a, (f e a).key = e.key ∧ (f e a).data = e.data

theorem plain_updateFlags : Plain updateFlags := fun _ _ => ⟨rfl, rfl⟩

theorem plain_updateCallback : Plain (updateCallback b) := by
  intro e a
  unfold updateCallback
  by_cases ha : a = []
  · rw [if_pos ha]
    exact ⟨rfl, rfl⟩
  · rw [if_neg ha]
    cases findEnvCallback b a <;> exact ⟨rfl, rfl⟩

section
variable {f : Entry → CStr → Entry}

theorem same_setAttr (hf : Plain f) (t : HTab) (name : CStr) (value : Option CStr) :
    SameContents t (setAttr f t name value) := by
  unfold setAttr
  split
  · exact SameContents.refl t
  · exact same_setEntry t _ _ (hf _ _).1 (hf _ _).2

theorem setAttr_entry (t : HTab) (m : EnvMap) (hm : Models t m) (name : CStr)
    (value : Option CStr) (j : ℕ) (k d : CStr) (hj : 0 < j) (hjn : j ≤ t.size)
    (hlive : cells t j = .live k d) :
    ((setAttr f t name value).table j).entry =
      if name = k then f (t.table j).entry (value.getD []) else (t.table j).entry := by
  unfold setAttr
  rcases find_cases t m hm name with ⟨i, e, hi, hin, hc, -, hfind⟩ | ⟨hl, hfind⟩
  · rw [hfind]
    simp only [HTab.setEntry]
    by_cases hk : name = k
    · rw [if_pos hk]
      rw [hk] at hc
      rw [hm.wf.sound.single i j k e d hi hin hj hjn hc hlive, setSlot_same]
    · rw [if_neg hk]
      have hne : j ≠ i := by
        rintro rfl
        rw [hlive, Cell.live.injEq] at hc
        exact hk hc.1.symm
      rw [setSlot_other t i j _ hne]
  · rw [hfind]
    simp only
    rw [if_neg]
    rintro rfl
    rw [represents_live _ _ hm.represents j name d hj hjn hlive] at hl
    cases hl

/-- The attributes that a walk gives to a variable. -/
def folded (f : Entry → CStr → Entry) (ds : List (CStr × Option CStr)) (k : CStr) (e : Entry) :
    Entry :=
  ds.foldl (fun e p => if p.1 = k then f e (p.2.getD []) else e) e

theorem foldl_setAttr (hf : Plain f) (ds : List (CStr × Option CStr)) (t : HTab) (m : EnvMap)
    (hm : Models t m) :
    SameContents t (ds.foldl (fun t p => setAttr f t p.1 p.2) t) ∧
      ∀ j k d, 0 < j → j ≤ t.size → cells t j = .live k d →
        ((ds.foldl (fun t p => setAttr f t p.1 p.2) t).table j).entry =
          folded f ds k (t.table j).entry := by
  induction ds generalizing t with
  | nil => exact ⟨SameContents.refl t, fun _ _ _ _ _ _ => rfl⟩
  | cons p ds ih =>
    have hs := same_setAttr hf t p.1 p.2
    obtain ⟨hs', he⟩ := ih (setAttr f t p.1 p.2) (models_of_same hm hs)
    refine ⟨hs.trans hs', ?_⟩
    intro j k d hj hjn hlive
    have hlive' : cells (setAttr f t p.1 p.2) j = .live k d := by
      rw [same_cells t _ hs]
      exact hlive
    have hstep := he j k d hj (hjn.trans_eq hs.1.symm) hlive'
    rw [setAttr_entry t m hm p.1 p.2 j k d hj hjn hlive] at hstep
    exact hstep

theorem envAttrWalk_eq (list : CStr) (t : HTab) :
    (envAttrWalk (fun t name value => (0, setAttr f t name value)) (some list) t).2 =
      (delivered list).foldl (fun t p => setAttr f t p.1 p.2) t := by
  unfold envAttrWalk delivered
  simp only
  generalize entries list = es
  induction es generalizing t with
  | nil => rfl
  | cons e es ih =>
    rw [walkEntries]
    cases hp : parseEntry e with
    | none =>
      rw [List.filterMap_cons_none hp]
      exact ih t
    | some p =>
      rw [List.filterMap_cons_some hp]
      exact ih _

end

/-! ## The walks and the lookups -/

def callbackFrom (attributes : CStr) : Option ℕ :=
  if attributes = [] then none else findEnvCallback b attributes

/-- The flags of a variable with the given value of `.flags`. -/
def flagsFor (list : Option CStr) (name : CStr) : ℕ :=
  match lookupAttr b list b.envFlagsListStatic name with
  | none => 0
  | some attributes => flagsFrom attributes

/-- The callback of a variable with the given value of `.callbacks`. -/
def callbackFor (list : Option CStr) (name : CStr) : Option ℕ :=
  match lookupAttr b list b.envCallbackListStatic name with
  | none => none
  | some attributes => callbackFrom b attributes

/-- An optional list, walked over. -/
def deliveredOf (list : Option CStr) : List (CStr × Option CStr) := (list.map delivered).getD []

/-- The static list and then the other one, walked over. -/
def combined (static : CStr) (list : Option CStr) : List (CStr × Option CStr) :=
  delivered static++deliveredOf list

/-- Both lists are read alike for a name by the lookup and by the walk. -/
structure Legible (static : CStr) (list : Option CStr) (name : CStr) : Prop where
  proper : ProperName name
  static : Readable static name
  list : ∀ l, list = some l → Readable l name

/-- A callback that is not known is not named last, or nothing else is named. -/
def Known (ds : List (CStr × Option CStr)) (name : CStr) : Prop :=
  (∀ a, lastDelivered ds name = some a → a = [] ∨ ∃ c, findEnvCallback b a = some c) ∨
    ∀ p ∈ ds, p.1 = name → findEnvCallback b (p.2.getD []) = none

theorem lookupAttr_eq (list : Option CStr) (static name : CStr) (h : Legible static list name) :
    lookupAttr b list static name = lastDelivered (combined static list) name := by
  unfold lookupAttr
  rw [envAttrLookup_delivered name h.proper (b.before static) static h.static, combined,
    lastDelivered_append]
  cases list with
  | none => rfl
  | some l =>
    rw [Option.bind_some, envAttrLookup_delivered name h.proper (b.before l) l (h.list l rfl)]
    rw [deliveredOf, Option.map_some, Option.getD_some]
    cases lastDelivered (delivered l) name <;> rfl

theorem folded_other {β : Type} (f : Entry → CStr → Entry) (other : Entry → β)
    (hkeep : ∀ e a, other (f e a) = other e) (ds : List (CStr × Option CStr)) (k : CStr)
    (e : Entry) : other (folded f ds k e) = other e := by
  induction ds generalizing e with
  | nil => rfl
  | cons p ds ih =>
    rw [folded, List.foldl_cons, ← folded, ih]
    by_cases hp : p.1 = k
    · rw [if_pos hp, hkeep]
    · rw [if_neg hp]

/-- A walk sets an attribute of a variable to what is delivered last for its name. -/
theorem folded_attr {α : Type} (f : Entry → CStr → Entry) (attr : Entry → α) (from' : CStr → α)
    (ds : List (CStr × Option CStr)) (k : CStr)
    (hset : ∀ a, lastDelivered ds k = some a → ∀ e, attr (f e a) = from' a) (e : Entry) :
    attr (folded f ds k e) = ((lastDelivered ds k).map from').getD (attr e) := by
  induction ds using List.reverseRecOn with
  | nil => rfl
  | append_singleton ds p ih =>
    rw [lastDelivered_append, lastDelivered_cons] at hset ⊢
    rw [folded, List.foldl_append, List.foldl_cons, List.foldl_nil, ← folded]
    by_cases hp : p.1 = k
    · rw [if_pos hp] at hset ⊢
      rw [if_pos hp]
      exact hset _ rfl _
    · rw [if_neg hp] at hset ⊢
      rw [if_neg hp]
      exact ih hset

theorem updateCallback_known (e : Entry) (a : CStr)
    (ha : a = [] ∨ ∃ c, findEnvCallback b a = some c) :
    (updateCallback b e a).callback = callbackFrom b a := by
  unfold updateCallback callbackFrom
  by_cases h0 : a = []
  · rw [if_pos h0, if_pos h0]
  · obtain ⟨c, hc⟩ := ha.resolve_left h0
    rw [if_neg h0, if_neg h0, hc]

/-- Without a known callback in the lists, a cleared variable stays without one. -/
theorem folded_unknown (ds : List (CStr × Option CStr)) (k : CStr)
    (hno : ∀ p ∈ ds, p.1 = k → findEnvCallback b (p.2.getD []) = none) (e : Entry)
    (he : e.callback = none) : (folded (updateCallback b) ds k e).callback = none := by
  induction ds generalizing e with
  | nil => exact he
  | cons p ds ih =>
    obtain ⟨h1, h2⟩ := List.forall_mem_cons.mp hno
    rw [folded, List.foldl_cons, ← folded]
    refine ih h2 _ ?_
    by_cases hp : p.1 = k
    · rw [if_pos hp, updateCallback, h1 hp]
      split
      · rfl
      · exact he
    · rw [if_neg hp, he]

/-- The callback that the walks give to a cleared variable. -/
theorem folded_callback (ds : List (CStr × Option CStr)) (k : CStr) (hk : Known b ds k) (e : Entry)
    (he : e.callback = none) : (folded (updateCallback b) ds k e).callback =
      ((lastDelivered ds k).map (callbackFrom b)).getD none := by
  rcases hk with hlast | hno
  · rw [folded_attr (updateCallback b) Entry.callback (callbackFrom b) ds k
      (fun a ha e => updateCallback_known b e a (hlast a ha)), he]
  · rw [folded_unknown b ds k hno e he]
    cases hl : lastDelivered ds k with
    | none => rfl
    | some a =>
      obtain ⟨p, hp, hk, rfl⟩ := lastDelivered_mem ds k a hl
      rw [Option.map_some, Option.getD_some, callbackFrom, hno p hp hk, ite_self]

/-- Clearing an attribute and walking over both lists. -/
def refresh (f : Entry → CStr → Entry) (clear : Entry → Entry) (static : CStr)
    (value : Option CStr) (t : HTab) : HTab :=
  (combined static value).foldl (fun t p => setAttr f t p.1 p.2) (hwalk clear t)

theorem envAttrWalk_option (f : Entry → CStr → Entry) (value : Option CStr) (t : HTab) :
    (envAttrWalk (fun t name value => (0, setAttr f t name value)) value t).2 =
      (deliveredOf value).foldl (fun t p => setAttr f t p.1 p.2) t := by
  cases value with
  | none => rfl
  | some list => exact envAttrWalk_eq list t

theorem onFlags_refresh (value : Option CStr) (t : HTab) :
    onFlags b value t = refresh updateFlags clearFlags b.envFlagsListStatic value t := by
  have hs : setFlags = fun t name value => (0, setAttr updateFlags t name value) := by
    funext t name value
    exact setFlags_eq t name value
  simp only [onFlags, hs, envAttrWalk_option, refresh, combined, List.foldl_append]
  rfl

theorem onCallbacks_refresh (value : Option CStr) (t : HTab) :
    onCallbacks b value t =
      refresh (updateCallback b) clearCallback b.envCallbackListStatic value t := by
  have hs : setCallback b = fun t name value => (0, setAttr (updateCallback b) t name value) := by
    funext t name value
    exact setCallback_eq b t name value
  simp only [onCallbacks, hs, envAttrWalk_option, refresh, combined, List.foldl_append]
  rfl

theorem refresh_entry (f : Entry → CStr → Entry) (hf : Plain f) (clear : Entry → Entry)
    (hclear : ∀ e, (clear e).key = e.key ∧ (clear e).data = e.data) (static : CStr)
    (value : Option CStr) (t : HTab) (m : EnvMap) (hm : Models t m) (j : ℕ) (k d : CStr)
    (hj : 0 < j) (hjn : j ≤ t.size) (hlive : cells t j = .live k d) :
    ((refresh f clear static value t).table j).entry =
      folded f (combined static value) k (clear (t.table j).entry) := by
  have h1 := same_hwalk clear hclear t
  obtain ⟨-, he⟩ := foldl_setAttr hf (combined static value) (hwalk clear t) m
    (models_of_same hm h1)
  have hused : 0 < (t.table j).used := by
    rw [((cell_live_iff t.size _ (hm.wf.slots j) k d).mp hlive).1]
    exact_mod_cast home_pos t.size k
  have hc : cells (hwalk clear t) j = .live k d := by rw [same_cells t _ h1, hlive]
  rw [refresh, he j k d hj hjn hc]
  simp only [hwalk, if_pos (show 1 ≤ j ∧ j ≤ t.size ∧ 0 < (t.table j).used from ⟨hj, hjn, hused⟩)]

/-- `on_flags` gives a live entry the flags that a lookup would find. -/
theorem onFlags_entry (t : HTab) (m : EnvMap) (hm : Models t m) (value : Option CStr) (j : ℕ)
    (k d : CStr) (hj : 0 < j) (hjn : j ≤ t.size) (hlive : cells t j = .live k d)
    (hl : Legible b.envFlagsListStatic value k) :
    ((onFlags b value t).table j).entry.flags = flagsFor b value k ∧
      ((onFlags b value t).table j).entry.callback = (t.table j).entry.callback := by
  rw [onFlags_refresh, refresh_entry updateFlags plain_updateFlags clearFlags
    (fun _ => ⟨rfl, rfl⟩) _ value t m hm j k d hj hjn hlive]
  constructor
  · rw [folded_attr updateFlags Entry.flags flagsFrom _ k (fun _ _ _ => rfl), flagsFor,
      lookupAttr_eq b value _ k hl]
    cases lastDelivered (combined b.envFlagsListStatic value) k <;> rfl
  · exact folded_other updateFlags Entry.callback (fun _ _ => rfl) _ k _

theorem updateCallback_flags (e : Entry) (a : CStr) : (updateCallback b e a).flags = e.flags := by
  unfold updateCallback
  by_cases ha : a = []
  · rw [if_pos ha]
  · rw [if_neg ha]
    cases findEnvCallback b a <;> rfl

/-- `on_callbacks` gives a live entry the callback that a lookup would find. -/
theorem onCallbacks_entry (t : HTab) (m : EnvMap) (hm : Models t m) (value : Option CStr) (j : ℕ)
    (k d : CStr) (hj : 0 < j) (hjn : j ≤ t.size) (hlive : cells t j = .live k d)
    (hl : Legible b.envCallbackListStatic value k)
    (hk : Known b (combined b.envCallbackListStatic value) k) :
    ((onCallbacks b value t).table j).entry.callback = callbackFor b value k ∧
      ((onCallbacks b value t).table j).entry.flags = (t.table j).entry.flags := by
  rw [onCallbacks_refresh, refresh_entry (updateCallback b) (plain_updateCallback b) clearCallback
    (fun _ => ⟨rfl, rfl⟩) _ value t m hm j k d hj hjn hlive]
  constructor
  · rw [folded_callback b _ k hk _ rfl, callbackFor, lookupAttr_eq b value _ k hl]
    cases lastDelivered (combined b.envCallbackListStatic value) k <;> rfl
  · exact folded_other (updateCallback b) Entry.flags (updateCallback_flags b) _ k _

/-! ## One operation -/

/-- The entry of a variable has the attributes that the lists of the map give it. -/
structure Attributed (m : EnvMap) (k : CStr) (e : Entry) : Prop where
  flags : e.flags = flagsFor b (m.lookup flagsVar) k
  callback : e.callback = callbackFor b (m.lookup callbackVar) k

/-- Every live entry has the flags and the callback that its name has in the lists. -/
def Consistent (t : HTab) : Prop :=
  ∀ i k d, 0 < i → i ≤ t.size → cells t i = .live k d →
    (t.table i).entry.flags = flagsFor b (valueOf t flagsVar) k ∧
      (t.table i).entry.callback = callbackFor b (valueOf t callbackVar) k

theorem consistent_iff (t : HTab) (m : EnvMap) (hm : Models t m) :
    Consistent b t ↔ ∀ i k d, 0 < i → i ≤ t.size → cells t i = .live k d →
      Attributed b m k (t.table i).entry := by
  unfold Consistent
  rw [valueOf_models t m hm, valueOf_models t m hm]
  constructor
  · exact fun h i k d hi hin hl => ⟨(h i k d hi hin hl).1, (h i k d hi hin hl).2⟩
  · exact fun h i k d hi hin hl => ⟨(h i k d hi hin hl).flags, (h i k d hi hin hl).callback⟩

def callbackName (c : Option ℕ) : Option CStr := c.map fun n => b.callbacks.getD n []

/-- The variables `.flags` and `.callbacks`, and only they, have the callbacks of that name. -/
def Wired (name : CStr) (c : Option ℕ) : Prop :=
  (callbackName b c = some flagsCallback ↔ name = flagsVar) ∧
    (callbackName b c = some callbacksCallback ↔ name = callbackVar)

theorem flagsVar_ne_callbackVar : flagsVar ≠ callbackVar := by decide

/-- What the callback of an entry does to the table. -/
theorem runCallback_cases (t t1 : HTab) (i : ℕ) (key : CStr) (v : Option CStr) (op : EnvOp)
    (flag : ℕ) (hw : Wired b key (t.table i).entry.callback)
    (hcb : runCallback (envHooks b) t i key v op flag = some t1) :
    (key = flagsVar ∧ t1 = onFlags b v t) ∨ (key = callbackVar ∧ t1 = onCallbacks b v t) ∨
      (key ≠ flagsVar ∧ key ≠ callbackVar ∧ t1 = t) := by
  unfold runCallback at hcb
  unfold Wired at hw
  cases hc : (t.table i).entry.callback with
  | none =>
    rw [hc] at hcb hw
    cases hcb
    exact .inr (.inr ⟨(fun h => nomatch hw.1.mpr h), (fun h => nomatch hw.2.mpr h), rfl⟩)
  | some c =>
    rw [hc] at hcb hw
    simp only [callbackName, Option.map_some, Option.some.injEq] at hw
    change runCallbackNumber b c t key v op flag = some t1 at hcb
    unfold runCallbackNumber at hcb
    by_cases h1 : b.callbacks.getD c [] = flagsCallback
    · rw [if_pos h1] at hcb
      cases hcb
      exact .inl ⟨hw.1.mp h1, rfl⟩
    · rw [if_neg h1] at hcb
      by_cases h2 : b.callbacks.getD c [] = callbacksCallback
      · rw [if_pos h2] at hcb
        cases hcb
        exact .inr (.inl ⟨hw.2.mp h2, rfl⟩)
      · rw [if_neg h2] at hcb
        by_cases h3 : b.accepts (b.callbacks.getD c []) key v op flag = true
        · rw [if_pos h3] at hcb
          cases hcb
          exact .inr (.inr ⟨fun h => h1 (hw.1.mpr h), fun h => h2 (hw.2.mpr h), rfl⟩)
        · rw [if_neg h3] at hcb
          cases hcb

/-- The lists are in order for a variable after the change of one of them. -/
structure Tidy (key : CStr) (v : Option CStr) (k : CStr) : Prop where
  flags : key = flagsVar → Legible b.envFlagsListStatic v k
  callbacks : key = callbackVar → Legible b.envCallbackListStatic v k ∧
    Known b (combined b.envCallbackListStatic v) k

/-- After the callback of a change to `v`, the entries have the attributes of the new map. -/
theorem callback_attributed (t t1 : HTab) (m m' : EnvMap) (hm : Models t m) (i : ℕ) (key : CStr)
    (v : Option CStr) (op : EnvOp) (flag : ℕ)
    (hcb : runCallback (envHooks b) t i key v op flag = some t1)
    (hw : Wired b key (t.table i).entry.callback)
    (hflags : m'.lookup flagsVar = if key = flagsVar then v else m.lookup flagsVar)
    (hcallbacks : m'.lookup callbackVar = if key = callbackVar then v else m.lookup callbackVar)
    (j : ℕ) (k d : CStr) (hj : 0 < j) (hjn : j ≤ t.size) (hlive : cells t j = .live k d)
    (ht : Tidy b key v k)
    (hf : key ≠ flagsVar → (t.table j).entry.flags = flagsFor b (m.lookup flagsVar) k)
    (hc : key ≠ callbackVar →
      (t.table j).entry.callback = callbackFor b (m.lookup callbackVar) k) :
    Attributed b m' k (t1.table j).entry := by
  rcases runCallback_cases b t t1 i key v op flag hw hcb with ⟨rfl, rfl⟩ | ⟨rfl, rfl⟩ | ⟨h1, h2, rfl⟩
  · obtain ⟨he, hkeep⟩ := onFlags_entry b t m hm v j k d hj hjn hlive (ht.flags rfl)
    rw [if_pos rfl] at hflags
    rw [if_neg flagsVar_ne_callbackVar] at hcallbacks
    exact ⟨by rw [he, hflags], by rw [hkeep, hc flagsVar_ne_callbackVar, hcallbacks]⟩
  · obtain ⟨hl, hk⟩ := ht.callbacks rfl
    obtain ⟨he, hkeep⟩ := onCallbacks_entry b t m hm v j k d hj hjn hlive hl hk
    rw [if_neg flagsVar_ne_callbackVar.symm] at hflags
    rw [if_pos rfl] at hcallbacks
    exact ⟨by rw [hkeep, hf flagsVar_ne_callbackVar.symm, hflags], by rw [he, hcallbacks]⟩
  · rw [if_neg h1] at hflags
    rw [if_neg h2] at hcallbacks
    exact ⟨by rw [hf h1, hflags], by rw [hc h2, hcallbacks]⟩

/-- A slot that is live after a step was live before, if its use and its key are the same. -/
theorem live_before (t t' : HTab) (m m' : EnvMap) (hm : Models t m) (hm' : Models t' m')
    (hsize : t'.size = t.size) (j : ℕ) (k d' : CStr) (hlive : cells t' j = .live k d')
    (hu : (t'.table j).used = (t.table j).used)
    (hk : (t'.table j).entry.key = (t.table j).entry.key) : ∃ d, cells t j = .live k d := by
  obtain ⟨hu', hk', -⟩ := (cell_live_iff t'.size _ (hm'.wf.slots j) k d').mp hlive
  rw [hu, hsize] at hu'
  rw [hk] at hk'
  have hpos := home_pos t.size k
  rcases hm.wf.slots j with h | h | ⟨k', d, hkey, hdata, h⟩
  · omega
  · omega
  · rw [hkey, Option.some.injEq] at hk'
    subst hk'
    exact ⟨d, (cell_live_iff t.size _ (hm.wf.slots j) k' d).mpr ⟨h, hkey, hdata⟩⟩

theorem valueOf_live (t : HTab) (m : EnvMap) (hm : Models t m) (j : ℕ) (k d : CStr) (hj : 0 < j)
    (hjn : j ≤ t.size) (hlive : cells t j = .live k d) : valueOf t k ≠ none := by
  rw [valueOf_models t m hm, represents_live _ _ hm.represents j k d hj hjn hlive]
  exact Option.some_ne_none d

theorem lookup_insert_ite (m : EnvMap) (key v x : CStr) :
    (m.insert key v).lookup x = if key = x then some v else m.lookup x := by
  by_cases h : key = x
  · rw [if_pos h, h, Finmap.lookup_insert]
  · rw [if_neg h, Finmap.lookup_insert_of_ne m (Ne.symm h)]

theorem lookup_erase_ite (m : EnvMap) (key x : CStr) :
    (m.erase key).lookup x = if key = x then none else m.lookup x := by
  by_cases h : key = x
  · rw [if_pos h, h, Finmap.lookup_erase]
  · rw [if_neg h, Finmap.lookup_erase_ne (Ne.symm h)]

/-- `getenv` finds the lists of the table with the new entry. -/
def Current (t : HTab) (key v : CStr) : Prop :=
  b.ready = true ∨ ∀ x ∈ [flagsVar, callbackVar],
    getenvRaw b.image b.envSize x = if key = x then some v else valueOf t x

/-- The operation has a slot of its own; a new entry gets the current lists; the variable that is
changed has its own callback; and a new list is in order for every variable. -/
def Regular (t : HTab) : Op → Prop
  | .find _ => True
  | .enter key v _ => ¬Clobbers t key ∧ (valueOf t key = none → Current b t key v) ∧
      Wired b key (callbackFor b (if key = callbackVar ∧ valueOf t key = none then some v
        else valueOf t callbackVar) key) ∧
      ∀ k, k = key ∨ valueOf t k ≠ none → Tidy b key (some v) k
  | .delete key _ => valueOf t key ≠ none →
      Wired b key (callbackFor b (valueOf t callbackVar) key) ∧
      ∀ k, valueOf t k ≠ none → Tidy b key none k

theorem regular_avoids (t : HTab) (op : Op) (h : Regular b t op) : Avoids t op := by
  cases op with
  | enter key v flag => exact h.1
  | find key => trivial
  | delete key flag => trivial

/-- The new entry has the attributes of the map with it. -/
theorem seeded_attributed (t : HTab) (m : EnvMap) (hm : Models t m) (key v : CStr) (i : ℕ)
    (hcur : Current b t key v)
    (hnew : Models (seeded (envHooks b) key v t i) (m.insert key v)) :
    Attributed b (m.insert key v) key ((seeded (envHooks b) key v t i).table i).entry := by
  have hslot := (seeded_slots (envHooks b) key v t i).slot
  have hget (t' : HTab) (hs : SameContents (seeded (envHooks b) key v t i) t') (x : CStr)
      (hx : x ∈ [flagsVar, callbackVar]) : getenv b t' x = (m.insert key v).lookup x := by
    rw [getenv]
    by_cases hready : b.ready = true
    · rw [if_pos hready]
      exact valueOf_models t' _ (models_of_same hnew hs) x
    · rw [if_neg hready, hcur.resolve_left hready x hx, valueOf_models t m hm, lookup_insert_ite]
  have hsame (t' : HTab) (h1 : t'.size = t.size) (h2 : t'.filled = wrap32 (t.filled+1))
      (h3 : ∀ j, j ≠ i → t'.table j = t.table j)
      (h4 : (t'.table i).used = homeIndex t.size key ∧ (t'.table i).entry.key = some key ∧
        (t'.table i).entry.data = some v) :
      SameContents (seeded (envHooks b) key v t i) t' := by
    obtain ⟨hs, hf, ho, -⟩ := seeded_slots (envHooks b) key v t i
    refine ⟨h1.trans hs.symm, h2.trans hf.symm, fun j => ?_⟩
    by_cases hj : j = i
    · rw [hj, hslot]
      exact h4
    · rw [h3 j hj, ho j hj]
      exact ⟨rfl, rfl, rfl⟩
  have hbound : SameContents (seeded (envHooks b) key v t i) (bound (envHooks b) key v t i) := by
    refine hsame _ rfl rfl (fun j hj => ?_) ?_
    · simp [bound, placed, HTab.setEntry, HTab.setSlot, hj]
    · simp [bound, placed, HTab.setEntry, HTab.setSlot]
  have hplaced : SameContents (seeded (envHooks b) key v t i) (placed key v t i) := by
    refine hsame _ rfl rfl (fun j hj => ?_) ?_
    · simp [placed, HTab.setSlot, hj]
    · simp [placed, HTab.setSlot]
  rw [hslot]
  constructor
  · change envFlagsInit b (bound (envHooks b) key v t i) key = _
    rw [envFlagsInit, hget _ hbound flagsVar (by simp)]
    rfl
  · change envCallbackInit b (placed key v t i) key = _
    rw [envCallbackInit, hget _ hplaced callbackVar (by simp)]
    rfl

/-- An entry that is live after a deletion is another one, and as it was. -/
theorem live_not_buried (t : HTab) (m : EnvMap) (i j : ℕ) (k d : CStr) (hm : Models (hdelete t i) m)
    (hlive : cells (hdelete t i) j = .live k d) :
    j ≠ i ∧ (hdelete t i).table j = t.table j := by
  have hne : j ≠ i := by
    rintro rfl
    have hu := ((cell_live_iff _ _ (hm.wf.slots j) k d).mp hlive).1
    rw [hdelete_table, setSlot_same] at hu
    change (-1 : ℤ) = _ at hu
    omega
  exact ⟨hne, by rw [hdelete_table, setSlot_other _ _ _ _ hne]⟩

section
variable (t t' : HTab) (m : EnvMap) (hm : Models t m)
  (hc : ∀ i k d, 0 < i → i ≤ t.size → cells t i = .live k d →
    Attributed b m k (t.table i).entry)
include hm hc

theorem overwrite_attributed (key v : CStr) (flag i : ℕ) (d : CStr) (t1 : HTab) (hi : 0 < i)
    (hin : i ≤ t.size) (hlive : cells t i = .live key d)
    (hcb : runCallback (envHooks b) t i key (some v) .overwrite flag = some t1)
    (hr : Regular b t (.enter key v flag))
    (ht' : t' = t1.setEntry i { (t1.table i).entry with data := some v })
    (hm' : Models t' (m.insert key v)) (hsize : t'.size = t.size) (j : ℕ) (k d' : CStr)
    (hj : 0 < j) (hjn : j ≤ t.size) (hl : cells t' j = .live k d') :
    Attributed b (m.insert key v) k (t'.table j).entry := by
  have hsame := (envHooks_lawful b).runCallback hcb
  obtain ⟨-, -, hwire, htidy⟩ := hr
  have hkey := valueOf_live t m hm i key d hi hin hlive
  rw [if_neg (fun h => hkey h.2), valueOf_models t m hm,
    ← (hc i key d hi hin hlive).callback] at hwire
  have hent : (t'.table j).used = (t1.table j).used ∧
      (t'.table j).entry = { (t1.table j).entry with data := (t'.table j).entry.data } := by
    rw [ht', HTab.setEntry]
    by_cases hji : j = i
    · subst hji
      rw [setSlot_same]
      exact ⟨rfl, rfl⟩
    · rw [setSlot_other _ _ _ _ hji]
      exact ⟨rfl, rfl⟩
  obtain ⟨e, hd⟩ := live_before t _ m _ hm hm' hsize j k d' hl
    (hent.1.trans (hsame.2.2 j).1) (by rw [hent.2]; exact (hsame.2.2 j).2.1)
  have hatt := callback_attributed b t t1 m (m.insert key v) hm i key (some v) .overwrite flag hcb
    hwire (lookup_insert_ite m key v flagsVar) (lookup_insert_ite m key v callbackVar) j k e hj
    hjn hd (htidy k (.inr (valueOf_live t m hm j k e hj hjn hd)))
    (fun _ => (hc j k e hj hjn hd).flags) (fun _ => (hc j k e hj hjn hd).callback)
  rw [hent.2]
  exact ⟨hatt.flags, hatt.callback⟩

theorem create_attributed (key v : CStr) (flag i : ℕ) (habs : m.lookup key = none)
    (hnew : Models (seeded (envHooks b) key v t i) (m.insert key v))
    (hcb : runCallback (envHooks b) (seeded (envHooks b) key v t i) i key (some v) .create flag =
      some t')
    (hr : Regular b t (.enter key v flag)) (j : ℕ) (k d' : CStr) (hj : 0 < j) (hjn : j ≤ t.size)
    (hl : cells t' j = .live k d') : Attributed b (m.insert key v) k (t'.table j).entry := by
  have hsame := (envHooks_lawful b).runCallback hcb
  have hslots := seeded_slots (envHooks b) key v t i
  obtain ⟨-, hcur, hwire, htidy⟩ := hr
  rw [valueOf_models t m hm, valueOf_models t m hm] at hwire
  have hown := seeded_attributed b t m hm key v i (hcur ((valueOf_models t m hm key).trans habs)) hnew
  have hwire' : Wired b key ((seeded (envHooks b) key v t i).table i).entry.callback := by
    rw [hown.callback, lookup_insert_ite]
    simpa only [habs, and_true] using hwire
  have hls : cells (seeded (envHooks b) key v t i) j = .live k d' := by
    rw [← same_cells _ _ hsame]
    exact hl
  have hins (x : CStr) : (m.insert key v).lookup x =
      if key = x then some v else (m.insert key v).lookup x := by
    rw [lookup_insert_ite]
    by_cases hx : key = x
    · rw [if_pos hx, if_pos hx]
    · rw [if_neg hx, if_neg hx]
  have hstep := callback_attributed b _ t' (m.insert key v) (m.insert key v) hnew i key (some v)
    .create flag hcb hwire' (hins flagsVar) (hins callbackVar) j k d' hj
    (hjn.trans_eq hslots.size.symm) hls
  by_cases hji : j = i
  · -- the new entry itself
    have hk : k = key := by
      rw [hji] at hls
      have hkey := ((cell_live_iff _ _ (hnew.wf.slots i) k d').mp hls).2.1
      rw [hslots.slot, Option.some.injEq] at hkey
      exact hkey.symm
    have hown' : Attributed b (m.insert key v) k ((seeded (envHooks b) key v t i).table j).entry := by
      rw [hk, hji]
      exact hown
    exact hstep (htidy k (.inl hk)) (fun _ => hown'.flags) (fun _ => hown'.callback)
  · have hd : cells t j = .live k d' := by
      rw [cells, ← hslots.other j hji]
      exact hls
    have hold := hc j k d' hj hjn hd
    refine hstep (htidy k (.inr (valueOf_live t m hm j k d' hj hjn hd))) (fun hne => ?_)
      (fun hne => ?_)
    · rw [hslots.other j hji, lookup_insert_ite, if_neg hne]
      exact hold.flags
    · rw [hslots.other j hji, lookup_insert_ite, if_neg hne]
      exact hold.callback

theorem delete_attributed (key : CStr) (flag i : ℕ) (d : CStr) (t1 : HTab) (hi : 0 < i)
    (hin : i ≤ t.size) (hlive : cells t i = .live key d)
    (hcb : runCallback (envHooks b) t i key none .delete flag = some t1)
    (hr : Regular b t (.delete key flag)) (hm' : Models (hdelete t1 i) (m.erase key))
    (hsize : (hdelete t1 i).size = t.size) (j : ℕ) (k d' : CStr) (hj : 0 < j) (hjn : j ≤ t.size)
    (hl : cells (hdelete t1 i) j = .live k d') :
    Attributed b (m.erase key) k ((hdelete t1 i).table j).entry := by
  have hsame := (envHooks_lawful b).runCallback hcb
  obtain ⟨hwire, htidy⟩ := hr (valueOf_live t m hm i key d hi hin hlive)
  rw [valueOf_models t m hm, ← (hc i key d hi hin hlive).callback] at hwire
  obtain ⟨-, htab⟩ := live_not_buried t1 _ i j k d' hm' hl
  obtain ⟨e, hd⟩ := live_before t _ m _ hm hm' hsize j k d' hl
    (by rw [htab]; exact (hsame.2.2 j).1) (by rw [htab]; exact (hsame.2.2 j).2.1)
  rw [htab]
  exact callback_attributed b t t1 m (m.erase key) hm i key none .delete flag hcb hwire
    (lookup_erase_ite m key flagsVar) (lookup_erase_ite m key callbackVar) j k e hj hjn hd
    (htidy k (valueOf_live t m hm j k e hj hjn hd)) (fun _ => (hc j k e hj hjn hd).flags)
    (fun _ => (hc j k e hj hjn hd).callback)

end

/-- A regular operation keeps the attributes consistent. -/
theorem effect_consistent (t t' : HTab) (m m' : EnvMap) (op : Op) (hm : Models t m)
    (hm' : Models t' m') (hsize : t'.size = t.size) (hr : Regular b t op)
    (he : Effect (envHooks b) t m op t' m') (hc : Consistent b t) : Consistent b t' := by
  rw [consistent_iff b t m hm] at hc
  rw [consistent_iff b t' m' hm', hsize]
  cases he with
  | found key => exact hc
  | full key v flag habs hfull => exact hc
  | refused key v flag i d hlive hno => exact hc
  | missing key flag habs => exact hc
  | kept key flag i d hlive hno => exact hc
  | withdrawn key v flag i hi hin habs hfree hno =>
    intro j k d' hj hjn hlive
    obtain ⟨hne, htab⟩ := live_not_buried _ _ i j k d' hm' hlive
    rw [(seeded_slots (envHooks b) key v t i).other j hne] at htab
    obtain ⟨d, hd⟩ := live_before t _ m m hm hm' hsize j k d' hlive (by rw [htab]) (by rw [htab])
    rw [htab]
    exact hc j k d hj hjn hd
  | overwritten key v flag i d t1 hi hin hlive hok hcb =>
    exact overwrite_attributed b t _ m hm hc key v flag i d t1 hi hin hlive hcb hr rfl hm' hsize
  | created key v flag i _ hi hin habs hfree hnew hok hcb =>
    exact create_attributed b t t' m hm hc key v flag i habs hnew hcb hr
  | deleted key flag i d t1 hi hin hlive hok hcb =>
    exact delete_attributed b t m hm hc key flag i d t1 hi hin hlive hcb hr hm' hsize

/-! ## Sequences of operations -/

/-- The table that an action works on: an import may start with a new one. -/
def EnvAction.start (t : HTab) : EnvAction → Option HTab
  | .importEnv env _ flag _ => importTable (some t) env.length flag
  | _ => some t

theorem perform_start (t : HTab) (a : EnvAction) :
    perform b t a = (a.start t).bind fun t0 => a.ops.bind fun ops =>
      (run (envHooks b) ops t0).map Prod.snd := by
  cases a with
  | enter name value flag => exact perform_eq b t (.enter name value flag) trivial
  | delete name flag => exact perform_eq b t (.delete name flag) trivial
  | importEnv env sep flag vars =>
    rw [perform, EnvAction.start, EnvAction.ops]
    cases ht : importTable (some t) env.length flag with
    | none => simp only [himportR, ht, Bool.not_true, Bool.false_eq_true, if_false, Option.bind_some,
        Option.bind_none]
    | some t0 =>
      rw [himportR_run (envHooks b) (some t) env sep flag vars t0 ht, Option.bind_some]
      cases himportOps env sep flag vars with
      | none => rfl
      | some ops =>
        simp only [Option.bind_some]
        cases run (envHooks b) ops t0 <;> rfl

theorem consistent_empty (t : HTab) (hm : Models t ∅) : Consistent b t := by
  rw [consistent_iff b t ∅ hm]
  intro i k d hi hin hl
  have hlook := represents_live _ _ hm.represents i k d hi hin hl
  rw [Finmap.lookup_empty] at hlook
  cases hlook

theorem start_consistent (t t0 : HTab) (m : EnvMap) (a : EnvAction) (hm : Models t m)
    (hc : Consistent b t) (hs : a.start t = some t0) : (∃ m0, Models t0 m0) ∧ Consistent b t0 := by
  cases a with
  | enter name value flag =>
    cases hs
    exact ⟨⟨m, hm⟩, hc⟩
  | delete name flag =>
    cases hs
    exact ⟨⟨m, hm⟩, hc⟩
  | importEnv env sep flag vars =>
    rw [EnvAction.start, importTable] at hs
    by_cases hf : flag &&& hNoclear = 0
    · rw [if_pos hf] at hs
      have hm0 := created_models (min (configEnvMinEntries+env.length/8) configEnvMaxEntries)
        (by unfold configEnvMinEntries configEnvMaxEntries; omega)
        (by unfold configEnvMaxEntries; omega) t0 hs
      exact ⟨⟨∅, hm0⟩, consistent_empty b t0 hm0⟩
    · rw [if_neg hf] at hs
      cases hs
      exact ⟨⟨m, hm⟩, hc⟩

/-- Every operation of every action of a sequence is regular. -/
def RegularRun : List EnvAction → HTab → Prop
  | [], _ => True
  | a::as, t =>
    (∀ t0 ops, a.start t = some t0 → a.ops = some ops → Before b (Regular b) ops t0) ∧
      ∀ t', perform b t a = some t' → RegularRun as t'

/-- The attributes are consistent after every operation and after every action. -/
def ConsistentRun : List EnvAction → HTab → Prop
  | [], _ => True
  | a::as, t =>
    (∀ t0 ops, a.start t = some t0 → a.ops = some ops →
      Stepwise b (fun _ t' => Consistent b t') ops t0 ∧ ∃ t', perform b t a = some t') ∧
      ∀ t', perform b t a = some t' → Consistent b t' ∧ ConsistentRun as t'

theorem action_consistent (t t0 : HTab) (m : EnvMap) (a : EnvAction) (ops : List Op)
    (hm : Models t m) (hc : Consistent b t) (hs : a.start t = some t0) (ho : a.ops = some ops)
    (hr : Before b (Regular b) ops t0) :
    Stepwise b (fun _ t' => Consistent b t') ops t0 ∧
      ∃ t' m', perform b t a = some t' ∧ Models t' m' ∧ Consistent b t' := by
  obtain ⟨⟨m0, hm0⟩, hc0⟩ := start_consistent b t t0 m a hm hc hs
  obtain ⟨hstep, as, t', m', hrun, hm', hc'⟩ :=
    run_invariant b (Regular b) (fun _ t' => Consistent b t') (Consistent b) (regular_avoids b)
      (fun t t' m m' op hm hm' hsize hop hc he =>
        have h := effect_consistent b t t' m m' op hm hm' hsize hop he hc
        ⟨h, h⟩)
      ops t0 m0 hm0 hc0 hr
  refine ⟨hstep, t', m', ?_, hm', hc'⟩
  rw [perform_start, hs, Option.bind_some, ho, Option.bind_some, hrun, Option.map_some]

/-- `baudrate` -/
def baudrate : CStr := [98, 97, 117, 100, 114, 97, 116, 101]

/-- The callbacks of the attribute variables and that of `baudrate`, without static flags. -/
def callbackBoard : Board where
  envFlagsListStatic := []
  envCallbackListStatic := callbackVar ++ 58::callbacksCallback ++ 44::flagsVar ++
    58::flagsCallback ++ 44::baudrate ++ 58::baudrate
  callbacks := [callbacksCallback, flagsCallback, baudrate]
  defaultEnvironment := fun _ => 0
  envSize := 64
  ready := true
  image := fun _ => 0
  before := fun _ => []
  accepts := fun _ _ _ _ _ => true

end UBoot.EnvFlags
