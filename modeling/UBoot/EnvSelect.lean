import UBoot.EnvRecords
import UBoot.HashTableEffect

/-!
# Selective import

With a list of names `himport_r` makes one change for each of them and none for any other name.
A change that is refused leaves its name as it was, and so does the rest of the import.
-/

set_option autoImplicit false

namespace UBoot.HashTable

/-- What an operation is to make of a key. -/
def Op.change : Op → Option (CStr × Option CStr)
  | .find _ => none
  | .enter key value _ => some (key, some value)
  | .delete key _ => some (key, none)

/-- The ways in which a change is refused. -/
inductive Refused (h : Hooks) (t : HTab) (m : EnvMap) : Op → Prop
  | full (key v : CStr) (flag : ℕ) (habs : m.lookup key = none) (hfull : t.filled = t.size) :
      Refused h t m (.enter key v flag)
  | overwrite (key v : CStr) (flag i : ℕ) (d : CStr) (hlive : cells t i = .live key d)
      (hno : denied h t i (some v) .overwrite flag = true ∨
        runCallback h t i key (some v) .overwrite flag = none) :
      Refused h t m (.enter key v flag)
  | create (key v : CStr) (flag i : ℕ) (habs : m.lookup key = none)
      (hno : denied h (seeded h key v t i) i (some v) .create flag = true ∨
        runCallback h (seeded h key v t i) i key (some v) .create flag = none) :
      Refused h t m (.enter key v flag)
  | delete (key : CStr) (flag i : ℕ) (d : CStr) (hlive : cells t i = .live key d)
      (hno : denied h t i none .delete flag = true ∨
        runCallback h t i key none .delete flag = none) :
      Refused h t m (.delete key flag)

variable (h : Hooks)

theorem effect_other (t t' : HTab) (m m' : EnvMap) (op : Op) (he : Effect h t m op t' m')
    (k : CStr) (hk : ∀ w, op.change ≠ some (k, w)) : m'.lookup k = m.lookup k := by
  cases he with
  | found key => rfl
  | full key v flag habs hfull => rfl
  | refused key v flag i d hlive hno => rfl
  | overwritten key v flag i d t1 hi hin hlive hok hcb =>
    exact Finmap.lookup_insert_of_ne m fun heq => hk (some v) (by rw [heq]; rfl)
  | withdrawn key v flag i hi hin habs hfree hno => rfl
  | created key v flag i t5 hi hin habs hfree hnew hok hcb =>
    exact Finmap.lookup_insert_of_ne m fun heq => hk (some v) (by rw [heq]; rfl)
  | missing key flag habs => rfl
  | kept key flag i d hlive hno => rfl
  | deleted key flag i d t1 hi hin hlive hok hcb =>
    exact Finmap.lookup_erase_ne fun heq => hk none (by rw [heq]; rfl)

theorem effect_change (t t' : HTab) (m m' : EnvMap) (op : Op) (he : Effect h t m op t' m')
    (k : CStr) (w : Option CStr) (hk : op.change = some (k, w)) :
    m'.lookup k = w ∨ (m'.lookup k = m.lookup k ∧ Refused h t m op) := by
  cases he with
  | found key => exact absurd hk (by simp [Op.change])
  | full key v flag habs hfull => exact .inr ⟨rfl, .full key v flag habs hfull⟩
  | refused key v flag i d hlive hno => exact .inr ⟨rfl, .overwrite key v flag i d hlive hno⟩
  | overwritten key v flag i d t1 hi hin hlive hok hcb =>
    obtain ⟨rfl, rfl⟩ := Prod.mk.inj (Option.some.inj hk)
    exact .inl (Finmap.lookup_insert m)
  | withdrawn key v flag i hi hin habs hfree hno => exact .inr ⟨rfl, .create key v flag i habs hno⟩
  | created key v flag i t5 hi hin habs hfree hnew hok hcb =>
    obtain ⟨rfl, rfl⟩ := Prod.mk.inj (Option.some.inj hk)
    exact .inl (Finmap.lookup_insert m)
  | missing key flag habs =>
    obtain ⟨rfl, rfl⟩ := Prod.mk.inj (Option.some.inj hk)
    exact .inl habs
  | kept key flag i d hlive hno => exact .inr ⟨rfl, .delete key flag i d hlive hno⟩
  | deleted key flag i d t1 hi hin hlive hok hcb =>
    obtain ⟨rfl, rfl⟩ := Prod.mk.inj (Option.some.inj hk)
    exact .inl (Finmap.lookup_erase key m)

/-- An operation of a run is refused where the run comes to it. -/
def RefusedIn (ops : List Op) (t : HTab) (op : Op) : Prop :=
  ∃ pre post as t1 m1, ops = pre ++ op::post ∧ run h pre t = some (as, t1) ∧ Models t1 m1 ∧
    Refused h t1 m1 op

theorem run_cons {op : Op} {ops : List Op} {t t1 t' : HTab} {a : Answer} {as : List Answer}
    (ho : apply h t op = some (a, t1)) (hrun : run h ops t1 = some (as, t')) :
    run h (op::ops) t = some (a::as, t') := by
  rw [run, ho, Option.bind_some]
  dsimp only
  rw [hrun]
  rfl

theorem RefusedIn.cons {h : Hooks} {op : Op} {ops : List Op} {t t1 : HTab} {a : Answer}
    (ho : apply h t op = some (a, t1)) {op' : Op} (hr : RefusedIn h ops t1 op') :
    RefusedIn h (op::ops) t op' := by
  obtain ⟨pre, post, as, t2, m2, heq, hrun, hm, href⟩ := hr
  exact ⟨op::pre, post, a::as, t2, m2, by rw [heq]; rfl, run_cons h ho hrun, hm, href⟩

/-- A run leaves each key that all its changes agree on with their value, unless they are
refused, and every other key as it was. -/
theorem run_changes (hl : Lawful h) (ops : List Op) (t : HTab) (m : EnvMap) (hm : Models t m)
    (hclear : Clear h ops t) :
    ∃ as t' m', run h ops t = some (as, t') ∧ Models t' m' ∧
      ∀ k w, (∀ op ∈ ops, ∀ w', op.change = some (k, w') → w' = w) → m'.lookup k = w ∨
        (m'.lookup k = m.lookup k ∧ ∀ op ∈ ops, op.change = some (k, w) → RefusedIn h ops t op) := by
  induction ops generalizing t m with
  | nil => exact ⟨[], t, m, rfl, hm, fun k w _ => .inr ⟨rfl, by simp⟩⟩
  | cons op ops ih =>
    obtain ⟨a, t1, m1, hop, heff, hm1, -⟩ := step_effect h hl op t m hm hclear.1
    obtain ⟨as, t', m', hrun, hm', hrest⟩ := ih t1 m1 hm1 (hclear.2 a t1 hop)
    refine ⟨a::as, t', m', run_cons h hop hrun, hm', fun k w hw => ?_⟩
    have hlater := hrest k w fun op' hop' => hw op' (List.mem_cons_of_mem _ hop')
    by_cases hk : op.change = some (k, w)
    · have hfirst := effect_change h t t1 m m1 op heff k w hk
      rcases hfirst with hfirst | ⟨hfirst, href⟩
      · rcases hlater with hlater | ⟨hlater, -⟩
        · exact .inl hlater
        · exact .inl (hlater.trans hfirst)
      · rcases hlater with hlater | ⟨hlater, hall⟩
        · exact .inl hlater
        · refine .inr ⟨hlater.trans hfirst, fun op' hop' hk' => ?_⟩
          rcases List.mem_cons.mp hop' with rfl | hop'
          · exact ⟨[], ops, [], t, m, rfl, rfl, hm, href⟩
          · exact (hall op' hop' hk').cons hop
    · have hother : ∀ w', op.change ≠ some (k, w') := by
        intro w' hw'
        rw [hw op List.mem_cons_self w' hw'] at hw'
        exact hk hw'
      have hfirst := effect_other h t t1 m m1 op heff k hother
      rcases hlater with hlater | ⟨hlater, hall⟩
      · exact .inl hlater
      · refine .inr ⟨hlater.trans hfirst, fun op' hop' hk' => ?_⟩
        rcases List.mem_cons.mp hop' with rfl | hop'
        · exact absurd hk' hk
        · exact (hall op' hop' hk').cons hop

end UBoot.HashTable

namespace UBoot.EnvText
open UBoot.HashTable

/-- The name that an item is about. -/
def Item.name : Item → Option CStr
  | .comment => none
  | .delete name => some name
  | .set name _ => some name

/-- The value that an item gives to its name. -/
def Item.value : Item → Option CStr
  | .comment => none
  | .delete _ => none
  | .set _ value => some value

/-- The value that a text defines for a name with its last occurrence. -/
def definedBy (items : List Item) (name : CStr) : Option CStr :=
  (items.reverse.find? fun item => item.name = some name).bind Item.value

/-! ## The changes of a list of names -/

theorem some_mem_struck (name : CStr) (vars : List (Option CStr)) (k : CStr) :
    some k ∈ vars.map (fun v => if v = some name then none else v) ↔ some k ∈ vars ∧ name ≠ k := by
  rw [List.mem_map]
  constructor
  · rintro ⟨v, hv, heq⟩
    by_cases hname : v = some name
    · rw [if_pos hname] at heq
      cases heq
    · rw [if_neg hname] at heq
      exact ⟨heq ▸ hv, fun hk => hname (by rw [heq, hk])⟩
  · rintro ⟨hk, hne⟩
    refine ⟨some k, hk, if_neg ?_⟩
    intro heq
    exact hne (Option.some.inj heq).symm

/-- The first item of a listed name makes its change and strikes the name. -/
theorem itemOps_named (flag : ℕ) (vars : List (Option CStr)) (hne : vars ≠ []) (item : Item)
    (name : CStr) (hname : item.name = some name) :
    ∃ op : Op, op.change = some (name, item.value) ∧
      itemOps flag vars item = (if some name ∈ vars then [op] else [],
        vars.map fun v => if v = some name then none else v) := by
  cases item with
  | comment => cases hname
  | delete name' =>
    cases hname
    refine ⟨.delete name flag, rfl, ?_⟩
    simp [itemOps, dropVarFromSet, hne]
  | set name' value =>
    cases hname
    refine ⟨.enter name value flag, rfl, ?_⟩
    simp [itemOps, dropVarFromSet, hne]

theorem itemOps_unnamed (flag : ℕ) (vars : List (Option CStr)) (item : Item)
    (hname : item.name = none) : itemOps flag vars item = ([], vars) := by
  cases item with
  | comment => rfl
  | delete name => cases hname
  | set name value => cases hname

theorem itemOps_left (flag : ℕ) (vars : List (Option CStr)) (hne : vars ≠ []) (item : Item) :
    (itemOps flag vars item).2 ≠ [] ∧
      ∀ k, some k ∈ (itemOps flag vars item).2 ↔ some k ∈ vars ∧ item.name ≠ some k := by
  cases hname : item.name with
  | none =>
    rw [itemOps_unnamed flag vars item hname]
    exact ⟨hne, fun k => by simp⟩
  | some name =>
    obtain ⟨op, -, heq⟩ := itemOps_named flag vars hne item name hname
    rw [heq]
    refine ⟨by simpa using hne, fun k => ?_⟩
    rw [some_mem_struck]
    simp

theorem itemOps_made (flag : ℕ) (vars : List (Option CStr)) (hne : vars ≠ []) (item : Item)
    (k : CStr) (w : Option CStr) :
    (∃ op ∈ (itemOps flag vars item).1, op.change = some (k, w)) ↔
      item.name = some k ∧ item.value = w ∧ some k ∈ vars := by
  cases hname : item.name with
  | none => simp [itemOps_unnamed flag vars item hname]
  | some name =>
    obtain ⟨op, hop, heq⟩ := itemOps_named flag vars hne item name hname
    rw [heq]
    by_cases hmem : some name ∈ vars
    · rw [if_pos hmem]
      constructor
      · rintro ⟨op', hop', hk⟩
        rw [List.mem_singleton.mp hop', hop] at hk
        obtain ⟨rfl, rfl⟩ := Prod.mk.inj (Option.some.inj hk)
        exact ⟨rfl, rfl, hmem⟩
      · rintro ⟨hk, hw, -⟩
        exact ⟨op, List.mem_singleton_self op, by rw [hop, hw, Option.some.inj hk]⟩
    · rw [if_neg hmem]
      constructor
      · rintro ⟨op', hop', -⟩
        exact absurd hop' List.not_mem_nil
      · rintro ⟨hk, -, hk'⟩
        exact absurd (hk ▸ hk') hmem

/-- The changes of a whole text are those of its listed names, none of which is left then. -/
theorem itemsOps_made (flag : ℕ) (vars : List (Option CStr)) (hne : vars ≠ [])
    (items : List Item) :
    (∀ op ∈ (itemsOps flag vars items).1, ∀ k w, op.change = some (k, w) → some k ∈ vars ∧
      ∃ item ∈ items, item.name = some k ∧ item.value = w) ∧
    (∀ k, some k ∈ (itemsOps flag vars items).2 ↔
      some k ∈ vars ∧ ∀ item ∈ items, item.name ≠ some k) ∧
    ∀ k, some k ∈ vars → (∃ item ∈ items, item.name = some k) →
      ∃ op ∈ (itemsOps flag vars items).1, ∃ w, op.change = some (k, w) := by
  induction items generalizing vars with
  | nil => simp [itemsOps]
  | cons item items ih =>
    obtain ⟨hne', hleft⟩ := itemOps_left flag vars hne item
    obtain ⟨hmade, hrest, hall⟩ := ih (itemOps flag vars item).2 hne'
    refine ⟨fun op hop k w hk => ?_, fun k => ?_, fun k hk hex => ?_⟩
    · rw [itemsOps, List.mem_append] at hop
      rcases hop with hop | hop
      · obtain ⟨hname, hvalue, hmem⟩ := (itemOps_made flag vars hne item k w).mp ⟨op, hop, hk⟩
        exact ⟨hmem, item, List.mem_cons_self, hname, hvalue⟩
      · obtain ⟨hmem, i, hi, hi'⟩ := hmade op hop k w hk
        exact ⟨((hleft k).mp hmem).1, i, List.mem_cons_of_mem _ hi, hi'⟩
    · rw [itemsOps, hrest, hleft, List.forall_mem_cons, and_assoc]
    · rw [itemsOps]
      by_cases hname : item.name = some k
      · obtain ⟨op, hop, hk'⟩ := (itemOps_made flag vars hne item k item.value).mpr
          ⟨hname, rfl, hk⟩
        exact ⟨op, List.mem_append_left _ hop, item.value, hk'⟩
      · obtain ⟨i, hi, hi'⟩ := hex
        have hi'' : i ∈ items := by
          rcases List.mem_cons.mp hi with rfl | hi
          · exact absurd hi' hname
          · exact hi
        obtain ⟨op, hop, hk'⟩ := hall k ((hleft k).mpr ⟨hk, hname⟩) ⟨i, hi'', hi'⟩
        exact ⟨op, List.mem_append_right _ hop, hk'⟩

theorem mem_deleteOps (flag : ℕ) (vars : List (Option CStr)) (op : Op) :
    op ∈ deleteOps flag vars ↔ ∃ k, some k ∈ vars ∧ op = .delete k flag := by
  rw [deleteOps, List.mem_filterMap]
  constructor
  · rintro ⟨v, hv, heq⟩
    obtain ⟨k, rfl, rfl⟩ := Option.map_eq_some_iff.mp heq
    exact ⟨k, hv, rfl⟩
  · rintro ⟨k, hk, rfl⟩
    exact ⟨some k, hk, rfl⟩

theorem definedBy_none (items : List Item) (k : CStr)
    (h : ∀ item ∈ items, item.name ≠ some k) : definedBy items k = none := by
  have hnone : items.reverse.find? (fun item => item.name = some k) = none := by
    rw [List.find?_eq_none]
    intro item hitem
    simpa using h item (List.mem_reverse.mp hitem)
  rw [definedBy, hnone]
  rfl

/-- All occurrences of a name in a text give it the same value. -/
def Agreed (items : List Item) (k : CStr) : Prop :=
  ∀ item ∈ items, item.name = some k → item.value = definedBy items k

/-- What a selective import is to leave of the map `m`. -/
structure Selected (h : Hooks) (t : HTab) (m : EnvMap) (flag : ℕ) (names : List CStr)
    (items : List Item) (m' : EnvMap) : Prop where
  unlisted : ∀ k ∉ names, m'.lookup k = m.lookup k
  listed : ∀ k ∈ names, Agreed items k → m'.lookup k = definedBy items k ∨
    (m'.lookup k = m.lookup k ∧ ∃ op ∈ recordOps flag names items,
      op.change = some (k, definedBy items k) ∧ RefusedIn h (recordOps flag names items) t op)

theorem recordOps_made (flag : ℕ) (names : List CStr) (hne : names ≠ []) (items : List Item)
    (op : Op) (hop : op ∈ recordOps flag names items) (k : CStr) (w : Option CStr)
    (hk : op.change = some (k, w)) :
    k ∈ names ∧ (Agreed items k → w = definedBy items k) := by
  have hvars : names.map some ≠ [] := by simpa using hne
  obtain ⟨hmade, hleft, -⟩ := itemsOps_made flag (names.map some) hvars items
  rw [recordOps, List.mem_append] at hop
  rcases hop with hop | hop
  · obtain ⟨hmem, item, hitem, hname, hvalue⟩ := hmade op hop k w hk
    exact ⟨by simpa using hmem, fun hagree => hvalue.symm.trans (hagree item hitem hname)⟩
  · obtain ⟨k', hk', rfl⟩ := (mem_deleteOps flag _ op).mp hop
    obtain ⟨rfl, rfl⟩ := Prod.mk.inj (Option.some.inj hk)
    obtain ⟨hmem, hno⟩ := (hleft k').mp hk'
    exact ⟨by simpa using hmem, fun _ => (definedBy_none items k' hno).symm⟩

theorem recordOps_all (flag : ℕ) (names : List CStr) (items : List Item) (k : CStr)
    (hk : k ∈ names) : ∃ op ∈ recordOps flag names items, ∃ w, op.change = some (k, w) := by
  have hvars : names.map some ≠ [] := by
    rintro hnil
    rw [List.map_eq_nil_iff.mp hnil] at hk
    exact absurd hk List.not_mem_nil
  have hmem : some k ∈ names.map some := List.mem_map_of_mem hk
  obtain ⟨-, hleft, hall⟩ := itemsOps_made flag (names.map some) hvars items
  by_cases hex : ∃ item ∈ items, item.name = some k
  · obtain ⟨op, hop, hw⟩ := hall k hmem hex
    exact ⟨op, List.mem_append_left _ hop, hw⟩
  · push Not at hex
    have hdel := (mem_deleteOps flag _ _).mpr ⟨k, (hleft k).mpr ⟨hmem, hex⟩, rfl⟩
    exact ⟨.delete k flag, List.mem_append_right _ hdel, none, rfl⟩

theorem importTable_noclear (t : HTab) (size flag : ℕ) (hflag : flag &&& hNoclear ≠ 0) :
    importTable (some t) size flag = some t := by
  rw [importTable, if_neg hflag]

/-- A selective import into an existing table changes its listed names and no other. -/
theorem selective_import (h : Hooks) (hl : Lawful h) (t : HTab) (m : EnvMap) (hm : Models t m)
    (env : List UInt8) (sep : UInt8) (flag : ℕ) (hflag : flag &&& hNoclear ≠ 0)
    (names : List CStr) (hne : names ≠ []) (items : List Item) (hitems : Reads sep env items)
    (hclear : Clear h (recordOps flag names items) t) :
    ∃ t' m', himportR h (some t) true env sep flag names = some (1, some t') ∧ Models t' m' ∧
      Selected h t m flag names items m' := by
  obtain ⟨as, t', m', hrun, hm', hchanges⟩ := run_changes h hl _ t m hm hclear
  refine ⟨t', m', ?_, hm', ⟨fun k hk => ?_, fun k hk hagree => ?_⟩⟩
  · have hops : himportOps env sep flag names = some (recordOps flag names items) := by
      rw [himportOps, importOps_reads sep flag env items hitems _ (Nat.lt_succ_self _)]
      rfl
    rw [himportR_run h (some t) env sep flag names t (importTable_noclear t _ flag hflag), hops,
      Option.bind_some, hrun]
    rfl
  · rcases hchanges k (m.lookup k) (fun op hop w hw =>
      absurd (recordOps_made flag names hne items op hop k w hw).1 hk) with heq | ⟨heq, -⟩
    · exact heq
    · exact heq
  · have hall := hchanges k (definedBy items k) fun op hop w hw =>
      (recordOps_made flag names hne items op hop k w hw).2 hagree
    obtain ⟨op, hop, w, hw⟩ := recordOps_all flag names items k hk
    rw [(recordOps_made flag names hne items op hop k w hw).2 hagree] at hw
    rcases hall with heq | ⟨heq, href⟩
    · exact .inl heq
    · exact .inr ⟨heq, op, hop, hw, href op hop hw⟩

theorem permissive_lawful : Lawful permissive := by
  refine ⟨fun _ => rfl, fun c t key v op flag t' h => ?_⟩
  cases h
  exact SameContents.refl t

theorem letter_reads : Reads 0 [97, 61, 49, 0] [.set [97] [49]] := by
  apply Reads.last [] [97, 61, 49, 0] [] (.set [97] [49]) (by simp) _ (.inl rfl)
  apply Record.value [97] 49 [] [49] 0
  · intro c hc
    rw [List.mem_singleton.mp hc]
    decide
  · intro c hc
    rw [← Option.some.inj hc]
    decide
  · decide
  · exact .plain 49 [] [] (by decide) (by decide) (by decide) .nil
  · exact .inl rfl

theorem emptyTable_models : Models (emptyTable 5) ∅ :=
  created_models 2 (by decide) (by decide) _ hcreateR_two

theorem selective_import_letter :
    ∃ t' m', himportR permissive (some (emptyTable 5)) true [97, 61, 49, 0] 0 1 [[97]] =
        some (1, some t') ∧ Models t' m' ∧
      Selected permissive (emptyTable 5) ∅ 1 [[97]] [.set [97] [49]] m' :=
  selective_import permissive permissive_lawful (emptyTable 5) ∅ emptyTable_models
    [97, 61, 49, 0] 0 1 (by decide) [[97]] (by decide) [.set [97] [49]] letter_reads
    ⟨fun hc => absurd hc.2.1 (by decide), fun _ _ _ => trivial⟩

/-- The listed names have the values of their last occurrences and the others their old ones. -/
def Selective (h : Hooks) (t : HTab) (m : EnvMap) (env : List UInt8) (sep : UInt8) (flag : ℕ)
    (names : List CStr) : Prop :=
  ∀ items, Reads sep env items → ∀ t',
    himportR h (some t) true env sep flag names = some (1, some t') →
      ∃ m', Models t' m' ∧
        ∀ k, m'.lookup k = if k ∈ names then definedBy items k else m.lookup k

/-- Every change is denied. -/
def denying : Hooks := { permissive with changeOk := some fun _ _ _ _ _ => true }

/-- The value that a search finds after an import. -/
def foundAfter (h : Hooks) (t : HTab) (env : List UInt8) (sep : UInt8) (flag : ℕ)
    (names : List CStr) (k : CStr) : Option (ℕ × Option Answer) :=
  (himportR h (some t) true env sep flag names).map fun r =>
    (r.1, r.2.bind fun t' => (apply h t' (.find k)).map Prod.fst)

theorem not_selective (h : Hooks) (t : HTab) (m : EnvMap) (env : List UInt8) (sep : UInt8)
    (flag : ℕ) (names : List CStr) (items : List Item) (hitems : Reads sep env items) (k : CStr)
    (v : Option CStr) (hf : foundAfter h t env sep flag names k = some (1, some (.value v)))
    (hv : v ≠ if k ∈ names then definedBy items k else m.lookup k) :
    ¬ Selective h t m env sep flag names := by
  intro hs
  obtain ⟨⟨ret, o⟩, himp, hr⟩ := Option.map_eq_some_iff.mp hf
  obtain ⟨rfl, ho⟩ := Prod.mk.inj hr
  obtain ⟨t', rfl, hfind⟩ := Option.bind_eq_some_iff.mp ho
  obtain ⟨m', hm', hall⟩ := hs items hitems t' himp
  rw [find_models h k t' m' hm'] at hfind
  have hval : m'.lookup k = v := by simpa using hfind
  exact hv (hval.symm.trans (hall k))

/-- A denied change leaves the listed `a` absent, and an empty list lets the unlisted `a` in. -/
theorem refused_or_unlisted :
    ¬ Selective denying (emptyTable 5) ∅ [97, 61, 49, 0] 0 1 [[97]] ∧
      ¬ Selective permissive (emptyTable 5) ∅ [97, 61, 49, 0] 0 1 [] := by
  constructor
  · apply not_selective denying (emptyTable 5) ∅ _ 0 1 _ _ letter_reads [97] none
    · decide +kernel
    · decide
  · apply not_selective permissive (emptyTable 5) ∅ _ 0 1 _ _ letter_reads [97] (some [49])
    · decide +kernel
    · rw [if_neg List.not_mem_nil, Finmap.lookup_empty]
      simp

end UBoot.EnvText
