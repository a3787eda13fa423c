import UBoot.HashTableMap

/-!
# What an operation on the environment table can do

The hooks may deny a change, and the callbacks of the attribute variables
change the attributes of entries. `Effect` lists the tables that an operation
can leave, with the map each of them stands for.
-/

set_option autoImplicit false

namespace UBoot.HashTable
open UBoot.ProbeCycle UBoot.OpenAddressing

/-- Memory is available; callbacks touch attributes only. -/
structure Lawful (h : Hooks) : Prop where
  malloc : ∀ p, h.malloc p = true
  callback : ∀ c t key v op flag t', h.callback c t key v op flag = some t' → SameContents t t'

theorem SameContents.trans {t t' t'' : HTab} (h : SameContents t t') (h' : SameContents t' t'') :
    SameContents t t'' := by
  refine ⟨h'.1.trans h.1, h'.2.1.trans h.2.1, fun i => ?_⟩
  obtain ⟨hu, hk, hd⟩ := h.2.2 i
  obtain ⟨hu', hk', hd'⟩ := h'.2.2 i
  exact ⟨hu'.trans hu, hk'.trans hk, hd'.trans hd⟩

theorem Lawful.runCallback {h : Hooks} (hl : Lawful h) {t t' : HTab} {idx : ℕ} {key : CStr}
    {v : Option CStr} {op : EnvOp} {flag : ℕ} (hr : runCallback h t idx key v op flag = some t') :
    SameContents t t' := by
  unfold HashTable.runCallback at hr
  cases hc : (t.table idx).entry.callback with
  | none =>
    rw [hc] at hr
    cases hr
    exact SameContents.refl t
  | some c =>
    rw [hc] at hr
    exact hl.callback c t key v op flag t' hr

theorem same_wf {t t' : HTab} (ht : Wf t) (hs : SameContents t t') : Wf t' :=
  wf_of_cells t t' ht hs.1
    (fun i => slotOk_congr _ _ _ (hs.2.2 i).1 (hs.2.2 i).2.1 (hs.2.2 i).2.2 (ht.slots i))
    (by rw [same_cells t t' hs]; exact ht.sound)

theorem models_of_same {t t' : HTab} {m : EnvMap} (hm : Models t m) (hs : SameContents t t') :
    Models t' m := by
  have hwf := same_wf hm.wf hs
  have hc := same_cells t t' hs
  obtain ⟨hsize, hfilled, -⟩ := hs
  refine ⟨hwf, ?_, ?_, ?_⟩
  · rw [hsize, hc]
    exact hm.represents
  · rw [hfilled, hm.filled]
  · rw [hfilled, hsize]
    exact hm.capacity

/-! ## A new entry -/

/-- A new entry in its slot, before anything is known of it. -/
def placed (key v : CStr) (t : HTab) (i : ℕ) : HTab :=
  let t1 := t.setSlot i ⟨homeIndex t.size key,
    { (t.table i).entry with key := some key, data := some v }⟩
  { t1 with filled := wrap32 (t1.filled+1) }

/-- The new entry with its callback. -/
def bound (h : Hooks) (key v : CStr) (t : HTab) (i : ℕ) : HTab :=
  (placed key v t i).setEntry i
    { ((placed key v t i).table i).entry with callback := h.envCallbackInit (placed key v t i) key }

/-- The new entry with its attributes, before it is checked. -/
def seeded (h : Hooks) (key v : CStr) (t : HTab) (i : ℕ) : HTab :=
  (bound h key v t i).setEntry i
    { ((bound h key v t i).table i).entry with flags := h.envFlagsInit (bound h key v t i) key }

theorem createEntry_eq (h : Hooks) (hl : Lawful h) (key v : CStr) (t : HTab) (flag i : ℕ) :
    createEntry h key (some v) t flag (homeIndex t.size key) i =
      if denied h (seeded h key v t i) i (some v) .create flag then
        (hdelete (seeded h key v t i) i).fail .eperm
      else match runCallback h (seeded h key v t i) i key (some v) .create flag with
        | none => (hdelete (seeded h key v t i) i).fail .einval
        | some t5 => ⟨1, some i, t5, none⟩ := by
  unfold createEntry
  simp only [strdup, hl.malloc, if_true, reduceCtorEq, or_self, if_false]
  rfl

/-- The slots of the table with the new entry. -/
structure Seeded (h : Hooks) (key v : CStr) (t : HTab) (i : ℕ) (t4 : HTab) : Prop where
  size : t4.size = t.size
  filled : t4.filled = wrap32 (t.filled+1)
  other : ∀ j, j ≠ i → t4.table j = t.table j
  slot : t4.table i = ⟨homeIndex t.size key, some key, some v,
    h.envCallbackInit (placed key v t i) key, h.envFlagsInit (bound h key v t i) key⟩

theorem seeded_slots (h : Hooks) (key v : CStr) (t : HTab) (i : ℕ) :
    Seeded h key v t i (seeded h key v t i) := by
  refine ⟨rfl, rfl, fun j hj => ?_, ?_⟩
  · simp [seeded, bound, placed, HTab.setEntry, HTab.setSlot, hj]
  · simp [seeded, bound, placed, HTab.setEntry, HTab.setSlot]

theorem seeded_written (h : Hooks) (key v : CStr) (t : HTab) (ht : Wf t) (i : ℕ) :
    Written t (seeded h key v t i) i (.live key v) (wrap32 (t.filled+1)) := by
  obtain ⟨hs, hf, ho, hi⟩ := seeded_slots h key v t i
  have hcell := cell_live t.size key v ((seeded h key v t i).table i) (by rw [hi]) (by rw [hi])
    (by rw [hi])
  refine ⟨hs, hf, fun j => ?_, funext fun j => ?_⟩
  · by_cases hj : j = i
    · rw [hj]
      exact hcell.1
    · rw [ho j hj]
      exact ht.slots j
  · by_cases hj : j = i
    · rw [hj, put_same, cells, hcell.2]
    · rw [put_other _ _ _ _ hj, cells, cells, ho j hj]

/-! ## The effects -/

inductive Effect (h : Hooks) (t : HTab) (m : EnvMap) : Op → HTab → EnvMap → Prop
  | found (key : CStr) : Effect h t m (.find key) t m
  | full (key v : CStr) (flag : ℕ) (habs : m.lookup key = none) (hfull : t.filled = t.size) :
      Effect h t m (.enter key v flag) t m
  | refused (key v : CStr) (flag i : ℕ) (d : CStr) (hlive : cells t i = .live key d)
      (hno : denied h t i (some v) .overwrite flag = true ∨
        runCallback h t i key (some v) .overwrite flag = none) :
      Effect h t m (.enter key v flag) t m
  | overwritten (key v : CStr) (flag i : ℕ) (d : CStr) (t1 : HTab) (hi : 0 < i)
      (hin : i ≤ t.size) (hlive : cells t i = .live key d)
      (hok : denied h t i (some v) .overwrite flag = false)
      (hcb : runCallback h t i key (some v) .overwrite flag = some t1) :
      Effect h t m (.enter key v flag)
        (t1.setEntry i { (t1.table i).entry with data := some v }) (m.insert key v)
  | withdrawn (key v : CStr) (flag i : ℕ) (hi : 0 < i) (hin : i ≤ t.size)
      (habs : m.lookup key = none) (hfree : ∀ k d, cells t i ≠ .live k d)
      (hno : denied h (seeded h key v t i) i (some v) .create flag = true ∨
        runCallback h (seeded h key v t i) i key (some v) .create flag = none) :
      Effect h t m (.enter key v flag) (hdelete (seeded h key v t i) i) m
  | created (key v : CStr) (flag i : ℕ) (t5 : HTab) (hi : 0 < i) (hin : i ≤ t.size)
      (habs : m.lookup key = none) (hfree : ∀ k d, cells t i ≠ .live k d)
      (hnew : Models (seeded h key v t i) (m.insert key v))
      (hok : denied h (seeded h key v t i) i (some v) .create flag = false)
      (hcb : runCallback h (seeded h key v t i) i key (some v) .create flag = some t5) :
      Effect h t m (.enter key v flag) t5 (m.insert key v)
  | missing (key : CStr) (flag : ℕ) (habs : m.lookup key = none) :
      Effect h t m (.delete key flag) t m
  | kept (key : CStr) (flag i : ℕ) (d : CStr) (hlive : cells t i = .live key d)
      (hno : denied h t i none .delete flag = true ∨
        runCallback h t i key none .delete flag = none) :
      Effect h t m (.delete key flag) t m
  | deleted (key : CStr) (flag i : ℕ) (d : CStr) (t1 : HTab) (hi : 0 < i) (hin : i ≤ t.size)
      (hlive : cells t i = .live key d) (hok : denied h t i none .delete flag = false)
      (hcb : runCallback h t i key none .delete flag = some t1) :
      Effect h t m (.delete key flag) (hdelete t1 i) (m.erase key)

theorem erase_insert_absent (m : EnvMap) (key v : CStr) (h : m.lookup key = none) :
    (m.insert key v).erase key = m := by
  apply Finmap.ext_lookup
  intro k
  by_cases hk : k = key
  · rw [hk, Finmap.lookup_erase, h]
  · rw [Finmap.lookup_erase_ne hk, Finmap.lookup_insert_of_ne m hk]

theorem overwritten_written (t t1 : HTab) (ht : Wf t) (hs : SameContents t t1) (key d v : CStr)
    (i : ℕ) (hlive : cells t i = .live key d) :
    Written t (t1.setEntry i { (t1.table i).entry with data := some v }) i (.live key v)
      t.filled := by
  obtain ⟨hsz, hfl, hent⟩ := hs
  obtain ⟨hu, hk, -⟩ := (cell_live_iff t.size _ (ht.slots i) key d).mp hlive
  have hcell := cell_live t.size key v
    { t1.table i with entry := { (t1.table i).entry with data := some v } }
    ((hent i).1.trans hu) ((hent i).2.1.trans hk) rfl
  refine ⟨hsz, hfl, ?_, ?_⟩
  · refine slots_setSlot t.size t1 i _ (fun j => ?_) hcell.1
    exact slotOk_congr _ _ _ (hent j).1 (hent j).2.1 (hent j).2.2 (ht.slots j)
  · rw [HTab.setEntry, cells_setSlot, hcell.2, same_cells t t1 ⟨hsz, hfl, hent⟩]

/-- An overwrite of a live entry. -/
theorem overwrite_effect (h : Hooks) (hl : Lawful h) (key d v : CStr) (t : HTab) (m : EnvMap)
    (hm : Models t m) (flag i : ℕ) (hi : 0 < i) (hin : i ≤ t.size)
    (hlive : cells t i = .live key d) :
    ∃ r m', compareAndOverwriteEntry h key (some v) .enter t flag (homeIndex t.size key) i = some r ∧
      Effect h t m (.enter key v flag) r.htab m' ∧ Models r.htab m' ∧ r.htab.size = t.size := by
  have hmatch := (matches_iff t hm.wf key i).mpr ⟨d, hlive⟩
  obtain ⟨hu, hk, -⟩ := (cell_live_iff t.size _ (hm.wf.slots i) key d).mp hlive
  unfold Matches at hmatch
  unfold compareAndOverwriteEntry
  rw [if_pos hmatch, if_pos ⟨rfl, by simp⟩]
  cases hden : denied h t i (some v) .overwrite flag with
  | true => exact ⟨_, m, rfl, .refused key v flag i d hlive (.inl hden), hm, rfl⟩
  | false =>
    cases hcb : runCallback h t i key (some v) .overwrite flag with
    | none => exact ⟨_, m, rfl, .refused key v flag i d hlive (.inr hcb), hm, rfl⟩
    | some t1 =>
      have hsame := hl.runCallback hcb
      have hw := overwritten_written t t1 hm.wf hsame key d v i hlive
      refine ⟨⟨i, some i, t1.setEntry i { (t1.table i).entry with data := some v }, none⟩,
        m.insert key v, ?_,
        .overwritten key v flag i d t1 hi hin hlive hden hcb,
        overwrite_models t _ m hm i key d v hi hin hlive hw, hw.size⟩
      simp only [strdup, hl.malloc, if_true, Bool.false_eq_true, if_false, reduceCtorEq]

/-- A new entry in a slot that the search may use. -/
theorem create_effect (h : Hooks) (hl : Lawful h) (key v : CStr) (t : HTab) (m : EnvMap)
    (hm : Models t m) (flag j : ℕ) (hj : j < t.size)
    (hcell : cells t (path t.size key j) = .free ∨ cells t (path t.size key j) = .tomb)
    (hpass : Passes (order t.size hm.wf.size) (cells t) key j)
    (habs : Absent t.size (cells t) key) (hroom : t.filled ≠ t.size) :
    ∃ m', Effect h t m (.enter key v flag) (createEntry h key (some v) t flag
        (homeIndex t.size key) (path t.size key j)).htab m' ∧
      Models (createEntry h key (some v) t flag (homeIndex t.size key)
        (path t.size key j)).htab m' ∧
      (createEntry h key (some v) t flag (homeIndex t.size key) (path t.size key j)).htab.size =
        t.size := by
  have hi := path_pos t.size hm.wf.size key j
  have hin := path_le t.size hm.wf.size key j
  have hlook := represents_absent _ _ hm.represents key habs
  have hfree : ∀ k d, cells t (path t.size key j) ≠ .live k d := by
    rintro k d hk
    rcases hcell with hc | hc <;> rw [hc] at hk <;> cases hk
  have hw := seeded_written h key v t hm.wf (path t.size key j)
  have hnew := create_models t _ m hm key v j hj hcell hpass habs hroom hw
  have hgone : Models (hdelete (seeded h key v t (path t.size key j)) (path t.size key j)) m := by
    have hlive : cells (seeded h key v t (path t.size key j)) (path t.size key j) =
        .live key v := by rw [hw.cells, put_same]
    have hdel := hdelete_written _ hnew.wf _ (SameContents.refl _) (path t.size key j)
    have hback := erase_models _ _ _ hnew _ key v hi (hin.trans_eq hw.size.symm) hlive hdel
    rwa [erase_insert_absent m key v hlook] at hback
  rw [createEntry_eq h hl]
  cases hden : denied h (seeded h key v t (path t.size key j)) (path t.size key j) (some v)
      .create flag with
  | true => exact ⟨m, .withdrawn key v flag _ hi hin hlook hfree (.inl hden), hgone, hw.size⟩
  | false =>
    cases hcb : runCallback h (seeded h key v t (path t.size key j)) (path t.size key j) key
        (some v) .create flag with
    | none => exact ⟨m, .withdrawn key v flag _ hi hin hlook hfree (.inr hcb), hgone, hw.size⟩
    | some t5 =>
      have hsame := hl.runCallback hcb
      exact ⟨m.insert key v, .created key v flag _ t5 hi hin hlook hfree hnew hden hcb,
        models_of_same hnew hsame, hsame.1.trans hw.size⟩

theorem enter_effect (h : Hooks) (hl : Lawful h) (key v : CStr) (flag : ℕ) (t : HTab) (m : EnvMap)
    (hm : Models t m) (hav : ¬Clobbers t key) :
    ∃ r m', hsearchR h key (some v) .enter t flag = some r ∧
      Effect h t m (.enter key v flag) r.htab m' ∧ Models r.htab m' ∧ r.htab.size = t.size := by
  rcases search_cases h key (some v) .enter t hm.wf flag with
    ⟨i, d, hi, hin, hlive, hp⟩ | ⟨habs, idx, hp, hstop⟩
  · obtain ⟨r, m', hr, he⟩ := overwrite_effect h hl key d v t m hm flag i hi hin hlive
    rw [hr, Option.map_some] at hp
    exact ⟨r, m', by simp only [hsearchR, hp], he⟩
  · have hlook := represents_absent _ _ hm.represents key habs
    by_cases hfull : t.filled = t.size
    · exact ⟨t.fail .enomem, m, by simp only [hsearchR, hp, if_pos hfull],
        .full key v flag hlook hfull, hm, rfl⟩
    · simp only [hsearchR, hp, if_neg hfull]
      have hpos := home_pos t.size key
      have h5 := hm.wf.size.five
      by_cases htomb : (t.table (homeIndex t.size key)).used = -1
      · have hcell : cells t (path t.size key 0) = .tomb := by
          change cell (t.table (homeIndex t.size key)) = _
          simp [cell, htomb]
        obtain ⟨m', he⟩ := create_effect h hl key v t m hm flag 0 (by omega) (.inr hcell)
          (fun l hl => absurd hl (Nat.not_lt_zero l)) habs hfull
        rw [show firstDeleted t (homeIndex t.size key) = homeIndex t.size key from if_pos htomb,
          if_pos (by omega)]
        exact ⟨_, m', rfl, he⟩
      · rw [show firstDeleted t (homeIndex t.size key) = 0 from if_neg htomb, if_neg (by simp)]
        rcases hstop with ⟨j, hj, rfl, hfree, hpass⟩ | ⟨rfl, hall⟩
        · obtain ⟨m', he⟩ := create_effect h hl key v t m hm flag j hj (.inl hfree) hpass habs hfull
          exact ⟨_, m', rfl, he⟩
        · exact absurd (clobbers_of_cycle t hm.wf key habs hfull htomb hall) hav

theorem delete_effect (h : Hooks) (hl : Lawful h) (key : CStr) (flag : ℕ) (t : HTab) (m : EnvMap)
    (hm : Models t m) :
    ∃ r m', hdeleteR h key t flag = some r ∧ Effect h t m (.delete key flag) r.htab m' ∧
      Models r.htab m' ∧ r.htab.size = t.size := by
  rcases find_result h key none t m hm 0 with ⟨i, d, hi, hin, hlive, hlook, hr⟩ | ⟨hlook, hr⟩
  · have hne : i ≠ 0 := by omega
    simp only [hdeleteR, hr, if_neg hne]
    cases hden : denied h t i none .delete flag with
    | true => exact ⟨_, m, rfl, .kept key flag i d hlive (.inl hden), hm, rfl⟩
    | false =>
      cases hcb : runCallback h t i key none .delete flag with
      | none => exact ⟨_, m, rfl, .kept key flag i d hlive (.inr hcb), hm, rfl⟩
      | some t1 =>
        have hw := hdelete_written t hm.wf t1 (hl.runCallback hcb) i
        exact ⟨_, m.erase key, rfl, .deleted key flag i d t1 hi hin hlive hden hcb,
          erase_models t _ m hm i key d hi hin hlive hw, hw.size⟩
  · simp only [hdeleteR, hr]
    exact ⟨_, m, rfl, .missing key flag hlook, hm, rfl⟩

/-- Every operation, from any table that models a map. -/
theorem step_effect (h : Hooks) (hl : Lawful h) (op : Op) (t : HTab) (m : EnvMap)
    (hm : Models t m) (hav : Avoids t op) :
    ∃ a t' m', apply h t op = some (a, t') ∧ Effect h t m op t' m' ∧ Models t' m' ∧
      t'.size = t.size := by
  cases op with
  | find key => exact ⟨_, t, m, find_models h key t m hm, .found key, hm, rfl⟩
  | enter key v flag =>
    obtain ⟨r, m', hr, he⟩ := enter_effect h hl key v flag t m hm hav
    exact ⟨_, r.htab, m', by rw [apply, hr, Option.map_some], he⟩
  | delete key flag =>
    obtain ⟨r, m', hr, he⟩ := delete_effect h hl key flag t m hm
    exact ⟨_, r.htab, m', by rw [apply, hr, Option.map_some], he⟩

end UBoot.HashTable
