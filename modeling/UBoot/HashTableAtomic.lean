import UBoot.HashTableEffect

/-!
# What a failed call leaves behind

A call that fails is to leave what later searches find, and the count, as they were. A string
that cannot be copied leaves a slot in use with a null pointer in it. Later searches compare with
the string that lies at the address 0 then.
-/

set_option autoImplicit false

namespace UBoot.HashTable
open UBoot.ProbeCycle UBoot.OpenAddressing

/-- The table as a search sees it when `zero` is the string at the address 0. -/
def atZero (zero : CStr) (t : HTab) : HTab :=
  { t with table := fun i =>
      if 0 < (t.table i).used ∧ (t.table i).entry.key = none then
        { t.table i with entry := { (t.table i).entry with key := some zero } }
      else t.table i }

/-- The value of the entry that a search finds, if it finds one. -/
def seen (zero : CStr) (t : HTab) (key : CStr) : Option (Option CStr) :=
  (hsearchR permissive key none .find (atZero zero t) 0).bind fun r =>
    r.retval.map fun i => (r.htab.table i).entry.data

structure Unchanged (t t' : HTab) : Prop where
  seen : ∀ zero key, seen zero t' key = seen zero t key
  filled : t'.filled = t.filled

def Answer.failed : Answer → Bool
  | .value _ => false
  | .entered ok => !ok
  | .deleted ok => !ok

/-- The call leaves the table unchanged if it reports failure. -/
def Atomic (h : Hooks) (t : HTab) (op : Op) : Prop :=
  ∀ a t', apply h t op = some (a, t') → a.failed = true → Unchanged t t'

/-- The new entry of a key in slot `i` would be accepted. -/
def Accepted (h : Hooks) (t : HTab) (i : ℕ) (key v : CStr) (flag : ℕ) : Prop :=
  denied h (seeded h key v t i) i (some v) .create flag = false ∧
    runCallback h (seeded h key v t i) i key (some v) .create flag ≠ none

/-- The change of the entry in slot `i` would be refused. -/
def Declined (h : Hooks) (t : HTab) (i : ℕ) (key v : CStr) (flag : ℕ) : Prop :=
  denied h t i (some v) .overwrite flag = true ∨
    runCallback h t i key (some v) .overwrite flag = none

/-- Memory is there where it is asked for, and no entry of another key is lost. -/
def Safe (h : Hooks) (t : HTab) : Op → Prop
  | .find _ => True
  | .delete _ _ => True
  | .enter key v flag =>
    (∀ i d, 0 < i → i ≤ t.size → cells t i = .live key d →
      Declined h t i key v flag ∨ h.malloc .overwriteData = true) ∧
    (Absent t.size (cells t) key → t.filled = t.size ∨
      (h.malloc .newKey = true ∧ h.malloc .newData = true ∧
        (Clobbers t key → Accepted h t (homeIndex t.size key) key v flag)))

/-- Callbacks that accept touch attributes only. -/
def AttributesOnly (h : Hooks) : Prop :=
  ∀ c t key v op flag t', h.callback c t key v op flag = some t' → SameContents t t'

/-- The same permissions and callbacks with memory. -/
def supplied (h : Hooks) : Hooks := { h with malloc := fun _ => true }

theorem supplied_lawful (h : Hooks) (hc : AttributesOnly h) : Lawful (supplied h) :=
  ⟨fun _ => rfl, hc⟩

/-! ## Searches -/

theorem atZero_eq (zero : CStr) (t : HTab)
    (ht : ∀ i, 0 < (t.table i).used → (t.table i).entry.key ≠ none) : atZero zero t = t := by
  have htable : (atZero zero t).table = t.table :=
    funext fun i => if_neg fun hi => ht i hi.1 hi.2
  obtain ⟨table, size, filled⟩ := t
  simpa [atZero] using htable

theorem wf_key (t : HTab) (ht : Wf t) (i : ℕ) (hu : 0 < (t.table i).used) :
    (t.table i).entry.key ≠ none := by
  rcases ht.slots i with h0 | h0 | ⟨k, d, hk, -, -⟩
  · omega
  · omega
  · rw [hk]
    simp

theorem atZero_wf (zero : CStr) (t : HTab) (ht : Wf t) : atZero zero t = t :=
  atZero_eq zero t (wf_key t ht)

theorem atZero_used (zero : CStr) (t : HTab) (i : ℕ) :
    ((atZero zero t).table i).used = (t.table i).used := by
  simp only [atZero]
  split_ifs
  · rfl
  · rfl

/-- A search finds a slot with its key as long as no unused slot is in front of one. -/
theorem find_reached (h : Hooks) (key : CStr) (t : HTab) (hs : SizeOk t.size) (flag j : ℕ)
    (hj : j < t.size) (hm : Matches t key (path t.size key j))
    (hu : ∀ l < j, (t.table (path t.size key l)).used ≠ 0) :
    ∃ i, 0 < i ∧ i ≤ t.size ∧ Matches t key i ∧
      hsearchR h key none .find t flag = some ⟨i, some i, t, none⟩ := by
  obtain ⟨m, hpass, hend⟩ := probeFrom_outcome h key none .find t hs flag
  rcases hend with ⟨rfl, -⟩ | ⟨hmn, hmatch, hp⟩ | ⟨hmn, hmatch, hfree, -⟩
  · exact absurd hm (hpass j hj).1
  · refine ⟨path t.size key m, path_pos t.size hs key m, path_le t.size hs key m, hmatch, ?_⟩
    have hmatch' := hmatch
    unfold Matches at hmatch'
    have hc : compareAndOverwriteEntry h key none .find t flag (homeIndex t.size key)
        (path t.size key m) = some ⟨path t.size key m, some (path t.size key m), t, none⟩ := by
      unfold compareAndOverwriteEntry
      rw [if_pos hmatch', if_neg (by simp)]
    simp only [hsearchR, hp, hc, Option.map_some]
  · exfalso
    rcases lt_trichotomy j m with hlt | rfl | hlt
    · exact (hpass j hlt).1 hm
    · exact hmatch hm
    · exact hu m hlt hfree

theorem seen_live (zero : CStr) (t : HTab) (ht : Wf t) (key d : CStr) (i : ℕ) (hi : 0 < i)
    (hin : i ≤ t.size) (hlive : cells t i = .live key d) : seen zero t key = some (some d) := by
  obtain ⟨j, hj, rfl, hpass⟩ := ht.sound.reachable i key d hi hin hlive
  obtain ⟨i', hi', hin', hm', hr⟩ := find_reached permissive key t ht.size 0 j hj
    ((matches_iff t ht key _).mpr ⟨d, hlive⟩) fun l hl hu =>
      hpass l hl ((cell_free_iff t.size _ (ht.slots _)).mpr hu)
  obtain ⟨d', hlive'⟩ := (matches_iff t ht key i').mp hm'
  obtain rfl := ht.sound.single i' _ key d' d hi' hin' hi hin hlive' hlive
  rw [seen, atZero_wf zero t ht, hr]
  exact congrArg some ((cell_live_iff t.size _ (ht.slots _) key d).mp hlive).2.2

theorem seen_absent (zero : CStr) (t : HTab) (ht : Wf t) (key : CStr)
    (habs : Absent t.size (cells t) key) : seen zero t key = none := by
  rcases search_cases permissive key none .find t ht 0 with
    ⟨i, d, hi, hin, hlive, -⟩ | ⟨-, idx, hp, -⟩
  · exact absurd ⟨i, hi, hin, hlive⟩ (habs d)
  · have hr : hsearchR permissive key none .find t 0 = some (t.fail .esrch) := by
      simp only [hsearchR, hp]
    rw [seen, atZero_wf zero t ht, hr]
    rfl

/-- Tables that hold the same are searched with the same results. -/
theorem seen_congr (t t' : HTab) (ht : Wf t) (ht' : Wf t')
    (hh : ∀ k d, Holds t'.size (cells t') k d ↔ Holds t.size (cells t) k d) (zero key : CStr) :
    seen zero t' key = seen zero t key := by
  by_cases hex : ∃ d, Holds t.size (cells t) key d
  · obtain ⟨d, i, hi, hin, hlive⟩ := hex
    obtain ⟨i', hi', hin', hlive'⟩ := (hh key d).mpr ⟨i, hi, hin, hlive⟩
    rw [seen_live zero t ht key d i hi hin hlive, seen_live zero t' ht' key d i' hi' hin' hlive']
  · have habs : Absent t.size (cells t) key := fun d hd => hex ⟨d, hd⟩
    have habs' : Absent t'.size (cells t') key := fun d hd => hex ⟨d, (hh key d).mp hd⟩
    rw [seen_absent zero t ht key habs, seen_absent zero t' ht' key habs']

theorem Unchanged.refl (t : HTab) : Unchanged t t := ⟨fun _ _ => rfl, rfl⟩

/-! ## A new entry -/

/-- The slot of a new entry: the home slot if that is a tombstone, else where the search stopped. -/
def place (t : HTab) (key : CStr) (idx : ℕ) : ℕ :=
  if firstDeleted t (homeIndex t.size key) ≠ 0 then firstDeleted t (homeIndex t.size key) else idx

theorem place_spec (t : HTab) (ht : Wf t) (key : CStr) (idx : ℕ)
    (habs : Absent t.size (cells t) key) (hroom : t.filled ≠ t.size)
    (hstop : (∃ j < t.size, idx = path t.size key j ∧ cells t idx = .free ∧
        Passes (order t.size ht.size) (cells t) key j) ∨
      (idx = homeIndex t.size key ∧ ∀ i, 0 < i → i ≤ t.size → (t.table i).used ≠ 0)) :
    ∃ j < t.size, place t key idx = path t.size key j ∧
      Passes (order t.size ht.size) (cells t) key j ∧
      ((¬ Clobbers t key ∧ ∀ k d, cells t (place t key idx) ≠ .live k d) ∨
        (Clobbers t key ∧ place t key idx = homeIndex t.size key)) := by
  have hpos := home_pos t.size key
  have h5 := ht.size.five
  have hfirst : Passes (order t.size ht.size) (cells t) key 0 :=
    fun l hl => absurd hl (Nat.not_lt_zero l)
  by_cases htomb : (t.table (homeIndex t.size key)).used = -1
  · have hplace : place t key idx = homeIndex t.size key := by
      rw [place, show firstDeleted t (homeIndex t.size key) = homeIndex t.size key from
        if_pos htomb, if_pos (by omega)]
    refine ⟨0, by omega, hplace, hfirst, .inl ⟨fun hclob => ?_, fun k d hlive => ?_⟩⟩
    · have hused := hclob.2.1
      omega
    · rw [hplace] at hlive
      simp [cells, cell, htomb] at hlive
  · have hplace : place t key idx = idx := by
      rw [place, show firstDeleted t (homeIndex t.size key) = 0 from if_neg htomb,
        if_neg (by simp)]
    rw [hplace]
    rcases hstop with ⟨j, hj, rfl, hfree, hpass⟩ | ⟨rfl, hall⟩
    · refine ⟨j, hj, rfl, hpass, .inl ⟨fun hclob => ?_, fun k d hlive => ?_⟩⟩
      · exact (hclob.2.2 _ (path_pos t.size ht.size key j) (path_le t.size ht.size key j)).1
          ((cell_free_iff t.size _ (ht.slots _)).mp hfree)
      · rw [hfree] at hlive
        cases hlive
    · exact ⟨0, by omega, rfl, hfirst,
        .inr ⟨clobbers_of_cycle t ht key habs hroom htomb hall, rfl⟩⟩

theorem enter_new (h : Hooks) (key v : CStr) (flag : ℕ) (t : HTab) (idx : ℕ)
    (hroom : t.filled ≠ t.size) (hp : probeFrom h key (some v) .enter t flag = some (.stop idx)) :
    hsearchR h key (some v) .enter t flag = some (createEntry h key (some v) t flag
      (homeIndex t.size key) (place t key idx)) := by
  simp only [hsearchR, hp, if_neg hroom]
  rfl

theorem seeded_wf (h : Hooks) (key v : CStr) (t : HTab) (ht : Wf t) (j : ℕ) (hj : j < t.size)
    (hpass : Passes (order t.size ht.size) (cells t) key j)
    (habs : Absent t.size (cells t) key) : Wf (seeded h key v t (path t.size key j)) :=
  written_wf t _ ht _ _ _ (seeded_written h key v t ht _)
    (sound_store (order t.size ht.size) (cells t) ht.sound key v j hj hpass habs)

theorem wrap32_undo (n : ℕ) (hn : n < 4294967296) :
    wrap32 (wrap32 (n+1)+4294967295) = n := by
  unfold wrap32
  omega

/-- A new entry that is taken back leaves a tombstone. -/
theorem withdrawn_written (h : Hooks) (key v : CStr) (t : HTab) (ht : Wf t) (j : ℕ)
    (hj : j < t.size) (hpass : Passes (order t.size ht.size) (cells t) key j)
    (habs : Absent t.size (cells t) key) (hf : t.filled < 4294967296) :
    Written t (hdelete (seeded h key v t (path t.size key j)) (path t.size key j))
        (path t.size key j) .tomb t.filled ∧
      Wf (hdelete (seeded h key v t (path t.size key j)) (path t.size key j)) := by
  have hw := seeded_written h key v t ht (path t.size key j)
  have hwf := seeded_wf h key v t ht j hj hpass habs
  have hdel := hdelete_written _ hwf _ (SameContents.refl _) (path t.size key j)
  have hlive : cells (seeded h key v t (path t.size key j)) (path t.size key j) =
      .live key v := by rw [hw.cells, put_same]
  have hsound := sound_rewrite (order _ hwf.size) _ hwf.sound (path t.size key j) key v .tomb
    hlive (.inl rfl)
  refine ⟨⟨hdel.size.trans hw.size, ?_, ?_, ?_⟩, written_wf _ _ hwf _ _ _ hdel hsound⟩
  · rw [hdel.filled, hw.filled, wrap32_undo t.filled hf]
  · intro i
    rw [← hw.size]
    exact hdel.slots i
  · rw [hdel.cells, hw.cells]
    funext i
    by_cases hi : i = path t.size key j
    · rw [hi, put_same, put_same]
    · rw [put_other _ _ _ _ hi, put_other _ _ _ _ hi, put_other _ _ _ _ hi]

theorem createEntry_supplied (h : Hooks) (key v : CStr) (t : HTab) (flag hval i : ℕ)
    (hk : h.malloc .newKey = true) (hd : h.malloc .newData = true) :
    createEntry h key (some v) t flag hval i =
      createEntry (supplied h) key (some v) t flag hval i := by
  simp only [createEntry, strdup, hk, hd, supplied]
  rfl

/-! ## The ways a call ends -/

section Calls
variable (h : Hooks) (key v : CStr) (flag : ℕ) (t : HTab)

theorem overwrite_apply (ht : Wf t) (i : ℕ) (d : CStr) (hi : 0 < i) (hlive : cells t i = .live key d)
    (hp : probeFrom h key (some v) .enter t flag = (compareAndOverwriteEntry h key (some v) .enter
      t flag (homeIndex t.size key) i).map .done) :
    (Declined h t i key v flag ∧ apply h t (.enter key v flag) = some (.entered false, t)) ∨
    (¬ Declined h t i key v flag ∧ ∃ t1, runCallback h t i key (some v) .overwrite flag = some t1 ∧
      apply h t (.enter key v flag) = some (.entered (h.malloc .overwriteData),
        t1.setEntry i { (t1.table i).entry with
          data := strdup (h.malloc .overwriteData) (some v) })) := by
  have hmatch := (matches_iff t ht key i).mpr ⟨d, hlive⟩
  have hne : i ≠ 0 := by omega
  unfold Matches at hmatch
  rw [apply, hsearchR, hp]
  unfold compareAndOverwriteEntry Declined
  rw [if_pos hmatch, if_pos ⟨rfl, by simp⟩]
  cases hden : denied h t i (some v) .overwrite flag with
  | true => exact .inl ⟨.inl rfl, rfl⟩
  | false =>
    cases hcb : runCallback h t i key (some v) .overwrite flag with
    | none => exact .inl ⟨.inr rfl, rfl⟩
    | some t1 =>
      refine .inr ⟨by simp, t1, rfl, ?_⟩
      cases hmem : h.malloc .overwriteData with
      | true => simp [strdup, hne]
      | false => simp [strdup, HTab.fail]

theorem full_apply (idx : ℕ) (hfull : t.filled = t.size)
    (hp : probeFrom h key (some v) .enter t flag = some (.stop idx)) :
    apply h t (.enter key v flag) = some (.entered false, t) := by
  simp [apply, hsearchR, hp, hfull, HTab.fail]

theorem create_apply (hc : AttributesOnly h) (idx : ℕ) (hroom : t.filled ≠ t.size)
    (hp : probeFrom h key (some v) .enter t flag = some (.stop idx))
    (hk : h.malloc .newKey = true) (hd : h.malloc .newData = true) :
    (¬ Accepted h t (place t key idx) key v flag ∧ apply h t (.enter key v flag) =
      some (.entered false, hdelete (seeded h key v t (place t key idx)) (place t key idx))) ∨
    (Accepted h t (place t key idx) key v flag ∧ ∃ t5,
      runCallback h (seeded h key v t (place t key idx)) (place t key idx) key (some v) .create
        flag = some t5 ∧ apply h t (.enter key v flag) = some (.entered true, t5)) := by
  have hsame : seeded (supplied h) key v t (place t key idx) =
      seeded h key v t (place t key idx) := rfl
  have hdenied : ∀ t' i, denied (supplied h) t' i (some v) .create flag =
      denied h t' i (some v) .create flag := fun _ _ => rfl
  have hcall : ∀ t' i, runCallback (supplied h) t' i key (some v) .create flag =
      runCallback h t' i key (some v) .create flag := fun _ _ => rfl
  rw [apply, enter_new h key v flag t idx hroom hp, createEntry_supplied h key v t flag _ _ hk hd,
    createEntry_eq (supplied h) (supplied_lawful h hc), hsame, hdenied, hcall]
  unfold Accepted
  cases hden : denied h (seeded h key v t (place t key idx)) (place t key idx) (some v) .create
      flag with
  | true => exact .inl ⟨by simp, rfl⟩
  | false =>
    cases hcb : runCallback h (seeded h key v t (place t key idx)) (place t key idx) key (some v)
        .create flag with
    | none => exact .inl ⟨by simp, rfl⟩
    | some t5 => exact .inr ⟨by simp, t5, rfl, rfl⟩

/-- Without memory for both strings the slot is in use all the same. -/
theorem half_apply (idx : ℕ) (hroom : t.filled ≠ t.size)
    (hp : probeFrom h key (some v) .enter t flag = some (.stop idx))
    (hno : ¬ (h.malloc .newKey = true ∧ h.malloc .newData = true)) :
    apply h t (.enter key v flag) = some (.entered false, t.setSlot (place t key idx)
      ⟨homeIndex t.size key, { (t.table (place t key idx)).entry with
        key := strdup (h.malloc .newKey) (some key)
        data := strdup (h.malloc .newData) (some v) }⟩) := by
  have hnull : strdup (h.malloc .newKey) (some key) = none ∨
      strdup (h.malloc .newData) (some v) = none := by
    cases hk : h.malloc .newKey with
    | false => exact .inl rfl
    | true =>
      cases hd : h.malloc .newData with
      | false => exact .inr rfl
      | true => exact absurd ⟨hk, hd⟩ hno
  rw [apply, enter_new h key v flag t idx hroom hp, createEntry]
  simp only [if_pos hnull]
  simp [HTab.fail]

end Calls

/-- A search leaves the table and ends without the key or with its slot. -/
theorem find_ends (h : Hooks) (key : CStr) (t : HTab) (ht : Wf t) :
    hsearchR h key none .find t 0 = some (t.fail .esrch) ∨
      ∃ i d, 0 < i ∧ i ≤ t.size ∧ cells t i = .live key d ∧
        hsearchR h key none .find t 0 = some ⟨i, some i, t, none⟩ := by
  rcases search_cases h key none .find t ht 0 with
    ⟨i, d, hi, hin, hlive, hp⟩ | ⟨-, idx, hp, -⟩
  · have hmatch := (matches_iff t ht key i).mpr ⟨d, hlive⟩
    unfold Matches at hmatch
    have hc : compareAndOverwriteEntry h key none .find t 0 (homeIndex t.size key) i =
        some ⟨i, some i, t, none⟩ := by
      unfold compareAndOverwriteEntry
      rw [if_pos hmatch, if_neg (by simp)]
    exact .inr ⟨i, d, hi, hin, hlive, by simp only [hsearchR, hp, hc, Option.map_some]⟩
  · exact .inl (by simp only [hsearchR, hp])

theorem delete_apply (h : Hooks) (key : CStr) (flag : ℕ) (t : HTab) (ht : Wf t) :
    apply h t (.delete key flag) = some (.deleted false, t) ∨
      ∃ i d t1, 0 < i ∧ i ≤ t.size ∧ cells t i = .live key d ∧
        runCallback h t i key none .delete flag = some t1 ∧
        apply h t (.delete key flag) = some (.deleted true, hdelete t1 i) := by
  rcases find_ends h key t ht with hr | ⟨i, d, hi, hin, hlive, hr⟩
  · exact .inl (by simp [apply, hdeleteR, hr, HTab.fail])
  · have hne : i ≠ 0 := by omega
    simp only [apply, hdeleteR, hr, if_neg hne]
    cases hden : denied h t i none .delete flag with
    | true => exact .inl rfl
    | false =>
      cases hcb : runCallback h t i key none .delete flag with
      | none => exact .inl rfl
      | some t1 => exact .inr ⟨i, d, t1, hi, hin, hlive, hcb, rfl⟩

/-! ## What unsafe calls lose -/

/-- The old value is freed before it is known that there is memory for the new one. -/
theorem value_lost (t t1 : HTab) (ht : Wf t) (hs : SameContents t t1) (key d : CStr) (i : ℕ)
    (hi : 0 < i) (hin : i ≤ t.size) (hlive : cells t i = .live key d) :
    ¬ Unchanged t (t1.setEntry i { (t1.table i).entry with data := none }) := by
  intro hun
  obtain ⟨hsize, -, hent⟩ := hs
  obtain ⟨j, hj, hij, hpass⟩ := ht.sound.reachable i key d hi hin hlive
  have hpath : path t.size key j = i := hij
  generalize ht2 : t1.setEntry i { (t1.table i).entry with data := none } = t2 at hun
  have hsize2 : t2.size = t.size := by
    rw [← ht2]
    exact hsize
  have hsame : ∀ l, (t2.table l).used = (t.table l).used ∧
      (t2.table l).entry.key = (t.table l).entry.key := by
    intro l
    rw [← ht2, HTab.setEntry]
    by_cases hl : l = i
    · rw [hl, setSlot_same]
      exact ⟨(hent _).1, (hent _).2.1⟩
    · rw [setSlot_other _ _ _ _ hl]
      exact ⟨(hent l).1, (hent l).2.1⟩
  have hmatch : ∀ l, Matches t2 key l ↔ Matches t key l := by
    intro l
    unfold Matches
    rw [(hsame l).1, (hsame l).2, hsize2]
  obtain ⟨i', hi', hin', hm', hr⟩ := find_reached permissive key t2 (by rw [hsize2]; exact ht.size)
    0 j (by rw [hsize2]; exact hj)
    (by rw [hsize2, hmatch, hpath]; exact (matches_iff t ht key _).mpr ⟨d, hlive⟩) (by
      rw [hsize2]
      intro l hl
      rw [(hsame _).1]
      exact fun hu => hpass l hl ((cell_free_iff t.size _ (ht.slots _)).mpr hu))
  obtain ⟨d', hlive'⟩ := (matches_iff t ht key i').mp ((hmatch i').mp hm')
  obtain rfl := ht.sound.single i' _ key d' d hi' (by rw [← hsize2]; exact hin') hi hin hlive' hlive
  have hzero : atZero [] t2 = t2 := by
    apply atZero_eq
    intro l hu
    rw [(hsame l).2]
    rw [(hsame l).1] at hu
    exact wf_key t ht l hu
  have hnull : seen [] t2 key = some none := by
    rw [seen, hzero, hr, ← ht2, HTab.setEntry]
    simp only [Option.bind_some, Option.map_some, setSlot_same]
  have hold := hun.seen [] key
  rw [hnull, seen_live [] t ht key d _ hi hin hlive] at hold
  cases hold

/-- A slot that is in use without both strings is found under its key. -/
theorem half_seen (h : Hooks) (t : HTab) (ht : Wf t) (key v : CStr)
    (habs : Absent t.size (cells t) key) (j : ℕ) (hj : j < t.size)
    (hpass : Passes (order t.size ht.size) (cells t) key j) :
    ¬ Unchanged t (t.setSlot (path t.size key j) ⟨homeIndex t.size key,
      { (t.table (path t.size key j)).entry with
        key := strdup (h.malloc .newKey) (some key)
        data := strdup (h.malloc .newData) (some v) }⟩) := by
  intro hun
  generalize ht2 : t.setSlot (path t.size key j) _ = t2 at hun
  have hsize : (atZero key t2).size = t.size := by
    rw [← ht2]
    rfl
  have hpos := home_pos t.size key
  have hlt := home_lt t.size ht.size key
  have hbound := ht.size.bound
  have hmatch : Matches (atZero key t2) key (path t.size key j) := by
    unfold Matches
    refine ⟨?_, ?_⟩
    · rw [atZero_used, hsize, ← ht2, setSlot_same]
      dsimp only
      omega
    · simp only [atZero, ← ht2, setSlot_same]
      cases h.malloc .newKey with
      | true => simp [strdup]
      | false => simp [strdup, hpos]
  obtain ⟨i', -, -, -, hr⟩ := find_reached permissive key (atZero key t2)
    (by rw [hsize]; exact ht.size) 0 j (by rw [hsize]; exact hj) (by rw [hsize]; exact hmatch) (by
      rw [hsize]
      intro l hl
      rw [atZero_used, ← ht2]
      by_cases hl' : path t.size key l = path t.size key j
      · rw [hl', setSlot_same]
        dsimp only
        omega
      · rw [setSlot_other _ _ _ _ hl']
        exact fun hu => hpass l hl ((cell_free_iff t.size _ (ht.slots _)).mpr hu))
  have hold := hun.seen key key
  rw [seen_absent key t ht key habs, seen, hr] at hold
  cases hold

/-- In the excluded state an entry that is taken back takes another one with it. -/
theorem victim_lost (t t' : HTab) (ht : Wf t) (key : CStr) (hc : Clobbers t key)
    (ht' : Wf t') (hw : Written t t' (homeIndex t.size key) .tomb t.filled) :
    ¬ Unchanged t t' := by
  intro hun
  obtain ⟨-, hhome, -⟩ := hc
  have hpos := home_pos t.size key
  have hle := (home_lt t.size ht.size key).le
  obtain ⟨victim, w, hlive⟩ := used_live t ht _ hhome
  have habs := replaced_absent t t' ht _ hpos hle victim w hlive .tomb _ (by simp) hw
  have hold := hun.seen [] victim
  rw [seen_absent [] t' ht' victim habs, seen_live [] t ht victim w _ hpos hle hlive] at hold
  cases hold

/-! ## One call -/

/-- Two outcomes of one call are the same. -/
theorem apply_unique {h : Hooks} {t t1 t2 : HTab} {op : Op} {a1 a2 : Answer}
    (h1 : apply h t op = some (a1, t1)) (h2 : apply h t op = some (a2, t2)) : a1 = a2 ∧ t1 = t2 :=
  Prod.mk.inj (Option.some.inj (h1.symm.trans h2))

theorem atomic_of_apply {h : Hooks} {t t' : HTab} {op : Op} {a : Answer}
    (ho : apply h t op = some (a, t')) :
    Atomic h t op ↔ (a.failed = true → Unchanged t t') := by
  constructor
  · exact fun hat hfail => hat a t' ho hfail
  · intro hun a1 t1 h1 hfail
    obtain ⟨rfl, rfl⟩ := apply_unique ho h1
    exact hun hfail

theorem live_absent {t : HTab} {key : CStr} {i : ℕ} {d : CStr} (hi : 0 < i) (hin : i ≤ t.size)
    (hlive : cells t i = .live key d) : ¬ Absent t.size (cells t) key :=
  fun habs => habs d ⟨i, hi, hin, hlive⟩

theorem enter_atomic_iff (h : Hooks) (hc : AttributesOnly h) (t : HTab) (ht : Wf t)
    (hf : t.filled < 4294967296) (key v : CStr) (flag : ℕ) :
    Atomic h t (.enter key v flag) ↔ Safe h t (.enter key v flag) := by
  rcases search_cases h key (some v) .enter t ht flag with
    ⟨i, d, hi, hin, hlive, hp⟩ | ⟨habs, idx, hp, hstop⟩
  · -- an overwrite
    have hsafe : Safe h t (.enter key v flag) ↔
        Declined h t i key v flag ∨ h.malloc .overwriteData = true := by
      constructor
      · exact fun hs => hs.1 i d hi hin hlive
      · intro hs
        refine ⟨fun i' d' hi' hin' hlive' => ?_, fun habs => absurd habs (live_absent hi hin hlive)⟩
        rw [ht.sound.single i' i key d' d hi' hin' hi hin hlive' hlive]
        exact hs
    rw [hsafe]
    rcases overwrite_apply h key v flag t ht i d hi hlive hp with ⟨hdec, ho⟩ | ⟨hdec, t1, hcb, ho⟩
    · rw [atomic_of_apply ho]
      exact ⟨fun _ => .inl hdec, fun _ _ => Unchanged.refl t⟩
    · rw [atomic_of_apply ho]
      cases hmem : h.malloc .overwriteData with
      | true => simp [Answer.failed]
      | false =>
        have hsame : SameContents t t1 := (supplied_lawful h hc).runCallback hcb
        have hlost := value_lost t t1 ht hsame key d i hi hin hlive
        constructor
        · exact fun hun => absurd (hun rfl) hlost
        · rintro (hs | hs)
          · exact absurd hs hdec
          · cases hs
  · have hsafe : Safe h t (.enter key v flag) ↔ t.filled = t.size ∨
        (h.malloc .newKey = true ∧ h.malloc .newData = true ∧
          (Clobbers t key → Accepted h t (homeIndex t.size key) key v flag)) := by
      constructor
      · exact fun hs => hs.2 habs
      · exact fun hs => ⟨fun i d hi hin hlive => absurd habs (live_absent hi hin hlive), fun _ => hs⟩
    rw [hsafe]
    by_cases hfull : t.filled = t.size
    · rw [atomic_of_apply (full_apply h key v flag t idx hfull hp)]
      exact ⟨fun _ => .inl hfull, fun _ _ => Unchanged.refl t⟩
    · obtain ⟨j, hj, hplace, hpass, hcell⟩ := place_spec t ht key idx habs hfull hstop
      by_cases hmem : h.malloc .newKey = true ∧ h.malloc .newData = true
      · rcases create_apply h key v flag t hc idx hfull hp hmem.1 hmem.2 with
          ⟨hacc, ho⟩ | ⟨hacc, t5, -, ho⟩
        · -- a new entry that is taken back
          rw [atomic_of_apply ho]
          rw [hplace] at hacc hcell ⊢
          obtain ⟨hw, hwf⟩ := withdrawn_written h key v t ht j hj hpass habs hf
          rcases hcell with hcell | ⟨hclob, hhome⟩
          · have hun : Unchanged t
                (hdelete (seeded h key v t (path t.size key j)) (path t.size key j)) := by
              refine ⟨seen_congr t _ ht hwf fun k d => ?_, hw.filled⟩
              rw [hw.size, hw.cells]
              exact holds_put_other (cells t) _ .tomb k d (hcell.2 k) (by simp)
            exact ⟨fun _ => .inr ⟨hmem.1, hmem.2, fun hclob => absurd hclob hcell.1⟩,
              fun _ _ => hun⟩
          · rw [hhome] at hacc hw hwf ⊢
            have hlost := victim_lost t _ ht key hclob hwf hw
            constructor
            · exact fun hun => absurd (hun rfl) hlost
            · rintro (hs | ⟨-, -, hs⟩)
              · exact absurd hs hfull
              · exact absurd (hs hclob) hacc
        · rw [atomic_of_apply ho]
          simp only [Answer.failed, Bool.not_true, Bool.false_eq_true, false_implies, true_iff]
          refine .inr ⟨hmem.1, hmem.2, fun hclob => ?_⟩
          rcases hcell with hcell | ⟨-, hhome⟩
          · exact absurd hclob hcell.1
          · rwa [hhome] at hacc
      · -- the slot is in use already
        rw [atomic_of_apply (half_apply h key v flag t idx hfull hp hmem), hplace]
        have hlost := half_seen h t ht key v habs j hj hpass
        constructor
        · exact fun hun => absurd (hun rfl) hlost
        · rintro (hs | ⟨hk, hd, -⟩)
          · exact absurd hs hfull
          · exact absurd ⟨hk, hd⟩ hmem

theorem call_atomic_iff (h : Hooks) (hc : AttributesOnly h) (t : HTab) (ht : Wf t)
    (hf : t.filled < 4294967296) (op : Op) : Atomic h t op ↔ Safe h t op := by
  cases op with
  | find key =>
    refine ⟨fun _ => trivial, fun _ a t' ho hfail => ?_⟩
    obtain ⟨r, -, heq⟩ := Option.map_eq_some_iff.mp ho
    cases heq
    exact absurd hfail (by simp [Answer.failed])
  | enter key v flag => exact enter_atomic_iff h hc t ht hf key v flag
  | delete key flag =>
    refine ⟨fun _ => trivial, fun _ a t' ho hfail => ?_⟩
    rcases delete_apply h key flag t ht with ho' | ⟨i, d, t1, -, -, -, -, ho'⟩
    · rw [(apply_unique ho ho').2]
      exact Unchanged.refl t
    · rw [(apply_unique ho ho').1] at hfail
      cases hfail

/-! ## Runs of safe calls -/

theorem wrap32_lt (n : ℕ) : wrap32 n < 4294967296 := Nat.mod_lt n (by decide)

/-- The invariant of the tables that safe calls leave. -/
structure Intact (t : HTab) : Prop where
  wf : Wf t
  filled : t.filled < 4294967296

theorem Intact.of_same {t t' : HTab} (ht : Intact t) (hs : SameContents t t') : Intact t' :=
  ⟨same_wf ht.wf hs, by rw [hs.2.1]; exact ht.filled⟩

theorem enter_intact (h : Hooks) (hc : AttributesOnly h) (t t' : HTab) (ht : Intact t)
    (key v : CStr) (flag : ℕ) (hs : Safe h t (.enter key v flag)) (a : Answer)
    (ho : apply h t (.enter key v flag) = some (a, t')) : Intact t' := by
  obtain ⟨hwf, hf⟩ := ht
  rcases search_cases h key (some v) .enter t hwf flag with
    ⟨i, d, hi, hin, hlive, hp⟩ | ⟨habs, idx, hp, hstop⟩
  · rcases overwrite_apply h key v flag t hwf i d hi hlive hp with ⟨-, ho'⟩ | ⟨hdec, t1, hcb, ho'⟩
    · rw [(apply_unique ho ho').2]
      exact ⟨hwf, hf⟩
    · have hmem := (hs.1 i d hi hin hlive).resolve_left hdec
      rw [hmem] at ho'
      have hw := overwritten_written t t1 hwf ((supplied_lawful h hc).runCallback hcb) key d v i
        hlive
      have hsound := sound_rewrite (order t.size hwf.size) (cells t) hwf.sound i key d
        (.live key v) hlive (.inr ⟨v, rfl⟩)
      rw [(apply_unique ho ho').2]
      exact ⟨written_wf t _ hwf i _ _ hw hsound, hw.filled.trans_lt hf⟩
  · by_cases hfull : t.filled = t.size
    · rw [(apply_unique ho (full_apply h key v flag t idx hfull hp)).2]
      exact ⟨hwf, hf⟩
    · obtain ⟨hk, hd, -⟩ := (hs.2 habs).resolve_left hfull
      obtain ⟨j, hj, hplace, hpass, -⟩ := place_spec t hwf key idx habs hfull hstop
      rcases create_apply h key v flag t hc idx hfull hp hk hd with ⟨-, ho'⟩ | ⟨-, t5, hcb, ho'⟩
      · rw [(apply_unique ho ho').2, hplace]
        obtain ⟨hw, hwf'⟩ := withdrawn_written h key v t hwf j hj hpass habs hf
        exact ⟨hwf', hw.filled.trans_lt hf⟩
      · rw [(apply_unique ho ho').2]
        rw [hplace] at hcb
        have hseeded : Intact (seeded h key v t (path t.size key j)) :=
          ⟨seeded_wf h key v t hwf j hj hpass habs, wrap32_lt _⟩
        exact hseeded.of_same ((supplied_lawful h hc).runCallback hcb)

theorem delete_intact (h : Hooks) (hc : AttributesOnly h) (t t' : HTab) (ht : Intact t)
    (key : CStr) (flag : ℕ) (a : Answer) (ho : apply h t (.delete key flag) = some (a, t')) :
    Intact t' := by
  rcases delete_apply h key flag t ht.wf with ho' | ⟨i, d, t1, hi, hin, hlive, hcb, ho'⟩
  · rw [(apply_unique ho ho').2]
    exact ht
  · have hw := hdelete_written t ht.wf t1 ((supplied_lawful h hc).runCallback hcb) i
    have hsound := sound_rewrite (order t.size ht.wf.size) (cells t) ht.wf.sound i key d .tomb hlive
      (.inl rfl)
    rw [(apply_unique ho ho').2]
    exact ⟨written_wf t _ ht.wf i _ _ hw hsound, by rw [hw.filled]; exact wrap32_lt _⟩

/-- The tables that are reached from a new one by safe calls. -/
inductive Reached : HTab → Prop
  | created (n : ℕ) (t : HTab) (hn : 2 ≤ n) (hb : n < 1073741824) (hcreate : hcreateR n = some t) :
      Reached t
  | step (h : Hooks) (op : Op) (t : HTab) (a : Answer) (t' : HTab) (ht : Reached t)
      (hc : AttributesOnly h) (hs : Safe h t op) (ho : apply h t op = some (a, t')) : Reached t'

theorem Reached.intact {t : HTab} (ht : Reached t) : Intact t := by
  induction ht with
  | created n t hn hb hcreate =>
    obtain ⟨-, -, heq⟩ := hcreateR_spec n hn hb t hcreate
    exact ⟨(created_models n hn hb t hcreate).wf, by rw [heq]; exact Nat.zero_lt_succ _⟩
  | step h op t a t' _ hc hs ho ih =>
    cases op with
    | find key =>
      obtain ⟨r, hr, heq⟩ := Option.map_eq_some_iff.mp ho
      cases heq
      rcases find_ends h key t ih.wf with hr' | ⟨i, d, -, -, -, hr'⟩
      · rw [hr'] at hr
        cases hr
        exact ih
      · rw [hr'] at hr
        cases hr
        exact ih
    | enter key v flag => exact enter_intact h hc t t' ih key v flag hs a ho
    | delete key flag => exact delete_intact h hc t t' ih key flag a ho

/-- In every table that safe calls reach, a call that fails changes nothing exactly when it is
safe. -/
theorem failed_call_iff (t : HTab) (ht : Reached t) (h : Hooks) (hc : AttributesOnly h) (op : Op) :
    Atomic h t op ↔ Safe h t op :=
  call_atomic_iff h hc t ht.intact.wf ht.intact.filled op

theorem failed_call_letter :
    Atomic permissive (emptyTable 5) (.enter [97] [49] 0) ↔
      Safe permissive (emptyTable 5) (.enter [97] [49] 0) := by
  apply failed_call_iff (emptyTable 5) (.created 2 _ (by decide) (by decide) hcreateR_two)
    permissive
  intro c t key v op flag t' h
  cases h
  exact SameContents.refl t

/-- No string is copied. -/
def exhausted : Hooks := { permissive with malloc := fun _ => false }

/-- With `a=1` in the table and no memory left, entering `a=2` fails and the value 1 is gone. -/
theorem old_value_lost : ∃ t, Reached t ∧ AttributesOnly exhausted ∧
    ¬ Atomic exhausted t (.enter [97] [50] 0) := by
  have hattr : AttributesOnly permissive := fun c t key v op flag t' h => by
    cases h
    exact SameContents.refl t
  have hrun : ((apply permissive (emptyTable 5) (.enter [97] [49] 0)).bind fun p =>
      (apply exhausted p.2 (.enter [97] [50] 0)).map fun r =>
        (r.1, seen [] r.2 [97], seen [] p.2 [97])) =
      some (.entered false, some none, some (some [49])) := by decide +kernel
  obtain ⟨⟨a, t⟩, ho, hrun⟩ := Option.bind_eq_some_iff.mp hrun
  obtain ⟨⟨a', t'⟩, ho', heq⟩ := Option.map_eq_some_iff.mp hrun
  have hsafe : Safe permissive (emptyTable 5) (.enter [97] [49] 0) :=
    ⟨fun _ _ _ _ _ => .inr rfl, fun _ => .inr ⟨rfl, rfl, fun hc => absurd hc.2.1 (by decide)⟩⟩
  refine ⟨t, .step permissive _ _ a t (.created 2 _ (by decide) (by decide) hcreateR_two) hattr
    hsafe ho, hattr, fun hat => ?_⟩
  simp only [Prod.mk.injEq] at heq
  obtain ⟨rfl, hnew, hold⟩ := heq
  have hsame := (hat _ t' ho' rfl).seen [] [97]
  rw [hnew, hold] at hsame
  cases hsame

end UBoot.HashTable
