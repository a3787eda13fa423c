import UBoot.HashTableSearch

/-!
# The environment table as a finite map

When every allocation, permission check and callback succeeds, each operation
acts on the represented map as its name says, with one exception. Only the
home slot of a key is remembered as reusable, so an entry whose home is in
use, made when tombstones have replaced all of the unused slots, stops at the
home slot after a full cycle and is written over the entry that lives there.
The refinement holds along every run that avoids that state.
-/

set_option autoImplicit false

namespace UBoot.HashTable
open UBoot.ProbeCycle UBoot.OpenAddressing

abbrev EnvMap := Finmap (fun _ : CStr => CStr)

/-- Attributes aside, two tables have the same contents. -/
def SameContents (t t' : HTab) : Prop :=
  t'.size = t.size ∧ t'.filled = t.filled ∧ ∀ i, (t'.table i).used = (t.table i).used ∧
    (t'.table i).entry.key = (t.table i).entry.key ∧ (t'.table i).entry.data = (t.table i).entry.data

/-- Memory is available and nothing is refused; callbacks touch attributes only. -/
structure Accepting (h : Hooks) : Prop where
  malloc : ∀ p, h.malloc p = true
  changeOk : ∀ f, h.changeOk = some f → ∀ t e v op flag, f t e v op flag = false
  callback : ∀ c t key v op flag, ∃ t', h.callback c t key v op flag = some t' ∧ SameContents t t'

theorem SameContents.refl (t : HTab) : SameContents t t :=
  ⟨rfl, rfl, fun _ => ⟨rfl, rfl, rfl⟩⟩

theorem accepting_denied (h : Hooks) (ha : Accepting h) (t : HTab) (idx : ℕ) (v : Option CStr)
    (op : EnvOp) (flag : ℕ) : denied h t idx v op flag = false := by
  unfold denied
  cases hc : h.changeOk with
  | none => rfl
  | some f => exact ha.changeOk f hc _ _ _ _ _

theorem accepting_runCallback (h : Hooks) (ha : Accepting h) (t : HTab) (idx : ℕ) (key : CStr)
    (v : Option CStr) (op : EnvOp) (flag : ℕ) :
    ∃ t', runCallback h t idx key v op flag = some t' ∧ SameContents t t' := by
  unfold runCallback
  cases (t.table idx).entry.callback with
  | none => exact ⟨t, rfl, SameContents.refl t⟩
  | some c => exact ha.callback c t key v op flag

theorem cell_congr (s s' : Slot) (hu : s'.used = s.used) (hk : s'.entry.key = s.entry.key)
    (hd : s'.entry.data = s.entry.data) : cell s' = cell s := by
  simp only [cell, hu, hk, hd]

theorem slotOk_congr (size : ℕ) (s s' : Slot) (hu : s'.used = s.used)
    (hk : s'.entry.key = s.entry.key) (hd : s'.entry.data = s.entry.data) (h : SlotOk size s) :
    SlotOk size s' := by
  simpa only [SlotOk, hu, hk, hd] using h

theorem same_cells (t t' : HTab) (h : SameContents t t') : cells t' = cells t := by
  funext i
  obtain ⟨hu, hk, hd⟩ := h.2.2 i
  exact cell_congr _ _ hu hk hd

/-- A table of the same size is well formed once its slots and cells are. -/
theorem wf_of_cells (t t' : HTab) (ht : Wf t) (hsize : t'.size = t.size)
    (hslots : ∀ i, SlotOk t.size (t'.table i)) (hsound : Sound (order t.size ht.size) (cells t')) :
    Wf t' := by
  obtain ⟨table', size', filled'⟩ := t'
  simp only at hsize
  subst hsize
  exact ⟨ht.size, hslots, hsound⟩

/-- The table, its invariant and the finite map it stands for. -/
structure Models (t : HTab) (m : EnvMap) : Prop where
  wf : Wf t
  represents : Represents t.size (cells t) m
  filled : t.filled = m.keys.card
  capacity : t.filled ≤ t.size

theorem created_models (n : ℕ) (hn : 2 ≤ n) (hb : n < 1073741824) (t : HTab)
    (h : hcreateR n = some t) : Models t ∅ := by
  obtain ⟨hs, -, he⟩ := hcreateR_spec n hn hb t h
  have hcell : ∀ i, cells t i = .free := by
    intro i
    rw [cells, he]
    rfl
  refine ⟨⟨hs, ?_, ?_, ?_⟩, ?_, ?_, ?_⟩
  · intro i
    rw [he]
    exact .inl rfl
  · intro i k v _ _ hl
    rw [hcell] at hl
    cases hl
  · intro i j k v w _ _ _ _ hl
    rw [hcell] at hl
    cases hl
  · intro k v
    simp only [Finmap.lookup_empty, Holds, hcell]
    simp
  · rw [he]
    rfl
  · rw [he]
    exact Nat.zero_le _

/-- The end of a search in terms of the cells. -/
theorem search_cases (h : Hooks) (key : CStr) (data : Option CStr) (action : Action) (t : HTab)
    (ht : Wf t) (flag : ℕ) :
    (∃ i d, 0 < i ∧ i ≤ t.size ∧ cells t i = .live key d ∧
      probeFrom h key data action t flag = (compareAndOverwriteEntry h key data action t flag
        (homeIndex t.size key) i).map .done) ∨
    (Absent t.size (cells t) key ∧ ∃ idx, probeFrom h key data action t flag = some (.stop idx) ∧
      ((∃ j < t.size, idx = path t.size key j ∧ cells t idx = .free ∧
          Passes (order t.size ht.size) (cells t) key j) ∨
        (idx = homeIndex t.size key ∧ ∀ i, 0 < i → i ≤ t.size → (t.table i).used ≠ 0))) := by
  have hmiss : ∀ l, ¬ Matches t key (path t.size key l) →
      ∀ v, cells t ((order t.size ht.size).probe key l) ≠ .live key v := by
    intro l hl v hv
    exact hl ((matches_iff t ht key _).mpr ⟨v, hv⟩)
  obtain ⟨m, hpass, hend⟩ := probeFrom_outcome h key data action t ht.size flag
  have hfree : ∀ i, cells t i = .free ↔ (t.table i).used = 0 :=
    fun i => cell_free_iff t.size _ (ht.slots i)
  rcases hend with ⟨rfl, hp⟩ | ⟨hm, hmatch, hp⟩ | ⟨hm, hmatch, hu, hp⟩
  · refine .inr ⟨absent_of_cycle (order t.size ht.size) _ key
      (fun l hl => hmiss l (hpass l hl).1), _, hp, .inr ⟨rfl, ?_⟩⟩
    intro i hi hin
    obtain ⟨j, hj, rfl⟩ := path_surjective t.size ht.size key i hi hin
    exact (hpass j hj).2
  · obtain ⟨d, hd⟩ := (matches_iff t ht key _).mp hmatch
    exact .inl ⟨_, d, path_pos t.size ht.size key m, path_le t.size ht.size key m, hd, hp⟩
  · have hf := (hfree _).mpr hu
    refine .inr ⟨absent_of_free (order t.size ht.size) _ ht.sound key m
      (fun l hl => hmiss l (hpass l hl).1) hf, _, hp, .inl ⟨m, hm, rfl, hf, ?_⟩⟩
    intro l hl hfl
    exact (hpass l hl).2 ((hfree _).mp hfl)

/-! ## Effects of the writes on the cells -/

theorem setSlot_same (t : HTab) (i : ℕ) (s : Slot) : (t.setSlot i s).table i = s := by
  simp [HTab.setSlot]

theorem setSlot_other (t : HTab) (i j : ℕ) (s : Slot) (h : j ≠ i) :
    (t.setSlot i s).table j = t.table j := by
  simp [HTab.setSlot, h]

theorem cells_setSlot (t : HTab) (i : ℕ) (s : Slot) :
    cells (t.setSlot i s) = put (cells t) i (cell s) := by
  funext j
  by_cases h : j = i
  · subst j
    simp [cells, setSlot_same]
  · simp [cells, setSlot_other t i j s h, put_other _ _ _ _ h]

theorem slots_setSlot (size : ℕ) (t : HTab) (i : ℕ) (s : Slot)
    (ht : ∀ j, SlotOk size (t.table j)) (hs : SlotOk size s) :
    ∀ j, SlotOk size ((t.setSlot i s).table j) := by
  intro j
  by_cases h : j = i
  · subst j
    rwa [setSlot_same]
  · rw [setSlot_other t i j s h]
    exact ht j

theorem cell_live (size : ℕ) (key v : CStr) (s : Slot) (hu : s.used = homeIndex size key)
    (hk : s.entry.key = some key) (hd : s.entry.data = some v) :
    SlotOk size s ∧ cell s = .live key v := by
  have ho : SlotOk size s := .inr (.inr ⟨key, v, hk, hd, hu⟩)
  exact ⟨ho, (cell_live_iff size s ho key v).mpr ⟨hu, hk, hd⟩⟩

/-- What a write that succeeds leaves: the cell of one slot and the count. -/
structure Written (t t' : HTab) (i : ℕ) (c : Cell CStr CStr) (filled : ℕ) : Prop where
  size : t'.size = t.size
  filled : t'.filled = filled
  slots : ∀ j, SlotOk t.size (t'.table j)
  cells : cells t' = put (cells t) i c

theorem overwrite_written (h : Hooks) (ha : Accepting h) (key d v : CStr) (t : HTab) (ht : Wf t)
    (flag i : ℕ) (hlive : cells t i = .live key d) :
    ∃ t', compareAndOverwriteEntry h key (some v) .enter t flag (homeIndex t.size key) i =
        some ⟨i, some i, t', none⟩ ∧ Written t t' i (.live key v) t.filled := by
  have hm := (matches_iff t ht key i).mpr ⟨d, hlive⟩
  obtain ⟨hu, hk, -⟩ := (cell_live_iff t.size _ (ht.slots i) key d).mp hlive
  obtain ⟨t', hcb, hsame⟩ := accepting_runCallback h ha t i key (some v) .overwrite flag
  unfold Matches at hm
  unfold compareAndOverwriteEntry
  rw [if_pos hm, if_pos ⟨rfl, by simp⟩, accepting_denied h ha]
  simp only [Bool.false_eq_true, if_false, hcb, strdup, ha.malloc, if_true, reduceCtorEq]
  obtain ⟨hsz, hfl, hent⟩ := hsame
  have hcell := cell_live t.size key v
    { t'.table i with entry := { (t'.table i).entry with data := some v } }
    ((hent i).1.trans hu) ((hent i).2.1.trans hk) rfl
  refine ⟨_, rfl, hsz, hfl, ?_, ?_⟩
  · refine slots_setSlot t.size t' i _ (fun j => ?_) hcell.1
    exact slotOk_congr _ _ _ (hent j).1 (hent j).2.1 (hent j).2.2 (ht.slots j)
  · rw [HTab.setEntry, cells_setSlot, hcell.2, same_cells t t' ⟨hsz, hfl, hent⟩]

theorem create_written (h : Hooks) (ha : Accepting h) (key v : CStr) (t : HTab) (ht : Wf t)
    (flag i : ℕ) :
    ∃ t', createEntry h key (some v) t flag (homeIndex t.size key) i = ⟨1, some i, t', none⟩ ∧
      Written t t' i (.live key v) (wrap32 (t.filled+1)) := by
  unfold createEntry
  simp only [strdup, ha.malloc, if_true, reduceCtorEq, or_self, if_false, accepting_denied h ha,
    Bool.false_eq_true]
  generalize hE : HTab.setEntry _ i _ = t4
  obtain ⟨t5, hcb, hsz, hfl, hent⟩ := accepting_runCallback h ha t4 i key (some v) .create flag
  rw [hcb]
  have h4 : t4.size = t.size ∧ t4.filled = wrap32 (t.filled+1) ∧
      (∀ j, j ≠ i → t4.table j = t.table j) ∧ (t4.table i).used = homeIndex t.size key ∧
      (t4.table i).entry.key = some key ∧ (t4.table i).entry.data = some v := by
    subst hE
    refine ⟨rfl, rfl, fun j hj => ?_, ?_, ?_, ?_⟩
    · simp [HTab.setEntry, HTab.setSlot, hj]
    all_goals simp [HTab.setEntry, HTab.setSlot]
  obtain ⟨hs4, hf4, ho4, hu4, hk4, hd4⟩ := h4
  have hcell := cell_live t.size key v (t4.table i) hu4 hk4 hd4
  have hslot4 : ∀ j, SlotOk t.size (t4.table j) := by
    intro j
    by_cases hj : j = i
    · subst j
      exact hcell.1
    · rw [ho4 j hj]
      exact ht.slots j
  refine ⟨t5, rfl, hsz.trans hs4, hfl.trans hf4, fun j => ?_, ?_⟩
  · exact slotOk_congr _ _ _ (hent j).1 (hent j).2.1 (hent j).2.2 (hslot4 j)
  · rw [same_cells t4 t5 ⟨hsz, hfl, hent⟩]
    funext j
    by_cases hj : j = i
    · subst j
      simp [cells, hcell.2]
    · simp [cells, ho4 j hj, put_other _ _ _ _ hj]

/-- The slot that `_hdelete` leaves. -/
def buried (s : Slot) : Slot := ⟨-1, { s.entry with callback := none, flags := 0 }⟩

theorem hdelete_table (t : HTab) (i : ℕ) :
    (hdelete t i).table = (t.setSlot i (buried (t.table i))).table := rfl

theorem hdelete_written (t : HTab) (ht : Wf t) (t' : HTab) (hsame : SameContents t t') (i : ℕ) :
    Written t (hdelete t' i) i .tomb (wrap32 (t.filled+4294967295)) := by
  obtain ⟨hsz, hfl, hent⟩ := hsame
  refine ⟨hsz, by simp [hdelete, hfl], ?_, ?_⟩
  · rw [hdelete_table]
    refine slots_setSlot t.size t' i _ (fun j => ?_) (.inr (.inl rfl))
    exact slotOk_congr _ _ _ (hent j).1 (hent j).2.1 (hent j).2.2 (ht.slots j)
  · have hc := cells_setSlot t' i (buried (t'.table i))
    rw [same_cells t t' ⟨hsz, hfl, hent⟩] at hc
    unfold cells at hc ⊢
    rw [hdelete_table]
    exact hc

theorem written_wf (t t' : HTab) (ht : Wf t) (i : ℕ) (c : Cell CStr CStr) (f : ℕ)
    (hw : Written t t' i c f) (hs : Sound (order t.size ht.size) (put (cells t) i c)) : Wf t' :=
  wf_of_cells t t' ht hw.size hw.slots (by rw [hw.cells]; exact hs)

/-- A live entry that is written over is gone. -/
theorem replaced_absent (t t' : HTab) (ht : Wf t) (i : ℕ) (hi : 0 < i) (hin : i ≤ t.size)
    (key d : CStr) (hlive : cells t i = .live key d) (c : Cell CStr CStr) (f : ℕ)
    (hc : ∀ u, c ≠ .live key u) (hw : Written t t' i c f) : Absent t'.size (cells t') key := by
  rw [hw.size, hw.cells]
  rintro u ⟨j, hj, hjn, hl⟩
  by_cases hji : j = i
  · rw [hji, put_same] at hl
    exact hc u hl
  · rw [put_other _ _ _ _ hji] at hl
    exact hji (ht.sound.single j i key u d hj hjn hi hin hl hlive)

/-- A slot whose number is positive holds an entry. -/
theorem used_live (t : HTab) (ht : Wf t) (i : ℕ) (hu : 0 < (t.table i).used) :
    ∃ key d, cells t i = .live key d := by
  rcases ht.slots i with h0 | h0 | ⟨key, d, hk, hd, hu'⟩
  · omega
  · omega
  · exact ⟨key, d, (cell_live_iff t.size _ (ht.slots i) key d).mpr ⟨hu', hk, hd⟩⟩

theorem written_represents (t t' : HTab) (i : ℕ) (c : Cell CStr CStr) (f : ℕ) (m : EnvMap)
    (hw : Written t t' i c f) (hr : Represents t.size (put (cells t) i c) m) :
    Represents t'.size (cells t') m := by
  rw [hw.size, hw.cells]
  exact hr

/-! ## Operations and runs -/

inductive Op where
  | find (key : CStr)
  | enter (key value : CStr) (flag : ℕ)
  | delete (key : CStr) (flag : ℕ)
  deriving DecidableEq, Repr

/-- What the caller sees: the value found, or whether the call succeeded. -/
inductive Answer where
  | value (v : Option CStr)
  | entered (ok : Bool)
  | deleted (ok : Bool)
  deriving DecidableEq, Repr

def apply (h : Hooks) (t : HTab) : Op → Option (Answer × HTab)
  | .find key => (hsearchR h key none .find t 0).map fun r =>
      (.value (r.retval.bind fun i => (r.htab.table i).entry.data), r.htab)
  | .enter key value flag => (hsearchR h key (some value) .enter t flag).map fun r =>
      (.entered (r.ret ≠ 0), r.htab)
  | .delete key flag => (hdeleteR h key t flag).map fun r => (.deleted (r.ret ≠ 0), r.htab)

@[grind]
def run (h : Hooks) : List Op → HTab → Option (List Answer × HTab)
  | [], t => some ([], t)
  | op::ops, t => (apply h t op).bind fun (a, t') =>
      (run h ops t').map fun (as, t'') => (a::as, t'')

/-- A finite map with room for `cap` keys. -/
def mapApply (cap : ℕ) (m : EnvMap) : Op → Answer × EnvMap
  | .find key => (.value (m.lookup key), m)
  | .enter key value _ => if key ∈ m ∨ m.keys.card < cap
      then (.entered true, m.insert key value) else (.entered false, m)
  | .delete key _ => (.deleted (key ∈ m), m.erase key)

def mapRun (cap : ℕ) : List Op → EnvMap → List Answer × EnvMap
  | [], m => ([], m)
  | op::ops, m => ((mapApply cap m op).1::(mapRun cap ops (mapApply cap m op).2).1,
      (mapRun cap ops (mapApply cap m op).2).2)

/-- The state in which entering `key` destroys another entry: the key is new,
there is room, its home slot is in use and no slot is unused. -/
def Clobbers (t : HTab) (key : CStr) : Prop :=
  t.filled ≠ t.size ∧ 0 < (t.table (homeIndex t.size key)).used ∧
    ∀ i, 0 < i → i ≤ t.size → (t.table i).used ≠ 0 ∧
      (0 < (t.table i).used → (t.table i).entry.key ≠ some key)

def Avoids (t : HTab) : Op → Prop
  | .enter key _ _ => ¬ Clobbers t key
  | _ => True

/-- No step of the run enters a key in such a state. -/
def Clear (h : Hooks) : List Op → HTab → Prop
  | [], _ => True
  | op::ops, t => Avoids t op ∧ ∀ a t', apply h t op = some (a, t') → Clear h ops t'

theorem find_result (h : Hooks) (key : CStr) (data : Option CStr) (t : HTab) (m : EnvMap)
    (hm : Models t m) (flag : ℕ) :
    (∃ i d, 0 < i ∧ i ≤ t.size ∧ cells t i = .live key d ∧ m.lookup key = some d ∧
      hsearchR h key data .find t flag = some ⟨i, some i, t, none⟩) ∨
    (m.lookup key = none ∧ hsearchR h key data .find t flag = some (t.fail .esrch)) := by
  rcases search_cases h key data .find t hm.wf flag with
    ⟨i, d, hi, hin, hlive, hp⟩ | ⟨habs, idx, hp, -⟩
  · refine .inl ⟨i, d, hi, hin, hlive, represents_live _ _ hm.represents i key d hi hin hlive, ?_⟩
    have hmatch := (matches_iff t hm.wf key i).mpr ⟨d, hlive⟩
    unfold Matches at hmatch
    have hc : compareAndOverwriteEntry h key data .find t flag (homeIndex t.size key) i =
        some ⟨i, some i, t, none⟩ := by
      unfold compareAndOverwriteEntry
      rw [if_pos hmatch, if_neg (by simp)]
    simp only [hsearchR, hp, hc, Option.map_some]
  · exact .inr ⟨represents_absent _ _ hm.represents key habs, by simp only [hsearchR, hp]⟩

theorem find_models (h : Hooks) (key : CStr) (t : HTab) (m : EnvMap) (hm : Models t m) :
    apply h t (.find key) = some (.value (m.lookup key), t) := by
  rcases find_result h key none t m hm 0 with ⟨i, d, -, -, hlive, hl, hr⟩ | ⟨hl, hr⟩
  · obtain ⟨-, -, hd⟩ := (cell_live_iff t.size _ (hm.wf.slots i) key d).mp hlive
    simp [apply, hr, hl, hd]
  · simp [apply, hr, hl, HTab.fail]

theorem mem_of_live (t : HTab) (m : EnvMap) (hm : Models t m) (i : ℕ) (key d : CStr) (hi : 0 < i)
    (hin : i ≤ t.size) (hlive : cells t i = .live key d) : key ∈ m := by
  rw [← Finmap.lookup_isSome, represents_live _ _ hm.represents i key d hi hin hlive]
  rfl

theorem notMem_of_absent (t : HTab) (m : EnvMap) (hm : Models t m) (key : CStr)
    (habs : Absent t.size (cells t) key) : key ∉ m := by
  rw [← Finmap.lookup_isSome, represents_absent _ _ hm.represents key habs]
  simp

theorem keys_insert_card (m : EnvMap) (key v : CStr) :
    (m.insert key v).keys = insert key m.keys := by
  ext k
  simp [Finmap.mem_keys, Finmap.mem_insert]

theorem overwrite_models (t t' : HTab) (m : EnvMap) (hm : Models t m) (i : ℕ) (key d v : CStr)
    (hi : 0 < i) (hin : i ≤ t.size) (hlive : cells t i = .live key d)
    (hw : Written t t' i (.live key v) t.filled) : Models t' (m.insert key v) := by
  have hs := sound_rewrite (order t.size hm.wf.size) (cells t) hm.wf.sound i key d (.live key v)
    hlive (.inr ⟨v, rfl⟩)
  have hr := represents_insert (cells t) m hm.represents i key v hi hin
    (fun k w hk => by rw [hlive, Cell.live.injEq] at hk; exact hk.1.symm)
    (fun j w hj hjn hk => hm.wf.sound.single j i key w d hj hjn hi hin hk hlive)
  have hmem : key ∈ m.keys := Finmap.mem_keys.mpr (mem_of_live t m hm i key d hi hin hlive)
  refine ⟨written_wf t t' hm.wf i _ _ hw hs, written_represents t t' i _ _ _ hw hr, ?_, ?_⟩
  · rw [hw.filled, hm.filled, keys_insert_card, Finset.insert_eq_of_mem hmem]
  · rw [hw.filled, hw.size]
    exact hm.capacity

theorem create_models (t t' : HTab) (m : EnvMap) (hm : Models t m) (key v : CStr) (j : ℕ)
    (hj : j < t.size) (hcell : cells t (path t.size key j) = .free ∨ cells t (path t.size key j) = .tomb)
    (hpass : Passes (order t.size hm.wf.size) (cells t) key j)
    (habs : Absent t.size (cells t) key) (hroom : t.filled ≠ t.size)
    (hw : Written t t' (path t.size key j) (.live key v) (wrap32 (t.filled+1))) :
    Models t' (m.insert key v) := by
  have hs := sound_store (order t.size hm.wf.size) (cells t) hm.wf.sound key v j hj hpass habs
  have hr := represents_insert (cells t) m hm.represents (path t.size key j) key v
    (path_pos t.size hm.wf.size key j) (path_le t.size hm.wf.size key j)
    (fun k w hk => by rcases hcell with h | h <;> rw [h] at hk <;> cases hk)
    (fun i w hi hin hk => absurd ⟨i, hi, hin, hk⟩ (habs w))
  have hnew : key ∉ m.keys := mt Finmap.mem_keys.mp (notMem_of_absent t m hm key habs)
  have hb := hm.wf.size.bound
  have hc := hm.capacity
  have hwrap : wrap32 (t.filled+1) = t.filled+1 := Nat.mod_eq_of_lt (by omega)
  refine ⟨written_wf t t' hm.wf _ _ _ hw hs, written_represents t t' _ _ _ _ hw hr, ?_, ?_⟩
  · rw [hw.filled, hwrap, hm.filled, keys_insert_card, Finset.card_insert_of_notMem hnew]
  · rw [hw.filled, hw.size, hwrap]
    omega

theorem erase_models (t t' : HTab) (m : EnvMap) (hm : Models t m) (i : ℕ) (key d : CStr)
    (hi : 0 < i) (hin : i ≤ t.size) (hlive : cells t i = .live key d)
    (hw : Written t t' i .tomb (wrap32 (t.filled+4294967295))) : Models t' (m.erase key) := by
  have hs := sound_rewrite (order t.size hm.wf.size) (cells t) hm.wf.sound i key d .tomb
    hlive (.inl rfl)
  have hr := represents_erase (order t.size hm.wf.size) (cells t) m hm.wf.sound hm.represents
    i key d hi hin hlive
  have hmem : key ∈ m.keys := Finmap.mem_keys.mpr (mem_of_live t m hm i key d hi hin hlive)
  have hb := hm.wf.size.bound
  have hc := hm.capacity
  have hpos : 0 < m.keys.card := Finset.card_pos.mpr ⟨key, hmem⟩
  have hf := hm.filled
  have hwrap : wrap32 (t.filled+4294967295) = t.filled-1 := by
    unfold wrap32
    omega
  refine ⟨written_wf t t' hm.wf i _ _ hw hs, written_represents t t' i _ _ _ hw hr, ?_, ?_⟩
  · rw [hw.filled, hwrap, hm.filled, Finmap.keys_erase, Finset.card_erase_of_mem hmem]
  · rw [hw.filled, hw.size, hwrap]
    omega

/-- A key found absent is stored in the home slot if that is a tombstone, and
otherwise where the search stopped. -/
theorem enter_absent (h : Hooks) (ha : Accepting h) (key v : CStr) (flag : ℕ) (t : HTab) (ht : Wf t)
    (idx : ℕ) (hroom : t.filled ≠ t.size)
    (hp : probeFrom h key (some v) .enter t flag = some (.stop idx)) :
    ∃ t', hsearchR h key (some v) .enter t flag =
        some ⟨1, some (if firstDeleted t (homeIndex t.size key) ≠ 0
          then firstDeleted t (homeIndex t.size key) else idx), t', none⟩ ∧
      Written t t' (if firstDeleted t (homeIndex t.size key) ≠ 0
        then firstDeleted t (homeIndex t.size key) else idx) (.live key v) (wrap32 (t.filled+1)) := by
  obtain ⟨t', hc, hw⟩ := create_written h ha key v t ht flag
    (if firstDeleted t (homeIndex t.size key) ≠ 0
      then firstDeleted t (homeIndex t.size key) else idx)
  refine ⟨t', ?_, hw⟩
  simp only [hsearchR, hp]
  rw [if_neg hroom, hc]

/-- A full cycle for a new key with room, whose home slot is no tombstone. -/
theorem clobbers_of_cycle (t : HTab) (ht : Wf t) (key : CStr)
    (habs : Absent t.size (cells t) key) (hroom : t.filled ≠ t.size)
    (htomb : (t.table (homeIndex t.size key)).used ≠ -1)
    (hall : ∀ i, 0 < i → i ≤ t.size → (t.table i).used ≠ 0) : Clobbers t key := by
  refine ⟨hroom, ?_, fun i hi hin => ⟨hall i hi hin, fun hu hk => ?_⟩⟩
  · have hne := hall _ (home_pos t.size key) (home_lt t.size ht.size key).le
    rcases ht.slots (homeIndex t.size key) with h0 | h0 | ⟨k, d, -, -, h0⟩
    · exact absurd h0 hne
    · exact absurd h0 htomb
    · have := home_pos t.size k
      omega
  · rcases ht.slots i with h0 | h0 | ⟨k, d, hk', hd, h0⟩
    · omega
    · omega
    · rw [hk'] at hk
      obtain rfl := Option.some_inj.mp hk
      exact habs d ⟨i, hi, hin, (cell_live_iff t.size _ (ht.slots i) k d).mpr ⟨h0, hk', hd⟩⟩

theorem enter_models (h : Hooks) (ha : Accepting h) (key v : CStr) (flag : ℕ) (t : HTab)
    (m : EnvMap) (hm : Models t m) (hav : ¬ Clobbers t key) :
    ∃ t', apply h t (.enter key v flag) = some ((mapApply t.size m (.enter key v flag)).1, t') ∧
      t'.size = t.size ∧ Models t' (mapApply t.size m (.enter key v flag)).2 := by
  rcases search_cases h key (some v) .enter t hm.wf flag with
    ⟨i, d, hi, hin, hlive, hp⟩ | ⟨habs, idx, hp, hstop⟩
  · obtain ⟨t', hc, hw⟩ := overwrite_written h ha key d v t hm.wf flag i hlive
    have hmem := mem_of_live t m hm i key d hi hin hlive
    have hmap : mapApply t.size m (.enter key v flag) = (.entered true, m.insert key v) :=
      if_pos (.inl hmem)
    rw [hmap]
    refine ⟨t', ?_, hw.size, overwrite_models t t' m hm i key d v hi hin hlive hw⟩
    have hne : i ≠ 0 := by omega
    simp [apply, hsearchR, hp, hc, hne]
  · have hnew := notMem_of_absent t m hm key habs
    by_cases hfull : t.filled = t.size
    · have hmap : mapApply t.size m (.enter key v flag) = (.entered false, m) := by
        refine if_neg ?_
        rintro (h1 | h1)
        · exact hnew h1
        · rw [← hm.filled] at h1
          omega
      rw [hmap]
      refine ⟨t, ?_, rfl, hm⟩
      simp [apply, hsearchR, hp, hfull, HTab.fail]
    · have hmap : mapApply t.size m (.enter key v flag) = (.entered true, m.insert key v) := by
        refine if_pos (.inr ?_)
        rw [← hm.filled]
        have := hm.capacity
        omega
      rw [hmap]
      obtain ⟨t', hr, hw⟩ := enter_absent h ha key v flag t hm.wf idx hfull hp
      have happ : apply h t (.enter key v flag) = some (.entered true, t') := by
        simp [apply, hr]
      have hpos := home_pos t.size key
      have h5 := hm.wf.size.five
      by_cases htomb : (t.table (homeIndex t.size key)).used = -1
      · have hfd : firstDeleted t (homeIndex t.size key) = homeIndex t.size key := if_pos htomb
        rw [hfd, if_pos (by omega)] at hw
        have hcell : cells t (path t.size key 0) = .tomb := by
          change cell (t.table (homeIndex t.size key)) = _
          simp [cell, htomb]
        exact ⟨t', happ, hw.size, create_models t t' m hm key v 0 (by omega) (.inr hcell)
          (fun l hl => absurd hl (Nat.not_lt_zero l)) habs hfull hw⟩
      · have hfd : firstDeleted t (homeIndex t.size key) = 0 := if_neg htomb
        rw [hfd, if_neg (by simp)] at hw
        rcases hstop with ⟨j, hj, rfl, hfree, hpass⟩ | ⟨rfl, hall⟩
        · exact ⟨t', happ, hw.size, create_models t t' m hm key v j hj (.inl hfree) hpass habs hfull hw⟩
        · -- a full cycle with the home slot in use: the state that is excluded
          exact absurd (clobbers_of_cycle t hm.wf key habs hfull htomb hall) hav

theorem delete_models (h : Hooks) (ha : Accepting h) (key : CStr) (flag : ℕ) (t : HTab)
    (m : EnvMap) (hm : Models t m) :
    ∃ t', apply h t (.delete key flag) = some ((mapApply t.size m (.delete key flag)).1, t') ∧
      t'.size = t.size ∧ Models t' (mapApply t.size m (.delete key flag)).2 := by
  rcases find_result h key none t m hm 0 with ⟨i, d, hi, hin, hlive, hl, hr⟩ | ⟨hl, hr⟩
  · obtain ⟨t', hcb, hsame⟩ := accepting_runCallback h ha t i key none .delete flag
    have hmem := mem_of_live t m hm i key d hi hin hlive
    have hw := hdelete_written t hm.wf t' hsame i
    refine ⟨hdelete t' i, ?_, hw.size, erase_models t _ m hm i key d hi hin hlive hw⟩
    have hne : i ≠ 0 := by omega
    simp [apply, hdeleteR, hr, hne, accepting_denied h ha, hcb, mapApply, hmem]
  · have hnew : key ∉ m := by
      rw [← Finmap.lookup_isSome, hl]
      simp
    have herase : m.erase key = m := by
      refine Finmap.ext_lookup fun k => ?_
      by_cases hk : k = key
      · subst k
        rw [Finmap.lookup_erase, hl]
      · rw [Finmap.lookup_erase_ne hk]
    refine ⟨t, ?_, rfl, ?_⟩
    · simp [apply, hdeleteR, hr, HTab.fail, mapApply, hnew]
    · simpa [mapApply, herase] using hm

/-- One operation, from any table that models a map. -/
theorem step_models (h : Hooks) (ha : Accepting h) (op : Op) (t : HTab) (m : EnvMap)
    (hm : Models t m) (hav : Avoids t op) :
    ∃ t', apply h t op = some ((mapApply t.size m op).1, t') ∧ t'.size = t.size ∧
      Models t' (mapApply t.size m op).2 := by
  cases op with
  | find key => exact ⟨t, find_models h key t m hm, rfl, hm⟩
  | enter key value flag => exact enter_models h ha key value flag t m hm hav
  | delete key flag => exact delete_models h ha key flag t m hm

theorem run_models (h : Hooks) (ha : Accepting h) (ops : List Op) (t : HTab) (m : EnvMap)
    (hm : Models t m) (hc : Clear h ops t) :
    ∃ t', run h ops t = some ((mapRun t.size ops m).1, t') ∧ t'.size = t.size ∧
      Models t' (mapRun t.size ops m).2 := by
  induction ops generalizing t m with
  | nil => exact ⟨t, rfl, rfl, hm⟩
  | cons op ops ih =>
    obtain ⟨t1, h1, hs1, hm1⟩ := step_models h ha op t m hm hc.1
    obtain ⟨t2, h2, hs2, hm2⟩ := ih t1 _ hm1 (hc.2 _ t1 h1)
    rw [hs1] at h2 hm2
    refine ⟨t2, ?_, hs2.trans hs1, hm2⟩
    simp [run, h1, h2, mapRun]

/-- From a fresh table, every run of operations that avoids the excluded state
gives the answers of a finite map of capacity `size`, and its final table
represents the final map. -/
theorem hashtable_refines_map (h : Hooks) (ha : Accepting h) (n : ℕ) (hn : 2 ≤ n)
    (hb : n < 1073741824) (t : HTab) (hcreate : hcreateR n = some t) (ops : List Op)
    (hclear : Clear h ops t) :
    ∃ t', run h ops t = some ((mapRun t.size ops ∅).1, t') ∧
      Represents t.size (cells t') (mapRun t.size ops ∅).2 ∧
      t'.filled = (mapRun t.size ops ∅).2.keys.card := by
  obtain ⟨t', hr, hs, hm⟩ := run_models h ha ops t ∅ (created_models n hn hb t hcreate) hclear
  have hrep := hm.represents
  rw [hs] at hrep
  exact ⟨t', hr, hrep, hm.filled⟩

/-- No attributes and no refusals. -/
def permissive : Hooks := ⟨fun _ => true, fun _ _ => none, fun _ _ => 0, none, fun _ t _ _ _ _ => some t⟩

theorem permissive_accepting : Accepting permissive := by
  refine ⟨fun _ => rfl, ?_, fun _ t _ _ _ _ => ⟨t, rfl, SameContents.refl t⟩⟩
  intro f hf
  cases hf

def emptyTable (size : ℕ) : HTab := ⟨fun _ => blank, size, 0⟩

theorem hcreateR_two : hcreateR 2 = some (emptyTable 5) := by rfl

theorem hashtable_refines_map_short :
    ∃ t', run permissive [.enter [97] [49] 0, .find [97]] (emptyTable 5) =
        some ((mapRun 5 [.enter [97] [49] 0, .find [97]] ∅).1, t') ∧
      Represents 5 (cells t') (mapRun 5 [.enter [97] [49] 0, .find [97]] ∅).2 ∧
      t'.filled = (mapRun 5 [.enter [97] [49] 0, .find [97]] ∅).2.keys.card := by
  apply hashtable_refines_map permissive permissive_accepting 2 (by decide) (by decide)
    (emptyTable 5) hcreateR_two
  refine ⟨fun hc => ?_, fun _ _ _ => ⟨trivial, fun _ _ _ => trivial⟩⟩
  exact absurd hc.2.1 (by decide)

/-- Five keys fill a table of five slots, slot 5 is freed by deleting
`e`, and `f`, whose home is the slot of `a`, is entered. -/
def clobberRun : List Op :=
  [.enter [97] [49] 0, .enter [98] [50] 0, .enter [99] [51] 0, .enter [100] [52] 0,
   .enter [101] [53] 0, .delete [101] 0, .enter [102] [54] 0, .find [97]]

/-- The last search does not find `a`, which was never deleted. -/
theorem clobberRun_loses_entry :
    Accepting permissive ∧ hcreateR 2 = some (emptyTable 5) ∧
    ((run permissive clobberRun (emptyTable 5)).map fun r => r.1.getLast?) =
      some (some (.value none)) ∧
    (mapRun 5 clobberRun ∅).1.getLast? = some (.value (some [49])) := by
  refine ⟨permissive_accepting, hcreateR_two, ?_, ?_⟩
  · decide +kernel
  · decide +kernel

end UBoot.HashTable
