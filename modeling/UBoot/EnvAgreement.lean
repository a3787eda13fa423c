import UBoot.EnvSpi

/-!
# The copy that U-Boot takes and the copy that `tools/env` takes

The Linux tool opens the same two copies, with its own table over their
checksums and flags. It writes the copy that it did not open and then marks
the other one, as U-Boot does. The tables differ on two good copies that are
both active, which is what a cut between these writes leaves.
-/

set_option autoImplicit false

namespace UBoot.EnvAgreement
open UBoot.PowerCut UBoot.EnvSpi

variable {n m : ℕ}

/-! ## `tools/env/fw_env.c` with boolean flags -/

def fwChoose (flag0 flag1 : UInt8) : Copy :=
  if flag0 = activeFlag ∧ flag1 = obsoleteFlag then .first
  else if flag0 = obsoleteFlag ∧ flag1 = activeFlag then .second
  else if flag0 = flag1 then .first
  else if flag0 = 0xff then .first
  else if flag1 = 0xff then .second
  else .first

/-- `fw_env_open`: the current device, and whether its data is replaced by the default. -/
def fwEnvOpen (crc32 : Data n → UInt32) (f : Flash n m) : Copy × Bool :=
  if f.first.ok crc32 ∧ ¬f.second.ok crc32 then (.first, false)
  else if ¬f.first.ok crc32 ∧ f.second.ok crc32 then (.second, false)
  else if ¬f.first.ok crc32 ∧ ¬f.second.ok crc32 then (.first, true)
  else (fwChoose f.first.flags f.second.flags, false)

/-- `flash_write` of edited data, with the checksum from `fw_env_close`. The block is read first
and written back behind the environment. -/
def flashWrite (crc32 : Data n → UInt32) (f : Flash n m) (data : Data n) : List (FlashOp n m) :=
  let current := (fwEnvOpen crc32 f).1
  let target := current.other
  [.erase target, .writeEnv target (crc32 data) activeFlag data] ++
    (if 0 < m then [.writeRest target (f.get target).rest] else []) ++
    [.writeFlags current obsoleteFlag]

theorem flashWrite_replaces (crc32 : Data n → UInt32) (f : Flash n m) (data : Data n) :
    Replaces crc32 (fwEnvOpen crc32 f).1 data (flashWrite crc32 f data) := by
  unfold flashWrite
  simp only
  split_ifs with hm
  · exact ⟨[.writeRest (fwEnvOpen crc32 f).1.other _], rfl, by simp⟩
  · exact ⟨[], rfl, by simp⟩

/-! ## Agreement -/

/-- If there is a good copy, both take the same one. -/
def Agree (crc32 : Data n → UInt32) (f : Flash n m) : Prop :=
  f.first.ok crc32 ∨ f.second.ok crc32 → (load crc32 f).1 = (fwEnvOpen crc32 f).1.number

theorem choose_eq (f1 f2 : UInt8) :
    choose f1 f2 = if f1 = activeFlag ∧ f2 = obsoleteFlag then 1 else 2 := by
  unfold choose
  split_ifs <;> rfl

/-- The pairs of flags on which the tables agree. -/
theorem tables_agree (f1 f2 : UInt8) : choose f1 f2 = (fwChoose f1 f2).number ↔
    f1 = activeFlag ∧ f2 = obsoleteFlag ∨ f1 = obsoleteFlag ∧ f2 = activeFlag ∨
      f1 ≠ 0xff ∧ f2 = 0xff := by
  rw [choose_eq]
  unfold fwChoose
  by_cases h1 : f1 = activeFlag ∧ f2 = obsoleteFlag
  · simp [h1, Copy.number]
  by_cases h2 : f1 = obsoleteFlag ∧ f2 = activeFlag
  · rw [if_neg h1, if_neg h1, if_pos h2]
    simp [h2, Copy.number]
  rw [if_neg h1, if_neg h1, if_neg h2]
  simp only [h1, h2, false_or]
  by_cases h3 : f1 = f2
  · rw [if_pos h3, h3]
    simp [Copy.number]
  rw [if_neg h3]
  by_cases h4 : f1 = 0xff
  · rw [if_pos h4]
    simp [Copy.number, h4]
  rw [if_neg h4]
  by_cases h5 : f2 = 0xff
  · rw [if_pos h5]
    simp [Copy.number, h4, h5]
  · rw [if_neg h5]
    simp [Copy.number, h5]

section

variable (crc32 : Data n → UInt32) (f : Flash n m) (c : Copy)

theorem agree_both (h1 : f.first.ok crc32) (h2 : f.second.ok crc32) : Agree crc32 f ↔
    choose f.first.flags f.second.flags = (fwChoose f.first.flags f.second.flags).number := by
  simp [Agree, load_both crc32 f h1 h2, fwEnvOpen, h1, h2]

theorem agree_single (h : ¬(f.get c).ok crc32) : Agree crc32 f := by
  intro hvalid
  cases c with
  | first =>
    have h1 : ¬f.first.ok crc32 := h
    have h2 : f.second.ok crc32 := hvalid.resolve_left h1
    rw [load_single crc32 f .second h2 h1]
    simp [fwEnvOpen, h1, h2]
  | second =>
    have h2 : ¬f.second.ok crc32 := h
    have h1 : f.first.ok crc32 := hvalid.resolve_right h2
    rw [load_single crc32 f .first h1 h2]
    simp [fwEnvOpen, h1, h2]

/-- The old copy is marked: obsolete, or, as the second one, with flags that were never written. -/
def Marked : Prop :=
  (f.get c).flags = obsoleteFlag ∨ c = .second ∧ (f.get c).flags = 0xff

theorem agree_marked (ha : (f.get c.other).flags = activeFlag) (hm : Marked f c) :
    Agree crc32 f := by
  by_cases h1 : f.first.ok crc32
  · by_cases h2 : f.second.ok crc32
    · rw [agree_both crc32 f h1 h2, tables_agree]
      cases c with
      | first =>
        have hfirst : f.first.flags = obsoleteFlag := hm.resolve_right (by simp)
        exact .inr (.inl ⟨hfirst, ha⟩)
      | second =>
        have hactive : f.first.flags = activeFlag := ha
        rcases hm with hm | ⟨-, hm⟩
        · exact .inl ⟨hactive, hm⟩
        · exact .inr (.inr ⟨by rw [hactive]; decide, hm⟩)
    · exact agree_single crc32 f .second h2
  · exact agree_single crc32 f .first h1

end

/-! ## Runs of both -/

/-- The board over time: the flash, and `gd->env_valid` while U-Boot runs. The tool runs when
U-Boot does not. A condition on the cuts is given the copy that is replaced, the new data, and
the flash before the write and after the cut. -/
inductive Reached (crc32 : Data n → UInt32)
    (ok : Copy → Data n → Flash n m → Flash n m → Prop) : Flash n m → Option ℕ → Prop
  | start (f : Flash n m) (h : Agree crc32 f) : Reached crc32 ok f none
  | boot (f : Flash n m) : Reached crc32 ok f none → Reached crc32 ok f (some (load crc32 f).1)
  | leave (f : Flash n m) (v : ℕ) : Reached crc32 ok f (some v) → Reached crc32 ok f none
  | save (f : Flash n m) (v : ℕ) (data : Data n) (buffer : Option (Data m))
      (ops : List (FlashOp n m)) : Reached crc32 ok f (some v) →
      saveenv crc32 v (some data) buffer = some ops →
      Reached crc32 ok (runAll FlashOp.apply ops f) (some (toggled v))
  | saveCut (f : Flash n m) (c : Copy) (data : Data n) (buffer : Option (Data m))
      (ops : List (FlashOp n m)) (f' : Flash n m) : Reached crc32 ok f (some c.number) →
      saveenv crc32 c.number (some data) buffer = some ops →
      Cut FlashOp.apply (FlashOp.torn crc32) ops f f' → ok c data f f' → Reached crc32 ok f' none
  | tool (f : Flash n m) (data : Data n) : Reached crc32 ok f none →
      Reached crc32 ok (runAll FlashOp.apply (flashWrite crc32 f data) f) none
  | toolCut (f : Flash n m) (data : Data n) (f' : Flash n m) : Reached crc32 ok f none →
      Cut FlashOp.apply (FlashOp.torn crc32) (flashWrite crc32 f data) f f' →
      ok (fwEnvOpen crc32 f).1 data f f' → Reached crc32 ok f' none

/-- A cut does not come when the new copy is complete and the old one is good but not marked. -/
def OutsideWindow (crc32 : Data n → UInt32) (c : Copy) (data : Data n) (f f' : Flash n m) : Prop :=
  Written crc32 c data f' → (f.get c).ok crc32 → Marked f' c

section

variable (crc32 : Data n → UInt32) (c : Copy) (data : Data n) (f : Flash n m)

theorem agree_run (ops : List (FlashOp n m)) (h : Replaces crc32 c data ops) :
    Agree crc32 (runAll FlashOp.apply ops f) := by
  obtain ⟨hw, hold⟩ := replaces_run crc32 c data f ops h
  exact agree_marked crc32 _ c hw.flags (.inl hold)

theorem agree_cut (hblank : ¬(erased : Sector n m).ok crc32) (hf : Agree crc32 f)
    (ops : List (FlashOp n m)) (h : Replaces crc32 c data ops) (f' : Flash n m)
    (hcut : Cut FlashOp.apply (FlashOp.torn crc32) ops f f')
    (hout : OutsideWindow crc32 c data f f') : Agree crc32 f' := by
  rcases replaces_cut crc32 c data f hblank ops h f' hcut with rfl | ⟨x, hx, rfl⟩ | ⟨hw, hd, hcrc⟩
  · exact hf
  · exact agree_single crc32 _ c.other (by simpa using hx)
  · by_cases hok : (f.get c).ok crc32
    · exact agree_marked crc32 f' c hw.flags (hout hw hok)
    · refine agree_single crc32 f' c ?_
      unfold Sector.ok at hok ⊢
      rw [hd, hcrc]
      exact hok

end

/-- `gd->env_valid` is the number of a copy. -/
theorem reached_number (crc32 : Data n → UInt32)
    (ok : Copy → Data n → Flash n m → Flash n m → Prop) (f : Flash n m) (s : Option ℕ)
    (h : Reached crc32 ok f s) : ∀ v, s = some v → ∃ c : Copy, v = c.number := by
  induction h with
  | boot f _ _ =>
    intro v hv
    cases hv
    rcases load_cases crc32 f with ⟨-, -, hl⟩ | ⟨c, -, hl⟩
    · exact ⟨.first, by rw [hl]; rfl⟩
    · exact ⟨c, by rw [hl]⟩
  | save f v data buffer ops _ _ ih =>
    intro v' hv
    cases hv
    obtain ⟨c, rfl⟩ := ih v rfl
    exact ⟨c.other, toggled_number c⟩
  | start | leave | saveCut | tool | toolCut =>
    intro v hv
    cases hv

/-- Both take the same copy in every run whose cuts stay outside the window. -/
theorem same_copy_chosen (crc32 : Data n → UInt32) (hblank : ¬(erased : Sector n m).ok crc32)
    (f : Flash n m) (s : Option ℕ) (h : Reached crc32 (OutsideWindow crc32) f s) :
    Agree crc32 f := by
  induction h with
  | start f h => exact h
  | boot f _ ih => exact ih
  | leave f v _ ih => exact ih
  | save f v data buffer ops hr hs ih =>
    obtain ⟨c, rfl⟩ := reached_number crc32 _ f _ hr v rfl
    exact agree_run crc32 c data f ops (saveenv_replaces crc32 c data buffer ops hs)
  | saveCut f c data buffer ops f' _ hs hcut hout ih =>
    exact agree_cut crc32 c data f hblank ih ops (saveenv_replaces crc32 c data buffer ops hs) f'
      hcut hout
  | tool f data _ ih => exact agree_run crc32 _ data f _ (flashWrite_replaces crc32 f data)
  | toolCut f data f' _ hcut hout ih =>
    exact agree_cut crc32 _ data f hblank ih _ (flashWrite_replaces crc32 f data) f' hcut hout

/-- The checksum of one byte. -/
def crcByte (d : Data 1) : UInt32 := Crc32.crc32 0 (List.ofFn d)

def blankFlash : Flash 1 0 := ⟨erased, erased⟩

theorem blank_agree : Agree crcByte blankFlash :=
  agree_single crcByte blankFlash .first (by decide)

/-- U-Boot saves, Linux edits, and both open the new copy. -/
theorem same_copy_chosen_edited : ∃ f : Flash 1 0, Reached crcByte (OutsideWindow crcByte) f none ∧
    f.first.ok crcByte ∧ f.second.ok crcByte ∧ Agree crcByte f := by
  have h1 := Reached.boot _ (.start blankFlash blank_agree :
    Reached crcByte (OutsideWindow crcByte) blankFlash none)
  have h2 := Reached.leave _ _ (h1.save _ _ (fun _ => 5) none _ rfl)
  have h3 := h2.tool _ (fun _ => 7)
  exact ⟨_, h3, by decide +kernel, by decide +kernel,
    same_copy_chosen crcByte (by decide +kernel) _ _ h3⟩

/-- A save that is cut before the old copy is marked leaves two active copies: U-Boot takes the
second one and the tool the first one. -/
theorem two_active_copies_differ : ¬∀ (f : Flash 1 0) (s : Option ℕ),
    Reached crcByte (fun _ _ _ _ => True) f s → Agree crcByte f := by
  intro hall
  have h1 := Reached.boot _ (.start blankFlash blank_agree :
    Reached crcByte (fun _ _ _ _ => True) blankFlash none)
  have h2 := h1.save _ _ (fun _ => 5) none _ rfl
  have h3 := h2.saveCut _ .second (fun _ => 7) none _ _ rfl
    (.later _ _ _ _ (.later _ _ _ _ (.between _ _))) trivial
  have hagree := hall _ _ h3
  rw [agree_both crcByte _ (by decide +kernel) (by decide +kernel)] at hagree
  exact absurd hagree (by decide +kernel)

end UBoot.EnvAgreement
