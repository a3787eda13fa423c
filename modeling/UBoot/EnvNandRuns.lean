import UBoot.EnvNand

/-!
# Which environment is loaded from NAND flash

A run is any number of boots and of saves, of which any erase or write may
fail or be cut. The two copies are one: the environment saved last is loaded
if each save leaves the first range alone or replaces it completely.
-/

set_option autoImplicit false

namespace UBoot.EnvNand
open UBoot.PowerCut

variable (cfg : Config) (bad : ℕ → Bool) (crc32 : List UInt8 → UInt32)

/-- The board: its flash, U-Boot's variables while it runs, and the environment of the last
`saveenv` that returned success. -/
structure Board where
  mem : Memory
  session : Option Session
  latest : Option (List UInt8)

/-- How far a save gets: it is cut before its first write, a write fails or is cut, or all are
done. -/
inductive Ending where
  | erasing | writing | completed
  deriving DecidableEq, Repr

/-- Erasing changes the target range only; a block whose erase fails is left as it may be, and
`nand_erase_opts` goes on. -/
def EraseStage (s : Session) (mem mem1 : Memory) : Prop :=
  Within (target cfg s)
    (target cfg s+(cfg.envRange+cfg.erasesize-1)/cfg.erasesize*cfg.erasesize) mem mem1

/-- The runs whose saves meet a condition on the variables, the flash before the save and after
the erase, the image, and how far the save gets. -/
inductive Reached (ok : Session → Memory → Memory → Image → Ending → Prop) : Board → Prop
  | start (mem : Memory) : Reached ok ⟨mem, none, none⟩
  | boot (mem : Memory) (latest : Option (List UInt8)) (buf1 buf2 : Image) :
      Reached ok ⟨mem, none, latest⟩ →
      Reached ok ⟨mem, some (envRelocateSpec cfg bad crc32 mem buf1 buf2 fresh).1, latest⟩
  | reset (mem : Memory) (s : Session) (latest : Option (List UInt8)) :
      Reached ok ⟨mem, some s, latest⟩ → Reached ok ⟨mem, none, latest⟩
  | eraseCut (mem mem1 : Memory) (s : Session) (latest : Option (List UInt8)) (data : List UInt8) :
      Reached ok ⟨mem, some s, latest⟩ → EraseStage cfg s mem mem1 →
      ok s mem mem1 (image crc32 s.raised.envFlags data) .erasing → Reached ok ⟨mem1, none, latest⟩
  | saved (mem mem1 : Memory) (s : Session) (latest : Option (List UInt8)) (data : List UInt8)
      (w : List Write × Bool) : Reached ok ⟨mem, some s, latest⟩ → data.length+5 = cfg.envSize →
      EraseStage cfg s mem mem1 → ok s mem mem1 (image crc32 s.raised.envFlags data) .completed →
      writeenv cfg bad (target cfg s) (image crc32 s.raised.envFlags data) = w →
      Reached ok ⟨runAll Write.apply w.1 mem1, some (if w.2 then s.raised.toggled else s.raised),
        if w.2 then some data else latest⟩
  | writeFailed (mem mem1 mem2 : Memory) (s : Session) (latest : Option (List UInt8))
      (data : List UInt8) (session : Option Session) : Reached ok ⟨mem, some s, latest⟩ →
      data.length+5 = cfg.envSize → EraseStage cfg s mem mem1 →
      ok s mem mem1 (image crc32 s.raised.envFlags data) .writing →
      Cut Write.apply Write.torn
        (writeenv cfg bad (target cfg s) (image crc32 s.raised.envFlags data)).1 mem1 mem2 →
      session = none ∨ session = some s.raised → Reached ok ⟨mem2, session, latest⟩

/-- A save that was to go to the redundant range stops before it writes, or finds all bits set in
the first range that its image has set; one that goes to the first range is done. -/
def Spared (s : Session) (mem mem1 : Memory) (img : Image) : Ending → Prop
  | .erasing => s.envValid = 1
  | .writing => False
  | .completed =>
    if s.envValid = 1 then
      List.zipWith (· &&& ·) (readBlocks cfg mem (area cfg bad)) img = img
    else mem1 = eraseArea cfg bad cfg.envOffset mem

/-! ## Images -/

theorem length_le32 (x : UInt32) : (le32 x).length = 4 := rfl

theorem length_image (flags : UInt8) (data : List UInt8) :
    (image crc32 flags data).length = data.length+5 := by
  rw [image, List.length_append, length_le32, List.length_cons]
  omega

theorem dataOf_image (flags : UInt8) (data : List UInt8) :
    dataOf (image crc32 flags data) = data := by
  simp [dataOf, image, le32]

theorem crcOk_image (flags : UInt8) (data : List UInt8) :
    crcOk crc32 (image crc32 flags data) = true := by
  unfold crcOk
  rw [dataOf_image]
  simp [image, le32]

theorem erased_and (buf : Image) :
    List.zipWith (· &&& ·) (List.replicate buf.length 0xff) buf = buf := by
  induction buf with
  | nil => rfl
  | cons x buf ih =>
    rw [List.length_cons, List.replicate_succ, List.zipWith_cons_cons, ih]
    congr 1
    exact UInt8.neg_one_and

theorem newer_self (f : UInt8) : newer f f = 1 := by
  unfold newer
  by_cases h : f = 255 ∧ f = 0
  · exact absurd (h.1.symm.trans h.2) (by decide)
  · rw [if_neg h, if_neg h, if_neg (UInt8.lt_irrefl f), if_neg (UInt8.lt_irrefl f)]

/-- A good image in the first range is loaded, whatever the buffers and variables were. -/
theorem load_image (hr : Roomy cfg bad) (mem : Memory) (flags : UInt8) (data : List UInt8)
    (h : readBlocks cfg mem (area cfg bad) = image crc32 flags data) (buf1 buf2 : Image)
    (s : Session) : (envRelocateSpec cfg bad crc32 mem buf1 buf2 s).2 = some data := by
  simp only [envRelocateSpec, readenv_eq cfg bad hr mem _ (.inl rfl),
    readenv_eq cfg bad hr mem _ (.inr rfl), h, crcOk_image, newer_self, dataOf_image,
    Bool.true_eq_false, and_false, false_and, if_false, if_true]

/-! ## Runs -/

/-- The first range holds the environment saved last. -/
def Holds (b : Board) : Prop := ∀ e, b.latest = some e →
  ∃ flags, readBlocks cfg b.mem (area cfg bad) = image crc32 flags e

section Save

variable (mem mem1 : Memory) (s : Session)

theorem erase_redund (h : EraseStage cfg s mem mem1) (hv : s.envValid = 1) :
    readBlocks cfg mem1 (area cfg bad) = readBlocks cfg mem (area cfg bad) := by
  unfold EraseStage target at h
  rw [if_pos hv] at h
  exact read_within_redund cfg bad mem mem1 _ h

theorem saved_image (hr : Roomy cfg bad) (img : Image) (hl : img.length = cfg.envSize)
    (he : EraseStage cfg s mem mem1) (hok : Spared cfg bad s mem mem1 img .completed) :
    readBlocks cfg (runAll Write.apply (writes cfg (area cfg bad) img) mem1) (area cfg bad) = img := by
  rw [read_write cfg _ _ _ (area_pairwise cfg bad) (by rw [area_length cfg bad hr, hl])]
  unfold Spared at hok
  simp only at hok
  by_cases hv : s.envValid = 1
  · rw [if_pos hv] at hok
    rw [erase_redund cfg bad mem mem1 s he hv]
    exact hok
  · rw [if_neg hv] at hok
    rw [hok, read_erased cfg bad hr, ← hl]
    exact erased_and img

end Save

theorem target_cases (s : Session) :
    target cfg s = cfg.envOffset ∨ target cfg s = cfg.envOffsetRedund := by
  unfold target
  split_ifs
  · exact .inr rfl
  · exact .inl rfl

/-- In every run whose saves spare the first range or replace it, the environment of the last
`saveenv` that returned success is loaded. -/
theorem latest_saved_loaded (hr : Roomy cfg bad) (b : Board)
    (h : Reached cfg bad crc32 (Spared cfg bad) b) (e : List UInt8) (he : b.latest = some e)
    (buf1 buf2 : Image) (s : Session) :
    (envRelocateSpec cfg bad crc32 b.mem buf1 buf2 s).2 = some e := by
  have hholds : Holds cfg bad crc32 b := by
    clear he
    induction h with
    | start mem =>
      intro e he
      cases he
    | boot mem latest buf1 buf2 _ ih => exact ih
    | reset mem s latest _ ih => exact ih
    | eraseCut mem mem1 s latest data _ hst hok ih =>
      intro e he
      obtain ⟨flags, hf⟩ := ih e he
      exact ⟨flags, (erase_redund cfg bad mem mem1 s hst hok).trans hf⟩
    | saved mem mem1 s latest data w _ hd hst hok hw ih =>
      intro e he
      rw [writeenv_eq cfg bad hr _ (target_cases cfg s)] at hw
      subst hw
      simp only [if_true] at he
      cases he
      exact ⟨_, saved_image cfg bad mem mem1 s hr _ (by rw [length_image, hd]) hst hok⟩
    | writeFailed mem mem1 mem2 s latest data session _ _ _ hok => exact absurd hok id
  obtain ⟨flags, hf⟩ := hholds e he
  exact load_image cfg bad crc32 hr b.mem flags e hf buf1 buf2 s

/-! ## One block of eight bytes -/

def smallConfig : Config :=
  ⟨0, 8, 8, 8, 8, Nat.succ_pos _, by decide, by decide, by decide⟩

def allGood : ℕ → Bool := fun _ => false

def crc (data : List UInt8) : UInt32 := Crc32.crc32 0 data

def blankMemory : Memory := fun _ => 0xff

theorem erase_within (s : Session) (mem : Memory) :
    EraseStage smallConfig s mem (eraseArea smallConfig allGood (target smallConfig s) mem) := by
  intro a ha
  have hout : inErased smallConfig allGood (target smallConfig s) a = false := by
    simp only [inErased]
    rw [decide_eq_false (by omega), Bool.false_and]
  simp only [eraseArea, hout, Bool.false_eq_true, if_false]

/-- A first boot, with nothing to load. -/
theorem first_boot (ok : Session → Memory → Memory → Image → Ending → Prop) :
    Reached smallConfig allGood crc ok ⟨blankMemory, some fresh, none⟩ := by
  have h := Reached.boot _ _ [] [] (.start blankMemory : Reached smallConfig allGood crc ok _)
  have hs : (envRelocateSpec smallConfig allGood crc blankMemory [] [] fresh).1 = fresh := by
    decide +kernel
  rw [hs] at h
  exact h

/-- Two saves on an erased flash. -/
theorem latest_saved_loaded_twice : ∃ b,
    Reached smallConfig allGood crc (Spared smallConfig allGood) b ∧ b.latest = some [4, 5, 6] ∧
    (envRelocateSpec smallConfig allGood crc b.mem [] [] fresh).2 = some [4, 5, 6] := by
  have h1 := (first_boot (Spared smallConfig allGood)).saved _ _ _ _ [1, 2, 3] _ rfl
    (erase_within _ _) (by
      show List.zipWith _ _ _ = _
      decide +kernel) rfl
  have h2 := h1.saved _ _ _ _ [4, 5, 6] _ rfl (erase_within _ _) rfl rfl
  exact ⟨_, h2, by decide +kernel,
    latest_saved_loaded smallConfig allGood crc (by unfold Roomy; decide +kernel) _ h2 _
      (by decide +kernel) [] [] fresh⟩

/-- No erase and no write fails or is cut. -/
def Undisturbed (s : Session) (mem mem1 : Memory) (_ : Image) (ending : Ending) : Prop :=
  ending = .completed ∧ mem1 = eraseArea cfg bad (target cfg s) mem

/-- A save after a reboot is written over the copy that was loaded. -/
theorem saved_over_old : ¬∀ b,
    Reached smallConfig allGood crc (Undisturbed smallConfig allGood) b →
    ∀ e, b.latest = some e → ∀ buf1 buf2 s,
      (envRelocateSpec smallConfig allGood crc b.mem buf1 buf2 s).2 = some e := by
  intro hall
  have h1 := (first_boot (Undisturbed smallConfig allGood)).saved _ _ _ _ [1, 2, 3] _ rfl
    (erase_within _ _) ⟨rfl, rfl⟩ rfl
  have h2 := Reached.boot _ _ [] [] (h1.reset _ _ _)
  have h3 := h2.saved _ _ _ _ [4, 5, 6] _ rfl (erase_within _ _) ⟨rfl, rfl⟩ rfl
  have hload := hall _ h3 [4, 5, 6] (by decide +kernel) [] [] fresh
  exact absurd hload (by decide +kernel)

end UBoot.EnvNand
