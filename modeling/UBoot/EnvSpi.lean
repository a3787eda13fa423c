import UBoot.Crc32
import UBoot.PowerCut

/-!
# The redundant environment in SPI flash: `common/env_sf.c`

Each of the two copies has its own erase sectors. A copy is the checksum, the
flags and `n` bytes of data; the sector goes on with `m` bytes that are not of
the environment. Erasing sets all bits, and writing clears bits only.
-/

set_option autoImplicit false

namespace UBoot.EnvSpi
open UBoot.PowerCut

/-- The data of an environment, `ENV_SIZE` bytes. -/
abbrev Data (n : ℕ) := Fin n → UInt8

/-- `env_t`, and what is in the sector behind it. -/
structure Sector (n m : ℕ) where
  crc : UInt32
  flags : UInt8
  data : Data n
  rest : Data m

inductive Copy where
  | first | second
  deriving DecidableEq, Repr

structure Flash (n m : ℕ) where
  first : Sector n m
  second : Sector n m

def activeFlag : UInt8 := 1
def obsoleteFlag : UInt8 := 0

section

variable {n m : ℕ}

def Flash.get (f : Flash n m) : Copy → Sector n m
  | .first => f.first
  | .second => f.second

def Flash.set (f : Flash n m) (c : Copy) (x : Sector n m) : Flash n m :=
  match c with
  | .first => { f with first := x }
  | .second => { f with second := x }

/-! ## Flash operations -/

inductive FlashOp (n m : ℕ) where
  | erase (c : Copy)
  | writeEnv (c : Copy) (crc : UInt32) (flags : UInt8) (data : Data n)
  | writeRest (c : Copy) (rest : Data m)
  | writeFlags (c : Copy) (flags : UInt8)

def erased : Sector n m := ⟨0xffffffff, 0xff, fun _ => 0xff, fun _ => 0xff⟩

@[grind]
def FlashOp.apply (op : FlashOp n m) (f : Flash n m) : Flash n m :=
  match op with
  | .erase c => f.set c erased
  | .writeEnv c crc flags data =>
    let x := f.get c
    f.set c ⟨x.crc &&& crc, x.flags &&& flags, fun i => x.data i &&& data i, x.rest⟩
  | .writeRest c rest =>
    let x := f.get c
    f.set c { x with rest := fun i => x.rest i &&& rest i }
  | .writeFlags c flags =>
    let x := f.get c
    f.set c { x with flags := x.flags &&& flags }

/-- The checksum of a copy is right. -/
def Sector.ok (crc32 : Data n → UInt32) (x : Sector n m) : Prop := crc32 x.data = x.crc

instance (crc32 : Data n → UInt32) (x : Sector n m) : Decidable (x.ok crc32) :=
  inferInstanceAs (Decidable (_ = _))

/-- What an operation that is cut may leave: a copy that is torn fails its checksum. -/
@[grind]
def FlashOp.torn (crc32 : Data n → UInt32) (op : FlashOp n m) (f f' : Flash n m) : Prop :=
  match op with
  | .erase c => ∃ x : Sector n m, ¬x.ok crc32 ∧ f' = f.set c x
  | .writeEnv c _ _ _ => ∃ x : Sector n m, ¬x.ok crc32 ∧ f' = f.set c x
  | .writeRest c _ => ∃ rest, f' = f.set c { f.get c with rest := rest }
  | .writeFlags c _ => ∃ flags, f' = f.set c { f.get c with flags := flags }

/-! ## Saving -/

/-- The flash operations of `saveenv`, or an error before the first of them. The exported
data and the bytes read from behind the copy are missing if that fails. -/
def saveenv (crc32 : Data n → UInt32) (envValid : ℕ) (exported : Option (Data n))
    (savedBuffer : Option (Data m)) : Option (List (FlashOp n m)) :=
  match exported with
  | none => none
  | some data =>
    let new := if envValid = 1 then Copy.second else .first
    let old := if envValid = 1 then Copy.first else .second
    if 0 < m then
      savedBuffer.map fun saved => [.erase new, .writeEnv new (crc32 data) activeFlag data,
        .writeRest new saved, .writeFlags old obsoleteFlag]
    else some [.erase new, .writeEnv new (crc32 data) activeFlag data, .writeFlags old obsoleteFlag]

/-- `gd->env_valid` when all operations succeeded. -/
def toggled (envValid : ℕ) : ℕ := if envValid = 2 then 1 else 2

/-! ## Loading -/

/-- The copy with the valid environment. -/
def choose (f1 f2 : UInt8) : ℕ :=
  if f1 = activeFlag ∧ f2 = obsoleteFlag then 1
  else if f1 = obsoleteFlag ∧ f2 = activeFlag then 2
  else if f1 = f2 then 2
  else if f1 = 0xff then 2
  else 2

/-- `env_relocate_spec`: `gd->env_valid` and the data that is imported; no data stands for the
default environment. The buffers and the device may be missing, a read or the import may fail. -/
def envRelocateSpec (crc32 : Data n → UInt32) (imports : Data n → Bool) (ready : Bool)
    (read1 read2 : Option (Sector n m)) (envValid : ℕ) : ℕ × Option (Data n) :=
  if ready = false then (envValid, none)
  else
    match read1 with
    | none => (envValid, none)
    | some e1 =>
      let crc1Ok := decide (e1.ok crc32)
      let crc2Ok := read2.any fun e2 => decide (e2.ok crc32)
      if crc1Ok = false ∧ crc2Ok = false then (envValid, none)
      else
        let valid := if crc1Ok = true ∧ crc2Ok = false then 1
          else if crc1Ok = false ∧ crc2Ok = true then 2
          else choose e1.flags (read2.getD e1).flags
        let ep := if valid = 1 then e1 else read2.getD e1
        (valid, if imports ep.data then some ep.data else none)

/-- Booting: `env_init` sets `gd->env_valid` to 1, and the device and the memory are there. -/
def load (crc32 : Data n → UInt32) (f : Flash n m) : ℕ × Option (Data n) :=
  envRelocateSpec crc32 (fun _ => true) true (some f.first) (some f.second) 1

/-! ## Which copy is loaded -/

/-- The number of a copy in `gd->env_valid`. -/
def Copy.number : Copy → ℕ
  | .first => 1
  | .second => 2

def Copy.other : Copy → Copy
  | .first => .second
  | .second => .first

@[simp] theorem get_set (f : Flash n m) (c : Copy) (x : Sector n m) : (f.set c x).get c = x := by
  cases c <;> rfl

@[simp] theorem get_set_other (f : Flash n m) (c : Copy) (x : Sector n m) :
    (f.set c x).get c.other = f.get c.other := by
  cases c <;> rfl

@[simp] theorem get_other_set (f : Flash n m) (c : Copy) (x : Sector n m) :
    (f.set c.other x).get c = f.get c := by
  cases c <;> rfl

theorem choose_cases (f1 f2 : UInt8) : choose f1 f2 = 1 ∨ choose f1 f2 = 2 := by
  unfold choose
  split_ifs <;> simp

section Load

variable (crc32 : Data n → UInt32) (f : Flash n m) (c : Copy)

theorem load_none (h1 : ¬f.first.ok crc32) (h2 : ¬f.second.ok crc32) :
    load crc32 f = (1, none) := by
  simp [load, envRelocateSpec, h1, h2]

/-- If only one copy passes its check it is loaded. -/
theorem load_single (h : (f.get c).ok crc32) (ho : ¬(f.get c.other).ok crc32) :
    load crc32 f = (c.number, some (f.get c).data) := by
  cases c with
  | first =>
    have h1 : f.first.ok crc32 := h
    have h2 : ¬f.second.ok crc32 := ho
    simp [load, envRelocateSpec, h1, h2, Copy.number, Flash.get]
  | second =>
    have h1 : f.second.ok crc32 := h
    have h2 : ¬f.first.ok crc32 := ho
    simp [load, envRelocateSpec, h1, h2, Copy.number, Flash.get]

theorem load_both (h1 : f.first.ok crc32) (h2 : f.second.ok crc32) : load crc32 f =
    (choose f.first.flags f.second.flags,
      some (if choose f.first.flags f.second.flags = 1 then f.first.data else f.second.data)) := by
  simp only [load, envRelocateSpec, h1, h2, decide_true, Option.any_some, Option.getD_some,
    Bool.true_eq_false, false_and, and_false, if_false, if_true]
  rcases choose_cases f.first.flags f.second.flags with h | h <;> simp [h]

/-- An active copy next to an obsolete one is loaded. -/
theorem load_active (h : (f.get c).ok crc32) (ha : (f.get c).flags = activeFlag)
    (ho : (f.get c.other).flags = obsoleteFlag) :
    load crc32 f = (c.number, some (f.get c).data) := by
  by_cases hok : (f.get c.other).ok crc32
  · cases c with
    | first =>
      rw [load_both crc32 f h hok, show f.first.flags = _ from ha, show f.second.flags = _ from ho]
      rfl
    | second =>
      rw [load_both crc32 f hok h, show f.second.flags = _ from ha, show f.first.flags = _ from ho]
      rfl
  · exact load_single crc32 f c h hok

/-- With two copies that pass their checks one of them is loaded. -/
theorem load_either (h : (f.get c).ok crc32) (ho : (f.get c.other).ok crc32) :
    (load crc32 f).2 = some (f.get c).data ∨ (load crc32 f).2 = some (f.get c.other).data := by
  cases c with
  | first =>
    rw [load_both crc32 f h ho]
    rcases choose_cases f.first.flags f.second.flags with hc | hc
    · exact .inl (by rw [hc]; rfl)
    · exact .inr (by rw [hc]; rfl)
  | second =>
    rw [load_both crc32 f ho h]
    rcases choose_cases f.first.flags f.second.flags with hc | hc
    · exact .inr (by rw [hc]; rfl)
    · exact .inl (by rw [hc]; rfl)

/-- A copy that passes its check is loaded, unless there is none. -/
theorem load_cases : ¬f.first.ok crc32 ∧ ¬f.second.ok crc32 ∧ load crc32 f = (1, none) ∨
    ∃ c, (f.get c).ok crc32 ∧ load crc32 f = (c.number, some (f.get c).data) := by
  by_cases h1 : f.first.ok crc32
  · right
    by_cases h2 : f.second.ok crc32
    · rcases choose_cases f.first.flags f.second.flags with hc | hc
      · exact ⟨.first, h1, by rw [load_both crc32 f h1 h2, hc]; rfl⟩
      · exact ⟨.second, h2, by rw [load_both crc32 f h1 h2, hc]; rfl⟩
    · exact ⟨.first, h1, load_single crc32 f .first h1 h2⟩
  · by_cases h2 : f.second.ok crc32
    · exact .inr ⟨.second, h2, load_single crc32 f .second h2 h1⟩
    · exact .inl ⟨h1, h2, load_none crc32 f h1 h2⟩

end Load

/-! ## Runs -/

/-- U-Boot running: the flash, `gd->env_valid`, and the environment that was loaded at boot or
saved by the last `saveenv` that returned 0. -/
structure Running (n m : ℕ) where
  flash : Flash n m
  valid : ℕ
  saved : Option (Data n)

/-- The runs between two losses of power; each starts on whatever the flash holds. -/
inductive Reached (crc32 : Data n → UInt32) : Running n m → Prop
  | boot (f : Flash n m) : Reached crc32 ⟨f, (load crc32 f).1, (load crc32 f).2⟩
  | save (st : Running n m) (data : Data n) (buffer : Option (Data m)) (ops : List (FlashOp n m)) :
      Reached crc32 st → saveenv crc32 st.valid (some data) buffer = some ops →
      Reached crc32 ⟨runAll FlashOp.apply ops st.flash, toggled st.valid, some data⟩

/-- The operations behind the new copy: the rest of its sector and the flags of the old one. -/
def Late (c : Copy) (op : FlashOp n m) : Prop :=
  (∃ rest, op = .writeRest c.other rest) ∨ op = .writeFlags c obsoleteFlag

/-- The operations write the copy next to `c` and make `c` obsolete. -/
def Replaces (crc32 : Data n → UInt32) (c : Copy) (data : Data n) (ops : List (FlashOp n m)) : Prop :=
  ∃ late, ops = .erase c.other::.writeEnv c.other (crc32 data) activeFlag data::
      (late ++ [.writeFlags c obsoleteFlag]) ∧
    ∀ op ∈ late, ∃ rest, op = .writeRest c.other rest

theorem saveenv_replaces (crc32 : Data n → UInt32) (c : Copy) (data : Data n)
    (buffer : Option (Data m)) (ops : List (FlashOp n m))
    (h : saveenv crc32 c.number (some data) buffer = some ops) : Replaces crc32 c data ops := by
  have hnew : (if c.number = 1 then Copy.second else .first) = c.other := by cases c <;> rfl
  have hold : (if c.number = 1 then Copy.first else .second) = c := by cases c <;> rfl
  unfold saveenv at h
  simp only [hnew, hold] at h
  split_ifs at h with hm
  · cases buffer with
    | none => cases h
    | some saved =>
      cases h
      exact ⟨[.writeRest c.other saved], rfl, by simp⟩
  · cases h
    exact ⟨[], rfl, by simp⟩

section Save

variable (crc32 : Data n → UInt32) (c : Copy) (data : Data n) (f : Flash n m)

/-- The new copy is complete. -/
structure Written : Prop where
  ok : (f.get c.other).ok crc32
  flags : (f.get c.other).flags = activeFlag
  data : (f.get c.other).data = data

theorem written_env : Written crc32 c data (FlashOp.apply (.writeEnv c.other (crc32 data) activeFlag
    data) (FlashOp.apply (.erase c.other) f)) := by
  have hcrc : ∀ x : UInt32, 0xffffffff &&& x = x := fun x => UInt32.neg_one_and
  have hbyte : ∀ x : UInt8, 0xff &&& x = x := fun x => UInt8.neg_one_and
  constructor
  · simp [FlashOp.apply, erased, Sector.ok, hcrc, hbyte]
  · simp [FlashOp.apply, erased, hbyte]
  · simp [FlashOp.apply, erased, hbyte]

/-- The later operations leave the new copy and the data of the old one. -/
theorem late_apply (op : FlashOp n m) (hop : Late c op) (hw : Written crc32 c data f) :
    Written crc32 c data (op.apply f) ∧ ((op.apply f).get c).data = (f.get c).data ∧
      ((op.apply f).get c).crc = (f.get c).crc := by
  rcases hop with ⟨rest, rfl⟩ | rfl
  · refine ⟨⟨?_, ?_, ?_⟩, ?_, ?_⟩
    · simpa [FlashOp.apply, Sector.ok] using hw.ok
    · simpa [FlashOp.apply] using hw.flags
    · simpa [FlashOp.apply] using hw.data
    · simp [FlashOp.apply]
    · simp [FlashOp.apply]
  · refine ⟨⟨?_, ?_, ?_⟩, ?_, ?_⟩
    · simpa [FlashOp.apply, Sector.ok] using hw.ok
    · simpa [FlashOp.apply] using hw.flags
    · simpa [FlashOp.apply] using hw.data
    · simp [FlashOp.apply]
    · simp [FlashOp.apply]

theorem late_torn (op : FlashOp n m) (f' : Flash n m) (hop : Late c op) (hw : Written crc32 c data f)
    (ht : op.torn crc32 f f') : Written crc32 c data f' ∧ (f'.get c).data = (f.get c).data ∧
      (f'.get c).crc = (f.get c).crc := by
  rcases hop with ⟨rest, rfl⟩ | rfl
  · obtain ⟨rest', rfl⟩ := ht
    refine ⟨⟨?_, ?_, ?_⟩, ?_, ?_⟩
    · simpa [Sector.ok] using hw.ok
    · simpa using hw.flags
    · simpa using hw.data
    · simp
    · simp
  · obtain ⟨flags', rfl⟩ := ht
    refine ⟨⟨?_, ?_, ?_⟩, ?_, ?_⟩
    · simpa [Sector.ok] using hw.ok
    · simpa using hw.flags
    · simpa using hw.data
    · simp
    · simp

theorem late_run (late : List (FlashOp n m)) (hl : ∀ op ∈ late, Late c op)
    (hw : Written crc32 c data f) : Written crc32 c data (runAll FlashOp.apply late f) := by
  induction late generalizing f with
  | nil => exact hw
  | cons op late ih =>
    rw [runAll_cons]
    exact ih _ (fun op' h' => hl op' (List.mem_cons_of_mem _ h'))
      (late_apply crc32 c data f op (hl op List.mem_cons_self) hw).1

/-- After all operations the new copy is active and the old one obsolete. -/
theorem replaces_run (ops : List (FlashOp n m)) (h : Replaces crc32 c data ops) :
    Written crc32 c data (runAll FlashOp.apply ops f) ∧
      ((runAll FlashOp.apply ops f).get c).flags = obsoleteFlag := by
  obtain ⟨late, rfl, hlate⟩ := h
  rw [runAll_cons, runAll_cons]
  have hw := late_run crc32 c data _ late (fun op hop => .inl (hlate op hop))
    (written_env crc32 c data f)
  have hlast : ∀ g : Flash n m, runAll FlashOp.apply (late ++ [.writeFlags c obsoleteFlag]) g =
      FlashOp.apply (.writeFlags c obsoleteFlag) (runAll FlashOp.apply late g) := by
    intro g
    rw [runAll, List.foldl_append]
    rfl
  rw [hlast]
  refine ⟨(late_apply crc32 c data _ (.writeFlags c obsoleteFlag) (.inr rfl) hw).1, ?_⟩
  simp [FlashOp.apply, obsoleteFlag]

/-- What a cut leaves: nothing done, a bad new copy, or a complete one next to the data of the
old one. -/
theorem replaces_cut (hblank : ¬(erased : Sector n m).ok crc32) (ops : List (FlashOp n m))
    (h : Replaces crc32 c data ops) (f' : Flash n m)
    (hcut : Cut FlashOp.apply (FlashOp.torn crc32) ops f f') :
    f' = f ∨ (∃ x : Sector n m, ¬x.ok crc32 ∧ f' = f.set c.other x) ∨
      Written crc32 c data f' ∧ (f'.get c).data = (f.get c).data ∧
        (f'.get c).crc = (f.get c).crc := by
  obtain ⟨late, rfl, hlate⟩ := h
  cases hcut with
  | between => exact .inl rfl
  | during _ _ _ _ ht => exact .inr (.inl ht)
  | later _ _ _ _ hcut =>
    cases hcut with
    | between => exact .inr (.inl ⟨erased, hblank, rfl⟩)
    | during _ _ _ _ ht =>
      obtain ⟨x, hx, rfl⟩ := ht
      exact .inr (.inl ⟨x, hx, by cases c <;> rfl⟩)
    | later _ _ _ _ hcut =>
      -- from here on the new copy is complete
      refine .inr (.inr ?_)
      refine cut_sound FlashOp.apply (FlashOp.torn crc32)
        (fun ops g => (Written crc32 c data g ∧ (g.get c).data = (f.get c).data ∧
          (g.get c).crc = (f.get c).crc) ∧ ∀ op ∈ ops, Late c op)
        _ (fun _ _ hk => hk.1) (fun op ops g g' hk ht => ?_) (fun op ops g hk => ?_) _ _ f' hcut ?_
      · obtain ⟨h1, h2, h3⟩ := late_torn crc32 c data g op g' (hk.2 op List.mem_cons_self) hk.1.1 ht
        exact ⟨h1, h2.trans hk.1.2.1, h3.trans hk.1.2.2⟩
      · obtain ⟨h1, h2, h3⟩ := late_apply crc32 c data g op (hk.2 op List.mem_cons_self) hk.1.1
        exact ⟨⟨h1, h2.trans hk.1.2.1, h3.trans hk.1.2.2⟩,
          fun op' h' => hk.2 op' (List.mem_cons_of_mem _ h')⟩
      · refine ⟨⟨written_env crc32 c data f, by simp [FlashOp.apply], by simp [FlashOp.apply]⟩,
          fun op hop => ?_⟩
        rcases List.mem_append.mp hop with hop | hop
        · exact .inl (hlate op hop)
        · exact .inr (List.mem_singleton.mp hop)

theorem other_other : c.other.other = c := by
  cases c <;> rfl

/-- After all operations the new environment is loaded. -/
theorem saved_load (ops : List (FlashOp n m)) (h : Replaces crc32 c data ops) :
    load crc32 (runAll FlashOp.apply ops f) = (c.other.number, some data) := by
  obtain ⟨hw, hold⟩ := replaces_run crc32 c data f ops h
  rw [load_active crc32 _ c.other hw.ok hw.flags (by rw [other_other]; exact hold), hw.data]

/-- A cut leaves the old environment or the new one. -/
theorem cut_load (hblank : ¬(erased : Sector n m).ok crc32) (hok : (f.get c).ok crc32)
    (hload : (load crc32 f).2 = some (f.get c).data) (ops : List (FlashOp n m))
    (h : Replaces crc32 c data ops) (f' : Flash n m)
    (hcut : Cut FlashOp.apply (FlashOp.torn crc32) ops f f') :
    (load crc32 f').2 = some (f.get c).data ∨ (load crc32 f').2 = some data := by
  rcases replaces_cut crc32 c data f hblank ops h f' hcut with rfl | ⟨x, hx, rfl⟩ | ⟨hw, hd, hcrc⟩
  · exact .inl hload
  · rw [load_single crc32 _ c (by simpa using hok) (by simpa using hx)]
    exact .inl (by simp)
  · have hok' : (f'.get c).ok crc32 := by
      unfold Sector.ok at hok ⊢
      rw [hd, hcrc]
      exact hok
    rcases load_either crc32 f' c hok' hw.ok with hl | hl
    · exact .inl (hl.trans (by rw [hd]))
    · exact .inr (hl.trans (by rw [hw.data]))

end Save

theorem toggled_number (c : Copy) : toggled c.number = c.other.number := by
  cases c <;> rfl

/-- What is loaded is what was saved. -/
theorem reached_load (crc32 : Data n → UInt32) (st : Running n m) (h : Reached crc32 st) :
    (∃ c : Copy, c.number = st.valid) ∧ load crc32 st.flash = (st.valid, st.saved) := by
  induction h with
  | boot f =>
    refine ⟨?_, rfl⟩
    rcases load_cases crc32 f with ⟨-, -, hl⟩ | ⟨c, -, hl⟩
    · exact ⟨.first, by rw [hl]; rfl⟩
    · exact ⟨c, by rw [hl]⟩
  | save st data buffer ops _ hs ih =>
    obtain ⟨⟨c, hc⟩, -⟩ := ih
    rw [← hc] at hs ⊢
    refine ⟨⟨c.other, (toggled_number c).symm⟩, ?_⟩
    rw [saved_load crc32 c data st.flash ops (saveenv_replaces crc32 c data buffer ops hs),
      toggled_number]

/-- A save that is cut at any point leaves the environment from before or the new one, and a
save that is done leaves the new one. -/
theorem save_survives_power_cut (crc32 : Data n → UInt32)
    (hblank : ¬(erased : Sector n m).ok crc32) (st : Running n m) (h : Reached crc32 st)
    (data : Data n) (buffer : Option (Data m)) (ops : List (FlashOp n m))
    (hs : saveenv crc32 st.valid (some data) buffer = some ops) :
    (st.flash.first.ok crc32 ∨ st.flash.second.ok crc32 → ∃ e, st.saved = some e ∧
      ∀ f', Cut FlashOp.apply (FlashOp.torn crc32) ops st.flash f' →
        (load crc32 f').2 = some e ∨ (load crc32 f').2 = some data) ∧
    (load crc32 (runAll FlashOp.apply ops st.flash)).2 = some data := by
  obtain ⟨⟨c, hc⟩, hl⟩ := reached_load crc32 st h
  rw [← hc] at hs hl
  have hr := saveenv_replaces crc32 c data buffer ops hs
  constructor
  · intro hvalid
    rcases load_cases crc32 st.flash with ⟨h1, h2, -⟩ | ⟨c', hok, hl'⟩
    · exact absurd hvalid (not_or.mpr ⟨h1, h2⟩)
    · rw [hl, Prod.mk.injEq] at hl'
      obtain ⟨hcc, hsaved⟩ := hl'
      have heq : c' = c := by
        cases c <;> cases c' <;> first | rfl | cases hcc
      subst heq
      refine ⟨_, hsaved, fun f' hcut => ?_⟩
      exact cut_load crc32 c' data st.flash hblank hok (by rw [hl, hsaved]) ops hr f' hcut
  · rw [saved_load crc32 c data st.flash ops hr]

/-- One byte of data and no rest of the sector: a first save on an erased flash, then a second
one that is cut. -/
theorem save_survives_power_cut_byte : ∃ (st : Running 1 0) (ops : List (FlashOp 1 0)),
    Reached (fun d => Crc32.crc32 0 (List.ofFn d)) st ∧
    saveenv (fun d => Crc32.crc32 0 (List.ofFn d)) st.valid (some fun _ => 7) none = some ops ∧
    ∃ e, st.saved = some e ∧ ∀ f', Cut FlashOp.apply
      (FlashOp.torn fun d => Crc32.crc32 0 (List.ofFn d)) ops st.flash f' →
        (load (fun d => Crc32.crc32 0 (List.ofFn d)) f').2 = some e ∨
        (load (fun d => Crc32.crc32 0 (List.ofFn d)) f').2 = some fun _ => 7 := by
  have hboot : Reached (fun d : Data 1 => Crc32.crc32 0 (List.ofFn d)) _ :=
    .boot (⟨erased, erased⟩ : Flash 1 0)
  have hsave := hboot.save _ (fun _ => 5) none _ rfl
  refine ⟨_, _, hsave, rfl, ?_⟩
  exact (save_survives_power_cut _ (by decide +kernel) _ hsave (fun _ => 7) none _ rfl).1
    (by decide +kernel)

end

end UBoot.EnvSpi
