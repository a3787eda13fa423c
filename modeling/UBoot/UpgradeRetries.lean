import UBoot.PowerCut

/-!
# The upgrade counter: `common/cmd_meraki.c` over `common/cmd_ubi.c`

One byte of the volume `upgrade_retries` is read, decremented and written back
at every boot. Each of the three commands may fail or lose its power. An
update of a volume sets a marker, unmaps the old data, writes the new data and
clears the marker; each of these steps is done or not done.
-/

set_option autoImplicit false

namespace UBoot.UpgradeRetries
open UBoot.PowerCut

inductive VolType where
  | dynamicVolume | staticVolume
  deriving DecidableEq

/-- A volume on the flash, with the bytes that are mapped. -/
structure Volume where
  type : VolType
  reservedBytes : ℕ
  reserved : 0 < reservedBytes
  updMarker : Bool
  data : List UInt8
  deriving DecidableEq

/-- A dynamic volume is used as a whole, a static one as far as it has data. -/
def Volume.usedBytes (v : Volume) : ℕ :=
  match v.type with
  | .dynamicVolume => v.reservedBytes
  | .staticVolume => v.data.length

/-- What happens to a command: it goes on, it fails, or the power is lost. -/
inductive Event where
  | ok | failed | cut
  deriving DecidableEq

/-- What happens in one boot; a write that ends early has done some of its steps. -/
structure Faults where
  check : Event
  read : Event
  write : Event
  steps : ℕ

inductive Result where
  | success (count : UInt8) | failure | cut
  deriving DecidableEq

/-! ## Reading and writing -/

/-- `ubi_volume_read` of one byte into a byte that holds `count`. -/
def ubiVolumeRead (v : Volume) (count : UInt8) : Option UInt8 :=
  if v.updMarker then none
  else if v.usedBytes = 0 then some count
  -- an unmapped block reads as `0xff`
  else some (v.data.headD 255)

inductive Update where
  | setMarker | unmap | writeLeb (byte : UInt8) | clearMarker
  deriving DecidableEq

/-- Trailing `0xff` bytes of a dynamic volume are not written. -/
def applyUpdate : Update → Volume → Volume
  | .setMarker, v => { v with updMarker := true }
  | .unmap, v => { v with data := [] }
  | .writeLeb byte, v =>
    { v with data := if v.type = .dynamicVolume ∧ byte = 255 then [] else [byte] }
  | .clearMarker, v => { v with updMarker := false }

/-- `ubi_start_update` and `ubi_more_update_data` for one byte. -/
def updates (byte : UInt8) : List Update := [.setMarker, .unmap, .writeLeb byte, .clearMarker]

/-- `ubi_volume_write` of one byte, which no volume is too small for. -/
def ubiVolumeWrite (v : Volume) (byte : UInt8) (event : Event) (steps : ℕ) : Volume :=
  runAll applyUpdate (if event = .ok then updates byte else (updates byte).take steps) v

/-! ## The command -/

/-- `do_meraki_check_upgrade`, with what its variable `count` holds before it is read. -/
def checkUpgrade (garbage : UInt8) (f : Faults) (vol : Option Volume) : Result × Option Volume :=
  match vol, f.check with
  | none, .cut => (.cut, none)
  | none, _ => (.failure, none)
  | some v, .cut => (.cut, some v)
  | some v, .failed => (.failure, some v)
  | some v, .ok =>
    match f.read, ubiVolumeRead v garbage with
    | .cut, _ => (.cut, some v)
    | .failed, _ => (.failure, some v)
    | .ok, none => (.failure, some v)
    | .ok, some read =>
      let count := if 5 < read then 5 else read
      if count = 0 then (.failure, some v)
      else
        let v' := ubiVolumeWrite v (count-1) f.write f.steps
        match f.write with
        | .ok => (.success (count-1), some v')
        | .failed => (.failure, some v')
        | .cut => (.cut, some v')

/-- A boot in a history. -/
structure Boot where
  before : Option Volume
  garbage : UInt8
  faults : Faults
  result : Result
  after : Option Volume

/-- The boots that follow each other. -/
def boots : Option Volume → List (UInt8 × Faults) → List Boot
  | _, [] => []
  | vol, (garbage, f)::rest =>
    let r := checkUpgrade garbage f vol
    ⟨vol, garbage, f, r.1, r.2⟩::boots r.2 rest

def Result.isSuccess : Result → Bool
  | .success _ => true
  | _ => false

def successes (history : List Boot) : ℕ := history.countP fun boot => boot.result.isSuccess

/-! ## What a boot does -/

/-- The counter that is written for a byte that was read. -/
def counter (read : UInt8) : UInt8 := (if 5 < read then 5 else read)-1

/-- The write is complete. -/
def rewritten (v : Volume) (byte : UInt8) : Volume := { v with updMarker := false, data := [byte] }

theorem updates_all (v : Volume) (byte : UInt8) (hbyte : byte ≠ 255) :
    runAll applyUpdate (updates byte) v = rewritten v byte := by
  simp [runAll, updates, applyUpdate, rewritten, hbyte]

/-- A write that ends early leaves the volume as it was, marked, or rewritten. -/
theorem updates_take (v : Volume) (byte : UInt8) (hbyte : byte ≠ 255) (steps : ℕ) :
    runAll applyUpdate ((updates byte).take steps) v = v ∨
      (runAll applyUpdate ((updates byte).take steps) v).updMarker = true ∨
      runAll applyUpdate ((updates byte).take steps) v = rewritten v byte := by
  rcases steps with _ | _ | _ | _ | steps
  · exact .inl rfl
  · exact .inr (.inl rfl)
  · exact .inr (.inl rfl)
  · exact .inr (.inl rfl)
  · refine .inr (.inr ?_)
    rw [List.take_of_length_le (by simp [updates])]
    exact updates_all v byte hbyte

theorem counter_ne (read : UInt8) (h : read ≠ 0) : counter read ≠ 255 := by
  unfold counter
  split_ifs with h1
  · decide
  · intro heq
    have : read = 0 := by
      have := congrArg (·+1) heq
      simpa using this
    exact h this

/-- What a boot can do: nothing to the volume, or a write of the decremented byte. -/
theorem checkUpgrade_cases (garbage : UInt8) (f : Faults) (vol : Option Volume) :
    (checkUpgrade garbage f vol).2 = vol ∧ (checkUpgrade garbage f vol).1.isSuccess = false ∨
      ∃ v read, vol = some v ∧ ubiVolumeRead v garbage = some read ∧ read ≠ 0 ∧
        (f.write = .ok ∧ checkUpgrade garbage f vol =
            (.success (counter read), some (rewritten v (counter read))) ∨
          f.write ≠ .ok ∧ (checkUpgrade garbage f vol).1.isSuccess = false ∧
            ∃ v', (checkUpgrade garbage f vol).2 = some v' ∧
              (v' = v ∨ v'.updMarker = true ∨ v' = rewritten v (counter read))) := by
  cases vol with
  | none =>
    unfold checkUpgrade
    cases f.check <;> exact .inl ⟨rfl, rfl⟩
  | some v =>
    unfold checkUpgrade
    cases hc : f.check with
    | failed => exact .inl ⟨rfl, rfl⟩
    | cut => exact .inl ⟨rfl, rfl⟩
    | ok =>
      cases hr : f.read with
      | failed => exact .inl ⟨rfl, rfl⟩
      | cut => exact .inl ⟨rfl, rfl⟩
      | ok =>
        dsimp only
        cases hread : ubiVolumeRead v garbage with
        | none => exact .inl ⟨rfl, rfl⟩
        | some read =>
          by_cases h0 : read = 0
          · subst h0
            exact .inl ⟨rfl, rfl⟩
          have hcount : (if 5 < read then 5 else read) ≠ 0 := by
            split_ifs
            · decide
            · exact h0
          refine .inr ⟨v, read, rfl, hread, h0, ?_⟩
          have hne := counter_ne read h0
          have hcounter : (if 5 < read then 5 else read)-1 = counter read := rfl
          simp only [hcount, if_false, hcounter]
          cases hw : f.write with
          | ok =>
            refine .inl ⟨rfl, ?_⟩
            simp only [ubiVolumeWrite, if_true, updates_all v _ hne]
          | failed =>
            refine .inr ⟨by decide, rfl, _, rfl, ?_⟩
            exact updates_take v _ hne f.steps
          | cut =>
            refine .inr ⟨by decide, rfl, _, rfl, ?_⟩
            exact updates_take v _ hne f.steps

/-! ## Histories -/

/-- The byte that is stored, as far as one can be read. -/
def stored (v : Volume) : Option UInt8 :=
  if v.updMarker ∨ v.usedBytes = 0 then none else some (v.data.headD 255)

/-- A volume that is read without a byte being there. -/
def Empty : Option Volume → Prop
  | none => False
  | some v => v.updMarker = false ∧ v.usedBytes = 0

/-- The successes that a volume leaves room for. -/
def left : Option Volume → ℕ
  | none => 0
  | some v => if v.updMarker then 0 else if v.usedBytes = 0 then 5 else min (v.data.headD 255).toNat 5

theorem left_le (vol : Option Volume) : left vol ≤ 5 := by
  cases vol with
  | none => simp [left]
  | some v =>
    simp only [left]
    split_ifs <;> simp

theorem rewritten_used (v : Volume) (byte : UInt8) : (rewritten v byte).usedBytes ≠ 0 := by
  have hreserved := v.reserved
  cases ht : v.type with
  | dynamicVolume =>
    simp only [Volume.usedBytes, rewritten, ht]
    omega
  | staticVolume => simp [Volume.usedBytes, rewritten, ht]

theorem counter_toNat (read : UInt8) (h : read ≠ 0) : (counter read).toNat+1 = min read.toNat 5 := by
  have hzero : read.toNat ≠ 0 := fun h0 => h (UInt8.toNat_inj.mp h0)
  unfold counter
  split_ifs with h5
  · have : 5 < read.toNat := h5
    have : ((5 : UInt8)-1).toNat = 4 := rfl
    omega
  · have : ¬5 < read.toNat := h5
    have h1 : (1 : UInt8) ≤ read := by
      change 1 ≤ read.toNat
      omega
    rw [UInt8.toNat_sub_of_le _ _ h1]
    have : (1 : UInt8).toNat = 1 := rfl
    omega

theorem left_rewritten (v : Volume) (read : UInt8) (h : read ≠ 0) :
    left (some (rewritten v (counter read)))+1 = min read.toNat 5 := by
  have hused := rewritten_used v (counter read)
  have hcount := counter_toNat read h
  simp only [left, hused, if_false]
  simp only [rewritten, Bool.false_eq_true, if_false, List.headD_cons]
  omega

/-- A byte that is read leaves at least as much room as it counts. -/
theorem left_read (v : Volume) (garbage read : UInt8) (h : ubiVolumeRead v garbage = some read) :
    min read.toNat 5 ≤ left (some v) := by
  unfold ubiVolumeRead at h
  simp only [left]
  split_ifs at h ⊢ with h1 h2
  · omega
  · cases h
    rfl

/-- Each success takes one away, and no boot adds any. -/
theorem left_boot (garbage : UInt8) (f : Faults) (vol : Option Volume) :
    left (checkUpgrade garbage f vol).2+(if (checkUpgrade garbage f vol).1.isSuccess then 1 else 0) ≤
      left vol := by
  rcases checkUpgrade_cases garbage f vol with ⟨h1, h2⟩ | ⟨v, read, rfl, hread, h0, hcase⟩
  · simp [h1, h2]
  have hle := left_read v garbage read hread
  have hdec := left_rewritten v read h0
  rcases hcase with ⟨-, heq⟩ | ⟨-, hs, v', hv', hcase⟩
  · rw [heq]
    simp only [Result.isSuccess, if_true]
    omega
  · rw [hv', hs]
    rcases hcase with rfl | hmark | rfl
    · simp
    · simp [left, hmark]
    · simp only [Bool.false_eq_true, if_false]
      omega

theorem successes_le (vol : Option Volume) (history : List (UInt8 × Faults)) :
    successes (boots vol history) ≤ left vol := by
  induction history generalizing vol with
  | nil => simp [successes, boots]
  | cons b rest ih =>
    obtain ⟨garbage, f⟩ := b
    have hstep := left_boot garbage f vol
    have hrest := ih (checkUpgrade garbage f vol).2
    simp only [successes, boots, List.countP_cons] at hrest ⊢
    omega

/-- No boot makes a volume empty. -/
theorem empty_boot (garbage : UInt8) (f : Faults) (vol : Option Volume) (h : ¬Empty vol) :
    ¬Empty (checkUpgrade garbage f vol).2 := by
  rcases checkUpgrade_cases garbage f vol with ⟨h1, -⟩ | ⟨v, read, rfl, hread, h0, hcase⟩
  · rw [h1]
    exact h
  have hnew : ¬Empty (some (rewritten v (counter read))) := fun he =>
    rewritten_used v (counter read) he.2
  rcases hcase with ⟨-, heq⟩ | ⟨-, -, v', hv', hcase⟩
  · rw [heq]
    exact hnew
  · rw [hv']
    rcases hcase with rfl | hmark | rfl
    · exact h
    · intro he
      rw [he.1] at hmark
      cases hmark
    · exact hnew

theorem boots_nonempty (vol : Option Volume) (history : List (UInt8 × Faults)) (h : ¬Empty vol) :
    ∀ boot ∈ boots vol history, ¬Empty boot.before := by
  induction history generalizing vol with
  | nil => simp [boots]
  | cons b rest ih =>
    intro boot hboot
    rcases List.mem_cons.mp hboot with rfl | hboot
    · exact h
    · exact ih _ (empty_boot b.1 b.2 vol h) boot hboot

/-- With a byte stored, a boot does not depend on what was in memory. -/
theorem checkUpgrade_garbage (garbage garbage' : UInt8) (f : Faults) (vol : Option Volume)
    (h : ¬Empty vol) : checkUpgrade garbage f vol = checkUpgrade garbage' f vol := by
  cases vol with
  | none =>
    unfold checkUpgrade
    cases f.check <;> rfl
  | some v =>
    have hread : ubiVolumeRead v garbage = ubiVolumeRead v garbage' := by
      unfold ubiVolumeRead
      cases hm : v.updMarker with
      | true => rfl
      | false =>
        have hu : v.usedBytes ≠ 0 := fun hu => h ⟨hm, hu⟩
        simp only [hu, if_false]
    unfold checkUpgrade
    cases f.check with
    | ok =>
      dsimp only
      rw [hread]
    | failed => rfl
    | cut => rfl

/-- What is promised of a history: at most five successes, each behind a
complete write of the decremented byte, and none of them due to memory that was
not filled. -/
structure Bounded (history : List Boot) : Prop where
  bound : successes history ≤ 5
  written : ∀ boot ∈ history, ∀ count, boot.result = .success count →
    ∃ v byte, boot.before = some v ∧ stored v = some byte ∧ count.toNat+1 = min byte.toNat 5 ∧
      boot.after = some (rewritten v count)
  filled : ∀ boot ∈ history, ∀ garbage,
    checkUpgrade garbage boot.faults boot.before = (boot.result, boot.after)

/-- A boot of a history is a run of the command. -/
theorem boots_run (vol : Option Volume) (history : List (UInt8 × Faults)) :
    ∀ boot ∈ boots vol history,
      checkUpgrade boot.garbage boot.faults boot.before = (boot.result, boot.after) := by
  induction history generalizing vol with
  | nil => simp [boots]
  | cons b rest ih =>
    intro boot hboot
    rcases List.mem_cons.mp hboot with rfl | hboot
    · rfl
    · exact ih _ boot hboot

theorem stored_read (v : Volume) (garbage read : UInt8) (h : ¬Empty (some v))
    (hread : ubiVolumeRead v garbage = some read) : stored v = some read := by
  unfold ubiVolumeRead at hread
  unfold stored
  split_ifs at hread with h1 h2
  · exact absurd ⟨by simpa using h1, h2⟩ h
  · rw [if_neg (by simp [h1, h2])]
    exact hread

/-- A success of a boot that reads a stored byte. -/
theorem success_written (garbage : UInt8) (f : Faults) (vol after : Option Volume) (count : UInt8)
    (h : ¬Empty vol) (hrun : checkUpgrade garbage f vol = (.success count, after)) :
    ∃ v byte, vol = some v ∧ stored v = some byte ∧ count.toNat+1 = min byte.toNat 5 ∧
      after = some (rewritten v count) := by
  rcases checkUpgrade_cases garbage f vol with ⟨-, hs⟩ | ⟨v, read, rfl, hread, h0, hcase⟩
  · rw [hrun] at hs
    cases hs
  rcases hcase with ⟨-, heq⟩ | ⟨-, hs, -⟩
  · rw [hrun] at heq
    cases heq
    exact ⟨v, read, rfl, stored_read v garbage read h hread, counter_toNat read h0, rfl⟩
  · rw [hrun] at hs
    cases hs

/-- Every history is bounded exactly if the volume is not read without a byte. -/
theorem upgrade_retries_bounded (vol : Option Volume) :
    (∀ history, Bounded (boots vol history)) ↔ ¬Empty vol := by
  constructor
  · intro h hempty
    cases vol with
    | none => exact hempty
    | some v =>
      obtain ⟨hm, hu⟩ := hempty
      let f : Faults := ⟨.ok, .ok, .ok, 0⟩
      have hread : ubiVolumeRead v 3 = some 3 := by simp [ubiVolumeRead, hm, hu]
      have hres : (checkUpgrade 3 f (some v)).1 = .success 2 := by
        simp only [checkUpgrade, f, hread]
        rfl
      obtain ⟨v', byte, hv', hbyte, -⟩ := (h [(3, f)]).written _ List.mem_cons_self 2 hres
      cases hv'
      simp [stored, hu] at hbyte
  · intro h history
    have hne := boots_nonempty vol history h
    have hrun := boots_run vol history
    refine ⟨(successes_le vol history).trans (left_le vol), fun boot hboot count hres => ?_,
      fun boot hboot garbage => ?_⟩
    · have hboot' := hrun boot hboot
      rw [hres] at hboot'
      exact success_written boot.garbage boot.faults boot.before boot.after count (hne boot hboot) hboot'
    · rw [← hrun boot hboot]
      exact checkUpgrade_garbage _ _ _ _ (hne boot hboot)

/-- A static volume without data. -/
def emptyVolume : Volume := ⟨.staticVolume, 1, Nat.one_pos, false, []⟩

/-- What happened to be in memory is taken for the counter of a volume without data. -/
theorem garbage_counted : ¬Bounded (boots (some emptyVolume) [(3, ⟨.ok, .ok, .ok, 0⟩)]) := by
  intro h
  obtain ⟨v, byte, hv, hbyte, -⟩ := h.written _ List.mem_cons_self 2 (by decide)
  cases hv
  revert hbyte
  simp [stored, emptyVolume, Volume.usedBytes]

end UBoot.UpgradeRetries
