import UBoot.Asking
import UBoot.FatLoops
import UBoot.FatSlots

/-!
# Directories whose chain is followed: `get_dentfromdir` and `find_directory_entry`

Both go through the entries of a cluster and on to the cluster that the FAT has
behind it. What they ask of the FAT is `get_fatent`'s answer in the one, and
`get_fatent_value`'s in the other.
-/

set_option autoImplicit false

namespace UBoot.Fat

open ByteStore MachineInt ReadCache StepLoop

/-- `get_name` -/
def getName (dent : Dirent) : List UInt8 :=
  let base := (load dent 0 8).takeWhile fun c => c ≠ 0 ∧ c ≠ 32
  let ext := (load dent 8 3).takeWhile fun c => c ≠ 0 ∧ c ≠ 32
  cleanName (if dent 8 ≠ 0 ∧ dent 8 ≠ 32 then base++46::ext else base)

/-- The end of the directory, or an entry with the name that is looked for. -/
def isFound (filename longName : List UInt8) (dent : Dirent) : Bool :=
  slotId dent = 0 || filename = getName dent || filename = longName

namespace Dirs

variable (v : Dirs)

/-- A long name goes on in the next cluster, so that a reader asks for it. -/
def asksNext (curclust : ℕ) (block : Block) (retdent : ℕ) : Bool :=
  let counter := slotNumber (block retdent)
  decide (counter ≤ 9) && decide (curclust ≠ 0) &&
    match matchSlots block (v.buflimit curclust) retdent counter with
    | none => false
    | some (slotptr, _) => decide (v.buflimit curclust ≤ slotptr)

/-- `longName` with the question for the next cluster. -/
def askLongName (clusters : ℕ → Option Block) (wanted curclust : ℕ) (block : Block)
    (retdent : ℕ) : Asking ℕ ℕ (Option LongName × Option ℕ) :=
  if v.asksNext curclust block retdent then
    .ask wanted fun o => .done (v.longName (fun _ => o) clusters wanted curclust block retdent)
  else .done (v.longName (fun _ => 0) clusters wanted curclust block retdent)

/-- The entries of a cluster in `get_dentfromdir`: whether the search ends there. -/
def dentScan (clusters : ℕ → Option Block) (filename : List UInt8) (dols : Bool) (curclust : ℕ) :
    ℕ → Block → ℕ → Asking ℕ ℕ Bool
  | 0, _, _ => .done false
  | n+1, block, i =>
    let next := fun block => dentScan clusters filename dols curclust n block (i+1)
    if slotId (block i) = 0xe5 then next block
    else if attr (block i) &&& 0x08 ≠ 0 then
      if attr (block i) &&& attrVfat = attrVfat ∧ slotId (block i) &&& lastLongEntry ≠ 0 then
        (v.askLongName clusters curclust curclust block i).bind fun r =>
          -- the entry behind the slots is copied over the first of them
          let block := match r.1 with
            | none => block
            | some l => Function.update block i ((l.nextBlock.getD block) l.realdent)
          if dols then next block
          else if isFound filename ((r.1.map LongName.name).getD []) (block i) then .done true
          else next block
      else next block
    else if slotId (block i) = 0 then .done true
    else if dols then next block
    else if isFound filename [] (block i) then .done true
    else next block

/-- A cluster in `get_dentfromdir`, and the one behind it. -/
def dentRound (clusters : ℕ → Option Block) (filename : List UInt8) (dols : Bool) (curclust : ℕ) :
    Asking ℕ ℕ (Option ℕ) :=
  match clusters curclust with
  | none => .done none
  | some block =>
    (v.dentScan clusters filename dols curclust v.direntsPerClust block 0).bind fun found =>
      if found then .done none
      else .ask curclust fun next =>
        .done (if checkClust next v.fatsize then none else some next)

/-- The entries of a cluster in `find_directory_entry`: `dir_curclust`, or `none` where the search
ends there. A long name can move it on to the next cluster. -/
def entryScan (clusters : ℕ → Option Block) (filename : List UInt8) (curclust : ℕ) :
    ℕ → Block → ℕ → ℕ → Asking ℕ ℕ (Option ℕ)
  | 0, _, _, dirCurclust => .done (some dirCurclust)
  | n+1, block, dentptr, dirCurclust =>
    let next := fun block dentptr dirCurclust =>
      if v.isNextClust (dentptr+1) then Asking.done (some dirCurclust)
      else entryScan clusters filename curclust n block (dentptr+1) dirCurclust
    if slotId (block dentptr) = 0xe5 then next block dentptr dirCurclust
    else if attr (block dentptr) &&& 0x08 ≠ 0 then
      if attr (block dentptr) &&& attrVfat ≠ 0 ∧ slotId (block dentptr) &&& lastLongEntry ≠ 0 then
        (v.askLongName clusters dirCurclust curclust block dentptr).bind fun r =>
          let dirCurclust := r.2.getD dirCurclust
          match r.1 with
          | none =>
            if isFound filename [] (block dentptr) then .done none
            else next block dentptr dirCurclust
          | some l =>
            let block := l.nextBlock.getD block
            if isFound filename l.name (block l.realdent) then .done none
            else next block l.realdent dirCurclust
      else next block dentptr dirCurclust
    else if isFound filename [] (block dentptr) then .done none
    else next block dentptr dirCurclust

/-- A cluster in `find_directory_entry`, and the one behind the last that it has gone to. -/
def entryRound (clusters : ℕ → Option Block) (filename : List UInt8) (curclust : ℕ) :
    Asking ℕ ℕ (Option ℕ) :=
  match clusters curclust with
  | none => .done none
  | some block =>
    (v.entryScan clusters filename curclust v.direntsPerClust block 0 curclust).bind fun
      | none => .done none
      | some dirCurclust => .ask dirCurclust fun next =>
        .done (if 0xfff8 ≤ next ∨ checkClust next v.fatsize then none else some next)

end Dirs

/-! ## What `get_fatent` reads -/

namespace Table

variable (v : Table)

/-- The sectors that `get_fatent` reads. -/
def fatReads (fatbuf : Slot ℤ (List UInt8)) (entry : ℕ) : List (ℕ × ℕ) :=
  let bufnum := entry/v.fatBufEntries
  let startblock := bufnum*fatBufBlocks
  if (bufnum : ℤ) ≠ fatbuf.key then
    [(startblock+v.fatSect, if startblock+fatBufBlocks > v.fatLength then sub32 v.fatLength startblock
      else fatBufBlocks)]
  else []

/-- An entry whose window begins in the FAT, or right behind it. -/
def Begins (entry : ℕ) : Prop := entry/v.fatBufEntries*fatBufBlocks ≤ v.fatLength

/-- The value of an entry through a buffer of its own. -/
def fatentOf (entry : ℕ) : ℕ := (v.getFatent ⟨-1, []⟩ entry).1

/-- The buffer is empty or holds such a window. -/
def HeldSlot (fatbuf : Slot ℤ (List UInt8)) : Prop :=
  v.fatStore.Valid fatbuf ∧ ∀ q : ℕ, fatbuf.key = q → q*fatBufBlocks ≤ v.fatLength

end Table

/-- A volume whose directories are searched. -/
structure SearchVolume extends Roomy where
  clustSize : ℕ
  clustSize_pos : 0 < clustSize
  sectSize_ge : 512 ≤ sectSize

namespace SearchVolume

variable (v : SearchVolume)

def dirs : Dirs where
  toTable := v.toTable
  clustSize := v.clustSize
  clustSize_pos := v.clustSize_pos
  sectSize_ge := v.sectSize_ge

/-- What `get_fatent` reads lies in the FAT. -/
def FatentOk (fatbuf : Slot ℤ (List UInt8)) (entry : ℕ) : Prop :=
  ∀ read ∈ v.fatReads fatbuf entry, v.InFat read

/-- What `get_fatent_value` reads lies in the FAT. -/
def ValueOk (s : State) (entry : ℕ) : Prop := v.ReadsInFat (s, entry)

variable {v}

theorem fatLength_lt (v : SearchVolume) : v.fatLength < 2^32 := by
  have hle := Nat.le_mul_of_pos_left v.fatLength v.numOfFats_pos
  have hfats := v.fats_le
  have hlt := v.sectors_lt
  omega

theorem fatentOk_iff {fatbuf : Slot ℤ (List UInt8)} (hbuf : v.HeldSlot fatbuf) (entry : ℕ) :
    v.FatentOk fatbuf entry ↔ v.Begins entry := by
  have hlt := v.fatLength_lt
  unfold FatentOk Table.fatReads
  dsimp only
  by_cases hkey : ((entry/v.fatBufEntries : ℕ) : ℤ) ≠ fatbuf.key
  · rw [if_pos hkey, List.forall_mem_singleton]
    unfold Image.InFat Table.Begins
    dsimp only
    split_ifs with hend
    · by_cases hin : entry/v.fatBufEntries*Table.fatBufBlocks ≤ v.fatLength
      · rw [sub32_eq hin hlt]
        omega
      · refine iff_of_false (fun h => hin ?_) hin
        omega
    · unfold Table.fatBufBlocks at hend ⊢
      omega
  · rw [if_neg hkey]
    exact iff_of_true nofun (hbuf.2 _ (not_not.1 hkey).symm)

theorem getFatent_same {fatbuf fatbuf' : Slot ℤ (List UInt8)} (h : v.fatStore.Valid fatbuf)
    (h' : v.fatStore.Valid fatbuf') (entry : ℕ) :
    (v.getFatent fatbuf entry).1 = (v.getFatent fatbuf' entry).1 := by
  have hread := (h.read_eq (entry/v.fatBufEntries)).symm.trans (h'.read_eq (entry/v.fatBufEntries))
  unfold Table.getFatent
  dsimp only
  cases hfill : (v.fatStore.fill fatbuf (entry/v.fatBufEntries) (entry/v.fatBufEntries)).2 <;>
  cases hfill' : (v.fatStore.fill fatbuf' (entry/v.fatBufEntries) (entry/v.fatBufEntries)).2 <;>
  rw [hfill, hfill'] at hread
  · rfl
  · cases hread
  · cases hread
  · rw [if_neg (by decide), if_neg (by decide)]
    dsimp only
    rw [Option.some.inj hread]

theorem getFatent_held {fatbuf : Slot ℤ (List UInt8)} (hbuf : v.HeldSlot fatbuf) {entry : ℕ}
    (hin : v.Begins entry) : v.HeldSlot (v.getFatent fatbuf entry).2 := by
  refine ⟨v.getFatent_valid hbuf.1 entry, fun q hq => ?_⟩
  have hkey : (v.getFatent fatbuf entry).2.key = fatbuf.key ∨
      (v.getFatent fatbuf entry).2.key = (entry/v.fatBufEntries : ℕ) := by
    have hslot : (v.getFatent fatbuf entry).2 =
        (v.fatStore.fill fatbuf (entry/v.fatBufEntries) (entry/v.fatBufEntries)).1 := by
      unfold Table.getFatent
      dsimp only
      split_ifs <;> rfl
    rw [hslot]
    unfold Store.fill
    split_ifs
    · split
      · exact .inl rfl
      · exact .inr rfl
    · exact .inl rfl
  rcases hkey with hkey | hkey <;> rw [hkey] at hq
  · exact hbuf.2 q hq
  · rw [← Int.ofNat.inj hq]
    exact hin

/-- `get_fatent` answers as it does with an empty buffer. -/
theorem fatentAnswers (v : SearchVolume) :
    Asking.Answers v.getFatent v.FatentOk v.Begins v.fatentOf v.HeldSlot where
  ok_iff _ entry hbuf := fatentOk_iff hbuf entry
  answer_eq _ entry hbuf hin := ⟨getFatent_same hbuf.1 (.inl rfl) entry, getFatent_held hbuf hin⟩

/-- `get_fatent_value` answers with what is seen at first. -/
theorem valueAnswers (s : State) :
    Asking.Answers v.getFatentValue v.ValueOk v.Within (v.valueOf s)
      fun s' => v.Held s' ∧ ∀ i, v.Within i → v.valueOf s' i = v.valueOf s i where
  ok_iff _ entry hs := Roomy.reads_iff hs.1 entry
  answer_eq s' entry hs hin := by
    obtain ⟨s1, hget, -, hheld, hsame⟩ := Roomy.get_value hs.1 hin
    rw [hget]
    exact ⟨hs.2 entry hin, hheld, fun i hi => (Roomy.valueOf_congr hsame hi).trans (hs.2 i hi)⟩

/-! ## The chain of a directory -/

theorem lt_of_checkClust {fatsize : FatSize} {n : ℕ} (h : ¬checkClust n fatsize = true) :
    n ∈ Set.Iio (clustLimit fatsize) := by
  unfold checkClust at h
  simp only [Bool.or_eq_true, decide_eq_true_eq, not_or, not_le] at h
  exact h.2

theorem dentRound_lt {w : Dirs} {clusters : ℕ → Option Block} {filename : List UInt8} {dols : Bool}
    {val : ℕ → ℕ} {c t : ℕ} (h : Asking.walk (w.dentRound clusters filename dols) val c = some t) :
    t ∈ Set.Iio (clustLimit w.fatsize) := by
  unfold Asking.walk Dirs.dentRound at h
  split at h
  · cases h
  · rw [Asking.value_bind] at h
    split at h
    · cases h
    · dsimp only [Asking.value] at h
      split_ifs at h with hcheck
      cases h
      exact lt_of_checkClust hcheck

theorem entryRound_lt {w : Dirs} {clusters : ℕ → Option Block} {filename : List UInt8}
    {val : ℕ → ℕ} {c t : ℕ} (h : Asking.walk (w.entryRound clusters filename) val c = some t) :
    t ∈ Set.Iio (clustLimit w.fatsize) := by
  unfold Asking.walk Dirs.entryRound at h
  split at h
  · cases h
  · rw [Asking.value_bind] at h
    split at h
    · cases h
    · dsimp only [Asking.value] at h
      split_ifs at h with hcheck
      cases h
      exact lt_of_checkClust (not_or.1 hcheck).2

/-! ## All the loops -/

end SearchVolume

namespace Image

/-- All bytes of the device and the buffer are 255, as in a FAT without a free entry. -/
def Full (s : State) : Prop := s.disk = (fun _ => 255) ∧ s.fatbuf = fun _ => 255

section Full

variable {v : Image}

theorem copied_full (a b n : ℕ) :
    copied (fun _ => 255) (fun _ => 255) a b n = fun _ => (255 : UInt8) := by
  funext x
  unfold copied
  split <;> rfl

theorem diskWrite_full {disk buf disk' : Memory} {block n : ℕ} (hd : disk = fun _ => 255)
    (hb : buf = fun _ => 255) (h : v.diskWrite disk block n buf = some disk') :
    disk' = fun _ => 255 := by
  unfold diskWrite at h
  split_ifs at h
  cases h
  rw [hd, hb, copied_full]

theorem flush_full {s : State} (hs : Full s) (n : ℕ) : Full (v.flushFatBuffer s n).2 := by
  unfold flushFatBuffer
  dsimp only
  split
  · exact hs
  · next disk hdisk =>
    have hfull := diskWrite_full hs.1 hs.2 hdisk
    split_ifs
    · split
      · exact ⟨hfull, hs.2⟩
      · next disk2 hdisk2 => exact ⟨diskWrite_full hfull hs.2 hdisk2, hs.2⟩
    · exact ⟨hfull, hs.2⟩

theorem window_full {s : State} (hs : Full s) (g q : ℕ) : Full (v.window g s q).2 := by
  have hback : Full (v.writeBack s).2 := by
    unfold writeBack
    split
    · exact hs
    · exact flush_full hs _
  unfold window
  split_ifs
  · exact hs
  · dsimp only
    split_ifs
    · exact hback
    · exact ⟨hback.1, by rw [hback.1, hback.2, copied_full]⟩

theorem get_full (hwide : v.fatsize ≠ .fat12) {s : State} (hs : Full s) (entry : ℕ) :
    (v.getFatentValue s entry).1 ≠ 0 ∧ Full (v.getFatentValue s entry).2 := by
  have hwindow := window_full (v := v) hs (min Table.fatBufBlocks v.fatLength)
    (entry/v.fatBufEntries)
  unfold getFatentValue
  dsimp only
  split_ifs
  · refine ⟨?_, hwindow⟩
    dsimp only
    decide
  · refine ⟨?_, hwindow⟩
    have hload : ∀ p n, load (fun _ => 255) p n = List.replicate n 255 := fun p n => by
      rw [load, List.map_const', List.length_range']
    dsimp only
    rw [hwindow.2, entryAt_eq hwide _ (entry_place hwide entry).2, hload]
    obtain ⟨-, hbytes⟩ := entryBits_eq hwide
    rcases hbytes with hb | hb <;> rw [hb] <;> decide

/-- Without a free entry the search goes on for ever. -/
theorem full_not_ends (hwide : v.fatsize ≠ .fat12) {s : State} (hs : Full s) (start : ℕ) :
    ¬Ends v.searchStep (s, start) := by
  refine not_ends (I := fun c => Full c.1) hs fun c hc => ?_
  obtain ⟨hne, hfull⟩ := get_full hwide hc c.2
  exact ⟨_, if_neg hne, hfull⟩

end Full

end Image

end UBoot.Fat
