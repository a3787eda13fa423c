import UBoot.FatTable
import UBoot.StepLoop

/-!
# Loops over the FAT in `fs/fat/fat_write.c`

Empty clusters are looked for by counting up, and a chain that is cleared is
followed from entry to entry. No loop knows where the FAT ends: it is left at a
free entry, and the sectors behind the FAT are read where there is none.
-/

set_option autoImplicit false

namespace UBoot.Fat

open ByteStore LittleEndian StepLoop

/-- A volume that goes on behind the window of each FAT with which the loops begin. -/
structure Roomy extends Image where
  fatBytes_lt : fatLength*sectSize < 2^32
  room : fatSect+Table.fatBufBlocks+(if numOfFats = 2 then fatLength else 0) ≤ sectors

namespace Image

variable (v : Image)

/-- Sectors that are read, by the first one and their number, lie in the FAT and fit the buffer. -/
def InFat (read : ℕ × ℕ) : Prop :=
  v.fatSect ≤ read.1 ∧ read.1+read.2 ≤ v.fatSect+v.fatLength ∧ read.2 ≤ Table.fatBufBlocks

/-- The sectors that `get_fatent_value` reads. -/
def getReads (s : State) (entry : ℕ) : List (ℕ × ℕ) :=
  let bufnum := entry/v.fatBufEntries
  if s.fatbufnum = some bufnum ∨ (v.writeBack s).1 = false then []
  else [(bufnum*Table.fatBufBlocks+v.fatSect, min Table.fatBufBlocks v.fatLength)]

/-- The loop of `find_empty_cluster`, and of `determine_fatent`. -/
def searchStep (c : State × ℕ) : Option (State × ℕ) :=
  let r := v.getFatentValue c.1 c.2
  if r.1 = 0 then none else some (r.2, (c.2+1) % 2^32)

/-- The loop of `clear_fatent`. -/
def clearStep (c : State × ℕ) : Option (State × ℕ) :=
  let r := v.getFatentValue c.1 c.2
  if r.1 ≠ 0 then
    let s := (v.setFatentValue r.2 c.2 0).2
    if r.1 = 0xfffffff ∨ r.1 = 0xffff then none else some (s, r.1)
  else none

/-- A round of a loop reads in the FAT. -/
def ReadsInFat (c : State × ℕ) : Prop := ∀ read ∈ v.getReads c.1 c.2, v.InFat read

/-! ## What the loops see -/

/-- A window that is read lies in the FAT. -/
def WindowIn (bufnum : ℕ) : Prop :=
  bufnum*Table.fatBufBlocks+min Table.fatBufBlocks v.fatLength ≤ v.fatLength

/-- An entry of such a window. -/
def Within (entry : ℕ) : Prop := v.WindowIn (entry/v.fatBufEntries)

/-- The buffer is empty or holds such a window. -/
def Held (s : State) : Prop := ∀ n ∈ s.fatbufnum, v.WindowIn n

/-- A byte of a window as it is seen; behind a short FAT the buffer keeps what it has. -/
def seenByte (s : State) (p : ℕ) : UInt8 :=
  if s.fatbufnum = some (p/v.fatBufSize) then s.fatbuf (p % v.fatBufSize)
  else if p < v.fatLength*v.sectSize then s.disk (v.fatStart+p) else s.fatbuf (p % v.fatBufSize)

/-- The value of an entry, by the bytes of its window. -/
def valueOf (s : State) (entry : ℕ) : ℕ :=
  let bufnum := entry/v.fatBufEntries
  fatEntryAt (load (v.seenByte s) (bufnum*v.fatBufSize) v.fatBufSize) (entry-bufnum*v.fatBufEntries)
    v.fatsize

/-- The entries of windows in the FAT are seen alike. -/
def Same (s s' : State) : Prop := ∀ p, v.WindowIn (p/v.fatBufSize) → v.seenByte s' p = v.seenByte s p

/-- The entry behind another one in its chain, up to a mark that `clear_fatent` knows. -/
def chain (fat : ℕ → ℕ) (entry : ℕ) : Option ℕ :=
  if fat entry = 0 ∨ fat entry = 0xfffffff ∨ fat entry = 0xffff then none else some (fat entry)

end Image

namespace Roomy

variable {v : Roomy}

open Image

theorem not_dvd (v : Roomy) : ¬2^32 ∣ v.fatLength*v.sectSize :=
  Nat.not_dvd_of_pos_of_lt (Nat.mul_pos v.fatLength_pos v.sectSize_pos) v.fatBytes_lt

theorem windowIn_mono {m n : ℕ} (h : m ≤ n) (hn : v.WindowIn n) : v.WindowIn m :=
  le_trans (Nat.add_le_add_right (Nat.mul_le_mul_right _ h) _) hn

/-- A window in a FAT of fewer sectors than the buffer holds is the first one. -/
theorem windowIn_cases {n : ℕ} (h : v.WindowIn n) :
    n = 0 ∨ n*Table.fatBufBlocks+Table.fatBufBlocks ≤ v.fatLength := by
  unfold WindowIn Table.fatBufBlocks at h
  unfold Table.fatBufBlocks
  omega

theorem within_mono {m n : ℕ} (h : m ≤ n) (hn : v.Within n) : v.Within m :=
  windowIn_mono (Nat.div_le_div_right h) hn

/-- The entries in the FAT's windows have numbers of 32 bits. -/
theorem within_lt {entry : ℕ} (h : v.Within entry) : entry+1 < 2^32 := by
  have hmul := v.fatBufEntries_mul
  have hbits : 12 ≤ v.entryBits := by
    unfold Table.entryBits
    cases v.fatsize <;> decide
  have hpos : 0 < v.fatBufEntries := Nat.pos_of_ne_zero fun h0 => by
    rw [h0, Nat.zero_mul] at hmul
    have := v.fatBufSize_pos
    unfold fatBufSize at this
    omega
  have hentry : entry+1 ≤ (entry/v.fatBufEntries+1)*v.fatBufEntries := by
    have hdm := Nat.div_add_mod' entry v.fatBufEntries
    have hlt := Nat.mod_lt entry hpos
    rw [Nat.add_one_mul]
    omega
  have hbytes : (entry+1)*12 ≤ (entry/v.fatBufEntries+1)*(8*(Table.fatBufBlocks*v.sectSize)) :=
    calc (entry+1)*12 ≤ (entry/v.fatBufEntries+1)*v.fatBufEntries*v.entryBits :=
          Nat.mul_le_mul hentry hbits
      _ = _ := by rw [Nat.mul_assoc, hmul]
  have hsect := v.sectSize_lt
  rcases windowIn_cases h with h0 | hin
  · rw [h0] at hbytes
    unfold Table.fatBufBlocks at hbytes
    omega
  · have hlong := Nat.mul_le_mul_right v.sectSize hin
    have hlt := v.fatBytes_lt
    have heq : (entry/v.fatBufEntries+1)*(8*(Table.fatBufBlocks*v.sectSize)) =
        8*((entry/v.fatBufEntries*Table.fatBufBlocks+Table.fatBufBlocks)*v.sectSize) := by ring
    omega

/-- The buffer can be written back. -/
theorem back_spec {s : State} (hs : v.Held s) :
    ∃ disk, v.writeBack s = (true, { s with disk := disk }) ∧
      ∀ p, p < v.fatLength*v.sectSize → disk (v.fatStart+p) = v.fatByte s p := by
  unfold writeBack
  split
  · next hn =>
    refine ⟨s.disk, rfl, fun p _ => (fatByte_of_other ?_).symm⟩
    rw [hn]
    exact (Option.some_ne_none _).symm
  · next n hn =>
    have hend : n*Table.fatBufBlocks+v.fatSect+Table.fatBufBlocks+
        (if v.numOfFats = 2 then v.fatLength else 0) ≤ v.sectors := by
      have hfats := v.fats_le
      have hpos := v.numOfFats_pos
      have hroom := v.room
      rcases windowIn_cases (hs n hn) with rfl | hin
      · omega
      · have h1 := Nat.le_mul_of_pos_left v.fatLength hpos
        split_ifs with htwo
        · rw [htwo] at hfats
          omega
        · omega
    obtain ⟨disk, hflush, hdisk⟩ := flush_spec v.not_dvd hn hend
    exact ⟨disk, hflush, hdisk⟩

/-- What a call reads lies in the FAT if and only if the window does. -/
theorem reads_iff {s : State} (hs : v.Held s) (entry : ℕ) :
    v.ReadsInFat (s, entry) ↔ v.Within entry := by
  obtain ⟨disk, hback, -⟩ := back_spec hs
  unfold ReadsInFat getReads
  dsimp only
  rw [hback]
  by_cases hheld : s.fatbufnum = some (entry/v.fatBufEntries)
  · rw [if_pos (.inl hheld)]
    exact iff_of_true nofun (hs _ hheld)
  · rw [if_neg (by simp [hheld]), List.forall_mem_singleton]
    unfold InFat Within WindowIn
    dsimp only
    omega

/-! ## One call -/

theorem seenByte_held {s : State} {q o : ℕ} (hs : s.fatbufnum = some q) (ho : o < v.fatBufSize) :
    v.seenByte s (q*v.fatBufSize+o) = s.fatbuf o := by
  have hdiv : (q*v.fatBufSize+o)/v.fatBufSize = q := by
    rw [Nat.mul_comm, Nat.mul_add_div v.fatBufSize_pos, Nat.div_eq_of_lt ho, Nat.add_zero]
  rw [seenByte, if_pos (hdiv.symm ▸ hs), Nat.mul_comm, Nat.mul_add_mod, Nat.mod_eq_of_lt ho]

/-- A byte of such a window is one of the FAT, unless the FAT is shorter than the buffer. -/
theorem byte_lt {p : ℕ} (h : v.WindowIn (p/v.fatBufSize)) :
    p < v.fatLength*v.sectSize ∨ p/v.fatBufSize = 0 ∧ v.fatLength < Table.fatBufBlocks := by
  have hdm := Nat.div_add_mod' p v.fatBufSize
  have hlt := Nat.mod_lt p v.fatBufSize_pos
  have hlong : p/v.fatBufSize*Table.fatBufBlocks+Table.fatBufBlocks ≤ v.fatLength →
      p < v.fatLength*v.sectSize := fun hin => by
    have hmul := Nat.mul_le_mul_right v.sectSize hin
    rw [Nat.add_mul, Nat.mul_assoc, show Table.fatBufBlocks*v.sectSize = v.fatBufSize from rfl] at hmul
    omega
  rcases windowIn_cases h with h0 | hin
  · by_cases hfew : v.fatLength < Table.fatBufBlocks
    · exact .inr ⟨h0, hfew⟩
    · refine .inl (hlong ?_)
      rw [h0]
      omega
  · exact .inl (hlong hin)

/-- A window of the FAT is read, and what is seen stays the same. -/
theorem window_same {s : State} (hs : v.Held s) {q : ℕ} (hq : v.WindowIn q) :
    ∃ s', v.window (min Table.fatBufBlocks v.fatLength) s q = (true, s') ∧ s'.fatbufnum = some q ∧
      v.Held s' ∧ v.Same s s' := by
  unfold window
  by_cases hsame : s.fatbufnum = some q
  · exact ⟨s, if_pos hsame, hsame, hs, fun _ _ => rfl⟩
  obtain ⟨disk, hback, hdisk⟩ := back_spec hs
  rw [if_neg hsame, hback]
  refine ⟨_, rfl, rfl, fun n hn => Option.some.inj hn ▸ hq, fun p hp => ?_⟩
  have hdm := Nat.div_add_mod' p v.fatBufSize
  have hlt := Nat.mod_lt p v.fatBufSize_pos
  have hsize : v.fatBufSize = Table.fatBufBlocks*v.sectSize := rfl
  have hstart : (q*Table.fatBufBlocks+v.fatSect)*v.sectSize = v.fatStart+q*v.fatBufSize := by
    rw [hsize, fatStart]
    ring
  have hmin : min Table.fatBufBlocks v.fatLength*v.sectSize =
      min v.fatBufSize (v.fatLength*v.sectSize) := (Nat.mul_min_mul_right _ _ _).symm
  have hbyte := byte_lt hp
  unfold seenByte
  dsimp only
  rw [hstart, hmin]
  by_cases hw : q = p/v.fatBufSize
  · rw [← hw] at hbyte hdm
    rw [if_pos (congrArg some hw), if_neg (show ¬s.fatbufnum = some (p/v.fatBufSize) from hw ▸ hsame)]
    by_cases hin : p < v.fatLength*v.sectSize
    · rw [if_pos hin, copied_of_mem (Nat.zero_le _) (by omega), Nat.sub_zero,
        show v.fatStart+q*v.fatBufSize+p % v.fatBufSize = v.fatStart+p by omega, hdisk p hin,
        fatByte_of_other (hw ▸ hsame)]
    · -- behind a FAT that is shorter than the buffer
      obtain ⟨h0, hfew⟩ := hbyte.resolve_left hin
      rw [h0, Nat.zero_mul, Nat.zero_add] at hdm
      rw [if_neg hin, copied_of_outside (by omega)]
  · rw [if_neg fun hn => hw (Option.some.inj hn)]
    have hin : p < v.fatLength*v.sectSize := by
      rcases hbyte with hin | ⟨h0, hfew⟩
      · exact hin
      · rcases windowIn_cases hq with hq0 | hq6
        · exact absurd (hq0.trans h0.symm) hw
        · omega
    rw [if_pos hin, if_pos hin, hdisk p hin, fatByte]

/-- A value depends on the bytes of the windows in the FAT. -/
theorem valueOf_congr {s s' : State} (h : v.Same s s') {entry : ℕ} (hin : v.Within entry) :
    v.valueOf s' entry = v.valueOf s entry := by
  have hload : load (v.seenByte s') (entry/v.fatBufEntries*v.fatBufSize) v.fatBufSize =
      load (v.seenByte s) (entry/v.fatBufEntries*v.fatBufSize) v.fatBufSize :=
    load_congr _ _ _ _ fun p h1 h2 => h p (by
      rw [Nat.div_eq_of_lt_le h1 (by rw [Nat.succ_mul]; exact h2)]
      exact hin)
  unfold valueOf
  dsimp only
  rw [hload]

/-- `get_fatent_value` of an entry in the FAT's windows. -/
theorem get_value {s : State} (hs : v.Held s) {entry : ℕ} (hin : v.Within entry) :
    ∃ s', v.getFatentValue s entry = (v.valueOf s entry, s') ∧
      s'.fatbufnum = some (entry/v.fatBufEntries) ∧ v.Held s' ∧ v.Same s s' := by
  obtain ⟨s', hwindow, hnum, hheld, hsame⟩ := window_same hs hin
  refine ⟨s', ?_, hnum, hheld, hsame⟩
  have hload : load s'.fatbuf 0 v.fatBufSize =
      load (v.seenByte s') (entry/v.fatBufEntries*v.fatBufSize) v.fatBufSize :=
    FilledBuffer.load_eq_of _ _ _ _ _ fun j hj => by
      rw [Nat.zero_add, seenByte_held hnum hj]
  unfold getFatentValue
  dsimp only
  rw [hwindow]
  dsimp only
  rw [if_neg (by decide), ← valueOf_congr hsame hin, valueOf, hload]

/-- An entry of 16 or 32 bits, by its own bytes. -/
theorem valueOf_eq (hwide : v.fatsize ≠ .fat12) (s : State) (entry : ℕ) :
    v.valueOf s entry = ofLe (load (v.seenByte s) (v.entryBytes*entry) v.entryBytes) := by
  obtain ⟨hplace, hroom⟩ := entry_place hwide entry
  have hload : load (v.seenByte s) (entry/v.fatBufEntries*v.fatBufSize) v.fatBufSize =
      load (fun o => v.seenByte s (entry/v.fatBufEntries*v.fatBufSize+o)) 0 v.fatBufSize :=
    FilledBuffer.load_eq_of _ _ _ _ _ fun j _ => by rw [Nat.zero_add]
  unfold valueOf
  dsimp only
  rw [hload, entryAt_eq hwide _ hroom, hplace]
  exact congrArg ofLe (FilledBuffer.load_eq_of _ _ _ _ _ fun j _ => by rw [Nat.add_assoc])

/-- Bytes that are put into the buffer are seen in its window. -/
theorem seen_store {s : State} {q o p : ℕ} {bs : List UInt8} (hs : v.Held s)
    (hnum : s.fatbufnum = some q) (ho : o+bs.length ≤ v.fatBufSize)
    (hp : v.WindowIn (p/v.fatBufSize)) :
    v.seenByte ⟨s.disk, s.fatbufnum, store s.fatbuf o bs⟩ p =
      store (v.seenByte s) (q*v.fatBufSize+o) bs p := by
  have hdm := Nat.div_add_mod' p v.fatBufSize
  have hlt := Nat.mod_lt p v.fatBufSize_pos
  by_cases hw : q = p/v.fatBufSize
  · rw [← hw] at hdm
    have hheld : s.fatbufnum = some (p/v.fatBufSize) := hw ▸ hnum
    rw [seenByte, if_pos hheld]
    by_cases hat : o ≤ p % v.fatBufSize ∧ p % v.fatBufSize < o+bs.length
    · obtain ⟨j, hj⟩ := Nat.exists_eq_add_of_le hat.1
      have hj' : j < bs.length := by omega
      dsimp only
      rw [hj, store_of_inside _ _ _ hj', show p = q*v.fatBufSize+o+j by omega,
        store_of_inside _ _ _ hj']
    · dsimp only
      rw [store_of_outside _ _ _ _ (by omega), store_of_outside _ _ _ _ (by omega), seenByte,
        if_pos hheld]
  · have hin : p < v.fatLength*v.sectSize := by
      rcases byte_lt hp with hin | ⟨h0, hfew⟩
      · exact hin
      · rcases windowIn_cases (hs q hnum) with hq0 | hq6
        · exact absurd (hq0.trans h0.symm) hw
        · omega
    have hne : s.fatbufnum ≠ some (p/v.fatBufSize) := fun h =>
      hw (Option.some.inj (hnum.symm.trans h))
    rw [store_of_outside, seenByte, seenByte, if_neg hne, if_neg hne, if_pos hin, if_pos hin]
    by_contra hat
    refine hw (Nat.div_eq_of_lt_le ?_ ?_).symm
    · omega
    · rw [Nat.succ_mul]
      omega

/-- `set_fatent_value` of an entry whose window is in the buffer. -/
theorem set_value (hwide : v.fatsize ≠ .fat12) {s : State} {entry : ℕ} (hs : v.Held s)
    (hnum : s.fatbufnum = some (entry/v.fatBufEntries)) (value : ℕ) :
    ∃ s', v.setFatentValue s entry value = (true, s') ∧ v.Held s' ∧
      ∀ other, v.Within other → v.valueOf s' other =
        if other = entry then value % 2^v.entryBits else v.valueOf s other := by
  obtain ⟨hplace, hroom⟩ := entry_place hwide entry
  obtain ⟨hbits, hbytes⟩ := entryBits_eq hwide
  have hlen : (le v.entryBytes value).length = v.entryBytes := length_le _ _
  unfold setFatentValue
  dsimp only
  rw [if_neg hwide, window, if_pos hnum]
  dsimp only
  rw [if_neg (by decide)]
  refine ⟨_, rfl, hs, fun other hother => ?_⟩
  obtain ⟨hplace', hroom'⟩ := entry_place hwide other
  have hload : load (v.seenByte ⟨s.disk, s.fatbufnum, store s.fatbuf
        (v.entryBytes*(entry-entry/v.fatBufEntries*v.fatBufEntries)) (le v.entryBytes value)⟩)
        (v.entryBytes*other) v.entryBytes =
      load (store (v.seenByte s) (v.entryBytes*entry) (le v.entryBytes value))
        (v.entryBytes*other) v.entryBytes :=
    load_congr _ _ _ _ fun p h1 h2 => by
      rw [hplace]
      refine seen_store hs hnum (by omega) ?_
      rw [Nat.div_eq_of_lt_le (show other/v.fatBufEntries*v.fatBufSize ≤ p by omega)
        (by rw [Nat.succ_mul]; omega)]
      exact hother
  rw [valueOf_eq hwide, valueOf_eq hwide, hload]
  split_ifs with heq
  · have hholds := (holds_store (v.seenByte s) (v.entryBytes*entry) (le v.entryBytes value)).load_eq
    rw [hlen] at hholds
    rw [heq, hholds, ofLe_le, hbits, pow_mul, show (2 : ℕ)^8 = 256 by decide]
  · congr 1
    refine load_congr _ _ _ _ fun x h1 h2 => store_of_outside _ _ _ _ ?_
    rw [hlen]
    rcases Nat.lt_or_gt_of_ne heq with hlt | hlt <;>
    · have hmul := Nat.mul_le_mul_left v.entryBytes (Nat.succ_le_of_lt hlt)
      rw [Nat.mul_succ] at hmul
      omega

/-! ## Looking for an empty cluster -/

/-- A search over the values as they are seen at first. -/
def searchNext (val : ℕ → ℕ) (entry : ℕ) : Option ℕ :=
  if val entry = 0 then none else some ((entry+1) % 2^32)

theorem search_values {s : State} (hs : v.Held s) (start : ℕ) :
    EndsWithin v.searchStep v.ReadsInFat (s, start) ↔
      EndsWithin (searchNext (v.valueOf s)) v.Within start := by
  refine endsWithin_congr (R := fun c e => c.2 = e ∧ v.Held c.1 ∧
    ∀ i, v.Within i → v.valueOf c.1 i = v.valueOf s i) ?_ ⟨rfl, hs, fun _ _ => rfl⟩
  rintro ⟨s', e⟩ _ ⟨rfl, hheld, hval⟩
  refine ⟨reads_iff hheld e, fun hok => ?_⟩
  have hin := (reads_iff hheld e).1 hok
  obtain ⟨s1, hget, -, hheld1, hsame⟩ := get_value hheld hin
  unfold searchStep searchNext
  dsimp only
  rw [hget, hval e hin]
  split_ifs with hzero
  · exact ⟨iff_of_true rfl rfl, fun _ _ h => by cases h⟩
  · refine ⟨iff_of_false nofun nofun, fun c t hc ht => ?_⟩
    cases hc
    cases ht
    exact ⟨rfl, hheld1, fun i hi => (valueOf_congr hsame hi).trans (hval i hi)⟩

/-- A search is left, with what it reads in the FAT, if and only if there is a free entry. -/
theorem empty_search_iff {s : State} (hs : v.Held s) (start : ℕ) :
    EndsWithin v.searchStep v.ReadsInFat (s, start) ↔
      ∃ e, start ≤ e ∧ v.Within e ∧ v.valueOf s e = 0 := by
  rw [search_values hs]
  have hnext : ∀ e, v.Within e → v.valueOf s e ≠ 0 → searchNext (v.valueOf s) e = some (e+1) :=
    fun e he hne => by rw [searchNext, if_neg hne, Nat.mod_eq_of_lt (within_lt he)]
  constructor
  · intro h
    refine h.induct (P := fun start => ∃ e, start ≤ e ∧ v.Within e ∧ v.valueOf s e = 0)
      fun e he ih => ?_
    by_cases hzero : v.valueOf s e = 0
    · exact ⟨e, le_rfl, he, hzero⟩
    · obtain ⟨e', hle, hrest⟩ := ih (e+1) (hnext e he hzero)
      exact ⟨e', (Nat.le_succ e).trans hle, hrest⟩
  · rintro ⟨e, hle, hin, hzero⟩
    obtain ⟨d, rfl⟩ := Nat.exists_eq_add_of_le hle
    clear hle
    induction d generalizing start with
    | zero =>
      rw [Nat.add_zero] at hin hzero
      refine endsWithin_iff.2 ⟨hin, fun t ht => ?_⟩
      rw [searchNext, if_pos hzero] at ht
      cases ht
    | succ d ih =>
      have hstart : v.Within start := within_mono (Nat.le_add_right _ _) hin
      refine endsWithin_iff.2 ⟨hstart, fun t ht => ?_⟩
      by_cases hfirst : v.valueOf s start = 0
      · rw [searchNext, if_pos hfirst] at ht
        cases ht
      · cases (hnext start hstart hfirst).symm.trans ht
        rw [show start+(d+1) = start+1+d by omega] at hin hzero
        exact ih (start+1) hin hzero

/-! ## Clearing a chain -/

theorem within_finite (v : Roomy) : {e | v.Within e}.Finite :=
  (Set.finite_Iio (2^32)).subset fun _ he => (Nat.lt_succ_self _).trans (within_lt he)

/-- Entries of 12 bits are not set, so that the chain is followed as it is. -/
theorem clear_twelve (htwelve : v.fatsize = .fat12) {s : State} (hs : v.Held s) (start : ℕ) :
    EndsWithin v.clearStep v.ReadsInFat (s, start) ↔
      EndsWithin (chain (v.valueOf s)) v.Within start := by
  refine endsWithin_congr (R := fun c e => c.2 = e ∧ v.Held c.1 ∧
    ∀ i, v.Within i → v.valueOf c.1 i = v.valueOf s i) ?_ ⟨rfl, hs, fun _ _ => rfl⟩
  rintro ⟨s', e⟩ _ ⟨rfl, hheld, hval⟩
  refine ⟨reads_iff hheld e, fun hok => ?_⟩
  have hin := (reads_iff hheld e).1 hok
  obtain ⟨s1, hget, -, hheld1, hsame⟩ := get_value hheld hin
  unfold clearStep chain
  dsimp only
  rw [hget, hval e hin]
  by_cases hzero : v.valueOf s e = 0
  · rw [if_neg (not_not.2 hzero), if_pos (.inl hzero)]
    exact ⟨iff_of_true rfl rfl, fun _ _ h => by cases h⟩
  · rw [if_pos hzero]
    by_cases hmark : v.valueOf s e = 0xfffffff ∨ v.valueOf s e = 0xffff
    · rw [if_pos hmark, if_pos (.inr hmark)]
      exact ⟨iff_of_true rfl rfl, fun _ _ h => by cases h⟩
    · rw [if_neg hmark, if_neg (not_or.2 ⟨hzero, hmark⟩)]
      refine ⟨iff_of_false nofun nofun, fun c t hc ht => ?_⟩
      cases hc
      cases ht
      have hset : (v.setFatentValue s1 e 0).2 = s1 := by
        unfold setFatentValue
        rw [if_pos htwelve]
      rw [hset]
      exact ⟨rfl, hheld1, fun i hi => (valueOf_congr hsame hi).trans (hval i hi)⟩

/-- Entries of 16 or 32 bits are cut out of the chain when they are passed. -/
theorem clear_wide (hwide : v.fatsize ≠ .fat12) {s : State} (hs : v.Held s) (start : ℕ) :
    EndsWithin v.clearStep v.ReadsInFat (s, start) ↔
      EndsWithin cutStep (fun c => v.Within c.2) (chain (v.valueOf s), start) := by
  refine endsWithin_congr (R := fun c d => c.2 = d.2 ∧ v.Held c.1 ∧
    ∀ i, v.Within i → chain (v.valueOf c.1) i = d.1 i) ?_ ⟨rfl, hs, fun _ _ => rfl⟩
  rintro ⟨s', e⟩ ⟨next, _⟩ ⟨rfl, hheld, hnext⟩
  refine ⟨reads_iff hheld e, fun hok => ?_⟩
  have hin := (reads_iff hheld e).1 hok
  obtain ⟨s1, hget, hnum, hheld1, hsame⟩ := get_value hheld hin
  have hstep := hnext e hin
  dsimp only at hstep hnext
  unfold clearStep cutStep
  dsimp only
  rw [hget, ← hstep]
  unfold chain
  by_cases hzero : v.valueOf s' e = 0
  · rw [if_neg (not_not.2 hzero), if_pos (.inl hzero)]
    exact ⟨iff_of_true rfl rfl, fun _ _ h => by cases h⟩
  · rw [if_pos hzero]
    by_cases hmark : v.valueOf s' e = 0xfffffff ∨ v.valueOf s' e = 0xffff
    · rw [if_pos hmark, if_pos (.inr hmark)]
      exact ⟨iff_of_true rfl rfl, fun _ _ h => by cases h⟩
    · rw [if_neg hmark, if_neg (not_or.2 ⟨hzero, hmark⟩)]
      refine ⟨iff_of_false nofun nofun, fun c d hc hd => ?_⟩
      cases hc
      cases hd
      obtain ⟨s2, hset, hheld2, hval⟩ := set_value hwide hheld1 hnum 0
      refine ⟨rfl, by rwa [hset], fun i hi => ?_⟩
      dsimp only
      rw [hset]
      by_cases heq : i = e
      · rw [heq, Function.update_self]
        exact if_pos (.inl (by rw [hval e hin, if_pos rfl, Nat.zero_mod]))
      · rw [Function.update_of_ne heq, ← hnext i hi]
        unfold chain
        rw [hval i hi, if_neg heq, valueOf_congr hsame hi]

/-- `clear_fatent` is left, with what it reads in the FAT, if and only if the chain stays there;
with 12 bits, where nothing is cleared, the chain must not come back to an entry, either. -/
theorem clear_iff {s : State} (hs : v.Held s) (start : ℕ) :
    EndsWithin v.clearStep v.ReadsInFat (s, start) ↔
      (∀ e, Reaches (chain (v.valueOf s)) start e → v.Within e) ∧
        (v.fatsize = .fat12 → NoReturn (chain (v.valueOf s)) start) := by
  by_cases htwelve : v.fatsize = .fat12
  · rw [clear_twelve htwelve hs]
    constructor
    · exact fun h => ⟨h.2, fun _ => noReturn_of_ends h.1⟩
    · exact fun h => ⟨(ends_iff_noReturn (v.within_finite.subset h.1)).2 (h.2 htwelve), h.1⟩
  · rw [clear_wide htwelve hs, cut_endsWithin_iff v.within_finite]
    exact ⟨fun h => ⟨h, fun h12 => absurd h12 htwelve⟩, And.left⟩

end Roomy

end UBoot.Fat
