import UBoot.FatVolume
import UBoot.FilledBuffer

/-!
# Writing entries: `get_fatent_value` and `set_fatent_value` of `fs/fat/fat_write.c`

The buffer is written back, to both copies of the FAT, before another window is
read. The FAT with the buffer over it is what the two functions work on.
-/

set_option autoImplicit false

namespace UBoot.Fat

open ByteStore LittleEndian ReadCache

/-- A volume with its copies of the FAT. -/
structure Image extends Table where
  numOfFats : ℕ
  numOfFats_pos : 0 < numOfFats
  fatLength_pos : 0 < fatLength
  sectSize_lt : sectSize < 2^16
  fats_le : fatSect+numOfFats*fatLength ≤ sectors

/-- The bytes of the device and the buffer; `none` is a `fatbufnum` of -1. -/
structure State where
  disk : Memory
  fatbufnum : Option ℕ
  fatbuf : Memory

/-- `n` bytes from `b` on over those of `mem` from `a` on. -/
def copied (mem src : Memory) (a b n : ℕ) : Memory :=
  fun x => if a ≤ x ∧ x < a+n then src (b+(x-a)) else mem x

namespace Image

variable (v : Image)

/-- `FATBUFSIZE` -/
def fatBufSize : ℕ := Table.fatBufBlocks*v.sectSize

/-- The byte of the device at which the FAT begins. -/
def fatStart : ℕ := v.fatSect*v.sectSize

def diskWrite (disk : Memory) (block nrBlocks : ℕ) (buf : Memory) : Option Memory :=
  if block+nrBlocks > v.sectors then none
  else some (copied disk buf (block*v.sectSize) 0 (nrBlocks*v.sectSize))

/-- `getsize` where the length of the FAT has been turned into bytes before. -/
def getSize : ℕ := min Table.fatBufBlocks (v.fatLength*v.sectSize % 2^32)

/-- `flush_fat_buffer`, for the window `fatbufnum`. -/
def flushFatBuffer (s : State) (fatbufnum : ℕ) : Bool × State :=
  let startblock := fatbufnum*Table.fatBufBlocks+v.fatSect
  match v.diskWrite s.disk startblock v.getSize s.fatbuf with
  | none => (false, s)
  | some disk =>
    if v.numOfFats = 2 then
      match v.diskWrite disk (startblock+v.fatLength) v.getSize s.fatbuf with
      | none => (false, { s with disk := disk })
      | some disk => (true, { s with disk := disk })
    else (true, { s with disk := disk })

/-- "Write back the fatbuf to the disk" -/
def writeBack (s : State) : Bool × State :=
  match s.fatbufnum with
  | none => (true, s)
  | some n => v.flushFatBuffer s n

/-- The first half of both functions: the buffer gets the window `bufnum`, of `getsize` sectors. -/
def window (getsize : ℕ) (s : State) (bufnum : ℕ) : Bool × State :=
  if s.fatbufnum = some bufnum then (true, s)
  else
    let r := v.writeBack s
    if r.1 = false then r
    else (true, ⟨r.2.disk, some bufnum, copied r.2.fatbuf r.2.disk 0
      ((bufnum*Table.fatBufBlocks+v.fatSect)*v.sectSize) (getsize*v.sectSize)⟩)

def getFatentValue (s : State) (entry : ℕ) : ℕ × State :=
  let bufnum := entry/v.fatBufEntries
  let offset := entry-bufnum*v.fatBufEntries
  let r := v.window (min Table.fatBufBlocks v.fatLength) s bufnum
  if r.1 = false then (2^32-1, r.2)
  else (fatEntryAt (load r.2.fatbuf 0 v.fatBufSize) offset v.fatsize, r.2)

/-- The bytes of an entry. -/
def entryBytes : ℕ := v.entryBits/8

/-- `set_fatent_value`: its result is 0 or -1, here a `Bool`. -/
def setFatentValue (s : State) (entry entryValue : ℕ) : Bool × State :=
  if v.fatsize = .fat12 then (false, s)
  else
    let bufnum := entry/v.fatBufEntries
    let offset := entry-bufnum*v.fatBufEntries
    let r := v.window v.getSize s bufnum
    if r.1 = false then r
    else (true, { r.2 with
      fatbuf := store r.2.fatbuf (v.entryBytes*offset) (le v.entryBytes entryValue) })

/-! ## What the functions work on -/

/-- A byte of the FAT with the buffer over it. -/
def fatByte (s : State) (p : ℕ) : UInt8 :=
  if s.fatbufnum = some (p/v.fatBufSize) then s.fatbuf (p % v.fatBufSize)
  else s.disk (v.fatStart+p)

/-- An entry of 16 or 32 bits of it. -/
def entryOf (s : State) (entry : ℕ) : ℕ :=
  ofLe (load (v.fatByte s) (v.entryBytes*entry) v.entryBytes)

/-- The entry lies in the FAT. -/
def Inside (entry : ℕ) : Prop := (entry+1)*v.entryBits ≤ 8*(v.fatLength*v.sectSize)

/-- The buffer is empty or holds a window of the FAT. -/
def Windowed (s : State) : Prop := ∀ n ∈ s.fatbufnum, n*Table.fatBufBlocks < v.fatLength

/-- An entry that is set is got back, and the others are not changed. -/
def Law (s : State) : Prop :=
  ∀ entry value, v.Inside entry → (v.setFatentValue s entry value).1 = true ∧
    ∀ other, v.Inside other → (v.getFatentValue (v.setFatentValue s entry value).2 other).1 =
      if other = entry then value % 2^v.entryBits else (v.getFatentValue s other).1

/-- The last window that is written back ends on the volume, also in the second copy, and the
number of bytes does not come to zero in 32 bits. -/
def Fits : Prop :=
  ¬2^32 ∣ v.fatLength*v.sectSize ∧ (v.fatLength ≤ Table.fatBufBlocks ∨
    (v.fatLength-1)/Table.fatBufBlocks*Table.fatBufBlocks+v.fatSect+Table.fatBufBlocks+
      (if v.numOfFats = 2 then v.fatLength else 0) ≤ v.sectors)

/-! ## Windows -/

section Windows

variable {v}

theorem fatBufSize_pos : 0 < v.fatBufSize := Nat.mul_pos (by decide) v.sectSize_pos

theorem getSize_eq (h : ¬2^32 ∣ v.fatLength*v.sectSize) : v.getSize = Table.fatBufBlocks := by
  obtain ⟨k, hk⟩ := v.sectSize_dvd
  have hmod : v.fatLength*v.sectSize % 2^32 % 32 = 0 := by
    rw [Nat.mod_mod_of_dvd _ (by decide), hk, Nat.mul_left_comm, Nat.mul_mod_right]
  have hne : v.fatLength*v.sectSize % 2^32 ≠ 0 := fun h0 => h (Nat.dvd_of_mod_eq_zero h0)
  unfold getSize
  rw [Nat.min_eq_left]
  unfold Table.fatBufBlocks
  omega

theorem copied_of_mem {mem src : Memory} {a b n x : ℕ} (h1 : a ≤ x) (h2 : x < a+n) :
    copied mem src a b n x = src (b+(x-a)) := if_pos ⟨h1, h2⟩

theorem copied_of_outside {mem src : Memory} {a b n x : ℕ} (h : x < a ∨ a+n ≤ x) :
    copied mem src a b n x = mem x := if_neg (by omega)

theorem fatByte_of_window {s : State} {p : ℕ} (h : s.fatbufnum = some (p/v.fatBufSize)) :
    v.fatByte s p = s.fatbuf (p % v.fatBufSize) := if_pos h

theorem fatByte_of_other {s : State} {p : ℕ} (h : s.fatbufnum ≠ some (p/v.fatBufSize)) :
    v.fatByte s p = s.disk (v.fatStart+p) := if_neg h

/-- The end of a window in the FAT, and of its copy. -/
theorem window_fits (h : v.Fits) {n : ℕ} (hn : n*Table.fatBufBlocks < v.fatLength)
    (hmany : Table.fatBufBlocks < v.fatLength) :
    n*Table.fatBufBlocks+v.fatSect+Table.fatBufBlocks+
      (if v.numOfFats = 2 then v.fatLength else 0) ≤ v.sectors := by
  have hend := h.2.resolve_left (by omega)
  have hle : n ≤ (v.fatLength-1)/Table.fatBufBlocks :=
    (Nat.le_div_iff_mul_le (by decide)).2 (by omega)
  have hmul := Nat.mul_le_mul_right Table.fatBufBlocks hle
  omega

/-- After the buffer is written back, the FAT is on the device. -/
theorem flush_spec (hdvd : ¬2^32 ∣ v.fatLength*v.sectSize) {s : State} {n : ℕ}
    (hs : s.fatbufnum = some n) (hend : n*Table.fatBufBlocks+v.fatSect+Table.fatBufBlocks+
      (if v.numOfFats = 2 then v.fatLength else 0) ≤ v.sectors) :
    ∃ disk, v.flushFatBuffer s n = (true, { s with disk := disk }) ∧
      ∀ p, p < v.fatLength*v.sectSize → disk (v.fatStart+p) = v.fatByte s p := by
  have hsize := getSize_eq hdvd
  have hpos := v.fatBufSize_pos
  have hstart : (n*Table.fatBufBlocks+v.fatSect)*v.sectSize = v.fatStart+n*v.fatBufSize := by
    unfold fatStart fatBufSize
    ring
  have hbuf : Table.fatBufBlocks*v.sectSize = v.fatBufSize := rfl
  -- the first write puts the window over the bytes of the FAT
  have hfirst : ∀ p, copied s.disk s.fatbuf (v.fatStart+n*v.fatBufSize) 0 v.fatBufSize
      (v.fatStart+p) = v.fatByte s p := fun p => by
    have hdm := Nat.div_add_mod' p v.fatBufSize
    have hlt := Nat.mod_lt p hpos
    by_cases hp : n = p/v.fatBufSize
    · rw [← hp] at hdm
      rw [fatByte_of_window (hp ▸ hs), copied_of_mem (by omega) (by omega)]
      congr 1
      omega
    · rw [fatByte_of_other fun h => hp (Option.some.inj (hs.symm.trans h)), copied_of_outside]
      by_contra hin
      refine hp (Nat.div_eq_of_lt_le ?_ ?_).symm
      · omega
      · rw [Nat.succ_mul]
        omega
  unfold flushFatBuffer diskWrite
  dsimp only
  rw [hsize, hstart, hbuf, if_neg (by split_ifs at hend <;> omega)]
  dsimp only
  by_cases htwo : v.numOfFats = 2
  · rw [if_pos htwo] at hend ⊢
    rw [if_neg (by omega)]
    refine ⟨_, rfl, fun p hp => ?_⟩
    rw [copied_of_outside, hfirst p]
    -- the second one lies behind the FAT
    left
    rw [Nat.add_mul, hstart]
    omega
  · rw [if_neg htwo]
    exact ⟨_, rfl, fun p _ => hfirst p⟩

theorem writeBack_spec (h : v.Fits) {s : State} (hs : v.Windowed s) {q : ℕ}
    (hq : q*Table.fatBufBlocks < v.fatLength) (hother : s.fatbufnum ≠ some q) :
    ∃ disk, v.writeBack s = (true, { s with disk := disk }) ∧
      ∀ p, p < v.fatLength*v.sectSize → disk (v.fatStart+p) = v.fatByte s p := by
  unfold writeBack
  split
  · next hn =>
    refine ⟨s.disk, rfl, fun p _ => (fatByte_of_other ?_).symm⟩
    rw [hn]
    exact (Option.some_ne_none _).symm
  · next n hn =>
    have hn0 := hs n hn
    refine flush_spec h.1 hn (window_fits h hn0 ?_)
    by_contra hfew
    refine hother (hn.trans (congrArg some ?_))
    unfold Table.fatBufBlocks at hq hn0 hfew
    omega

/-- After a window is read the FAT is the same, and the buffer is the window. -/
theorem window_spec (h : v.Fits) {s : State} (hs : v.Windowed s) {q g : ℕ}
    (hq : q*Table.fatBufBlocks < v.fatLength)
    (hg : g = Table.fatBufBlocks ∨ g = v.fatLength ∧ v.fatLength ≤ Table.fatBufBlocks) :
    ∃ s', v.window g s q = (true, s') ∧ s'.fatbufnum = some q ∧
      ∀ p, p < v.fatLength*v.sectSize → v.fatByte s' p = v.fatByte s p := by
  unfold window
  by_cases hsame : s.fatbufnum = some q
  · exact ⟨s, if_pos hsame, hsame, fun _ _ => rfl⟩
  obtain ⟨disk, hr, hdisk⟩ := writeBack_spec h hs hq hsame
  have hpos := v.fatBufSize_pos
  have hstart : (q*Table.fatBufBlocks+v.fatSect)*v.sectSize = v.fatStart+q*v.fatBufSize := by
    unfold fatStart fatBufSize
    ring
  rw [if_neg hsame, hr]
  refine ⟨_, rfl, rfl, fun p hp => ?_⟩
  have hdm := Nat.div_add_mod' p v.fatBufSize
  have hlt := Nat.mod_lt p hpos
  rw [← hdisk p hp]
  by_cases hw : q = p/v.fatBufSize
  · rw [fatByte_of_window (congrArg some hw)]
    dsimp only
    rw [hstart, copied_of_mem (Nat.zero_le _)]
    · rw [hw]
      congr 1
      omega
    · rcases hg with rfl | ⟨rfl, -⟩
      · exact (Nat.zero_add _).symm ▸ hlt
      · rw [← hw] at hdm
        omega
  · rw [fatByte_of_other fun hn => hw (Option.some.inj hn)]

end Windows

/-! ## Entries -/

section Entries

variable {v}

theorem entryBits_eq (h : v.fatsize ≠ .fat12) :
    v.entryBits = 8*v.entryBytes ∧ (v.entryBytes = 2 ∨ v.entryBytes = 4) := by
  unfold entryBytes Table.entryBits
  cases hsize : v.fatsize with
  | fat12 => exact absurd hsize h
  | fat16 => exact ⟨rfl, .inl rfl⟩
  | fat32 => exact ⟨rfl, .inr rfl⟩

/-- The place of an entry in its window. -/
theorem entry_place (h : v.fatsize ≠ .fat12) (entry : ℕ) :
    v.entryBytes*entry = entry/v.fatBufEntries*v.fatBufSize+
        v.entryBytes*(entry-entry/v.fatBufEntries*v.fatBufEntries) ∧
      v.entryBytes*(entry-entry/v.fatBufEntries*v.fatBufEntries)+v.entryBytes ≤ v.fatBufSize := by
  obtain ⟨hbits, hbytes⟩ := entryBits_eq h
  have hmul := v.fatBufEntries_mul
  have hpos := v.fatBufSize_pos
  rw [hbits, show Table.fatBufBlocks*v.sectSize = v.fatBufSize from rfl, Nat.mul_left_comm] at hmul
  have hsize : v.fatBufEntries*v.entryBytes = v.fatBufSize := by omega
  have hentries : 0 < v.fatBufEntries := Nat.pos_of_ne_zero fun h0 => by
    rw [h0, Nat.zero_mul] at hsize
    omega
  have hdm := Nat.div_add_mod' entry v.fatBufEntries
  have hlt := Nat.mod_lt entry hentries
  rw [show entry-entry/v.fatBufEntries*v.fatBufEntries = entry % v.fatBufEntries by omega]
  generalize entry/v.fatBufEntries = q at hdm ⊢
  generalize entry % v.fatBufEntries = r at hdm hlt ⊢
  constructor
  · rw [← hdm, ← hsize]
    ring
  · rw [← hsize, Nat.mul_comm v.fatBufEntries, ← Nat.mul_succ]
    exact Nat.mul_le_mul_left _ hlt

/-- The window of an entry of the FAT. -/
theorem entry_window (h : v.fatsize ≠ .fat12) {entry : ℕ} (hin : v.Inside entry) :
    ∃ q r, entry/v.fatBufEntries = q ∧ entry-q*v.fatBufEntries = r ∧
      v.entryBytes*entry = q*v.fatBufSize+v.entryBytes*r ∧
      v.entryBytes*r+v.entryBytes ≤ v.fatBufSize ∧ q*Table.fatBufBlocks < v.fatLength ∧
      v.entryBytes*entry+v.entryBytes ≤ v.fatLength*v.sectSize := by
  obtain ⟨hbits, hbytes⟩ := entryBits_eq h
  obtain ⟨hplace, hroom⟩ := entry_place h entry
  have hin' : v.entryBytes*entry+v.entryBytes ≤ v.fatLength*v.sectSize := by
    unfold Inside at hin
    rw [hbits, Nat.mul_comm, Nat.mul_succ, Nat.mul_assoc] at hin
    omega
  refine ⟨_, _, rfl, rfl, hplace, hroom, ?_, hin'⟩
  refine Nat.lt_of_mul_lt_mul_right (a := v.sectSize) ?_
  rw [Nat.mul_assoc, show Table.fatBufBlocks*v.sectSize = v.fatBufSize from rfl]
  omega

theorem entryAt_eq (h : v.fatsize ≠ .fat12) (buf : Memory) {r : ℕ}
    (hr : v.entryBytes*r+v.entryBytes ≤ v.fatBufSize) :
    fatEntryAt (load buf 0 v.fatBufSize) r v.fatsize =
      ofLe (load buf (v.entryBytes*r) v.entryBytes) := by
  cases hsize : v.fatsize with
  | fat12 => exact absurd hsize h
  | fat16 =>
    have hbytes : v.entryBytes = 2 := by
      unfold entryBytes Table.entryBits
      rw [hsize]
      rfl
    rw [hbytes] at hr ⊢
    dsimp only [fatEntryAt, word]
    rw [fieldAt_load buf 0 hr, Nat.zero_add]
  | fat32 =>
    have hbytes : v.entryBytes = 4 := by
      unfold entryBytes Table.entryBits
      rw [hsize]
      rfl
    rw [hbytes] at hr ⊢
    dsimp only [fatEntryAt]
    rw [fieldAt_load buf 0 hr, Nat.zero_add]

/-- In the window of an entry, the buffer has the bytes of the FAT. -/
theorem fatByte_window {s : State} {q o : ℕ} (hs : s.fatbufnum = some q) (ho : o < v.fatBufSize) :
    v.fatByte s (q*v.fatBufSize+o) = s.fatbuf o := by
  have hdiv : (q*v.fatBufSize+o)/v.fatBufSize = q := by
    rw [Nat.mul_comm, Nat.mul_add_div v.fatBufSize_pos, Nat.div_eq_of_lt ho, Nat.add_zero]
  rw [fatByte_of_window (hdiv.symm ▸ hs), Nat.mul_comm, Nat.mul_add_mod, Nat.mod_eq_of_lt ho]

theorem get_spec (h : v.Fits) (hwide : v.fatsize ≠ .fat12) {s : State} (hs : v.Windowed s)
    {entry : ℕ} (hin : v.Inside entry) : (v.getFatentValue s entry).1 = v.entryOf s entry := by
  obtain ⟨q, r, hq, hr, hplace, hroom, hlt, hend⟩ := entry_window hwide hin
  have hg : min Table.fatBufBlocks v.fatLength = Table.fatBufBlocks ∨
      min Table.fatBufBlocks v.fatLength = v.fatLength ∧ v.fatLength ≤ Table.fatBufBlocks :=
    (le_total Table.fatBufBlocks v.fatLength).imp Nat.min_eq_left fun hle => ⟨Nat.min_eq_right hle, hle⟩
  obtain ⟨s', hwindow, hnum, hbyte⟩ := window_spec h hs hlt hg
  unfold getFatentValue
  dsimp only
  rw [hq, hr, hwindow]
  dsimp only
  rw [if_neg (by decide), entryAt_eq hwide _ hroom, entryOf]
  refine congrArg ofLe (FilledBuffer.load_eq_of _ _ _ _ _ fun j hj => ?_)
  rw [← hbyte _ (by omega), hplace, Nat.add_assoc, fatByte_window hnum (by omega)]

theorem set_spec (h : v.Fits) (hwide : v.fatsize ≠ .fat12) {s : State} (hs : v.Windowed s)
    {entry : ℕ} (value : ℕ) (hin : v.Inside entry) :
    ∃ s', v.setFatentValue s entry value = (true, s') ∧ v.Windowed s' ∧
      ∀ p, p < v.fatLength*v.sectSize → v.fatByte s' p =
        store (v.fatByte s) (v.entryBytes*entry) (le v.entryBytes value) p := by
  obtain ⟨q, r, hq, hr, hplace, hroom, hlt, hend⟩ := entry_window hwide hin
  obtain ⟨s', hwindow, hnum, hbyte⟩ := window_spec h hs hlt (.inl (getSize_eq h.1))
  unfold setFatentValue
  dsimp only
  rw [if_neg hwide, hq, hr, hwindow]
  dsimp only
  rw [if_neg (by decide)]
  refine ⟨_, rfl, fun n hn => Option.some.inj (hnum.symm.trans hn) ▸ hlt, fun p hp => ?_⟩
  have hpos := v.fatBufSize_pos
  have hdm := Nat.div_add_mod' p v.fatBufSize
  have hmod := Nat.mod_lt p hpos
  have hlen : (le v.entryBytes value).length = v.entryBytes := length_le _ _
  by_cases hw : s'.fatbufnum = some (p/v.fatBufSize)
  · have hqp : q = p/v.fatBufSize := Option.some.inj (hnum.symm.trans hw)
    refine Eq.trans (fatByte_of_window ?_) ?_
    · exact hw
    dsimp only
    rw [← hqp] at hdm
    by_cases hat : v.entryBytes*r ≤ p % v.fatBufSize ∧ p % v.fatBufSize < v.entryBytes*r+v.entryBytes
    · obtain ⟨j, hj⟩ := Nat.exists_eq_add_of_le hat.1
      have hj' : j < (le v.entryBytes value).length := by omega
      rw [hj, store_of_inside _ _ _ hj', show p = v.entryBytes*entry+j by omega,
        store_of_inside _ _ _ hj']
    · rw [store_of_outside _ _ _ _ (by omega), store_of_outside _ _ _ _ (by omega)]
      exact (fatByte_of_window hw).symm.trans (hbyte p hp)
  · rw [store_of_outside]
    · refine Eq.trans (fatByte_of_other ?_) ((fatByte_of_other hw).symm.trans (hbyte p hp))
      exact hw
    have hqp : q ≠ p/v.fatBufSize := fun he => hw (he ▸ hnum)
    by_contra hat
    refine hqp (Nat.div_eq_of_lt_le ?_ ?_).symm
    · omega
    · rw [Nat.succ_mul]
      omega

/-- Where everything is written back, the entry that is set is got back, and no other changes. -/
theorem law_of_fits (h : v.Fits) (hwide : v.fatsize ≠ .fat12) {s : State} (hs : v.Windowed s) :
    v.Law s := by
  intro entry value hin
  obtain ⟨s', hset, hs', hbyte⟩ := set_spec h hwide hs value hin
  rw [hset]
  refine ⟨rfl, fun other hother => ?_⟩
  obtain ⟨hbits, hbytes⟩ := entryBits_eq hwide
  obtain ⟨-, -, -, -, -, -, -, hend⟩ := entry_window hwide hother
  rw [get_spec h hwide hs' hother, get_spec h hwide hs hother]
  unfold entryOf
  have hload : load (v.fatByte s') (v.entryBytes*other) v.entryBytes =
      load (store (v.fatByte s) (v.entryBytes*entry) (le v.entryBytes value))
        (v.entryBytes*other) v.entryBytes :=
    load_congr _ _ _ _ fun x _ h2 => hbyte x (by omega)
  have hlen : (le v.entryBytes value).length = v.entryBytes := length_le _ _
  rw [hload]
  split_ifs with heq
  · have hholds := (holds_store (v.fatByte s) (v.entryBytes*entry) (le v.entryBytes value)).load_eq
    rw [hlen] at hholds
    rw [heq, hholds, ofLe_le, hbits, pow_mul, show (2 : ℕ)^8 = 256 by decide]
  · congr 1
    refine load_congr _ _ _ _ fun x h1 h2 => store_of_outside _ _ _ _ ?_
    rw [hlen]
    rcases Nat.lt_or_gt_of_ne heq with hlt | hlt <;>
    · have hmul := Nat.mul_le_mul_left v.entryBytes (Nat.succ_le_of_lt hlt)
      rw [Nat.mul_succ] at hmul
      omega

/-! ### Where it is not -/

theorem window_none {g q : ℕ} {disk buf : Memory} :
    v.window g ⟨disk, none, buf⟩ q = (true, ⟨disk, some q, copied buf disk 0
      ((q*Table.fatBufBlocks+v.fatSect)*v.sectSize) (g*v.sectSize)⟩) := rfl

theorem set_none (hwide : v.fatsize ≠ .fat12) {disk buf : Memory} {entry q : ℕ} (value : ℕ)
    (hq : entry/v.fatBufEntries = q) :
    v.setFatentValue ⟨disk, none, buf⟩ entry value = (true, ⟨disk, some q,
      store (copied buf disk 0 ((q*Table.fatBufBlocks+v.fatSect)*v.sectSize) (v.getSize*v.sectSize))
        (v.entryBytes*(entry-q*v.fatBufEntries)) (le v.entryBytes value)⟩) := by
  subst hq
  exact if_neg hwide

/-- An entry of the window that is in the buffer. -/
theorem get_same (hwide : v.fatsize ≠ .fat12) {s : State} {entry q r : ℕ}
    (hs : s.fatbufnum = some q) (hq : entry/v.fatBufEntries = q) (hr : entry-q*v.fatBufEntries = r)
    (hroom : v.entryBytes*r+v.entryBytes ≤ v.fatBufSize) :
    (v.getFatentValue s entry).1 = ofLe (load s.fatbuf (v.entryBytes*r) v.entryBytes) := by
  unfold getFatentValue window
  dsimp only
  rw [hq, if_pos hs]
  dsimp only
  rw [if_neg (by decide), hr, entryAt_eq hwide _ hroom]

/-- An entry of a FAT of zeros, through the empty buffer. -/
theorem get_zero (hwide : v.fatsize ≠ .fat12) (hmany : Table.fatBufBlocks ≤ v.fatLength)
    (buf : Memory) {entry : ℕ} (hin : v.Inside entry) :
    (v.getFatentValue ⟨fun _ => 0, none, buf⟩ entry).1 = 0 := by
  obtain ⟨q, r, hq, hr, -, hroom, -, -⟩ := entry_window hwide hin
  unfold getFatentValue
  dsimp only
  rw [hq, hr, window_none, Nat.min_eq_left hmany]
  dsimp only
  rw [if_neg (by decide), entryAt_eq hwide _ hroom]
  refine ofLe_zeros _ fun b hb => ?_
  obtain ⟨x, hx, rfl⟩ := List.mem_map.1 hb
  rw [List.mem_range'_1] at hx
  exact copied_of_mem (Nat.zero_le _) (by
    rw [Nat.zero_add, show Table.fatBufBlocks*v.sectSize = v.fatBufSize from rfl]
    omega)

theorem entries_gt (hwide : v.fatsize ≠ .fat12) : 1 < v.fatBufEntries := by
  obtain ⟨hbits, hbytes⟩ := entryBits_eq hwide
  obtain ⟨k, hk⟩ := v.sectSize_dvd
  have hpos := v.sectSize_pos
  have hmul := v.fatBufEntries_mul
  have hle : v.fatBufEntries*v.entryBits ≤ v.fatBufEntries*32 :=
    Nat.mul_le_mul_left _ (by omega)
  unfold Table.fatBufBlocks at hmul
  omega

/-- Where the length of the FAT comes to zero, nothing is read into the window. -/
theorem not_law_of_dvd (hwide : v.fatsize ≠ .fat12) (hdvd : 2^32 ∣ v.fatLength*v.sectSize) :
    ¬v.Law ⟨fun _ => 0, none, fun _ => 255⟩ := by
  intro hlaw
  obtain ⟨hbits, hbytes⟩ := entryBits_eq hwide
  have hsize : v.getSize = 0 := by
    unfold getSize
    rw [Nat.mod_eq_zero_of_dvd hdvd, Nat.min_zero]
  have hlong : 2^32 ≤ v.fatLength*v.sectSize :=
    Nat.le_of_dvd (Nat.mul_pos v.fatLength_pos v.sectSize_pos) hdvd
  have hmany : Table.fatBufBlocks ≤ v.fatLength := by
    by_contra hfew
    have hmul := Nat.mul_lt_mul'' (not_le.1 hfew) v.sectSize_lt
    unfold Table.fatBufBlocks at hmul
    omega
  have hin0 : v.Inside 0 := by
    unfold Inside
    omega
  have hin1 : v.Inside 1 := by
    unfold Inside
    omega
  have hentries := entries_gt hwide
  have hget := (hlaw 0 0 hin0).2 1 hin1
  rw [if_neg (by decide), get_zero hwide hmany _ hin1] at hget
  obtain ⟨-, r, rfl, hr, -, hroom, -, -⟩ := entry_window hwide hin1
  rw [set_none hwide 0 (Nat.zero_div _),
    get_same hwide (congrArg some (Nat.div_eq_of_lt hentries).symm) rfl hr hroom] at hget
  rw [Nat.div_eq_of_lt hentries, Nat.zero_mul] at hr
  subst hr
  dsimp only at hget
  -- the bytes of the entry are still those that were in the buffer
  have hone : ofLe (load (fun _ => 255) (v.entryBytes*(1-0)) v.entryBytes) = 0 := by
    refine Eq.trans (congrArg ofLe (load_congr _ _ _ _ fun x h1 _ => ?_)) hget
    rw [Nat.zero_mul, Nat.zero_sub, Nat.mul_zero, store_of_outside _ _ _ _ (by rw [length_le]; omega),
      hsize, copied_of_outside (by omega)]
  rcases hbytes with hb | hb <;> rw [hb] at hone <;> exact absurd hone (by decide)

theorem flush_fails {s : State} {n : ℕ} (hdvd : ¬2^32 ∣ v.fatLength*v.sectSize)
    (hend : v.sectors < n*Table.fatBufBlocks+v.fatSect+Table.fatBufBlocks+
      (if v.numOfFats = 2 then v.fatLength else 0)) : (v.flushFatBuffer s n).1 = false := by
  unfold flushFatBuffer diskWrite
  dsimp only
  rw [getSize_eq hdvd]
  by_cases hfirst : n*Table.fatBufBlocks+v.fatSect+Table.fatBufBlocks > v.sectors
  · rw [if_pos hfirst]
  · rw [if_neg hfirst]
    dsimp only
    by_cases htwo : v.numOfFats = 2
    · rw [if_pos htwo] at hend ⊢
      rw [if_pos (by omega)]
    · rw [if_neg htwo] at hend
      omega

/-- Where the last window does not end on the volume, it is not written back. -/
theorem not_law_of_end (hwide : v.fatsize ≠ .fat12) (hdvd : ¬2^32 ∣ v.fatLength*v.sectSize)
    (hmany : Table.fatBufBlocks < v.fatLength)
    (hend : v.sectors < (v.fatLength-1)/Table.fatBufBlocks*Table.fatBufBlocks+v.fatSect+
      Table.fatBufBlocks+(if v.numOfFats = 2 then v.fatLength else 0)) :
    ¬v.Law ⟨fun _ => 0, none, fun _ => 0⟩ := by
  intro hlaw
  obtain ⟨hbits, hbytes⟩ := entryBits_eq hwide
  obtain ⟨k, hk⟩ := v.sectSize_dvd
  have hpos := v.sectSize_pos
  have hentries := entries_gt hwide
  have hmul := v.fatBufEntries_mul
  have hq : 1 ≤ (v.fatLength-1)/Table.fatBufBlocks :=
    (Nat.one_le_div_iff (by decide)).2 (by omega)
  have hle := Nat.div_mul_le_self (v.fatLength-1) Table.fatBufBlocks
  generalize (v.fatLength-1)/Table.fatBufBlocks = q at hq hle hend
  have hlast : v.Inside (q*v.fatBufEntries) := by
    have h1 : q*Table.fatBufBlocks*v.sectSize+v.sectSize ≤ v.fatLength*v.sectSize := by
      rw [← Nat.succ_mul]
      exact Nat.mul_le_mul_right _ (by omega)
    have h2 : q*v.fatBufEntries*v.entryBits = 8*(q*Table.fatBufBlocks*v.sectSize) := by
      rw [Nat.mul_assoc, hmul]
      ring
    unfold Inside
    rw [Nat.succ_mul, h2]
    omega
  have hin0 : v.Inside 0 := by
    have h1 := Nat.mul_le_mul_right v.sectSize (Nat.succ_le_of_lt v.fatLength_pos)
    unfold Inside
    omega
  have hdiv : q*v.fatBufEntries/v.fatBufEntries = q := Nat.mul_div_cancel _ (by omega)
  have hget := (hlaw (q*v.fatBufEntries) 0 hlast).2 0 hin0
  have hne : 0 ≠ q*v.fatBufEntries := (Nat.mul_pos hq (by omega)).ne
  rw [if_neg hne, get_zero hwide hmany.le _ hin0, set_none hwide 0 hdiv] at hget
  have hother : (some q : Option ℕ) ≠ some (0/v.fatBufEntries) := by
    rw [Nat.zero_div]
    exact fun h => absurd (Option.some.inj h) (by omega)
  unfold getFatentValue window writeBack at hget
  dsimp only at hget
  rw [if_neg hother, flush_fails hdvd hend, if_pos rfl, flush_fails hdvd hend, if_pos rfl] at hget
  dsimp only at hget
  exact absurd hget (by decide)

theorem fits_of_law (hwide : v.fatsize ≠ .fat12) (h : ∀ s, v.Windowed s → v.Law s) : v.Fits := by
  by_contra hnot
  have hempty : ∀ disk buf, v.Windowed ⟨disk, none, buf⟩ := fun _ _ => nofun
  by_cases hdvd : 2^32 ∣ v.fatLength*v.sectSize
  · exact not_law_of_dvd hwide hdvd (h _ (hempty _ _))
  · unfold Fits at hnot
    exact not_law_of_end hwide hdvd (by omega) (by omega) (h _ (hempty _ _))

end Entries

/-! ## The bits of the FAT -/

/-- The bytes of the FAT. -/
def fatTable : List UInt8 := load v.bytes v.fatStart (v.fatLength*v.sectSize)

/-- The bits from `pos` on of a row of bytes, the lowest bit of each byte first. -/
def bitsAt (table : List UInt8) (pos width : ℕ) : ℕ := ofLe table/2^pos % 2^width

theorem fatEntry_eq_bits (entry : ℕ) :
    v.fatEntry entry = bitsAt v.fatTable (v.entryBits*entry) v.entryBits := by
  unfold Table.fatEntry bitsAt fatTable fatStart Table.entryBits
  generalize load v.bytes (v.fatSect*v.sectSize) (v.fatLength*v.sectSize) = table
  cases v.fatsize with
  | fat32 =>
    dsimp only
    rw [fieldAt_eq_bits, show 8*(4*entry) = 32*entry by omega]
  | fat16 =>
    dsimp only
    rw [fieldAt_eq_bits, show 8*(2*entry) = 16*entry by omega]
  | fat12 =>
    dsimp only
    rw [fieldAt_eq_bits]
    split_ifs with hpar
    · rw [Nat.mod_mod_of_dvd _ (by decide), show 8*(3*entry/2) = 12*entry by omega]
    · rw [show 2^(8*2) = 2^4*2^12 by decide, Nat.mod_mul_right_div_self, Nat.div_div_eq_div_mul,
        ← pow_add, show 8*(3*entry/2)+4 = 12*entry by omega]

/-- The buffer after some calls of `get_fatent`. -/
def after (fatbuf : Slot ℤ (List UInt8)) (entries : List ℕ) : Slot ℤ (List UInt8) :=
  entries.foldl (fun s e => (v.getFatent s e).2) fatbuf

theorem after_valid {fatbuf : Slot ℤ (List UInt8)} (h : v.fatStore.Valid fatbuf)
    (entries : List ℕ) : v.fatStore.Valid (v.after fatbuf entries) := by
  induction entries generalizing fatbuf with
  | nil => exact h
  | cons e entries ih => exact ih (v.getFatent_valid h e)

/-- `get_fatent` gives the bits of the FAT after any calls, and an entry that is set is got back,
with no other changed, in every state where and only where the last window can be written back. -/
theorem entries_iff :
    (∀ block entries entry, v.Inside entry →
      (v.getFatent (v.after ⟨-1, block⟩ entries) entry).1 =
        bitsAt v.fatTable (v.entryBits*entry) v.entryBits) ∧
    (v.fatsize ≠ .fat12 → ((∀ s, v.Windowed s → v.Law s) ↔ v.Fits)) := by
  refine ⟨fun block entries entry hin => ?_, fun hwide => ⟨fits_of_law hwide, fun h s hs =>
    law_of_fits h hwide hs⟩⟩
  have hvalid := @after_valid v ⟨-1, block⟩ (.inl rfl) entries
  have hle := Nat.le_mul_of_pos_left v.fatLength v.numOfFats_pos
  have hfats := v.fats_le
  rw [v.getFatent_eq hvalid ⟨by omega, hin⟩, fatEntry_eq_bits]

/-- A FAT of 7 sectors on a volume that ends 4 sectors behind it. -/
def small : Image where
  fatsize := .fat16
  sectSize := 512
  fatSect := 1
  fatLength := 7
  sectors := 12
  bytes _ := 0
  sectSize_pos := sector_pos
  sectSize_dvd := sector_dvd
  sectors_lt := by decide
  numOfFats := 1
  numOfFats_pos := Nat.one_pos
  fatLength_pos := by decide
  sectSize_lt := by decide
  fats_le := by decide

/-- The first entry of its last window is set, and then another one is not got. -/
theorem entry_not_got :
    (small.setFatentValue ⟨fun _ => 0, none, fun _ => 0⟩ 1536 5).1 = true ∧
    (small.getFatentValue (small.setFatentValue ⟨fun _ => 0, none, fun _ => 0⟩ 1536 5).2 0).1 =
      4294967295 ∧
    (small.getFatentValue ⟨fun _ => 0, none, fun _ => 0⟩ 0).1 = 0 ∧ small.Inside 1536 := by
  refine ⟨by decide +kernel, by decide +kernel, by decide +kernel, by unfold Inside; decide⟩

end Image

end UBoot.Fat
