import UBoot.ByteStore
import UBoot.LittleEndian
import UBoot.MachineInt
import UBoot.ReadCache

/-!
# FAT volumes: `disk_read`, `get_fatent` and `get_cluster` of `fs/fat/fat.c`

The entries of the FAT come through a buffer of six sectors. An entry has 12, 16
or 32 bits; those of 12 bits go over the words of the buffer.
-/

set_option autoImplicit false

namespace UBoot.Fat

open ByteStore LittleEndian MachineInt ReadCache

inductive FatSize where
  | fat12
  | fat16
  | fat32
  deriving DecidableEq, Repr

/-- The fields of `fsdata` about the FAT, and the sectors of the volume. -/
structure Table where
  fatsize : FatSize
  sectSize : ℕ
  fatSect : ℕ
  fatLength : ℕ
  sectors : ℕ
  bytes : Memory
  sectSize_pos : 0 < sectSize
  sectSize_dvd : 32 ∣ sectSize
  sectors_lt : sectors < 2^32

/-! Sectors of 512 bytes. -/

theorem sector_pos : 0 < 512 := by decide

theorem sector_dvd : 32 ∣ 512 := by decide

theorem sector_ge : 512 ≤ 512 := Nat.le_refl 512

namespace Table

variable (v : Table)

def diskRead (block nrBlocks : ℕ) : Option (List UInt8) :=
  if block+nrBlocks ≤ v.sectors then
    some (load v.bytes (block*v.sectSize) (nrBlocks*v.sectSize)) else none

/-! ## `get_fatent` -/

/-- `FATBUFBLOCKS` -/
def fatBufBlocks : ℕ := 6

/-- The number of entries that the buffer holds. -/
def fatBufEntries : ℕ :=
  match v.fatsize with
  | .fat32 => v.sectSize*fatBufBlocks/4
  | .fat16 => v.sectSize*fatBufBlocks/2
  | .fat12 => v.sectSize*fatBufBlocks*2/3

/-- The sectors of the FAT that are read into the buffer under a number. -/
def readFatBuf (bufnum : ℕ) : Option (List UInt8) :=
  let startblock := bufnum*fatBufBlocks
  let getsize := if startblock+fatBufBlocks > v.fatLength then sub32 v.fatLength startblock
    else fatBufBlocks
  v.diskRead (startblock+v.fatSect) getsize

end Table

/-- A word of 16 bits of the buffer. -/
def word (buf : List UInt8) (i : ℕ) : ℕ := fieldAt buf (2*i) 2

/-- The entry at an offset of the buffer. -/
def fatEntryAt (buf : List UInt8) (offset : ℕ) : FatSize → ℕ
  | .fat32 => fieldAt buf (4*offset) 4
  | .fat16 => word buf offset
  | .fat12 =>
    let off16 := offset*3/4
    match offset % 4 with
    | 0 => word buf off16 &&& 0xfff
    | 1 =>
      let val1 := word buf off16 &&& 0xf000
      let val2 := word buf (off16+1) &&& 0x00ff
      val2 <<< 4 ||| val1 >>> 12
    | 2 =>
      let val1 := word buf off16 &&& 0xff00
      let val2 := word buf (off16+1) &&& 0x000f
      val2 <<< 8 ||| val1 >>> 8
    | _ => (word buf off16 &&& 0xfff0) >>> 4

namespace Table

variable (v : Table)

/-- The buffer under its number, which is -1 at the start. -/
def fatStore : Store ℕ ℤ (List UInt8) where
  read := v.readFatBuf
  key bufnum := bufnum
  unset := -1
  read_congr _ _ h := congrArg v.readFatBuf (Int.ofNat.inj h)
  key_ne _ := by omega

/-- `get_fatent`: the entry, and the buffer after it. -/
def getFatent (fatbuf : Slot ℤ (List UInt8)) (entry : ℕ) : ℕ × Slot ℤ (List UInt8) :=
  let bufnum := entry/v.fatBufEntries
  let offset := entry-bufnum*v.fatBufEntries
  let filled := v.fatStore.fill fatbuf bufnum bufnum
  if filled.2 = false then (0, filled.1) else (fatEntryAt filled.1.block offset v.fatsize, filled.1)

/-- An entry of the FAT, by its bits. -/
def fatEntry (n : ℕ) : ℕ :=
  let table := load v.bytes (v.fatSect*v.sectSize) (v.fatLength*v.sectSize)
  match v.fatsize with
  | .fat32 => fieldAt table (4*n) 4
  | .fat16 => fieldAt table (2*n) 2
  | .fat12 => if n % 2 = 0 then fieldAt table (3*n/2) 2 % 2^12 else fieldAt table (3*n/2) 2/2^4

/-- The bits of an entry. -/
def entryBits : ℕ :=
  match v.fatsize with
  | .fat32 => 32
  | .fat16 => 16
  | .fat12 => 12

/-- The FAT lies on the volume, and an entry in it. -/
def HasEntry (n : ℕ) : Prop :=
  v.fatSect+v.fatLength ≤ v.sectors ∧ (n+1)*v.entryBits ≤ 8*(v.fatLength*v.sectSize)

end Table

/-! ## Twelve bits of three bytes -/

section Twelve

theorem mask_eq (w k m : ℕ) (mask : ℕ) (h : mask >>> k = 2^m-1) :
    (w &&& mask) >>> k = w/2^k % 2^m := by
  rw [Nat.shiftRight_and_distrib, h, Nat.and_two_pow_sub_one_eq_mod, Nat.shiftRight_eq_div_pow]

theorem joined_eq {a b k : ℕ} (h : b < 2^k) : a <<< k ||| b = a*2^k+b := by
  rw [← Nat.shiftLeft_add_eq_or_of_lt h, Nat.shiftLeft_eq]

/-- The four places of an entry in two of the buffer's words, of which `x` and `y` are bytes. -/
theorem twelve_first (x y : ℕ) : (x+256*y) &&& 0xfff = (x+256*y) % 2^12 :=
  Nat.and_two_pow_sub_one_eq_mod _ 12

theorem twelve_second (a d : ℕ) {x y : ℕ} (ha : a < 256) (hx : x < 256) (hy : y < 256) :
    ((y+256*d) &&& 0x00ff) <<< 4 ||| ((a+256*x) &&& 0xf000) >>> 12 = (x+256*y)/2^4 := by
  rw [mask_eq _ 12 4 _ rfl, joined_eq (Nat.mod_lt _ (by decide)),
    show (y+256*d) &&& 0x00ff = (y+256*d) % 2^8 from Nat.and_two_pow_sub_one_eq_mod _ 8]
  omega

theorem twelve_third (a d : ℕ) {x y : ℕ} (ha : a < 256) (hx : x < 256) :
    ((y+256*d) &&& 0x000f) <<< 8 ||| ((a+256*x) &&& 0xff00) >>> 8 = (x+256*y) % 2^12 := by
  rw [mask_eq _ 8 8 _ rfl, joined_eq (Nat.mod_lt _ (by decide)),
    show (y+256*d) &&& 0x000f = (y+256*d) % 2^4 from Nat.and_two_pow_sub_one_eq_mod _ 4]
  omega

theorem twelve_fourth {x y : ℕ} (hx : x < 256) (hy : y < 256) :
    ((x+256*y) &&& 0xfff0) >>> 4 = (x+256*y)/2^4 := by
  rw [mask_eq _ 4 12 _ rfl]
  omega

end Twelve

/-! ## An entry through the buffer -/

theorem fieldAt_load (mem : Memory) (p : ℕ) {n o w : ℕ} (h : o+w ≤ n) :
    fieldAt (load mem p n) o w = ofLe (load mem (p+o) w) := by
  rw [fieldAt, ← load_drop mem p (show o ≤ n by omega), ← load_take mem (p+o) (by omega)]

theorem ofLe_two (mem : Memory) (p : ℕ) :
    ofLe (load mem p 2) = (mem p).toNat+256*(mem (p+1)).toNat := by
  rw [load, List.range'_succ, List.range'_succ]
  simp [ofLe]

namespace Table

variable (v : Table)

/-- What the buffer with a number holds of the FAT. -/
theorem readFatBuf_eq (hfat : v.fatSect+v.fatLength ≤ v.sectors) {q : ℕ}
    (hq : q*fatBufBlocks ≤ v.fatLength) :
    ∃ n, v.readFatBuf q = some (load v.bytes
        (v.fatSect*v.sectSize+q*fatBufBlocks*v.sectSize) (n*v.sectSize)) ∧
      ∀ o, o ≤ fatBufBlocks*v.sectSize →
        q*fatBufBlocks*v.sectSize+o ≤ v.fatLength*v.sectSize → o ≤ n*v.sectSize := by
  have hstart : (q*fatBufBlocks+v.fatSect)*v.sectSize =
      v.fatSect*v.sectSize+q*fatBufBlocks*v.sectSize := by ring
  unfold readFatBuf diskRead
  dsimp only
  rw [hstart]
  split
  · next hend =>
    have hlt := v.sectors_lt
    rw [sub32_eq hq (by omega)]
    refine ⟨_, if_pos (by omega), fun o _ ho => ?_⟩
    rw [Nat.sub_mul]
    omega
  · next hend => exact ⟨_, if_pos (by omega), fun o ho _ => ho⟩

theorem fatBufEntries_mul : v.fatBufEntries*v.entryBits = 8*(fatBufBlocks*v.sectSize) := by
  obtain ⟨k, hk⟩ := v.sectSize_dvd
  unfold fatBufEntries entryBits fatBufBlocks
  cases v.fatsize <;> dsimp only <;> omega

/-- A field of the buffer is a field of the FAT. -/
theorem fatBuf_field {q o w n : ℕ} (ho : o+w ≤ n*v.sectSize)
    (hin : q*fatBufBlocks*v.sectSize+(o+w) ≤ v.fatLength*v.sectSize) :
    fieldAt (load v.bytes (v.fatSect*v.sectSize+q*fatBufBlocks*v.sectSize) (n*v.sectSize)) o w =
      fieldAt (load v.bytes (v.fatSect*v.sectSize) (v.fatLength*v.sectSize))
        (q*fatBufBlocks*v.sectSize+o) w := by
  rw [fieldAt_load _ _ ho, fieldAt_load _ _ (by omega), Nat.add_assoc]

theorem word_load (mem : Memory) {p n i : ℕ} (h : 2*i+2 ≤ n) :
    word (load mem p n) i = (mem (p+2*i)).toNat+256*(mem (p+2*i+1)).toNat := by
  rw [word, fieldAt_load mem p h, ofLe_two]

/-- Twelve bits at three bytes for two entries, in the four places of the words. -/
theorem twelve_load (mem : Memory) {p n offset : ℕ} (h : (offset+1)*12 ≤ 8*n) (hn : n % 2 = 0) :
    fatEntryAt (load mem p n) offset .fat12 =
      if offset % 2 = 0 then fieldAt (load mem p n) (3*offset/2) 2 % 2^12
      else fieldAt (load mem p n) (3*offset/2) 2/2^4 := by
  have hb : ∀ x, (mem x).toNat < 256 := fun x => (mem x).toNat_lt
  rw [fieldAt_load mem p (show 3*offset/2+2 ≤ n by omega), ofLe_two]
  have hmod := Nat.mod_lt offset (show 0 < 4 by decide)
  unfold fatEntryAt
  dsimp only
  split
  · next hplace =>
    rw [word_load mem (show 2*(offset*3/4)+2 ≤ n by omega), if_pos (by omega), twelve_first,
      show p+2*(offset*3/4) = p+3*offset/2 by omega]
  · next hplace =>
    rw [word_load mem (show 2*(offset*3/4)+2 ≤ n by omega),
      word_load mem (show 2*(offset*3/4+1)+2 ≤ n by omega), if_neg (by omega),
      show p+2*(offset*3/4+1) = p+3*offset/2+1 by omega,
      show p+2*(offset*3/4)+1 = p+3*offset/2 by omega]
    exact twelve_second _ _ (hb _) (hb _) (hb _)
  · next hplace =>
    rw [word_load mem (show 2*(offset*3/4)+2 ≤ n by omega),
      word_load mem (show 2*(offset*3/4+1)+2 ≤ n by omega), if_pos (by omega),
      show p+2*(offset*3/4+1) = p+3*offset/2+1 by omega,
      show p+2*(offset*3/4)+1 = p+3*offset/2 by omega]
    exact twelve_third _ _ (hb _) (hb _)
  · next h0 h1 h2 =>
    have hplace : offset % 4 = 3 := by
      have h0' : offset % 4 ≠ 0 := h0
      have h1' : offset % 4 ≠ 1 := h1
      have h2' : offset % 4 ≠ 2 := h2
      omega
    rw [word_load mem (show 2*(offset*3/4)+2 ≤ n by omega), if_neg (by omega),
      show p+2*(offset*3/4) = p+3*offset/2 by omega]
    exact twelve_fourth (hb _) (hb _)

/-- The place of an entry in its buffer, of `n` sectors. -/
theorem entry_in_buffer {entry : ℕ} (h : v.HasEntry entry) :
    ∃ q r n, entry = q*v.fatBufEntries+r ∧ entry/v.fatBufEntries = q ∧
      v.readFatBuf q = some (load v.bytes
        (v.fatSect*v.sectSize+q*fatBufBlocks*v.sectSize) (n*v.sectSize)) ∧
      (r+1)*v.entryBits ≤ 8*(n*v.sectSize) ∧
      8*(q*fatBufBlocks*v.sectSize) = q*v.fatBufEntries*v.entryBits := by
  obtain ⟨hfat, hin⟩ := h
  have hE := v.fatBufEntries_mul
  have hS := v.sectSize_pos
  have hpos : 0 < v.fatBufEntries := by
    refine Nat.pos_of_ne_zero fun hzero => ?_
    rw [hzero, fatBufBlocks] at hE
    omega
  have hlt := Nat.mod_lt entry hpos
  have hdiv := Nat.div_add_mod' entry v.fatBufEntries
  generalize entry/v.fatBufEntries = q at hdiv ⊢
  generalize entry % v.fatBufEntries = r at hdiv hlt
  have hbuf : 8*(q*fatBufBlocks*v.sectSize) = q*v.fatBufEntries*v.entryBits := by
    rw [Nat.mul_assoc q v.fatBufEntries, hE]
    ring
  have hend : (entry+1)*v.entryBits = q*v.fatBufEntries*v.entryBits+(r+1)*v.entryBits := by
    rw [← hdiv, Nat.add_assoc, Nat.add_mul]
  have hlast : (r+1)*v.entryBits ≤ 8*(fatBufBlocks*v.sectSize) := by
    rw [← hE]
    exact Nat.mul_le_mul_right _ hlt
  have hbits : 0 < v.entryBits := by
    unfold entryBits
    cases v.fatsize <;> decide
  have hsome : 0 < (r+1)*v.entryBits := Nat.mul_pos (Nat.succ_pos r) hbits
  have hq : q*fatBufBlocks ≤ v.fatLength :=
    (Nat.lt_of_mul_lt_mul_right (a := v.sectSize) (by omega)).le
  obtain ⟨n, hread, hn⟩ := v.readFatBuf_eq hfat hq
  have hbytes := hn (((r+1)*v.entryBits+7)/8) (by omega) (by omega)
  exact ⟨q, r, n, hdiv.symm, rfl, hread, by omega, hbuf⟩

/-- The entry of a buffer is the one of the FAT. -/
theorem fatEntryAt_eq {entry q r n : ℕ} (hin : (entry+1)*v.entryBits ≤ 8*(v.fatLength*v.sectSize))
    (hentry : entry = q*v.fatBufEntries+r) (hr : (r+1)*v.entryBits ≤ 8*(n*v.sectSize))
    (hbuf : 8*(q*fatBufBlocks*v.sectSize) = q*v.fatBufEntries*v.entryBits) :
    fatEntryAt (load v.bytes (v.fatSect*v.sectSize+q*fatBufBlocks*v.sectSize) (n*v.sectSize)) r
      v.fatsize = v.fatEntry entry := by
  obtain ⟨k, hk⟩ := v.sectSize_dvd
  have hE := v.fatBufEntries_mul
  unfold fatBufBlocks at hE
  rw [hentry] at hin ⊢
  unfold entryBits at hin hr hbuf hE
  unfold fatEntry
  cases hsize : v.fatsize with
  | fat32 =>
    rw [hsize] at hin hr hbuf hE
    dsimp only [fatEntryAt] at hin hr hbuf hE ⊢
    rw [v.fatBuf_field (by omega) (by omega)]
    congr 1
    omega
  | fat16 =>
    rw [hsize] at hin hr hbuf hE
    dsimp only [fatEntryAt, word] at hin hr hbuf hE ⊢
    rw [v.fatBuf_field (by omega) (by omega)]
    congr 1
    omega
  | fat12 =>
    rw [hsize] at hin hr hbuf hE
    dsimp only at hin hr hbuf hE ⊢
    have heven : n*v.sectSize % 2 = 0 := by
      rw [hk, Nat.mul_left_comm, Nat.mul_mod, show 32 % 2 = 0 by decide, zero_mul, Nat.zero_mod]
    rw [twelve_load _ hr heven, v.fatBuf_field (by omega) (by omega),
      show q*fatBufBlocks*v.sectSize+3*r/2 = 3*(q*v.fatBufEntries+r)/2 by omega]
    by_cases hpar : r % 2 = 0
    · rw [if_pos hpar, if_pos (by omega)]
    · rw [if_neg hpar, if_neg (by omega)]

/-- `get_fatent` gives the entry of the FAT, whatever is in the buffer. -/
theorem getFatent_eq {fatbuf : Slot ℤ (List UInt8)} (hbuf : v.fatStore.Valid fatbuf) {entry : ℕ}
    (h : v.HasEntry entry) : (v.getFatent fatbuf entry).1 = v.fatEntry entry := by
  obtain ⟨q, r, n, hentry, hq, hread, hr, hbytes⟩ := v.entry_in_buffer h
  have hoff : entry-q*v.fatBufEntries = r := by omega
  have hfill := hbuf.read_eq q
  rw [show v.fatStore.read q = v.readFatBuf q from rfl, hread] at hfill
  unfold getFatent
  dsimp only
  rw [hq, hoff]
  cases hok : (v.fatStore.fill fatbuf q q).2 with
  | false =>
    rw [hok] at hfill
    cases hfill
  | true =>
    rw [hok, if_pos rfl] at hfill
    rw [if_neg (by decide), ← Option.some.inj hfill]
    exact v.fatEntryAt_eq h.2 hentry hr hbytes

theorem getFatent_valid {fatbuf : Slot ℤ (List UInt8)} (hbuf : v.fatStore.Valid fatbuf)
    (entry : ℕ) : v.fatStore.Valid (v.getFatent fatbuf entry).2 := by
  unfold getFatent
  dsimp only
  split <;> exact hbuf.fill _ _

end Table

/-! ## `get_cluster` -/

/-- The rest of `fsdata`. -/
structure Volume extends Table where
  sectBits : ℕ
  clustBits : ℕ
  rootdirSect : ℕ
  dataBegin : ℤ
  sectSize_pow : sectSize = 2^sectBits
  /-- A cluster has up to 64 KiB. -/
  clust_le : sectBits+clustBits ≤ 16

namespace Volume

variable (v : Volume)

def clustSize : ℕ := 2^v.clustBits

/-- `bytesperclust` -/
def bytesPerClust : ℕ := v.clustSize*v.sectSize


/-- `startsect`, a number of 32 bits; cluster 0 stands for the root directory. -/
def startSect (clustnum : ℕ) : ℕ :=
  if clustnum > 0 then ((v.dataBegin+clustnum*v.clustSize) % 2^32).toNat else v.rootdirSect

/-- The sectors for a buffer that is not aligned, one after the other. -/
def readOneByOne : ℕ → ℕ → Option (List UInt8)
  | _, 0 => some []
  | s, n+1 => (v.diskRead s 1).bind fun tmpbuf => (readOneByOne (s+1) n).map (tmpbuf ++ ·)

def getCluster (misaligned : Bool) (clustnum size : ℕ) : Option (List UInt8) :=
  let startsect := v.startSect clustnum
  let idx := size/v.sectSize
  (if misaligned then v.readOneByOne startsect idx else v.diskRead startsect idx).bind fun buffer =>
    let size := size % v.sectSize
    if size ≠ 0 then (v.diskRead (startsect+idx) 1).map fun tmpbuf => buffer ++ tmpbuf.take size
    else some buffer

theorem readOneByOne_eq {s n : ℕ} (h : s+n ≤ v.sectors) :
    v.readOneByOne s n = some (load v.bytes (s*v.sectSize) (n*v.sectSize)) := by
  induction n generalizing s with
  | zero =>
    rw [readOneByOne, Nat.zero_mul]
    rfl
  | succ n ih =>
    rw [readOneByOne, ih (by omega), Table.diskRead, if_pos (by omega), Option.bind_some, Option.map_some,
      Nat.one_mul, Nat.succ_mul s, ← load_add, Nat.succ_mul n, Nat.add_comm v.sectSize]

/-- The bytes of a cluster, and of those that follow it on the volume. -/
theorem getCluster_eq (misaligned : Bool) {clustnum size n : ℕ} (hsize : size ≤ n*v.sectSize)
    (hin : v.startSect clustnum+n ≤ v.sectors) :
    v.getCluster misaligned clustnum size =
      some (load v.bytes (v.startSect clustnum*v.sectSize) size) := by
  have hpos := v.sectSize_pos
  have hdiv := Nat.div_add_mod' size v.sectSize
  have hmod := Nat.mod_lt size hpos
  have hidx : size/v.sectSize ≤ n := (Nat.div_le_div_right hsize).trans (Nat.mul_div_cancel n hpos).le
  have hfront : (if misaligned = true then v.readOneByOne (v.startSect clustnum) (size/v.sectSize)
      else v.diskRead (v.startSect clustnum) (size/v.sectSize)) =
      some (load v.bytes (v.startSect clustnum*v.sectSize) (size/v.sectSize*v.sectSize)) := by
    split
    · exact v.readOneByOne_eq (by omega)
    · exact if_pos (by omega)
  unfold getCluster
  dsimp only
  rw [hfront, Option.bind_some]
  by_cases hrest : size % v.sectSize = 0
  · rw [if_neg (not_not.2 hrest), show size/v.sectSize*v.sectSize = size by omega]
  · have hlt : size/v.sectSize < n := by
      by_contra hge
      have := Nat.mul_le_mul_right v.sectSize (not_lt.1 hge)
      omega
    rw [if_pos hrest, Table.diskRead, if_pos (by omega), Option.map_some, Nat.one_mul, Nat.add_mul,
      ← load_take v.bytes _ hmod.le, ← load_add, hdiv]

end Volume

end UBoot.Fat
