import UBoot.Ext4Indirect
import UBoot.FilledBuffer

/-!
# Reading a file: `ext4fs_read_file` of `fs/ext4/ext4fs.c`

Blocks that follow each other on the volume are collected and read in one piece.
The piece is read when a block does not continue it, in front of a hole, and behind
the last block.
-/

set_option autoImplicit false

namespace UBoot.Ext4

open ByteStore FilledBuffer MachineInt

/-- The piece whose reading is delayed. -/
structure Delayed where
  start : ℤ
  skipfirst : ℕ
  extent : ℕ
  next : ℤ
  buf : ℕ

structure ReadState where
  /-- `none` where `previous_block_number` is -1. -/
  delayed : Option Delayed
  buf : ℕ
  out : Buffer

section Code

variable (v : Volume)

def spill (out : Buffer) : Option Delayed → Option Buffer
  | none => some out
  | some d => (v.devread d.start d.skipfirst d.extent).map (put out d.buf)

/-- The end of the bytes that are asked for, in block `i`. -/
def blockEnd (stop blockcnt i : ℕ) : ℕ :=
  if i = blockcnt-1 then if stop % v.blksz = 0 then v.blksz else stop % v.blksz else v.blksz

def skipFirst (pos i : ℕ) : ℕ := if i = pos/v.blksz then pos % v.blksz else 0

/-- A piece that begins with the block. -/
def fresh (blknr : ℤ) (skipfirst blockend buf : ℕ) : Delayed :=
  ⟨blknr, skipfirst, blockend, asInt (blknr+(blockend/512 : ℕ)), buf⟩

def Delayed.extend (d : Delayed) (blockend : ℕ) : Delayed :=
  { d with extent := d.extent+blockend, next := asInt (d.next+(blockend/512 : ℕ)) }

/-- The round for block `i`; `none` is a return of -1. -/
def blockStep (lookup : ℕ → ℤ) (pos stop blockcnt : ℕ) (s : ReadState) (i : ℕ) :
    Option ReadState :=
  if lookup i < 0 then none else
    let blknr := asInt (lookup i*2^v.log2Blksz)
    let skipfirst := skipFirst v pos i
    let blockend := blockEnd v stop blockcnt i-skipfirst
    let buf := s.buf+(v.blksz-skipfirst)
    if blknr ≠ 0 then
      match s.delayed with
      | some d =>
        if d.next = blknr then some ⟨some (d.extend blockend), buf, s.out⟩
        else (spill v s.out (some d)).map fun out =>
          ⟨some (fresh blknr skipfirst blockend s.buf), buf, out⟩
      | none => some ⟨some (fresh blknr skipfirst blockend s.buf), buf, s.out⟩
    else (spill v s.out s.delayed).map fun out =>
      ⟨none, buf, put out s.buf (List.replicate (v.blksz-skipfirst) 0)⟩

/-- `blockcnt`, in unsigned numbers of 32 bits. -/
def blockCnt (stop : ℕ) : ℕ := (stop+v.blksz-1) % 2^32/v.blksz

/-- `ext4fs_read_file` of a file whose blocks `lookup` gives: the result and the buffer, or
`none` for -1. From 2^31 bytes on, where the lengths of pieces are no `int`, the result is none. -/
def readFile (lookup : ℕ → ℤ) (filesize pos len : ℕ) : Option (ℤ × Buffer) :=
  let len := min len filesize
  let blockcnt := blockCnt v (len+pos)
  let first := pos/v.blksz
  ((List.range' first (blockcnt-first)).foldlM (blockStep v lookup pos (len+pos) blockcnt)
      ⟨none, 0, fun _ => none⟩).bind fun s =>
    (spill v s.out s.delayed).map fun out => (asInt len, out)

end Code

/-! ## Files -/

/-- A file: its size, and the block that each of its blocks has on the volume, 0 in a hole. -/
structure BlockFile (v : Volume) where
  size : ℕ
  size_lt : size < 2^32
  blockOf : ℕ → ℕ
  has : ∀ i, blockOf i ≠ 0 → v.Has (blockOf i)
  apart : ∀ i j, blockOf i = blockOf j → blockOf i ≠ 0 → i = j

namespace BlockFile

variable {v : Volume} (F : BlockFile v)

/-- A byte of the file. -/
def byteAt (k : ℕ) : UInt8 :=
  if F.blockOf (k/v.blksz) = 0 then 0 else v.bytes (F.blockOf (k/v.blksz)*v.blksz+k % v.blksz)

/-- The number of bytes from `pos` up to `pos+len` and the end of the file. -/
def count (pos len : ℕ) : ℕ := min (pos+len) F.size-pos

/-- The buffer gets the bytes of the file from `pos` on, and nothing else. -/
def Right (pos len : ℕ) : Prop :=
  ∃ out, readFile v (fun i => F.blockOf i) F.size pos len = some ((F.count pos len : ℤ), out) ∧
    Filled (fun k => F.byteAt (pos+k)) out (F.count pos len)

end BlockFile

/-! ## The part of a block -/

section Part

variable (v : Volume) {pos stop i : ℕ}

theorem blksz_pos : 0 < v.blksz := Nat.two_pow_pos _

theorem blockCnt_mul (h : stop+v.blksz-1 < 2^32) : i < blockCnt v stop ↔ i*v.blksz < stop := by
  have hpos := blksz_pos v
  rw [blockCnt, Nat.mod_eq_of_lt h, ← Nat.succ_le_iff, Nat.le_div_iff_mul_le hpos, Nat.succ_mul]
  omega

theorem blockEnd_eq (h : stop+v.blksz-1 < 2^32) (hi : i*v.blksz < stop) :
    i*v.blksz+blockEnd v stop (blockCnt v stop) i = min stop (i*v.blksz+v.blksz) := by
  have hpos := blksz_pos v
  have hlast := blockCnt_mul v (i := i+1) h
  have hthis := (blockCnt_mul v h).2 hi
  rw [Nat.succ_mul] at hlast
  unfold blockEnd
  split
  · next heq =>
    have hend : stop ≤ i*v.blksz+v.blksz := by
      refine not_lt.1 fun hlt => ?_
      have := hlast.2 hlt
      omega
    obtain ⟨r, hr⟩ := Nat.exists_eq_add_of_lt hi
    rw [show stop = r+1+i*v.blksz by omega, Nat.add_mul_mod_self_right]
    by_cases hfull : r+1 = v.blksz
    · rw [hfull, Nat.mod_self, if_pos rfl]
      omega
    · rw [Nat.mod_eq_of_lt (by omega), if_neg (by omega)]
      omega
  · next hne =>
    have hlt := hlast.1 (by omega)
    omega

theorem skipFirst_eq (h : pos/v.blksz ≤ i) : i*v.blksz+skipFirst v pos i = max pos (i*v.blksz) := by
  have hdiv := Nat.div_add_mod' pos v.blksz
  have hmod := Nat.mod_lt pos (blksz_pos v)
  unfold skipFirst
  split
  · next heq =>
    rw [heq]
    omega
  · next hne =>
    have hle : (pos/v.blksz+1)*v.blksz ≤ i*v.blksz := Nat.mul_le_mul_right _ (by omega)
    rw [Nat.succ_mul] at hle
    omega

theorem skipFirst_lt (pos i : ℕ) : skipFirst v pos i < v.blksz := by
  unfold skipFirst
  split
  · exact Nat.mod_lt pos (blksz_pos v)
  · exact blksz_pos v

theorem skipFirst_le (pos i : ℕ) : skipFirst v pos i ≤ pos % v.blksz := by
  unfold skipFirst
  split <;> omega

end Part

/-! ## What is delayed -/

namespace BlockFile

variable {v : Volume} (F : BlockFile v) (pos stop : ℕ)

/-- The bytes of the file in the places of the buffer. -/
def bytesFrom : Memory := fun k => F.byteAt (pos+k)

theorem bytesFrom_block (skip : ℕ) {i k m : ℕ} (hk : pos+k = i*v.blksz+skip) (hm : skip+m ≤ v.blksz)
    (hb : F.blockOf i ≠ 0) :
    load (F.bytesFrom pos) k m = load v.bytes (512*(F.blockOf i*2^v.log2Blksz)+skip) m := by
  refine load_eq_of _ _ _ _ _ fun j hj => ?_
  have hpos := blksz_pos v
  have hat : pos+(k+j) = i*v.blksz+(skip+j) := by omega
  rw [bytesFrom, byteAt, hat, Nat.mul_comm i, Nat.mul_add_div hpos, Nat.mul_add_mod,
    Nat.div_eq_of_lt (by omega), Nat.add_zero, Nat.mod_eq_of_lt (by omega), if_neg hb, v.blksz_eq]
  congr 1
  ring

theorem bytesFrom_hole (skip : ℕ) {i k m : ℕ} (hk : pos+k = i*v.blksz+skip) (hm : skip+m ≤ v.blksz)
    (hb : F.blockOf i = 0) : load (F.bytesFrom pos) k m = List.replicate m 0 := by
  refine List.eq_replicate_iff.2 ⟨length_load _ _ _, fun c hc => ?_⟩
  obtain ⟨x, hx, rfl⟩ := List.mem_map.1 hc
  rw [List.mem_range'_1] at hx
  have hpos := blksz_pos v
  have hat : pos+x = i*v.blksz+(skip+(x-k)) := by omega
  rw [bytesFrom, byteAt, hat, Nat.mul_comm i, Nat.mul_add_div hpos, Nat.div_eq_of_lt (by omega),
    Nat.add_zero, if_pos hb]

/-- `delayed_next` behind a block of which `w` sectors have been counted. -/
def NextIs (v : Volume) (next : ℤ) (b w : ℕ) : Prop :=
  next = asInt ((b*2^v.log2Blksz+w : ℕ) : ℤ)

/-- The piece `d` goes up to `x`, and its last block is `b`, of which it has the first `tail`
bytes. -/
structure Pending (out : Buffer) (d : Delayed) (x b tail w : ℕ) : Prop where
  filled : Filled (F.bytesFrom pos) out d.buf
  total : d.buf+d.extent = x
  place : ∃ s : ℕ, d.start = s ∧ 512*s+d.skipfirst+d.extent = b*v.blksz+tail ∧
    load (F.bytesFrom pos) d.buf d.extent = load v.bytes (512*s+d.skipfirst) d.extent
  tail_le : tail ≤ v.blksz
  nonempty : 0 < d.skipfirst+d.extent
  short : d.skipfirst+d.extent ≤ pos % v.blksz+x
  has : v.Has b
  fits : b*2^v.log2Blksz < 2^31
  next : NextIs v d.next b w

variable {F pos}

/-- The piece can be read, and its bytes are the next ones of the file. -/
theorem Pending.spill {out : Buffer} {d : Delayed} {x b tail w : ℕ}
    (h : F.Pending pos out d x b tail w) (hx : pos % v.blksz+x ≤ 2^31) :
    ∃ out', Ext4.spill v out (some d) = some out' ∧ Filled (F.bytesFrom pos) out' x := by
  obtain ⟨s, hstart, hend, hload⟩ := h.place
  have hblk := v.blksz_eq
  have hfits := v.sector_end h.fits
  have hhas := h.has
  have htail := h.tail_le
  have hne := h.nonempty
  have hshort := h.short
  unfold Volume.Has at hhas
  rw [Nat.succ_mul] at hhas
  have hmul : b*v.blksz = 512*(b*2^v.log2Blksz) := by rw [hblk]; ring
  rw [hmul] at hend
  refine ⟨_, ?_, h.total ▸ h.filled.put d.extent⟩
  rw [Ext4.spill, hstart, v.devread_some hne (by omega) (by omega) (by omega), hload]
  rfl

/-- In front of block `i` everything before it is in the buffer or delayed. -/
structure Inv (F : BlockFile v) (pos stop i : ℕ) (s : ReadState) : Prop where
  buf : s.buf = max pos (i*v.blksz)-pos
  idle : s.delayed = none → Filled (F.bytesFrom pos) s.out (min (max pos (i*v.blksz)) stop-pos)
  pending : ∀ d, s.delayed = some d → pos/v.blksz < i ∧ ∃ tail w,
    F.Pending pos s.out d (min (max pos (i*v.blksz)) stop-pos) (F.blockOf (i-1)) tail w ∧
      F.blockOf (i-1) ≠ 0 ∧
      (i*v.blksz < stop → tail = v.blksz ∧ (w = 2^v.log2Blksz ∨ w < 2^v.log2Blksz))

variable {stop i : ℕ} {s : ReadState}

theorem Inv.spill (h : Inv F pos stop i s) (hpos : pos ≤ stop)
    (hstop : pos % v.blksz+(stop-pos) ≤ 2^31) :
    ∃ out, Ext4.spill v s.out s.delayed = some out ∧
      Filled (F.bytesFrom pos) out (min (max pos (i*v.blksz)) stop-pos) := by
  cases hd : s.delayed with
  | none => exact ⟨s.out, rfl, h.idle hd⟩
  | some d =>
    obtain ⟨-, tail, w, hpending, -⟩ := h.pending d hd
    exact hpending.spill (by omega)

section Step

variable (hpos : pos ≤ stop) (hsum : stop+v.blksz-1 < 2^32) (hfirst : pos/v.blksz ≤ i)
  (hi : i*v.blksz < stop)

include hfirst

/-- A hole that lies within the bytes that are asked for. -/
theorem inv_hole (hpos : pos ≤ stop) (hb : F.blockOf i = 0)
    (hwhole : i*v.blksz+v.blksz ≤ stop) {out : Buffer}
    (hbuf : s.buf = max pos (i*v.blksz)-pos)
    (hout : Filled (F.bytesFrom pos) out (min (max pos (i*v.blksz)) stop-pos)) :
    Inv F pos stop (i+1) ⟨none, s.buf+(v.blksz-skipFirst v pos i),
      put out s.buf (List.replicate (v.blksz-skipFirst v pos i) 0)⟩ := by
  have hskip := skipFirst_eq v hfirst
  have hlt := skipFirst_lt v pos i
  have hsame : min (max pos (i*v.blksz)) stop-pos = s.buf := by omega
  have hnext : min (max pos ((i+1)*v.blksz)) stop-pos = s.buf+(v.blksz-skipFirst v pos i) := by
    rw [Nat.succ_mul]
    omega
  have hzeros := F.bytesFrom_hole pos (skipFirst v pos i) (i := i) (k := s.buf)
    (m := v.blksz-skipFirst v pos i) (by omega) (by omega) hb
  rw [hsame] at hout
  refine ⟨?_, fun _ => ?_, fun d h => (nomatch h)⟩
  · rw [Nat.succ_mul]
    dsimp only
    omega
  · rw [hnext, ← hzeros]
    exact hout.put _

include hpos hsum hi

/-- A piece that begins with block `i`. -/
theorem inv_fresh (hb : F.blockOf i ≠ 0) (hfits : F.blockOf i*2^v.log2Blksz < 2^31) {out : Buffer}
    (hbuf : s.buf = max pos (i*v.blksz)-pos)
    (hout : Filled (F.bytesFrom pos) out (min (max pos (i*v.blksz)) stop-pos)) :
    Inv F pos stop (i+1) ⟨some (fresh (F.blockOf i*2^v.log2Blksz : ℕ) (skipFirst v pos i)
      (blockEnd v stop (blockCnt v stop) i-skipFirst v pos i) s.buf),
      s.buf+(v.blksz-skipFirst v pos i), out⟩ := by
  have hskip := skipFirst_eq v hfirst
  have hlt := skipFirst_lt v pos i
  have hle := skipFirst_le v pos i
  have hend := blockEnd_eq v hsum hi
  have hblk := v.blksz_eq
  have hsame : min (max pos (i*v.blksz)) stop-pos = s.buf := by omega
  have hload := F.bytesFrom_block pos (skipFirst v pos i) (i := i) (k := s.buf)
    (m := blockEnd v stop (blockCnt v stop) i-skipFirst v pos i) (by omega) (by omega) hb
  have hmul : F.blockOf i*v.blksz = 512*(F.blockOf i*2^v.log2Blksz) := by rw [hblk]; ring
  rw [hsame] at hout
  refine ⟨?_, fun h => (nomatch h), ?_⟩
  · rw [Nat.succ_mul]
    dsimp only
    omega
  rintro d ⟨⟩
  refine ⟨Nat.lt_succ_of_le hfirst, blockEnd v stop (blockCnt v stop) i,
    (blockEnd v stop (blockCnt v stop) i-skipFirst v pos i)/512, ?_, hb, ?_⟩
  · constructor
    · exact hout
    · rw [Nat.succ_mul]
      dsimp only [fresh]
      omega
    · refine ⟨F.blockOf i*2^v.log2Blksz, rfl, ?_, hload⟩
      rw [Nat.add_sub_cancel, hmul]
      dsimp only [fresh]
      omega
    · omega
    · dsimp only [fresh]
      omega
    · rw [Nat.succ_mul]
      dsimp only [fresh]
      omega
    · exact F.has i hb
    · exact hfits
    · rw [NextIs, Nat.add_sub_cancel, Nat.cast_add (F.blockOf i*2^v.log2Blksz)]
      rfl
  · intro hnext
    rw [Nat.succ_mul] at hnext
    have hfull : blockEnd v stop (blockCnt v stop) i = v.blksz := by omega
    refine ⟨hfull, ?_⟩
    rw [hfull]
    by_cases hzero : skipFirst v pos i = 0
    · rw [hzero, Nat.sub_zero, hblk, Nat.mul_div_cancel_left _ (by decide)]
      exact .inl rfl
    · exact .inr (by omega)

omit hpos hsum hfirst hi in
/-- A block continues the piece before it on the volume only right behind a whole block. -/
theorem continues {b w c : ℕ} (hw : w = 2^v.log2Blksz ∨ w < 2^v.log2Blksz) (hne : b ≠ c)
    (hb : b*2^v.log2Blksz < 2^31)
    (h : asInt ((b*2^v.log2Blksz+w : ℕ) : ℤ) = ((c*2^v.log2Blksz : ℕ) : ℤ)) :
    w = 2^v.log2Blksz ∧ c = b+1 := by
  have hend := v.sector_end hb
  have hpow := Nat.two_pow_pos v.log2Blksz
  have hsame : b*2^v.log2Blksz+w = c*2^v.log2Blksz := ((asInt_eq_iff (by omega)).1 h).1
  rcases hw with rfl | hlt
  · rw [← Nat.succ_mul] at hsame
    exact ⟨rfl, (Nat.mul_right_cancel hpow hsame).symm⟩
  · have hle : b ≤ c := Nat.le_of_mul_le_mul_right (by omega : b*2^v.log2Blksz ≤ _) hpow
    have hge : c < b+1 := Nat.lt_of_mul_lt_mul_right (a := 2^v.log2Blksz) (by
      rw [Nat.succ_mul]
      omega)
    omega

/-- A piece that is continued by block `i`. -/
theorem inv_extend (hb : F.blockOf i ≠ 0) (hfits : F.blockOf i*2^v.log2Blksz < 2^31) {d : Delayed}
    (hinv : Inv F pos stop i s) (hd : s.delayed = some d)
    (hnext : d.next = (F.blockOf i*2^v.log2Blksz : ℕ)) :
    Inv F pos stop (i+1) ⟨some (d.extend (blockEnd v stop (blockCnt v stop) i-skipFirst v pos i)),
      s.buf+(v.blksz-skipFirst v pos i), s.out⟩ := by
  obtain ⟨hi0, tail, w, hpending, hb', hwhole⟩ := hinv.pending d hd
  obtain ⟨hfilled, htotal, ⟨s0, hstart, hplace, hload⟩, htail, hne, hshort, hhas, hfits', hn⟩ :=
    hpending
  obtain ⟨rfl, hw⟩ := hwhole hi
  have hipos : 0 < i := Nat.zero_lt_of_lt hi0
  have hapart : F.blockOf (i-1) ≠ F.blockOf i := fun hsame => by
    have := F.apart _ _ hsame hb'
    omega
  obtain ⟨rfl, hsucc⟩ := continues hw hapart hfits' (hn.symm.trans hnext)
  have hskip : skipFirst v pos i = 0 := if_neg (by omega)
  have hmax := skipFirst_eq v hfirst
  have hend := blockEnd_eq v hsum hi
  have hbuf := hinv.buf
  have hpred : i-1+1 = i := by omega
  have hmul : F.blockOf i*v.blksz = F.blockOf (i-1)*v.blksz+v.blksz := by
    rw [hsucc, Nat.succ_mul]
  have hblk : F.blockOf i*v.blksz = 512*(F.blockOf i*2^v.log2Blksz) := by rw [v.blksz_eq]; ring
  have hmore := F.bytesFrom_block pos 0 (i := i) (k := d.buf+d.extent)
    (m := blockEnd v stop (blockCnt v stop) i) (by omega) (by omega) hb
  rw [hskip, Nat.sub_zero]
  refine ⟨?_, fun h => (nomatch h), ?_⟩
  · rw [Nat.succ_mul]
    dsimp only
    omega
  rintro d' ⟨⟩
  refine ⟨Nat.lt_succ_of_le hfirst, blockEnd v stop (blockCnt v stop) i,
    blockEnd v stop (blockCnt v stop) i/512, ?_, hb, ?_⟩
  · constructor
    · exact hfilled
    · rw [Nat.succ_mul]
      dsimp only [Delayed.extend]
      omega
    · refine ⟨s0, hstart, ?_, ?_⟩
      · rw [Nat.add_sub_cancel]
        dsimp only [Delayed.extend]
        omega
      · dsimp only [Delayed.extend]
        rw [load_add, load_add, hload, hmore]
        congr 2
        omega
    · omega
    · dsimp only [Delayed.extend]
      omega
    · rw [Nat.succ_mul]
      dsimp only [Delayed.extend]
      omega
    · exact F.has i hb
    · exact hfits
    · rw [NextIs, Nat.add_sub_cancel, Nat.cast_add (F.blockOf i*2^v.log2Blksz), ← hnext]
      rfl
  · intro hmoreBlocks
    rw [Nat.succ_mul] at hmoreBlocks
    have hfull : blockEnd v stop (blockCnt v stop) i = v.blksz := by omega
    rw [hfull, v.blksz_eq, Nat.mul_div_cancel_left _ (by decide)]
    exact ⟨rfl, .inl rfl⟩

/-- A round for a block that can be read, and that is no hole at the end. -/
theorem inv_step (hstop : pos % v.blksz+(stop-pos) ≤ 2^31)
    (hfits : F.blockOf i*2^v.log2Blksz < 2^31)
    (hhole : F.blockOf i = 0 → i*v.blksz+v.blksz ≤ stop) (hinv : Inv F pos stop i s) :
    ∃ s', blockStep v (fun i => F.blockOf i) pos stop (blockCnt v stop) s i = some s' ∧
      Inv F pos stop (i+1) s' := by
  have hblknr : asInt ((F.blockOf i : ℤ)*2^v.log2Blksz) = (F.blockOf i*2^v.log2Blksz : ℕ) := by
    rw [asInt_of_lt (by positivity) (by exact_mod_cast hfits)]
    push_cast
    rfl
  have hpow := Nat.two_pow_pos v.log2Blksz
  obtain ⟨out, hspill, hout⟩ := hinv.spill hpos hstop
  unfold blockStep
  rw [if_neg (not_lt.2 (Int.natCast_nonneg (F.blockOf i))), hblknr]
  dsimp only
  by_cases hb : F.blockOf i = 0
  · rw [if_neg (by rw [hb]; simp), hspill]
    exact ⟨_, rfl, inv_hole hfirst hpos hb (hhole hb) hinv.buf hout⟩
  have hne : ((F.blockOf i*2^v.log2Blksz : ℕ) : ℤ) ≠ 0 := by
    exact_mod_cast (Nat.mul_pos (Nat.pos_of_ne_zero hb) hpow).ne'
  rw [if_pos hne]
  cases hd : s.delayed with
  | none => exact ⟨_, rfl, inv_fresh hpos hsum hfirst hi hb hfits hinv.buf (hinv.idle hd)⟩
  | some d =>
    dsimp only
    by_cases hnext : d.next = (F.blockOf i*2^v.log2Blksz : ℕ)
    · rw [if_pos hnext]
      exact ⟨_, rfl, inv_extend hpos hsum hfirst hi hb hfits hinv hd hnext⟩
    · rw [if_neg hnext, ← hd, hspill]
      exact ⟨_, rfl, inv_fresh hpos hsum hfirst hi hb hfits hinv.buf hout⟩

end Step

/-! ## Pieces that cannot be read -/

/-- A piece that begins or ends from sector 2^31 on. -/
structure Far (v : Volume) (pos stop i : ℕ) (d : Delayed) : Prop where
  far : d.start < 0 ∨ ∃ s : ℕ, d.start = s ∧ s < 2^31 ∧ 2^31 ≤ s+(d.skipfirst+d.extent-1)/512
  nonempty : 0 < d.skipfirst+d.extent
  short : d.skipfirst+d.extent ≤ pos % v.blksz+(min (max pos (i*v.blksz)) stop-pos)

theorem Far.spill {d : Delayed} (h : Far v pos stop i d)
    (hstop : pos % v.blksz+(stop-pos) ≤ 2^31) (out : Buffer) : Ext4.spill v out (some d) = none := by
  have hne := h.nonempty
  have hshort := h.short
  rw [Ext4.spill, Option.map_eq_none_iff]
  rcases h.far with hneg | ⟨s, hs, hlt, hhigh⟩
  · exact v.devread_neg hneg _ _
  · rw [hs]
    exact v.devread_high hne (by omega) hhigh (by omega)

theorem Far.step {d : Delayed} (h : Far v pos stop i d) (hd : s.delayed = some d)
    (hstop : pos % v.blksz+(stop-pos) ≤ 2^31) (hsum : stop+v.blksz-1 < 2^32)
    (hfirst : pos/v.blksz < i) (hi : i*v.blksz < stop) {lookup : ℕ → ℤ} {s' : ReadState}
    (hstep : blockStep v lookup pos stop (blockCnt v stop) s i = some s') :
    ∃ d', s'.delayed = some d' ∧ Far v pos stop (i+1) d' := by
  have hnone := h.spill hstop s.out
  have hskip : skipFirst v pos i = 0 := if_neg (by omega)
  have hmax := skipFirst_eq v hfirst.le
  have hend := blockEnd_eq v hsum hi
  unfold blockStep at hstep
  dsimp only at hstep
  rw [hd] at hstep
  split at hstep
  · cases hstep
  split at hstep
  swap
  · rw [hnone] at hstep
    cases hstep
  dsimp only at hstep
  split at hstep
  swap
  · rw [hnone] at hstep
    cases hstep
  obtain rfl := Option.some.inj hstep
  refine ⟨_, rfl, ?_, ?_, ?_⟩
  · rcases h.far with hneg | ⟨s0, hs, hlt, hhigh⟩
    · exact .inl hneg
    · refine .inr ⟨s0, hs, hlt, hhigh.trans (Nat.add_le_add_left (Nat.div_le_div_right ?_) _)⟩
      dsimp only [Delayed.extend]
      omega
  · exact h.nonempty.trans_le (Nat.add_le_add_left (Nat.le_add_right _ _) _)
  · have hshort := h.short
    rw [hskip, Nat.succ_mul]
    dsimp only [Delayed.extend]
    omega

theorem sector_negative (hsectors : v.sectors ≤ 2^32) (hhas : v.Has i)
    (hfar : ¬i*2^v.log2Blksz < 2^31) : asInt ((i : ℤ)*2^v.log2Blksz) < 0 := by
  have hpow := Nat.two_pow_pos v.log2Blksz
  unfold Volume.Has at hhas
  rw [Nat.succ_mul] at hhas
  exact asInt_neg (by exact_mod_cast not_lt.1 hfar)
    (by exact_mod_cast (by omega : i*2^v.log2Blksz < 2^32))

theorem sector_of_next {b w : ℕ} (hb : b*2^v.log2Blksz < 2^31)
    (hw : w = 2^v.log2Blksz ∨ w < 2^v.log2Blksz)
    (hneg : asInt ((b*2^v.log2Blksz+w : ℕ) : ℤ) < 0) : b*2^v.log2Blksz+2^v.log2Blksz = 2^31 := by
  have hend := v.sector_end hb
  by_contra hne
  rw [asInt_of_lt (by positivity) (by exact_mod_cast (by omega : _+w < 2^31))] at hneg
  omega

/-- With a block from sector 2^31 on the piece cannot be read any more. -/
theorem Inv.far (hpos : pos ≤ stop) (hsum : stop+v.blksz-1 < 2^32) (hfirst : pos/v.blksz ≤ i)
    (hi : i*v.blksz < stop) (hsectors : v.sectors ≤ 2^32)
    (hfar : ¬F.blockOf i*2^v.log2Blksz < 2^31) (hinv : Inv F pos stop i s) {s' : ReadState}
    (hstep : blockStep v (fun i => F.blockOf i) pos stop (blockCnt v stop) s i = some s') :
    ∃ d', s'.delayed = some d' ∧ Far v pos stop (i+1) d' := by
  have hb : F.blockOf i ≠ 0 := fun hzero => hfar (by rw [hzero]; simp)
  have hneg := sector_negative hsectors (F.has i hb) hfar
  have hmax := skipFirst_eq v hfirst
  have hle := skipFirst_le v pos i
  have hend := blockEnd_eq v hsum hi
  have hblk := blksz_pos v
  have hfresh : Far v pos stop (i+1) (fresh (asInt ((F.blockOf i : ℤ)*2^v.log2Blksz))
      (skipFirst v pos i) (blockEnd v stop (blockCnt v stop) i-skipFirst v pos i) s.buf) := by
    refine ⟨.inl hneg, ?_, ?_⟩
    · dsimp only [fresh]
      omega
    · rw [Nat.succ_mul]
      dsimp only [fresh]
      omega
  unfold blockStep at hstep
  rw [if_neg (not_lt.2 (Int.natCast_nonneg (F.blockOf i)))] at hstep
  dsimp only at hstep
  rw [if_pos hneg.ne] at hstep
  cases hd : s.delayed with
  | none =>
    rw [hd] at hstep
    obtain rfl := Option.some.inj hstep
    exact ⟨_, rfl, hfresh⟩
  | some d =>
    rw [hd] at hstep
    dsimp only at hstep
    split at hstep
    swap
    · obtain ⟨out, -, rfl⟩ := Option.map_eq_some_iff.1 hstep
      exact ⟨_, rfl, hfresh⟩
    next hnext =>
    obtain rfl := Option.some.inj hstep
    obtain ⟨hi0, tail, w, hpending, hb', hwhole⟩ := hinv.pending d hd
    obtain ⟨rfl, hw⟩ := hwhole hi
    have hskip : skipFirst v pos i = 0 := if_neg (by omega)
    have hat := sector_of_next hpending.fits hw (hpending.next ▸ hnext ▸ hneg)
    refine ⟨_, rfl, ?_, hpending.nonempty.trans_le
      (Nat.add_le_add_left (Nat.le_add_right _ _) _), ?_⟩
    · obtain ⟨s0, hs, hplace, -⟩ := hpending.place
      have hmul : F.blockOf (i-1)*v.blksz+v.blksz = 512*2^31 := by
        rw [← hat, v.blksz_eq]
        ring
      have hne := hpending.nonempty
      refine .inr ⟨s0, hs, by omega, ?_⟩
      dsimp only [Delayed.extend]
      omega
    · have hshort := hpending.short
      rw [hskip, Nat.succ_mul]
      dsimp only [Delayed.extend]
      omega

/-! ## All rounds -/

/-- Block `i` can be read, and is no hole that reaches behind the bytes that are asked for. -/
def Fine (F : BlockFile v) (stop i : ℕ) : Prop :=
  F.blockOf i*2^v.log2Blksz < 2^31 ∧ (F.blockOf i = 0 → i*v.blksz+v.blksz ≤ stop)

theorem rounds_inv (hpos : pos ≤ stop) (hstop : pos % v.blksz+(stop-pos) ≤ 2^31)
    (hsum : stop+v.blksz-1 < 2^32) (n : ℕ) (hfirst : pos/v.blksz ≤ i)
    (hn : i+n ≤ blockCnt v stop) (hfine : ∀ j, i ≤ j → j < i+n → Fine F stop j)
    (hinv : Inv F pos stop i s) :
    ∃ s', (List.range' i n).foldlM (blockStep v (fun i => F.blockOf i) pos stop
      (blockCnt v stop)) s = some s' ∧ Inv F pos stop (i+n) s' := by
  induction n generalizing i s with
  | zero => exact ⟨s, rfl, hinv⟩
  | succ n ih =>
    obtain ⟨hfits, hhole⟩ := hfine i le_rfl (by omega)
    have hi := (blockCnt_mul v hsum).1 (show i < blockCnt v stop by omega)
    obtain ⟨s1, hstep, hinv1⟩ := inv_step hpos hsum hfirst hi hstop hfits hhole hinv
    obtain ⟨s', hrest, hinv'⟩ := ih (by omega) (by omega)
      (fun j h1 h2 => hfine j (by omega) (by omega)) hinv1
    rw [Nat.add_right_comm, Nat.add_assoc] at hinv'
    refine ⟨s', ?_, hinv'⟩
    rw [List.range'_succ, List.foldlM_cons, hstep]
    exact hrest

theorem rounds_far (hstop : pos % v.blksz+(stop-pos) ≤ 2^31) (hsum : stop+v.blksz-1 < 2^32)
    (n : ℕ) (hfirst : pos/v.blksz < i) (hn : i+n ≤ blockCnt v stop) {lookup : ℕ → ℤ}
    {d : Delayed} (hd : s.delayed = some d) (hfar : Far v pos stop i d) {s' : ReadState}
    (hrun : (List.range' i n).foldlM (blockStep v lookup pos stop (blockCnt v stop)) s =
      some s') : ∃ d', s'.delayed = some d' ∧ Far v pos stop (i+n) d' := by
  induction n generalizing i s d with
  | zero =>
    obtain rfl := Option.some.inj hrun
    exact ⟨d, hd, hfar⟩
  | succ n ih =>
    rw [List.range'_succ, List.foldlM_cons] at hrun
    obtain ⟨s1, hstep, hrest⟩ := Option.bind_eq_some_iff.1 hrun
    have hi := (blockCnt_mul v hsum).1 (show i < blockCnt v stop by omega)
    obtain ⟨d1, hd1, hfar1⟩ := hfar.step hd hstop hsum hfirst hi hstep
    obtain ⟨d', hd', hfar'⟩ := ih (by omega) (by omega) hd1 hfar1 hrest
    exact ⟨d', hd', by rw [Nat.add_succ, ← Nat.succ_add]; exact hfar'⟩

variable (F pos)

theorem inv_start (stop : ℕ) (hpos : pos ≤ stop) :
    Inv F pos stop (pos/v.blksz) ⟨none, 0, fun _ => none⟩ := by
  have hmul := Nat.div_mul_le_self pos v.blksz
  have hmax : max pos (pos/v.blksz*v.blksz) = pos := by omega
  refine ⟨by rw [hmax, Nat.sub_self], fun _ => ?_, fun d h => (nomatch h)⟩
  rw [hmax, Nat.min_eq_left hpos, Nat.sub_self]
  exact filled_empty _

theorem first_le {stop : ℕ} (hpos : pos ≤ stop) (hsum : stop+v.blksz-1 < 2^32) :
    pos/v.blksz ≤ blockCnt v stop := by
  have hblk := blksz_pos v
  rw [blockCnt, Nat.mod_eq_of_lt hsum]
  exact Nat.div_le_div_right (by omega)

/-- Where every block is fine, the rounds fill the buffer. -/
theorem rounds_filled {stop : ℕ} (hpos : pos ≤ stop)
    (hstop : pos % v.blksz+(stop-pos) ≤ 2^31) (hsum : stop+v.blksz-1 < 2^32)
    (hfine : ∀ i, pos/v.blksz ≤ i → i*v.blksz < stop → Fine F stop i) :
    ∃ s out, (List.range' (pos/v.blksz) (blockCnt v stop-pos/v.blksz)).foldlM (blockStep v
        (fun i => F.blockOf i) pos stop (blockCnt v stop)) ⟨none, 0, fun _ => none⟩ = some s ∧
      Ext4.spill v s.out s.delayed = some out ∧ Filled (F.bytesFrom pos) out (stop-pos) := by
  have hle := first_le pos hpos hsum
  obtain ⟨s, hrun, hinv⟩ := rounds_inv hpos hstop hsum (blockCnt v stop-pos/v.blksz) le_rfl
    (by omega) (fun j h1 h2 => hfine j h1 ((blockCnt_mul v hsum).1 (by omega)))
    (inv_start F pos stop hpos)
  obtain ⟨out, hspill, hout⟩ := hinv.spill hpos hstop
  have hend : stop ≤ blockCnt v stop*v.blksz :=
    not_lt.1 fun hlt => lt_irrefl _ ((blockCnt_mul v hsum).2 hlt)
  rw [Nat.add_sub_cancel' hle, show min (max pos (blockCnt v stop*v.blksz)) stop-pos = stop-pos by
    omega] at hout
  exact ⟨s, out, hrun, hspill, hout⟩

/-- Where the rounds fill the buffer, every block is fine. -/
theorem fine_of_filled {stop : ℕ} (hpos : pos ≤ stop)
    (hstop : pos % v.blksz+(stop-pos) ≤ 2^31) (hsum : stop+v.blksz-1 < 2^32)
    (hsectors : v.sectors ≤ 2^32) {s : ReadState} {out : Buffer}
    (hrun : (List.range' (pos/v.blksz) (blockCnt v stop-pos/v.blksz)).foldlM (blockStep v
        (fun i => F.blockOf i) pos stop (blockCnt v stop)) ⟨none, 0, fun _ => none⟩ = some s)
    (hspill : Ext4.spill v s.out s.delayed = some out)
    (hout : Filled (F.bytesFrom pos) out (stop-pos)) :
    ∀ i, pos/v.blksz ≤ i → i*v.blksz < stop → Fine F stop i := by
  -- up to the block the invariant holds, as those before it are fine
  intro i
  induction i using Nat.strong_induction_on with
  | h i ih =>
  intro hfirst hi
  have hcnt := (blockCnt_mul v hsum).2 hi
  obtain ⟨s1, hbefore, hinv⟩ := rounds_inv hpos hstop hsum (i-pos/v.blksz) le_rfl (by omega)
    (fun j h1 h2 => ih j (by omega) h1 ((blockCnt_mul v hsum).1 (by omega)))
    (inv_start F pos stop hpos)
  rw [Nat.add_sub_cancel' hfirst] at hinv
  have hsplit : List.range' (pos/v.blksz) (blockCnt v stop-pos/v.blksz) =
      List.range' (pos/v.blksz) (i-pos/v.blksz) ++
        i :: List.range' (i+1) (blockCnt v stop-(i+1)) := by
    rw [← List.range'_succ, show blockCnt v stop-pos/v.blksz =
      (i-pos/v.blksz)+(blockCnt v stop-(i+1)+1) by omega, ← List.range'_append_1,
      Nat.add_sub_cancel' hfirst]
  rw [hsplit, List.foldlM_append, hbefore, Option.bind_eq_bind, Option.bind_some,
    List.foldlM_cons] at hrun
  obtain ⟨s2, hstep, hrest⟩ := Option.bind_eq_some_iff.1 hrun
  have hfits : F.blockOf i*2^v.log2Blksz < 2^31 := by
    by_contra hfar
    obtain ⟨d, hd, hfard⟩ := hinv.far hpos hsum hfirst hi hsectors hfar hstep
    obtain ⟨d', hd', hfar'⟩ := rounds_far hstop hsum _ (by omega) (by omega) hd hfard hrest
    rw [hd', hfar'.spill hstop] at hspill
    cases hspill
  refine ⟨hfits, fun hzero => ?_⟩
  by_contra hover
  -- a hole at the end is cleared as a whole block
  have hlast : blockCnt v stop-(i+1) = 0 := by
    have hmore := blockCnt_mul v (i := i+1) hsum
    rw [Nat.succ_mul] at hmore
    by_contra hne
    have := hmore.1 (by omega)
    omega
  rw [hlast] at hrest
  obtain rfl := Option.some.inj hrest
  have hmax := skipFirst_eq v hfirst
  have hlt := skipFirst_lt v pos i
  have hbuf := hinv.buf
  unfold blockStep at hstep
  rw [if_neg (not_lt.2 (Int.natCast_nonneg (F.blockOf i)))] at hstep
  dsimp only at hstep
  rw [hzero, Nat.cast_zero, zero_mul, asInt_of_lt le_rfl (by decide), if_neg (by decide)] at hstep
  obtain ⟨out1, -, rfl⟩ := Option.map_eq_some_iff.1 hstep
  obtain rfl := Option.some.inj hspill
  exact put_not_filled _ _ (by omega) (by rw [List.length_replicate]; omega) hout

variable (len : ℕ)

/-- The bytes that are read: `pos` does not count. -/
def clipped : ℕ := min len F.size

/-- The bytes that are asked for lie in the file, or there are none, and the sums fit; and every
block of them is fine. -/
structure Reads : Prop where
  inside : F.clipped len = 0 ∨ pos+F.clipped len ≤ F.size
  result : F.clipped len < 2^31
  piece : pos % v.blksz+F.clipped len ≤ 2^31
  sum : pos+F.clipped len+v.blksz-1 < 2^32
  fine : ∀ i, pos/v.blksz ≤ i → i*v.blksz < pos+F.clipped len → Fine F (pos+F.clipped len) i

theorem count_of_inside (h : F.clipped len = 0 ∨ pos+F.clipped len ≤ F.size) :
    F.count pos len = F.clipped len := by
  unfold count
  unfold clipped at h ⊢
  omega

theorem inside_of_count (h : F.count pos len = F.clipped len) :
    F.clipped len = 0 ∨ pos+F.clipped len ≤ F.size := by
  unfold count at h
  unfold clipped at h ⊢
  omega

variable {F pos len}

theorem right_of_reads (h : F.Reads pos len) : F.Right pos len := by
  have hblk := blksz_pos v
  have hn : pos+F.clipped len-pos = F.clipped len := Nat.add_sub_cancel_left _ _
  have hcomm : F.clipped len+pos = pos+F.clipped len := Nat.add_comm _ _
  obtain ⟨s, out, hrun, hspill, hout⟩ := F.rounds_filled pos (Nat.le_add_right pos _)
    (hn.symm ▸ h.piece) h.sum h.fine
  refine ⟨out, ?_, ?_⟩
  · unfold readFile
    dsimp only
    rw [← clipped, hcomm, hrun, Option.bind_some, hspill, Option.map_some,
      asInt_of_lt (by positivity) (by exact_mod_cast h.result), F.count_of_inside pos len h.inside]
  · rw [F.count_of_inside pos len h.inside]
    exact hn ▸ hout

/-- What a right read has done: the rounds and the last piece, with the number that is returned. -/
theorem Right.rounds (h : F.Right pos len) :
    asInt (F.clipped len) = F.count pos len ∧
    ∃ s out, (List.range' (pos/v.blksz) (blockCnt v (pos+F.clipped len)-pos/v.blksz)).foldlM
        (blockStep v (fun i => F.blockOf i) pos (pos+F.clipped len)
          (blockCnt v (pos+F.clipped len))) ⟨none, 0, fun _ => none⟩ = some s ∧
      Ext4.spill v s.out s.delayed = some out ∧
      Filled (F.bytesFrom pos) out (F.count pos len) := by
  obtain ⟨out, hread, hout⟩ := h
  unfold readFile at hread
  dsimp only at hread
  rw [← clipped, Nat.add_comm (F.clipped len)] at hread
  obtain ⟨s, hrun, hlast⟩ := Option.bind_eq_some_iff.1 hread
  obtain ⟨out', hspill, hpair⟩ := Option.map_eq_some_iff.1 hlast
  obtain ⟨hcount, rfl⟩ := Prod.ext_iff.1 hpair
  exact ⟨hcount, s, out', hrun, hspill, hout⟩

theorem reads_of_right (hsectors : v.sectors ≤ 2^32) (hpos : pos < 2^31)
    (hpiece : pos % v.blksz+F.clipped len ≤ 2^31) (h : F.Right pos len) : F.Reads pos len := by
  obtain ⟨hresult, s, out, hrun, hspill, hout⟩ := h.rounds
  have hblk := blksz_pos v
  have hle := v.blksz_le
  have hlt : F.clipped len < 2^32 := (Nat.min_le_right _ _).trans_lt F.size_lt
  obtain ⟨hcount, hint⟩ := (asInt_eq_iff hlt).1 hresult
  have hinside := F.inside_of_count pos len hcount.symm
  have hsum : pos+F.clipped len+v.blksz-1 < 2^32 := by
    by_contra hwrap
    -- no block is counted, so nothing is read
    have hnone : blockCnt v (pos+F.clipped len) = 0 := by
      rw [blockCnt, Nat.mod_eq_sub_mod (by omega), Nat.mod_eq_of_lt (by omega)]
      exact Nat.div_eq_of_lt (by omega)
    rw [hnone, Nat.zero_sub] at hrun
    obtain rfl := Option.some.inj hrun
    obtain rfl := Option.some.inj hspill
    have hfirst := hout 0
    rw [if_pos (by omega)] at hfirst
    cases hfirst
  have hn : pos+F.clipped len-pos = F.clipped len := Nat.add_sub_cancel_left _ _
  refine ⟨hinside, hint, hpiece, hsum, ?_⟩
  refine F.fine_of_filled pos (Nat.le_add_right pos _) (hn.symm ▸ hpiece) hsum hsectors hrun hspill ?_
  rw [hn, hcount]
  exact hout

/-- A read gets the bytes of the file up to its end, and nothing else, exactly where the bytes
that are counted without `pos` lie in the file and their blocks are fine. -/
theorem right_read_iff (F : BlockFile v) (pos len : ℕ) :
    (F.Reads pos len → F.Right pos len) ∧
      (v.sectors ≤ 2^32 → pos < 2^31 → pos % v.blksz+F.clipped len ≤ 2^31 → F.Right pos len →
        F.Reads pos len) :=
  ⟨right_of_reads, reads_of_right⟩

/-! ## The lookups of the two kinds of files -/

/-- Only the blocks of the read are looked up. -/
theorem readFile_congr {lookup lookup' : ℕ → ℤ} {filesize : ℕ}
    (h : ∀ i, i < blockCnt v (min len filesize+pos) → lookup i = lookup' i) :
    readFile v lookup filesize pos len = readFile v lookup' filesize pos len := by
  have hrounds : ∀ (is : List ℕ) (s : ReadState),
      (∀ i ∈ is, i < blockCnt v (min len filesize+pos)) →
      is.foldlM (blockStep v lookup pos (min len filesize+pos)
        (blockCnt v (min len filesize+pos))) s =
      is.foldlM (blockStep v lookup' pos (min len filesize+pos)
        (blockCnt v (min len filesize+pos))) s := by
    intro is
    induction is with
    | nil => exact fun s _ => rfl
    | cons i is ih =>
      intro s his
      have hsame := h i (his i List.mem_cons_self)
      rw [List.foldlM_cons, List.foldlM_cons, blockStep, blockStep, hsame]
      exact congrArg _ (funext fun s1 => ih s1 fun j hj => his j (List.mem_cons_of_mem i hj))
  unfold readFile
  dsimp only
  rw [hrounds _ _ fun i hi => by rw [List.mem_range'_1] at hi; omega]

/-- In a file with extents the lookups give its blocks. -/
theorem readFile_of_extents {dirBlocks : List UInt8} (T : ExtentTree v dirBlocks)
    (hF : ∀ i, F.blockOf i = T.blockOf i)
    (hT : ∀ i, i < blockCnt v (min len F.size+pos) → T.Reaches i) {lookup : ℕ → ℤ}
    (h : ∀ i, Returns v dirBlocks i (lookup i)) :
    readFile v lookup F.size pos len = readFile v (fun i => F.blockOf i) F.size pos len :=
  readFile_congr fun i hi => by rw [hF]; exact (h i).unique (T.returns_of_reaches (hT i hi))

/-- In a file with block pointers they do so after every history. -/
theorem readFile_of_pointers (P : File v) (hF : ∀ i, F.blockOf i = P.blockOf i)
    (hP : ∀ i, i < blockCnt v (min len F.size+pos) → P.Reads i)
    (history : ℕ → List Request) (beyond : ℕ → ℕ → ℕ → UInt32) :
    readFile v (fun i => (P.lookup (history i) (beyond i) i).blknr) F.size pos len =
      readFile v (fun i => F.blockOf i) F.size pos len :=
  readFile_congr fun i hi => by rw [hF]; exact (P.right_of_reads _ _ (hP i hi)).1

end BlockFile

/-! ## A read that does not begin at 0 -/

def shortVolume : Volume := ⟨0, log2_zero_le, 16, fun a => UInt8.ofNat a⟩

def shortBlock (i : ℕ) : ℕ := if i = 0 then 5 else 0

theorem shortBlock_has (i : ℕ) (h : shortBlock i ≠ 0) : shortVolume.Has (shortBlock i) := by
  unfold shortBlock at h ⊢
  by_cases hi : i = 0
  · rw [if_pos hi]
    decide
  · exact absurd (if_neg hi) h

theorem shortBlock_apart (i j : ℕ) (h : shortBlock i = shortBlock j) (hi : shortBlock i ≠ 0) :
    i = j := by
  unfold shortBlock at h hi
  split_ifs at h hi <;> omega

/-- A file of 10 bytes in block 5. -/
theorem shortFile_lt : 10 < 2^32 := by decide

def shortFile : BlockFile shortVolume :=
  ⟨10, shortFile_lt, shortBlock, shortBlock_has, shortBlock_apart⟩

/-- From position 5 on five bytes are left, and ten are reported. -/
theorem length_ignores_position :
    (readFile shortVolume (fun i => shortFile.blockOf i) shortFile.size 5 10).map Prod.fst =
      some 10 ∧ shortFile.count 5 10 = 5 := by
  decide +kernel

end UBoot.Ext4
