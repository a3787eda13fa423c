import UBoot.ByteStore
import UBoot.LittleEndian
import UBoot.MachineInt

/-!
# Reading a volume: `ext4fs_devread` of `fs/ext4/dev.c`

A volume is the bytes of its partition. A read names a sector, which is an `int`,
and what it asks for may begin and end inside of sectors.
-/

set_option autoImplicit false

namespace UBoot.Ext4

open ByteStore MachineInt

structure Volume where
  /-- `log2_block_size` of the superblock. -/
  log2BlockSize : ℕ
  /-- Blocks have up to 64 KiB. -/
  blockSize_le : log2BlockSize ≤ 6
  /-- `part_info->size` -/
  sectors : ℕ
  bytes : Memory

/-- Blocks of 1 KiB. -/
theorem log2_zero_le : 0 ≤ 6 := Nat.zero_le 6

namespace Volume

variable (v : Volume)

/-- `LOG2_EXT2_BLOCK_SIZE` -/
def log2Blksz : ℕ := v.log2BlockSize+1

/-- `EXT2_BLOCK_SIZE` -/
def blksz : ℕ := 2^(v.log2BlockSize+10)

/-- `block_read` of the device, counted from the start of the partition. -/
def blockRead (sector count : ℕ) : List UInt8 := load v.bytes (512*sector) (512*count)

/-- The sector of the last byte of a read, as an `int`. -/
def lastSector (sector : ℤ) (byteOffset byteLen : ℕ) : ℤ :=
  asInt (sector+asInt ((byteOffset : ℤ)+byteLen-1)/512)

def devread (sector : ℤ) (byteOffset byteLen : ℕ) : Option (List UInt8) :=
  -- the last sector is compared as an unsigned number
  if sector < 0 ∨ lastSector sector byteOffset byteLen < 0 ∨
      lastSector sector byteOffset byteLen ≥ v.sectors then none
  else
    let sector := sector.toNat+byteOffset/512
    let byteOffset := byteOffset % 512
    -- the first part which is not aligned with the start of a sector
    let first := if byteOffset ≠ 0 then min (512-byteOffset) byteLen else 0
    let front := ((v.blockRead sector 1).drop byteOffset).take first
    let sector := if byteOffset ≠ 0 then sector+1 else sector
    let byteLen := byteLen-first
    let blockLen := byteLen/512
    -- the sectors that are asked for whole, and the rest
    some (front ++ (v.blockRead sector blockLen ++
      (v.blockRead (sector+blockLen) 1).take (byteLen % 512)))

/-- A block of the volume. -/
def block (n : ℕ) : List UInt8 := load v.bytes (n*v.blksz) v.blksz

/-- A block that lies in the partition. -/
def Has (n : ℕ) : Prop := (n+1)*2^v.log2Blksz ≤ v.sectors

instance (n : ℕ) : Decidable (v.Has n) := Nat.decLe _ _

/-- The block at a number that is shifted to a sector. -/
def readBlock (n : ℕ) : Option (List UInt8) := v.devread (asInt (n*2^v.log2Blksz)) 0 v.blksz

end Volume

/-! ## What a read brings -/

namespace Volume

variable (v : Volume)

theorem lastSector_eq (sector : ℕ) {byteOffset byteLen : ℕ} (hpos : 0 < byteOffset+byteLen)
    (hle : byteOffset+byteLen ≤ 2^31) :
    lastSector sector byteOffset byteLen =
      asInt ((sector+(byteOffset+byteLen-1)/512 : ℕ) : ℤ) := by
  have hsum : (byteOffset : ℤ)+byteLen-1 = (byteOffset+byteLen-1 : ℕ) := by omega
  rw [lastSector, hsum, asInt_of_lt (n := (byteOffset+byteLen-1 : ℕ)) (by positivity) (by omega),
    Nat.cast_add sector, Int.natCast_ediv, Nat.cast_ofNat]

/-- The three parts of a read are one row of bytes. -/
theorem devread_some {sector byteOffset byteLen : ℕ} (hpos : 0 < byteOffset+byteLen)
    (hle : byteOffset+byteLen ≤ 2^31) (hint : sector+(byteOffset+byteLen-1)/512 < 2^31)
    (hin : sector+(byteOffset+byteLen-1)/512 < v.sectors) :
    v.devread sector byteOffset byteLen =
      some (load v.bytes (512*sector+byteOffset) byteLen) := by
  have hlast := lastSector_eq sector hpos hle
  rw [asInt_of_lt (by positivity) (by exact_mod_cast hint)] at hlast
  have hinside : ¬((sector : ℤ) < 0 ∨ lastSector sector byteOffset byteLen < 0 ∨
      lastSector sector byteOffset byteLen ≥ v.sectors) := by
    rw [hlast]
    omega
  unfold devread
  rw [if_neg hinside, Int.toNat_natCast]
  have hmod := Nat.mod_lt byteOffset (show 0 < 512 by decide)
  have hdiv := Nat.div_add_mod byteOffset 512
  have hrest : ∀ s n, v.blockRead s (n/512) ++ (v.blockRead (s+n/512) 1).take (n % 512) =
      load v.bytes (512*s) n := by
    intro s n
    have hn := Nat.div_add_mod n 512
    have hlt := Nat.mod_lt n (show 0 < 512 by decide)
    rw [blockRead, blockRead, ← load_take _ _ (by omega), Nat.mul_add, ← load_add, hn]
  dsimp only
  rw [hrest]
  by_cases hoff : byteOffset % 512 = 0
  · rw [if_neg (not_not.2 hoff), if_neg (not_not.2 hoff), List.take_zero, List.nil_append,
      Nat.sub_zero]
    rw [show 512*(sector+byteOffset/512) = 512*sector+byteOffset by omega]
  · rw [if_pos hoff, if_pos hoff, blockRead, ← load_drop _ _ (by omega), ← load_take _ _ (by omega)]
    have hsum : byteLen = min (512-byteOffset % 512) byteLen+
        (byteLen-min (512-byteOffset % 512) byteLen) := by omega
    rw [show 512*(sector+byteOffset/512)+byteOffset % 512 = 512*sector+byteOffset by omega]
    by_cases hshort : byteLen ≤ 512-byteOffset % 512
    · rw [Nat.min_eq_right hshort, Nat.sub_self]
      exact congrArg some (List.append_nil _)
    · rw [Nat.min_eq_left (by omega)] at hsum ⊢
      rw [show 512*(sector+byteOffset/512+1) = 512*sector+byteOffset+(512-byteOffset % 512) by omega,
        ← load_add, ← hsum]

/-- A read that ends in a sector from 2^31 on is refused. -/
theorem devread_high {sector byteOffset byteLen : ℕ} (hpos : 0 < byteOffset+byteLen)
    (hle : byteOffset+byteLen ≤ 2^31) (hint : 2^31 ≤ sector+(byteOffset+byteLen-1)/512)
    (hlt : sector+(byteOffset+byteLen-1)/512 < 2^32) :
    v.devread sector byteOffset byteLen = none := by
  have hlast := lastSector_eq sector hpos hle
  have hneg := asInt_neg (n := (sector+(byteOffset+byteLen-1)/512 : ℕ)) (by exact_mod_cast hint)
    (by exact_mod_cast hlt)
  rw [devread, if_pos (Or.inr (Or.inl (hlast ▸ hneg)))]

theorem devread_neg {sector : ℤ} (h : sector < 0) (byteOffset byteLen : ℕ) :
    v.devread sector byteOffset byteLen = none := by
  rw [devread, if_pos (Or.inl h)]

theorem blksz_eq : v.blksz = 512*2^v.log2Blksz := by
  rw [blksz, log2Blksz, show v.log2BlockSize+10 = 9+(v.log2BlockSize+1) by omega, pow_add]
  rfl

theorem blksz_le : v.blksz ≤ 2^16 := by
  have h := v.blockSize_le
  exact Nat.pow_le_pow_right (by decide) (by omega)

/-- The sectors of a block do not go over a power of two. -/
theorem sector_end {n : ℕ} (h : n*2^v.log2Blksz < 2^31) :
    n*2^v.log2Blksz+2^v.log2Blksz ≤ 2^31 := by
  have hdvd : (2 : ℕ)^31 = 2^(31-v.log2Blksz)*2^v.log2Blksz := by
    have h6 := v.blockSize_le
    rw [← pow_add, Nat.sub_add_cancel (by unfold log2Blksz; omega)]
  rw [hdvd] at h ⊢
  rw [← Nat.succ_mul]
  exact Nat.mul_le_mul_right _ (Nat.lt_of_mul_lt_mul_right h)

/-- A block is read where its sector is a positive `int`. -/
theorem readBlock_eq {n : ℕ} (hn : v.Has n) (h : n*2^v.log2Blksz < 2^31) :
    v.readBlock n = some (v.block n) := by
  have hpos : 0 < 2^v.log2Blksz := Nat.two_pow_pos _
  have hblk := v.blksz_eq
  have hle := v.blksz_le
  have hlast : (0+v.blksz-1)/512 < 2^v.log2Blksz := by omega
  have hend := v.sector_end h
  unfold Has at hn
  rw [Nat.succ_mul] at hn
  rw [readBlock, asInt_of_lt (by positivity) (by exact_mod_cast h),
    show (n : ℤ)*2^v.log2Blksz = ((n*2^v.log2Blksz : ℕ) : ℤ) by push_cast; rfl,
    v.devread_some (by omega) (by omega) (by omega) (by omega), block, blksz_eq, Nat.add_zero]
  rw [show 512*(n*2^v.log2Blksz) = n*(512*2^v.log2Blksz) by ring]

/-- A sector of 32 bits that is no positive `int` is refused. -/
theorem readBlock_high {n : ℕ} (h : 2^31 ≤ n*2^v.log2Blksz) (hlt : n*2^v.log2Blksz < 2^32) :
    v.readBlock n = none := by
  rw [readBlock]
  exact v.devread_neg (asInt_neg (by exact_mod_cast h) (by exact_mod_cast hlt)) _ _

end Volume

end UBoot.Ext4
