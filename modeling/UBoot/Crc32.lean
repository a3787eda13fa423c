import Mathlib.Tactic

/-!
# The checksum of `lib/crc32.c`

The table entry of a byte is computed as `make_crc_table` does; the data is
taken byte by byte.
-/

set_option autoImplicit false

namespace UBoot.Crc32

def crcPoly : UInt32 := 0xedb88320

def crcRounds : ℕ → UInt32 → UInt32
  | 0, c => c
  | k+1, c => crcRounds k (if c &&& 1 ≠ 0 then crcPoly ^^^ (c >>> 1) else c >>> 1)

def crcTable (n : UInt32) : UInt32 := crcRounds 8 n

def doCrc (crc : UInt32) (x : UInt8) : UInt32 :=
  crcTable ((crc ^^^ x.toUInt32) &&& 255) ^^^ (crc >>> 8)

def crc32NoComp (crc : UInt32) (buf : List UInt8) : UInt32 := buf.foldl doCrc crc

def crc32 (crc : UInt32) (buf : List UInt8) : UInt32 :=
  crc32NoComp (crc ^^^ 0xffffffff) buf ^^^ 0xffffffff

/-- The checksum can be taken piece by piece, as `crc32_wd` does. -/
theorem crc32_append (crc : UInt32) (a b : List UInt8) :
    crc32 crc (a++b) = crc32 (crc32 crc a) b := by
  have hcancel : ∀ x : UInt32, x ^^^ 0xffffffff ^^^ 0xffffffff = x := fun x => by
    rw [UInt32.xor_assoc, UInt32.xor_self, UInt32.xor_zero]
  simp only [crc32, crc32NoComp, List.foldl_append, hcancel]

example : crc32 0 [49, 50, 51, 52, 53, 54, 55, 56, 57] = 0xcbf43926 := by decide +kernel

end UBoot.Crc32
