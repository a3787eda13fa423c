import UBoot.Crc32
import UBoot.ShiftRegister

/-!
# The loops of `lib/crc32.c`

The checksum goes up to an aligned address byte by byte, then over words of 32
bits and at last over the bytes that are left; on big-endian machines the
register and the table are kept in the other order. All of this is the checksum
of the bytes one by one, which is a shift register fed by their bits: changes
within 32 bits are always noticed.
-/

set_option autoImplicit false

namespace UBoot.Crc32

open ShiftRegister

/-! ## `crc32_no_comp` -/

inductive ByteOrder where
  | little
  | big

/-- The bytes of a word in the other order. -/
def swab32 (x : UInt32) : UInt32 :=
  ⟨x.toBitVec.extractLsb' 0 8 ++ x.toBitVec.extractLsb' 8 8 ++ x.toBitVec.extractLsb' 16 8 ++
    x.toBitVec.extractLsb' 24 8⟩

def cpuToLe32 : ByteOrder → UInt32 → UInt32
  | .little, x => x
  | .big, x => swab32 x

/-- The word that is loaded from four bytes. -/
def loadWord : ByteOrder → UInt8 → UInt8 → UInt8 → UInt8 → UInt32
  | .little, a, b, c, d => ⟨d.toBitVec ++ c.toBitVec ++ b.toBitVec ++ a.toBitVec⟩
  | .big, a, b, c, d => ⟨a.toBitVec ++ b.toBitVec ++ c.toBitVec ++ d.toBitVec⟩

/-- `crc_table` as it stands in the source, before `tole`. -/
def crcTableWords : List UInt32 :=
  [0x00000000, 0x77073096, 0xee0e612c, 0x990951ba, 0x076dc419, 0x706af48f, 0xe963a535, 0x9e6495a3,
   0x0edb8832, 0x79dcb8a4, 0xe0d5e91e, 0x97d2d988, 0x09b64c2b, 0x7eb17cbd, 0xe7b82d07, 0x90bf1d91,
   0x1db71064, 0x6ab020f2, 0xf3b97148, 0x84be41de, 0x1adad47d, 0x6ddde4eb, 0xf4d4b551, 0x83d385c7,
   0x136c9856, 0x646ba8c0, 0xfd62f97a, 0x8a65c9ec, 0x14015c4f, 0x63066cd9, 0xfa0f3d63, 0x8d080df5,
   0x3b6e20c8, 0x4c69105e, 0xd56041e4, 0xa2677172, 0x3c03e4d1, 0x4b04d447, 0xd20d85fd, 0xa50ab56b,
   0x35b5a8fa, 0x42b2986c, 0xdbbbc9d6, 0xacbcf940, 0x32d86ce3, 0x45df5c75, 0xdcd60dcf, 0xabd13d59,
   0x26d930ac, 0x51de003a, 0xc8d75180, 0xbfd06116, 0x21b4f4b5, 0x56b3c423, 0xcfba9599, 0xb8bda50f,
   0x2802b89e, 0x5f058808, 0xc60cd9b2, 0xb10be924, 0x2f6f7c87, 0x58684c11, 0xc1611dab, 0xb6662d3d,
   0x76dc4190, 0x01db7106, 0x98d220bc, 0xefd5102a, 0x71b18589, 0x06b6b51f, 0x9fbfe4a5, 0xe8b8d433,
   0x7807c9a2, 0x0f00f934, 0x9609a88e, 0xe10e9818, 0x7f6a0dbb, 0x086d3d2d, 0x91646c97, 0xe6635c01,
   0x6b6b51f4, 0x1c6c6162, 0x856530d8, 0xf262004e, 0x6c0695ed, 0x1b01a57b, 0x8208f4c1, 0xf50fc457,
   0x65b0d9c6, 0x12b7e950, 0x8bbeb8ea, 0xfcb9887c, 0x62dd1ddf, 0x15da2d49, 0x8cd37cf3, 0xfbd44c65,
   0x4db26158, 0x3ab551ce, 0xa3bc0074, 0xd4bb30e2, 0x4adfa541, 0x3dd895d7, 0xa4d1c46d, 0xd3d6f4fb,
   0x4369e96a, 0x346ed9fc, 0xad678846, 0xda60b8d0, 0x44042d73, 0x33031de5, 0xaa0a4c5f, 0xdd0d7cc9,
   0x5005713c, 0x270241aa, 0xbe0b1010, 0xc90c2086, 0x5768b525, 0x206f85b3, 0xb966d409, 0xce61e49f,
   0x5edef90e, 0x29d9c998, 0xb0d09822, 0xc7d7a8b4, 0x59b33d17, 0x2eb40d81, 0xb7bd5c3b, 0xc0ba6cad,
   0xedb88320, 0x9abfb3b6, 0x03b6e20c, 0x74b1d29a, 0xead54739, 0x9dd277af, 0x04db2615, 0x73dc1683,
   0xe3630b12, 0x94643b84, 0x0d6d6a3e, 0x7a6a5aa8, 0xe40ecf0b, 0x9309ff9d, 0x0a00ae27, 0x7d079eb1,
   0xf00f9344, 0x8708a3d2, 0x1e01f268, 0x6906c2fe, 0xf762575d, 0x806567cb, 0x196c3671, 0x6e6b06e7,
   0xfed41b76, 0x89d32be0, 0x10da7a5a, 0x67dd4acc, 0xf9b9df6f, 0x8ebeeff9, 0x17b7be43, 0x60b08ed5,
   0xd6d6a3e8, 0xa1d1937e, 0x38d8c2c4, 0x4fdff252, 0xd1bb67f1, 0xa6bc5767, 0x3fb506dd, 0x48b2364b,
   0xd80d2bda, 0xaf0a1b4c, 0x36034af6, 0x41047a60, 0xdf60efc3, 0xa867df55, 0x316e8eef, 0x4669be79,
   0xcb61b38c, 0xbc66831a, 0x256fd2a0, 0x5268e236, 0xcc0c7795, 0xbb0b4703, 0x220216b9, 0x5505262f,
   0xc5ba3bbe, 0xb2bd0b28, 0x2bb45a92, 0x5cb36a04, 0xc2d7ffa7, 0xb5d0cf31, 0x2cd99e8b, 0x5bdeae1d,
   0x9b64c2b0, 0xec63f226, 0x756aa39c, 0x026d930a, 0x9c0906a9, 0xeb0e363f, 0x72076785, 0x05005713,
   0x95bf4a82, 0xe2b87a14, 0x7bb12bae, 0x0cb61b38, 0x92d28e9b, 0xe5d5be0d, 0x7cdcefb7, 0x0bdbdf21,
   0x86d3d2d4, 0xf1d4e242, 0x68ddb3f8, 0x1fda836e, 0x81be16cd, 0xf6b9265b, 0x6fb077e1, 0x18b74777,
   0x88085ae6, 0xff0f6a70, 0x66063bca, 0x11010b5c, 0x8f659eff, 0xf862ae69, 0x616bffd3, 0x166ccf45,
   0xa00ae278, 0xd70dd2ee, 0x4e048354, 0x3903b3c2, 0xa7672661, 0xd06016f7, 0x4969474d, 0x3e6e77db,
   0xaed16a4a, 0xd9d65adc, 0x40df0b66, 0x37d83bf0, 0xa9bcae53, 0xdebb9ec5, 0x47b2cf7f, 0x30b5ffe9,
   0xbdbdf21c, 0xcabac28a, 0x53b39330, 0x24b4a3a6, 0xbad03605, 0xcdd70693, 0x54de5729, 0x23d967bf,
   0xb3667a2e, 0xc4614ab8, 0x5d681b02, 0x2a6f2b94, 0xb40bbe37, 0xc30c8ea1, 0x5a05df1b, 0x2d02ef8d]

def tab (o : ByteOrder) (n : UInt32) : UInt32 := cpuToLe32 o (crcTableWords.getD n.toNat 0)

/-- `DO_CRC` -/
def doCrcWord (o : ByteOrder) (crc x : UInt32) : UInt32 :=
  match o with
  | .little => tab o ((crc ^^^ x) &&& 255) ^^^ (crc >>> 8)
  | .big => tab o (((crc >>> 24) ^^^ x) &&& 255) ^^^ (crc <<< 8)

/-- The bytes up to an aligned address, and what follows them. -/
def alignLoop (o : ByteOrder) : ℕ → UInt32 → List UInt8 → UInt32 × List UInt8
  | _, crc, [] => (crc, [])
  | p, crc, x :: buf =>
    if buf ≠ [] ∧ (p+1) % 4 ≠ 0 then alignLoop o (p+1) (doCrcWord o crc x.toUInt32) buf
    else (doCrcWord o crc x.toUInt32, buf)

def doCrcFour (o : ByteOrder) (crc : UInt32) : UInt32 :=
  doCrcWord o (doCrcWord o (doCrcWord o (doCrcWord o crc 0) 0) 0) 0

/-- The words, and the bytes that are left. -/
def wordLoop (o : ByteOrder) : UInt32 → List UInt8 → UInt32 × List UInt8
  | crc, a :: b :: c :: d :: buf => wordLoop o (doCrcFour o (crc ^^^ loadWord o a b c d)) buf
  | crc, buf => (crc, buf)

def crc32NoCompAt (o : ByteOrder) (p : ℕ) (crc : UInt32) (buf : List UInt8) : UInt32 :=
  let crc := cpuToLe32 o crc
  let aligned := if p % 4 ≠ 0 ∧ buf ≠ [] then alignLoop o p crc buf else (crc, buf)
  let words := wordLoop o aligned.1 aligned.2
  cpuToLe32 o (words.2.foldl (fun crc x => doCrcWord o crc x.toUInt32) words.1)

def crc32At (o : ByteOrder) (p : ℕ) (crc : UInt32) (buf : List UInt8) : UInt32 :=
  crc32NoCompAt o p (crc ^^^ 0xffffffff) buf ^^^ 0xffffffff

/-- The loop of `crc32_wd`. With chunks of no bytes it does not come to an end. -/
def wdLoop (o : ByteOrder) (chunkSz : ℕ) : ℕ → ℕ → UInt32 → List UInt8 → Option UInt32
  | 0, _, crc, buf => if buf = [] then some crc else none
  | turns+1, p, crc, buf =>
    if buf = [] then some crc
    else
      let chunk := min buf.length chunkSz
      wdLoop o chunkSz turns (p+chunk) (crc32At o p crc (buf.take chunk)) (buf.drop chunk)

def crc32Wd (o : ByteOrder) (watchdog : Bool) (p : ℕ) (crc : UInt32) (buf : List UInt8)
    (chunkSz : ℕ) : Option UInt32 :=
  if watchdog then wdLoop o chunkSz buf.length p crc buf else some (crc32At o p crc buf)

/-! ## The table -/

theorem crcTableWords_eq :
    crcTableWords = (List.range 256).map fun n => crcTable (UInt32.ofNat n) := by
  decide +kernel

theorem tab_little (n : UInt32) (hn : n.toNat < 256) : tab .little n = crcTable n := by
  rw [tab, crcTableWords_eq, cpuToLe32, List.getD_eq_getElem?_getD, List.getElem?_map,
    List.getElem?_range hn, Option.map_some, Option.getD_some, UInt32.ofNat_toNat]

theorem and_255_lt (n : UInt32) : (n &&& 255).toNat < 256 := by
  rw [UInt32.toNat_and]
  exact Nat.and_lt_two_pow _ (by decide : 255 < 2^8)

/-! ## The other byte order -/

theorem swab32_swab32 (x : UInt32) : swab32 (swab32 x) = x := by
  apply UInt32.toBitVec_inj.mp
  apply BitVec.eq_of_getLsbD_eq
  intro i hi
  simp only [swab32, BitVec.getLsbD_append, BitVec.getLsbD_extractLsb']
  grind

theorem swab32_xor (x y : UInt32) : swab32 (x ^^^ y) = swab32 x ^^^ swab32 y := by
  have hparts : ∀ a b c d a' b' c' d' : BitVec 8, (a ^^^ a') ++ (b ^^^ b') ++ (c ^^^ c') ++
      (d ^^^ d') = (a ++ b ++ c ++ d) ^^^ (a' ++ b' ++ c' ++ d') := fun _ _ _ _ _ _ _ _ => by
    simp only [BitVec.xor_append]
  apply UInt32.toBitVec_inj.mp
  simp only [swab32, UInt32.toBitVec_xor, BitVec.extractLsb'_xor]
  exact hparts _ _ _ _ _ _ _ _

theorem swab32_shiftRight (x : UInt32) : swab32 (x >>> 8) = swab32 x <<< 8 := by
  have hright : ∀ y : UInt32, (y >>> 8).toBitVec = y.toBitVec >>> 8 := fun _ => rfl
  have hleft : ∀ y : UInt32, (y <<< 8).toBitVec = y.toBitVec <<< 8 := fun _ => rfl
  apply UInt32.toBitVec_inj.mp
  apply BitVec.eq_of_getLsbD_eq
  intro i hi
  simp only [swab32, hright, hleft, BitVec.getLsbD_shiftLeft, BitVec.getLsbD_ushiftRight,
    BitVec.getLsbD_append, BitVec.getLsbD_extractLsb']
  grind

theorem swab32_top (x : UInt32) : swab32 x >>> 24 = x &&& 255 := by
  have hright : ∀ y : UInt32, (y >>> 24).toBitVec = y.toBitVec >>> 24 := fun _ => rfl
  have hlow : (255 : UInt32).toBitVec = (BitVec.allOnes 8).setWidth 32 := rfl
  apply UInt32.toBitVec_inj.mp
  apply BitVec.eq_of_getLsbD_eq
  intro i hi
  rw [hright]
  simp only [UInt32.toBitVec_and, hlow, swab32, BitVec.getLsbD_ushiftRight,
    BitVec.getLsbD_append, BitVec.getLsbD_extractLsb', BitVec.getLsbD_and, BitVec.getLsbD_setWidth,
    BitVec.getLsbD_allOnes]
  grind

/-- The register in the other order is that of the first one. -/
theorem doCrcWord_order (o : ByteOrder) (crc : UInt32) (x : UInt8) :
    doCrcWord o (cpuToLe32 o crc) x.toUInt32 = cpuToLe32 o (doCrc crc x) := by
  have hindex : ∀ n : UInt32, tab o (n &&& 255) = cpuToLe32 o (crcTable (n &&& 255)) := by
    intro n
    have htab := tab_little (n &&& 255) (and_255_lt n)
    rw [tab, cpuToLe32] at htab
    rw [tab, htab]
  cases o with
  | little => rw [doCrcWord, hindex]; rfl
  | big =>
    have hx : (swab32 crc >>> 24 ^^^ x.toUInt32) &&& 255 = (crc ^^^ x.toUInt32) &&& 255 := by
      apply UInt32.toBitVec_inj.mp
      rw [swab32_top]
      ext i hi
      simp only [UInt32.toBitVec_and, UInt32.toBitVec_xor, BitVec.getElem_and, BitVec.getElem_xor]
      cases (crc.toBitVec)[i] <;> cases (x.toUInt32.toBitVec)[i] <;>
        cases ((255 : UInt32).toBitVec)[i] <;> rfl
    rw [doCrcWord, hindex]
    dsimp only [cpuToLe32]
    rw [hx, doCrc, swab32_xor, swab32_shiftRight]

theorem swab32_loadWord (a b c d : UInt8) :
    swab32 (loadWord .little a b c d) = loadWord .big a b c d := by
  apply UInt32.toBitVec_inj.mp
  apply BitVec.eq_of_getLsbD_eq
  intro i hi
  simp only [swab32, loadWord, BitVec.getLsbD_append, BitVec.getLsbD_extractLsb']
  grind

/-! ## The shift register -/

/-- The bits of a buffer, each byte from its lowest one on. -/
def bits (buf : List UInt8) : List Bool := buf.flatMap fun x => bitsOf x.toBitVec

theorem bits_cons (x : UInt8) (buf : List UInt8) :
    bits (x :: buf) = bitsOf x.toBitVec ++ bits buf := List.flatMap_cons

theorem low_bit (c : UInt32) : c &&& 1 ≠ 0 ↔ c.toBitVec.getLsbD 0 = true := by
  rw [ne_eq, ← UInt32.toBitVec_inj, UInt32.toBitVec_and]
  have hone : (c.toBitVec &&& (1 : UInt32).toBitVec) = 0#32 ↔ c.toBitVec.getLsbD 0 = false := by
    constructor
    · intro h
      have hbit := congrArg (fun x : BitVec 32 => x.getLsbD 0) h
      simpa using hbit
    · intro h
      apply BitVec.eq_of_getLsbD_eq
      intro i _
      cases i with
      | zero => rw [BitVec.getLsbD_and, h, Bool.false_and, BitVec.getLsbD_zero]
      | succ i => simp
  rw [← Bool.not_eq_false]
  exact not_congr hone

theorem crcRounds_shifts (k : ℕ) (c : UInt32) :
    (crcRounds k c).toBitVec = shifts crcPoly.toBitVec k c.toBitVec := by
  induction k generalizing c with
  | zero => rfl
  | succ k ih =>
    have hshift : ∀ y : UInt32, (y >>> 1).toBitVec = y.toBitVec >>> 1 := fun _ => rfl
    rw [crcRounds, ih, shifts, shift]
    by_cases hlow : c &&& 1 ≠ 0
    · rw [if_pos hlow, if_pos ((low_bit c).mp hlow), UInt32.toBitVec_xor, hshift]
    · rw [if_neg hlow, if_neg (fun h => hlow ((low_bit c).mpr h)), hshift]

/-- A byte is taken in by the table. -/
theorem doCrc_feed (crc : UInt32) (x : UInt8) :
    (doCrc crc x).toBitVec = feed crcPoly.toBitVec crc.toBitVec (bitsOf x.toBitVec) := by
  have hshift : ∀ y : UInt32, (y >>> 8).toBitVec = y.toBitVec >>> 8 := fun _ => rfl
  have hbyte : x.toUInt32.toBitVec = x.toBitVec.setWidth 32 := rfl
  have hclear : (x.toBitVec.setWidth 32) >>> 8 = 0#32 := by
    apply BitVec.eq_of_getLsbD_eq
    intro i _
    rw [BitVec.getLsbD_ushiftRight, BitVec.getLsbD_setWidth, BitVec.getLsbD_of_ge _ _ (by omega),
      Bool.and_false, BitVec.getLsbD_zero]
  have hlow : ∀ y : UInt32, (y &&& 255).toBitVec = (y.toBitVec.setWidth 8).setWidth 32 := by
    intro y
    have h255 : (255 : UInt32).toBitVec = (BitVec.allOnes 8).setWidth 32 := rfl
    apply BitVec.eq_of_getLsbD_eq
    intro i hi
    rw [UInt32.toBitVec_and, h255]
    simp only [BitVec.getLsbD_and, BitVec.getLsbD_setWidth, BitVec.getLsbD_allOnes]
    grind
  rw [feed_eq _ _ _ (by rw [length_bitsOf]; decide), length_bitsOf, packed_bitsOf,
    shifts_split _ 8 (by decide), BitVec.ushiftRight_xor_distrib, hclear, BitVec.xor_zero, doCrc,
    UInt32.toBitVec_xor, hshift, crcTable, crcRounds_shifts, hlow, UInt32.toBitVec_xor, hbyte]

theorem crc32NoComp_feed (crc : UInt32) (buf : List UInt8) :
    (crc32NoComp crc buf).toBitVec = feed crcPoly.toBitVec crc.toBitVec (bits buf) := by
  induction buf generalizing crc with
  | nil => rfl
  | cons x buf ih =>
    rw [crc32NoComp, List.foldl_cons, ← crc32NoComp, ih, doCrc_feed, bits_cons, feed_append]

/-! ## The loops -/

/-- A word at once is its four bytes in the order of the memory. -/
theorem doCrcFour_word (o : ByteOrder) (crc : UInt32) (a b c d : UInt8) :
    doCrcFour o (cpuToLe32 o crc ^^^ loadWord o a b c d) =
      cpuToLe32 o (crc32NoComp crc [a, b, c, d]) := by
  have hword : cpuToLe32 o crc ^^^ loadWord o a b c d =
      cpuToLe32 o (crc ^^^ loadWord .little a b c d) := by
    cases o with
    | little => rfl
    | big => rw [cpuToLe32, cpuToLe32, swab32_xor, swab32_loadWord]
  have hzeros : ∀ e : UInt32, doCrcFour o (cpuToLe32 o e) =
      cpuToLe32 o (crc32NoComp e [0, 0, 0, 0]) := by
    intro e
    have hzero : (0 : UInt32) = (0 : UInt8).toUInt32 := rfl
    rw [doCrcFour, hzero, doCrcWord_order, doCrcWord_order, doCrcWord_order, doCrcWord_order]
    rfl
  have hbits : bits [a, b, c, d] = bitsOf (loadWord .little a b c d).toBitVec := by
    rw [loadWord, bitsOf_append, bitsOf_append, bitsOf_append, bits_cons, bits_cons, bits_cons,
      bits_cons, bits, List.flatMap_nil, List.append_nil]
  have hempty : packed (bits [0, 0, 0, 0]) = 0#32 := by decide
  have hlen : (bits [0, 0, 0, 0]).length = 32 := by decide
  rw [hword, hzeros]
  apply congrArg
  apply UInt32.toBitVec_inj.mp
  rw [crc32NoComp_feed, crc32NoComp_feed, feed_eq _ _ _ hlen.le, hlen, hempty, BitVec.xor_zero,
    hbits, feed_eq _ _ _ (length_bitsOf _).le, packed_bitsOf, length_bitsOf, UInt32.toBitVec_xor,
    BitVec.setWidth_eq]

theorem tail_order (o : ByteOrder) (crc : UInt32) (buf : List UInt8) :
    buf.foldl (fun crc x => doCrcWord o crc x.toUInt32) (cpuToLe32 o crc) =
      cpuToLe32 o (crc32NoComp crc buf) := by
  induction buf generalizing crc with
  | nil => rfl
  | cons x buf ih => rw [List.foldl_cons, doCrcWord_order, ih]; rfl

/-- A front of the buffer has been taken in, and the rest is left. -/
def Taken (o : ByteOrder) (crc : UInt32) (buf : List UInt8) (r : UInt32 × List UInt8) : Prop :=
  ∃ front, buf = front ++ r.2 ∧ r.1 = cpuToLe32 o (crc32NoComp crc front)

theorem Taken.step {o : ByteOrder} {crc : UInt32} (front : List UInt8) {rest : List UInt8}
    {r : UInt32 × List UInt8} (h : Taken o (crc32NoComp crc front) rest r) :
    Taken o crc (front ++ rest) r := by
  obtain ⟨taken, hrest, hcrc⟩ := h
  refine ⟨front ++ taken, by rw [hrest, List.append_assoc], ?_⟩
  rw [hcrc, crc32NoComp, crc32NoComp, crc32NoComp, List.foldl_append]

theorem alignLoop_taken (o : ByteOrder) (p : ℕ) (crc : UInt32) (buf : List UInt8) :
    Taken o crc buf (alignLoop o p (cpuToLe32 o crc) buf) := by
  induction buf generalizing p crc with
  | nil => exact ⟨[], rfl, rfl⟩
  | cons x buf ih =>
    rw [alignLoop, doCrcWord_order]
    split_ifs
    · exact Taken.step [x] (ih (p+1) (doCrc crc x))
    · exact ⟨[x], rfl, rfl⟩

theorem wordLoop_taken (o : ByteOrder) (crc : UInt32) (buf : List UInt8) :
    Taken o crc buf (wordLoop o (cpuToLe32 o crc) buf) := by
  match buf with
  | a :: b :: c :: d :: buf =>
    rw [wordLoop, doCrcFour_word]
    exact Taken.step [a, b, c, d] (wordLoop_taken o _ buf)
  | [] | [_] | [_, _] | [_, _, _] => exact ⟨[], rfl, rfl⟩

/-- Neither the address nor the order of the bytes counts. -/
theorem crc32NoCompAt_eq (o : ByteOrder) (p : ℕ) (crc : UInt32) (buf : List UInt8) :
    crc32NoCompAt o p crc buf = crc32NoComp crc buf := by
  have hback : ∀ x, cpuToLe32 o (cpuToLe32 o x) = x := by
    cases o with
    | little => exact fun _ => rfl
    | big => exact swab32_swab32
  have haligned : Taken o crc buf (if p % 4 ≠ 0 ∧ buf ≠ [] then alignLoop o p (cpuToLe32 o crc) buf
      else (cpuToLe32 o crc, buf)) := by
    split_ifs
    · exact alignLoop_taken o p crc buf
    · exact ⟨[], rfl, rfl⟩
  unfold crc32NoCompAt
  dsimp only
  obtain ⟨front, hbuf, hcrc⟩ := haligned
  generalize (if p % 4 ≠ 0 ∧ buf ≠ [] then alignLoop o p (cpuToLe32 o crc) buf
      else (cpuToLe32 o crc, buf)) = aligned at hbuf hcrc ⊢
  obtain ⟨words, hrest, hwords⟩ := wordLoop_taken o (crc32NoComp crc front) aligned.2
  rw [hcrc, hwords, tail_order, hback, hbuf]
  conv_rhs => rw [hrest]
  rw [crc32NoComp, crc32NoComp, crc32NoComp, crc32NoComp, List.foldl_append, List.foldl_append]

/-- The checksum with the watchdog comes to an end, and is that of the bytes one by one, for all
addresses, byte orders and chunks. -/
theorem crc32Wd_eq (o : ByteOrder) (watchdog : Bool) (p : ℕ) (crc : UInt32) (buf : List UInt8)
    (chunkSz : ℕ) (hchunk : 0 < chunkSz) :
    crc32Wd o watchdog p crc buf chunkSz = some (crc32 crc buf) := by
  have hat : ∀ p crc buf, crc32At o p crc buf = crc32 crc buf := fun p crc buf => by
    rw [crc32At, crc32NoCompAt_eq, crc32]
  have hloop : ∀ turns p crc (buf : List UInt8), buf.length ≤ turns →
      wdLoop o chunkSz turns p crc buf = some (crc32 crc buf) := by
    intro turns
    induction turns with
    | zero =>
      intro p crc buf hlen
      obtain rfl := List.length_eq_zero_iff.mp (Nat.le_zero.mp hlen)
      rw [wdLoop, if_pos rfl, crc32, crc32NoComp, List.foldl_nil, UInt32.xor_assoc, UInt32.xor_self,
        UInt32.xor_zero]
    | succ turns ih =>
      intro p crc buf hlen
      rw [wdLoop]
      split_ifs with hend
      · rw [hend, crc32, crc32NoComp, List.foldl_nil, UInt32.xor_assoc, UInt32.xor_self,
          UInt32.xor_zero]
      · have hpos := List.length_pos_iff.mpr hend
        rw [ih _ _ _ (by rw [List.length_drop]; omega), hat, ← crc32_append, List.take_append_drop]
  unfold crc32Wd
  split_ifs
  · exact hloop _ _ _ _ le_rfl
  · rw [hat]

theorem crc32Wd_eq_chunks : crc32Wd .big true 3 0 [49, 50, 51, 52, 53, 54, 55, 56, 57] 4 =
    some (crc32 0 [49, 50, 51, 52, 53, 54, 55, 56, 57]) :=
  crc32Wd_eq .big true 3 0 _ 4 (by decide)

/-! ## Changes that are noticed -/

theorem bits_injective : Function.Injective bits := by
  intro a
  induction a with
  | nil =>
    intro b h
    cases b with
    | nil => rfl
    | cons y b =>
      have hlen := congrArg List.length h
      rw [bits_cons, List.length_append, length_bitsOf] at hlen
      exact absurd hlen (by simp [bits]; omega)
  | cons x a ih =>
    intro b h
    cases b with
    | nil =>
      have hlen := congrArg List.length h
      rw [bits_cons, List.length_append, length_bitsOf] at hlen
      exact absurd hlen (by simp [bits])
    | cons y b =>
      rw [bits_cons, bits_cons] at h
      obtain ⟨hx, hrest⟩ := List.append_inj h (by rw [length_bitsOf, length_bitsOf])
      have hpacked : (packed (bitsOf x.toBitVec) : BitVec 8) = packed (bitsOf y.toBitVec) := by
        rw [hx]
      rw [packed_bitsOf, packed_bitsOf, BitVec.setWidth_eq, BitVec.setWidth_eq] at hpacked
      rw [UInt8.toBitVec_inj.mp hpacked, ih hrest]

/-- Buffers of one length that differ only within 32 bits following each other have different
checksums. -/
theorem crc32_burst (crc : UInt32) {buf buf' : List UInt8} {front u v back : List Bool}
    (hbuf : bits buf = front ++ u ++ back) (hbuf' : bits buf' = front ++ v ++ back)
    (hlen : u.length = v.length) (hburst : u.length ≤ 32) :
    crc32 crc buf = crc32 crc buf' ↔ buf = buf' := by
  constructor
  · intro h
    have hregister := congrArg UInt32.toBitVec ((UInt32.xor_left_inj _).mp h)
    rw [crc32NoComp_feed, crc32NoComp_feed, hbuf, hbuf'] at hregister
    have hsame := feed_burst _ (by decide) _ hlen hburst hregister
    exact bits_injective (hbuf.trans (hsame ▸ hbuf'.symm))
  · rintro rfl
    rfl

/-- The fifth and the sixth bit of the first byte. -/
theorem crc32_burst_pair : crc32 0 [0x30, 7] = crc32 0 [0, 7] ↔ [0x30, 7] = [(0 : UInt8), 7] :=
  crc32_burst 0
    (show bits [0x30, 7] = [false, false, false, false] ++ [true, true] ++
      ([false, false] ++ bits [7]) by decide)
    (show bits [0, 7] = [false, false, false, false] ++ [false, false] ++
      ([false, false] ++ bits [7]) by decide) rfl (by decide)

end UBoot.Crc32
