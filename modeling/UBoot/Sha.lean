import UBoot.BlockHash
import Mathlib

/-!
# SHA-1 and SHA-2: `lib/sha1.c`, `lib/sha256.c` and `lib/sha512.c`

The rounds are written with the names of the state in the order of the first
round; the next round has them turned by one, and after the last round they
are back in place.
-/

set_option autoImplicit false

namespace UBoot.Sha
open UBoot.BlockHash

/-- `GET_UINT32_BE` -/
def getUint32 (data : List UInt8) (i : ℕ) : UInt32 :=
  (data.getD i 0).toUInt32 <<< 24 ||| (data.getD (i+1) 0).toUInt32 <<< 16 |||
    (data.getD (i+2) 0).toUInt32 <<< 8 ||| (data.getD (i+3) 0).toUInt32

/-- `GET_UINT64_BE` -/
def getUint64 (data : List UInt8) (i : ℕ) : UInt64 :=
  (getUint32 data i).toUInt64 <<< 32 ||| (getUint32 data (i+4)).toUInt64

/-- `PUT_UINT32_BE` -/
def putUint32 (x : UInt32) : List UInt8 :=
  [(x >>> 24).toUInt8, (x >>> 16).toUInt8, (x >>> 8).toUInt8, x.toUInt8]

/-- `PUT_UINT64_BE` -/
def putUint64 (x : UInt64) : List UInt8 :=
  putUint32 (x >>> 32).toUInt32 ++ putUint32 x.toUInt32

section Word

variable {α : Type} [Zero α] [Add α] [XorOp α] [AndOp α] [OrOp α]

/-- The macros `F` of SHA-1, and `F0` and `F1` of SHA-2. -/
def choose (x y z : α) : α := z ^^^ (x &&& (y ^^^ z))
def parity (x y z : α) : α := x ^^^ y ^^^ z
def majority (x y z : α) : α := x &&& y ||| z &&& (x ||| y)

/-- The words of a block and `n` more, each made from the words before. -/
def schedule (next : List α → α) : ℕ → List α → List α
  | 0, w => w
  | n+1, w => schedule next n (w++[next w])

/-- The word `W[t-i]` -/
def back (w : List α) (i : ℕ) : α := w.getD (w.length-i) 0

/-- The macros `S0` to `S3` of SHA-2. -/
structure Sigmas (α : Type) where
  s0 : α → α
  s1 : α → α
  s2 : α → α
  s3 : α → α

def sha2Next (s : Sigmas α) (w : List α) : α :=
  s.s1 (back w 2)+back w 7+s.s0 (back w 15)+back w 16

/-- The macro `P` of SHA-2. -/
def sha2Round (s : Sigmas α) (v : Vector α 8) (xk : α × α) : Vector α 8 :=
  let temp1 := v[7]+s.s3 v[4]+choose v[4] v[5] v[6]+xk.2+xk.1
  let temp2 := s.s2 v[0]+majority v[0] v[1] v[2]
  #v[temp1+temp2, v[0], v[1], v[2], v[3]+temp1, v[4], v[5], v[6]]

def sha2Process (s : Sigmas α) (k : List α) (state : Vector α 8) (block : List α) : Vector α 8 :=
  let w := schedule (sha2Next s) (k.length-16) block
  Vector.zipWith (·+·) state ((w.zip k).foldl (sha2Round s) state)

end Word

/-! ## SHA-1 -/

def rotl (x : UInt32) (n : UInt32) : UInt32 := x <<< n ||| x >>> (32-n)

def sha1Next (w : List UInt32) : UInt32 := rotl (back w 3 ^^^ back w 8 ^^^ back w 14 ^^^ back w 16) 1

/-- The functions and the constants of the four groups of twenty rounds. -/
def sha1Group (t : ℕ) : (UInt32 → UInt32 → UInt32 → UInt32) × UInt32 :=
  if t < 20 then (choose, 0x5A827999)
  else if t < 40 then (parity, 0x6ED9EBA1)
  else if t < 60 then (majority, 0x8F1BBCDC)
  else (parity, 0xCA62C1D6)

/-- The macro `P` of SHA-1. -/
def sha1Round (v : Vector UInt32 5) (xt : UInt32 × ℕ) : Vector UInt32 5 :=
  let (f, k) := sha1Group xt.2
  #v[v[4]+(rotl v[0] 5+f v[1] v[2] v[3]+k+xt.1), v[0], rotl v[1] 30, v[2], v[3]]

def sha1Process (state : Vector UInt32 5) (data : List UInt8) : Vector UInt32 5 :=
  let w := schedule sha1Next 64 ((List.range 16).map fun i => getUint32 data (4*i))
  Vector.zipWith (·+·) state (w.zipIdx.foldl sha1Round state)

def sha1 : Scheme (Vector UInt32 5) where
  block := 64
  field := 8
  wide := by decide
  counts := by decide
  start := #v[0x67452301, 0xEFCDAB89, 0x98BADCFE, 0x10325476, 0xC3D2E1F0]
  process := sha1Process
  output s := s.toList.flatMap putUint32

/-! ## SHA-256 -/

def rotr32 (x : UInt32) (n : UInt32) : UInt32 := x >>> n ||| x <<< (32-n)

def sigmas32 : Sigmas UInt32 where
  s0 x := rotr32 x 7 ^^^ rotr32 x 18 ^^^ x >>> 3
  s1 x := rotr32 x 17 ^^^ rotr32 x 19 ^^^ x >>> 10
  s2 x := rotr32 x 2 ^^^ rotr32 x 13 ^^^ rotr32 x 22
  s3 x := rotr32 x 6 ^^^ rotr32 x 11 ^^^ rotr32 x 25

def sha256K : List UInt32 :=
  [0x428A2F98, 0x71374491, 0xB5C0FBCF, 0xE9B5DBA5, 0x3956C25B, 0x59F111F1, 0x923F82A4, 0xAB1C5ED5,
    0xD807AA98, 0x12835B01, 0x243185BE, 0x550C7DC3, 0x72BE5D74, 0x80DEB1FE, 0x9BDC06A7, 0xC19BF174,
    0xE49B69C1, 0xEFBE4786, 0x0FC19DC6, 0x240CA1CC, 0x2DE92C6F, 0x4A7484AA, 0x5CB0A9DC, 0x76F988DA,
    0x983E5152, 0xA831C66D, 0xB00327C8, 0xBF597FC7, 0xC6E00BF3, 0xD5A79147, 0x06CA6351, 0x14292967,
    0x27B70A85, 0x2E1B2138, 0x4D2C6DFC, 0x53380D13, 0x650A7354, 0x766A0ABB, 0x81C2C92E, 0x92722C85,
    0xA2BFE8A1, 0xA81A664B, 0xC24B8B70, 0xC76C51A3, 0xD192E819, 0xD6990624, 0xF40E3585, 0x106AA070,
    0x19A4C116, 0x1E376C08, 0x2748774C, 0x34B0BCB5, 0x391C0CB3, 0x4ED8AA4A, 0x5B9CCA4F, 0x682E6FF3,
    0x748F82EE, 0x78A5636F, 0x84C87814, 0x8CC70208, 0x90BEFFFA, 0xA4506CEB, 0xBEF9A3F7, 0xC67178F2]

def sha256Process (state : Vector UInt32 8) (data : List UInt8) : Vector UInt32 8 :=
  sha2Process sigmas32 sha256K state ((List.range 16).map fun i => getUint32 data (4*i))

def sha256 : Scheme (Vector UInt32 8) where
  block := 64
  field := 8
  wide := by decide
  counts := by decide
  start := #v[0x6A09E667, 0xBB67AE85, 0x3C6EF372, 0xA54FF53A, 0x510E527F, 0x9B05688C, 0x1F83D9AB,
    0x5BE0CD19]
  process := sha256Process
  output s := s.toList.flatMap putUint32

/-! ## SHA-384 and SHA-512 -/

def rotr64 (x : UInt64) (n : UInt64) : UInt64 := x >>> n ||| x <<< (64-n)

def sigmas64 : Sigmas UInt64 where
  s0 x := rotr64 x 1 ^^^ rotr64 x 8 ^^^ x >>> 7
  s1 x := rotr64 x 19 ^^^ rotr64 x 61 ^^^ x >>> 6
  s2 x := rotr64 x 28 ^^^ rotr64 x 34 ^^^ rotr64 x 39
  s3 x := rotr64 x 14 ^^^ rotr64 x 18 ^^^ rotr64 x 41

def sha512K : List UInt64 :=
  [0x428A2F98D728AE22, 0x7137449123EF65CD, 0xB5C0FBCFEC4D3B2F, 0xE9B5DBA58189DBBC,
    0x3956C25BF348B538, 0x59F111F1B605D019, 0x923F82A4AF194F9B, 0xAB1C5ED5DA6D8118,
    0xD807AA98A3030242, 0x12835B0145706FBE, 0x243185BE4EE4B28C, 0x550C7DC3D5FFB4E2,
    0x72BE5D74F27B896F, 0x80DEB1FE3B1696B1, 0x9BDC06A725C71235, 0xC19BF174CF692694,
    0xE49B69C19EF14AD2, 0xEFBE4786384F25E3, 0x0FC19DC68B8CD5B5, 0x240CA1CC77AC9C65,
    0x2DE92C6F592B0275, 0x4A7484AA6EA6E483, 0x5CB0A9DCBD41FBD4, 0x76F988DA831153B5,
    0x983E5152EE66DFAB, 0xA831C66D2DB43210, 0xB00327C898FB213F, 0xBF597FC7BEEF0EE4,
    0xC6E00BF33DA88FC2, 0xD5A79147930AA725, 0x06CA6351E003826F, 0x142929670A0E6E70,
    0x27B70A8546D22FFC, 0x2E1B21385C26C926, 0x4D2C6DFC5AC42AED, 0x53380D139D95B3DF,
    0x650A73548BAF63DE, 0x766A0ABB3C77B2A8, 0x81C2C92E47EDAEE6, 0x92722C851482353B,
    0xA2BFE8A14CF10364, 0xA81A664BBC423001, 0xC24B8B70D0F89791, 0xC76C51A30654BE30,
    0xD192E819D6EF5218, 0xD69906245565A910, 0xF40E35855771202A, 0x106AA07032BBD1B8,
    0x19A4C116B8D2D0C8, 0x1E376C085141AB53, 0x2748774CDF8EEB99, 0x34B0BCB5E19B48A8,
    0x391C0CB3C5C95A63, 0x4ED8AA4AE3418ACB, 0x5B9CCA4F7763E373, 0x682E6FF3D6B2B8A3,
    0x748F82EE5DEFB2FC, 0x78A5636F43172F60, 0x84C87814A1F0AB72, 0x8CC702081A6439EC,
    0x90BEFFFA23631E28, 0xA4506CEBDE82BDE9, 0xBEF9A3F7B2C67915, 0xC67178F2E372532B,
    0xCA273ECEEA26619C, 0xD186B8C721C0C207, 0xEADA7DD6CDE0EB1E, 0xF57D4F7FEE6ED178,
    0x06F067AA72176FBA, 0x0A637DC5A2C898A6, 0x113F9804BEF90DAE, 0x1B710B35131C471B,
    0x28DB77F523047D84, 0x32CAAB7B40C72493, 0x3C9EBE0A15C9BEBC, 0x431D67C49C100D4C,
    0x4CC5D4BECB3E42B6, 0x597F299CFC657E2A, 0x5FCB6FAB3AD6FAEC, 0x6C44198C4A475817]

def sha512Process (state : Vector UInt64 8) (data : List UInt8) : Vector UInt64 8 :=
  sha2Process sigmas64 sha512K state ((List.range 16).map fun i => getUint64 data (8*i))

/-- `sha512_finish` with `is384` leaves out the last two words. -/
def sha384 : Scheme (Vector UInt64 8) where
  block := 128
  field := 16
  wide := by decide
  counts := by decide
  start := #v[0xCBBB9D5DC1059ED8, 0x629A292A367CD507, 0x9159015A3070DD17, 0x152FECD8F70E5939,
    0x67332667FFC00B31, 0x8EB44A8768581511, 0xDB0C2E0D64F98FA7, 0x47B5481DBEFA4FA4]
  process := sha512Process
  output s := (s.toList.take 6).flatMap putUint64

def sha512 : Scheme (Vector UInt64 8) where
  block := 128
  field := 16
  wide := by decide
  counts := by decide
  start := #v[0x6A09E667F3BCC908, 0xBB67AE8584CAA73B, 0x3C6EF372FE94F82B, 0xA54FF53A5F1D36F1,
    0x510E527FADE682D1, 0x9B05688C2B3E6C1F, 0x1F83D9ABFB41BD6B, 0x5BE0CD19137E2179]
  process := sha512Process
  output s := s.toList.flatMap putUint64

/-! ## Lengths -/

theorem length_flatMap_of_forall {α : Type} (l : List α) (f : α → List UInt8) (k : ℕ)
    (hf : ∀ x, (f x).length = k) : (l.flatMap f).length = l.length*k := by
  rw [List.length_flatMap, funext hf, List.map_const', List.sum_replicate, smul_eq_mul]

theorem sha1_length (l : List UInt8) : (digest sha1 l).length = 20 := by
  rw [digest, sha1, length_flatMap_of_forall _ _ 4 fun _ => rfl, Vector.length_toList]

theorem sha256_length (l : List UInt8) : (digest sha256 l).length = 32 := by
  rw [digest, sha256, length_flatMap_of_forall _ _ 4 fun _ => rfl, Vector.length_toList]

theorem sha384_length (l : List UInt8) : (digest sha384 l).length = 48 := by
  rw [digest, sha384, length_flatMap_of_forall _ _ 8 fun _ => rfl, List.length_take, Vector.length_toList]
  rfl

theorem sha512_length (l : List UInt8) : (digest sha512 l).length = 64 := by
  rw [digest, sha512, length_flatMap_of_forall _ _ 8 fun _ => rfl, Vector.length_toList]

end UBoot.Sha
