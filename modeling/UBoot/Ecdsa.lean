import UBoot.Ecp
import UBoot.FitSignature
import UBoot.LittleEndian

/-!
# Signatures: `lib/mbedtls/ecdsa.c`, `lib/mbedtls/asn1.c` and `ecdsa_verify_key`

The DER text of a signature and the octets of a public key are read, and the pair of numbers
is verified over the curve. Signing takes its random bytes from a source of calls.
-/

set_option autoImplicit false

namespace UBoot.Ecp

open Mpi LittleEndian

/-! ## Numbers and points in bytes -/

/-- `sizeof(mbedtls_mpi_uint)` on a 32-bit machine. -/
def ciL : ℕ := 4

/-- `CHARS_TO_LIMBS` -/
def charsToLimbs (i : ℕ) : ℕ := i/ciL+if i % ciL ≠ 0 then 1 else 0

/-- `mbedtls_mpi_read_binary`; `mbedtls_mpi_grow` refuses more than 10000 limbs. -/
def readBinary (buf : List UInt8) : Except Err ℤ :=
  let digits := buf.dropWhile (· = 0)
  if charsToLimbs digits.length > 10000 then .error .mpiAllocFailed
  else .ok (ofLe digits.reverse)

/-- `mbedtls_mpi_shift_r` -/
def shiftR (x : ℤ) (count : ℕ) : ℤ := x.sign*(x.natAbs >>> count : ℕ)

/-- `mbedtls_ecp_point_read_binary` -/
def pointReadBinary (g : EcpGroup) (buf : List UInt8) : Except Err EcpPoint :=
  match buf with
  | [] => .error .ecpBadInputData
  | b :: rest =>
    if b = 0x00 then if rest = [] then .ok setZero else .error .ecpBadInputData
    else
      let plen := (g.P.size+7)/8
      if b ≠ 0x04 then .error .ecpFeatureUnavailable
      else if buf.length ≠ 2*plen+1 then .error .ecpBadInputData
      else do
        let X ← readBinary (rest.take plen)
        let Y ← readBinary ((rest.drop plen).take plen)
        .ok ⟨X, Y, some 1⟩

/-! ## The text of a signature -/

def asn1OutOfData : ℤ := -0x0060
def asn1UnexpectedTag : ℤ := -0x0062
def asn1InvalidLength : ℤ := -0x0064
def asn1LengthMismatch : ℤ := -0x0066
def ecpBadInputData : ℤ := Err.ecpBadInputData.code
def ecpSigLenMismatch : ℤ := -0x4C00

/-- `mbedtls_asn1_get_len`, over the bytes from `*p` to `end`. -/
def asn1GetLen (p : List UInt8) : Except ℤ (ℕ × List UInt8) := do
  match p with
  | [] => .error asn1OutOfData
  | b :: rest =>
    let (len, p) ←
      if b &&& 0x80 = 0 then .ok (b.toNat, rest)
      else
        let k := (b &&& 0x7F).toNat
        if k = 0 ∨ 4 < k then .error asn1InvalidLength
        else if p.length < k+1 then .error asn1OutOfData
        else .ok (ofLe (rest.take k).reverse, rest.drop k)
    if len > p.length then .error asn1OutOfData else .ok (len, p)

/-- `mbedtls_asn1_get_tag` -/
def asn1GetTag (tag : UInt8) (p : List UInt8) : Except ℤ (ℕ × List UInt8) :=
  match p with
  | [] => .error asn1OutOfData
  | b :: p => if b ≠ tag then .error asn1UnexpectedTag else asn1GetLen p

/-- `mbedtls_asn1_get_mpi` -/
def asn1GetMpi (p : List UInt8) : Except ℤ (ℤ × List UInt8) := do
  let (len, p) ← asn1GetTag 0x02 p
  match readBinary (p.take len) with
  | .error e => .error e.code
  | .ok X => .ok (X, p.drop len)

/-- `mbedtls_ecdsa_read_signature` -/
def readSignature (sig : List UInt8) : Except ℤ (ℤ × ℤ) :=
  match asn1GetTag 0x30 sig with
  | .error e => .error (e+ecpBadInputData)
  | .ok (len, p) =>
    if len ≠ p.length then .error (ecpBadInputData+asn1LengthMismatch)
    else
      match asn1GetMpi p with
      | .error e => .error (e+ecpBadInputData)
      | .ok (r, p) =>
        match asn1GetMpi p with
        | .error e => .error (e+ecpBadInputData)
        | .ok (s, p) => if p ≠ [] then .error ecpSigLenMismatch else .ok (r, s)

section Signatures

variable (g : EcpGroup)

/-! ## Verifying -/

/-- `derive_mpi` -/
def deriveMpi (buf : List UInt8) : Except Err ℤ := do
  let nSize := (g.nbits+7)/8
  let useSize := if buf.length > nSize then nSize else buf.length
  let x ← readBinary (buf.take useSize)
  let x := if useSize*8 > g.nbits then shiftR x (useSize*8-g.nbits) else x
  .ok (if x ≥ g.N then x-g.N else x)

/-- `mbedtls_ecdsa_verify` -/
def ecdsaVerify (cache : Option (ℕ → EcpPoint)) (buf : List UInt8) (Q : EcpPoint) (r s : ℤ) :
    Except Err Unit :=
  if r < 1 ∨ r ≥ g.N ∨ s < 1 ∨ s ≥ g.N then .error .ecpVerifyFailed
  else do
    checkPubkey g Q
    let e ← deriveMpi g buf
    let sInv ← invMod s g.N
    let u1 ← modMpi (e*sInv) g.N
    let u2 ← modMpi (r*sInv) g.N
    let (R, _) ← muladd g cache ⟨0, 0, none⟩ u1 g.G u2 Q
    if isZero R then .error .ecpVerifyFailed
    else
      let X ← modMpi R.X g.N
      if X ≠ r then .error .ecpVerifyFailed else .ok ()

/-! ## Signing -/

/-- Random bytes by the number of the call and their count. -/
abbrev Rng := ℕ → ℕ → List UInt8

/-- A number from 1 on and below `N`; of the draws, the last one is never taken. -/
def drawNumber (rng : Rng) : ℕ → ℕ → Except Err (ℤ × ℕ)
  | 0, _ => .error .ecpRandomFailed
  | tries+1, i => do
    let nSize := (g.nbits+7)/8
    let d ← readBinary (rng i nSize)
    let d := shiftR d (8*nSize-g.nbits)
    if tries = 0 then .error .ecpRandomFailed
    else if d < 1 ∨ d ≥ g.N then drawNumber rng tries (i+1)
    else .ok (d, i+1)

/-- `while( l >= P ) l >>= 1` -/
def shiftBelow (P : ℕ) : ℕ → ℤ → ℤ
  | 0, l => l
  | fuel+1, l => if l ≥ P then shiftBelow P fuel (shiftR l 1) else l

/-- The factor of `ecp_randomize_jac`. -/
def drawFactor (rng : Rng) : ℕ → ℕ → Except Err (ℤ × ℕ)
  | 0, _ => .error .ecpRandomFailed
  | tries+1, i => do
    let l ← readBinary (rng i ((g.P.size+7)/8))
    let l := shiftBelow g.P l.natAbs l
    if tries = 0 then .error .ecpRandomFailed
    else if l ≤ 1 then drawFactor rng tries (i+1)
    else .ok (l, i+1)

/-- `mbedtls_ecp_gen_keypair` -/
def genKeypair (rng : Rng) (cache : Option (ℕ → EcpPoint)) (i : ℕ) :
    Except Err (ℤ × EcpPoint × Option (ℕ → EcpPoint) × ℕ) := do
  let (d, i) ← drawNumber g rng 31 i
  let (l, i) ← drawFactor g rng 12 i
  let (Q, cache) ← ecpMul g cache ⟨0, 0, none⟩ d g.G (some l)
  .ok (d, Q, cache, i)

/-- Steps 1 to 3 of `mbedtls_ecdsa_sign`. -/
def ephemeralKey (rng : Rng) : ℕ → Option (ℕ → EcpPoint) → ℕ →
    Except Err (ℤ × ℤ × Option (ℕ → EcpPoint) × ℕ)
  | 0, _, _ => .error .ecpRandomFailed
  | tries+1, cache, i => do
    let (k, R, cache, i) ← genKeypair g rng cache i
    let r ← modMpi R.X g.N
    if tries = 0 then .error .ecpRandomFailed
    else if r = 0 then ephemeralKey rng tries cache i
    else .ok (k, r, cache, i)

/-- The tries of `mbedtls_ecdsa_sign`. -/
def signTries (rng : Rng) (d : ℤ) (buf : List UInt8) : ℕ → Option (ℕ → EcpPoint) → ℕ →
    Except Err (ℤ × ℤ)
  | 0, _, _ => .error .ecpRandomFailed
  | tries+1, cache, i => do
    let (k, r, cache, i) ← ephemeralKey g rng 12 cache i
    let e ← deriveMpi g buf
    let (t, i) ← drawNumber g rng 31 i
    let s := r*d
    let e := e+s
    let e := e*t
    let k := k*t
    let s ← invMod k g.N
    let s := s*e
    let s ← modMpi s g.N
    if tries = 0 then .error .ecpRandomFailed
    else if s = 0 then signTries rng d buf tries cache i
    else .ok (r, s)

/-- `mbedtls_ecdsa_sign` -/
def ecdsaSign (cache : Option (ℕ → EcpPoint)) (d : ℤ) (buf : List UInt8) (rng : Rng) :
    Except Err (ℤ × ℤ) :=
  signTries g rng d buf 12 cache 0

end Signatures

/-! ## `ecdsa_verify_key` -/

/-- `ecdsa_verify_key`, over the curves that `mbedtls_ecp_curve_list` has; the digest is read up
to the length of the key. -/
def ecdsaVerifyKey (curves : List (Fdt.Name × EcpGroup)) (crypto : Fit.CryptoAlgo)
    (pubkey sig hash : List UInt8) : ℤ :=
  match curves.find? fun c => c.1 = crypto.name with
  | none => -Fit.einval
  | some (_, g) =>
    match pointReadBinary g pubkey with
    | .error _ => -Fit.einval
    | .ok Q =>
      match readSignature sig with
      | .error _ => -Fit.einval
      | .ok (r, s) =>
        match ecdsaVerify g none (hash.take crypto.keyLen) Q r s with
        | .error _ => -Fit.einval
        | .ok () => 0

/-- `ecp_supported_curves` as it is configured. -/
def supportedCurves : List (Fdt.Name × EcpGroup) :=
  [(Fit.text "secp384r1", secp384r1), (Fit.text "secp256r1", secp256r1)]

end UBoot.Ecp
