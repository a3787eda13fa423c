import UBoot.FdtCoverage
import UBoot.Fit

/-!
# Signed configurations: `common/image-sig.c` and `lib/ecdsa/ecdsa-verify.c`

A configuration is accepted on the first of its signature nodes that checks.
The node names the key, the algorithms and the nodes that are hashed. The
checksum over the regions and the verification by a public key are parameters.
`none` is a walk without an end, or an access outside a buffer or through a
null pointer.
-/

set_option autoImplicit false

namespace UBoot.Fit
open UBoot.Fdt

/-! ## Algorithms -/

structure ChecksumAlgo where
  name : Name
  checksumLen : ℕ
  deriving DecidableEq

def checksumAlgos : List ChecksumAlgo :=
  [⟨text "sha1", 20⟩, ⟨text "sha256", 32⟩, ⟨text "sha384", 48⟩, ⟨text "sha512", 64⟩]

inductive Verifier where
  | rsaVerify | ecdsaVerify
  deriving DecidableEq

structure CryptoAlgo where
  name : Name
  keyLen : ℕ
  verify : Verifier
  deriving DecidableEq

def cryptoAlgos : List CryptoAlgo :=
  [⟨text "rsa2048", 256, .rsaVerify⟩, ⟨text "rsa4096", 512, .rsaVerify⟩,
    ⟨text "secp256r1", 32, .ecdsaVerify⟩, ⟨text "secp384r1", 48, .ecdsaVerify⟩]

def imageGetChecksumAlgo (fullName : Name) : Option ChecksumAlgo :=
  checksumAlgos.find? fun a => (a.name ++ [44]).isPrefixOf fullName

def imageGetCryptoAlgo (fullName : Name) : Option CryptoAlgo :=
  match fullName.dropWhile (· ≠ 44) with
  | [] => none
  | _::name => cryptoAlgos.find? fun a => a.name = name

abbrev Checksum := Name → List (List UInt8) → ℤ × List UInt8

/-- What is not part of the model: a checksum over regions, with its result and
the buffer it fills, and the verification of a signature by a public key. -/
structure Primitives where
  calculate : Checksum
  ecdsaVerifyKey : CryptoAlgo → List UInt8 → List UInt8 → List UInt8 → ℤ

/-! ## Properties -/

/-- A result, an error message, or no result at all. -/
abbrev Outcome := ExceptT String Option

instance {α : Type} [DecidableEq α] : DecidableEq (Outcome α) :=
  inferInstanceAs (DecidableEq (Option (Except String α)))

def need (message : String) {α : Type} : Option (Option α) → Outcome α
  | none => none
  | some none => some (.error message)
  | some (some a) => some (.ok a)

structure SignInfo where
  keyname : Option Name
  checksum : ChecksumAlgo
  crypto : CryptoAlgo
  requiredKeynode : ℕ
  deriving DecidableEq

def fitImageSetupVerify (fit : Blob) (noffset requiredKeynode : ℕ) : Outcome SignInfo := do
  let algo ← need "Can't get hash algo property" (fitImageHashGetAlgo fit noffset)
  let hint ← lookup fit noffset (text "key-name-hint")
  let algoName := cstrAt fit algo.data
  match imageGetChecksumAlgo algoName, imageGetCryptoAlgo algoName with
  | some checksum, some crypto =>
    return ⟨hint.map fun v => cstrAt fit v.data, checksum, crypto, requiredKeynode⟩
  | _, _ => throw "Unknown signature algorithm"

/-! ## Regions -/

/-- The strings that start in a property's value. -/
def stringsFrom (b : Blob) : ℕ → ℕ → ℕ → List Name
  | 0, _, _ => []
  | fuel+1, a, stop =>
    if stop ≤ a then [] else cstrAt b a::stringsFrom b fuel (a+(cstrAt b a).length+1) stop

def imageMaxHashedNodes : ℕ := 100

def configSearch (inc : List Name) : Search :=
  ⟨inc, [text "data"], 20+inc.length*7-1, 200⟩

/-- The paths of the hashed nodes; a string without its end is one too many. -/
def hashedNodes (fit : Blob) (noffset : ℕ) : Outcome (List Name) := do
  let prop ← lookup fit noffset (text "hashed-nodes")
  match prop with
  | none => throw "Can't get hashed-nodes property"
  | some v =>
    -- a negative length ends the loops before they start
    let len := if isNeg v.len then 0 else v.len
    let count := (memory fit v.data len).count 0
    if count = 0 then throw "Can't get hashed-nodes property"
    else if imageMaxHashedNodes < count then throw "Number of hashed nodes exceeds maximum"
    else
      let nodeInc := stringsFrom fit len v.data (v.data+len)
      if count < nodeInc.length then none else return nodeInc

/-- The region of the string table that a signature node asks for. -/
def stringsRegion (fit : Blob) (v : Value) : Region :=
  ⟨w32 (offDtStrings fit+fdt32 fit v.data), fdt32 fit (v.data+4)⟩

def configRegions (fit : Blob) (noffset : ℕ) (nodeInc : List Name) : Outcome (List Region) := do
  let found ← findRegions fit (configSearch nodeInc)
  match found with
  | .error _ => throw "Failed to hash configuration"
  | .ok (count, region) =>
    if count = 0 then throw "No data to hash"
    else if 20+nodeInc.length*7-1 ≤ count then throw "Too many hash regions"
    else
      let strings ← lookup fit noffset (text "hashed-strings")
      return (List.range count).map region ++ strings.toList.map (stringsRegion fit)

/-! ## Verification -/

def eperm : ℤ := 1
def enoent : ℤ := 2
def enxio : ℤ := 6
def efault : ℤ := 14
def einval : ℤ := 22

def fitSigNodename : Name := text "signature"

def keyNodeName (keyname : Option Name) : Name := text "key-" ++ keyname.getD (text "<NULL>")

/-- The public key of a key node. -/
def pubkeyOf (ctl : Blob) (node : ℕ) : Option (Except ℤ (List UInt8)) := do
  match ← lookup ctl node (text "pubkey") with
  | none => return .error (-efault)
  | some v =>
    if isNeg v.len ∨ v.len = 0 then return .error (-efault)
    else return .ok (memory ctl v.data v.len)

/-- The public key that the hint names in the control tree. -/
def hintedKey (ctl : Blob) (sigNode : ℕ) (keyname : Option Name) :
    Option (Except ℤ (List UInt8)) := do
  let name := keyNodeName keyname
  -- `snprintf` does not stop at the end of the buffer
  if 100 ≤ name.length then none
  else
    let node ← subnodeOffset ctl sigNode name
    if isNeg node then return .error (-enoent) else pubkeyOf ctl node

/-- What `ecdsa_verify` hands to `ecdsa_verify_key`: the public key and the hash. -/
def ecdsaInputs (calculate : Checksum) (ctl : Blob) (info : SignInfo)
    (contents : List (List UInt8)) : Option (Except ℤ (List UInt8 × List UInt8)) := do
  if info.crypto.keyLen < info.checksum.checksumLen then return .error (-einval)
  else
    let sigNode ← subnodeOffset ctl 0 fitSigNodename
    if isNeg sigNode then return .error (-enoent)
    else
      let hash := calculate info.checksum.name contents
      if hash.1 < 0 then return .error (-einval)
      else
        let key ← hintedKey ctl sigNode info.keyname
        return key.map fun pubkey => (pubkey, hash.2)

def ecdsaVerify (P : Primitives) (ctl : Blob) (info : SignInfo) (contents : List (List UInt8))
    (sig : List UInt8) : Option ℤ := do
  match ← ecdsaInputs P.calculate ctl info contents with
  | .error e => return e
  | .ok (pubkey, hash) => return P.ecdsaVerifyKey info.crypto pubkey sig hash

/-- `rsa_verify` is not built in. -/
def cryptoVerify (P : Primitives) (ctl : Blob) (info : SignInfo) (contents : List (List UInt8))
    (sig : List UInt8) : Option ℤ :=
  match info.crypto.verify with
  | .rsaVerify => some (-enxio)
  | .ecdsaVerify => ecdsaVerify P ctl info contents sig

/-- The bytes that are hashed for a region. -/
def regionBytes (fit : Blob) (r : Region) : List UInt8 := memory fit r.offset r.size

/-- What `fit_config_check_sig` hands to the verifier. -/
structure Request where
  info : SignInfo
  regions : List Region
  contents : List (List UInt8)
  sig : List UInt8

def sigRequest (fit : Blob) (noffset requiredKeynode : ℕ) : Outcome Request := do
  let info ← fitImageSetupVerify fit noffset requiredKeynode
  let value ← need "Can't get hash value property" (fitImageHashGetValue fit noffset)
  let nodeInc ← hashedNodes fit noffset
  let regions ← configRegions fit noffset nodeInc
  return ⟨info, regions, regions.map (regionBytes fit), memory fit value.data value.len⟩

def fitConfigCheckSig (P : Primitives) (ctl fit : Blob) (noffset requiredKeynode : ℕ) :
    Outcome Unit := do
  let r ← sigRequest fit noffset requiredKeynode
  let ret ← cryptoVerify P ctl r.info r.contents r.sig
  if ret ≠ 0 then throw "Verification failed"

/-- The body of the loop of `fit_config_verify_sig`. -/
def checkSubnode (P : Primitives) (ctl fit : Blob) (sigOffset noffset : ℕ) : Option (Option ℕ) := do
  if ← namedAs fit fitSigNodename noffset then
    match ← fitConfigCheckSig P ctl fit noffset sigOffset with
    | .error _ => return none
    | .ok () => return some noffset
  else return none

/-- The signature node that checks. -/
def verifiedSig (P : Primitives) (ctl fit : Blob) (conf sigOffset : ℕ) : Option (Except ℕ ℕ) :=
  forSubnodes fit conf (checkSubnode P ctl fit sigOffset)

def fitConfigVerifySig (P : Primitives) (ctl fit : Blob) (conf sigOffset : ℕ) : Option ℤ := do
  match ← verifiedSig P ctl fit conf sigOffset with
  | .ok _ => return 0
  | .error noffset =>
    if noffset = errTruncated ∨ noffset = errBadstructure then return -1 else return -eperm

/-- A key that the control tree requires for configurations. -/
def requiredForConf (ctl : Blob) (key : ℕ) : Option Bool :=
  (lookup ctl key (text "required")).map fun v =>
    match v with
    | none => false
    | some v => strEq ctl v.data (text "conf")

def checkKeyNode (P : Primitives) (ctl fit : Blob) (conf key : ℕ) : Option (Option ℤ) := do
  if ← requiredForConf ctl key then
    let ret ← fitConfigVerifySig P ctl fit conf key
    return if ret ≠ 0 then some ret else none
  else return none

def fitConfigVerifyRequiredSigs (P : Primitives) (ctl fit : Blob) (conf : ℕ) : Option ℤ := do
  let sigNode ← subnodeOffset ctl 0 fitSigNodename
  if isNeg sigNode then return 0
  else
    match ← forSubnodes ctl sigNode (checkKeyNode P ctl fit conf) with
    | .ok ret => return ret
    | .error _ => return 0

/-- `force` is the build with `CONFIG_FORCE_CONFIG_VERIFY`. -/
def fitConfigVerify (force : Bool) (P : Primitives) (ctl fit : Blob) (conf : ℕ) : Option ℤ :=
  if force then fitConfigVerifySig P ctl fit conf 4294967295
  else fitConfigVerifyRequiredSigs P ctl fit conf

end UBoot.Fit
