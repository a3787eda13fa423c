import UBoot.FitKeys
import UBoot.Sha

/-!
# The digest that `ecdsa_verify` hands on

The digest is written into a buffer of the length of the key, and the curve
reads all of it. With a shorter digest the end of the buffer is what was on
the stack before.
-/

set_option autoImplicit false

namespace UBoot.Fit
open UBoot.Fdt UBoot.BlockHash UBoot.Sha

/-! ## `hash_calculate` -/

/-- What memory holds before it is written: the buffer on the stack and that of a context. -/
structure Stale where
  stack : ℕ → List UInt8
  heap : ℕ → List UInt8
  stack_length : ∀ n, (stack n).length = n
  heap_length : ∀ n, (heap n).length = n

/-- The hashes that are built in. -/
structure Build where
  sha1 : Bool
  sha256 : Bool
  sha512 : Bool

/-- `hash_init`, `hash_update` for each region and `hash_finish`. -/
def hashRegions {S : Type} (h : Scheme S) (m : Stale) (contents : List (List UInt8)) : List UInt8 :=
  finish h (contents.foldl (update h) ⟨0, h.start, m.heap h.block⟩)

/-- `hash_progressive_lookup_algo` and the digest of the regions. -/
def progressiveHash (B : Build) (m : Stale) (name : Name)
    (contents : List (List UInt8)) : Option (List UInt8) :=
  if name = text "sha1" ∧ B.sha1 then some (hashRegions sha1 m contents)
  else if name = text "sha256" ∧ B.sha256 then some (hashRegions sha256 m contents)
  else if name = text "sha384" ∧ B.sha512 then some (hashRegions sha384 m contents)
  else if name = text "sha512" ∧ B.sha512 then some (hashRegions sha512 m contents)
  else none

def eprotonosupport : ℤ := 93

/-- `hash_calculate` for at least one region, into a buffer on the stack. -/
def hashCalculate (B : Build) (m : Stale) (keyLen : ℕ) : Checksum :=
  fun name contents =>
    match progressiveHash B m name contents with
    | none => (-eprotonosupport, m.stack keyLen)
    | some digest => (0, overwrite (m.stack keyLen) 0 digest)

/-! ## The digest of a message -/

def messageDigest (B : Build) (name : Name) (l : List UInt8) : Option (List UInt8) :=
  if name = text "sha1" ∧ B.sha1 then some (digest sha1 l)
  else if name = text "sha256" ∧ B.sha256 then some (digest sha256 l)
  else if name = text "sha384" ∧ B.sha512 then some (digest sha384 l)
  else if name = text "sha512" ∧ B.sha512 then some (digest sha512 l)
  else none

theorem hashRegions_eq {S : Type} (h : Scheme S) (m : Stale) (contents : List (List UInt8)) :
    hashRegions h m contents = digest h contents.flatten := by
  have hs := absorbed_start h (m.heap h.block) (m.heap_length h.block)
  have hp := absorbed_pieces h _ [] hs contents
  rw [List.nil_append] at hp
  exact hp.finish h _ _

theorem progressiveHash_eq (B : Build) (m : Stale) (name : Name)
    (contents : List (List UInt8)) :
    progressiveHash B m name contents = messageDigest B name contents.flatten := by
  simp only [progressiveHash, messageDigest, hashRegions_eq]

theorem checksum_lengths : ∀ a ∈ checksumAlgos,
    (a.name = text "sha1" → a.checksumLen = 20) ∧ (a.name = text "sha256" → a.checksumLen = 32) ∧
      (a.name = text "sha384" → a.checksumLen = 48) ∧
      (a.name = text "sha512" → a.checksumLen = 64) := by
  decide

/-- Each digest has the length of its entry in the table of checksums. -/
theorem messageDigest_length (B : Build) (a : ChecksumAlgo) (ha : a ∈ checksumAlgos)
    (l d : List UInt8) (hd : messageDigest B a.name l = some d) : d.length = a.checksumLen := by
  obtain ⟨h1, h256, h384, h512⟩ := checksum_lengths a ha
  unfold messageDigest at hd
  split_ifs at hd with c1 c2 c3 c4
  · rw [← Option.some.inj hd, h1 c1.1, sha1_length]
  · rw [← Option.some.inj hd, h256 c2.1, sha256_length]
  · rw [← Option.some.inj hd, h384 c3.1, sha384_length]
  · rw [← Option.some.inj hd, h512 c4.1, sha512_length]

/-- Whether a hash is there does not depend on the message. -/
theorem messageDigest_isSome (B : Build) (name : Name) (l l' : List UInt8) :
    (messageDigest B name l).isSome = (messageDigest B name l').isSome := by
  unfold messageDigest
  split_ifs <;> rfl

/-! ## What is handed on -/

/-- The pair of a key and a digest comes to the curve: the digest is not too long, the hash is
built in and the control tree has the key. -/
structure HandsOn (B : Build) (ctl : Blob) (info : SignInfo) : Prop where
  fits : info.checksum.checksumLen ≤ info.crypto.keyLen
  built : (messageDigest B info.checksum.name []).isSome
  key : ∃ sigNode pubkey, subnodeOffset ctl 0 fitSigNodename = some sigNode ∧ ¬isNeg sigNode ∧
    hintedKey ctl sigNode info.keyname = some (.ok pubkey)

/-- What `ecdsa_verify` hands on and answers depends on the bytes of the regions, not on how they
are cut or on what was in memory. -/
structure Determined (B : Build) (ctl : Blob) (info : SignInfo) : Prop where
  inputs : ∀ m m' contents contents', contents ≠ [] → contents' ≠ [] →
    contents.flatten = contents'.flatten →
    ecdsaInputs (hashCalculate B m info.crypto.keyLen) ctl info contents =
      ecdsaInputs (hashCalculate B m' info.crypto.keyLen) ctl info contents'
  verdict : ∀ verifyKey m m' contents contents' sig, contents ≠ [] → contents' ≠ [] →
    contents.flatten = contents'.flatten →
    ecdsaVerify ⟨hashCalculate B m info.crypto.keyLen, verifyKey⟩ ctl info contents sig =
      ecdsaVerify ⟨hashCalculate B m' info.crypto.keyLen, verifyKey⟩ ctl info contents' sig

theorem ecdsaInputs_refused (B : Build) (ctl : Blob) (info : SignInfo)
    (h : ¬HandsOn B ctl info) (m m' : Stale) (contents contents' : List (List UInt8)) :
    ecdsaInputs (hashCalculate B m info.crypto.keyLen) ctl info contents =
      ecdsaInputs (hashCalculate B m' info.crypto.keyLen) ctl info contents' := by
  unfold ecdsaInputs
  by_cases hlen : info.crypto.keyLen < info.checksum.checksumLen
  · simp only [hlen, if_true]
  simp only [hlen, if_false]
  cases hs : subnodeOffset ctl 0 fitSigNodename with
  | none => rfl
  | some sigNode =>
    simp only [Option.bind_eq_bind, Option.bind_some]
    by_cases hneg : isNeg sigNode
    · simp only [hneg, if_true]
    simp only [hneg, if_false, hashCalculate, progressiveHash_eq]
    have hb := messageDigest_isSome B info.checksum.name
    cases hd : messageDigest B info.checksum.name contents.flatten with
    | none =>
      have hd' : messageDigest B info.checksum.name contents'.flatten = none := by
        rw [← Option.not_isSome_iff_eq_none, hb _ contents.flatten, hd]
        decide
      rw [hd']
      simp only [show -eprotonosupport < 0 by decide, if_true]
    | some d =>
      obtain ⟨d', hd'⟩ : ∃ d', messageDigest B info.checksum.name contents'.flatten = some d' := by
        rw [← Option.isSome_iff_exists, hb _ contents.flatten, hd]
        rfl
      rw [hd']
      simp only [lt_irrefl, if_false]
      cases hk : hintedKey ctl sigNode info.keyname with
      | none => rfl
      | some r =>
        cases r with
        | error e => rfl
        | ok pubkey =>
          refine absurd ⟨not_lt.mp hlen, ?_, sigNode, pubkey, hs, hneg, hk⟩ h
          rw [hb _ contents.flatten, hd]
          rfl

/-- A pair that is handed on. -/
theorem ecdsaInputs_handed (B : Build) (ctl : Blob) (info : SignInfo)
    (h : HandsOn B ctl info) : ∃ pubkey, ∀ (m : Stale) (contents : List (List UInt8)) (d : List UInt8),
      messageDigest B info.checksum.name contents.flatten = some d →
      ecdsaInputs (hashCalculate B m info.crypto.keyLen) ctl info contents =
        some (.ok (pubkey, overwrite (m.stack info.crypto.keyLen) 0 d)) := by
  obtain ⟨sigNode, pubkey, hs, hneg, hk⟩ := h.key
  refine ⟨pubkey, ?_⟩
  intro m contents d hd
  simp only [ecdsaInputs, not_lt.mpr h.fits, if_false, hs, Option.bind_eq_bind, Option.bind_some, hneg,
    hashCalculate, progressiveHash_eq, hd, lt_irrefl, hk]
  rfl

theorem overwrite_all (buffer d : List UInt8) (h : d.length = buffer.length) : overwrite buffer 0 d = d := by
  rw [overwrite, List.take_zero, List.nil_append, Nat.zero_add, h, List.drop_length, List.append_nil]

/-- Memory in which every byte is the same. -/
def Stale.fill (x : UInt8) : Stale where
  stack n := List.replicate n x
  heap n := List.replicate n x
  stack_length _ := List.length_replicate
  heap_length _ := List.length_replicate

/-- A digest that is shorter than the key is handed on with the end of the buffer. -/
theorem Determined.length (B : Build) (ctl : Blob) (info : SignInfo)
    (hinfo : info.checksum ∈ checksumAlgos) (h : Determined B ctl info) (hands : HandsOn B ctl info) :
    info.checksum.checksumLen = info.crypto.keyLen := by
  obtain ⟨pubkey, hin⟩ := ecdsaInputs_handed B ctl info hands
  obtain ⟨d, hd⟩ := Option.isSome_iff_exists.mp hands.built
  have hlen := messageDigest_length B info.checksum hinfo [] d hd
  have heq := h.inputs (.fill 0) (.fill 1) [[]] [[]] (by simp) (by simp) rfl
  rw [hin _ [[]] d hd, hin _ [[]] d hd] at heq
  simp only [Option.some.injEq, Except.ok.injEq, Prod.mk.injEq, true_and, overwrite, List.take_zero,
    List.nil_append, List.append_cancel_left_eq, Nat.zero_add, Stale.fill, List.drop_replicate,
    List.replicate_inj] at heq
  have hfits := hands.fits
  have hz : info.crypto.keyLen-d.length = 0 := by simpa using heq
  omega

/-- `ecdsa_verify` depends on nothing but the regions, the signature and the key exactly if the
digest that it hands on is as long as the key. -/
theorem digest_determined_iff (B : Build) (ctl : Blob) (info : SignInfo)
    (hinfo : info.checksum ∈ checksumAlgos) : Determined B ctl info ↔
      (HandsOn B ctl info → info.checksum.checksumLen = info.crypto.keyLen) := by
  constructor
  · intro h hands
    exact h.length B ctl info hinfo hands
  · intro h
    have hinputs : ∀ m m' contents contents', contents.flatten = contents'.flatten →
        ecdsaInputs (hashCalculate B m info.crypto.keyLen) ctl info contents =
          ecdsaInputs (hashCalculate B m' info.crypto.keyLen) ctl info contents' := by
      intro m m' contents contents' hflat
      by_cases hands : HandsOn B ctl info
      · obtain ⟨pubkey, hin⟩ := ecdsaInputs_handed B ctl info hands
        have hb := hands.built
        rw [messageDigest_isSome B info.checksum.name [] contents.flatten] at hb
        obtain ⟨d, hd⟩ := Option.isSome_iff_exists.mp hb
        have hlen := (messageDigest_length B info.checksum hinfo _ d hd).trans (h hands)
        rw [hin m contents d hd, hin m' contents' d (hflat ▸ hd),
          overwrite_all _ d (hlen.trans (m.stack_length _).symm),
          overwrite_all _ d (hlen.trans (m'.stack_length _).symm)]
      · exact ecdsaInputs_refused B ctl info hands m m' contents contents'
    constructor
    case inputs => exact fun m m' contents contents' _ _ hflat => hinputs m m' contents contents' hflat
    case verdict =>
      intro verifyKey m m' contents contents' sig _ _ hflat
      simp only [ecdsaVerify, hinputs m m' contents contents' hflat]

def fullBuild : Build := ⟨true, true, true⟩

/-- The algorithms `sha256,secp256r1` with the key `dev`. -/
theorem digest_determined_sha256 : Determined fullBuild twoKeys
    ⟨some (text "dev"), ⟨text "sha256", 32⟩, ⟨text "secp256r1", 32, .ecdsaVerify⟩, 0⟩ :=
  (digest_determined_iff fullBuild twoKeys
    ⟨some (text "dev"), ⟨text "sha256", 32⟩, ⟨text "secp256r1", 32, .ecdsaVerify⟩, 0⟩
    (by decide)).mpr fun _ => rfl

/-- With `sha256,secp384r1` the last 16 bytes that the curve reads were never written. -/
theorem tail_unwritten :
    let info : SignInfo :=
      ⟨some (text "dev"), ⟨text "sha256", 32⟩, ⟨text "secp384r1", 48, .ecdsaVerify⟩, 0⟩
    imageGetChecksumAlgo (text "sha256,secp384r1") = some info.checksum ∧
      imageGetCryptoAlgo (text "sha256,secp384r1") = some info.crypto ∧
      HandsOn fullBuild twoKeys info ∧ ¬Determined fullBuild twoKeys info := by
  intro info
  have hands : HandsOn fullBuild twoKeys info :=
    ⟨by decide, by decide +kernel, 8, [4, 1, 2, 3], by decide +kernel, by decide, by decide +kernel⟩
  refine ⟨by decide, by decide, hands, ?_⟩
  intro h
  exact absurd (h.length fullBuild twoKeys info (by decide) hands) (by decide)

end UBoot.Fit
