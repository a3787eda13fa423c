import UBoot.BootKernel
import UBoot.FdtScan
import UBoot.Sha

/-!
# Hashes of an image: `fit_image_check_hashes` of `common/image.c`

The hashes of an image are those it has: an image without a hash node passes,
and so does one whose hash nodes are all marked to be ignored. The signatures
that the control tree may require of an image are a matter of
`fit_image_verify_required_sigs`, which the check of the hashes does not call.
-/

set_option autoImplicit false

namespace UBoot.Fit
open UBoot.Fdt UBoot.Crc32

/-! ## Digests -/

/-- The digest of `lib/md5.c`. -/
structure Digests where
  md5 : List UInt8 → List UInt8
  md5_length : ∀ l, (md5 l).length = 16

def calculateHash (D : Digests) : HashFunction := fun data algo =>
  if algo = text "crc32" then some (Sha.putUint32 (crc32 0 data))
  else if algo = text "sha1" then some (BlockHash.digest Sha.sha1 data)
  else if algo = text "md5" then some (D.md5 data)
  else none

/-! ## Signatures of an image: `common/image-sig.c` -/

section Signatures

variable (P : Primitives) (ctl fit : Blob)

def fitImageCheckSig (noffset : ℕ) (data : Value) (requiredKeynode : ℕ) : Outcome Unit := do
  let info ← fitImageSetupVerify fit noffset requiredKeynode
  let value ← need "Can't get hash value property" (fitImageHashGetValue fit noffset)
  let ret ← cryptoVerify P ctl info [memory fit data.data data.len]
    (memory fit value.data value.len)
  if ret ≠ 0 then throw "Verification failed"

/-- The body of the loop of `fit_image_verify_sig`; the key is that of the hint. -/
def checkImageSubnode (data : Value) (noffset : ℕ) : Option (Option ℕ) := do
  if ← namedAs fit fitSigNodename noffset then
    match ← fitImageCheckSig P ctl fit noffset data 4294967295 with
    | .error _ => return none
    | .ok () => return some noffset
  else return none

def fitImageVerifySig (imageNoffset : ℕ) (data : Value) : Option ℤ := do
  match ← forSubnodes fit imageNoffset (checkImageSubnode P ctl fit data) with
  | .ok _ => return 0
  | .error noffset =>
    if noffset = errTruncated ∨ noffset = errBadstructure then return -1 else return -eperm

/-- A key that the control tree requires for images. -/
def requiredForImage (key : ℕ) : Option Bool :=
  (lookup ctl key (text "required")).map fun v =>
    match v with
    | none => false
    | some v => strEq ctl v.data (text "image")

def checkImageKey (imageNoffset : ℕ) (data : Value) (key : ℕ) : Option (Option ℤ) := do
  if ← requiredForImage ctl key then
    let ret ← fitImageVerifySig P ctl fit imageNoffset data
    return if ret ≠ 0 then some ret else none
  else return none

/-- The result, and whether there was nothing to verify. -/
def fitImageVerifyRequiredSigs (imageNoffset : ℕ) (data : Value) : Option (ℤ × Bool) := do
  let sigNode ← subnodeOffset ctl 0 fitSigNodename
  if isNeg sigNode then return (0, true)
  else
    match ← forSubnodes ctl sigNode (checkImageKey P ctl fit imageNoffset data) with
    | .ok ret => return (ret, true)
    | .error _ =>
      return (0, (subnodes ctl sigNode).all fun key => requiredForImage ctl key = some false)

end Signatures

/-! ## The hash nodes -/

/-- The value of a hash node is the digest of the image's data. -/
def Agrees (D : Digests) (b : Blob) (data : Value) (n : ℕ) (algo : Value) : Prop :=
  ∃ v, fitImageHashGetValue b n = some (some v) ∧
    calculateHash D (memory b data.data data.len) (cstrAt b algo.data) = some (memory b v.data v.len)

/-- What the loop asks of a hash node: it is ignored, or its value is the digest. -/
def Passes (D : Digests) (b : Blob) (data : Value) (n : ℕ) : Prop :=
  ∃ algo, fitImageHashGetAlgo b n = some (some algo) ∧
    (fitImageHashGetIgnore b n = some true ∨
      fitImageHashGetIgnore b n = some false ∧ Agrees D b data n algo)

theorem checkHash_true (D : Digests) (b : Blob) (data : Value) (n : ℕ) :
    checkHash (calculateHash D) b data n = some true ↔
      namedAs b (text "hash") n = some false ∨
        namedAs b (text "hash") n = some true ∧ Passes D b data n := by
  unfold checkHash
  cases hname : namedAs b (text "hash") n with
  | none => simp
  | some named =>
    cases named with
    | false => simp
    | true =>
      simp only [Option.bind_eq_bind, Option.bind_some, if_true, Option.some.injEq,
        Bool.true_eq_false, false_or, true_and, Passes]
      cases halgo : fitImageHashGetAlgo b n with
      | none => simp
      | some algo =>
        cases algo with
        | none => simp
        | some algo =>
          simp only [Option.bind_some, Option.some.injEq, exists_eq_left']
          cases hig : fitImageHashGetIgnore b n with
          | none => simp
          | some ignore =>
            cases ignore with
            | true => simp
            | false =>
              simp only [Option.bind_some, Option.some.injEq, Bool.false_eq_true, if_false, false_or,
                true_and, Agrees]
              cases fitImageHashGetValue b n with
              | none => simp
              | some v =>
                cases v with
                | none => simp
                | some v => simp

/-- The loop comes to its end when every subnode passes. -/
theorem checkHashesLoop_true (D : Digests) (b : Blob) (data : Value) (fuel o : ℕ) (d : ℤ) :
    checkHashesLoop (calculateHash D) b data fuel o d = some true ↔
      ∃ l e, scan b fuel o d = some (l, e) ∧ e ≠ errTruncated ∧ e ≠ errBadstructure ∧
        ∀ n ∈ l, checkHash (calculateHash D) b data n = some true := by
  induction fuel generalizing o d with
  | zero => simp [checkHashesLoop, scan]
  | succ fuel ih =>
    by_cases hstop : isNeg o ∨ d ≤ 0
    · simp [checkHashesLoop, scan, hstop]
    · rw [checkHashesLoop, if_neg hstop, scan, if_neg hstop]
      cases hn : nextNode b o d with
      | none =>
        simp only [reduceCtorEq, false_and, exists_false, iff_false]
        split <;> simp
      | some r =>
        by_cases hd : d = 1
        · subst hd
          simp only [if_true]
          cases hc : checkHash (calculateHash D) b data o with
          | none => simp [hc]
          | some ok =>
            cases ok with
            | false => simp [hc]
            | true => simpa [hc, ih] using exists_comm
        · simp only [if_neg hd, ih, Option.map_eq_some_iff, Prod.mk.injEq, Prod.exists]
          constructor
          · rintro ⟨l, e, hs, h⟩
            exact ⟨l, e, ⟨l, e, hs, rfl, rfl⟩, h⟩
          · rintro ⟨l, e, ⟨l', e', hs, rfl, rfl⟩, h⟩
            exact ⟨l', e', hs, h⟩

/-- The image has data, the walk over its subnodes comes to the end of the image, and each hash
node passes. -/
structure HashesPass (D : Digests) (b : Blob) (image : ℕ) (data : Value) : Prop where
  found : fitImageGetData b image = some (some data)
  walked : ∃ l e, children b image = some (l, e) ∧ e ≠ errTruncated ∧ e ≠ errBadstructure
  named : ∀ n ∈ subnodes b image, namedAs b (text "hash") n ≠ none
  pass : ∀ n ∈ hashNodes b image, Passes D b data n

theorem fitImageCheckHashes_eq (D : Digests) (b : Blob) (image : ℕ) :
    fitImageCheckHashes (calculateHash D) b image = (fitImageGetData b image).bind fun v =>
      v.elim (some false) fun data => (nextNode b image 0).bind fun r =>
        checkHashesLoop (calculateHash D) b data walkFuel r.1 r.2 := by
  unfold fitImageCheckHashes
  congr 1
  funext v
  cases v <;> rfl

theorem checkHashesLoop_children (D : Digests) (b : Blob) (image : ℕ) (data : Value) :
    (nextNode b image 0).bind (fun r =>
        checkHashesLoop (calculateHash D) b data walkFuel r.1 r.2) = some true ↔
      ∃ l e, children b image = some (l, e) ∧ e ≠ errTruncated ∧ e ≠ errBadstructure ∧
        ∀ n ∈ l, checkHash (calculateHash D) b data n = some true := by
  rw [children]
  cases nextNode b image 0 with
  | none => simp
  | some r => exact checkHashesLoop_true D b data walkFuel r.1 r.2

theorem checkHash_subnodes (D : Digests) (b : Blob) (image : ℕ) (data : Value) :
    (∀ n ∈ subnodes b image, checkHash (calculateHash D) b data n = some true) ↔
      (∀ n ∈ subnodes b image, namedAs b (text "hash") n ≠ none) ∧
        ∀ n ∈ hashNodes b image, Passes D b data n := by
  simp only [hashNodes, List.mem_filter, checkHash_true, decide_eq_true_eq]
  constructor
  · intro h
    constructor
    · intro n hn
      rcases h n hn with h | ⟨h, -⟩ <;> simp [h]
    · rintro n ⟨hn, hname⟩
      rcases h n hn with h | ⟨-, h⟩
      · simp [h] at hname
      · exact h
  · rintro ⟨hname, h⟩ n hn
    cases hv : namedAs b (text "hash") n with
    | none => exact absurd hv (hname n hn)
    | some v =>
      cases v with
      | false => exact .inl rfl
      | true => exact .inr ⟨rfl, h n ⟨hn, hv⟩⟩

/-- `fit_image_check_hashes` returns 1 when the hashes that the image has pass. -/
theorem check_hashes_iff (D : Digests) (b : Blob) (image : ℕ) :
    fitImageCheckHashes (calculateHash D) b image = some true ↔ ∃ data, HashesPass D b image data := by
  rw [fitImageCheckHashes_eq]
  constructor
  · intro h
    obtain ⟨v, hv, h⟩ := Option.bind_eq_some_iff.mp h
    cases v with
    | none => cases h
    | some data =>
      obtain ⟨l, e, hc, ht, hb, hall⟩ := (checkHashesLoop_children D b image data).mp h
      rw [← children_subnodes b image l e hc, checkHash_subnodes] at hall
      exact ⟨data, hv, ⟨l, e, hc, ht, hb⟩, hall.1, hall.2⟩
  · rintro ⟨data, h⟩
    obtain ⟨l, e, hc, ht, hb⟩ := h.walked
    have hall := (checkHash_subnodes D b image data).mpr ⟨h.named, h.pass⟩
    rw [children_subnodes b image l e hc] at hall
    rw [h.found, Option.bind_some, Option.elim_some]
    exact (checkHashesLoop_children D b image data).mpr ⟨l, e, hc, ht, hb, hall⟩

/-! ## What a check does not say -/

/-- The hashes pass and there is one, and the image is signed if the control tree has a key that
is required for images. -/
structure Vouched (P : Primitives) (D : Digests) (ctl b : Blob) (image : ℕ) (data : Value) : Prop where
  hashes : HashesPass D b image data
  checked : ∃ n ∈ hashNodes b image, fitImageHashGetIgnore b n = some false
  signed : (∃ key ∈ keyNodes ctl, requiredForImage ctl key = some true) →
    fitImageVerifyRequiredSigs P ctl b image data = some (0, false)

def zeroDigests : Digests :=
  ⟨fun _ => List.replicate 16 0, fun _ => rfl⟩

/-- The images `/images/k`, which has no hash, and `/images/c` with a hash of type `crc32`. -/
def hashedFit : Blob := ofWords
  [0xd00dfeed, 0xc4, 0x28, 0xb4, 0, 0x11, 0x10, 0, 0x10, 0x8c,
    1, 0, 1, 0x696d6167, 0x65730000,
    1, 0x6b000000, 3, 4, 0, 0x1020304, 2,
    1, 0x63000000, 3, 4, 0, 0x1020304,
    1, 0x68617368, 0, 3, 6, 5, 0x63726333, 0x32000000, 3, 4, 0xa, 0xb63cfbcd, 2,
    2, 2, 2, 9,
    0x64617461, 0x616c67, 0x6f007661, 0x6c756500]

/-- The key `dev`, which is required for images. -/
def imageKey : Blob := ofWords
  [0xd00dfeed, 0x90, 0x28, 0x80, 0, 0x11, 0x10, 0, 0x10, 0x58,
    1, 0, 1, 0x7369676e, 0x61747572, 0x65000000,
    1, 0x6b65792d, 0x64657600, 3, 6, 0, 0x696d6167, 0x65000000, 3, 4, 9, 0x4010203, 2,
    2, 2, 9,
    0x72657175, 0x69726564, 0x707562, 0x6b657900]

/-- An image without a hash passes, and one without a signature does. -/
theorem unvouched_pass :
    (fitImageCheckHashes (calculateHash zeroDigests) hashedFit 20 = some true ∧
      ∀ data, ¬Vouched devOnly zeroDigests imageKey hashedFit 20 data) ∧
    fitImageCheckHashes (calculateHash zeroDigests) hashedFit 48 = some true ∧
      hashNodes hashedFit 48 = [72] ∧
      ∀ data, ¬Vouched devOnly zeroDigests imageKey hashedFit 48 data := by
  have hdata : fitImageGetData hashedFit 48 = some (some ⟨0x6c, 4⟩) := by decide +kernel
  have hreq : fitImageVerifyRequiredSigs devOnly imageKey hashedFit 48 ⟨0x6c, 4⟩ = some (-eperm, true) := by
    decide +kernel
  refine ⟨⟨by decide +kernel, ?_⟩, by decide +kernel, by decide +kernel, ?_⟩
  · intro data h
    obtain ⟨n, hn, -⟩ := h.checked
    rw [show hashNodes hashedFit 20 = [] by decide +kernel] at hn
    cases hn
  · intro data h
    obtain rfl : ⟨0x6c, 4⟩ = data := by
      simpa using hdata.symm.trans h.hashes.found
    have := h.signed ⟨24, by decide +kernel, by decide +kernel⟩
    rw [hreq] at this
    cases this

end UBoot.Fit
