import UBoot.EcdsaDigest
import UBoot.EcdsaText
import UBoot.EcdsaVerify
import UBoot.Secp256r1

/-!
# What a signed region list is accepted for

`ecdsa_verify_key` reads the public key and the signature from their bytes. Behind
`ecdsa_verify`, a list of regions is accepted exactly if the signature is one of the digest of
its bytes, under the key that the control tree has for the hint.
-/

set_option autoImplicit false

namespace UBoot.Ecp

open Mpi LittleEndian WeierstrassCurve.Affine PrimeOrderSignature

/-- The number of bytes in big-endian order. -/
def ofBe (l : List UInt8) : ℤ := ofLe l.reverse

section Key

variable {g : EcpGroup} [hprime : Fact g.P.Prime]

/-- An uncompressed point: the byte 4 and both coordinates, of a point on the curve. -/
def KeyText (pubkey : List UInt8) (Q : g.curve.Point) : Prop :=
  ∃ X Y, X.length = (g.P.size+7)/8 ∧ Y.length = (g.P.size+7)/8 ∧ pubkey = 0x04 :: X ++ Y ∧
    PointAt g ⟨ofBe X, ofBe Y, some 1⟩ Q

/-- The text of a signature of the digest under the key. -/
def Signed (G Q : g.curve.Point) (digest sig : List UInt8) : Prop :=
  ∃ a b e, SignatureText a b sig ∧ (0 < ofBe a ∧ ofBe a < g.N) ∧ (0 < ofBe b ∧ ofBe b < g.N) ∧
    deriveMpi g digest = .ok e ∧ e ≠ 0 ∧ Accepts (xOf g) G Q (e : ZMod g.N) (ofBe a) (ofBe b)

theorem readBinary_ok {buf : List UInt8} (h : buf.length ≤ 40000) : readBinary buf = .ok (ofBe buf) := by
  rw [readBinary_eq, if_neg (not_lt.mpr ((List.length_dropWhile_le _ _).trans h))]
  rfl

/-- A number that is refused for its length is larger than all that fit. -/
theorem ofBe_large {buf : List UInt8} (h : 40000 < (buf.dropWhile (· = 0)).length) :
    256^40000 ≤ ofBe buf := by
  induction buf with
  | nil => simp at h
  | cons b buf ih =>
    by_cases hb : b = 0
    · rw [List.dropWhile_cons_of_pos (by simpa using hb)] at h
      have := ih h
      rwa [ofBe, List.reverse_cons, hb, ofLe_append_zero]
    · rw [List.dropWhile_cons_of_neg (by simpa using hb), List.length_cons] at h
      have hpos : 0 < b.toNat := by
        rw [Nat.pos_iff_ne_zero]
        exact fun h0 => hb (UInt8.toNat_inj.mp h0)
      have hlast : ∀ l : List UInt8, 256^l.length ≤ ofLe (l ++ [b]) := by
        intro l
        induction l with
        | nil =>
          rw [List.nil_append, ofLe, ofLe, Nat.mul_zero, Nat.add_zero]
          exact hpos
        | cons c l ih =>
          rw [List.cons_append, ofLe, List.length_cons, pow_succ]
          omega
      have hle := hlast buf.reverse
      rw [List.length_reverse] at hle
      rw [ofBe, List.reverse_cons]
      exact_mod_cast (Nat.pow_le_pow_right (by decide) (by omega)).trans hle

variable (hbits : g.P.size ≤ 320000 ∧ g.nbits ≤ 320000)

omit hprime in
include hbits in
/-- Numbers of a signature that are in their range were read. -/
theorem readBinary_iff (buf : List UInt8) (r : ℤ) (hr : r < g.N) :
    readBinary buf = .ok r ↔ ofBe buf = r := by
  rw [readBinary_eq]
  split_ifs with hlong
  · refine iff_of_false (by simp) ?_
    rintro rfl
    have hlarge := ofBe_large hlong
    have hN : ∀ n, g.nbits ≤ 8*n → (g.N : ℤ) < 256^n := by
      intro n hn
      have hlt : g.N < 2^(8*n) :=
        (Nat.lt_size_self g.N).trans_le (Nat.pow_le_pow_right (by decide) hn)
      rw [pow_mul] at hlt
      exact_mod_cast hlt
    exact absurd (hlarge.trans_lt (hr.trans (hN 40000 hbits.2))) (lt_irrefl _)
  · rw [Except.ok.injEq]
    rfl

include hbits in
/-- A public key that is read and checked is the text of a point. -/
theorem pointReadBinary_iff (pubkey : List UInt8) (Q : g.curve.Point) :
    (∃ pt, pointReadBinary g pubkey = .ok pt ∧ PointAt g pt Q) ↔ KeyText pubkey Q := by
  unfold pointReadBinary KeyText
  constructor
  · rintro ⟨pt, hread, hpt⟩
    cases pubkey with
    | nil => cases hread
    | cons b rest =>
      dsimp only at hread
      split_ifs at hread with h0 hrest h4 hlen
      · -- the point at infinity
        obtain rfl := Except.ok.inj hread
        have hz := hpt.2
        cases hz
      · rw [ne_eq, not_not] at h4 hlen
        rw [List.length_cons] at hlen
        have hX : (rest.take ((g.P.size+7)/8)).length = (g.P.size+7)/8 := by
          rw [List.length_take]
          omega
        have hY : ((rest.drop ((g.P.size+7)/8)).take ((g.P.size+7)/8)).length = (g.P.size+7)/8 := by
          rw [List.length_take, List.length_drop]
          omega
        rw [readBinary_ok (by omega), readBinary_ok (by omega)] at hread
        obtain rfl := Except.ok.inj hread
        refine ⟨_, _, hX, hY, ?_, hpt⟩
        rw [h4, List.cons_append, List.take_of_length_le (l := rest.drop ((g.P.size+7)/8)) (by
          rw [List.length_drop]
          omega), List.take_append_drop]
  · rintro ⟨X, Y, hX, hY, rfl, hpt⟩
    refine ⟨_, ?_, hpt⟩
    rw [List.cons_append]
    dsimp only
    rw [if_neg (by decide), if_neg (by decide), if_neg (by
      rw [List.length_cons, List.length_append]
      omega), ← hX, List.take_left, List.drop_left, hX, ← hY, List.take_length,
      readBinary_ok (by omega), readBinary_ok (by omega)]
    rfl

variable (hg : Valid g)

include hbits hg in
/-- The key verifies what is a signature under it, and nothing else. -/
theorem ecdsaVerifyKey_iff {G : g.curve.Point} (hG : PointAt g g.G G)
    {curves : List (Fdt.Name × EcpGroup)} {crypto : Fit.CryptoAlgo} {name : Fdt.Name}
    (hfind : curves.find? (fun c => c.1 = crypto.name) = some (name, g))
    (pubkey sig hash : List UInt8) :
    ecdsaVerifyKey curves crypto pubkey sig hash = 0 ↔
      ∃ Q, KeyText pubkey Q ∧ Signed G Q (hash.take crypto.keyLen) sig := by
  have hnone := cached_none g
  have heinval : -Fit.einval ≠ 0 := by decide
  unfold ecdsaVerifyKey
  rw [hfind]
  dsimp only
  constructor
  · intro h
    cases hpt : pointReadBinary g pubkey with
    | error e =>
      rw [hpt] at h
      exact absurd h heinval
    | ok pt =>
      rw [hpt] at h
      dsimp only at h
      cases hsig : readSignature sig with
      | error e =>
        rw [hsig] at h
        exact absurd h heinval
      | ok v =>
        obtain ⟨r, s⟩ := v
        rw [hsig] at h
        dsimp only at h
        cases hrun : ecdsaVerify g none (hash.take crypto.keyLen) pt r s with
        | error e =>
          rw [hrun] at h
          exact absurd h heinval
        | ok u =>
          obtain ⟨hr, hs, Q, hQ, e, he, hne, haccepts⟩ :=
            (ecdsaVerify_iff hg hbits.2 hnone hG _ _ _ _).mp hrun
          obtain ⟨a, b, htext, ha, hb⟩ := (readSignature_iff _ _ _).mp hsig
          have ha := (readBinary_iff hbits a r hr.2).mp ha
          have hb := (readBinary_iff hbits b s hs.2).mp hb
          subst ha hb
          exact ⟨Q, (pointReadBinary_iff hbits pubkey Q).mp ⟨pt, hpt, hQ⟩, a, b, e, htext, hr, hs, he,
            hne, haccepts⟩
  · rintro ⟨Q, hkey, a, b, e, htext, hr, hs, he, hne, haccepts⟩
    obtain ⟨pt, hpt, hQ⟩ := (pointReadBinary_iff hbits pubkey Q).mpr hkey
    have hsig := (readSignature_iff sig (ofBe a) (ofBe b)).mpr ⟨a, b, htext,
      (readBinary_iff hbits a _ hr.2).mpr rfl, (readBinary_iff hbits b _ hs.2).mpr rfl⟩
    have hrun := (ecdsaVerify_iff hg hbits.2 hnone hG (hash.take crypto.keyLen) pt _ _).mpr
      ⟨hr, hs, Q, hQ, e, he, hne, haccepts⟩
    rw [hpt, hsig]
    dsimp only
    rw [hrun]

include hbits hg in
/-- Regions are accepted exactly if the signature is one of the digest of their bytes under the
key of the control tree, where the digest is as long as the key. -/
theorem ecdsaVerify_regions {G : g.curve.Point} (hG : PointAt g g.G G)
    (curves : List (Fdt.Name × EcpGroup)) (B : Fit.Build) (m : Fit.Stale) (ctl : Fdt.Blob)
    (info : Fit.SignInfo) (name : Fdt.Name) (hinfo : info.checksum ∈ Fit.checksumAlgos)
    (hlen : info.checksum.checksumLen = info.crypto.keyLen)
    (hfind : curves.find? (fun c => c.1 = info.crypto.name) = some (name, g))
    (sigNode : ℕ) {pubkey : List UInt8}
    (hnode : Fdt.subnodeOffset ctl 0 Fit.fitSigNodename = some sigNode ∧ ¬Fdt.isNeg sigNode)
    (hkey : Fit.hintedKey ctl sigNode info.keyname = some (.ok pubkey))
    (region : List UInt8) (regions : List (List UInt8)) {digest : List UInt8}
    (hdigest : Fit.messageDigest B info.checksum.name (region :: regions).flatten = some digest)
    (sig : List UInt8) :
    Fit.ecdsaVerify ⟨Fit.hashCalculate B m info.crypto.keyLen, ecdsaVerifyKey curves⟩ ctl info
        (region :: regions) sig = some 0 ↔ ∃ Q, KeyText pubkey Q ∧ Signed G Q digest sig := by
  have hdlen := Fit.messageDigest_length B info.checksum hinfo _ _ hdigest
  have hall := Fit.overwrite_all (m.stack info.crypto.keyLen) digest
    ((hdlen.trans hlen).trans (m.stack_length _).symm)
  have hinputs : Fit.ecdsaInputs (Fit.hashCalculate B m info.crypto.keyLen) ctl info (region :: regions) =
      some (.ok (pubkey, digest)) := by
    simp only [Fit.ecdsaInputs, not_lt.mpr hlen.le, if_false, hnode.1, Option.bind_eq_bind,
      Option.bind_some, hnode.2, Fit.hashCalculate, Fit.progressiveHash_eq, hdigest, lt_irrefl, hkey,
      hall]
    rfl
  have htake : digest.take info.crypto.keyLen = digest := List.take_of_length_le (by omega)
  have hverdict := ecdsaVerifyKey_iff hbits hg hG hfind pubkey sig digest
  rw [htake] at hverdict
  rw [← hverdict, Fit.ecdsaVerify, hinputs]
  exact Option.some_inj

theorem secp256r1_bits : secp256r1.P.size ≤ 320000 ∧ secp256r1.nbits ≤ 320000 := by
  constructor
  · exact (Nat.size_le.mpr (by decide : secp256r1.P < 2^256)).trans (by decide)
  · exact (Nat.size_le.mpr (by decide : secp256r1.N < 2^256)).trans (by decide)

theorem empty_digest : Fit.messageDigest Fit.fullBuild (Fit.text "sha256") [[]].flatten =
    some (BlockHash.digest Sha.sha256 []) := by
  have hsha1 : Fit.text "sha256" ≠ Fit.text "sha1" := by decide
  simp [Fit.messageDigest, Fit.fullBuild, hsha1]

omit hprime in
/-- The algorithms `sha256,secp256r1` with the key `dev`, and no bytes in the regions. -/
theorem ecdsaVerify_regions_dev : ∃ G, PointAt secp256r1 secp256r1.G G ∧
    (Fit.ecdsaVerify ⟨Fit.hashCalculate Fit.fullBuild (.fill 0) 32, ecdsaVerifyKey supportedCurves⟩
      Fit.twoKeys ⟨some (Fit.text "dev"), ⟨Fit.text "sha256", 32⟩,
        ⟨Fit.text "secp256r1", 32, .ecdsaVerify⟩, 0⟩ [[]] [] = some 0 ↔
      ∃ Q, KeyText [4, 1, 2, 3] Q ∧ Signed G Q (BlockHash.digest Sha.sha256 []) []) := by
  obtain ⟨G, hG⟩ := (checkPubkey_iff secp256r1_smooth secp256r1.G).mp secp256r1_base
  have hother : Fit.text "secp384r1" ≠ Fit.text "secp256r1" := by decide
  exact ⟨G, hG, ecdsaVerify_regions secp256r1_bits secp256r1_valid hG supportedCurves Fit.fullBuild
    (.fill 0) Fit.twoKeys ⟨some (Fit.text "dev"), ⟨Fit.text "sha256", 32⟩,
      ⟨Fit.text "secp256r1", 32, .ecdsaVerify⟩, 0⟩ (Fit.text "secp256r1") (by decide) rfl
    (by simp [supportedCurves, hother]) 8 ⟨by decide +kernel, by decide⟩ (by decide +kernel) [] []
    empty_digest []⟩

end Key

end UBoot.Ecp
