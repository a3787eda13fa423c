import UBoot.FitSignature

/-!
# Required keys

The key node that is required travels to the verifier and is not looked at
there: the key is the one that the signature node itself names. A required key
is enforced exactly if every signature node that gets as far as the public key
names a key with the same public key.
-/

set_option autoImplicit false

namespace UBoot.Fit
open UBoot.Fdt

theorem Outcome.ok_bind {α β : Type} (a : α) (f : α → Outcome β) :
    bind (m := Outcome) (some (.ok a)) f = f a := rfl

theorem Outcome.lift_bind {α β : Type} (x : Option α) (f : α → Outcome β) :
    ((liftM x : Outcome α) >>= f) = x.bind f := by
  cases x <;> rfl

theorem Outcome.bind_ok {α β : Type} (x : Outcome α) (f : α → Outcome β) (b : β)
    (h : bind (m := Outcome) x f = some (.ok b)) : ∃ a, x = some (.ok a) ∧ f a = some (.ok b) := by
  obtain ⟨r, hr, h⟩ := Option.bind_eq_some_iff.mp h
  cases r with
  | error e => cases h
  | ok a => exact ⟨a, hr, h⟩

/-! ## One signature node -/

theorem setupVerify_keynode (fit : Blob) (n k : ℕ) : fitImageSetupVerify fit n k =
    (fun info => { info with requiredKeynode := k }) <$> fitImageSetupVerify fit n 0 := by
  unfold fitImageSetupVerify
  rw [map_bind]
  congr 1
  funext algo
  rw [map_bind]
  congr 1
  funext hint
  dsimp only
  cases imageGetChecksumAlgo (cstrAt fit algo.data) <;>
    cases imageGetCryptoAlgo (cstrAt fit algo.data) <;> rfl

def Request.require (r : Request) (k : ℕ) : Request :=
  { r with info := { r.info with requiredKeynode := k } }

theorem sigRequest_keynode (fit : Blob) (n k : ℕ) :
    sigRequest fit n k = (fun r => r.require k) <$> sigRequest fit n 0 := by
  unfold sigRequest
  rw [setupVerify_keynode fit n k]
  simp only [map_bind, bind_map_left]
  rfl

/-- The verifier does not see which key is required. -/
theorem checkSig_keynode (P : Primitives) (ctl fit : Blob) (n k : ℕ) :
    fitConfigCheckSig P ctl fit n k = fitConfigCheckSig P ctl fit n 0 := by
  unfold fitConfigCheckSig
  rw [sigRequest_keynode fit n k, bind_map_left]
  rfl

/-- What the signature node at `n` hands to the verification by a public key,
if it gets that far: the request, the key and the hash. -/
def attempt (calculate : Checksum) (ctl fit : Blob) (n : ℕ) :
    Option (Option (Request × List UInt8 × List UInt8)) := do
  if ← namedAs fit fitSigNodename n then
    match ← sigRequest fit n 0 with
    | .error _ => return none
    | .ok r =>
      match r.info.crypto.verify with
      | .rsaVerify => return none
      | .ecdsaVerify =>
        match ← ecdsaInputs calculate ctl r.info r.contents with
        | .error _ => return none
        | .ok (pubkey, hash) => return some (r, pubkey, hash)
  else return none

theorem pubkeyOf_error (ctl : Blob) (node : ℕ) (e : ℤ) (h : pubkeyOf ctl node = some (.error e)) :
    e ≠ 0 := by
  obtain ⟨v, -, h⟩ := Option.bind_eq_some_iff.mp h
  cases v with
  | none =>
    cases h
    decide
  | some v =>
    dsimp only at h
    split_ifs at h
    · cases h
      decide
    · cases h

theorem ecdsaInputs_error (calculate : Checksum) (ctl : Blob) (info : SignInfo)
    (contents : List (List UInt8)) (e : ℤ)
    (h : ecdsaInputs calculate ctl info contents = some (.error e)) : e ≠ 0 := by
  unfold ecdsaInputs at h
  split_ifs at h with h1
  · cases h
    decide
  obtain ⟨sigNode, -, h⟩ := Option.bind_eq_some_iff.mp h
  dsimp only at h
  split_ifs at h with h2 h3
  · cases h
    decide
  · cases h
    decide
  obtain ⟨key, hk, h⟩ := Option.bind_eq_some_iff.mp h
  cases key with
  | ok pubkey => cases h
  | error e' =>
    cases h
    unfold hintedKey at hk
    dsimp only at hk
    split_ifs at hk with h4
    obtain ⟨node, -, hk⟩ := Option.bind_eq_some_iff.mp hk
    split_ifs at hk with h5
    · cases hk
      decide
    · exact pubkeyOf_error ctl node e hk

theorem ecdsaInputs_ok (calculate : Checksum) (ctl : Blob) (info : SignInfo)
    (contents : List (List UInt8)) (pubkey hash : List UInt8)
    (h : ecdsaInputs calculate ctl info contents = some (.ok (pubkey, hash))) :
    info.checksum.checksumLen ≤ info.crypto.keyLen ∧
      0 ≤ (calculate info.checksum.name contents).1 ∧
      hash = (calculate info.checksum.name contents).2 := by
  unfold ecdsaInputs at h
  split_ifs at h with h1
  · cases h
  obtain ⟨sigNode, -, h⟩ := Option.bind_eq_some_iff.mp h
  dsimp only at h
  split_ifs at h with h2 h3
  · cases h
  · cases h
  obtain ⟨key, -, h⟩ := Option.bind_eq_some_iff.mp h
  cases key with
  | error e => cases h
  | ok key =>
    cases h
    exact ⟨by omega, by omega, rfl⟩

theorem checkSig_request (P : Primitives) (ctl fit : Blob) (n k : ℕ) (r : Request)
    (h : sigRequest fit n k = some (.ok r)) : fitConfigCheckSig P ctl fit n k =
      (cryptoVerify P ctl r.info r.contents r.sig).map fun ret =>
        if ret ≠ 0 then .error "Verification failed" else .ok () := by
  rw [fitConfigCheckSig, h, Outcome.ok_bind, Outcome.lift_bind]
  cases cryptoVerify P ctl r.info r.contents r.sig with
  | none => rfl
  | some ret =>
    by_cases h0 : ret = 0
    · subst h0
      rfl
    · simp only [Option.bind_some, Option.map_some, ne_eq, h0, not_false_eq_true, if_true]
      rfl

/-- The body of the loop is an attempt and the verification by its key. -/
theorem checkSubnode_eq (P : Primitives) (ctl fit : Blob) (k n : ℕ) : checkSubnode P ctl fit k n =
    (attempt P.calculate ctl fit n).map fun o => o.bind fun a =>
      if P.ecdsaVerifyKey a.1.info.crypto a.2.1 a.1.sig a.2.2 = 0 then some n else none := by
  unfold checkSubnode attempt
  rw [checkSig_keynode]
  cases namedAs fit fitSigNodename n with
  | none => rfl
  | some named =>
    cases named with
    | false => rfl
    | true =>
      cases hr : sigRequest fit n 0 with
      | none =>
        rw [fitConfigCheckSig, hr]
        rfl
      | some r =>
        cases r with
        | error e =>
          rw [fitConfigCheckSig, hr]
          rfl
        | ok r =>
          rw [checkSig_request P ctl fit n 0 r hr]
          cases hv : r.info.crypto.verify with
          | rsaVerify =>
            have hx : -enxio ≠ 0 := by decide
            simp [cryptoVerify, hv, hx]
          | ecdsaVerify =>
            simp only [cryptoVerify, hv, ecdsaVerify]
            cases hi : ecdsaInputs P.calculate ctl r.info r.contents with
            | none => simp [hv, hi]
            | some i =>
              cases i with
              | error e =>
                have he := ecdsaInputs_error P.calculate ctl r.info r.contents e hi
                simp [hv, hi, he]
              | ok i =>
                by_cases h0 : P.ecdsaVerifyKey r.info.crypto i.1 r.sig i.2 = 0
                · simp [hv, hi, h0]
                · simp [hv, hi, h0]

/-- The body of the loop over the key nodes, at a key that is required or not. -/
theorem checkKeyNode_none (P : Primitives) (ctl fit : Blob) (conf key : ℕ) :
    checkKeyNode P ctl fit conf key = some none ↔ requiredForConf ctl key = some false ∨
      requiredForConf ctl key = some true ∧ fitConfigVerifySig P ctl fit conf key = some 0 := by
  unfold checkKeyNode
  cases requiredForConf ctl key with
  | none => simp
  | some required =>
    cases required with
    | false => simp
    | true =>
      cases fitConfigVerifySig P ctl fit conf key with
      | none => simp
      | some ret => by_cases h0 : ret = 0 <;> simp [h0]

theorem verifySig_zero (P : Primitives) (ctl fit : Blob) (conf k : ℕ) :
    fitConfigVerifySig P ctl fit conf k = some 0 ↔ ∃ n, verifiedSig P ctl fit conf k = some (.ok n) := by
  unfold fitConfigVerifySig
  cases verifiedSig P ctl fit conf k with
  | none => simp
  | some r =>
    cases r with
    | ok n => simp
    | error e =>
      have h1 : -eperm ≠ 0 := by decide
      by_cases h : e = errTruncated ∨ e = errBadstructure <;> simp [h, h1]

/-! ## Required keys -/

/-- The node of the control tree that holds the keys. -/
def keyNodes (ctl : Blob) : List ℕ :=
  match subnodeOffset ctl 0 fitSigNodename with
  | none => []
  | some sigNode => if isNeg sigNode then [] else subnodes ctl sigNode

def requiredKeys (ctl : Blob) : List ℕ :=
  (keyNodes ctl).filter fun key => requiredForConf ctl key = some true

/-- The loop over the key nodes comes to its end if no signature is in its way. -/
def KeysRead (ctl : Blob) : Prop :=
  ∃ sigNode e, subnodeOffset ctl 0 fitSigNodename = some sigNode ∧ ¬isNeg sigNode ∧
    forSubnodes ctl sigNode (fun _ => some (none : Option ℤ)) = some (.error e) ∧
    ∀ key ∈ keyNodes ctl, requiredForConf ctl key ≠ none

/-- The signature of the node at `n` verifies under the public key of a key node. -/
structure VerifiesUnder (P : Primitives) (ctl fit : Blob) (n key : ℕ) : Prop where
  named : namedAs fit fitSigNodename n = some true
  verifies : ∃ r pubkey, sigRequest fit n key = some (.ok r) ∧ pubkeyOf ctl key = some (.ok pubkey) ∧
    r.info.crypto.verify = .ecdsaVerify ∧ r.info.checksum.checksumLen ≤ r.info.crypto.keyLen ∧
    0 ≤ (P.calculate r.info.checksum.name r.contents).1 ∧
    P.ecdsaVerifyKey r.info.crypto pubkey r.sig (P.calculate r.info.checksum.name r.contents).2 = 0

def RequiredKeysEnforced (P : Primitives) (ctl fit : Blob) (conf : ℕ) : Prop :=
  fitConfigVerifyRequiredSigs P ctl fit conf = some 0 →
    ∀ key ∈ requiredKeys ctl, ∃ n ∈ subnodes fit conf, VerifiesUnder P ctl fit n key

/-- The signature node at `n` is come to and gets as far as a public key. -/
def Tried (calculate : Checksum) (ctl fit : Blob) (conf n : ℕ) (pubkey : List UInt8) : Prop :=
  ∃ before after r hash, subnodes fit conf = before++n::after ∧
    (∀ m ∈ before, attempt calculate ctl fit m ≠ none) ∧
    attempt calculate ctl fit n = some (some (r, pubkey, hash))

theorem checkKeyNode_some (P : Primitives) (ctl fit : Blob) (conf key : ℕ) (ret : ℤ)
    (h : checkKeyNode P ctl fit conf key = some (some ret)) : ret ≠ 0 := by
  obtain ⟨required, -, h⟩ := Option.bind_eq_some_iff.mp h
  cases required with
  | false => cases h
  | true =>
    obtain ⟨ret', -, h⟩ := Option.bind_eq_some_iff.mp h
    by_cases h0 : ret' = 0
    · simp [h0] at h
    · simp only [ne_eq, h0, not_false_eq_true, if_true] at h
      cases h
      exact h0

/-- All keys are passed exactly if each required one finds a signature that checks. -/
theorem verifyRequiredSigs_zero (P : Primitives) (ctl fit : Blob) (conf : ℕ) (key : ℕ)
    (hkey : key ∈ requiredKeys ctl) : fitConfigVerifyRequiredSigs P ctl fit conf = some 0 ↔
      KeysRead ctl ∧ ∀ key ∈ requiredKeys ctl, fitConfigVerifySig P ctl fit conf key = some 0 := by
  have hmem := (List.mem_filter.mp hkey).1
  unfold keyNodes at hmem
  cases hs : subnodeOffset ctl 0 fitSigNodename with
  | none =>
    rw [hs] at hmem
    cases hmem
  | some sigNode =>
    rw [hs] at hmem
    by_cases hneg : isNeg sigNode
    · simp only [if_pos hneg] at hmem
      cases hmem
    have hkeys : keyNodes ctl = subnodes ctl sigNode := by simp only [keyNodes, hs, if_neg hneg]
    have hret : fitConfigVerifyRequiredSigs P ctl fit conf = some 0 ↔
        ∃ e, forSubnodes ctl sigNode (checkKeyNode P ctl fit conf) = some (.error e) := by
      unfold fitConfigVerifyRequiredSigs
      simp only [hs, Option.bind_eq_bind, Option.bind_some, if_neg hneg]
      cases hl : forSubnodes ctl sigNode (checkKeyNode P ctl fit conf) with
      | none => simp
      | some r =>
        cases r with
        | error e => simp
        | ok ret =>
          obtain ⟨-, n, -, -, -, hn⟩ := forSubnodes_ok ctl sigNode _ ret hl
          simp [checkKeyNode_some P ctl fit conf n ret hn]
    have hbody : (∀ m ∈ subnodes ctl sigNode, checkKeyNode P ctl fit conf m = some none) ↔
        (∀ key ∈ keyNodes ctl, requiredForConf ctl key ≠ none) ∧
          ∀ key ∈ requiredKeys ctl, fitConfigVerifySig P ctl fit conf key = some 0 := by
      rw [← hkeys]
      constructor
      · intro h
        refine ⟨fun m hm hnone => ?_, fun m hm => ?_⟩
        · rcases (checkKeyNode_none P ctl fit conf m).mp (h m hm) with h1 | ⟨h1, -⟩ <;> simp_all
        · obtain ⟨hm, hreq⟩ := List.mem_filter.mp hm
          rcases (checkKeyNode_none P ctl fit conf m).mp (h m hm) with h1 | ⟨-, h1⟩
          · simp [h1] at hreq
          · exact h1
      · rintro ⟨h1, h2⟩ m hm
        rw [checkKeyNode_none]
        cases hreq : requiredForConf ctl m with
        | none => exact absurd hreq (h1 m hm)
        | some required =>
          cases required with
          | false => exact .inl rfl
          | true => exact .inr ⟨rfl, h2 m (List.mem_filter.mpr ⟨hm, by simp [hreq]⟩)⟩
    rw [hret]
    constructor
    · rintro ⟨e, he⟩
      obtain ⟨h1, h2⟩ := (forSubnodes_error ctl sigNode _ e).mp he
      exact ⟨⟨sigNode, e, hs, hneg, h1, (hbody.mp h2).1⟩, (hbody.mp h2).2⟩
    · rintro ⟨⟨sigNode', e, hs', -, h1, h2⟩, h3⟩
      rw [hs, Option.some_inj] at hs'
      subst hs'
      exact ⟨e, (forSubnodes_error ctl sigNode _ e).mpr ⟨h1, hbody.mpr ⟨h2, h3⟩⟩⟩

/-- What an attempt that gets to a key has passed. -/
theorem attempt_some (calculate : Checksum) (ctl fit : Blob) (n : ℕ) (r : Request)
    (pubkey hash : List UInt8) (h : attempt calculate ctl fit n = some (some (r, pubkey, hash))) :
    namedAs fit fitSigNodename n = some true ∧ sigRequest fit n 0 = some (.ok r) ∧
      r.info.crypto.verify = .ecdsaVerify ∧ r.info.checksum.checksumLen ≤ r.info.crypto.keyLen ∧
      0 ≤ (calculate r.info.checksum.name r.contents).1 ∧
      hash = (calculate r.info.checksum.name r.contents).2 := by
  obtain ⟨named, hnamed, h⟩ := Option.bind_eq_some_iff.mp h
  cases named with
  | false => cases h
  | true =>
    obtain ⟨r', hr, h⟩ := Option.bind_eq_some_iff.mp h
    cases r' with
    | error e => cases h
    | ok r' =>
      cases hv : r'.info.crypto.verify with
      | rsaVerify =>
        simp only [hv] at h
        cases h
      | ecdsaVerify =>
        simp only [hv] at h
        obtain ⟨i, hi, h⟩ := Option.bind_eq_some_iff.mp h
        cases i with
        | error e => cases h
        | ok i =>
          cases h
          obtain ⟨hlen, hcalc, hhash⟩ := ecdsaInputs_ok calculate ctl r.info r.contents _ _ hi
          exact ⟨hnamed, hr, hv, hlen, hcalc, hhash⟩

/-! ## Enforcement -/

/-- A required key is enforced, whatever the verification by a key accepts,
exactly if every signature node that gets to a key names one with the required
key's public key. -/
theorem required_keys_enforced (calculate : Checksum) (ctl fit : Blob) (conf : ℕ) :
    (∀ verifyKey, RequiredKeysEnforced ⟨calculate, verifyKey⟩ ctl fit conf) ↔
      (KeysRead ctl → ∀ key ∈ requiredKeys ctl, ∀ n pubkey, Tried calculate ctl fit conf n pubkey →
        pubkeyOf ctl key = some (.ok pubkey)) := by
  constructor
  · intro h hread key hkey n pubkey ⟨before, after, r, hash, hlist, hbefore, hn⟩
    -- a verification that accepts just this public key
    let verifyKey : CryptoAlgo → List UInt8 → List UInt8 → List UInt8 → ℤ :=
      fun _ pk _ _ => if pk = pubkey then 0 else 1
    have hsig : ∀ k, fitConfigVerifySig ⟨calculate, verifyKey⟩ ctl fit conf k = some 0 := by
      intro k
      refine (verifySig_zero _ ctl fit conf k).mpr ?_
      refine forSubnodes_hit fit conf _ before after n n hlist (fun m hm => ?_) ?_
      · rw [checkSubnode_eq]
        simpa using hbefore m hm
      · rw [checkSubnode_eq]
        simp [hn, verifyKey]
    have hzero := (verifyRequiredSigs_zero _ ctl fit conf key hkey).mpr ⟨hread, fun k _ => hsig k⟩
    obtain ⟨m, -, hm⟩ := h verifyKey hzero key hkey
    obtain ⟨r', pubkey', -, hpub, -, -, -, hv⟩ := hm.verifies
    by_cases heq : pubkey' = pubkey
    · rw [hpub, heq]
    · simp [verifyKey, heq] at hv
  · intro h verifyKey hzero key hkey
    obtain ⟨hread, hsig⟩ := (verifyRequiredSigs_zero _ ctl fit conf key hkey).mp hzero
    obtain ⟨n', hn'⟩ := (verifySig_zero _ ctl fit conf key).mp (hsig key hkey)
    obtain ⟨before, n, after, hlist, hbefore, hn⟩ := forSubnodes_ok fit conf _ n' hn'
    rw [checkSubnode_eq] at hn
    obtain ⟨o, ho, hbind⟩ := Option.map_eq_some_iff.mp hn
    obtain ⟨⟨r, pubkey, hash⟩, rfl, hv⟩ := Option.bind_eq_some_iff.mp hbind
    obtain ⟨hnamed, hr, hec, hlen, hcalc, rfl⟩ := attempt_some calculate ctl fit n r pubkey hash ho
    have hclean : ∀ m ∈ before, attempt calculate ctl fit m ≠ none := by
      intro m hm hnone
      have hm' := hbefore m hm
      rw [checkSubnode_eq, hnone] at hm'
      cases hm'
    have hpub := h hread key hkey n pubkey ⟨before, after, r, _, hlist, hclean, ho⟩
    refine ⟨n, by rw [hlist]; simp, hnamed, r.require key, pubkey, ?_, hpub, hec, hlen, hcalc, ?_⟩
    · rw [sigRequest_keynode, hr]
      rfl
    · split_ifs at hv with h0
      exact h0

/-- A configuration `/configurations/conf` with the kernel `/images/k`, signed
by the key `dev`; only the root is hashed. -/
def devFit : Blob := ofWords
  [0xd00dfeed, 0x140, 0x28, 0x110, 0, 0x11, 0x10, 0, 0x2d, 0xe8,
    1, 0,
    -- `images`, `k` and `hash` with its `value`
    1, 0x696d6167, 0x65730000,
    1, 0x6b000000,
    1, 0x68617368, 0,
    3, 4, 0, 0x7000000,
    2, 2, 2,
    -- `configurations` and `conf` with its `kernel`
    1, 0x636f6e66, 0x69677572, 0x6174696f, 0x6e730000,
    1, 0x636f6e66, 0,
    3, 2, 6, 0x6b000000,
    -- `signature` with `algo`, `value`, `key-name-hint` and `hashed-nodes`
    1, 0x7369676e, 0x61747572, 0x65000000,
    3, 0x11, 0xd, 0x73686132, 0x35362c73, 0x65637032, 0x35367231, 0,
    3, 4, 0, 0x1020304,
    3, 4, 0x12, 0x64657600,
    3, 2, 0x20, 0x2f000000,
    2, 2, 2, 2, 9,
    0x76616c75, 0x65006b65, 0x726e656c, 0x616c67, 0x6f006b65, 0x792d6e61, 0x6d652d68, 0x696e7400,
    0x68617368, 0x65642d6e, 0x6f646573, 0]

/-- The keys `dev`, which is not required, and `prod`, which is. -/
def twoKeys : Blob := ofWords
  [0xd00dfeed, 0xb4, 0x28, 0xa4, 0, 0x11, 0x10, 0, 0x10, 0x7c,
    1, 0,
    1, 0x7369676e, 0x61747572, 0x65000000,
    -- `key-dev` with its `pubkey`
    1, 0x6b65792d, 0x64657600,
    3, 4, 0, 0x4010203,
    2,
    -- `key-prod` with `required` and `pubkey`
    1, 0x6b65792d, 0x70726f64, 0,
    3, 5, 7, 0x636f6e66, 0,
    3, 4, 0, 0x4090909,
    2, 2, 2, 9,
    0x7075626b, 0x65790072, 0x65717569, 0x72656400]

/-- Verification that accepts what the key `dev` has signed, and nothing else. -/
def devOnly : Primitives := ⟨fun _ _ => (0, []), fun _ pubkey _ _ => if pubkey = [4, 1, 2, 3] then 0 else 1⟩

/-- A signature by the key `dev` satisfies the required key `prod`. -/
theorem other_key_accepted : ¬RequiredKeysEnforced devOnly twoKeys devFit 88 := by
  intro h
  have hzero : fitConfigVerifyRequiredSigs devOnly twoKeys devFit 88 = some 0 := by decide +kernel
  have hkey : 56 ∈ requiredKeys twoKeys := by decide +kernel
  have hprod : pubkeyOf twoKeys 56 = some (.ok [4, 9, 9, 9]) := by decide +kernel
  obtain ⟨n, -, hn⟩ := h hzero 56 hkey
  obtain ⟨r, pubkey, -, hpub, -, -, -, hv⟩ := hn.verifies
  rw [hprod] at hpub
  cases hpub
  revert hv
  simp [devOnly]

end UBoot.Fit
