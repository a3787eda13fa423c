import UBoot.FitKeys

/-!
# What the accepted signature covers

A configuration is signed as a list of paths in its own signature node. The
bytes of the configuration and of the hash nodes of its images are hashed
exactly if that list selects them, or the string region of the node happens to
lie over them.
-/

set_option autoImplicit false

namespace UBoot.Fit
open UBoot.Fdt

/-! ## What is booted -/

/-- The images that a configuration refers to. -/
def confImages (fit : Blob) (conf : ℕ) : List ℕ :=
  [text "kernel", text "fdt", text "ramdisk"].filterMap fun prop =>
    (fitConfGetPropNode fit conf prop).filter fun image => ¬isNeg image

def hashNodes (fit : Blob) (image : ℕ) : List ℕ :=
  (subnodes fit image).filter fun n => namedAs fit (text "hash") n = some true

/-- A tag of the configuration itself or of a hash node of one of its images. -/
def Booted (fit : Blob) (conf : ℕ) (i : Item) : Prop :=
  match i.owner with
  | none => False
  | some node => node.1 = conf ∨ ∃ image ∈ confImages fit conf, node.1 ∈ hashNodes fit image

instance (fit : Blob) (conf : ℕ) (i : Item) : Decidable (Booted fit conf i) := by
  unfold Booted
  cases i.owner <;> infer_instance

/-- A byte is hashed for one of the regions. -/
def Hashed (regions : List Region) (a : ℕ) : Prop := ∃ r ∈ regions, r.Has a

/-- All that is booted is hashed, and so cannot be changed without changing what is hashed. -/
structure Covers (fit : Blob) (conf : ℕ) (regions : List Region) : Prop where
  hashed : ∀ i ∈ allItems fit, Booted fit conf i → ∀ x < i.next, i.offset ≤ x →
    Hashed regions (offDtStruct fit+x)
  fixed : ∀ fit' : Blob, regions.map (regionBytes fit') = regions.map (regionBytes fit) →
    ∀ i ∈ allItems fit, Booted fit conf i → ∀ x < i.next, i.offset ≤ x →
      byteAt fit' (offDtStruct fit+x) = byteAt fit (offDtStruct fit+x)

theorem hashed_byte (fit fit' : Blob) (regions : List Region) (a : ℕ) (h : Hashed regions a)
    (heq : regions.map (regionBytes fit') = regions.map (regionBytes fit)) :
    byteAt fit' a = byteAt fit a := by
  obtain ⟨r, hr, j, hj, haddr⟩ := h
  have hbytes : memory fit' r.offset r.size = memory fit r.offset r.size :=
    List.map_eq_map_iff.mp heq r hr
  have hat : byteAt fit' (r.offset+j) = byteAt fit (r.offset+j) :=
    List.map_eq_map_iff.mp hbytes j (List.mem_range.mpr hj)
  rw [byteAt, byteAt, haddr] at hat
  exact hat

/-! ## What is listed -/

/-- A byte is in the string region of a signature node. -/
def StringsHave (fit : Blob) (n a : ℕ) : Prop :=
  match lookup fit n (text "hashed-strings") with
  | some (some v) => (stringsRegion fit v).Has a
  | _ => False

instance (fit : Blob) (n a : ℕ) : Decidable (StringsHave fit n a) := by
  unfold StringsHave
  split <;> infer_instance

instance (b : Blob) (q : Search) (i : Item) : Decidable (Selected b q i) :=
  inferInstanceAs (Decidable (_ ∨ _ ∨ _))

/-- The signature node at `n` has all that is booted hashed. -/
def ListsBooted (fit : Blob) (conf n : ℕ) : Prop :=
  ∃ inc, hashedNodes fit n = some (.ok inc) ∧ ∀ i ∈ allItems fit, Booted fit conf i →
    Selected fit (configSearch inc) i ∨
      ∀ x < i.next, i.offset ≤ x → StringsHave fit n (offDtStruct fit+x)

theorem configRegions_list (fit : Blob) (n : ℕ) (inc : List Name) (regions : List Region)
    (h : configRegions fit n inc = some (.ok regions)) : ∃ count region strings,
      findRegions fit (configSearch inc) = some (.ok (count, region)) ∧
      count+1 ≤ 20+inc.length*7-1 ∧ lookup fit n (text "hashed-strings") = some strings ∧
      regions = (List.range count).map region ++ strings.toList.map (stringsRegion fit) := by
  unfold configRegions at h
  rw [Outcome.lift_bind] at h
  obtain ⟨found, hf, h⟩ := Option.bind_eq_some_iff.mp h
  cases found with
  | error e => cases h
  | ok found =>
    obtain ⟨count, region⟩ := found
    dsimp only at h
    split_ifs at h with h1 h2
    · cases h
    · cases h
    rw [Outcome.lift_bind] at h
    obtain ⟨strings, hs, h⟩ := Option.bind_eq_some_iff.mp h
    cases h
    exact ⟨count, region, strings, hf, by omega, hs, rfl⟩

theorem configRegions_ok (fit : Blob) (n : ℕ) (inc : List Name) (regions : List Region)
    (h : configRegions fit n inc = some (.ok regions)) :
    ∃ count region, findRegions fit (configSearch inc) = some (.ok (count, region)) ∧
      count ≤ (configSearch inc).maxRegions ∧
      ∀ a, Hashed regions a ↔ Reads count region a ∨ StringsHave fit n a := by
  obtain ⟨count, region, strings, hf, hmax, hs, rfl⟩ := configRegions_list fit n inc regions h
  refine ⟨count, region, hf, ?_, fun a => ?_⟩
  · simp only [configSearch]
    omega
  · cases strings with
    | none => simp [Hashed, Reads, StringsHave, hs]
    | some v => simp [Hashed, Reads, StringsHave, hs, or_and_right, exists_or]

theorem sigRequest_regions (fit : Blob) (n k : ℕ) (r : Request)
    (h : sigRequest fit n k = some (.ok r)) : ∃ info value inc,
      fitImageSetupVerify fit n k = some (.ok info) ∧
      need "Can't get hash value property" (fitImageHashGetValue fit n) = some (.ok value) ∧
      hashedNodes fit n = some (.ok inc) ∧ configRegions fit n inc = some (.ok r.regions) := by
  obtain ⟨info, hinfo, h⟩ := Outcome.bind_ok _ _ r h
  obtain ⟨value, hvalue, h⟩ := Outcome.bind_ok _ _ r h
  obtain ⟨inc, hinc, h⟩ := Outcome.bind_ok _ _ r h
  obtain ⟨regions, hregions, h⟩ := Outcome.bind_ok _ _ r h
  cases h
  exact ⟨info, value, inc, hinfo, hvalue, hinc, hregions⟩

/-- All that is booted is hashed exactly if it is listed. -/
theorem covers_iff (fit : Blob) (hb : Rooted fit) (conf n k : ℕ) (r : Request)
    (h : sigRequest fit n k = some (.ok r)) : Covers fit conf r.regions ↔ ListsBooted fit conf n := by
  obtain ⟨-, -, inc, -, -, hinc, hregions⟩ := sigRequest_regions fit n k r h
  obtain ⟨count, region, hf, hcount, hhashed⟩ := configRegions_ok fit n inc r.regions hregions
  have hitem := findRegions_covers fit hb (configSearch inc) count region hf hcount
  constructor
  · intro hc
    refine ⟨inc, hinc, fun i hi hboot => ?_⟩
    by_cases hsel : Selected fit (configSearch inc) i
    · exact .inl hsel
    · refine .inr fun x hx hox => ?_
      rcases (hhashed _).mp (hc.hashed i hi hboot x hx hox) with hreads | hstr
      · exact absurd ((hitem i hi x hox hx).mp hreads) hsel
      · exact hstr
  · rintro ⟨inc', hinc', hlist⟩
    rw [hinc] at hinc'
    cases hinc'
    have hall : ∀ i ∈ allItems fit, Booted fit conf i → ∀ x < i.next, i.offset ≤ x →
        Hashed r.regions (offDtStruct fit+x) := by
      intro i hi hboot x hx hox
      rw [hhashed]
      rcases hlist i hi hboot with hsel | hstr
      · exact .inl ((hitem i hi x hox hx).mpr hsel)
      · exact .inr (hstr x hx hox)
    exact ⟨hall, fun fit' heq i hi hboot x hx hox =>
      hashed_byte fit fit' r.regions _ (hall i hi hboot x hx hox) heq⟩

/-! ## Accepted configurations -/

/-- A configuration that is accepted while a key is required is hashed as a
whole for the signature it is accepted on. -/
def ConfigCovered (force : Bool) (P : Primitives) (ctl fit : Blob) (conf : ℕ) : Prop :=
  requiredKeys ctl ≠ [] → fitConfigVerify force P ctl fit conf = some 0 →
    ∃ n r, verifiedSig P ctl fit conf 4294967295 = some (.ok n) ∧
      sigRequest fit n 4294967295 = some (.ok r) ∧ Covers fit conf r.regions

theorem verifiedSig_keynode (P : Primitives) (ctl fit : Blob) (conf k k' : ℕ) :
    verifiedSig P ctl fit conf k = verifiedSig P ctl fit conf k' := by
  unfold verifiedSig
  congr 1
  funext n
  rw [checkSubnode_eq, checkSubnode_eq]

/-- With a required key both builds look for one signature that checks. -/
theorem configVerify_zero (force : Bool) (P : Primitives) (ctl fit : Blob) (conf : ℕ)
    (hreq : requiredKeys ctl ≠ []) : fitConfigVerify force P ctl fit conf = some 0 ↔
      (force = false → KeysRead ctl) ∧ ∃ n, verifiedSig P ctl fit conf 4294967295 = some (.ok n) := by
  cases force with
  | true => simp [fitConfigVerify, verifySig_zero]
  | false =>
    obtain ⟨key, hkey⟩ := List.exists_mem_of_ne_nil _ hreq
    have hall : (∀ key ∈ requiredKeys ctl, fitConfigVerifySig P ctl fit conf key = some 0) ↔
        ∃ n, verifiedSig P ctl fit conf 4294967295 = some (.ok n) := by
      simp only [verifySig_zero, verifiedSig_keynode P ctl fit conf _ 4294967295]
      exact ⟨fun h => h key hkey, fun h _ _ => h⟩
    simp [fitConfigVerify, verifyRequiredSigs_zero P ctl fit conf key hkey, hall]

/-- The signature node that is found has a request and a name. -/
theorem verifiedSig_request (P : Primitives) (ctl fit : Blob) (conf n : ℕ)
    (h : verifiedSig P ctl fit conf 4294967295 = some (.ok n)) :
    ∃ r, sigRequest fit n 4294967295 = some (.ok r) ∧ checkHeader fit = 0 := by
  obtain ⟨-, m, -, -, -, hm⟩ := forSubnodes_ok fit conf _ n h
  rw [checkSubnode_eq] at hm
  obtain ⟨o, ho, hbind⟩ := Option.map_eq_some_iff.mp hm
  obtain ⟨⟨r, pubkey, hash⟩, rfl, hv⟩ := Option.bind_eq_some_iff.mp hbind
  obtain ⟨hnamed, hr, -⟩ := attempt_some P.calculate ctl fit m r pubkey hash ho
  split_ifs at hv with h0
  cases hv
  refine ⟨r.require 4294967295, by rw [sigRequest_keynode, hr]; rfl, ?_⟩
  obtain ⟨p, hp, -⟩ := Option.map_eq_some_iff.mp hnamed
  unfold getName at hp
  split_ifs at hp with h1
  push Not at h1
  exact h1.1

/-- What is booted is covered exactly if the signature node that is found lists it. -/
theorem config_covered (force : Bool) (P : Primitives) (ctl fit : Blob) (conf : ℕ)
    (hconf : IsNode fit conf) : ConfigCovered force P ctl fit conf ↔
      (requiredKeys ctl ≠ [] → (force = false → KeysRead ctl) →
        ∀ n, verifiedSig P ctl fit conf 4294967295 = some (.ok n) → ListsBooted fit conf n) := by
  constructor
  · intro h hreq hread n hn
    obtain ⟨n', r, hn', hr, hcov⟩ :=
      h hreq ((configVerify_zero force P ctl fit conf hreq).mpr ⟨hread, n, hn⟩)
    rw [hn] at hn'
    cases hn'
    obtain ⟨-, -, hheader⟩ := verifiedSig_request P ctl fit conf n hn
    exact (covers_iff fit (hconf.rooted fit conf hheader) conf n _ r hr).mp hcov
  · intro h hreq hzero
    obtain ⟨hread, n, hn⟩ := (configVerify_zero force P ctl fit conf hreq).mp hzero
    obtain ⟨r, hr, hheader⟩ := verifiedSig_request P ctl fit conf n hn
    refine ⟨n, r, hn, hr, ?_⟩
    exact (covers_iff fit (hconf.rooted fit conf hheader) conf n _ r hr).mpr (h hreq hread n hn)

/-- The key `dev`, which is required. -/
def devKey : Blob := ofWords
  [0xd00dfeed, 0x90, 0x28, 0x80, 0, 0x11, 0x10, 0, 0x10, 0x58,
    1, 0,
    1, 0x7369676e, 0x61747572, 0x65000000,
    -- `key-dev` with `required` and `pubkey`
    1, 0x6b65792d, 0x64657600,
    3, 5, 0, 0x636f6e66, 0,
    3, 4, 9, 0x4010203,
    2, 2, 2, 9,
    0x72657175, 0x69726564, 0x707562, 0x6b657900]

/-- The configuration of `devFit` with its own path and that of the hash node listed. -/
def listedFit : Blob := ofWords
  [0xd00dfeed, 0x160, 0x28, 0x130, 0, 0x11, 0x10, 0, 0x2d, 0x108,
    1, 0,
    1, 0x696d6167, 0x65730000,
    1, 0x6b000000,
    1, 0x68617368, 0,
    3, 4, 0, 0x7000000,
    2, 2, 2,
    1, 0x636f6e66, 0x69677572, 0x6174696f, 0x6e730000,
    1, 0x636f6e66, 0,
    3, 2, 6, 0x6b000000,
    1, 0x7369676e, 0x61747572, 0x65000000,
    3, 0x11, 0xd, 0x73686132, 0x35362c73, 0x65637032, 0x35367231, 0,
    3, 4, 0, 0x1020304,
    3, 4, 0x12, 0x64657600,
    3, 0x24, 0x20, 0x2f636f6e, 0x66696775, 0x72617469, 0x6f6e732f, 0x636f6e66, 0x2f696d, 0x61676573,
    0x2f6b2f68, 0x61736800,
    2, 2, 2, 2, 9,
    0x76616c75, 0x65006b65, 0x726e656c, 0x616c67, 0x6f006b65, 0x792d6e61, 0x6d652d68, 0x696e7400,
    0x68617368, 0x65642d6e, 0x6f646573, 0]

/-- A configuration that lists itself and the hash node of its kernel is covered. -/
theorem config_covered_listed : IsNode listedFit 88 ∧
    fitConfigVerify true devOnly devKey listedFit 88 = some 0 ∧
    ConfigCovered true devOnly devKey listedFit 88 := by
  have hnode : IsNode listedFit 88 := isNode_of_item listedFit 88 (by decide +kernel)
  refine ⟨hnode, by decide +kernel, ?_⟩
  refine (config_covered true devOnly devKey listedFit 88 hnode).mpr fun _ _ n hn => ?_
  have hsig : verifiedSig devOnly devKey listedFit 88 4294967295 = some (.ok 116) := by
    decide +kernel
  rw [hsig] at hn
  cases hn
  exact ⟨[text "/configurations/conf", text "/images/k/hash"], by decide +kernel, by decide +kernel⟩

/-- With only the root listed nothing of the configuration is hashed. -/
theorem root_only_accepted : ¬ConfigCovered true devOnly devKey devFit 88 := by
  intro h
  have hreq : requiredKeys devKey ≠ [] := by decide +kernel
  have hzero : fitConfigVerify true devOnly devKey devFit 88 = some 0 := by decide +kernel
  have hsig : verifiedSig devOnly devKey devFit 88 4294967295 = some (.ok 116) := by decide +kernel
  have hnode : IsNode devFit 88 := isNode_of_item devFit 88 (by decide +kernel)
  obtain ⟨n, r, hn, hr, hcov⟩ := h hreq hzero
  rw [hsig] at hn
  cases hn
  obtain ⟨inc, hinc, hlist⟩ :=
    (covers_iff devFit (hnode.rooted devFit 88 (by decide +kernel)) 88 116 _ r hr).mp hcov
  have hroot : hashedNodes devFit 116 = some (.ok [text "/"]) := by decide +kernel
  rw [hroot] at hinc
  cases hinc
  revert hlist
  decide +kernel

end UBoot.Fit
