import UBoot.FdtSafety
import UBoot.FitCoverage

/-!
# The lists of `fit_config_check_sig`

The number of paths in `hashed-nodes` is that of its NUL bytes, and the paths
are then taken one behind another until the end of the property. A property
that does not end with a NUL byte gives one path more than there is room for.
The regions of the structure block end with the block; the region of the
strings is where the signature node says.
-/

set_option autoImplicit false

namespace UBoot.Fit
open UBoot.Fdt

/-- The length of a property as the loops take it. -/
def loopLen (v : Value) : ℕ := if isNeg v.len then 0 else v.len

/-- The first loop over `hashed-nodes`. -/
def nulCount (fit : Blob) (v : Value) : ℕ := (memory fit v.data (loopLen v)).count 0

/-- Where the strings that the second loop takes start. -/
def startsFrom (b : Blob) : ℕ → ℕ → ℕ → List ℕ
  | 0, _, _ => []
  | fuel+1, a, stop =>
    if stop ≤ a then [] else a::startsFrom b fuel (a+(cstrAt b a).length+1) stop

def nodeIncStarts (fit : Blob) (v : Value) : List ℕ :=
  startsFrom fit (loopLen v) v.data (v.data+loopLen v)

/-! ## Strings and NUL bytes -/

theorem cstr_nonzero (b : Blob) (fuel a i : ℕ) (hi : i < (cstr b fuel a).length) :
    byteAt b (a+i) ≠ 0 := by
  induction fuel generalizing a i with
  | zero => simp [cstr] at hi
  | succ fuel ih =>
    rw [cstr] at hi
    split_ifs at hi with h0
    · simp at hi
    · cases i with
      | zero => exact h0
      | succ i =>
        have := ih (a+1) i (by simpa using hi)
        rwa [Nat.add_right_comm] at this

theorem cstr_end (b : Blob) (fuel a : ℕ) (h : (cstr b fuel a).length < fuel) :
    byteAt b (a+(cstr b fuel a).length) = 0 := by
  induction fuel generalizing a with
  | zero => simp [cstr] at h
  | succ fuel ih =>
    rw [cstr] at h ⊢
    split_ifs at h ⊢ with h0
    · exact h0
    · have := ih (a+1) (by simpa using h)
      rwa [List.length_cons, Nat.add_comm (List.length _), ← Nat.add_assoc]

theorem memory_split (b : Blob) (a m n : ℕ) :
    memory b a (m+n) = memory b a m ++ memory b (a+m) n := by
  simp only [memory, List.range_add, List.map_append, List.map_map]
  congr 2
  funext i
  simp [Nat.add_assoc]

theorem count_memory_zero (b : Blob) (a n : ℕ) (h : ∀ i < n, byteAt b (a+i) ≠ 0) :
    (memory b a n).count 0 = 0 := by
  rw [List.count_eq_zero, memory, List.mem_map]
  rintro ⟨i, hi, he⟩
  exact h i (List.mem_range.mp hi) he

/-- The strings are as many as the NUL bytes, and all have their end, exactly if the last byte
is a NUL byte. -/
theorem starts_terminated_iff (b : Blob) (fuel a stop : ℕ) (hf : stop ≤ a+fuel) (hlt : a < stop)
    (hsmall : stop-a < 4294967296) :
    ((startsFrom b fuel a stop).length = (memory b a (stop-a)).count 0 ∧
      ∀ p ∈ startsFrom b fuel a stop, p+(cstrAt b p).length < stop) ↔ byteAt b (stop-1) = 0 := by
  induction fuel generalizing a with
  | zero => omega
  | succ fuel ih =>
    have hnz : ∀ i < (cstrAt b a).length, byteAt b (a+i) ≠ 0 := fun i hi => cstr_nonzero b _ a i hi
    rw [startsFrom, if_neg (by omega)]
    by_cases hin : a+(cstrAt b a).length < stop
    · have hend : byteAt b (a+(cstrAt b a).length) = 0 := by
        apply cstr_end
        rw [← cstrAt]
        omega
      have hcount : (memory b a (stop-a)).count 0 =
          (memory b (a+(cstrAt b a).length+1) (stop-(a+(cstrAt b a).length+1))).count 0+1 := by
        rw [show stop-a = (cstrAt b a).length+(1+(stop-(a+(cstrAt b a).length+1))) by omega,
          memory_split, memory_split, List.count_append, count_memory_zero b a _ hnz, List.count_append]
        simp only [memory, List.range_one, List.map_cons, List.map_nil, Nat.add_zero, hend]
        simp [Nat.add_comm]
      by_cases hlast : a+(cstrAt b a).length+1 = stop
      · have hz : byteAt b (stop-1) = 0 := by
          rw [← hlast, Nat.add_sub_cancel]
          exact hend
        have hrest : startsFrom b fuel (a+(cstrAt b a).length+1) stop = [] := by
          cases fuel with
          | zero => rfl
          | succ fuel => rw [startsFrom, if_pos (by omega)]
        rw [hcount, hrest, hlast, Nat.sub_self]
        simp only [hz, iff_true]
        refine ⟨by simp [memory], ?_⟩
        intro p hp
        rw [List.mem_singleton.mp hp]
        exact hin
      · rw [hcount, List.length_cons, Nat.add_right_cancel_iff,
          ← ih (a+(cstrAt b a).length+1) (by omega) (by omega) (by omega)]
        simp [hin]
    · have hlen : (memory b a (stop-a)).count 0 = 0 :=
        count_memory_zero b a _ fun i hi => hnz i (by omega)
      have hz : byteAt b (stop-1) ≠ 0 := by
        have := hnz (stop-1-a) (by omega)
        rwa [show a+(stop-1-a) = stop-1 by omega] at this
      simp [hlen, hz]

/-! ## The regions of the structure block -/

/-- The last region starts where the address of the structure block wraps. -/
def Wraps (b : Blob) (q : Search) : Prop :=
  ∃ w nx s, findLoop b q walkFuel 0 startWalk = some (.ok (w, nx)) ∧ w.start = some s ∧
    4294967296 ≤ offDtStruct b+s

theorem reached_low (b : Blob) (q : Search) (o : ℕ) (w : Walk) (h : Reached b q o w)
    (hh : checkHeader b = 0) (ho : o ≠ 0) : offDtStruct b ≤ totalsize b := by
  cases h with
  | start => exact absurd rfl ho
  | step o w w' hr _ ht =>
    have hle := (hr.spot b q o w hh).le
    obtain ⟨-, -, -, -, hin, -⟩ := nextTag_cases b o (by omega) ht
    omega

/-- The regions that are found are inside of the blob exactly if the structure block is, or its
last region is on the other side of the wrap. -/
theorem findRegions_inside_iff (b : Blob) (q : Search) (hh : checkHeader b = 0) (count : ℕ)
    (region : ℕ → Region) (h : findRegions b q = some (.ok (count, region)))
    (hmax : count ≤ q.maxRegions) :
    (∀ k < count, (region k).offset+(region k).size ≤ totalsize b) ↔
      offDtStruct b+sizeDtStruct b ≤ totalsize b ∨ Wraps b q := by
  obtain ⟨w, hl, heq⟩ := findRegions_loop b q count region h
  obtain ⟨last, wl, hr, ht, hn, hw⟩ := findLoop_last b q walkFuel 0 startWalk w _ .start hl
  have hmark := mark_taken b q wl last (sizeDtStruct b) (hr.kept b q last wl hh)
  rw [← hw] at hmark
  obtain ⟨hstored, s, hstart, hle, hin⟩ := hmark
  have hspot := hr.spot b q last wl hh
  have hspotle := hspot.le
  have hfits := hspot.fits
  obtain ⟨hge, -, htrunc⟩ := nextTag_done b last hspot.le hspot.aligned ht
  have hlow := reached_low b q last wl hr hh
  have htot : totalsize b < 4294967296 := fdt32_lt b 4
  have hbase : offDtStruct b < 4294967296 := fdt32_lt b 8
  have hsize : sizeDtStruct b < 4294967296 := fdt32_lt b 36
  rw [← hn] at hge
  have hcount : count = w.count+1 := congrArg Prod.fst heq
  have hregion : region = (closeWalk b q w (sizeDtStruct b)).2 := congrArg Prod.snd heq
  have hlast := closeWalk_last b q w (sizeDtStruct b) s hstart (by omega)
  have hminus : minus (sizeDtStruct b) s = sizeDtStruct b-s := by
    unfold minus w32
    omega
  rw [hminus] at hlast
  -- the last region decides
  have hend : (∀ k < count, (region k).offset+(region k).size ≤ totalsize b) ↔
      w32 (offDtStruct b+s)+(sizeDtStruct b-s) ≤ totalsize b := by
    constructor
    · intro hall
      have := hall w.count (by omega)
      rwa [hregion, hlast] at this
    · intro hlt k hk
      rw [hregion]
      by_cases hkc : k = w.count
      · rw [hkc, hlast]
        exact hlt
      · rw [closeWalk_stored b q w _ k (by omega)]
        exact (hstored k (by omega) (by omega)).2
  rw [hend]
  by_cases hwrap : 4294967296 ≤ offDtStruct b+s
  · have hs : s = last := by omega
    have htr := htrunc (by omega)
    have h8 : errTruncated = 4294967288 := by decide
    rw [← hn, h8] at htr
    have := hlow (by omega)
    constructor
    · intro _
      exact .inr ⟨w, _, s, hl, hstart, hwrap⟩
    · intro _
      unfold w32
      omega
  · rw [w32_of_lt _ (by omega)]
    constructor
    · intro hlt
      exact .inl (by omega)
    · rintro (hlt | ⟨w', nx', s', hl', hstart', hwrap'⟩)
      · omega
      · rw [hl] at hl'
        cases hl'
        rw [hstart] at hstart'
        cases hstart'
        exact absurd hwrap' hwrap

/-! ## The lists -/

/-- The code comes to the loop that fills `node_inc` from the property `v`. -/
structure Fills (fit : Blob) (n k : ℕ) (v : Value) : Prop where
  setup : ∃ info, fitImageSetupVerify fit n k = some (.ok info)
  value : ∃ value, fitImageHashGetValue fit n = some (some value)
  found : lookup fit n (text "hashed-nodes") = some (some v)
  some : 0 < nulCount fit v
  most : nulCount fit v ≤ imageMaxHashedNodes

/-- `node_inc` gets as many strings as it has room for, each with its end in the property, and the
regions that go to the verifier are in their array and in the FIT. -/
structure Contained (fit : Blob) (n k : ℕ) : Prop where
  filled : ∀ v, Fills fit n k v → (nodeIncStarts fit v).length = nulCount fit v ∧
    ∀ p ∈ nodeIncStarts fit v, p+(cstrAt fit p).length < v.data+loopLen v
  regions : ∀ r, sigRequest fit n k = some (.ok r) →
    (∀ x ∈ r.regions, x.offset+x.size ≤ totalsize fit) ∧
    ∃ v, Fills fit n k v ∧ r.regions.length ≤ 20+nulCount fit v*7

/-- The property ends with a NUL byte; the structure block and the strings are in the FIT. -/
structure WithinFit (fit : Blob) (n k : ℕ) : Prop where
  ended : ∀ v, Fills fit n k v → byteAt fit (v.data+loopLen v-1) = 0
  block : ∀ r inc, sigRequest fit n k = some (.ok r) → hashedNodes fit n = some (.ok inc) →
    offDtStruct fit+sizeDtStruct fit ≤ totalsize fit ∨ Wraps fit (configSearch inc)
  strings : ∀ r v, sigRequest fit n k = some (.ok r) →
    lookup fit n (text "hashed-strings") = some (some v) →
    (stringsRegion fit v).offset+(stringsRegion fit v).size ≤ totalsize fit

theorem filled_iff (fit : Blob) (n k : ℕ) (v : Value) (h : Fills fit n k v) :
    ((nodeIncStarts fit v).length = nulCount fit v ∧
      ∀ p ∈ nodeIncStarts fit v, p+(cstrAt fit p).length < v.data+loopLen v) ↔
      byteAt fit (v.data+loopLen v-1) = 0 := by
  have hpos : 0 < loopLen v := by
    have hle := List.count_le_length (a := (0 : UInt8)) (l := memory fit v.data (loopLen v))
    have hlen : (memory fit v.data (loopLen v)).length = loopLen v := by simp [memory]
    have := h.some
    unfold nulCount at this
    omega
  have hsmall : loopLen v < 4294967296 := by
    unfold loopLen
    split_ifs with hneg
    · decide
    · unfold isNeg at hneg
      omega
  have hs := starts_terminated_iff fit (loopLen v) v.data (v.data+loopLen v) (le_refl _) (by omega)
    (by omega)
  rwa [Nat.add_sub_cancel_left] at hs

theorem hashedNodes_ok (fit : Blob) (n : ℕ) (inc : List Name)
    (h : hashedNodes fit n = some (.ok inc)) : ∃ v, lookup fit n (text "hashed-nodes") = some (some v) ∧
      0 < nulCount fit v ∧ nulCount fit v ≤ imageMaxHashedNodes ∧ inc.length ≤ nulCount fit v := by
  unfold hashedNodes at h
  rw [Outcome.lift_bind] at h
  obtain ⟨prop, hp, h⟩ := Option.bind_eq_some_iff.mp h
  cases prop with
  | none => cases h
  | some v =>
    simp only [show (if isNeg v.len then 0 else v.len) = loopLen v from rfl] at h
    split_ifs at h with h0 h1 h2
    · cases h
    · cases h
    · cases h
      exact ⟨v, hp, Nat.pos_of_ne_zero h0, not_lt.mp h1, not_lt.mp h2⟩

theorem sigRequest_fills (fit : Blob) (n k : ℕ) (r : Request) (h : sigRequest fit n k = some (.ok r)) :
    ∃ inc v, hashedNodes fit n = some (.ok inc) ∧ configRegions fit n inc = some (.ok r.regions) ∧
      Fills fit n k v ∧ inc.length ≤ nulCount fit v := by
  obtain ⟨info, value, inc, hinfo, hvalue, hinc, hregions⟩ := sigRequest_regions fit n k r h
  obtain ⟨v, hv, h0, hmost, hlen⟩ := hashedNodes_ok fit n inc hinc
  refine ⟨inc, v, hinc, hregions, ⟨⟨info, hinfo⟩, ⟨value, ?_⟩, hv, h0, hmost⟩, hlen⟩
  cases hg : fitImageHashGetValue fit n with
  | none =>
    rw [hg] at hvalue
    cases hvalue
  | some w =>
    rw [hg] at hvalue
    cases w with
    | none => cases hvalue
    | some w =>
      cases hvalue
      rfl

/-- The regions that are handed on are in the FIT. -/
theorem regions_inside_iff (fit : Blob) (hh : checkHeader fit = 0) (n k : ℕ) (r : Request)
    (h : sigRequest fit n k = some (.ok r)) : (∀ x ∈ r.regions, x.offset+x.size ≤ totalsize fit) ↔
      (∀ inc, hashedNodes fit n = some (.ok inc) →
        offDtStruct fit+sizeDtStruct fit ≤ totalsize fit ∨ Wraps fit (configSearch inc)) ∧
      ∀ v, lookup fit n (text "hashed-strings") = some (some v) →
        (stringsRegion fit v).offset+(stringsRegion fit v).size ≤ totalsize fit := by
  obtain ⟨inc, v, hinc, hregions, -, -⟩ := sigRequest_fills fit n k r h
  obtain ⟨count, region, strings, hf, hmax, hs, hr⟩ := configRegions_list fit n inc r.regions hregions
  have hblock := findRegions_inside_iff fit (configSearch inc) hh count region hf
    (by simp only [configSearch]; omega)
  simp only [hr, List.mem_append, List.mem_map, List.mem_range, hs, Option.some.injEq]
  constructor
  · intro hall
    constructor
    · intro inc' hinc'
      rw [hinc] at hinc'
      cases hinc'
      exact hblock.mp fun i hi => hall _ (.inl ⟨i, hi, rfl⟩)
    · rintro v rfl
      exact hall _ (.inr ⟨v, by simp, rfl⟩)
  · rintro ⟨hreg, hstr⟩ x (⟨i, hi, rfl⟩ | ⟨v, hv, rfl⟩)
    · exact hblock.mpr (hreg inc hinc) i hi
    · exact hstr v (Option.mem_toList.mp hv)

/-- The lists are kept to their arrays, the property and the FIT exactly if these say so. -/
theorem contained_iff (fit : Blob) (hh : checkHeader fit = 0) (n k : ℕ) :
    Contained fit n k ↔ WithinFit fit n k := by
  constructor
  · intro h
    constructor
    case ended =>
      intro v hv
      exact (filled_iff fit n k v hv).mp (h.filled v hv)
    case block =>
      intro r inc hr hinc
      exact ((regions_inside_iff fit hh n k r hr).mp (h.regions r hr).1).1 inc hinc
    case strings =>
      intro r v hr hv
      exact ((regions_inside_iff fit hh n k r hr).mp (h.regions r hr).1).2 v hv
  · intro h
    constructor
    case filled =>
      intro v hv
      exact (filled_iff fit n k v hv).mpr (h.ended v hv)
    case regions =>
      intro r hr
      refine ⟨(regions_inside_iff fit hh n k r hr).mpr ⟨fun inc hinc => h.block r inc hr hinc,
        fun v hv => h.strings r v hr hv⟩, ?_⟩
      -- a list that is full is refused before the region of the strings is added
      obtain ⟨inc, v, -, hregions, hv, hlen⟩ := sigRequest_fills fit n k r hr
      obtain ⟨count, region, strings, -, hmax, -, hlist⟩ :=
        configRegions_list fit n inc r.regions hregions
      refine ⟨v, hv, ?_⟩
      have hstr : strings.toList.length ≤ 1 := by cases strings <;> simp
      rw [hlist, List.length_append, List.length_map, List.length_map, List.length_range]
      omega

/-- Three signature nodes: the second asks for more strings than there are, and the `hashed-nodes`
of the third have no end. -/
def threeSigs : Blob := ofWords
  [0xd00dfeed, 0x184, 0x28, 0x15c, 0, 0x11, 0x10, 0, 0x27, 0x134,
    1, 0,
    1, 0x7369676e, 0x61747572, 0x65403100,
    3, 0x11, 0, 0x73686132, 0x35362c73, 0x65637032, 0x35367231, 0, 3, 4, 5, 0x1020304,
    3, 2, 0xb, 0x2f000000, 3, 8, 0x18, 0, 8, 2,
    1, 0x7369676e, 0x61747572, 0x65403200,
    3, 0x11, 0, 0x73686132, 0x35362c73, 0x65637032, 0x35367231, 0, 3, 4, 5, 0x1020304,
    3, 2, 0xb, 0x2f000000, 3, 8, 0x18, 0, 0x1000, 2,
    1, 0x7369676e, 0x61747572, 0x65403300,
    3, 0x11, 0, 0x73686132, 0x35362c73, 0x65637032, 0x35367231, 0, 3, 4, 5, 0x1020304,
    3, 4, 0xb, 0x2f002f63, 2,
    2, 9,
    0x616c676f, 0x76616c, 0x75650068, 0x61736865, 0x642d6e6f, 0x64657300, 0x68617368, 0x65642d73,
    0x7472696e, 0x67730000]

theorem contained_first : Contained threeSigs 8 0 := by
  have hnodes : lookup threeSigs 8 (text "hashed-nodes") = some (some ⟨124, 2⟩) := by decide +kernel
  have hstrings : lookup threeSigs 8 (text "hashed-strings") = some (some ⟨140, 8⟩) := by decide +kernel
  refine (contained_iff threeSigs (by decide +kernel) 8 0).mpr ⟨?_, ?_, ?_⟩
  · intro v hv
    obtain rfl : ⟨124, 2⟩ = v := by simpa using hnodes.symm.trans hv.found
    decide +kernel
  · intro r inc _ _
    exact .inl (by decide +kernel)
  · intro r v _ hv
    obtain rfl : ⟨140, 8⟩ = v := by simpa using hstrings.symm.trans hv
    decide +kernel

theorem Outcome.exists_ok {α : Type} (x : Outcome α)
    (h : Option.map (fun e : Except String α => e.isOk) x = some true) : ∃ a, x = some (.ok a) := by
  obtain ⟨e, he, hok⟩ := Option.map_eq_some_iff.mp h
  cases e with
  | error e => cases hok
  | ok a => exact ⟨a, he⟩

/-- The strings of the second node are outside of the FIT; the third has two paths in an array
for one. -/
theorem lists_overrun : ¬Contained threeSigs 112 0 ∧ ¬Contained threeSigs 216 0 := by
  constructor
  · intro h
    obtain ⟨r, hr⟩ := Outcome.exists_ok (sigRequest threeSigs 112 0) (by decide +kernel)
    have hin := (regions_inside_iff threeSigs (by decide +kernel) 112 0 r hr).mp (h.regions r hr).1
    exact absurd (hin.2 ⟨244, 8⟩ (by decide +kernel)) (by decide +kernel)
  · intro h
    have hsetup := Outcome.exists_ok (fitImageSetupVerify threeSigs 216 0) (by decide +kernel)
    have hfills : Fills threeSigs 216 0 ⟨332, 4⟩ :=
      ⟨hsetup, ⟨⟨316, 4⟩, by decide +kernel⟩, by decide +kernel, by decide +kernel, by decide +kernel⟩
    exact absurd (h.filled _ hfills).1 (by decide +kernel)

end UBoot.Fit
