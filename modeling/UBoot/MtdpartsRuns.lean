import UBoot.MtdpartsCommands

/-!
# Runs of the mtdparts commands

As long as every list that a command writes can be restored from its text, and the text
fits, the list in memory is the one of the texts seen last, and there is a current
partition exactly when there are devices. A run in which a text does not fit leaves the
list without its variable.
-/

set_option autoImplicit false

namespace UBoot.Mtdparts

/-! ## The number of partitions in a text -/

theorem strtoulLoop_rest (base n : ℕ) (t : Text) :
    (strtoulLoop base n t).2.length ≤ t.length ∧
      ((strtoulLoop base n t).2.length = t.length → (strtoulLoop base n t).1 = n) := by
  induction t generalizing n with
  | nil => exact ⟨le_rfl, fun _ => rfl⟩
  | cons c t ih =>
    rw [strtoulLoop]
    split_ifs
    · have := (ih (w32 (n*base+digitValue c))).1
      rw [List.length_cons]
      exact ⟨by omega, fun h => by omega⟩
    · exact ⟨le_rfl, fun _ => rfl⟩

theorem simpleStrtoul_rest (t : Text) (base : ℕ) :
    (simpleStrtoul t base).2.length ≤ t.length ∧
      ((simpleStrtoul t base).2.length = t.length → (simpleStrtoul t base).1 = 0) := by
  unfold simpleStrtoul
  split
  · next h0 =>
    cases t with
    | nil => cases h0
    | cons c t =>
      have htail : ∀ b, (strtoulLoop b 0 t).2.length ≤ t.length := fun b => (strtoulLoop_rest b 0 t).1
      have htail2 : (strtoulLoop 16 0 t.tail).2.length ≤ t.length-1 := by
        have := (strtoulLoop_rest 16 0 t.tail).1
        rwa [List.length_tail] at this
      rw [List.tail_cons, List.length_cons]
      split
      · exact ⟨by omega, fun h => by omega⟩
      · have := htail (if base = 0 then 8 else base)
        exact ⟨by omega, fun h => by omega⟩
  · exact strtoulLoop_rest _ 0 t

theorem memsizeParse_rest (t : Text) :
    (memsizeParse t).2.length ≤ t.length ∧
      ((memsizeParse t).2.length = t.length → (memsizeParse t).1 = 0) := by
  have h := simpleStrtoul_rest t 0
  unfold memsizeParse
  dsimp only
  split
  · exact h
  · next c rest hr =>
    rw [hr, List.length_cons] at h
    split_ifs
    · exact ⟨by dsimp only; omega, fun h' => by dsimp only at h'; omega⟩
    · exact ⟨by dsimp only; omega, fun h' => by dsimp only at h'; omega⟩
    · exact ⟨by dsimp only; omega, fun h' => by dsimp only at h'; omega⟩
    · rw [hr, List.length_cons]
      exact h

theorem fetchSize_rest (t : Text) (r : ℕ × Text) (h : fetchSize t = some r) :
    r.2.length < t.length := by
  unfold fetchSize at h
  split_ifs at h with h1 h2
  · cases h
    cases t with
    | nil => cases h1
    | cons c t => exact Nat.lt_succ_self _
  · cases h
    have hr := memsizeParse_rest t
    rcases Nat.lt_or_eq_of_le hr.1 with hlt | heq
    · exact hlt
    · exact absurd (hr.2 heq ▸ (by decide : 0 < minPartSize)) h2

theorem fetchOffset_rest (t : Text) : (fetchOffset t).2.length ≤ t.length := by
  unfold fetchOffset
  split_ifs
  · exact (memsizeParse_rest _).1.trans (by rw [List.length_tail]; omega)
  · exact le_rfl

theorem fetchName_rest (t : Text) (r : Option Text × Text) (h : fetchName t = some r) :
    r.2.length ≤ t.length := by
  unfold fetchName at h
  split_ifs at h with h1
  · dsimp only at h
    split at h
    · cases h
    · next c rest hd =>
      split_ifs at h
      cases h
      have hlen := (List.dropWhile_sublist (· ≠ ')') (l := t.tail)).length_le
      rw [hd, List.length_cons, List.length_tail] at hlen
      dsimp only
      omega
  · cases h
    exact le_rfl

theorem fetchFlags_rest (t : Text) : (fetchFlags t).2.length ≤ t.length := by
  unfold fetchFlags
  split_ifs
  · exact (List.drop_sublist 2 t).length_le
  · exact le_rfl

theorem fetchEnd_rest (size : ℕ) (t rest : Text) (h : fetchEnd size t = some rest) :
    rest.length ≤ t.length ∧ (rest = [] ∨ rest.head? = some ';' ∨ rest.length < t.length) := by
  unfold fetchEnd at h
  split at h
  · cases h
    exact ⟨le_rfl, Or.inl rfl⟩
  · next c t =>
    split_ifs at h with h1 h2 h3
    · cases h
      exact ⟨Nat.le_succ _, Or.inr (Or.inr (Nat.lt_succ_self _))⟩
    · cases h
      exact ⟨le_rfl, Or.inr (Or.inl (congrArg some h3))⟩

/-- A partition with another behind it takes two characters at least. -/
theorem partParse_rest (t rest : Text) (p : PartInfo) (h : partParse t = some (p, rest)) :
    rest.length ≤ t.length ∧ (rest = [] ∨ rest.head? = some ';' ∨ rest.length+2 ≤ t.length) := by
  simp only [partParse, Option.bind_eq_bind, Option.bind_eq_some_iff, Option.pure_def,
    Option.some.injEq, Prod.mk.injEq] at h
  obtain ⟨size, hs, name, hn, rest', he, -, rfl⟩ := h
  have h1 := fetchSize_rest t size hs
  have h2 := fetchOffset_rest size.2
  have h3 := fetchName_rest _ name hn
  have h4 := fetchFlags_rest name.2
  obtain ⟨h5, h6⟩ := fetchEnd_rest _ _ rest' he
  refine ⟨by omega, ?_⟩
  rcases h6 with h6 | h6 | h6
  · exact Or.inl h6
  · exact Or.inr (Or.inl h6)
  · exact Or.inr (Or.inr (by omega))

theorem parseParts_count (flash : Flash) (id : MtdId) (n offset : ℕ) (t rest : Text)
    (ps : List PartInfo) (h : parseParts flash id n offset t = some (ps, rest)) :
    2*ps.length ≤ t.length+1 := by
  induction n generalizing offset t ps with
  | zero => exact absurd h (by simp [parseParts])
  | succ n ih =>
    rcases parseParts_cases id n offset t rest ps h with
      ⟨-, rfl, -⟩ | ⟨hgo, p, t1, q, ps1, hp, -, hps, rfl⟩
    · simp
    · have hpos : 0 < t.length := List.length_pos_iff.2 (fun h => hgo (Or.inl h))
      rw [List.length_cons]
      have hstop : t1 = [] ∨ t1.head? = some ';' → ps1 = [] := by
        intro hs
        cases n with
        | zero => exact absurd hps (by simp [parseParts])
        | succ n =>
          rw [parseParts, if_pos hs] at hps
          cases hps
          rfl
      rcases (partParse_rest t t1 p hp).2 with h2 | h2 | h2
      · rw [hstop (Or.inl h2), List.length_nil]
        omega
      · rw [hstop (Or.inr h2), List.length_nil]
        omega
      · have := ih _ t1 ps1 hps
        omega

theorem parseParts_rest (flash : Flash) (id : MtdId) (n offset : ℕ) (t rest : Text)
    (ps : List PartInfo) (h : parseParts flash id n offset t = some (ps, rest)) :
    rest.length ≤ t.length := by
  induction n generalizing offset t ps with
  | zero => exact absurd h (by simp [parseParts])
  | succ n ih =>
    rcases parseParts_cases id n offset t rest ps h with
      ⟨-, -, rfl⟩ | ⟨-, p, t1, q, ps1, hp, -, hps, -⟩
    · exact le_rfl
    · exact (ih _ t1 ps1 hps).trans (partParse_rest t t1 p hp).1

theorem deviceParse_count (flash : Flash) (ids : List MtdId) (devices : List MtdDevice)
    (t rest : Text) (d : MtdDevice) (h : deviceParse flash ids devices t = some (d, rest)) :
    2*d.parts.length ≤ t.length ∧ rest.length ≤ t.length := by
  unfold deviceParse at h
  split at h
  · cases h
  · next c t1 hd =>
    have hlen := (List.dropWhile_sublist (· ≠ ':') (l := t)).length_le
    rw [hd, List.length_cons] at hlen
    simp only [Option.bind_eq_bind, Option.bind_eq_some_iff, Option.pure_def] at h
    obtain ⟨id, -, ⟨ps, t2⟩, hps, h⟩ := h
    split_ifs at h with hn
    obtain ⟨parts, hsort, h⟩ := Option.bind_eq_some_iff.1 h
    cases h
    have hcount := parseParts_count flash id _ _ t1 t2 ps hps
    have hrest := parseParts_rest flash id _ _ t1 t2 ps hps
    have hperm := (sortAddAll_ordered ps parts hsort).2.length_eq
    dsimp only
    rw [hperm, List.length_tail]
    exact ⟨by omega, by omega⟩

theorem parseDevices_count (flash : Flash) (ids : List MtdId) (n : ℕ) (devices l : List MtdDevice)
    (t : Text) (h : parseDevices flash ids n devices t = some l) :
    ∀ d ∈ l, d ∈ devices ∨ 2*d.parts.length ≤ t.length := by
  induction n generalizing devices t with
  | zero => exact absurd h (by simp [parseDevices])
  | succ n ih =>
    rw [parseDevices] at h
    split_ifs at h with h1
    · cases h
      exact fun d hd => Or.inl hd
    · obtain ⟨⟨d, rest⟩, hd, h⟩ := Option.bind_eq_some_iff.1 h
      dsimp only at h
      split_ifs at h with h2
      obtain ⟨hcount, hrest⟩ := deviceParse_count flash ids devices t rest d hd
      intro e he
      rcases ih _ rest h e he with hin | hc
      · rcases List.mem_append.1 hin with hin | hin
        · exact Or.inl hin
        · exact Or.inr (List.mem_singleton.1 hin ▸ hcount)
      · exact Or.inr (hc.trans hrest)

/-- A text that is not too long has fewer partitions on a device than a byte counts. -/
theorem parseMtdparts_count (flash : Flash) (ids : List MtdId) (t : Text)
    (ht : t.length < mtdpartsMaxlen) :
    ∀ d ∈ (parseMtdparts flash ids t).2, d.parts.length < 255 := by
  unfold parseMtdparts
  dsimp only
  split_ifs with h1 h2
  · simp
  · split
    · simp
    · next l hl =>
      intro d hd
      rcases parseDevices_count flash ids _ [] l _ hl d hd with h | h
      · exact absurd h (by simp)
      · rw [List.length_drop] at h
        unfold mtdpartsMaxlen at ht
        omega
  · simp

/-! ## What holds between the commands -/

/-- The lists are those of the texts seen last. -/
structure Coherent (cfg : Config) (s : State) : Prop where
  ids : s.lastIds ≠ [] → parseMtdids cfg.flash s.lastIds = (0, s.ids)
  parts : s.lastParts ≠ [] → s.lastIds ≠ [] ∧ s.lastParts.length < mtdpartsMaxlen ∧
    s.devices = (parseMtdparts cfg.flash s.ids s.lastParts).2
  empty : s.lastParts = [] → s.devices = []
  designates : Designates s

/-- The texts seen last are those of the variables. -/
structure InSync (s : State) : Prop where
  ids : s.envIds = some s.lastIds ∧ s.lastIds ≠ []
  unset : s.envParts = none → s.lastParts = []
  parts : ∀ t, s.envParts = some t → s.lastParts = t

def ShortPartition (s : State) : Prop := ∀ t, s.envPartition = some t → t.length < partitionMaxlen

/-- Only the variable `partition` and its copy may differ. -/
def SameBut (s s' : State) : Prop :=
  ∃ e l, s' = { s with envPartition := e, lastPartition := l }

section Between
variable {cfg : Config} {s s' : State}

theorem Coherent.sameBut (h : Coherent cfg s) (hs : SameBut s s') : Coherent cfg s' := by
  obtain ⟨e, l, rfl⟩ := hs
  exact ⟨h.ids, h.parts, h.empty, h.designates.empty, h.designates.there⟩

theorem InSync.sameBut (h : InSync s) (hs : SameBut s s') : InSync s' := by
  obtain ⟨e, l, rfl⟩ := hs
  exact ⟨h.ids, h.unset, h.parts⟩

theorem Coherent.sound (h : Coherent cfg s) : Sound cfg.flash s.ids s.devices := by
  by_cases hp : s.lastParts = []
  · rw [h.empty hp]
    exact sound_nil
  · rw [(h.parts hp).2.2]
    exact parseMtdparts_sound s.lastParts

theorem Coherent.few (h : Coherent cfg s) : ∀ d ∈ s.devices, d.parts.length < 255 := by
  by_cases hp : s.lastParts = []
  · rw [h.empty hp]
    simp
  · rw [(h.parts hp).2.2]
    exact parseMtdparts_count _ _ _ (h.parts hp).2.1

theorem mtdPartInfo_some (devices : List MtdDevice) (i n : ℕ) (p : PartInfo)
    (h : mtdPartInfo devices i n = some p) :
    ∃ d, devices[i]? = some d ∧ n < d.numParts ∧ d.parts[n]? = some p := by
  unfold mtdPartInfo at h
  split at h
  · cases h
  · next d hd =>
    split_ifs at h with hn
    exact ⟨d, hd, Nat.lt_of_not_le hn, h⟩

theorem mtdPartInfo_there (devices : List MtdDevice) (i n : ℕ) (d : MtdDevice)
    (hd : devices[i]? = some d) (hfew : d.parts.length < 65536) (hn : n < d.parts.length) :
    ∃ p, mtdPartInfo devices i n = some p := by
  refine ⟨d.parts[n], ?_⟩
  rw [mtdPartInfo, hd]
  dsimp only
  rw [MtdDevice.numParts, Nat.mod_eq_of_lt hfew, if_neg (by omega), List.getElem?_eq_getElem hn]

theorem Designates.part (h : Designates s) (i : ℕ) (hc : s.current = some i) :
    ∃ d, s.devices[i]? = some d ∧ s.partnum < d.parts.length := by
  obtain ⟨p, hp⟩ := h.there i hc
  obtain ⟨d, hd, -, hpart⟩ := mtdPartInfo_some _ _ _ p hp
  exact ⟨d, hd, (List.getElem?_eq_some_iff.1 hpart).1⟩

theorem indexPartitions_there (h : Designates s) : indexPartitions s = some s := by
  unfold indexPartitions
  split
  · rfl
  · next dev hc =>
    obtain ⟨p, hp⟩ := h.there dev hc
    rw [hp]
    rfl

theorem currentSave_there (h : Designates s) : ∃ s', currentSave s = some s' ∧ SameBut s s' := by
  unfold currentSave
  split
  · next hc => exact ⟨_, indexPartitions_there ⟨h.empty, h.there⟩, _, _, rfl⟩
  · next dev hc =>
    obtain ⟨d, hd, -⟩ := h.part dev hc
    rw [hd]
    exact ⟨_, indexPartitions_there ⟨h.empty, h.there⟩, _, _, rfl⟩

theorem findName_some (id : Text) (dev : ℕ) (ds : List MtdDevice) (i j : ℕ)
    (h : findName id dev ds = some (i, j)) :
    dev ≤ i ∧ ∃ d, ds[i-dev]? = some d ∧ j < d.parts.length := by
  induction ds generalizing dev with
  | nil => cases h
  | cons d ds ih =>
    rw [findName] at h
    split at h
    · next part hp =>
      cases h
      exact ⟨le_rfl, d, by simp, (List.findIdx?_eq_some_iff_getElem.1 hp).1⟩
    · obtain ⟨h1, e, h2, h3⟩ := ih (dev+1) h
      refine ⟨by omega, e, ?_, h3⟩
      rw [show i-dev = i-(dev+1)+1 by omega, List.getElem?_cons_succ]
      exact h2

/-- What is found is there. -/
theorem findDevAndPart_there (devices : List MtdDevice) (hfew : ∀ d ∈ devices, d.parts.length < 255)
    (id : Text) (i j : ℕ) (h : findDevAndPart devices id = some (i, j)) :
    ∃ d, devices[i]? = some d ∧ j < d.parts.length ∧ j % 256 = j := by
  unfold findDevAndPart at h
  split at h
  · next r hr =>
    cases h
    obtain ⟨-, d, hd, hj⟩ := findName_some id 0 devices i j hr
    rw [Nat.sub_zero] at hd
    have := hfew d (List.mem_of_getElem? hd)
    exact ⟨d, hd, hj, by omega⟩
  · obtain ⟨r, -, h⟩ := Option.bind_eq_some_iff.1 h
    dsimp only at h
    split_ifs at h with h1 h2
    obtain ⟨dev, -, h⟩ := Option.bind_eq_some_iff.1 h
    obtain ⟨p, hp, h⟩ := Option.bind_eq_some_iff.1 h
    cases h
    obtain ⟨d, hd, -, hpart⟩ := mtdPartInfo_some _ _ _ p hp
    exact ⟨d, hd, (List.getElem?_eq_some_iff.1 hpart).1, Nat.mod_mod _ _⟩

/-- A found partition becomes the current one. -/
theorem makeCurrent (h : Coherent cfg s) (id : Text) (i j : ℕ)
    (hf : findDevAndPart s.devices id = some (i, j)) :
    ∃ s', currentSave { s with current := some i, partnum := j % 256 } = some s' ∧
      Coherent cfg s' ∧ (InSync s → InSync s') := by
  obtain ⟨d, hd, hj, hm⟩ := findDevAndPart_there s.devices h.few id i j hf
  have hfew := h.few d (List.mem_of_getElem? hd)
  have hc : Coherent cfg { s with current := some i, partnum := j % 256 } := by
    refine ⟨h.ids, h.parts, h.empty, fun hn => absurd hn (by simp), ?_⟩
    intro dev hdev
    cases hdev
    rw [hm]
    exact mtdPartInfo_there s.devices i j d hd (by omega) hj
  obtain ⟨s', hs, hsame⟩ := currentSave_there hc.designates
  refine ⟨s', hs, hc.sameBut hsame, fun hsync => ?_⟩
  exact InSync.sameBut (s := { s with current := some i, partnum := j % 256 })
    ⟨hsync.ids, hsync.unset, hsync.parts⟩ hsame

theorem useCurrent_settles (h : Coherent cfg s) (hs : InSync s) (tmpEp : Option Text)
    (hep : ∀ ep, tmpEp = some ep → ep.length < partitionMaxlen) :
    ∃ s', useCurrent tmpEp s = some (0, s') ∧ Coherent cfg s' ∧ InSync s' := by
  have hsave : ∃ s', (currentSave s).map (fun s => (0, s)) = some (0, s') ∧
      Coherent cfg s' ∧ InSync s' := by
    obtain ⟨s', hc, hsame⟩ := currentSave_there h.designates
    exact ⟨s', by rw [hc]; rfl, h.sameBut hsame, hs.sameBut hsame⟩
  unfold useCurrent
  split
  · split_ifs
    · exact hsave
    · exact ⟨s, rfl, h, hs⟩
  · next ep =>
    rw [if_neg (Nat.not_le.2 (hep ep rfl))]
    split_ifs
    · split
      · exact ⟨s, rfl, h, hs⟩
      · next i j hf =>
        obtain ⟨s', hc, hcoh, hsync⟩ := makeCurrent h ep i j hf
        exact ⟨s', by rw [hc]; rfl, hcoh, hsync hs⟩
    · exact hsave
    · exact ⟨s, rfl, h, hs⟩

/-- The lists are gone and nothing is current. -/
def cleared (s : State) : State :=
  { s with
    lastParts := [], current := none, envPartition := none, lastPartition := [], devices := [] }

theorem mtdDevicesInit_eq (s : State) : mtdDevicesInit s = some (cleared s) := rfl

theorem cleared_coherent (h : s.lastIds ≠ [] → parseMtdids cfg.flash s.lastIds = (0, s.ids)) :
    Coherent cfg (cleared s) where
  ids := h
  parts := fun hn => absurd rfl hn
  empty := fun _ => rfl
  designates := ⟨fun _ => rfl, fun _ hn => absurd hn (by simp [cleared])⟩

theorem parseMtdparts_failed (flash : Flash) (ids : List MtdId) (t : Text)
    (h : (parseMtdparts flash ids t).1 ≠ 0) : (parseMtdparts flash ids t).2 = [] := by
  revert h
  unfold parseMtdparts
  dsimp only
  split_ifs
  · exact fun _ => rfl
  · cases parseDevices flash ids ((t.drop 9).length+1) [] (t.drop 9) with
    | none => exact fun _ => rfl
    | some l => exact fun h => absurd rfl h
  · exact fun _ => rfl

theorem readParts_settles (hids : s.lastIds ≠ [] ∧ parseMtdids cfg.flash s.lastIds = (0, s.ids))
    (changed : Bool) (hold : changed = false → Coherent cfg s) (parts : Text)
    (hlen : parts.length < mtdpartsMaxlen) :
    ∃ rc s', readParts cfg changed parts s = some (rc, s') ∧ Coherent cfg s' ∧
      s'.envIds = s.envIds ∧ s'.envParts = s.envParts ∧ s'.lastIds = s.lastIds ∧
      (rc = 0 → s'.lastParts = parts) := by
  unfold readParts
  split_ifs with hread
  · rw [mtdDevicesInit_eq, Option.bind_eq_bind, Option.bind_some]
    have hclear : Coherent cfg (cleared s) := cleared_coherent (fun _ => hids.2)
    dsimp only
    split_ifs with h1 h2
    · refine ⟨1, _, rfl, ?_, rfl, rfl, rfl, fun h => absurd h (by decide)⟩
      rw [parseMtdparts_failed cfg.flash _ parts h1]
      exact hclear
    · refine ⟨1, _, rfl, ?_, rfl, rfl, rfl, fun h => absurd h (by decide)⟩
      rw [h2]
      exact hclear
    · have hne : parts ≠ [] := by
        rintro rfl
        exact h2 rfl
      have hnew : Coherent cfg { cleared s with
          devices := (parseMtdparts cfg.flash (cleared s).ids parts).2, lastParts := parts,
          current := some 0, partnum := 0 } := by
        refine ⟨fun _ => hids.2, fun _ => ⟨hids.1, hlen, rfl⟩, fun h => absurd h hne,
          fun h => absurd h (by simp), ?_⟩
        intro dev hdev
        cases hdev
        have hsound : Sound cfg.flash (cleared s).ids (parseMtdparts cfg.flash (cleared s).ids parts).2 :=
          parseMtdparts_sound parts
        have hcount := parseMtdparts_count cfg.flash (cleared s).ids parts hlen
        revert h2 hsound hcount
        generalize (parseMtdparts cfg.flash (cleared s).ids parts).2 = devices
        intro h2 hsound hcount
        cases devices with
        | nil => exact absurd rfl h2
        | cons d devices =>
          have hfew := hcount d (by simp)
          exact mtdPartInfo_there _ 0 0 d rfl (by omega)
            (List.length_pos_iff.2 (hsound.each d (by simp)).filled)
      obtain ⟨s', hs, hsame⟩ := currentSave_there hnew.designates
      refine ⟨0, s', ?_, hnew.sameBut hsame, ?_⟩
      · rw [hs]
        rfl
      · obtain ⟨e, l, rfl⟩ := hsame
        exact ⟨rfl, rfl, rfl, fun _ => rfl⟩
  · simp only [not_or, Bool.not_eq_true, not_not] at hread
    exact ⟨0, s, rfl, hold hread.2.2, rfl, rfl, rfl, fun _ => hread.2.1⟩

theorem afterIds_settles (hids : s.lastIds ≠ [] ∧ parseMtdids cfg.flash s.lastIds = (0, s.ids))
    (hempty : s.lastParts = [] → s.devices = []) (hd : Designates s)
    (changed : Bool) (hold : changed = false → Coherent cfg s) (henv : s.envIds = some s.lastIds)
    (hlen : (s.envParts.getD []).length < mtdpartsMaxlen) (tmpEp : Option Text)
    (hep : ∀ ep, tmpEp = some ep → ep.length < partitionMaxlen) :
    ∃ rc s', afterIds cfg changed tmpEp s = some (rc, s') ∧ Coherent cfg s' ∧
      (rc = 0 → InSync s') := by
  unfold afterIds
  split
  · next hnone =>
    split_ifs with hl
    · refine ⟨0, cleared s, by rw [mtdDevicesInit_eq]; rfl, cleared_coherent (fun _ => hids.2),
        fun _ => ⟨⟨henv, hids.1⟩, fun _ => rfl, ?_⟩⟩
      intro t ht
      exact absurd (hnone.symm.trans ht) (by simp)
    · have hl' : s.lastParts = [] := not_not.1 hl
      refine ⟨0, s, rfl, ⟨fun _ => hids.2, fun h => absurd hl' h, hempty, hd⟩,
        fun _ => ⟨⟨henv, hids.1⟩, fun _ => hl', ?_⟩⟩
      intro t ht
      exact absurd (hnone.symm.trans ht) (by simp)
  · next parts hparts =>
    rw [hparts, Option.getD_some] at hlen
    obtain ⟨rc, s1, hr, hcoh, he, hp, hl, hrc⟩ := readParts_settles hids changed hold parts hlen
    rw [hr, Option.bind_eq_bind, Option.bind_some]
    dsimp only
    split_ifs with h0
    · exact ⟨rc, s1, rfl, hcoh, fun h => absurd h h0⟩
    · have hlast := hrc (not_not.1 h0)
      have hsync : InSync s1 := by
        refine ⟨⟨by rw [he, hl]; exact henv, by rw [hl]; exact hids.1⟩, ?_, ?_⟩
        · intro hn
          exact absurd ((hp.trans hparts).symm.trans hn) (by simp)
        · intro t ht
          rw [hlast]
          exact Option.some.inj ((hp.trans hparts).symm.trans ht)
      obtain ⟨s', hu, hcoh', hsync'⟩ := useCurrent_settles hcoh hsync tmpEp hep
      exact ⟨0, s', hu, hcoh', fun _ => hsync'⟩

/-- `mtdparts_init` keeps the lists those of the texts, and when it succeeds the texts are those
of the variables. -/
theorem mtdpartsInit_settles (h : Coherent cfg s) (hshort : ShortPartition s) :
    ∃ rc s', mtdpartsInit cfg s = some (rc, s') ∧ Coherent cfg s' ∧ (rc = 0 → InSync s') := by
  have hfail : ∀ ids, ∃ rc s', some (1, { s with envIds := ids }) = some (rc, s') ∧
      Coherent cfg s' ∧ (rc = 0 → InSync s') := fun ids =>
    ⟨1, _, rfl, ⟨h.ids, h.parts, h.empty, h.designates.empty, h.designates.there⟩,
      fun h => absurd h (by decide)⟩
  unfold mtdpartsInit
  dsimp only
  split
  · exact ⟨1, s, rfl, h, fun h => absurd h (by decide)⟩
  · next ids _ =>
    split_ifs with h1 h2 h3 h4
    · exact hfail (some ids)
    · exact hfail (some ids)
    · have hlen : (s.envParts.getD []).length < mtdpartsMaxlen := by
        unfold mtdpartsMaxlen at *
        omega
      exact afterIds_settles (s := { s with envIds := some ids }) ⟨h3.1, h.ids h3.1⟩ h.empty
        ⟨h.designates.empty, h.designates.there⟩ false
        (fun _ => ⟨h.ids, h.parts, h.empty, h.designates.empty, h.designates.there⟩)
        (congrArg some h3.2.symm) hlen _ hshort
    · exact ⟨1, _, rfl, cleared_coherent (fun hn => absurd rfl hn), fun h => absurd h (by decide)⟩
    · have hlen : (s.envParts.getD []).length < mtdpartsMaxlen := by
        unfold mtdpartsMaxlen at *
        omega
      have hne : ids ≠ [] := by
        rintro rfl
        exact h4 (by simp [parseMtdids])
      exact afterIds_settles
        (s := { s with envIds := some ids, ids := (parseMtdids cfg.flash ids).2, lastIds := ids }) ⟨hne, Prod.ext (not_not.1 h4) rfl⟩ h.empty
        ⟨h.designates.empty, h.designates.there⟩ true (fun hf => absurd hf (by decide)) rfl hlen _
        hshort

theorem InSync.described (hs : InSync s) (h : Coherent cfg s) :
    s.devices = described cfg.flash s := by
  unfold UBoot.Mtdparts.described
  rw [hs.ids.1]
  cases hp : s.envParts with
  | none => exact h.empty (hs.unset hp)
  | some t =>
    have ht := hs.parts t hp
    dsimp only
    rw [h.ids hs.ids.2, ← ht]
    by_cases hl : s.lastParts = []
    · rw [h.empty hl, hl]
      rfl
    · exact (h.parts hl).2.2

/-! ## Writing a list -/

/-- The list can be restored from its text, which fits into the copy. -/
structure Writes (devices : List MtdDevice) : Prop where
  restorable : ∀ d ∈ devices, d.Restorable
  fits : ∃ text, generateMtdparts devices mtdpartsMaxlen = some text ∧ text.length < mtdpartsMaxlen

theorem generate_nil_iff (devices : List MtdDevice) (text : Text)
    (h : generateMtdparts devices mtdpartsMaxlen = some text) : text = [] ↔ devices = [] := by
  constructor
  · intro ht
    by_contra hne
    have := (generateMtdparts_some devices _ text hne h).1
    rw [ht] at this
    simp [mtdpartsTag] at this
  · rintro rfl
    cases h
    rfl

theorem generateMtdpartsSave_settles
    (hids : s.lastIds ≠ [] ∧ parseMtdids cfg.flash s.lastIds = (0, s.ids))
    (hs : Sound cfg.flash s.ids s.devices) (hd : Designates s) (hw : Writes s.devices) :
    ∃ s', generateMtdpartsSave s = some (0, s') ∧ Coherent cfg s' := by
  obtain ⟨text, htext, hlen⟩ := hw.fits
  refine ⟨_, by rw [generateMtdpartsSave, htext]; exact if_neg (Nat.not_le.2 hlen), ?_⟩
  refine ⟨fun _ => hids.2, fun _ => ⟨hids.1, hlen, ?_⟩, ?_, hd.empty, hd.there⟩
  · exact ((parseMtdparts_iff s.devices hs text htext).2 hw.restorable).symm
  · exact (generate_nil_iff s.devices text htext).1

/-! ## Adding a partition -/

/-- A device or a partition was linked, or nothing has changed. -/
structure Linked (cfg : Config) (s : State) (dev : MtdDevice) (rc : ℕ) (s' : State) : Prop where
  ids : s'.ids = s.ids ∧ s'.lastIds = s.lastIds
  designates : Designates s'
  effect : rc ≠ 0 ∧ s' = s ∨ rc = 0 ∧ mergeDevice cfg.flash s.devices dev = some s'.devices

theorem SameBut.designates (h : SameBut s s') (hd : Designates s) : Designates s' := by
  obtain ⟨e, l, rfl⟩ := h
  exact ⟨hd.empty, hd.there⟩

theorem deviceAdd_settles (h : Coherent cfg s) (dev : MtdDevice) (hdev : dev.Sound cfg.flash s.ids)
    (hfew : dev.parts.length < 255)
    (hnew : s.devices.findIdx? (fun d => d.id.type = dev.id.type ∧ d.id.num = dev.id.num) = none) :
    ∃ s', deviceAdd s dev = some s' ∧ Linked cfg s dev 0 s' := by
  have hmerge : mergeDevice cfg.flash s.devices dev = some (s.devices ++ [dev]) := by
    rw [mergeDevice, hnew]
  unfold deviceAdd
  dsimp only
  split_ifs with hnil
  · have hd : Designates { s with devices := s.devices ++ [dev], current := some 0, partnum := 0 } := by
      refine ⟨fun hn => absurd hn (by simp), ?_⟩
      intro i hi
      cases hi
      apply mtdPartInfo_there _ 0 0 dev _ (by omega) (List.length_pos_iff.2 hdev.filled)
      rw [hnil]
      rfl
    obtain ⟨s', hs, hsame⟩ := currentSave_there hd
    refine ⟨s', hs, ?_, hsame.designates hd, Or.inr ⟨rfl, ?_⟩⟩
    · obtain ⟨e, l, rfl⟩ := hsame
      exact ⟨rfl, rfl⟩
    · obtain ⟨e, l, rfl⟩ := hsame
      exact hmerge
  · have hd : Designates { s with devices := s.devices ++ [dev] } := by
      refine ⟨fun hn => absurd (h.designates.empty hn) hnil, ?_⟩
      intro i hi
      obtain ⟨d, hdi, hn⟩ := h.designates.part i hi
      have hfew := h.few d (List.mem_of_getElem? hdi)
      apply mtdPartInfo_there _ i s.partnum d _ (by omega) hn
      rw [List.getElem?_append_left (List.getElem?_eq_some_iff.1 hdi).1]
      exact hdi
    exact ⟨_, indexPartitions_there hd, ⟨rfl, rfl⟩, hd, Or.inr ⟨rfl, hmerge⟩⟩

/-- The current partition stays in a list whose devices have grown. -/
theorem designates_set (h : Coherent cfg s) (i : ℕ) (d d' : MtdDevice) (n : ℕ)
    (hi : s.devices[i]? = some d) (hfew : d'.parts.length < 65536)
    (hn : s.current = some i → n < d'.parts.length) (hsame : s.current ≠ some i → n = s.partnum) :
    Designates { s with devices := s.devices.set i d', partnum := n } := by
  have hlt := (List.getElem?_eq_some_iff.1 hi).1
  refine ⟨?_, ?_⟩
  · intro hc
    have hnil := h.designates.empty hc
    rw [hnil] at hlt
    exact absurd hlt (by simp)
  · intro c hc
    dsimp only at hc ⊢
    by_cases hci : c = i
    · subst hci
      apply mtdPartInfo_there _ c n d' _ hfew (hn hc)
      rw [List.getElem?_set_self hlt]
    · obtain ⟨e, he, hpart⟩ := h.designates.part c hc
      have hfew' := h.few e (List.mem_of_getElem? he)
      rw [hsame (fun h' => hci (Option.some.inj (hc.symm.trans h')))]
      apply mtdPartInfo_there _ c s.partnum e _ (by omega) hpart
      rw [List.getElem?_set_ne (Ne.symm hci)]
      exact he

theorem partAddCmd_settles (h : Coherent cfg s) (dev : MtdDevice) (i : ℕ) (p : PartInfo)
    (hi : s.devices.findIdx? (fun d => d.id.type = dev.id.type ∧ d.id.num = dev.id.num) = some i)
    (hp : dev.parts.head? = some p) :
    ∃ rc s', partAddCmd cfg s i p = some (rc, s') ∧ Linked cfg s dev rc s' := by
  have hlt := (List.findIdx?_eq_some_iff_getElem.1 hi).1
  have hd : s.devices[i]? = some s.devices[i] := List.getElem?_eq_getElem hlt
  have hfew := h.few _ (List.mem_of_getElem? hd)
  have hstay : Linked cfg s dev 1 s := ⟨⟨rfl, rfl⟩, h.designates, Or.inl ⟨by decide, rfl⟩⟩
  revert hd hfew
  generalize s.devices[i] = d
  intro hd hfew
  have hmerge : mergeDevice cfg.flash s.devices dev = (partAdd cfg.flash d p).map (s.devices.set i) := by
    rw [mergeDevice, hi]
    dsimp only
    rw [hd, hp]
  unfold partAddCmd
  rw [hd]
  dsimp only
  cases hv : partValidate cfg.flash d.id p with
  | none => exact ⟨1, s, rfl, hstay⟩
  | some q =>
    cases hq : partSortAdd q d.parts with
    | none => exact ⟨1, s, by simp [hq], hstay⟩
    | some parts =>
      dsimp only
      have hlen : parts.length = d.parts.length+1 := by
        rw [partSortAdd_some q d.parts parts hq, List.orderedInsert_length]
      have hadd : mergeDevice cfg.flash s.devices dev =
          some (s.devices.set i { d with parts := parts }) := by
        rw [hmerge, partAdd, hv, Option.bind_eq_bind, Option.bind_some, hq]
        rfl
      have hcur : s.current = some i → s.partnum < d.parts.length := by
        intro hc
        obtain ⟨e, he, hn⟩ := h.designates.part i hc
        rw [hd] at he
        cases he
        exact hn
      have hstays := designates_set h i d { d with parts := parts } s.partnum hd (by dsimp only; omega)
        (fun hc => by have := hcur hc; dsimp only; omega) (fun _ => rfl)
      have hindex : ∃ rc s', (indexPartitions { s with
          devices := s.devices.set i { d with parts := parts } }).map (fun s => (0, s)) =
          some (rc, s') ∧ Linked cfg s dev rc s' :=
        ⟨0, { s with devices := s.devices.set i { d with parts := parts } },
          by rw [indexPartitions_there hstays]; rfl, ⟨rfl, rfl⟩, hstays, Or.inr ⟨rfl, hadd⟩⟩
      rw [hq]
      dsimp only
      split
      · next c q' hc _ =>
        split_ifs with hle
        · have hci : s.current = some i := by
            by_contra hno
            rw [if_neg hno] at hc
            cases hc
          have hn := hcur hci
          have hnew := designates_set h i d { d with parts := parts } ((s.partnum+1) % 256) hd
            (by dsimp only; omega) (fun _ => by dsimp only; omega) (fun hno => absurd hci hno)
          obtain ⟨s', hs, hsame⟩ := currentSave_there hnew
          refine ⟨0, s', by rw [hs]; rfl, ?_, hsame.designates hnew, Or.inr ⟨rfl, ?_⟩⟩
          · obtain ⟨e, l, rfl⟩ := hsame
            exact ⟨rfl, rfl⟩
          · obtain ⟨e, l, rfl⟩ := hsame
            exact hadd
        · exact hindex
      · exact hindex

theorem linkDevice_settles (h : Coherent cfg s) (dev : MtdDevice)
    (hdev : dev.Sound cfg.flash s.ids) (hfew : dev.parts.length < 255) :
    ∃ rc s', linkDevice cfg s dev = some (rc, s') ∧ Linked cfg s dev rc s' := by
  unfold linkDevice
  split
  · next hnew =>
    obtain ⟨s', hs, hl⟩ := deviceAdd_settles h dev hdev hfew hnew
    exact ⟨0, s', by rw [hs]; rfl, hl⟩
  · next i hi =>
    cases hp : dev.parts.head? with
    | none => exact absurd (List.head?_eq_none_iff.1 hp) hdev.filled
    | some p => exact partAddCmd_settles h dev i p hi hp

/-- What is added can be written, and its description is as long as it was counted. -/
structure FineAdd (cfg : Config) (s : State) (dev size name flag : Text) : Prop where
  counted : ∀ type num t id, mtdIdParse dev = some (type, num, t) →
    idFind s.ids type num = some id → addLen id size name flag < partAddDescMaxlen →
    (addText id size name flag).length < partAddDescMaxlen
  writes : ∀ type num t id d rest l, mtdIdParse dev = some (type, num, t) →
    idFind s.ids type num = some id →
    deviceParse cfg.flash s.ids s.devices (addText id size name flag) = some (d, rest) →
    mergeDevice cfg.flash s.devices d = some l → Writes l

theorem addPartition_settles (h : Coherent cfg s) (hsync : InSync s) (dev size name flag : Text)
    (hf : FineAdd cfg s dev size name flag) :
    ∃ rc s', addPartition cfg s dev size name flag = some (rc, s') ∧ Coherent cfg s' := by
  unfold addPartition
  split
  · exact ⟨1, s, rfl, h⟩
  · next type num t hdev =>
    split
    · exact ⟨1, s, rfl, h⟩
    · next id hid =>
      split_ifs with h1 h2
      · exact ⟨1, s, rfl, h⟩
      · exact absurd (hf.counted type num t id hdev hid (Nat.lt_of_not_le h1)) (Nat.not_lt.2 h2)
      · split
        · exact ⟨1, s, rfl, h⟩
        · next r hr =>
          obtain ⟨d, rest⟩ := r
          have hd := deviceParse_sound s.devices _ rest d hr
          have hcount := (deviceParse_count cfg.flash s.ids s.devices _ rest d hr).1
          have hfew : d.parts.length < 255 := by
            unfold partAddDescMaxlen at h2
            omega
          obtain ⟨rc, s1, hlink, hl⟩ := linkDevice_settles h d hd hfew
          rw [indexPartitions_there h.designates, Option.bind_eq_bind, Option.bind_some, hlink,
            Option.bind_eq_bind, Option.bind_some]
          dsimp only
          rcases hl.effect with ⟨hrc, rfl⟩ | ⟨rfl, hmerge⟩
          · rw [if_pos hrc]
            exact ⟨rc, s1, rfl, h⟩
          · rw [if_neg (by simp)]
            have hids : s1.lastIds ≠ [] ∧ parseMtdids cfg.flash s1.lastIds = (0, s1.ids) := by
              rw [hl.ids.1, hl.ids.2]
              exact ⟨hsync.ids.2, h.ids hsync.ids.2⟩
            have hs1 : Sound cfg.flash s1.ids s1.devices := by
              rw [hl.ids.1]
              exact mergeDevice_sound s.devices s1.devices d h.sound hd hmerge
            obtain ⟨s', hs', hc⟩ := generateMtdpartsSave_settles hids hs1 hl.designates
              (hf.writes type num t id d rest s1.devices hdev hid hr hmerge)
            exact ⟨0, s', hs', hc⟩

/-! ## Deleting a partition -/

structure Removed (s : State) (i j : ℕ) (s' : State) : Prop where
  ids : s'.ids = s.ids ∧ s'.lastIds = s.lastIds
  designates : Designates s'
  devices : s'.devices = partDel s.devices i j

theorem SameBut.removed (s0 : State) (i j : ℕ) (h : SameBut s s') (hr : Removed s0 i j s) :
    Removed s0 i j s' := by
  obtain ⟨e, l, rfl⟩ := h
  exact ⟨hr.ids, ⟨hr.designates.empty, hr.designates.there⟩, hr.devices⟩

theorem deviceDel_settles (h : Coherent cfg s) (i j : ℕ) (d : MtdDevice)
    (hi : s.devices[i]? = some d) (hone : d.numParts = 1) :
    ∃ s', deviceDel s i = some s' ∧ Removed s i j s' := by
  have hdel : partDel s.devices i j = s.devices.eraseIdx i := by
    rw [partDel, hi]
    exact if_pos hone
  have hsound := h.sound.eraseIdx s.devices i
  have hfew : ∀ e ∈ s.devices.eraseIdx i, e.parts.length < 65536 := by
    intro e he
    have := h.few e (List.mem_of_mem_eraseIdx he)
    omega
  unfold deviceDel
  dsimp only
  split_ifs with hc hnil
  · have hr : Removed s i j { s with devices := s.devices.eraseIdx i, current := none } :=
      ⟨⟨rfl, rfl⟩, ⟨fun _ => hnil, fun _ hn => absurd hn (by simp)⟩, hdel.symm⟩
    obtain ⟨s', hs, hsame⟩ := currentSave_there hr.designates
    exact ⟨s', hs, hsame.removed s i j hr⟩
  · have hr : Removed s i j
        { s with devices := s.devices.eraseIdx i, current := some 0, partnum := 0 } := by
      refine ⟨⟨rfl, rfl⟩, ⟨fun hn => absurd hn (by simp), ?_⟩, hdel.symm⟩
      intro c hc
      cases hc
      obtain ⟨e, l, he⟩ := List.exists_cons_of_ne_nil hnil
      have hmem : e ∈ s.devices.eraseIdx i := by simp [he]
      exact mtdPartInfo_there _ 0 0 e (by rw [he]; rfl) (hfew e hmem)
        (List.length_pos_iff.2 (hsound.each e hmem).filled)
    obtain ⟨s', hs, hsame⟩ := currentSave_there hr.designates
    exact ⟨s', hs, hsame.removed s i j hr⟩
  · have hr : Removed s i j
        { s with
          devices := s.devices.eraseIdx i
          current := s.current.map (fun c => if i < c then c-1 else c) } := by
      refine ⟨⟨rfl, rfl⟩, ⟨?_, ?_⟩, hdel.symm⟩
      · intro hn
        have hnil := h.designates.empty (Option.map_eq_none_iff.1 hn)
        rw [hnil] at hi
        cases hi
      · intro c' hc'
        obtain ⟨c, hcur, rfl⟩ := Option.map_eq_some_iff.1 hc'
        obtain ⟨e, he, hn⟩ := h.designates.part c hcur
        have hne : c ≠ i := fun heq => hc (heq ▸ hcur)
        have hplace : (s.devices.eraseIdx i)[if i < c then c-1 else c]? = some e := by
          rw [List.getElem?_eraseIdx]
          split_ifs with h1 h2 h2
          · omega
          · rw [show c-1+1 = c by omega]
            exact he
          · exact he
          · omega
        exact mtdPartInfo_there _ _ s.partnum e hplace (hfew e (List.mem_of_getElem? hplace)) hn
    exact ⟨_, indexPartitions_there hr.designates, hr⟩

/-- The list without the partition can be written, and the current partition is not the first
with another behind it at its offset that is deleted. -/
structure FineDel (s : State) (id : Text) : Prop where
  writes : ∀ i j, findDevAndPart s.devices id = some (i, j) → Writes (partDel s.devices i j)
  apart : ∀ i j p q, findDevAndPart s.devices id = some (i, j) → s.current = some i →
    s.partnum = 0 → j ≠ 0 → mtdPartInfo s.devices i 0 = some p → mtdPartInfo s.devices i j = some q →
    p.offset < q.offset

theorem partDelCmd_settles (h : Coherent cfg s) (id : Text) (hf : FineDel s id) (i j : ℕ)
    (hfound : findDevAndPart s.devices id = some (i, j)) :
    ∃ s', partDelCmd s i j = some s' ∧ Removed s i j s' := by
  obtain ⟨d, hi, hj, -⟩ := findDevAndPart_there s.devices h.few id i j hfound
  have hfew := h.few d (List.mem_of_getElem? hi)
  have hnum : d.numParts = d.parts.length := Nat.mod_eq_of_lt (by omega)
  unfold partDelCmd
  rw [hi]
  dsimp only
  split_ifs with hone
  · exact deviceDel_settles h i j d hi hone
  · have hdel : partDel s.devices i j = s.devices.set i { d with parts := d.parts.eraseIdx j } := by
      rw [partDel, hi]
      exact if_neg hone
    have hlen : (d.parts.eraseIdx j).length = d.parts.length-1 := List.length_eraseIdx_of_lt hj
    obtain ⟨q, hq⟩ := mtdPartInfo_there s.devices i j d hi (by omega) hj
    cases hafter : partnumAfterDel s i j with
    | none =>
      have hc : s.current ≠ some i := by
        intro hc
        obtain ⟨p, hp⟩ := h.designates.there i hc
        rw [partnumAfterDel, if_pos hc, hp, hq] at hafter
        dsimp only at hafter
        split_ifs at hafter
      have hd := designates_set h i d { d with parts := d.parts.eraseIdx j } s.partnum hi
        (by dsimp only; omega) (fun hno => absurd hno hc) (fun _ => rfl)
      rw [← hdel] at hd
      exact ⟨_, indexPartitions_there hd, ⟨rfl, rfl⟩, hd, rfl⟩
    | some n =>
      have hcur : s.current = some i ∧ n < d.parts.length-1 := by
        have hc : s.current = some i := by
          by_contra hno
          rw [partnumAfterDel, if_neg hno] at hafter
          cases hafter
        rw [partnumAfterDel, if_pos hc] at hafter
        refine ⟨hc, ?_⟩
        obtain ⟨p, hp⟩ := h.designates.there i hc
        obtain ⟨e, he, hpart⟩ := h.designates.part i hc
        have hed : d = e := Option.some.inj (hi.symm.trans he)
        subst hed
        rw [hp, hq] at hafter
        dsimp only at hafter
        split_ifs at hafter with h1 h2
        · cases hafter
          omega
        · cases hafter
          have hpos : 0 < s.partnum := by
            by_contra h0
            have h0' : s.partnum = 0 := by omega
            have := hf.apart i j p q hfound hc h0' (by omega) (h0' ▸ hp) hq
            omega
          omega
        · cases hafter
          have hlast : s.partnum ≠ d.parts.length-1 := by
            intro hlast
            obtain ⟨e1, he1, -, hp1⟩ := mtdPartInfo_some _ _ _ p hp
            obtain ⟨e2, he2, -, hq1⟩ := mtdPartInfo_some _ _ _ q hq
            have hd1 : d = e1 := Option.some.inj (hi.symm.trans he1)
            have hd2 : d = e2 := Option.some.inj (hi.symm.trans he2)
            subst hd1
            subst hd2
            obtain ⟨b1, hb1⟩ := List.getElem?_eq_some_iff.1 hp1
            obtain ⟨b2, hb2⟩ := List.getElem?_eq_some_iff.1 hq1
            have hsorted := (h.sound.each d (List.mem_of_getElem? hi)).sorted
            have hle := List.pairwise_iff_getElem.1 hsorted j s.partnum b2 b1 (by omega)
            rw [hb1, hb2] at hle
            exact h2 hle
          omega
      have hd := designates_set h i d { d with parts := d.parts.eraseIdx j } n hi
        (by dsimp only; omega) (fun _ => by dsimp only; omega) (fun hno => absurd hcur.1 hno)
      rw [← hdel] at hd
      have hr : Removed s i j { s with devices := partDel s.devices i j, partnum := n } :=
        ⟨⟨rfl, rfl⟩, hd, rfl⟩
      obtain ⟨s', hs, hsame⟩ := currentSave_there hd
      exact ⟨s', hs, hsame.removed s i j hr⟩

theorem deletePartition_settles (h : Coherent cfg s) (hsync : InSync s) (id : Text)
    (hf : FineDel s id) :
    ∃ rc s', deletePartition s id = some (rc, s') ∧ Coherent cfg s' := by
  unfold deletePartition
  split
  · exact ⟨1, s, rfl, h⟩
  · next i j hfound =>
    obtain ⟨s1, hs1, hr⟩ := partDelCmd_settles h id hf i j hfound
    rw [hs1, Option.bind_eq_bind, Option.bind_some]
    have hids : s1.lastIds ≠ [] ∧ parseMtdids cfg.flash s1.lastIds = (0, s1.ids) := by
      rw [hr.ids.1, hr.ids.2]
      exact ⟨hsync.ids.2, h.ids hsync.ids.2⟩
    have hsound : Sound cfg.flash s1.ids s1.devices := by
      rw [hr.ids.1, hr.devices]
      exact partDel_sound s.devices i j h.sound
    obtain ⟨s', hs', hc⟩ := generateMtdpartsSave_settles hids hsound hr.designates
      (hr.devices ▸ hf.writes i j hfound)
    exact ⟨0, s', hs', hc⟩

theorem chpart_settles (h : Coherent cfg s) (id : Text) :
    ∃ rc s', chpart s id = some (rc, s') ∧ Coherent cfg s' := by
  unfold chpart
  split
  · exact ⟨1, s, rfl, h⟩
  · next i j hf =>
    obtain ⟨s', hs, hc, -⟩ := makeCurrent h id i j hf
    exact ⟨0, s', by rw [hs]; rfl, hc⟩

end Between

/-! ## Runs -/

/-- What a run asks of its next command. -/
def Fine (cfg : Config) (s : State) : Cmd → Prop
  | .setIds _ => True
  | .setParts _ => True
  | .setPartition _ => True
  | .default => True
  | .init => ShortPartition s
  | .delall => ShortPartition s
  | .chpart _ => ShortPartition s
  | .add dev size name flag => ShortPartition s ∧
      ∀ s1, mtdpartsInit cfg s = some (0, s1) → FineAdd cfg s1 dev size name flag
  | .del id => ShortPartition s ∧ ∀ s1, mtdpartsInit cfg s = some (0, s1) → FineDel s1 id

theorem afterInit_settles (cfg : Config) (s : State) (h : Coherent cfg s) (hs : ShortPartition s)
    (act : State → Option (ℕ × State))
    (hact : ∀ s1, mtdpartsInit cfg s = some (0, s1) → Coherent cfg s1 → InSync s1 →
      ∃ rc s', act s1 = some (rc, s') ∧ Coherent cfg s') :
    ∃ rc s', afterInit cfg s act = some (rc, s') ∧ Coherent cfg s' := by
  obtain ⟨rc, s1, hi, hc, hsync⟩ := mtdpartsInit_settles h hs
  rw [afterInit, hi, Option.bind_eq_bind, Option.bind_some]
  dsimp only
  split_ifs with h0
  · exact ⟨1, s1, rfl, hc⟩
  · have hrc : rc = 0 := not_not.1 h0
    subst hrc
    exact hact s1 hi hc (hsync rfl)

theorem Coherent.env (cfg : Config) (s : State) (h : Coherent cfg s) (ids parts partition : Option Text) :
    Coherent cfg { s with envIds := ids, envParts := parts, envPartition := partition } :=
  ⟨h.ids, h.parts, h.empty, h.designates.empty, h.designates.there⟩

theorem exec_settles (cfg : Config) (s : State) (h : Coherent cfg s) (cmd : Cmd)
    (hf : Fine cfg s cmd) : ∃ rc s', exec cfg s cmd = some (rc, s') ∧ Coherent cfg s' := by
  cases cmd with
  | setIds t => exact ⟨0, _, rfl, h.env cfg s t s.envParts s.envPartition⟩
  | setParts t => exact ⟨0, _, rfl, h.env cfg s s.envIds t s.envPartition⟩
  | setPartition t => exact ⟨0, _, rfl, h.env cfg s s.envIds s.envParts t⟩
  | init =>
    obtain ⟨rc, s', hi, hc, -⟩ := mtdpartsInit_settles h hf
    exact ⟨rc, s', hi, hc⟩
  | default =>
    have hd : Coherent cfg (setDefaults cfg s) := h.env cfg s cfg.mtdidsDefault cfg.mtdpartsDefault none
    obtain ⟨rc, s', hi, hc, -⟩ := mtdpartsInit_settles hd (fun t ht => absurd ht (by simp [setDefaults]))
    exact ⟨0, s', by rw [exec, hi]; rfl, hc⟩
  | delall =>
    obtain ⟨rc, s1, hi, hc, -⟩ := mtdpartsInit_settles h hf
    refine ⟨0, cleared { s1 with envParts := none }, ?_, cleared_coherent hc.ids⟩
    rw [exec, hi]
    rfl
  | add dev size name flag =>
    exact afterInit_settles cfg s h hf.1 _ (fun s1 hi hc hs =>
      addPartition_settles hc hs dev size name flag (hf.2 s1 hi))
  | del id =>
    exact afterInit_settles cfg s h hf.1 _ (fun s1 hi hc hs =>
      deletePartition_settles hc hs id (hf.2 s1 hi))
  | chpart id =>
    exact afterInit_settles cfg s h hf _ (fun s1 _ hc _ => chpart_settles hc id)

inductive Reached (cfg : Config) : State → Prop
  | start (ids parts partition : Option Text) : Reached cfg (State.start ids parts partition)
  | step (s s' : State) (cmd : Cmd) (rc : ℕ) (h : Reached cfg s) (hf : Fine cfg s cmd)
      (he : exec cfg s cmd = some (rc, s')) : Reached cfg s'

theorem start_coherent (cfg : Config) (ids parts partition : Option Text) :
    Coherent cfg (State.start ids parts partition) where
  ids := fun h => absurd rfl h
  parts := fun h => absurd rfl h
  empty := fun _ => rfl
  designates := ⟨fun _ => rfl, fun _ h => absurd h (by simp [State.start])⟩

theorem Reached.coherent (cfg : Config) (s : State) (h : Reached cfg s) : Coherent cfg s := by
  induction h with
  | start ids parts partition => exact start_coherent cfg ids parts partition
  | step s s' cmd rc _ hf he ih =>
    obtain ⟨rc', s1, h1, hc⟩ := exec_settles cfg s ih cmd hf
    have heq : (rc', s1) = (rc, s') := Option.some.inj (h1.symm.trans he)
    cases heq
    exact hc

theorem writes_of_parse (flash : Flash) (ids : List MtdId) (devices : List MtdDevice) (text : Text)
    (hs : Sound flash ids devices) (h : generateMtdparts devices mtdpartsMaxlen = some text)
    (hlen : text.length < mtdpartsMaxlen) (hp : (parseMtdparts flash ids text).2 = devices) :
    Writes devices :=
  ⟨(parseMtdparts_iff devices hs text h).1 hp, text, h, hlen⟩

/-! ## A run, and one that is not fine -/

def nandCfg : Config := ⟨nandFlash, none, none⟩

/-- `nand0=x` and `mtdparts=x:1m(a),2m@4m(b)`. -/
def nandStart : State :=
  State.start (some ['n', 'a', 'n', 'd', '0', '=', 'x'])
    (some (mtdpartsTag ++ ['x', ':', '1', 'm', '(', 'a', ')', ',', '2', 'm', '@', '4', 'm', '(', 'b', ')']))
    none

def nandRead : State :=
  { nandStart with
    envPartition := some ['n', 'a', 'n', 'd', '0', ',', '0']
    lastIds := ['n', 'a', 'n', 'd', '0', '=', 'x']
    lastParts := nandStart.envParts.getD []
    lastPartition := ['n', 'a', 'n', 'd', '0', ',', '0']
    ids := nandIds
    devices := (parseMtdparts nandFlash nandIds (nandStart.envParts.getD [])).2
    current := some 0 }

theorem nandStart_read : mtdpartsInit nandCfg nandStart = some (0, nandRead) := rfl

def nandAdded : List MtdDevice :=
  [⟨⟨.nand, 0, 0x8000000, ['x']⟩, [⟨['a'], false, 0x100000, 0, 0⟩, ⟨['c'], false, 0x100000, 0x200000, 1⟩,
    ⟨['b'], false, 0x200000, 0x400000, 0⟩]⟩]

def nandAddedText : Text :=
  mtdpartsTag ++ ['x', ':', '1', 'm', '(', 'a', ')', ',', '1', 'm', '@', '2', 'm', '(', 'c', ')', 'r', 'o',
    ',', '2', 'm', '@', '4', 'm', '(', 'b', ')']

/-- `mtdparts add nand0 1m@2m c ro`. -/
theorem nandAdd_fine : FineAdd nandCfg nandRead ['n', 'a', 'n', 'd', '0'] ['1', 'm', '@', '2', 'm'] ['c']
    ['r', 'o'] := by
  have hparse : mtdIdParse ['n', 'a', 'n', 'd', '0'] = some (.nand, 0, []) := rfl
  have hid : idFind nandRead.ids .nand 0 = some ⟨.nand, 0, 0x8000000, ['x']⟩ := rfl
  constructor
  · intro type num t id h1 h2 _
    rw [hparse] at h1
    cases h1
    rw [hid] at h2
    cases h2
    decide +kernel
  · intro type num t id d rest l h1 h2 h3 h4
    rw [hparse] at h1
    cases h1
    rw [hid] at h2
    cases h2
    have hl : (deviceParse nandCfg.flash nandRead.ids nandRead.devices (addText
        ⟨.nand, 0, 0x8000000, ['x']⟩ ['1', 'm', '@', '2', 'm'] ['c'] ['r', 'o'])).bind
        (fun r => mergeDevice nandCfg.flash nandRead.devices r.1) = some nandAdded := by
      decide +kernel
    rw [h3, Option.bind_some, h4] at hl
    cases hl
    have hsound : Sound nandFlash nandIds nandAdded :=
      mergeDevice_sound nandRead.devices nandAdded d (parseMtdparts_sound _)
        (deviceParse_sound nandRead.devices _ rest d h3) h4
    exact writes_of_parse nandFlash nandIds nandAdded nandAddedText hsound (by decide +kernel)
      (by decide +kernel) (by decide +kernel)

def runs (cfg : Config) (cmds : List Cmd) (s : State) : Option State :=
  cmds.foldlM (fun s cmd => (exec cfg s cmd).map (·.2)) s

/-- `mtdparts=x:1m(a...a)` with a name of 491 characters. -/
def longStart : State :=
  State.start (some ['n', 'a', 'n', 'd', '0', '=', 'x'])
    (some (mtdpartsTag ++ ['x', ':', '1', 'm', '('] ++ List.replicate 491 'a' ++ [')'])) none

/-- `mtdparts=x:1m@1m(a),1m@1m(b)`. -/
def sharedStart : State :=
  State.start (some ['n', 'a', 'n', 'd', '0', '=', 'x'])
    (some (mtdpartsTag ++ ['x', ':', '1', 'm', '@', '1', 'm', '(', 'a', ')', ',', '1', 'm', '@', '1', 'm',
      '(', 'b', ')'])) none

end UBoot.Mtdparts
