import UBoot.MtdpartsLists

/-!
# The text of a list is the list

The list that `generate_mtdparts` has written is read back by `parse_mtdparts` exactly
when no partition is smaller than the least size, one of the size that stands for the rest
is alone, generated names are those of the size, and the partitions at one offset read
the same from both ends.
-/

set_option autoImplicit false

namespace UBoot.Mtdparts

open StableSort

/-! ## The writer -/

theorem put_all (pieces : List Text) (out out' : ℕ × Text)
    (h : pieces.foldlM put out = some out') :
    out'.2 = out.2 ++ pieces.flatten ∧ pieces.flatten.length ≤ out.1 := by
  induction pieces generalizing out with
  | nil =>
    cases h
    simp
  | cons piece pieces ih =>
    obtain ⟨out1, h1, h2⟩ := Option.bind_eq_some_iff.1 h
    unfold put at h1
    split_ifs at h1 with hroom
    cases h1
    obtain ⟨htext, hlen⟩ := ih _ h2
    rw [List.flatten_cons, List.length_append, htext, List.append_assoc]
    exact ⟨rfl, by dsimp only at hlen; omega⟩

theorem generateMtdparts_some (devices : List MtdDevice) (buflen : ℕ) (text : Text)
    (hne : devices ≠ []) (h : generateMtdparts devices buflen = some text) :
    text = mtdpartsTag ++ (devicesPieces devices).flatten ∧
      (devicesPieces devices).flatten.length ≤ buflen-1 := by
  rw [generateMtdparts, if_neg hne] at h
  obtain ⟨out, hout, rfl⟩ := Option.map_eq_some_iff.1 h
  exact put_all _ _ out hout

/-! ## The partitions of a device -/

/-- No partition is too small, and none but the last has the size that stands for the rest. -/
@[grind]
def Readable : List PartInfo → Prop
  | [] => True
  | p::ps => minPartSize ≤ p.size ∧ (p.size = sizeRemaining → ps = []) ∧ Readable ps

instance decidableReadable : (ps : List PartInfo) → Decidable (Readable ps)
  | [] => isTrue trivial
  | _::ps => @instDecidableAnd _ _ _ (@instDecidableAnd _ _ _ (decidableReadable ps))

@[grind]
def partsText (prev : Option PartInfo) : List PartInfo → Text
  | [] => []
  | p::ps => (partPieces prev p (ps ≠ [])).flatten ++ partsText (some p) ps

theorem partsPieces_flatten (num cnt : ℕ) (prev : Option PartInfo) (ps : List PartInfo)
    (h : num = cnt+ps.length) : (partsPieces num cnt prev ps).flatten = partsText prev ps := by
  induction ps generalizing cnt prev with
  | nil => rfl
  | cons p ps ih =>
    rw [List.length_cons] at h
    rw [partsPieces, partsText, List.flatten_append, ih (cnt+1) (some p) (by omega)]
    have hmore : decide (cnt+1 < num) = decide (ps ≠ []) := by
      rw [decide_eq_decide, ← List.length_pos_iff]
      omega
    rw [hmore]

theorem partPieces_ne (prev : Option PartInfo) (p : PartInfo) (more : Bool) :
    ∃ c t, (partPieces prev p more).flatten = c::t ∧ c.isDigit = true := by
  obtain ⟨c, t, h, hc⟩ := memsizeFormat_digit p.size
  rw [partPieces_flatten, h]
  exact ⟨c, _, rfl, hc⟩

theorem partsText_length (prev : Option PartInfo) (ps : List PartInfo) :
    ps.length ≤ (partsText prev ps).length := by
  induction ps generalizing prev with
  | nil => simp
  | cons p ps ih =>
    obtain ⟨c, t, h, -⟩ := partPieces_ne prev p (ps ≠ [])
    have := ih (some p)
    rw [partsText, h, List.length_cons, List.length_append, List.length_cons]
    omega

theorem partValidate_reread (flash : Flash) (id : MtdId) (p : PartInfo)
    (h : partValidate flash id p = some p) : partValidate flash id p.reread = some p.reread := by
  obtain ⟨-, hf⟩ := (partValidate_iff flash id p p).1 h
  have hf' : Fits flash id p.reread := ⟨hf.start, hf.grows, hf.inside, hf.aligned⟩
  exact (partValidate_iff flash id _ _).2 ⟨(hf'.fillUp_eq).symm, hf'⟩

/-- Where the parser stands behind a partition. -/
def behind (prev : Option PartInfo) : ℕ :=
  match prev with
  | none => 0
  | some q => q.offset+q.size

theorem reread_offset (prev : Option PartInfo) (p : PartInfo) (hw : p.Writable) :
    (if (if gapBefore prev p then p.offset else offsetNotSpecified) = offsetNotSpecified
      then w32 (behind prev) else if gapBefore prev p then p.offset else offsetNotSpecified) =
      p.offset := by
  have ho := hw.offset
  cases hg : gapBefore prev p with
  | true =>
    rw [if_pos rfl, if_neg (by omega)]
  | false =>
    have hnone : (if false = true then p.offset else offsetNotSpecified) = offsetNotSpecified :=
      if_neg (by simp)
    rw [hnone, if_pos rfl]
    cases prev with
    | none =>
      have h0 : p.offset = 0 := by simpa [gapBefore] using hg
      rw [h0]
      rfl
    | some q => simpa [gapBefore, behind] using hg

theorem parseParts_written (flash : Flash) (id : MtdId) (ps : List PartInfo)
    (hv : ∀ p ∈ ps, partValidate flash id p = some p) (hw : ∀ p ∈ ps, p.Writable)
    (prev : Option PartInfo) (n : ℕ) (hn : ps.length < n) (rest : Text) (hr : Opens [';'] rest) :
    parseParts flash id n (behind prev) (partsText prev ps ++ rest) =
      if Readable ps then some (ps.map PartInfo.reread, rest) else none := by
  induction ps generalizing prev n with
  | nil =>
    cases n with
    | zero => exact absurd hn (by simp)
    | succ n =>
      rw [partsText, List.nil_append, parseParts, if_pos, if_pos (by trivial)]
      · rfl
      · cases rest with
        | nil => exact Or.inl rfl
        | cons c t => exact Or.inr (congrArg some (List.mem_singleton.1 (hr c rfl)))
  | cons p ps ih =>
    cases n with
    | zero => exact absurd hn (by simp)
    | succ n =>
      obtain ⟨c, t, htext, hdigit⟩ := partPieces_ne prev p (ps ≠ [])
      have hend : decide (ps ≠ []) = true ∨ Opens [';'] (partsText (some p) ps ++ rest) := by
        cases ps with
        | nil => exact Or.inr hr
        | cons q ps => exact Or.inl (by simp)
      have hparse := partParse_written prev hend (hw p (by simp))
      have hgo : ¬(partsText prev (p::ps) ++ rest = [] ∨
          (partsText prev (p::ps) ++ rest).head? = some ';') := by
        rw [partsText, htext]
        rintro (h | h)
        · cases h
        · cases h
          exact absurd hdigit (by decide)
      rw [parseParts, if_neg hgo, partsText, List.append_assoc, hparse]
      by_cases hbad : p.size < minPartSize ∨ decide (ps ≠ []) = true ∧ p.size = sizeRemaining
      · rw [if_pos hbad, if_neg]
        · rfl
        · rintro ⟨h1, h2, -⟩
          rcases hbad with h | ⟨h, h'⟩
          · omega
          · exact of_decide_eq_true h (h2 h')
      · rw [if_neg hbad]
        simp only [Option.bind_eq_bind, Option.bind_some]
        rw [reread_offset prev p (hw p (by simp))]
        have hsame : { p.reread with offset := p.offset } = p.reread := rfl
        rw [hsame, partValidate_reread flash id p (hv p (by simp)), Option.bind_some]
        have hnext := ih (fun q hq => hv q (by simp [hq])) (fun q hq => hw q (by simp [hq]))
          (some p) n (by simpa using hn)
        rw [show p.reread.offset+p.reread.size = behind (some p) from rfl, hnext]
        have hread : Readable (p::ps) ↔ Readable ps := by
          rw [Readable]
          constructor
          · exact fun h => h.2.2
          · intro h
            refine ⟨by omega, fun hs => ?_, h⟩
            by_contra hne
            exact hbad (Or.inr ⟨decide_eq_true hne, hs⟩)
        by_cases h : Readable ps
        · rw [if_pos h, if_pos (hread.2 h)]
          rfl
        · rw [if_neg h, if_neg (fun h' => h (hread.1 h'))]
          rfl

theorem sharing_reread (k : ℕ) (ps : List PartInfo) :
    sharing PartInfo.offset k (ps.map PartInfo.reread) =
      (sharing PartInfo.offset k ps).map PartInfo.reread := List.filter_map

theorem sortAddAll_free (ps acc : List PartInfo)
    (h : (sharing PartInfo.offset 0 (ps ++ acc)).length ≤ 1) :
    ps.foldlM (fun acc p => partSortAdd p acc) acc =
      some (ps.foldl (fun acc p => acc.orderedInsert (Le PartInfo.offset) p) acc) := by
  induction ps generalizing acc with
  | nil => rfl
  | cons p ps ih =>
    have hfree : p.offset ≠ 0 ∨ ∀ q ∈ acc, q.offset ≠ 0 := by
      by_contra hno
      push Not at hno
      obtain ⟨hp, q, hq, hq0⟩ := hno
      have hin : q ∈ sharing PartInfo.offset 0 (ps ++ acc) := by
        simp [sharing, hq, hq0]
      have hpos := List.length_pos_of_mem hin
      unfold sharing at h hpos
      rw [List.cons_append, List.filter_cons, if_pos (by simpa using hp), List.length_cons] at h
      omega
    rw [List.foldlM_cons, partSortAdd_free p acc hfree, Option.bind_eq_bind, Option.bind_some,
      List.foldl_cons]
    apply ih
    have hperm := (List.perm_orderedInsert (Le PartInfo.offset) p acc).append_left ps
    have hperm' := (hperm.trans List.perm_middle).filter (PartInfo.offset · = 0)
    unfold sharing at h ⊢
    rw [hperm'.length_eq]
    exact h

theorem sortAddAll_written (ps : List PartInfo) (h : (sharing PartInfo.offset 0 ps).length ≤ 1) :
    sortAddAll (ps.map PartInfo.reread) =
      some ((ps.map PartInfo.reread).reverse.insertionSort (Le PartInfo.offset)) := by
  rw [sortAddAll, sortAddAll_free, List.insertionSort, List.foldr_reverse]
  rw [List.append_nil, sharing_reread, List.length_map]
  exact h

/-! ## Devices -/

/-- What a device is read as once it is written. -/
def MtdDevice.reread (d : MtdDevice) : Option MtdDevice :=
  if Readable d.parts then
    some ⟨d.id, (d.parts.map PartInfo.reread).reverse.insertionSort (Le PartInfo.offset)⟩
  else none

structure MtdDevice.Restorable (d : MtdDevice) : Prop where
  readable : Readable d.parts
  named : ∀ p ∈ d.parts, p.autoName = true → p.name = generatedName p.size 0
  mirrored : ∀ o, (sharing PartInfo.offset o d.parts).reverse = sharing PartInfo.offset o d.parts

theorem reread_eq_iff (p : PartInfo) :
    p.reread = p ↔ (p.autoName = true → p.name = generatedName p.size 0) := by
  unfold PartInfo.reread
  constructor
  · intro h ha
    have hn := congrArg PartInfo.name h
    rw [if_pos ha] at hn
    exact hn.symm
  · intro h
    by_cases ha : p.autoName = true
    · rw [if_pos ha, ← h ha]
    · rw [if_neg ha]

theorem reread_reread (p : PartInfo) : p.reread.reread = p.reread := by
  rw [reread_eq_iff]
  intro ha
  exact if_pos ha

theorem map_reread (ps : List PartInfo) (h : ∀ p ∈ ps, p.reread = p) :
    ps.map PartInfo.reread = ps := by
  conv_rhs => rw [← List.map_id ps]
  exact List.map_congr_left h

theorem MtdDevice.reread_iff (d : MtdDevice) (hs : d.parts.Pairwise (Le PartInfo.offset)) :
    d.reread = some d ↔ d.Restorable := by
  unfold MtdDevice.reread
  constructor
  · intro h
    split_ifs at h with hr
    have hparts := congrArg MtdDevice.parts (Option.some.inj h)
    dsimp only at hparts
    have hsame : ∀ p ∈ d.parts, p.reread = p := by
      intro p hp
      rw [← hparts] at hp
      have hperm := List.perm_insertionSort (Le PartInfo.offset) (d.parts.map PartInfo.reread).reverse
      obtain ⟨q, -, rfl⟩ := List.mem_map.1 (List.mem_reverse.1 (hperm.subset hp))
      exact reread_reread q
    rw [map_reread d.parts hsame] at hparts
    exact ⟨hr, fun p hp => (reread_eq_iff p).1 (hsame p hp),
      (sort_reverse_iff PartInfo.offset d.parts hs).1 hparts⟩
  · intro h
    rw [if_pos h.readable, map_reread d.parts (fun p hp => (reread_eq_iff p).2 (h.named p hp)),
      (sort_reverse_iff PartInfo.offset d.parts hs).2 h.mirrored]

section Devices
variable {flash : Flash} {ids : List MtdId}

theorem deviceParse_written (devices : List MtdDevice) (d : MtdDevice) (hd : d.Sound flash ids)
    (hlen : d.parts.length < 65536) (hnew : deviceFind devices d.id.type d.id.num = none)
    (rest : Text) (hr : Opens [';'] rest) :
    deviceParse flash ids devices (d.id.mtdId ++ ([':'] ++ (partsText none d.parts ++ rest))) =
      d.reread.map (fun e => (e, rest.tail)) := by
  have hall : ∀ c ∈ d.id.mtdId, decide (c ≠ ':') = true := by
    intro c hc
    exact decide_eq_true (fun h => hd.plain (h ▸ hc))
  have hstart : startOffset devices d.id = behind none := by
    rw [startOffset, hnew]
    rfl
  have hfuel : d.parts.length < (partsText none d.parts ++ rest).length+1 := by
    have := partsText_length none d.parts
    rw [List.length_append]
    omega
  have hparts := parseParts_written flash d.id d.parts hd.valid hd.writable none _ hfuel rest hr
  have hpos := List.length_pos_iff.2 hd.filled
  rw [deviceParse, List.dropWhile_append_of_pos hall, List.takeWhile_append_of_pos hall]
  simp only [List.singleton_append, ne_eq, not_true_eq_false, decide_false, Bool.false_eq_true,
    not_false_eq_true, List.dropWhile_cons_of_neg, List.takeWhile_cons_of_neg, List.append_nil]
  rw [hd.known, Option.bind_eq_bind, Option.bind_some, hstart, hparts, MtdDevice.reread]
  by_cases hread : Readable d.parts
  · rw [if_pos hread, if_pos hread]
    simp only [Option.bind_eq_bind, Option.bind_some]
    rw [if_neg (by rw [List.length_map]; omega), sortAddAll_written d.parts hd.zero]
    rfl
  · rw [if_neg hread, if_neg hread]
    rfl

@[grind]
def devicesText : List MtdDevice → Text
  | [] => []
  | d::ds => d.id.mtdId ++ ([':'] ++ (partsText none d.parts ++
      (if ds = [] then [] else ';'::devicesText ds)))

theorem partsPieces_length (num cnt : ℕ) (prev : Option PartInfo) (ps : List PartInfo) :
    ps.length ≤ (partsPieces num cnt prev ps).flatten.length := by
  induction ps generalizing cnt prev with
  | nil => simp
  | cons p ps ih =>
    obtain ⟨c, t, h, -⟩ := partPieces_ne prev p (cnt+1 < num)
    have := ih (cnt+1) (some p)
    rw [partsPieces, List.flatten_append, h, List.length_append, List.length_cons, List.length_cons]
    omega

theorem devicesPieces_length (devices : List MtdDevice) (d : MtdDevice) (hd : d ∈ devices) :
    d.parts.length ≤ (devicesPieces devices).flatten.length := by
  induction devices with
  | nil => exact absurd hd (by simp)
  | cons e devices ih =>
    simp only [devicesPieces, List.flatten_append, List.length_append]
    rcases List.mem_cons.1 hd with rfl | hd
    · have := partsPieces_length d.numParts 0 none d.parts
      omega
    · have := ih hd
      omega

theorem devicesPieces_flatten (devices : List MtdDevice)
    (h : ∀ d ∈ devices, d.parts.length < 65536) :
    (devicesPieces devices).flatten = devicesText devices := by
  induction devices with
  | nil => rfl
  | cons d devices ih =>
    have hnum : d.numParts = 0+d.parts.length := by
      rw [MtdDevice.numParts, Nat.mod_eq_of_lt (h d (by simp)), Nat.zero_add]
    rw [devicesPieces, devicesText, List.flatten_append, List.flatten_append, List.flatten_append,
      ih (fun e he => h e (by simp [he])), partsPieces_flatten _ 0 none d.parts hnum]
    cases devices with
    | nil => simp [devicesText]
    | cons e devices => simp

theorem devicesText_ne (d : MtdDevice) (ds : List MtdDevice) : devicesText (d::ds) ≠ [] := by
  simp [devicesText]

theorem devicesText_length (devices : List MtdDevice) : devices.length ≤ (devicesText devices).length := by
  induction devices with
  | nil => simp
  | cons d devices ih =>
    rw [devicesText]
    split_ifs with h
    · subst h
      simp only [List.length_append, List.length_cons, List.length_nil]
      omega
    · simp only [List.length_append, List.length_cons]
      omega

theorem MtdDevice.reread_id (d e : MtdDevice) (h : d.reread = some e) : e.id = d.id := by
  unfold MtdDevice.reread at h
  split_ifs at h
  cases h
  rfl

theorem deviceFind_apart (devices : List MtdDevice) (id : MtdId)
    (h : ∀ e ∈ devices.map MtdDevice.id, Apart e id) : deviceFind devices id.type id.num = none := by
  apply List.find?_eq_none.2
  intro d hd
  simpa [Apart] using h d.id (List.mem_map_of_mem hd)

theorem parseDevices_written (ds acc : List MtdDevice) (hs : ∀ d ∈ ds, d.Sound flash ids)
    (hlen : ∀ d ∈ ds, d.parts.length < 65536)
    (hd : (acc.map MtdDevice.id ++ ds.map MtdDevice.id).Pairwise Apart)
    (n : ℕ) (hn : ds.length < n) :
    parseDevices flash ids n acc (devicesText ds) = (ds.mapM MtdDevice.reread).map (acc ++ ·) := by
  induction ds generalizing acc n with
  | nil =>
    cases n with
    | zero => exact absurd hn (by simp)
    | succ n =>
      rw [devicesText, parseDevices, if_pos rfl]
      simp
  | cons d ds ih =>
    cases n with
    | zero => exact absurd hn (by simp)
    | succ n =>
      have hnew : deviceFind acc d.id.type d.id.num = none := by
        apply deviceFind_apart
        intro e he
        exact (List.pairwise_append.1 hd).2.2 e he d.id (by simp)
      have hopen : Opens [';'] (if ds = [] then [] else ';'::devicesText ds) := by
        split_ifs
        · exact fun _ h => absurd h (by simp)
        · exact opens_cons _ _ _ (by simp)
      have htail : (if ds = [] then [] else ';'::devicesText ds).tail = devicesText ds := by
        split_ifs with h
        · subst h
          rfl
        · rfl
      have hparse := deviceParse_written acc d (hs d (by simp)) (hlen d (by simp)) hnew _ hopen
      rw [parseDevices, if_neg (devicesText_ne d ds), devicesText, hparse, List.mapM_cons, htail]
      cases hre : d.reread with
      | none => rfl
      | some e =>
        have hid := d.reread_id e hre
        simp only [Option.map_some, Option.bind_eq_bind, Option.bind_some, Option.pure_def]
        rw [hid, hnew, if_neg (by simp), ih (acc ++ [e]) (fun x hx => hs x (by simp [hx]))
          (fun x hx => hlen x (by simp [hx])) _ n (by simpa using hn)]
        · cases ds.mapM MtdDevice.reread <;> simp
        · rw [List.map_append, List.map_singleton, hid, List.append_assoc]
          exact hd

theorem mapM_reread (ds : List MtdDevice) :
    ds.mapM MtdDevice.reread = some ds ↔ ∀ d ∈ ds, d.reread = some d := by
  induction ds with
  | nil => simp
  | cons d ds ih =>
    rw [List.mapM_cons, List.forall_mem_cons, ← ih]
    cases hd : d.reread with
    | none => simp
    | some e => cases ds.mapM MtdDevice.reread <;> simp

/-- What is read from the written list. -/
theorem parseMtdparts_written (devices : List MtdDevice) (hs : Sound flash ids devices)
    (text : Text) (h : generateMtdparts devices mtdpartsMaxlen = some text) :
    (parseMtdparts flash ids text).2 = (devices.mapM MtdDevice.reread).getD [] := by
  cases devices with
  | nil =>
    cases h
    rfl
  | cons d ds =>
    obtain ⟨rfl, hroom⟩ := generateMtdparts_some (d::ds) _ text (by simp) h
    have hlen : ∀ e ∈ d::ds, e.parts.length < 65536 := by
      intro e he
      have := devicesPieces_length (d::ds) e he
      unfold mtdpartsMaxlen at hroom
      omega
    rw [devicesPieces_flatten (d::ds) hlen]
    have hfuel : (d::ds).length < (devicesText (d::ds)).length+1 :=
      Nat.lt_succ_of_le (devicesText_length (d::ds))
    have hparse := parseDevices_written (d::ds) [] hs.each hlen (by simpa using hs.distinct) _ hfuel
    rw [parseMtdparts, if_pos (by rfl)]
    dsimp only
    rw [List.drop_left' (by rfl), if_neg (devicesText_ne d ds), hparse]
    cases (d::ds).mapM MtdDevice.reread <;> simp

theorem parseMtdparts_iff (devices : List MtdDevice) (hs : Sound flash ids devices)
    (text : Text) (h : generateMtdparts devices mtdpartsMaxlen = some text) :
    (parseMtdparts flash ids text).2 = devices ↔ ∀ d ∈ devices, d.Restorable := by
  have hiff : (∀ d ∈ devices, d.Restorable) ↔ ∀ d ∈ devices, d.reread = some d :=
    forall₂_congr (fun d hd => (d.reread_iff (hs.each d hd).sorted).symm)
  rw [parseMtdparts_written devices hs text h, hiff, ← mapM_reread]
  cases hm : devices.mapM MtdDevice.reread with
  | some l => simp
  | none =>
    constructor
    · intro hnil
      rw [Option.getD_none] at hnil
      subst hnil
      exact absurd hm (by simp)
    · intro hno
      cases hno

end Devices

def nandFlash : Flash := fun type num =>
  if type = .nand ∧ num = 0 then some ⟨0x8000000, 0x20000, []⟩ else none

def nandIds : List MtdId := [⟨.nand, 0, 0x8000000, ['x']⟩]

/-- `mtdparts=x:1m(a),2m@4m(b)`, then `x:1m@2m(c)ro` added and the first partition deleted. -/
def nandOps : List Op :=
  [.parse (mtdpartsTag ++ ['x', ':', '1', 'm', '(', 'a', ')', ',', '2', 'm', '@', '4', 'm', '(', 'b', ')']),
    .add ['x', ':', '1', 'm', '@', '2', 'm', '(', 'c', ')', 'r', 'o'], .partDel 0 0]

def nandText : Text :=
  mtdpartsTag ++ ['x', ':', '1', 'm', '@', '2', 'm', '(', 'c', ')', 'r', 'o', ',', '2', 'm', '@', '4', 'm',
    '(', 'b', ')']

/-- `mtdparts=x:1m@1m(a),1m@1m(b)`. -/
def sharedOps : List Op :=
  [.parse (mtdpartsTag ++ ['x', ':', '1', 'm', '@', '1', 'm', '(', 'a', ')', ',', '1', 'm', '@', '1', 'm',
    '(', 'b', ')'])]

end UBoot.Mtdparts
