import UBoot.FatNames

/-!
# A new entry of a directory and its name

The slots and the entry go to the cluster with the first empty entry, or, where
that is full, on to an empty cluster that is put behind it.
-/

set_option autoImplicit false

namespace UBoot.Fat

open ByteStore

namespace Dirs

variable {v : Dirs} (fuel : ℕ)

/-! ## Writing -/

theorem direntsPerClust_ge (v : Dirs) : 16 ≤ v.direntsPerClust := by
  have hmul := Nat.mul_le_mul v.clustSize_pos v.sectSize_ge
  exact (Nat.le_div_iff_mul_le (by decide)).2 (by omega)

theorem buflimit_of_ne {curclust : ℕ} (h : curclust ≠ 0) :
    v.buflimit curclust = v.direntsPerClust := by
  rw [buflimit, if_neg h, direntsPerClust, Nat.mul_comm]

theorem nextClust_of_lt {d : Dir} (h : d.dentptr < v.direntsPerClust) :
    v.nextClust fuel d = d :=
  if_neg (by simpa [isNextClust] using h)

theorem nextClust_of_le {d : Dir} (h : v.direntsPerClust ≤ d.dentptr) :
    v.nextClust fuel d = v.flushDirTable fuel d :=
  if_pos (decide_eq_true h)

theorem nextClust_lt (d : Dir) : (v.nextClust fuel d).dentptr < v.direntsPerClust := by
  by_cases h : d.dentptr < v.direntsPerClust
  · rwa [nextClust_of_lt fuel h]
  · rw [nextClust_of_le fuel (not_lt.1 h)]
    exact Nat.lt_of_lt_of_le (Nat.succ_pos 15) v.direntsPerClust_ge

theorem copySlots_append (as bs : List Dirent) (d : Dir) :
    v.copySlots fuel (as++bs) d = v.copySlots fuel bs (v.copySlots fuel as d) := by
  induction as generalizing d with
  | nil => rfl
  | cons slot as ih => exact ih _

/-- The cluster can be changed before the slots as well as before the first of them. -/
theorem nextClust_copySlots (ws : List Dirent) (d : Dir) :
    v.nextClust fuel (v.copySlots fuel ws (v.nextClust fuel d)) =
      v.nextClust fuel (v.copySlots fuel ws d) := by
  have hsame := nextClust_of_lt fuel (nextClust_lt (v := v) fuel d)
  cases ws with
  | nil => exact hsame
  | cons slot ws => rw [copySlots, copySlots, hsame]

/-- Slots for which there is room in the cluster. -/
theorem copySlots_within (ws : List Dirent) (d : Dir) (h : d.dentptr+ws.length ≤ v.direntsPerClust) :
    ∃ block, v.copySlots fuel ws d = { d with block := block, dentptr := d.dentptr+ws.length } ∧
      Stands block d.dentptr ws ∧
      ∀ i, i < d.dentptr ∨ d.dentptr+ws.length ≤ i → block i = d.block i := by
  induction ws generalizing d with
  | nil => exact ⟨d.block, rfl, nofun, fun _ _ => rfl⟩
  | cons slot ws ih =>
    rw [List.length_cons] at h
    have hin : (d.put slot).next.dentptr = d.dentptr+1 := rfl
    obtain ⟨block, hcopy, hstands, hout⟩ := ih (d.put slot).next (by omega)
    rw [hin] at hcopy hstands hout
    have hput : ∀ i, i ≠ d.dentptr → (d.put slot).next.block i = d.block i := fun i hi =>
      Function.update_of_ne hi _ _
    refine ⟨block, ?_, ?_, fun i hi => ?_⟩
    · rw [copySlots, nextClust_of_lt fuel (by omega), hcopy, List.length_cons, Nat.add_right_comm,
        Nat.add_assoc]
      rfl
    · refine (@stands_append _ _ [slot] _).2 ⟨stands_singleton.2 ?_, hstands⟩
      rw [hout _ (.inl (Nat.lt_succ_self _))]
      exact Function.update_self ..
    · rw [List.length_cons] at hi
      rw [hout i (by omega), hput i (by omega)]

/-- Slots and an entry behind them for which there is room in the cluster. -/
theorem fill_within {ws : List Dirent} {d : Dir} (h : d.dentptr+ws.length < v.direntsPerClust) :
    ∃ block, v.nextClust fuel (v.copySlots fuel ws d) =
        { d with block := block, dentptr := d.dentptr+ws.length } ∧
      Stands block d.dentptr ws ∧
      ∀ i, i < d.dentptr ∨ d.dentptr+ws.length ≤ i → block i = d.block i := by
  obtain ⟨block, hcopy, hstands, hout⟩ := copySlots_within fuel ws d h.le
  refine ⟨block, ?_, hstands, hout⟩
  rw [hcopy, nextClust_of_lt fuel h]

/-- Slots that begin in an empty cluster. -/
theorem fill_fresh {ws : List Dirent} {d : Dir} (hd : v.direntsPerClust ≤ d.dentptr)
    (h : ws.length < v.direntsPerClust) :
    ∃ block, v.nextClust fuel (v.copySlots fuel ws d) =
        { v.flushDirTable fuel d with block := block, dentptr := ws.length } ∧
      Stands block 0 ws ∧
      ∀ i, ws.length ≤ i → i < v.direntsPerClust → block i = fun _ => 0 := by
  have hstart : (v.flushDirTable fuel d).dentptr = 0 := rfl
  obtain ⟨block, hfill, hstands, hout⟩ := @fill_within v fuel ws
    (v.flushDirTable fuel d) (by omega)
  rw [hstart, Nat.zero_add] at hfill hout
  refine ⟨block, ?_, hstands, fun i hi hi' => ?_⟩
  · rw [← nextClust_copySlots, nextClust_of_le fuel hd, hfill]
  · rw [hout i (.inr hi)]
    exact if_pos hi'

/-- Slots that begin in one cluster, with the end or the entry in an empty one. -/
theorem fill_across {ws : List Dirent} {d : Dir} (hd : d.dentptr < v.direntsPerClust)
    (hend : v.direntsPerClust ≤ d.dentptr+ws.length) (h : ws.length < v.direntsPerClust) :
    ∃ block block2, v.nextClust fuel (v.copySlots fuel ws d) =
        { v.flushDirTable fuel { d with block := block, dentptr := v.direntsPerClust } with
          block := block2, dentptr := ws.length-(v.direntsPerClust-d.dentptr) } ∧
      Stands block d.dentptr (ws.take (v.direntsPerClust-d.dentptr)) ∧
      Stands block2 0 (ws.drop (v.direntsPerClust-d.dentptr)) ∧
      ∀ i, ws.length-(v.direntsPerClust-d.dentptr) ≤ i → i < v.direntsPerClust →
        block2 i = fun _ => 0 := by
  have htake : (ws.take (v.direntsPerClust-d.dentptr)).length = v.direntsPerClust-d.dentptr :=
    List.length_take_of_le (by omega)
  obtain ⟨block, hcopy, hstands, -⟩ := copySlots_within (v := v) fuel
    (ws.take (v.direntsPerClust-d.dentptr)) d (by omega)
  rw [htake, Nat.add_sub_cancel' hd.le] at hcopy
  obtain ⟨block2, hfill, hstands2, hout⟩ := @fill_fresh v fuel
    (ws.drop (v.direntsPerClust-d.dentptr))
    { d with block := block, dentptr := v.direntsPerClust } le_rfl
    (by rw [List.length_drop]; omega)
  rw [List.length_drop] at hfill hout
  refine ⟨block, block2, ?_, hstands, hstands2, hout⟩
  rw [← hfill, ← hcopy, ← copySlots_append, List.take_append_drop]

/-- The slots of a name of nine slots at most, and how they are written. -/
theorem fillDirSlot_eq (d : Dir) {name : List UInt8} (hname : ∀ c ∈ name, c ≠ 0)
    (hlen : name.length ≤ 117) :
    ∃ ss, Slots 0 name ss ∧ ss.length = slotCount name.length ∧ ss.length ≤ 9 ∧
      v.fillDirSlot fuel d name = v.nextClust fuel (v.copySlots fuel ss.reverse d) := by
  have hslots := slots_spec (mkcksum (d.block d.dentptr)) (name.length+1) 0 name hname
    (Nat.lt_succ_self _) (by decide) (by omega)
  have hcount := slots_length (mkcksum (d.block d.dentptr)) (name.length+1) 0 name hname
    (Nat.lt_succ_self _)
  have hle : slotCount name.length ≤ 9 := by
    rw [slotCount]
    omega
  refine ⟨_, hslots, hcount, hcount.trans_le hle, ?_⟩
  unfold fillDirSlot
  dsimp only
  rw [List.take_of_length_le]
  · rfl
  · rw [List.length_reverse]
    omega

/-! ## Reading -/

/-- A long name in one cluster. -/
theorem longName_within {fat : ℕ → ℕ} {clusters : ℕ → Option Block} {asked curclust p : ℕ}
    {block : Block} {name : List UInt8} {ss : List Dirent} (h : Slots 0 name ss)
    (hs : Stands block p ss.reverse) (hle : ss.length ≤ 9)
    (hroom : p+ss.length < v.buflimit curclust) :
    v.longName fat clusters asked curclust block p =
      (some ⟨cleanName name, none, p+ss.length⟩, none) := by
  have hpos := h.length_pos
  have hnum : ∀ j, j < ss.length → slotNumber (block (p+j)) = ss.length-j := fun j hj => by
    have hj' : j < ss.reverse.length := by rwa [List.length_reverse]
    rw [hs j hj', h.number hj', Nat.zero_add]
  have hfirst : slotNumber (block p) = ss.length := hnum 0 hpos
  unfold longName
  dsimp only
  rw [hfirst, if_neg (by omega), matchSlots_of_numbers fun j hj _ => hnum j hj,
    Nat.min_eq_left (by omega)]
  dsimp only
  rw [if_neg (by omega), h.text hs]

/-- A long name that goes on at the beginning of the next cluster. -/
theorem longName_across {fat : ℕ → ℕ} {clusters : ℕ → Option Block} {asked curclust p : ℕ}
    {block block2 : Block} {name : List UInt8} {ss : List Dirent} (h : Slots 0 name ss)
    (hle : ss.length ≤ 9) (hcur : curclust ≠ 0) (hp : p < v.direntsPerClust)
    (hend : v.direntsPerClust ≤ p+ss.length)
    (hs : Stands block p (ss.reverse.take (v.direntsPerClust-p)))
    (hs2 : Stands block2 0 (ss.reverse.drop (v.direntsPerClust-p)))
    (hcheck : checkClust (fat asked) v.fatsize = false)
    (hblock : clusters (fat asked) = some block2) :
    v.longName fat clusters asked curclust block p =
      (some ⟨cleanName name, some block2, ss.length-(v.direntsPerClust-p)⟩, some (fat asked)) := by
  have hpos := h.length_pos
  have hrev : ss.reverse.length = ss.length := List.length_reverse
  have hnum : ∀ j, j < ss.length → p+j < v.direntsPerClust →
      slotNumber (block (p+j)) = ss.length-j := fun j hj hj' => by
    have hj2 : j < (ss.reverse.take (v.direntsPerClust-p)).length := by
      rw [List.length_take]
      omega
    rw [hs j hj2, List.getElem_take, h.number, Nat.zero_add]
  have hnum2 : ∀ j, j < ss.length-(v.direntsPerClust-p) →
      slotNumber (block2 (0+j)) = ss.length-(v.direntsPerClust-p)-j := fun j hj => by
    have hj2 : j < (ss.reverse.drop (v.direntsPerClust-p)).length := by
      rw [List.length_drop]
      omega
    rw [hs2 j hj2, List.getElem_drop, h.number, Nat.zero_add]
    omega
  have hfirst : slotNumber (block p) = ss.length := hnum 0 hpos hp
  -- the slots with the low numbers are those of the other cluster
  rw [List.take_reverse] at hs
  rw [List.drop_reverse] at hs2
  have htext := h.text_across (n := ss.length-(v.direntsPerClust-p)) (by omega) hs2 hs
  rw [show p+(ss.length-(ss.length-(v.direntsPerClust-p))) = v.direntsPerClust by omega] at htext
  unfold longName
  dsimp only
  rw [hfirst, if_neg (by omega), buflimit_of_ne hcur, matchSlots_of_numbers hnum,
    Nat.min_eq_right (by omega), Nat.add_sub_cancel' hp.le]
  dsimp only
  rw [if_pos le_rfl, if_neg hcur, if_neg (by rw [hcheck]; decide), hblock, Option.bind_some,
    matchRest_of_numbers hnum2, Option.map_some, Nat.zero_add, htext]

/-- Nothing goes on behind the buffer for the root directory. -/
theorem longName_root {fat : ℕ → ℕ} {clusters : ℕ → Option Block} {asked p : ℕ}
    {block : Block} {name : List UInt8} {ss : List Dirent} (h : Slots 0 name ss)
    (hs : Stands block p ss.reverse) (hend : v.buflimit 0 ≤ p+ss.length) :
    (v.longName fat clusters asked 0 block p).1 = none := by
  have hpos := h.length_pos
  have hnum : ∀ j, j < ss.length → slotNumber (block (p+j)) = ss.length-j := fun j hj => by
    have hj' : j < ss.reverse.length := by rwa [List.length_reverse]
    rw [hs j hj', h.number hj', Nat.zero_add]
  have hfirst : slotNumber (block p) = ss.length := hnum 0 hpos
  unfold longName
  dsimp only
  rw [hfirst]
  by_cases h9 : ss.length > 9
  · rw [if_pos h9]
  · rw [if_neg h9, matchSlots_of_numbers fun j hj _ => hnum j hj]
    dsimp only
    rw [if_pos (by omega), if_pos rfl]

theorem longName_moved {fat : ℕ → ℕ} {clusters : ℕ → Option Block} {asked curclust p q : ℕ}
    {block : Block} (h : (v.longName fat clusters asked curclust block p).2 = some q) :
    curclust ≠ 0 ∧ fat asked = q ∧ checkClust q v.fatsize = false := by
  unfold longName at h
  dsimp only at h
  by_cases h9 : slotNumber (block p) > 9
  · rw [if_pos h9] at h
    cases h
  rw [if_neg h9] at h
  split at h
  · cases h
  · split_ifs at h with hend hcur hcheck
    cases h
    exact ⟨hcur, rfl, by simpa using hcheck⟩

/-- What a reader finds is the entry that it is given, or has a name of nine slots at most. -/
theorem longName_length {fat : ℕ → ℕ} {clusters : ℕ → Option Block} {asked curclust p : ℕ}
    {block : Block} {r : LongName}
    (h : (v.longName fat clusters asked curclust block p).1 = some r)
    (hlast : slotId (block p) &&& lastLongEntry ≠ 0) (hp : p < v.direntsPerClust) :
    (r.nextBlock = none ∧ r.realdent = p) ∨ r.name.length ≤ 117 := by
  unfold longName at h
  dsimp only at h
  by_cases h9 : slotNumber (block p) > 9
  · rw [if_pos h9] at h
    cases h
  rw [if_neg h9] at h
  split at h
  · cases h
  · next slotptr counter hmatch =>
    obtain ⟨hsum, hge⟩ := matchSlots_some hmatch
    split_ifs at h with hend hcur hcheck
    · obtain ⟨block2, -, h⟩ := Option.bind_eq_some_iff.1 h
      obtain ⟨realdent, hrest, rfl⟩ := Option.map_eq_some_iff.1 h
      rw [buflimit_of_ne hcur] at hend
      obtain ⟨n, rfl⟩ := Nat.exists_eq_add_of_lt (show p < slotptr by omega)
      have hn := matchRest_some hrest
      have h1 := text_length hlast n
      have h2 := @textRest_length block2 realdent
      have h3 := cleanName_length (textRest block2 realdent++text block (p+n+1))
      rw [List.length_append] at h3
      rw [← Nat.add_assoc] at h1
      right
      dsimp only
      omega
    · cases h
      rcases Nat.eq_or_lt_of_le hge with rfl | hlt
      · exact .inl ⟨rfl, rfl⟩
      · obtain ⟨n, rfl⟩ := Nat.exists_eq_add_of_lt hlt
        have h1 := text_length hlast n
        have h3 := cleanName_length (text block (p+n+1))
        rw [← Nat.add_assoc] at h1
        right
        dsimp only
        omega

end Dirs

/-! ## The round trip -/

/-- The string of a name, without its terminator. -/
structure FileName where
  chars : List UInt8
  nonzero : ∀ c ∈ chars, c ≠ 0

/-- What both searches of a directory take for the first slot of a long name. -/
def IsLongSlot (dent : Dirent) : Prop :=
  attr dent &&& attrVfat = attrVfat ∧ slotId dent &&& lastLongEntry ≠ 0

namespace Dirs

section RoundTrip

variable (v : Dirs) (fuel : ℕ) (d : Dir)

/-- The cluster and the place of the first slot that is written. -/
def firstSlot : ℕ × ℕ :=
  if v.isNextClust d.dentptr then (findEmptyCluster d.fat fuel 3, 0) else (d.curclust, d.dentptr)

/-- Both readers find the name in lower case at its first slot, and the entry behind the slots. -/
def ReadBack (shortName : Memory) (name : FileName) (startCluster size : ℕ) : Prop :=
  let w := v.writeEntry fuel d shortName name.chars startCluster size
  let first := v.firstSlot fuel d
  ∃ block, w.clusters first.1 = some block ∧ IsLongSlot (block first.2) ∧
    v.getVfatname w.fat w.clusters first.1 block first.2 =
      some (downcase name.chars, w.block w.dentptr) ∧
    v.getLongFileName w.fat w.clusters first.1 first.1 block first.2 =
      (some (downcase name.chars, w.block, w.dentptr), w.curclust)

/-- The empty cluster can be put behind the one of the directory, or is there already. -/
def Linked : Prop :=
  let newclust := findEmptyCluster d.fat fuel 3
  d.curclust ≠ newclust ∧ checkClust newclust v.fatsize = false ∧
    (v.Settable d.curclust ∨ d.fat d.curclust = newclust)

/-- The name has nine slots at most and neither of the two first characters, and the slots and the
entry stand in one cluster or in two that are linked. -/
structure Kept (name : FileName) : Prop where
  length_le : name.chars.length ≤ 117
  head_ne : ∀ c ∈ name.chars.head?, c ≠ 0x05 ∧ c ≠ 0xe5
  room : v.direntsPerClust ≤ d.dentptr ∨
    d.dentptr+slotCount name.chars.length < min v.direntsPerClust (v.buflimit d.curclust) ∨
    d.curclust ≠ 0 ∧ v.Linked fuel d

end RoundTrip

section Proofs

variable {v : Dirs} {fuel : ℕ} {d : Dir} {shortName : Memory} {name : FileName}
  {startCluster size : ℕ}

theorem fillDentry_attr (dent : Dirent) :
    attr (v.fillDentry shortName dent startCluster size) = 0x20 := rfl

theorem findEmptyCluster_ge (fat : ℕ → ℕ) (n entry : ℕ) : entry ≤ findEmptyCluster fat n entry := by
  induction n generalizing entry with
  | zero => exact le_rfl
  | succ n ih =>
    rw [findEmptyCluster]
    split
    · exact le_rfl
    · exact (Nat.le_succ entry).trans (ih _)

theorem setFatent_of_ne {fat : ℕ → ℕ} {entry value other : ℕ} (h : other ≠ entry) :
    v.setFatent fat entry value other = fat other := by
  unfold setFatent
  split
  · exact Function.update_of_ne h _ _
  · rfl

theorem clustLimit_le (h : v.fatsize ≠ .fat12) : clustLimit v.fatsize ≤ 2^v.entryBits := by
  unfold Table.entryBits
  cases hsize : v.fatsize with
  | fat12 => exact absurd hsize h
  | fat16 => decide
  | fat32 => decide

/-- The FAT after a cluster is taken, at the cluster in front of it. -/
theorem flush_fat (h : d.curclust ≠ findEmptyCluster d.fat fuel 3) :
    (v.flushDirTable fuel d).fat d.curclust =
      v.setFatent d.fat d.curclust (findEmptyCluster d.fat fuel 3) d.curclust := by
  unfold flushDirTable
  dsimp only
  cases v.fatsize with
  | fat12 => rfl
  | fat16 => exact setFatent_of_ne h
  | fat32 => exact setFatent_of_ne h

theorem linked_iff (h : d.curclust ≠ findEmptyCluster d.fat fuel 3)
    (hcheck : checkClust (findEmptyCluster d.fat fuel 3) v.fatsize = false) :
    (v.flushDirTable fuel d).fat d.curclust = findEmptyCluster d.fat fuel 3 ↔ v.Linked fuel d := by
  rw [flush_fat h, Linked]
  unfold setFatent
  by_cases hset : v.Settable d.curclust
  · have hlt : findEmptyCluster d.fat fuel 3 < clustLimit v.fatsize := by
      unfold checkClust at hcheck
      simp only [Bool.or_eq_false_iff, decide_eq_false_iff_not, not_le] at hcheck
      exact hcheck.2
    rw [if_pos hset, Function.update_self, Nat.mod_eq_of_lt (hlt.trans_le (clustLimit_le hset.1))]
    exact iff_of_true rfl ⟨h, hcheck, .inl hset⟩
  · rw [if_neg hset]
    exact ⟨fun hfat => ⟨h, hcheck, .inr hfat⟩, fun hlink => hlink.2.2.resolve_left hset⟩

/-- The slots, and the entry behind them, in the cluster where they end. -/
theorem writeEntry_eq {e : Dir} (he : v.fillDirSlot fuel (d.put (setName shortName (d.block d.dentptr)))
    name.chars = e) :
    v.writeEntry fuel d shortName name.chars startCluster size =
      let block := Function.update e.block e.dentptr
        (v.fillDentry shortName (e.block e.dentptr) startCluster size)
      { e with block := block, clusters := Function.update e.clusters e.curclust (some block) } := by
  subst he
  rfl

/-- Where the readers find a name behind the first slot, only its characters are left to compare. -/
theorem readBack_of_longName (nextBlock : Option Block) (moved : Option ℕ) {block : Block} {w : Dir}
    {first : ℕ × ℕ} (hw : v.writeEntry fuel d shortName name.chars startCluster size = w)
    (hfirst : v.firstSlot fuel d = first)
    (hblock : w.clusters first.1 = some block) (hslot : IsLongSlot (block first.2))
    (hlong : v.longName w.fat w.clusters first.1 first.1 block first.2 =
      (some ⟨cleanName name.chars, nextBlock, w.dentptr⟩, moved))
    (hnext : nextBlock.getD block = w.block) (hmoved : moved.getD first.1 = w.curclust) :
    v.ReadBack fuel d shortName name startCluster size ↔
      cleanName name.chars = downcase name.chars := by
  unfold ReadBack getVfatname getLongFileName
  dsimp only
  rw [hw, hfirst, hblock]
  constructor
  · rintro ⟨block', hblock', -, hget, -⟩
    cases hblock'
    rw [hlong] at hget
    exact congrArg Prod.fst (Option.some.inj hget)
  · intro hclean
    refine ⟨block, rfl, hslot, ?_, ?_⟩
    · rw [hlong, ← hclean, ← hnext]
      rfl
    · rw [hlong, ← hclean, ← hnext, ← hmoved]
      rfl

theorem firstSlot_of_lt (h : d.dentptr < v.direntsPerClust) :
    v.firstSlot fuel d = (d.curclust, d.dentptr) :=
  if_neg (by simpa [isNextClust] using h)

theorem firstSlot_of_le (h : v.direntsPerClust ≤ d.dentptr) :
    v.firstSlot fuel d = (findEmptyCluster d.fat fuel 3, 0) :=
  if_pos (decide_eq_true h)

theorem firstSlot_lt : (v.firstSlot fuel d).2 < v.direntsPerClust := by
  have h16 := v.direntsPerClust_ge
  by_cases h : d.dentptr < v.direntsPerClust
  · rwa [firstSlot_of_lt h]
  · rw [firstSlot_of_le (not_lt.1 h)]
    dsimp only
    omega

/-- The first of the slots where they begin. -/
theorem isLongSlot_of_stands {k p : ℕ} {chars : List UInt8} {ss ws : List Dirent} {block : Block}
    (h : Slots k chars ss) (hs : Stands block p ws) (hws : ws <+: ss.reverse) (hpos : 0 < ws.length) :
    IsLongSlot (block p) := by
  have hrev : 0 < ss.reverse.length := hpos.trans_le hws.length_le
  have hfirst : block p = ss.reverse[0] := by
    rw [← Nat.add_zero p, hs 0 hpos, hws.getElem]
  obtain ⟨hflag, hattr⟩ := h.marked hrev
  rw [IsLongSlot, hfirst, hattr]
  exact ⟨by decide, hflag⟩

theorem stands_update {block : Block} {p q : ℕ} {ws : List Dirent} (h : Stands block p ws)
    (hq : q < p ∨ p+ws.length ≤ q) (dent : Dirent) : Stands (Function.update block q dent) p ws :=
  fun j hj => by rw [Function.update_of_ne (by omega), h j hj]

/-- A name that begins behind the end of a cluster. -/
theorem readBack_fresh (hlen : name.chars.length ≤ 117) (hp : v.direntsPerClust ≤ d.dentptr) :
    v.ReadBack fuel d shortName name startCluster size ↔
      cleanName name.chars = downcase name.chars := by
  have h16 := v.direntsPerClust_ge
  obtain ⟨ss, hss, -, h9, hfill⟩ := fillDirSlot_eq (v := v) fuel
    (d.put (setName shortName (d.block d.dentptr))) name.nonzero hlen
  have hrev : ss.reverse.length = ss.length := List.length_reverse
  obtain ⟨block, hfresh, hstands, -⟩ := @fill_fresh v fuel ss.reverse
    (d.put (setName shortName (d.block d.dentptr))) hp (by omega)
  rw [hfresh] at hfill
  have hnew : findEmptyCluster d.fat fuel 3 ≠ 0 := by
    have := findEmptyCluster_ge d.fat fuel 3
    omega
  have hB := stands_update hstands (.inr (Nat.zero_add _).le)
    (v.fillDentry shortName (block ss.reverse.length) startCluster size)
  have hslot := isLongSlot_of_stands hss hB List.prefix_rfl (hrev ▸ hss.length_pos)
  refine readBack_of_longName none none (writeEntry_eq hfill) (firstSlot_of_le hp) (Function.update_self ..)
    hslot ?_ rfl rfl
  rw [longName_within hss hB h9 (by rw [buflimit_of_ne hnew]; omega), Nat.zero_add, hrev]

/-- What is written for a name for which there is room in the cluster. -/
theorem writeEntry_within (hlen : name.chars.length ≤ 117)
    (hin : d.dentptr+slotCount name.chars.length < v.direntsPerClust) :
    ∃ ss w, Slots 0 name.chars ss ∧ ss.length ≤ 9 ∧ ss.length = slotCount name.chars.length ∧
      v.writeEntry fuel d shortName name.chars startCluster size = w ∧
      w.curclust = d.curclust ∧ w.dentptr = d.dentptr+ss.length ∧
      w.clusters = Function.update d.clusters d.curclust (some w.block) ∧
      Stands w.block d.dentptr ss.reverse := by
  obtain ⟨ss, hss, hcount, h9, hfill⟩ := fillDirSlot_eq (v := v) fuel
    (d.put (setName shortName (d.block d.dentptr))) name.nonzero hlen
  have hrev : ss.reverse.length = ss.length := List.length_reverse
  have hput : (d.put (setName shortName (d.block d.dentptr))).dentptr = d.dentptr := rfl
  obtain ⟨block, hwithin, hstands, -⟩ := @fill_within v fuel ss.reverse
    (d.put (setName shortName (d.block d.dentptr))) (by rw [hrev, hcount]; exact hin)
  rw [hput, hrev] at hwithin
  rw [hwithin] at hfill
  exact ⟨ss, _, hss, h9, hcount, writeEntry_eq hfill, rfl, rfl, rfl,
    stands_update hstands (.inr (by rw [hput, hrev])) _⟩

/-- A name for which there is room in the cluster. -/
theorem readBack_within (hlen : name.chars.length ≤ 117)
    (hroom : d.dentptr+slotCount name.chars.length <
      min v.direntsPerClust (v.buflimit d.curclust)) :
    v.ReadBack fuel d shortName name startCluster size ↔
      cleanName name.chars = downcase name.chars := by
  obtain ⟨hin, hlimit⟩ := lt_min_iff.1 hroom
  obtain ⟨ss, w, hss, h9, hcount, hw, hclust, hptr, hclusters, hs⟩ :=
    @writeEntry_within v fuel d shortName name startCluster size hlen hin
  have hslot := isLongSlot_of_stands hss hs List.prefix_rfl
    (List.length_reverse.symm ▸ hss.length_pos)
  rw [← hcount] at hlimit
  refine readBack_of_longName none none hw (firstSlot_of_lt (by omega)) ?_ hslot
    ((longName_within hss hs h9 hlimit).trans (by rw [hptr])) rfl hclust.symm
  rw [hclusters, Function.update_self]

/-- What is written for a name that goes on in another cluster. -/
theorem writeEntry_across (hlen : name.chars.length ≤ 117) (hp : d.dentptr < v.direntsPerClust)
    (hend : v.direntsPerClust ≤ d.dentptr+slotCount name.chars.length) :
    ∃ ss w block, Slots 0 name.chars ss ∧ ss.length ≤ 9 ∧
      v.direntsPerClust ≤ d.dentptr+ss.length ∧
      v.writeEntry fuel d shortName name.chars startCluster size = w ∧
      w.curclust = findEmptyCluster d.fat fuel 3 ∧
      w.dentptr = ss.length-(v.direntsPerClust-d.dentptr) ∧
      w.fat = (v.flushDirTable fuel d).fat ∧
      w.clusters = Function.update (Function.update d.clusters d.curclust (some block))
        (findEmptyCluster d.fat fuel 3) (some w.block) ∧
      Stands block d.dentptr (ss.reverse.take (v.direntsPerClust-d.dentptr)) ∧
      Stands w.block 0 (ss.reverse.drop (v.direntsPerClust-d.dentptr)) ∧
      w.block d.dentptr = fun _ => 0 := by
  have h16 := v.direntsPerClust_ge
  obtain ⟨ss, hss, hcount, h9, hfill⟩ := fillDirSlot_eq (v := v) fuel
    (d.put (setName shortName (d.block d.dentptr))) name.nonzero hlen
  have hrev : ss.reverse.length = ss.length := List.length_reverse
  rw [← hcount] at hend
  obtain ⟨block, block2, hacross, hstands, hstands2, hzero⟩ := @fill_across v fuel ss.reverse
    (d.put (setName shortName (d.block d.dentptr))) hp (by rw [hrev]; exact hend) (by omega)
  have hput : (d.put (setName shortName (d.block d.dentptr))).dentptr = d.dentptr := rfl
  rw [hput, hrev] at hacross hzero
  rw [hput] at hstands hstands2
  rw [hacross] at hfill
  have hdrop : (ss.reverse.drop (v.direntsPerClust-d.dentptr)).length =
      ss.length-(v.direntsPerClust-d.dentptr) := by rw [List.length_drop, hrev]
  have hne : d.dentptr ≠ ss.length-(v.direntsPerClust-d.dentptr) := by omega
  refine ⟨ss, _, block, hss, h9, hend, writeEntry_eq hfill, rfl, rfl, rfl, rfl, hstands,
    stands_update hstands2 (.inr ?_) _, ?_⟩
  · rw [hdrop, Nat.zero_add]
  · exact (Function.update_of_ne hne _ _).trans (hzero _ (by omega) hp)

/-- A name that goes on in a cluster that is linked. -/
theorem readBack_across (hlen : name.chars.length ≤ 117) (hp : d.dentptr < v.direntsPerClust)
    (hend : v.direntsPerClust ≤ d.dentptr+slotCount name.chars.length) (hcur : d.curclust ≠ 0)
    (hlink : v.Linked fuel d) :
    v.ReadBack fuel d shortName name startCluster size ↔
      cleanName name.chars = downcase name.chars := by
  obtain ⟨ss, w, block, hss, h9, hend, hw, hclust, hptr, hfat, hclusters, hs, hs2, -⟩ :=
    @writeEntry_across v fuel d shortName name startCluster size hlen hp hend
  have hnext : w.fat d.curclust = findEmptyCluster d.fat fuel 3 := by
    rw [hfat]
    exact (linked_iff hlink.1 hlink.2.1).2 hlink
  have htake : 0 < (ss.reverse.take (v.direntsPerClust-d.dentptr)).length := by
    have := hss.length_pos
    rw [List.length_take, List.length_reverse]
    omega
  refine readBack_of_longName (some w.block) (some (w.fat d.curclust)) hw (firstSlot_of_lt hp) ?_
    (isLongSlot_of_stands hss hs (List.take_prefix ..) htake) ((longName_across hss h9 hcur hp hend hs
      hs2 ?_ ?_).trans ?_) rfl ?_
  · rw [hclusters, Function.update_of_ne hlink.1, Function.update_self]
  · rw [hnext]
    exact hlink.2.1
  · rw [hnext, hclusters, Function.update_self]
  · rw [hptr]
  · rw [hclust]
    exact hnext

/-- The entry that is written is no slot. -/
theorem writeEntry_attr :
    attr ((v.writeEntry fuel d shortName name.chars startCluster size).block
      (v.writeEntry fuel d shortName name.chars startCluster size).dentptr) = 0x20 := by
  unfold writeEntry Dir.put
  dsimp only
  rw [Function.update_self, fillDentry_attr]

/-- A name of more than nine slots is not read back. -/
theorem not_readBack_of_long (hlen : 117 < name.chars.length) :
    ¬v.ReadBack fuel d shortName name startCluster size := by
  rintro ⟨block, -, ⟨hattr, hlast⟩, hget, -⟩
  obtain ⟨r, hr, heq⟩ := Option.map_eq_some_iff.1 hget
  obtain ⟨hname, hdent⟩ := Prod.ext_iff.1 heq
  rcases longName_length hr hlast firstSlot_lt with ⟨hnext, hreal⟩ | hle
  · -- the entry that is found would be a slot
    dsimp only at hdent
    rw [hnext, hreal, Option.getD_none] at hdent
    rw [hdent, writeEntry_attr] at hattr
    exact absurd hattr (by decide)
  · dsimp only at hname
    rw [hname, downcase, List.length_map] at hle
    omega

/-- Without room in the cluster or a link behind it, the name is not read back. -/
theorem room_of_readBack (hlen : name.chars.length ≤ 117)
    (h : v.ReadBack fuel d shortName name startCluster size) :
    v.direntsPerClust ≤ d.dentptr ∨
      d.dentptr+slotCount name.chars.length < min v.direntsPerClust (v.buflimit d.curclust) ∨
      d.curclust ≠ 0 ∧ v.Linked fuel d := by
  by_contra hnot
  rw [not_or, not_or] at hnot
  obtain ⟨hp, hroom, hlink⟩ := hnot
  rw [not_le] at hp
  have hnew := findEmptyCluster_ge d.fat fuel 3
  by_cases hend : v.direntsPerClust ≤ d.dentptr+slotCount name.chars.length
  · obtain ⟨ss, w, block, hss, h9, hend, hw, hclust, hptr, hfat, hclusters, hs, hs2, hzero⟩ :=
      @writeEntry_across v fuel d shortName name startCluster size hlen hp hend
    obtain ⟨block', hblock, hslot, -, hlong⟩ := h
    rw [hw, firstSlot_of_lt hp] at hblock hlong
    rw [firstSlot_of_lt hp] at hslot
    dsimp only at hblock hslot hlong
    have hne : d.curclust ≠ findEmptyCluster d.fat fuel 3 := fun heq => by
      -- the slots of the first cluster would have been written over
      rw [hclusters, heq, Function.update_self] at hblock
      cases hblock
      rw [IsLongSlot, hzero] at hslot
      exact absurd hslot.1 (by decide)
    have hmoved := congrArg Prod.snd hlong
    dsimp only [getLongFileName] at hmoved
    rw [hclust] at hmoved
    cases hto : (v.longName w.fat w.clusters d.curclust d.curclust block' d.dentptr).2 with
    | none =>
      rw [hto] at hmoved
      exact hne hmoved
    | some q =>
      rw [hto] at hmoved
      obtain ⟨hcur, hq, hcheck⟩ := longName_moved hto
      have hqnew : q = findEmptyCluster d.fat fuel 3 := hmoved
      rw [hqnew] at hq hcheck
      rw [hfat] at hq
      exact hlink ⟨hcur, (linked_iff hne hcheck).1 hq⟩
  · -- the buffer for the root directory ends in front of the entry
    obtain ⟨ss, w, hss, -, hcount, hw, hclust, hptr, hclusters, hs⟩ :=
      @writeEntry_within v fuel d shortName name startCluster size hlen (not_le.1 hend)
    have hcur : d.curclust = 0 := by
      by_contra hcur
      rw [buflimit_of_ne hcur] at hroom
      omega
    obtain ⟨block, hblock, -, hget, -⟩ := h
    rw [hw, firstSlot_of_lt hp] at hblock hget
    dsimp only at hblock hget
    rw [hclusters, Function.update_self] at hblock
    cases hblock
    rw [hcur] at hroom hget
    have hlimit : v.buflimit 0 ≤ d.dentptr+ss.length := by
      rw [hcount]
      exact not_lt.1 fun hlt => hroom (lt_min (not_le.1 hend) hlt)
    rw [getVfatname, longName_root hss hs hlimit] at hget
    cases hget

end Proofs

/-- A volume with clusters of 512 bytes. -/
def smallDirs : Dirs where
  fatsize := .fat32
  sectSize := 512
  fatSect := 32
  fatLength := 1024
  sectors := 132096
  bytes _ := 0
  sectSize_pos := sector_pos
  sectSize_dvd := sector_dvd
  sectors_lt := by decide
  clustSize := 1
  clustSize_pos := Nat.one_pos
  sectSize_ge := sector_ge

/-- The root directory in cluster 2, with nothing in it. -/
def emptyRoot : Dir where
  block _ _ := 0
  dentptr := 0
  curclust := 2
  clusters _ := some fun _ _ => 0
  fat entry := if entry ≤ 2 then 0xfffffff else 0

end Dirs

end UBoot.Fat
