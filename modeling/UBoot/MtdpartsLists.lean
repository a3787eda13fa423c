import UBoot.MtdpartsText
import Mathlib.Data.List.TakeWhile
import Mathlib.Tactic.Common

/-!
# The lists of devices and partitions

Every list that the operations of `cmd_mtdparts.c` make is sound: the partitions of a
device are valid and stand in the order of their offsets, at most one of them at zero, and
no device is there twice.
-/

set_option autoImplicit false

namespace UBoot.Mtdparts

open StableSort

/-! ## The operations -/

def partDel (devices : List MtdDevice) (i j : ℕ) : List MtdDevice :=
  match devices[i]? with
  | none => devices
  | some d => if d.numParts = 1 then devices.eraseIdx i
    else devices.set i { d with parts := d.parts.eraseIdx j }

/-- The new device is linked behind the others, or its first partition to the one there is. -/
def mergeDevice (flash : Flash) (devices : List MtdDevice) (dev : MtdDevice) :
    Option (List MtdDevice) :=
  match devices.findIdx? (fun d => d.id.type = dev.id.type ∧ d.id.num = dev.id.num) with
  | none => some (devices ++ [dev])
  | some i =>
    match devices[i]?, dev.parts.head? with
    | some d, some p => (partAdd flash d p).map (devices.set i)
    | _, _ => none

inductive Op
  | parse (mtdparts : Text)
  | add (mtdDev : Text)
  | partDel (i j : ℕ)
  | deviceDel (i : ℕ)
deriving DecidableEq, Repr

section Operations
variable (flash : Flash) (ids : List MtdId)

def step (devices : List MtdDevice) : Op → List MtdDevice
  | .parse t => (parseMtdparts flash ids t).2
  | .add t =>
    match deviceParse flash ids devices t with
    | none => devices
    | some r => (mergeDevice flash devices r.1).getD devices
  | .partDel i j => partDel devices i j
  | .deviceDel i => devices.eraseIdx i

def run (ops : List Op) : List MtdDevice := ops.foldl (step flash ids) []

/-! ## What holds of a list -/

structure MtdDevice.Sound (d : MtdDevice) : Prop where
  known : idFindByMtdId ids d.id.mtdId = some d.id
  plain : ':' ∉ d.id.mtdId
  filled : d.parts ≠ []
  sorted : d.parts.Pairwise (Le PartInfo.offset)
  zero : (sharing PartInfo.offset 0 d.parts).length ≤ 1
  valid : ∀ p ∈ d.parts, partValidate flash d.id p = some p
  writable : ∀ p ∈ d.parts, p.Writable

def Apart (a b : MtdId) : Prop := ¬(a.type = b.type ∧ a.num = b.num)

structure Sound (devices : List MtdDevice) : Prop where
  each : ∀ d ∈ devices, d.Sound flash ids
  distinct : (devices.map MtdDevice.id).Pairwise Apart

end Operations

/-! ## One partition -/

theorem strtoulLoop_le (base n : ℕ) (t : Text) (h : n < 4294967296) :
    (strtoulLoop base n t).1 < 4294967296 := by
  induction t generalizing n with
  | nil => exact h
  | cons c t ih =>
    rw [strtoulLoop]
    split_ifs
    · exact ih _ (w32_le _)
    · exact h

theorem memsizeParse_le (t : Text) : (memsizeParse t).1 < 4294967296 := by
  have hs : (simpleStrtoul t 0).1 < 4294967296 := by
    unfold simpleStrtoul
    split_ifs <;> exact strtoulLoop_le _ _ _ (by decide)
  unfold memsizeParse
  dsimp only
  split
  · exact hs
  · split_ifs
    · exact w32_le _
    · exact w32_le _
    · exact w32_le _
    · exact hs

theorem fetchName_some (t rest : Text) (name : Option Text) (h : fetchName t = some (name, rest)) :
    ∀ n, name = some n → n ≠ [] ∧ ')' ∉ n := by
  intro n hn
  subst hn
  unfold fetchName at h
  split_ifs at h with h1
  · dsimp only at h
    split at h
    · cases h
    · split_ifs at h with h2
      cases h
      refine ⟨h2, ?_⟩
      intro hmem
      have := List.mem_takeWhile_imp hmem
      simp at this
  · simp at h

structure PartInfo.Parsed (p : PartInfo) : Prop where
  size : p.size < 4294967296
  offset : p.offset < 4294967296
  name : p.autoName = false → p.name ≠ [] ∧ ')' ∉ p.name
  flags : p.maskFlags = 0 ∨ p.maskFlags = mtdWriteableCmd

theorem partParse_some (t rest : Text) (p : PartInfo) (h : partParse t = some (p, rest)) :
    p.Parsed := by
  simp only [partParse, Option.bind_eq_bind, Option.bind_eq_some_iff, Option.pure_def,
    Option.some.injEq, Prod.mk.injEq] at h
  obtain ⟨⟨size, t1⟩, hs, ⟨name, t2⟩, hn, rest', he, rfl, rfl⟩ := h
  refine ⟨?_, ?_, ?_, ?_⟩
  · unfold fetchSize at hs
    split_ifs at hs with h1 h2
    · cases hs
      exact (by decide : sizeRemaining < 4294967296)
    · have h3 := memsizeParse_le t
      rw [Option.some.inj hs] at h3
      exact h3
  · show (fetchOffset t1).1 < 4294967296
    unfold fetchOffset
    split_ifs
    · exact memsizeParse_le _
    · exact (by decide : offsetNotSpecified < 4294967296)
  · intro ha
    cases name with
    | none => exact absurd ha (by simp)
    | some n => exact fetchName_some _ _ _ hn n rfl
  · show (fetchFlags t2).1 = 0 ∨ _
    unfold fetchFlags
    split_ifs
    · exact Or.inr rfl
    · exact Or.inl rfl

/-- What the checks of `part_validate` ask of a partition. -/
structure Fits (flash : Flash) (id : MtdId) (p : PartInfo) : Prop where
  start : p.offset ≤ id.size.toNat
  grows : p.offset < w32 (p.offset+p.size)
  inside : w32 (p.offset+p.size) ≤ id.size.toNat
  aligned : partValidateEraseblock flash id p = true

theorem partValidate_iff (flash : Flash) (id : MtdId) (p q : PartInfo) :
    partValidate flash id p = some q ↔ q = fillUp id p ∧ Fits flash id q := by
  unfold partValidate
  dsimp only
  constructor
  · intro h
    split_ifs at h with h1 h2 h3 h4
    cases h
    exact ⟨rfl, Nat.le_of_not_lt h1, Nat.lt_of_not_le h2, Nat.le_of_not_lt h3, h4⟩
  · rintro ⟨rfl, h1, h2, h3, h4⟩
    rw [if_neg (Nat.not_lt.2 h1), if_neg (Nat.not_le.2 h2), if_neg (Nat.not_lt.2 h3), if_pos h4]

theorem fillUp_fields (id : MtdId) (p : PartInfo) :
    (fillUp id p).offset = p.offset ∧ (fillUp id p).name = p.name ∧
      (fillUp id p).autoName = p.autoName ∧ (fillUp id p).maskFlags = p.maskFlags := by
  unfold fillUp
  split_ifs
  · exact ⟨rfl, rfl, rfl, rfl⟩
  · exact ⟨rfl, rfl, rfl, rfl⟩

theorem fillUp_size (id : MtdId) (p : PartInfo) (h : p.size < 4294967296) :
    (fillUp id p).size < 4294967296 := by
  unfold fillUp
  split_ifs
  · exact w32_le _
  · exact h

/-- A partition of the size that stands for the rest takes the whole chip. -/
theorem Fits.fillUp_eq (flash : Flash) (id : MtdId) (p : PartInfo) (h : Fits flash id p) :
    fillUp id p = p := by
  unfold fillUp
  split_ifs with hr
  · have h1 := h.grows
    have h2 := h.inside
    have h3 : id.size.toNat < 4294967296 := id.size.toNat_lt
    unfold sizeRemaining at hr
    have hw : w32 (id.size.toNat+(4294967296-p.offset)) = p.size := by
      rw [hr] at h1 h2 ⊢
      unfold w32 at *
      omega
    rw [hw]
  · rfl

theorem partValidate_some (flash : Flash) (id : MtdId) (p q : PartInfo) (hp : p.Parsed)
    (h : partValidate flash id p = some q) :
    partValidate flash id q = some q ∧ q.Writable := by
  obtain ⟨rfl, hf⟩ := (partValidate_iff flash id p q).1 h
  obtain ⟨ho, hn, ha, hm⟩ := fillUp_fields id p
  refine ⟨(partValidate_iff flash id _ _).2 ⟨(hf.fillUp_eq).symm, hf⟩, fillUp_size id p hp.size, ?_,
    ?_, ?_⟩
  · have h1 := hf.grows
    have h2 := w32_le ((fillUp id p).offset+(fillUp id p).size)
    unfold offsetNotSpecified
    omega
  · rw [ha, hn]
    exact hp.name
  · rw [hm]
    exact hp.flags

/-! ## The order of the partitions -/

theorem partSortAdd_some (p : PartInfo) (l l' : List PartInfo) (h : partSortAdd p l = some l') :
    l' = l.orderedInsert (Le PartInfo.offset) p := by
  induction l generalizing l' with
  | nil =>
    cases h
    rfl
  | cons q l ih =>
    rw [partSortAdd] at h
    rw [List.orderedInsert_cons]
    split_ifs at h with h1 h2
    · rw [if_pos (show Le PartInfo.offset p q from h2)]
      exact (Option.some.inj h).symm
    · rw [if_neg (show ¬Le PartInfo.offset p q from h2)]
      obtain ⟨l1, hl, rfl⟩ := Option.map_eq_some_iff.1 h
      rw [ih l1 hl]

theorem partSortAdd_free (p : PartInfo) (l : List PartInfo)
    (h : p.offset ≠ 0 ∨ ∀ q ∈ l, q.offset ≠ 0) :
    partSortAdd p l = some (l.orderedInsert (Le PartInfo.offset) p) := by
  induction l with
  | nil => rfl
  | cons q l ih =>
    have hq : ¬(p.offset = q.offset ∧ q.offset = 0) := by
      rintro ⟨h1, h2⟩
      exact h.elim (fun h => h (h1.trans h2)) (fun h => h q (by simp) h2)
    rw [partSortAdd, if_neg hq, List.orderedInsert_cons,
      ih (h.imp_right (fun h r hr => h r (by simp [hr])))]
    by_cases hle : p.offset ≤ q.offset
    · rw [if_pos hle, if_pos (show Le PartInfo.offset p q from hle)]
    · rw [if_neg hle, if_neg (show ¬Le PartInfo.offset p q from hle)]
      rfl

theorem partSortAdd_zero (p : PartInfo) (l l' : List PartInfo)
    (hs : l.Pairwise (Le PartInfo.offset)) (h : partSortAdd p l = some l') (hp : p.offset = 0) :
    sharing PartInfo.offset 0 l = [] := by
  cases l with
  | nil => rfl
  | cons q l =>
    have hq : q.offset ≠ 0 := by
      intro h0
      rw [partSortAdd, if_pos ⟨hp.trans h0.symm, h0⟩] at h
      cases h
    rw [sharing, List.filter_eq_nil_iff]
    intro r hr
    have hle : q.offset ≤ r.offset := by
      rcases List.mem_cons.1 hr with rfl | hr
      · exact le_rfl
      · exact (List.pairwise_cons.1 hs).1 r hr
    simp only [decide_eq_true_eq]
    omega

def Ordered (l : List PartInfo) : Prop :=
  l.Pairwise (Le PartInfo.offset) ∧ (sharing PartInfo.offset 0 l).length ≤ 1

theorem partSortAdd_ordered (p : PartInfo) (l l' : List PartInfo) (ho : Ordered l)
    (h : partSortAdd p l = some l') : Ordered l' ∧ l'.Perm (p::l) := by
  have hl := partSortAdd_some p l l' h
  have hperm : l'.Perm (p::l) := hl ▸ List.perm_orderedInsert _ p l
  refine ⟨⟨hl ▸ ho.1.orderedInsert p l, ?_⟩, hperm⟩
  rw [sharing, (hperm.filter _).length_eq, List.filter_cons]
  split_ifs with hp
  · have hnone := partSortAdd_zero p l l' ho.1 h (of_decide_eq_true hp)
    unfold sharing at hnone
    rw [hnone]
    exact le_rfl
  · exact ho.2

theorem sortAddAll_from (ps acc l : List PartInfo) (ho : Ordered acc)
    (h : ps.foldlM (fun acc p => partSortAdd p acc) acc = some l) :
    Ordered l ∧ l.Perm (ps ++ acc) := by
  induction ps generalizing acc with
  | nil =>
    cases h
    exact ⟨ho, List.Perm.refl _⟩
  | cons p ps ih =>
    obtain ⟨acc1, h1, h2⟩ := Option.bind_eq_some_iff.1 h
    obtain ⟨ho1, hp1⟩ := partSortAdd_ordered p acc acc1 ho h1
    obtain ⟨ho2, hp2⟩ := ih acc1 ho1 h2
    refine ⟨ho2, hp2.trans ?_⟩
    exact (hp1.append_left ps).trans List.perm_middle

theorem sortAddAll_ordered (ps l : List PartInfo) (h : sortAddAll ps = some l) :
    Ordered l ∧ l.Perm ps := by
  have hl := sortAddAll_from ps [] l ⟨List.Pairwise.nil, by simp [sharing]⟩ h
  rwa [List.append_nil] at hl

/-! ## Devices -/

section Kept
variable {flash : Flash} {ids : List MtdId}

/-- A list of partitions is at its end, or one definition stands before a shorter list. -/
theorem parseParts_cases (id : MtdId) (n offset : ℕ) (t rest : Text) (ps : List PartInfo)
    (h : parseParts flash id (n+1) offset t = some (ps, rest)) :
    ((t = [] ∨ t.head? = some ';') ∧ ps = [] ∧ rest = t) ∨
    (¬ (t = [] ∨ t.head? = some ';') ∧ ∃ p t1 q ps1, partParse t = some (p, t1) ∧
      partValidate flash id { p with offset := if p.offset = offsetNotSpecified then w32 offset
        else p.offset } = some q ∧
      parseParts flash id n (q.offset+q.size) t1 = some (ps1, rest) ∧ ps = q::ps1) := by
  rw [parseParts] at h
  split_ifs at h with hend
  · cases h
    exact Or.inl ⟨hend, rfl, rfl⟩
  · simp only [Option.bind_eq_bind, Option.bind_eq_some_iff, Option.pure_def, Option.some.injEq,
      Prod.mk.injEq] at h
    obtain ⟨⟨p, t1⟩, hp, q, hq, ⟨ps1, t2⟩, hps, rfl, rfl⟩ := h
    exact Or.inr ⟨hend, p, t1, q, ps1, hp, hq, hps, rfl⟩

theorem parseParts_valid (id : MtdId) (n offset : ℕ) (t rest : Text) (ps : List PartInfo)
    (h : parseParts flash id n offset t = some (ps, rest)) :
    ∀ p ∈ ps, partValidate flash id p = some p ∧ p.Writable := by
  induction n generalizing offset t ps with
  | zero => exact absurd h (by simp [parseParts])
  | succ n ih =>
    rcases parseParts_cases id n offset t rest ps h with
      ⟨-, rfl, -⟩ | ⟨-, p, t1, q, ps1, hp, hq, hps, rfl⟩
    · simp
    · have hparsed := partParse_some t t1 p hp
      have hoffset : ({ p with offset := if p.offset = offsetNotSpecified then w32 offset
          else p.offset } : PartInfo).Parsed := by
        refine ⟨hparsed.size, ?_, hparsed.name, hparsed.flags⟩
        dsimp only
        split_ifs
        · exact w32_le _
        · exact hparsed.offset
      intro r hr
      rcases List.mem_cons.1 hr with rfl | hr
      · exact partValidate_some flash id _ r hoffset hq
      · exact ih _ t1 ps1 hps r hr

theorem deviceParse_sound (devices : List MtdDevice) (t rest : Text) (d : MtdDevice)
    (h : deviceParse flash ids devices t = some (d, rest)) : d.Sound flash ids := by
  unfold deviceParse at h
  split at h
  · cases h
  · simp only [Option.bind_eq_bind, Option.bind_eq_some_iff, Option.pure_def] at h
    obtain ⟨id, hid, ⟨ps, t2⟩, hps, h⟩ := h
    split_ifs at h with hn
    obtain ⟨parts, hsort, h⟩ := Option.bind_eq_some_iff.1 h
    cases h
    obtain ⟨⟨hs, hz⟩, hperm⟩ := sortAddAll_ordered ps parts hsort
    have hvalid := parseParts_valid id _ _ _ t2 ps hps
    have hname : id.mtdId = t.takeWhile (· ≠ ':') := by
      simpa using List.find?_some hid
    refine ⟨?_, ?_, ?_, hs, hz, fun p hp => (hvalid p (hperm.subset hp)).1,
      fun p hp => (hvalid p (hperm.subset hp)).2⟩
    · show idFindByMtdId ids id.mtdId = some id
      rw [hname]
      exact hid
    · show ':' ∉ id.mtdId
      rw [hname]
      intro hc
      simpa using List.mem_takeWhile_imp hc
    · intro hnil
      apply hn
      rw [← hperm.length_eq, show parts = [] from hnil]
      rfl

theorem deviceFind_none (devices : List MtdDevice) (id : MtdId)
    (h : deviceFind devices id.type id.num = none) :
    ∀ e ∈ devices.map MtdDevice.id, Apart e id := by
  intro e he
  obtain ⟨d, hd, rfl⟩ := List.mem_map.1 he
  have := List.find?_eq_none.1 h d hd
  simpa [Apart] using this

theorem Sound.append (devices : List MtdDevice) (d : MtdDevice) (hs : Sound flash ids devices)
    (hd : d.Sound flash ids) (hnew : deviceFind devices d.id.type d.id.num = none) :
    Sound flash ids (devices ++ [d]) where
  each := by
    intro e he
    rcases List.mem_append.1 he with he | he
    · exact hs.each e he
    · exact List.mem_singleton.1 he ▸ hd
  distinct := by
    rw [List.map_append, List.pairwise_append]
    refine ⟨hs.distinct, List.pairwise_singleton _ _, ?_⟩
    intro a ha b hb
    rw [List.map_singleton, List.mem_singleton] at hb
    subst hb
    exact deviceFind_none devices d.id hnew a ha

theorem parseDevices_sound (n : ℕ) (devices l : List MtdDevice) (t : Text)
    (hs : Sound flash ids devices) (h : parseDevices flash ids n devices t = some l) :
    Sound flash ids l := by
  induction n generalizing devices t with
  | zero => exact absurd h (by simp [parseDevices])
  | succ n ih =>
    rw [parseDevices] at h
    split_ifs at h with h1
    · cases h
      exact hs
    · obtain ⟨⟨d, rest⟩, hd, h⟩ := Option.bind_eq_some_iff.1 h
      dsimp only at h
      split_ifs at h with h2
      have hnew : deviceFind devices d.id.type d.id.num = none := by
        rwa [Bool.not_eq_true, Option.isSome_eq_false_iff, Option.isNone_iff_eq_none] at h2
      exact ih (devices ++ [d]) rest (hs.append devices d (deviceParse_sound devices t rest d hd) hnew) h

theorem sound_nil : Sound flash ids [] := ⟨fun _ h => absurd h (by simp), List.Pairwise.nil⟩

theorem parseMtdparts_sound (t : Text) : Sound flash ids (parseMtdparts flash ids t).2 := by
  unfold parseMtdparts
  dsimp only
  split_ifs with h1 h2
  · exact sound_nil
  · split
    · exact sound_nil
    · next l hl => exact parseDevices_sound _ [] l _ sound_nil hl
  · exact sound_nil

theorem Sound.eraseIdx (devices : List MtdDevice) (i : ℕ) (hs : Sound flash ids devices) :
    Sound flash ids (devices.eraseIdx i) where
  each := fun d hd => hs.each d (List.mem_of_mem_eraseIdx hd)
  distinct := hs.distinct.sublist ((List.eraseIdx_sublist devices i).map _)

/-- A device that keeps its identity is put back in its place. -/
theorem Sound.set (devices : List MtdDevice) (i : ℕ) (d d' : MtdDevice)
    (hs : Sound flash ids devices) (hi : devices[i]? = some d) (hid : d'.id = d.id)
    (hd : d'.Sound flash ids) : Sound flash ids (devices.set i d') where
  each := by
    intro e he
    rcases List.mem_or_eq_of_mem_set he with he | rfl
    · exact hs.each e he
    · exact hd
  distinct := by
    have hsame : (devices.set i d').map MtdDevice.id = devices.map MtdDevice.id := by
      rw [List.map_set]
      apply List.ext_getElem?
      intro j
      rw [List.getElem?_set, List.getElem?_map]
      split_ifs with h1 h2
      · subst h1
        rw [hi, Option.map_some, hid]
      · subst h1
        rw [List.getElem?_eq_none (by simpa using h2)]
        rfl
      · rfl
    rw [hsame]
    exact hs.distinct

theorem partDel_sound (devices : List MtdDevice) (i j : ℕ) (hs : Sound flash ids devices) :
    Sound flash ids (partDel devices i j) := by
  unfold partDel
  split
  · exact hs
  · next d hd =>
    have hdev := hs.each d (List.mem_of_getElem? hd)
    split_ifs with hn
    · exact hs.eraseIdx devices i
    · apply hs.set devices i d { d with parts := d.parts.eraseIdx j } hd rfl
      have hsub := List.eraseIdx_sublist d.parts j
      refine ⟨hdev.known, hdev.plain, ?_, hdev.sorted.sublist hsub, ?_,
        fun p hp => hdev.valid p (hsub.subset hp), fun p hp => hdev.writable p (hsub.subset hp)⟩
      · intro hnil
        have hlen := List.length_eraseIdx (l := d.parts) (i := j)
        rw [show d.parts.eraseIdx j = [] from hnil] at hlen
        have hpos := List.length_pos_iff.2 hdev.filled
        unfold MtdDevice.numParts at hn
        rw [List.length_nil] at hlen
        split_ifs at hlen
        · omega
        · omega
      · exact (hsub.filter _).length_le.trans hdev.zero

theorem partAdd_sound (devices : List MtdDevice) (i : ℕ) (d e e' : MtdDevice) (p : PartInfo)
    (hs : Sound flash ids devices) (hd : d.Sound flash ids) (hidx : devices[i]? = some e)
    (hp : d.parts.head? = some p) (hadd : partAdd flash e p = some e') :
    Sound flash ids (devices.set i e') := by
  obtain ⟨q, hq, hadd⟩ := Option.bind_eq_some_iff.1 hadd
  obtain ⟨parts, hsort, hadd⟩ := Option.bind_eq_some_iff.1 hadd
  cases hadd
  have hpm : p ∈ d.parts := List.mem_of_head? hp
  have hem : e ∈ devices := List.mem_of_getElem? hidx
  have hw := hd.writable p hpm
  have hparsed : p.Parsed :=
    ⟨hw.size, hw.offset.trans (by decide), hw.name, hw.flags⟩
  obtain ⟨hv, hwq⟩ := partValidate_some flash e.id p q hparsed hq
  have hdev := hs.each e hem
  obtain ⟨⟨hsort', hz⟩, hperm⟩ := partSortAdd_ordered q e.parts parts ⟨hdev.sorted, hdev.zero⟩ hsort
  refine hs.set devices _ e _ hidx rfl ⟨hdev.known, hdev.plain, ?_, hsort', hz, ?_, ?_⟩
  · intro hnil
    have := hperm.length_eq
    rw [show parts = [] from hnil] at this
    simp at this
  · intro r hr
    rcases List.mem_cons.1 (hperm.subset hr) with rfl | hr
    · exact hv
    · exact hdev.valid r hr
  · intro r hr
    rcases List.mem_cons.1 (hperm.subset hr) with rfl | hr
    · exact hwq
    · exact hdev.writable r hr

theorem mergeDevice_sound (devices l : List MtdDevice) (d : MtdDevice)
    (hs : Sound flash ids devices) (hd : d.Sound flash ids)
    (h : mergeDevice flash devices d = some l) : Sound flash ids l := by
  unfold mergeDevice at h
  split at h
  · next hnew =>
    cases h
    apply hs.append devices d hd
    exact List.find?_eq_none.2 (fun e he => by simpa using List.findIdx?_eq_none_iff.1 hnew e he)
  · next i _ =>
    split at h
    · next e p hidx hp =>
      obtain ⟨e', hadd, rfl⟩ := Option.map_eq_some_iff.1 h
      exact partAdd_sound devices i d e e' p hs hd hidx hp hadd
    · cases h

theorem step_sound (devices : List MtdDevice) (op : Op) (hs : Sound flash ids devices) :
    Sound flash ids (step flash ids devices op) := by
  cases op with
  | parse t => exact parseMtdparts_sound t
  | add t =>
    rw [step]
    split
    · exact hs
    · next r hr =>
      cases hm : mergeDevice flash devices r.1 with
      | none => exact hs
      | some l =>
        exact mergeDevice_sound devices l r.1 hs (deviceParse_sound devices t r.2 r.1 hr) hm
  | partDel i j => exact partDel_sound devices i j hs
  | deviceDel i => exact hs.eraseIdx devices i

variable (flash ids) in
theorem run_sound (ops : List Op) : Sound flash ids (run flash ids ops) := by
  have hfrom : ∀ devices, Sound flash ids devices →
      Sound flash ids (ops.foldl (step flash ids) devices) := by
    induction ops with
    | nil => exact fun _ h => h
    | cons op ops ih => exact fun devices h => ih _ (step_sound devices op h)
  exact hfrom [] sound_nil

end Kept

end UBoot.Mtdparts
