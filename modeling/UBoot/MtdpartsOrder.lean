import UBoot.MtdpartsCommands

/-!
# The order of the partitions

`part_sort_add` and `part_del` on devices and partitions that are known by their address,
with the counters as wide as they are: 16 bits for `num_parts`, 8 bits for
`current_mtd_partnum`. `none` stands for the name of a partition that is not there:
`index_partitions` reads it without a test.
-/

set_option autoImplicit false

namespace UBoot.PartOrder
open UBoot.Mtdparts

structure Part where
  addr : ℕ
  info : PartInfo
deriving DecidableEq, Repr

/-- A device that is still being parsed is not linked in `devices`. -/
structure Device where
  addr : ℕ
  linked : Bool
  parts : List Part
  numParts : UInt16
deriving DecidableEq, Repr

structure Table where
  devices : List Device
  current : Option ℕ
  partnum : UInt8
deriving DecidableEq, Repr

def Table.device (t : Table) (a : ℕ) : Option Device := t.devices.find? (fun d => d.addr = a)

def Table.setDevice (t : Table) (d : Device) : Table :=
  { t with devices := t.devices.map (fun e => if e.addr = d.addr then d else e) }

def mtdPartInfo (d : Option Device) (partNum : ℕ) : Option Part :=
  match d with
  | none => none
  | some d => if d.numParts.toNat ≤ partNum then none else d.parts[partNum]?

def Table.currentPart (t : Table) : Option Part :=
  match t.current with
  | none => none
  | some a => mtdPartInfo (t.device a) t.partnum.toNat

/-- `current_save` ends with it. -/
def indexPartitions (t : Table) : Option Table :=
  if t.current = none then some t else t.currentPart.map (fun _ => t)

/-- The list with the new partition, and whether the number of the current one goes up. -/
def sortAdd (cur : Option Part) (new : Part) : List Part → Option (List Part × Bool)
  | [] => some ([new], false)
  | p::ps =>
    if new.info.offset = p.info.offset ∧ p.info.offset = 0 then none
    else if new.info.offset ≤ p.info.offset then
      some (new::p::ps, cur.any (fun c => p.info.offset ≤ c.info.offset))
    else (sortAdd cur new ps).map (fun r => (p::r.1, r.2))

def Table.currentIn (t : Table) (dev : ℕ) : Option Part :=
  if t.current = some dev then t.currentPart else none

def partSortAdd (t : Table) (dev : ℕ) (new : Part) : Option (ℕ × Table) :=
  match t.device dev with
  | none => none
  | some d =>
    match sortAdd (t.currentIn dev) new d.parts with
    | none => some (1, t)
    | some r =>
      (indexPartitions { t.setDevice { d with parts := r.1, numParts := d.numParts+1 } with
        partnum := if r.2 then t.partnum+1 else t.partnum }).map (fun t => (0, t))

def deviceDel (t : Table) (dev : ℕ) : Option Table :=
  let devices := t.devices.filter (fun d => d.addr ≠ dev)
  if t.current = some dev then
    match devices.find? (·.linked) with
    | none => indexPartitions ⟨devices, none, t.partnum⟩
    | some d => indexPartitions ⟨devices, some d.addr, 0⟩
  else indexPartitions { t with devices := devices }

def partnumAfterDel (t : Table) (dev : ℕ) (part : Part) : UInt8 :=
  match t.currentIn dev with
  | none => t.partnum
  | some c =>
    if c.addr = part.addr then 0
    else if part.info.offset ≤ c.info.offset then t.partnum-1
    else t.partnum

def partDel (t : Table) (dev : ℕ) (part : Part) : Option (ℕ × Table) :=
  match t.device dev with
  | none => none
  | some d =>
    if d.numParts = 1 then (deviceDel t dev).map (fun t => (0, t))
    else
      let parts := d.parts.filter (fun p => p.addr ≠ part.addr)
      (indexPartitions { t.setDevice { d with parts := parts, numParts := d.numParts-1 } with
        partnum := partnumAfterDel t dev part }).map (fun t => (0, t))

/-! ## Runs -/

inductive Op
  | add (dev : ℕ) (new : Part)
  | del (dev : ℕ) (part : Part)
deriving DecidableEq, Repr

def step (t : Table) : Op → Option Table
  | .add dev new => (partSortAdd t dev new).map (·.2)
  | .del dev part => (partDel t dev part).map (·.2)

def Device.Ordered (d : Device) : Prop :=
  d.parts.Pairwise (fun p q => p.info.offset ≤ q.info.offset) ∧ d.numParts.toNat = d.parts.length

/-- What holds between the commands. -/
structure Sound (t : Table) : Prop where
  devices : (t.devices.map (·.addr)).Nodup
  parts : ∀ d ∈ t.devices, (d.parts.map (·.addr)).Nodup
  ordered : ∀ d ∈ t.devices, d.Ordered
  linked : ∀ d ∈ t.devices, d.linked = true → d.parts ≠ []
  current : t.current ≠ none → t.currentPart ≠ none

/-- What the callers see to: a new partition is at an address of its own, a partition that is
deleted is one of a linked device. -/
def Called (t : Table) : Op → Prop
  | .add dev new => ∃ d, t.device dev = some d ∧ ∀ p ∈ d.parts, p.addr ≠ new.addr
  | .del dev part => ∃ d, t.device dev = some d ∧ d.linked = true ∧ part ∈ d.parts

def Op.deletes (p : Part) : Op → Prop
  | .add _ _ => False
  | .del _ part => part.addr = p.addr

structure Right (t : Table) (op : Op) (t' : Table) : Prop where
  ordered : ∀ d ∈ t'.devices, d.Ordered
  same : ∀ c, t.currentPart = some c → ¬op.deletes c → t'.currentPart = some c

/-- The counters do not wrap, and no partition is deleted that stands behind the current one at
the same offset. -/
def Kept (t : Table) : Op → Prop
  | .add dev new => ∀ d, t.device dev = some d →
    (new.info.offset = 0 ∧ ∃ p ∈ d.parts, p.info.offset = 0) ∨
      d.parts.length < 65535 ∧
        ∀ c, t.currentIn dev = some c → new.info.offset ≤ c.info.offset → t.partnum ≠ 255
  | .del dev part => ∀ d c, t.device dev = some d → t.currentIn dev = some c →
    part.info.offset = c.info.offset → part ∈ d.parts.take (t.partnum.toNat+1)

def AllCalled : Table → List Op → Prop
  | _, [] => True
  | t, op::ops => Called t op ∧ ∀ t', step t op = some t' → AllCalled t' ops

def AllKept : Table → List Op → Prop
  | _, [] => True
  | t, op::ops => Kept t op ∧ ∀ t', step t op = some t' → AllKept t' ops

/-- Every operation returns, and is right. -/
def AllRight : Table → List Op → Prop
  | _, [] => True
  | t, op::ops => ∃ t', step t op = some t' ∧ Right t op t' ∧ AllRight t' ops

/-! ## Places in a list -/

/-- The partitions of a device are at different addresses, so each is at one place. -/
theorem place_unique {ps : List Part} (h : (ps.map (·.addr)).Nodup) {m n : ℕ} {p q : Part}
    (hm : ps[m]? = some p) (hn : ps[n]? = some q) (hpq : p.addr = q.addr) : m = n := by
  have hlt : m < (ps.map (·.addr)).length := by
    rw [List.length_map]
    exact (List.getElem?_eq_some_iff.mp hm).1
  refine (List.getElem?_inj hlt h).mp ?_
  rw [List.getElem?_map, List.getElem?_map, hm, hn]
  exact congrArg some hpq

def place (new : Part) (ps : List Part) : ℕ :=
  ps.findIdx (fun p => new.info.offset ≤ p.info.offset)

theorem place_cons_front (new p : Part) (ps : List Part) (h : new.info.offset ≤ p.info.offset) :
    place new (p::ps) = 0 := by
  rw [place, List.findIdx_cons, decide_eq_true h]
  rfl

theorem place_cons_later (new p : Part) (ps : List Part) (h : ¬new.info.offset ≤ p.info.offset) :
    place new (p::ps) = place new ps+1 := by
  rw [place, List.findIdx_cons, decide_eq_false h]
  rfl

/-- The new partition goes in front of the first one that does not begin before it. -/
theorem sortAdd_some (cur : Option Part) (new : Part) (ps : List Part) (r : List Part × Bool)
    (h : sortAdd cur new ps = some r) : r.1 = ps.insertIdx (place new ps) new ∧
      r.2 = (ps[place new ps]?).any (fun p => cur.any (fun c => p.info.offset ≤ c.info.offset)) := by
  induction ps generalizing r with
  | nil =>
    cases h
    exact ⟨rfl, rfl⟩
  | cons p ps ih =>
    rw [sortAdd] at h
    split_ifs at h with hzero hle
    · cases h
      rw [place_cons_front new p ps hle]
      exact ⟨rfl, rfl⟩
    · obtain ⟨q, hq, rfl⟩ := Option.map_eq_some_iff.mp h
      obtain ⟨hlist, hmoved⟩ := ih q hq
      rw [place_cons_later new p ps hle]
      exact ⟨congrArg (p::·) hlist, hmoved⟩

/-- Only a second partition at offset 0 is refused. -/
theorem sortAdd_none (cur : Option Part) (new : Part) (ps : List Part)
    (hs : ps.Pairwise (fun p q => p.info.offset ≤ q.info.offset)) :
    sortAdd cur new ps = none ↔ new.info.offset = 0 ∧ ∃ p ∈ ps, p.info.offset = 0 := by
  cases ps with
  | nil =>
    constructor
    · intro h
      cases h
    · rintro ⟨-, p, hp, -⟩
      cases hp
  | cons p ps =>
    rw [List.pairwise_cons] at hs
    by_cases hnew : new.info.offset = 0
    · by_cases hp : p.info.offset = 0
      · rw [sortAdd, if_pos ⟨hnew.trans hp.symm, hp⟩]
        exact ⟨fun _ => ⟨hnew, p, List.mem_cons_self, hp⟩, fun _ => rfl⟩
      · rw [sortAdd, if_neg (fun h => hp h.2), if_pos (by omega)]
        constructor
        · intro h
          cases h
        · rintro ⟨-, q, hq, hzero⟩
          rcases List.mem_cons.mp hq with rfl | hq
          · exact absurd hzero hp
          · have := hs.1 q hq
            omega
    · refine ⟨fun h => ?_, fun h => absurd h.1 hnew⟩
      exfalso
      clear hs
      generalize p::ps = l at h
      induction l with
      | nil => cases h
      | cons q l ih =>
        rw [sortAdd] at h
        split_ifs at h with hzero hle
        · exact hnew (hzero.1.trans hzero.2)
        · exact ih (Option.map_eq_none_iff.mp h)

/-- The comparison of the code is one of places: the list is sorted. -/
theorem place_le_iff (new c : Part) (ps : List Part) (n : ℕ)
    (hs : ps.Pairwise (fun p q => p.info.offset ≤ q.info.offset)) (hn : ps[n]? = some c) :
    place new ps ≤ n ↔ new.info.offset ≤ c.info.offset := by
  induction ps generalizing n with
  | nil => cases hn
  | cons p ps ih =>
    rw [List.pairwise_cons] at hs
    by_cases hle : new.info.offset ≤ p.info.offset
    · rw [place_cons_front new p ps hle]
      refine ⟨fun _ => ?_, fun _ => Nat.zero_le n⟩
      cases n with
      | zero =>
        cases hn
        exact hle
      | succ n => exact hle.trans (hs.1 c (List.mem_of_getElem? hn))
    · rw [place_cons_later new p ps hle]
      cases n with
      | zero =>
        cases hn
        exact ⟨fun h => absurd h (Nat.not_succ_le_zero _), fun h => absurd h hle⟩
      | succ n => exact Nat.succ_le_succ_iff.trans (ih n hs.2 hn)

theorem place_spec (new p : Part) (ps : List Part) (h : ps[place new ps]? = some p) :
    new.info.offset ≤ p.info.offset := by
  obtain ⟨hlt, rfl⟩ := List.getElem?_eq_some_iff.mp h
  exact of_decide_eq_true (List.findIdx_getElem (w := hlt))

theorem offset_le_of_place_le {ps : List Part} {m n : ℕ} {p q : Part}
    (hs : ps.Pairwise (fun p q => p.info.offset ≤ q.info.offset)) (hm : ps[m]? = some p)
    (hn : ps[n]? = some q) (h : m ≤ n) : p.info.offset ≤ q.info.offset := by
  obtain ⟨hm', rfl⟩ := List.getElem?_eq_some_iff.mp hm
  obtain ⟨hn', rfl⟩ := List.getElem?_eq_some_iff.mp hn
  rcases Nat.lt_or_eq_of_le h with hlt | heq
  · exact List.pairwise_iff_getElem.mp hs m n hm' hn' hlt
  · subst heq
    exact le_refl _

theorem moved_iff (new c : Part) (ps : List Part) (n : ℕ)
    (hs : ps.Pairwise (fun p q => p.info.offset ≤ q.info.offset)) (hn : ps[n]? = some c) :
    (ps[place new ps]?).any (fun p => p.info.offset ≤ c.info.offset) = true ↔
      place new ps ≤ n := by
  rw [Option.any_eq_true]
  constructor
  · rintro ⟨p, hp, hle⟩
    rw [place_le_iff new c ps n hs hn]
    exact (place_spec new p ps hp).trans (of_decide_eq_true hle)
  · intro h
    have hlt : place new ps < ps.length := lt_of_le_of_lt h (List.getElem?_eq_some_iff.mp hn).1
    have hp := List.getElem?_eq_getElem hlt
    exact ⟨_, hp, decide_eq_true (offset_le_of_place_le hs hp hn h)⟩

theorem place_le_length (new : Part) (ps : List Part) : place new ps ≤ ps.length :=
  List.findIdx_le_length

theorem insertIdx_ordered (new : Part) (ps : List Part)
    (hs : ps.Pairwise (fun p q => p.info.offset ≤ q.info.offset)) :
    (ps.insertIdx (place new ps) new).Pairwise (fun p q => p.info.offset ≤ q.info.offset) := by
  induction ps with
  | nil => exact List.pairwise_singleton _ _
  | cons p ps ih =>
    rw [List.pairwise_cons] at hs
    by_cases hle : new.info.offset ≤ p.info.offset
    · rw [place_cons_front new p ps hle, List.insertIdx_zero]
      refine List.pairwise_cons.mpr ⟨fun q hq => ?_, List.pairwise_cons.mpr hs⟩
      rcases List.mem_cons.mp hq with rfl | hq
      · exact hle
      · exact hle.trans (hs.1 q hq)
    · rw [place_cons_later new p ps hle, List.insertIdx_succ_cons]
      refine List.pairwise_cons.mpr ⟨fun q hq => ?_, ih hs.2⟩
      rcases (List.mem_insertIdx (place_le_length new ps)).mp hq with rfl | hq
      · exact Nat.le_of_not_le hle
      · exact hs.1 q hq

/-- Where a partition is after one has been put at place `k`. -/
theorem insertIdx_place {ps : List Part} {n : ℕ} {c : Part} (k : ℕ) (new : Part)
    (hn : ps[n]? = some c) :
    (ps.insertIdx k new)[if k ≤ n then n+1 else n]? = some c := by
  split_ifs with h
  · rw [List.getElem?_insertIdx_of_gt (by omega)]
    exact hn
  · rw [List.getElem?_insertIdx_of_lt (by omega)]
    exact hn

theorem filter_eq_eraseIdx {ps : List Part} (h : (ps.map (·.addr)).Nodup) {j : ℕ} {part : Part}
    (hj : ps[j]? = some part) : ps.filter (fun p => p.addr ≠ part.addr) = ps.eraseIdx j := by
  induction ps generalizing j with
  | nil => cases hj
  | cons p ps ih =>
    rw [List.map_cons, List.nodup_cons] at h
    cases j with
    | zero =>
      cases hj
      rw [List.filter_cons_of_neg (by simp), List.eraseIdx_cons_zero, List.filter_eq_self]
      intro q hq
      refine decide_eq_true (fun heq => h.1 ?_)
      exact List.mem_map.mpr ⟨q, hq, heq⟩
    | succ j =>
      have hp : p.addr ≠ part.addr := by
        intro heq
        exact h.1 (List.mem_map.mpr ⟨part, List.mem_of_getElem? hj, heq.symm⟩)
      rw [List.filter_cons_of_pos (by simpa using hp), List.eraseIdx_cons_succ, ih h.2 hj]

/-- Where a partition is after the one at place `j` has been taken out. -/
theorem eraseIdx_place {ps : List Part} {j n : ℕ} {c : Part} (hn : ps[n]? = some c) (h : n ≠ j) :
    (ps.eraseIdx j)[if j < n then n-1 else n]? = some c := by
  split_ifs with hlt
  · rw [List.getElem?_eraseIdx_of_ge (by omega), Nat.sub_add_cancel (by omega)]
    exact hn
  · rw [List.getElem?_eraseIdx_of_lt (by omega)]
    exact hn

/-! ## Devices -/

theorem device_mem {t : Table} {a : ℕ} {d : Device} (h : t.device a = some d) :
    d ∈ t.devices ∧ d.addr = a :=
  ⟨List.mem_of_find?_eq_some h,
    of_decide_eq_true (List.find?_some (p := fun d : Device => decide (d.addr = a)) h)⟩

theorem device_setDevice_self {t : Table} {d e : Device} (h : t.device d.addr = some e) :
    (t.setDevice d).device d.addr = some d := by
  unfold Table.device Table.setDevice at *
  dsimp only at h ⊢
  generalize t.devices = l at h ⊢
  induction l with
  | nil => cases h
  | cons x l ih =>
    rw [List.map_cons]
    by_cases hx : x.addr = d.addr
    · rw [if_pos hx, List.find?_cons_of_pos (by simp)]
    · rw [List.find?_cons_of_neg (by simpa using hx)] at h
      rw [if_neg hx, List.find?_cons_of_neg (by simpa using hx), ih h]

theorem device_setDevice_ne (t : Table) {d : Device} {a : ℕ} (ha : a ≠ d.addr) :
    (t.setDevice d).device a = t.device a := by
  unfold Table.device Table.setDevice
  dsimp only
  induction t.devices with
  | nil => rfl
  | cons x l ih =>
    rw [List.map_cons]
    by_cases hx : x.addr = d.addr
    · rw [if_pos hx, List.find?_cons_of_neg (by simpa using ha.symm),
        List.find?_cons_of_neg (by simpa [hx] using ha.symm), ih]
    · rw [if_neg hx, List.find?_cons, List.find?_cons, ih]

theorem mem_setDevice {t : Table} {d e : Device} (h : e ∈ (t.setDevice d).devices) :
    e = d ∨ e ∈ t.devices := by
  obtain ⟨x, hx, rfl⟩ := List.mem_map.mp h
  split_ifs
  · exact Or.inl rfl
  · exact Or.inr hx

theorem mem_setDevice_self {t : Table} {d e : Device} (h : t.device d.addr = some e) :
    d ∈ (t.setDevice d).devices :=
  (device_mem (device_setDevice_self h)).1

theorem setDevice_addrs (t : Table) (d : Device) :
    (t.setDevice d).devices.map (·.addr) = t.devices.map (·.addr) := by
  rw [Table.setDevice, List.map_map]
  refine List.map_congr_left (fun e _ => ?_)
  rw [Function.comp_apply]
  split_ifs with h
  · exact h.symm
  · rfl

theorem mtdPartInfo_ordered {d : Device} (h : d.numParts.toNat = d.parts.length) (n : ℕ) :
    mtdPartInfo (some d) n = d.parts[n]? := by
  rw [mtdPartInfo]
  split_ifs with hn
  · rw [List.getElem?_eq_none (h ▸ hn)]
  · rfl

theorem indexPartitions_some {t t' : Table} (h : indexPartitions t = some t') :
    t' = t ∧ (t.current ≠ none → t.currentPart ≠ none) := by
  rw [indexPartitions] at h
  split_ifs at h with hnone
  · cases h
    exact ⟨rfl, fun h => absurd hnone h⟩
  · obtain ⟨p, hp, rfl⟩ := Option.map_eq_some_iff.mp h
    refine ⟨rfl, fun _ hnone => ?_⟩
    rw [hnone] at hp
    cases hp

theorem indexPartitions_of {t : Table} (h : t.current ≠ none → t.currentPart ≠ none) :
    indexPartitions t = some t := by
  rw [indexPartitions]
  split_ifs with hnone
  · rfl
  · obtain ⟨p, hp⟩ := Option.ne_none_iff_exists'.mp (h hnone)
    rw [hp]
    rfl

/-- One device has another list, the number of the current partition is `m`. -/
def Table.replace (t : Table) (d : Device) (m : UInt8) : Table :=
  { t.setDevice d with partnum := m }

theorem currentPart_none {t : Table} (h : t.current = none) : t.currentPart = none := by
  rw [Table.currentPart, h]

theorem currentPart_some {t : Table} {a : ℕ} (h : t.current = some a) :
    t.currentPart = mtdPartInfo (t.device a) t.partnum.toNat := by
  rw [Table.currentPart, h]

theorem replace_other {t : Table} {d : Device} (h : t.current ≠ some d.addr) :
    (t.replace d t.partnum).currentPart = t.currentPart := by
  cases hc : t.current with
  | none =>
    have hc' : (t.replace d t.partnum).current = none := hc
    rw [currentPart_none hc, currentPart_none hc']
  | some a =>
    have hc' : (t.replace d t.partnum).current = some a := hc
    have ha : a ≠ d.addr := fun heq => h (hc.trans (congrArg some heq))
    rw [currentPart_some hc, currentPart_some hc']
    exact congrArg (fun o => mtdPartInfo o t.partnum.toNat) (device_setDevice_ne t ha)

theorem replace_self {t : Table} {d e : Device} (m : UInt8) (h : t.current = some d.addr)
    (hd : t.device d.addr = some e) :
    (t.replace d m).currentPart = mtdPartInfo (some d) m.toNat := by
  have h' : (t.replace d m).current = some d.addr := h
  rw [currentPart_some h']
  exact congrArg (fun o => mtdPartInfo o m.toNat) (device_setDevice_self hd)

/-- When the new list of one device leaves the table right. -/
theorem replace_right_iff {t : Table} (hs : Sound t) {d e : Device} (he : t.device d.addr = some e)
    (hd : d.parts.Pairwise (fun p q => p.info.offset ≤ q.info.offset)) (op : Op) (m : UInt8)
    (hm : t.current ≠ some d.addr → m = t.partnum) :
    (∃ t', indexPartitions (t.replace d m) = some t' ∧ Right t op t') ↔
      d.numParts.toNat = d.parts.length ∧ (t.current = some d.addr → d.parts[m.toNat]? ≠ none ∧
        ∀ c, t.currentPart = some c → ¬op.deletes c → d.parts[m.toNat]? = some c) := by
  constructor
  · rintro ⟨t', hidx, hr⟩
    obtain ⟨rfl, hdef⟩ := indexPartitions_some hidx
    have hlen := (hr.ordered d (mem_setDevice_self he)).2
    refine ⟨hlen, fun hcur => ?_⟩
    have hpart := replace_self m hcur he
    rw [mtdPartInfo_ordered hlen] at hpart
    rw [← hpart]
    refine ⟨hdef ?_, hr.same⟩
    exact fun hnone => Option.some_ne_none d.addr (hcur.symm.trans hnone)
  · rintro ⟨hlen, hcur⟩
    have hordered : ∀ x ∈ (t.replace d m).devices, x.Ordered := by
      intro x hx
      rcases mem_setDevice hx with rfl | hx
      · exact ⟨hd, hlen⟩
      · exact hs.ordered x hx
    by_cases h : t.current = some d.addr
    · have hpart := replace_self m h he
      rw [mtdPartInfo_ordered hlen] at hpart
      refine ⟨_, indexPartitions_of (fun _ => ?_), hordered, ?_⟩
      · rw [hpart]
        exact (hcur h).1
      · rw [hpart]
        exact (hcur h).2
    · obtain rfl := hm h
      have hpart := replace_other h
      refine ⟨_, indexPartitions_of (fun hne => ?_), hordered, ?_⟩
      · rw [hpart]
        exact hs.current hne
      · intro c hc _
        rw [hpart]
        exact hc

/-- The invariant without the order, which is part of being right. -/
theorem replace_sound {t t' : Table} (hs : Sound t) {d e : Device} (he : t.device d.addr = some e)
    (m : UInt8) (hidx : indexPartitions (t.replace d m) = some t')
    (hordered : ∀ x ∈ t'.devices, x.Ordered) (hnodup : (d.parts.map (·.addr)).Nodup)
    (hne : d.linked = true → d.parts ≠ []) : Sound t' := by
  obtain ⟨rfl, hdef⟩ := indexPartitions_some hidx
  constructor
  · exact (setDevice_addrs t d).symm ▸ hs.devices
  · intro x hx
    rcases mem_setDevice hx with rfl | hx
    · exact hnodup
    · exact hs.parts x hx
  · exact hordered
  · intro x hx
    rcases mem_setDevice hx with rfl | hx
    · exact hne
    · exact hs.linked x hx
  · exact hdef

/-- The current partition is one of the device, at the place that the number says. -/
theorem currentIn_place {t : Table} (hs : Sound t) {a : ℕ} {d : Device} {c : Part}
    (hd : t.device a = some d) (hc : t.currentIn a = some c) :
    t.current = some a ∧ t.currentPart = some c ∧ d.parts[t.partnum.toNat]? = some c := by
  rw [Table.currentIn] at hc
  split_ifs at hc with hcur
  refine ⟨hcur, hc, ?_⟩
  rw [currentPart_some hcur, hd, mtdPartInfo_ordered (hs.ordered d (device_mem hd).1).2] at hc
  exact hc

theorem currentIn_some {t : Table} (hs : Sound t) {a : ℕ} (h : t.current = some a) :
    ∃ c, t.currentIn a = some c := by
  rw [Table.currentIn, if_pos h]
  refine Option.ne_none_iff_exists'.mp (hs.current ?_)
  rw [h]
  exact Option.some_ne_none a

theorem currentIn_none {t : Table} {a : ℕ} (h : t.current ≠ some a) : t.currentIn a = none :=
  if_neg h

/-! ## Adding -/

theorem step_add_refused {t : Table} {dev : ℕ} {new : Part} {d : Device} (hd : t.device dev = some d)
    (h : sortAdd (t.currentIn dev) new d.parts = none) : step t (.add dev new) = some t := by
  rw [step, partSortAdd, hd]
  dsimp only
  rw [h]
  rfl

def Device.added (d : Device) (r : List Part × Bool) : Device :=
  { d with parts := r.1, numParts := d.numParts+1 }

theorem step_add {t : Table} {dev : ℕ} {new : Part} {d : Device} {r : List Part × Bool}
    (hd : t.device dev = some d) (h : sortAdd (t.currentIn dev) new d.parts = some r) :
    step t (.add dev new) =
      indexPartitions (t.replace (d.added r) (if r.2 then t.partnum+1 else t.partnum)) := by
  rw [step, partSortAdd, hd]
  dsimp only
  rw [h]
  exact (Option.map_map _ _ _).trans (congrFun Option.map_id _)

theorem toNat_add_one {n : ℕ} (m : UInt16) (h : m.toNat = n) :
    (m+1).toNat = n+1 ↔ n < 65535 := by
  rw [UInt16.toNat_add, h]
  have := m.toNat_lt
  change (n+1) % 65536 = n+1 ↔ _
  omega

theorem insertIdx_nodup {ps : List Part} {k : ℕ} {new : Part} (hk : k ≤ ps.length)
    (h : (ps.map (·.addr)).Nodup) (hnew : ∀ p ∈ ps, p.addr ≠ new.addr) :
    ((ps.insertIdx k new).map (·.addr)).Nodup := by
  rw [((List.perm_insertIdx new ps hk).map (·.addr)).nodup_iff, List.map_cons, List.nodup_cons]
  refine ⟨fun hmem => ?_, h⟩
  obtain ⟨p, hp, heq⟩ := List.mem_map.mp hmem
  exact hnew p hp heq

/-- The number of the current partition after an insertion, against the place it has then. -/
theorem added_place_iff {t : Table} (hs : Sound t) {dev : ℕ} {new c : Part} {d : Device}
    {r : List Part × Bool} (hd : t.device dev = some d) (hc : t.currentIn dev = some c)
    (hfresh : ∀ p ∈ d.parts, p.addr ≠ new.addr)
    (hr : sortAdd (t.currentIn dev) new d.parts = some r) :
    r.1[(if r.2 then t.partnum+1 else t.partnum).toNat]? = some c ↔
      (new.info.offset ≤ c.info.offset → t.partnum ≠ 255) := by
  obtain ⟨hlist, hmoved⟩ := sortAdd_some _ _ _ _ hr
  obtain ⟨-, -, hn⟩ := currentIn_place hs hd hc
  have hsorted := (hs.ordered d (device_mem hd).1).1
  have hk := place_le_length new d.parts
  have hat := insertIdx_place (place new d.parts) new hn
  have hnodup := insertIdx_nodup hk (hs.parts d (device_mem hd).1) hfresh
  have hle := place_le_iff new c d.parts _ hsorted hn
  have hmv := moved_iff new c d.parts _ hsorted hn
  rw [hc] at hmoved
  have hr2 : r.2 = true ↔ place new d.parts ≤ t.partnum.toNat := by
    rw [hmoved]
    exact hmv
  have hlt := t.partnum.toNat_lt
  have hadd : (t.partnum+1).toNat = (t.partnum.toNat+1) % 256 := UInt8.toNat_add t.partnum 1
  have h255 : t.partnum ≠ 255 ↔ t.partnum.toNat ≠ 255 := by
    rw [Ne, Ne, ← UInt8.toNat_inj]
    rfl
  rw [hlist, ← hle, h255]
  by_cases hp : place new d.parts ≤ t.partnum.toNat
  · rw [if_pos hp] at hat
    rw [if_pos (hr2.mpr hp), hadd]
    constructor
    · intro h _
      have := place_unique hnodup h hat rfl
      omega
    · intro h
      have := h hp
      rw [Nat.mod_eq_of_lt (by omega)]
      exact hat
  · rw [if_neg hp] at hat
    rw [if_neg (fun h => hp (hr2.mp h))]
    exact ⟨fun _ h => absurd h hp, fun _ => hat⟩

theorem add_right_iff {t : Table} (hs : Sound t) (dev : ℕ) (new : Part)
    (hcalled : Called t (.add dev new)) :
    (∃ t', step t (.add dev new) = some t' ∧ Right t (.add dev new) t') ↔
      Kept t (.add dev new) := by
  obtain ⟨d, hd, hfresh⟩ := hcalled
  have hordered := hs.ordered d (device_mem hd).1
  have haddr := (device_mem hd).2
  have hkept : Kept t (.add dev new) ↔ (new.info.offset = 0 ∧ ∃ p ∈ d.parts, p.info.offset = 0) ∨
      d.parts.length < 65535 ∧
        ∀ c, t.currentIn dev = some c → new.info.offset ≤ c.info.offset → t.partnum ≠ 255 := by
    constructor
    · intro h
      exact h d hd
    · intro h e he
      cases hd.symm.trans he
      exact h
  rw [hkept, ← sortAdd_none (t.currentIn dev) new d.parts hordered.1]
  cases hr : sortAdd (t.currentIn dev) new d.parts with
  | none =>
    refine ⟨fun _ => Or.inl rfl, fun _ => ⟨t, step_add_refused hd hr, hs.ordered, ?_⟩⟩
    exact fun c hc _ => hc
  | some r =>
    obtain ⟨hlist, -⟩ := sortAdd_some _ _ _ _ hr
    have hlen : r.1.length = d.parts.length+1 := by
      rw [hlist, List.length_insertIdx_of_le_length (place_le_length new d.parts)]
    have hparts : (d.added r).parts.Pairwise (fun p q => p.info.offset ≤ q.info.offset) := by
      change r.1.Pairwise _
      rw [hlist]
      exact insertIdx_ordered new d.parts hordered.1
    have hm : t.current ≠ some (d.added r).addr →
        (if r.2 then t.partnum+1 else t.partnum) = t.partnum := by
      intro hne
      have hnone : t.currentIn dev = none := currentIn_none (haddr ▸ hne)
      have hmoved := (sortAdd_some _ _ _ _ hr).2
      rw [hnone] at hmoved
      rw [if_neg]
      rw [hmoved]
      simp
    rw [step_add hd hr, replace_right_iff hs (e := d) (by exact haddr.symm ▸ hd) hparts _ _ hm]
    change (d.numParts+1).toNat = r.1.length ∧ _ ↔ _
    rw [hlen, toNat_add_one _ hordered.2]
    constructor
    · rintro ⟨hroom, hcur⟩
      refine Or.inr ⟨hroom, fun c hc => ?_⟩
      obtain ⟨hat, hpart, -⟩ := currentIn_place hs hd hc
      rw [← added_place_iff hs hd hc hfresh hr]
      exact (hcur (by exact haddr.symm ▸ hat)).2 c hpart (fun h => h)
    · rintro (h | ⟨hroom, hcur⟩)
      · cases h
      · refine ⟨hroom, fun hat => ?_⟩
        have hat' : t.current = some dev := haddr ▸ hat
        obtain ⟨c, hc⟩ := currentIn_some hs hat'
        have hplace := (added_place_iff hs hd hc hfresh hr).mpr (hcur c hc)
        refine ⟨fun hnone => ?_, fun c' hc' _ => ?_⟩
        · exact Option.some_ne_none c (hplace.symm.trans hnone)
        · obtain ⟨-, hpart, -⟩ := currentIn_place hs hd hc
          rw [← hc', hpart]
          exact hplace

theorem add_sound {t t' : Table} (hs : Sound t) (dev : ℕ) (new : Part)
    (hcalled : Called t (.add dev new)) (hstep : step t (.add dev new) = some t')
    (hordered : ∀ x ∈ t'.devices, x.Ordered) : Sound t' := by
  obtain ⟨d, hd, hfresh⟩ := hcalled
  cases hr : sortAdd (t.currentIn dev) new d.parts with
  | none =>
    rw [step_add_refused hd hr] at hstep
    cases hstep
    exact hs
  | some r =>
    obtain ⟨hlist, -⟩ := sortAdd_some _ _ _ _ hr
    have hk := place_le_length new d.parts
    rw [step_add hd hr] at hstep
    have haddr : t.device (d.added r).addr = some d := by
      change t.device d.addr = some d
      rw [(device_mem hd).2]
      exact hd
    refine replace_sound hs haddr _ hstep hordered ?_ (fun _ => ?_)
    · change (r.1.map (·.addr)).Nodup
      rw [hlist]
      exact insertIdx_nodup hk (hs.parts d (device_mem hd).1) hfresh
    · change r.1 ≠ []
      rw [hlist]
      exact List.ne_nil_of_mem ((List.mem_insertIdx hk).mpr (Or.inl rfl))

/-! ## Deleting -/

def Device.removed (d : Device) (part : Part) : Device :=
  { d with parts := d.parts.filter (fun p => p.addr ≠ part.addr), numParts := d.numParts-1 }

theorem step_del_device {t : Table} {dev : ℕ} {part : Part} {d : Device} (hd : t.device dev = some d)
    (h : d.numParts = 1) : step t (.del dev part) = deviceDel t dev := by
  rw [step, partDel, hd]
  dsimp only
  rw [if_pos h]
  exact (Option.map_map _ _ _).trans (congrFun Option.map_id _)

theorem step_del {t : Table} {dev : ℕ} {part : Part} {d : Device} (hd : t.device dev = some d)
    (h : d.numParts ≠ 1) : step t (.del dev part) =
      indexPartitions (t.replace (d.removed part) (partnumAfterDel t dev part)) := by
  rw [step, partDel, hd]
  dsimp only
  rw [if_neg h]
  exact (Option.map_map _ _ _).trans (congrFun Option.map_id _)

/-- The number of the current partition after a deletion, against the place it has then. -/
theorem removed_place_iff {t : Table} (hs : Sound t) {dev j : ℕ} {part c : Part} {d : Device}
    (hd : t.device dev = some d) (hc : t.currentIn dev = some c) (hj : d.parts[j]? = some part)
    (hne : part.addr ≠ c.addr) :
    (d.parts.eraseIdx j)[(partnumAfterDel t dev part).toNat]? = some c ↔
      (part.info.offset = c.info.offset → j ≤ t.partnum.toNat) := by
  obtain ⟨-, -, hn⟩ := currentIn_place hs hd hc
  have hnodup := hs.parts d (device_mem hd).1
  have hsorted := (hs.ordered d (device_mem hd).1).1
  have hnj : t.partnum.toNat ≠ j := by
    intro heq
    rw [heq, hj] at hn
    cases hn
    exact hne rfl
  have hat := eraseIdx_place hn hnj
  have hnodup' : ((d.parts.eraseIdx j).map (·.addr)).Nodup :=
    hnodup.sublist ((List.eraseIdx_sublist d.parts j).map _)
  have hlt := t.partnum.toNat_lt
  have hsub : (t.partnum-1).toNat = (t.partnum.toNat+255) % 256 := by
    rw [UInt8.toNat_sub]
    change (256-1+t.partnum.toNat) % 256 = _
    omega
  rw [partnumAfterDel, hc]
  dsimp only
  rw [if_neg hne.symm]
  by_cases hjn : j < t.partnum.toNat
  · have hle := offset_le_of_place_le hsorted hj hn hjn.le
    rw [if_pos hjn] at hat
    rw [if_pos hle, hsub]
    refine ⟨fun _ _ => hjn.le, fun _ => ?_⟩
    rw [show (t.partnum.toNat+255) % 256 = t.partnum.toNat-1 by omega]
    exact hat
  · have hle := offset_le_of_place_le hsorted hn hj (by omega)
    rw [if_neg hjn] at hat
    by_cases heq : part.info.offset = c.info.offset
    · -- the number goes down although the current partition stays where it is
      rw [if_pos heq.le, hsub]
      constructor
      · intro h _
        have := place_unique hnodup' h hat rfl
        omega
      · intro h
        have := h heq
        omega
    · rw [if_neg (by omega)]
      exact ⟨fun _ h => absurd h heq, fun _ => hat⟩

theorem mem_take_iff {ps : List Part} (h : (ps.map (·.addr)).Nodup) {j : ℕ} {part : Part}
    (hj : ps[j]? = some part) (n : ℕ) : part ∈ ps.take (n+1) ↔ j ≤ n := by
  rw [List.mem_take_iff_getElem]
  constructor
  · rintro ⟨i, hi, rfl⟩
    have := place_unique h (List.getElem?_eq_getElem (by omega)) hj rfl
    omega
  · intro hle
    obtain ⟨hlt, rfl⟩ := List.getElem?_eq_some_iff.mp hj
    exact ⟨j, by omega, rfl⟩

theorem find_of_mem {devices : List Device} (h : (devices.map (·.addr)).Nodup) {d : Device}
    (hd : d ∈ devices) : devices.find? (fun e => e.addr = d.addr) = some d := by
  induction devices with
  | nil => cases hd
  | cons e devices ih =>
    rw [List.map_cons, List.nodup_cons] at h
    rcases List.mem_cons.mp hd with rfl | hd
    · rw [List.find?_cons_of_pos (by simp)]
    · have he : e.addr ≠ d.addr := fun heq => h.1 (List.mem_map.mpr ⟨d, hd, heq.symm⟩)
      rw [List.find?_cons_of_neg (by simpa using he), ih h.2 hd]

theorem device_filter (t : Table) {a dev : ℕ} (h : a ≠ dev) :
    (t.devices.filter (fun d => d.addr ≠ dev)).find? (fun d => d.addr = a) = t.device a := by
  rw [List.find?_filter, Table.device]
  refine congrArg (fun f => t.devices.find? f) (funext fun d => ?_)
  rw [Bool.eq_iff_iff]
  simp only [decide_eq_true_eq]
  exact ⟨fun hd => hd.2, fun hd => ⟨fun heq => h (hd.symm.trans heq), hd⟩⟩

/-- Without its last partition a device is not there any more; when it was the current one, the
first partition of the first device is. -/
theorem deviceDel_spec {t : Table} (hs : Sound t) (dev : ℕ) : ∃ t', deviceDel t dev = some t' ∧
    t'.devices = t.devices.filter (fun d => d.addr ≠ dev) ∧
    (t.current ≠ some dev → t'.currentPart = t.currentPart) ∧
    (t'.current ≠ none → t'.currentPart ≠ none) := by
  have hmem : ∀ d ∈ t.devices.filter (fun d => d.addr ≠ dev), d ∈ t.devices :=
    fun d hd => (List.mem_filter.mp hd).1
  rw [deviceDel]
  by_cases hcur : t.current = some dev
  · rw [if_pos hcur]
    cases hfirst : (t.devices.filter (fun d => d.addr ≠ dev)).find? (·.linked) with
    | none => exact ⟨_, rfl, rfl, fun h => absurd hcur h, fun h => absurd rfl h⟩
    | some d =>
      have hd := List.mem_of_find?_eq_some hfirst
      have hnodup : ((t.devices.filter (fun d => d.addr ≠ dev)).map (·.addr)).Nodup :=
        hs.devices.sublist (List.filter_sublist.map _)
      have hpart : (⟨t.devices.filter (fun d => d.addr ≠ dev), some d.addr, 0⟩ : Table).currentPart
          = d.parts[0]? := by
        rw [currentPart_some rfl, Table.device, find_of_mem hnodup hd,
          mtdPartInfo_ordered (hs.ordered d (hmem d hd)).2]
        rfl
      have hne : d.parts[0]? ≠ none := by
        rw [Ne, List.getElem?_eq_none_iff, Nat.le_zero, List.length_eq_zero_iff]
        exact hs.linked d (hmem d hd) (List.find?_some hfirst)
      refine ⟨_, indexPartitions_of (fun _ => ?_), rfl, fun h => absurd hcur h, fun _ => ?_⟩
      · rw [hpart]
        exact hne
      · rw [hpart]
        exact hne
  · rw [if_neg hcur]
    have hpart : (⟨t.devices.filter (fun d => d.addr ≠ dev), t.current, t.partnum⟩ : Table).currentPart
        = t.currentPart := by
      cases hc : t.current with
      | none => rw [currentPart_none rfl, currentPart_none hc]
      | some a =>
        have ha : a ≠ dev := fun heq => hcur (heq ▸ hc)
        rw [currentPart_some rfl, currentPart_some hc, Table.device, device_filter t ha]
    refine ⟨_, indexPartitions_of (fun h => ?_), rfl, fun _ => hpart, fun h => ?_⟩
    · rw [hpart]
      exact hs.current h
    · rw [hpart]
      exact hs.current h

/-- `num_parts` of a device with one partition is 1, and of no other linked device. -/
theorem numParts_one_iff {d : Device} (h : d.numParts.toNat = d.parts.length) :
    d.numParts = 1 ↔ d.parts.length = 1 := by
  rw [← h, ← UInt16.toNat_inj]
  rfl

theorem del_right_iff {t : Table} (hs : Sound t) (dev : ℕ) (part : Part)
    (hcalled : Called t (.del dev part)) :
    (∃ t', step t (.del dev part) = some t' ∧ Right t (.del dev part) t') ↔
      Kept t (.del dev part) := by
  obtain ⟨d, hd, hlinked, hpart⟩ := hcalled
  have hordered := hs.ordered d (device_mem hd).1
  have hnodup := hs.parts d (device_mem hd).1
  have haddr := (device_mem hd).2
  obtain ⟨j, hj⟩ := List.mem_iff_getElem?.mp hpart
  have hjlt := (List.getElem?_eq_some_iff.mp hj).1
  have hkept : Kept t (.del dev part) ↔ ∀ c, t.currentIn dev = some c →
      part.info.offset = c.info.offset → j ≤ t.partnum.toNat := by
    constructor
    · intro h c hc heq
      exact (mem_take_iff hnodup hj _).mp (h d c hd hc heq)
    · intro h e c he hc heq
      cases hd.symm.trans he
      exact (mem_take_iff hnodup hj _).mpr (h c hc heq)
  rw [hkept]
  by_cases hone : d.numParts = 1
  · -- the device goes with its last partition
    have hlen := (numParts_one_iff hordered.2).mp hone
    obtain ⟨t', hdel, hdevices, hother, -⟩ := deviceDel_spec hs dev
    refine ⟨fun _ c _ _ => by omega, fun _ => ⟨t', (step_del_device hd hone).trans hdel, ?_, ?_⟩⟩
    · intro x hx
      rw [hdevices] at hx
      exact hs.ordered x (List.mem_filter.mp hx).1
    · intro c hc hnot
      by_cases hcur : t.current = some dev
      · exfalso
        obtain ⟨-, -, hn⟩ := currentIn_place hs hd ((if_pos hcur).trans hc)
        have hnlt := (List.getElem?_eq_some_iff.mp hn).1
        rw [show t.partnum.toNat = j by omega, hj] at hn
        cases hn
        exact hnot rfl
      · rw [hother hcur]
        exact hc
  · have hlen : 2 ≤ d.parts.length := by
      have := mt (numParts_one_iff hordered.2).mpr hone
      omega
    have hfilter := filter_eq_eraseIdx hnodup hj
    have hsorted : (d.removed part).parts.Pairwise (fun p q => p.info.offset ≤ q.info.offset) :=
      hordered.1.filter _
    have hm : t.current ≠ some (d.removed part).addr → partnumAfterDel t dev part = t.partnum := by
      intro hne
      rw [partnumAfterDel, currentIn_none (haddr ▸ hne)]
    have hcount : (d.removed part).numParts.toNat = (d.removed part).parts.length := by
      change (d.numParts-1).toNat = (d.parts.filter (fun p => p.addr ≠ part.addr)).length
      have : d.parts.length < 65536 := hordered.2 ▸ d.numParts.toNat_lt
      rw [hfilter, List.length_eraseIdx_of_lt hjlt, UInt16.toNat_sub, hordered.2]
      change (65536-1+d.parts.length) % 65536 = _
      omega
    rw [step_del hd hone, replace_right_iff hs (e := d) (by exact haddr.symm ▸ hd) hsorted _ _ hm]
    change _ ∧ (_ → (d.parts.filter (fun p => p.addr ≠ part.addr))[_]? ≠ none ∧
      ∀ c, _ → _ → (d.parts.filter (fun p => p.addr ≠ part.addr))[_]? = _) ↔ _
    rw [hfilter]
    constructor
    · rintro ⟨-, hcur⟩ c hc
      obtain ⟨hat, hcpart, hn⟩ := currentIn_place hs hd hc
      by_cases hne : part.addr = c.addr
      · intro _
        exact (place_unique hnodup hj hn hne).le
      · rw [← removed_place_iff hs hd hc hj hne]
        exact (hcur (by exact haddr.symm ▸ hat)).2 c hcpart hne
    · intro hcur
      refine ⟨hcount, fun hat => ?_⟩
      have hat' : t.current = some dev := haddr ▸ hat
      obtain ⟨c, hc⟩ := currentIn_some hs hat'
      obtain ⟨-, hcpart, -⟩ := currentIn_place hs hd hc
      by_cases hne : part.addr = c.addr
      · rw [partnumAfterDel, hc]
        dsimp only
        rw [if_pos hne.symm]
        refine ⟨?_, fun c' hc' hnot => ?_⟩
        · rw [Ne, List.getElem?_eq_none_iff, List.length_eraseIdx_of_lt hjlt]
          change ¬d.parts.length-1 ≤ 0
          omega
        · rw [hcpart] at hc'
          cases hc'
          exact absurd hne hnot
      · have hplace := (removed_place_iff hs hd hc hj hne).mpr (hcur c hc)
        refine ⟨fun hnone => Option.some_ne_none c (hplace.symm.trans hnone), fun c' hc' _ => ?_⟩
        rw [← hc', hcpart]
        exact hplace

theorem del_sound {t t' : Table} (hs : Sound t) (dev : ℕ) (part : Part)
    (hcalled : Called t (.del dev part)) (hstep : step t (.del dev part) = some t')
    (hordered : ∀ x ∈ t'.devices, x.Ordered) : Sound t' := by
  obtain ⟨d, hd, hlinked, hpart⟩ := hcalled
  have hnodup := hs.parts d (device_mem hd).1
  have hcount := (hs.ordered d (device_mem hd).1).2
  by_cases hone : d.numParts = 1
  · rw [step_del_device hd hone] at hstep
    obtain ⟨u, hdel, hdevices, -, hcur⟩ := deviceDel_spec hs dev
    cases hstep.symm.trans hdel
    have hmem : ∀ x ∈ t'.devices, x ∈ t.devices := by
      intro x hx
      rw [hdevices] at hx
      exact (List.mem_filter.mp hx).1
    constructor
    · rw [hdevices]
      exact hs.devices.sublist (List.filter_sublist.map _)
    · exact fun x hx => hs.parts x (hmem x hx)
    · exact hordered
    · exact fun x hx => hs.linked x (hmem x hx)
    · exact hcur
  · rw [step_del hd hone] at hstep
    have haddr : t.device (d.removed part).addr = some d := by
      change t.device d.addr = some d
      rw [(device_mem hd).2]
      exact hd
    refine replace_sound hs haddr _ hstep hordered ?_ (fun _ => ?_)
    · exact hnodup.sublist (List.filter_sublist.map _)
    · obtain ⟨j, hj⟩ := List.mem_iff_getElem?.mp hpart
      have hjlt := (List.getElem?_eq_some_iff.mp hj).1
      have := mt (numParts_one_iff hcount).mpr hone
      change d.parts.filter (fun p => p.addr ≠ part.addr) ≠ []
      rw [filter_eq_eraseIdx hnodup hj, ← List.length_pos_iff, List.length_eraseIdx_of_lt hjlt]
      omega

/-! ## Every run -/

theorem step_right_iff {t : Table} (hs : Sound t) (op : Op) (hc : Called t op) :
    (∃ t', step t op = some t' ∧ Right t op t') ↔ Kept t op := by
  cases op with
  | add dev new => exact add_right_iff hs dev new hc
  | del dev part => exact del_right_iff hs dev part hc

theorem step_sound {t t' : Table} (hs : Sound t) (op : Op) (hc : Called t op)
    (hstep : step t op = some t') (hr : Right t op t') : Sound t' := by
  cases op with
  | add dev new => exact add_sound hs dev new hc hstep hr.ordered
  | del dev part => exact del_sound hs dev part hc hstep hr.ordered

theorem order_kept_iff (t : Table) (ops : List Op) (hs : Sound t) (hc : AllCalled t ops) :
    AllRight t ops ↔ AllKept t ops := by
  induction ops generalizing t with
  | nil => exact Iff.rfl
  | cons op ops ih =>
    constructor
    · rintro ⟨t', hstep, hr, hrest⟩
      refine ⟨(step_right_iff hs op hc.1).mp ⟨t', hstep, hr⟩, fun u hu => ?_⟩
      cases hstep.symm.trans hu
      exact (ih _ (step_sound hs op hc.1 hstep hr) (hc.2 _ hstep)).mp hrest
    · rintro ⟨hkept, hrest⟩
      obtain ⟨t', hstep, hr⟩ := (step_right_iff hs op hc.1).mpr hkept
      have hs' := step_sound hs op hc.1 hstep hr
      exact ⟨t', hstep, hr, (ih t' hs' (hc.2 t' hstep)).mpr (hrest t' hstep)⟩

def partAt (addr offset : ℕ) : Part := ⟨addr, ⟨[], true, 4096, offset, 0⟩⟩

/-- The second partition is the current one; the third begins at the same offset. -/
def threeParts : Table :=
  ⟨[⟨1, true, [partAt 2 0, partAt 3 4096, partAt 4 4096], 3⟩], some 1, 1⟩

theorem threeParts_sound : Sound threeParts := by
  constructor
  · decide
  · decide
  · intro d hd
    cases List.mem_singleton.mp hd
    exact ⟨by decide, by decide⟩
  · decide
  · decide

theorem order_kept_added : AllRight threeParts [.add 1 (partAt 5 4096), .del 1 (partAt 2 0)] := by
  refine (order_kept_iff threeParts _ threeParts_sound ?_).mpr ?_
  · refine ⟨⟨_, rfl, by decide⟩, fun t' h => ?_⟩
    cases h
    exact ⟨⟨_, rfl, by decide, by decide⟩, fun _ _ => trivial⟩
  · refine ⟨fun d hd => ?_, fun t' h => ?_⟩
    · cases hd
      exact Or.inr ⟨by decide, fun _ _ _ => by decide⟩
    · cases h
      refine ⟨fun d c hd hc _ => ?_, fun _ _ => trivial⟩
      cases hd
      decide

/-- When the third is deleted, the first becomes the current one. -/
theorem third_deleted : ¬∀ t ops, Sound t → AllCalled t ops → AllRight t ops := by
  intro h
  have hcalled : AllCalled threeParts [.del 1 (partAt 4 4096)] :=
    ⟨⟨_, rfl, by decide, by decide⟩, fun _ _ => trivial⟩
  obtain ⟨t', hstep, hr, -⟩ := h threeParts _ threeParts_sound hcalled
  cases hstep
  exact absurd (hr.same (partAt 3 4096) rfl (by unfold Op.deletes; decide)) (by decide)

end UBoot.PartOrder
