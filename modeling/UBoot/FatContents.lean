import UBoot.FatVolume
import UBoot.FilledBuffer
import UBoot.MachineInt
import Mathlib.Data.List.GetD

/-!
# Reading a file: `get_contents` of `fs/fat/fat.c`

The chain of clusters is followed to the position, the rest of that cluster is
copied, and from there on clusters that follow each other on the volume are read
in one piece.
-/

set_option autoImplicit false

namespace UBoot.Fat

open ByteStore FilledBuffer MachineInt

/-- The first number that `CHECK_CLUST` takes for no cluster. -/
def clustLimit : FatSize → ℕ
  | .fat32 => 0xffffff0
  | _ => 0xfff0

/-- `CHECK_CLUST` -/
def checkClust (x : ℕ) (fatsize : FatSize) : Bool := decide (x ≤ 1) || decide (clustLimit fatsize ≤ x)

inductive Found where
  | running
  | invalid
  | getit (actsize endclust : ℕ)
  | rest
  deriving DecidableEq, Repr

section Code

variable (v : Volume) (fatent : ℕ → ℕ)

/-- The way to the cluster at `pos`, in `fuel` rounds: `none` still runs, `some none` is an invalid
entry. -/
def seek (pos : ℕ) : ℕ → ℕ → ℕ → Option (Option (ℕ × ℕ))
  | 0, _, _ => none
  | fuel+1, actsize, curclust =>
    if actsize ≤ pos then
      let curclust := fatent curclust
      if checkClust curclust v.fatsize then some none
      else seek pos fuel ((actsize+v.bytesPerClust) % 2^32) curclust
    else some (some (actsize, curclust))

/-- The search for consecutive clusters. -/
def search (filesize : ℕ) : ℕ → ℕ → ℕ → Found
  | 0, _, _ => .running
  | fuel+1, actsize, endclust =>
    if actsize < filesize then
      let newclust := fatent endclust
      if (newclust+(2^32-1)) % 2^32 ≠ endclust then .getit actsize endclust
      else if checkClust newclust v.fatsize then .invalid
      else search filesize fuel ((actsize+v.bytesPerClust) % 2^32) newclust
    else .rest

/-- The loop that reads pieces, behind `gotsize` bytes of the buffer. -/
def copy (misaligned : ℕ → Bool) : ℕ → ℕ → ℕ → ℕ → Buffer → Option (ℤ × Buffer)
  | 0, _, _, _, _ => none
  | fuel+1, curclust, filesize, gotsize, out =>
    match search v fatent filesize fuel v.bytesPerClust curclust with
    | .running => none
    | .invalid => some (asInt gotsize, out)
    | .rest =>
      match v.getCluster (misaligned gotsize) curclust filesize with
      | none => some (-1, out)
      | some bytes => some (asInt (gotsize+filesize), put out gotsize bytes)
    | .getit actsize endclust =>
      match v.getCluster (misaligned gotsize) curclust actsize with
      | none => some (-1, out)
      | some bytes =>
        let curclust := fatent endclust
        if checkClust curclust v.fatsize then
          some (asInt (gotsize+actsize), put out gotsize bytes)
        else copy misaligned fuel curclust (filesize-actsize) (gotsize+actsize)
          (put out gotsize bytes)

/-- The bytes up to which is read, in numbers of 32 bits. -/
def clipSize (size pos maxsize : ℕ) : ℕ :=
  if maxsize > 0 ∧ size > (pos+maxsize) % 2^32 then (pos+maxsize) % 2^32 else size

/-- The clusters behind the first one, of which `actsize` bytes are in the buffer. -/
def behindFirst (misaligned : ℕ → Bool) (fuel curclust filesize actsize : ℕ) (out : Buffer) :
    Option (ℤ × Buffer) :=
  if filesize = 0 then some (asInt actsize, out)
  else if checkClust (fatent curclust) v.fatsize then some (asInt actsize, out)
  else copy v fatent misaligned fuel (fatent curclust) filesize actsize out

/-- The read with the first cluster, of which `actsize` bytes are read and the first `pos` left out. -/
def readFirst (misaligned : ℕ → Bool) (fuel curclust filesize pos actsize : ℕ) :
    Option (ℤ × Buffer) :=
  match v.getCluster false curclust actsize with
  | none => some (-1, fun _ => none)
  | some block =>
    behindFirst v fatent misaligned fuel curclust (filesize-actsize) (sub32 actsize pos)
      (put (fun _ => none) 0 ((block.drop pos).take (sub32 actsize pos)))

/-- The read from the cluster at the position on; `filesize` and `pos` count from its beginning. -/
def readFrom (misaligned : ℕ → Bool) (fuel curclust filesize pos : ℕ) : Option (ℤ × Buffer) :=
  if pos ≠ 0 then
    readFirst v fatent misaligned fuel curclust filesize pos (min filesize v.bytesPerClust)
  else copy v fatent misaligned fuel curclust filesize 0 (fun _ => none)

/-- `get_contents` of a file with a first cluster and a size: the result and the buffer, or `none`
where it still runs. -/
def getContents (misaligned : ℕ → Bool) (fuel start size pos maxsize : ℕ) :
    Option (ℤ × Buffer) :=
  if pos ≥ size then some (0, fun _ => none)
  else
    (seek v fatent pos fuel v.bytesPerClust start).bind fun
      | none => some (0, fun _ => none)
      | some (actsize, curclust) =>
        readFrom v fatent misaligned fuel curclust
          (sub32 (clipSize size pos maxsize) (actsize-v.bytesPerClust)) (pos-(actsize-v.bytesPerClust))

end Code

/-! ## Files -/

/-- The numbers of clusters end in front of these. -/
def clusterEnd : FatSize → ℕ
  | .fat12 => 0xff6
  | .fat16 => 0xfff6
  | .fat32 => 0xffffff6

/-- The cluster an entry names: 4 of its 32 bits are reserved. -/
def clusterOf (fatsize : FatSize) (entry : ℕ) : ℕ :=
  match fatsize with
  | .fat32 => entry % 2^28
  | _ => entry

/-- The first mark for the end of a chain. -/
def endMark : FatSize → ℕ
  | .fat12 => 0xff8
  | .fat16 => 0xfff8
  | .fat32 => 0xffffff8

/-- A cluster of the volume. -/
structure IsCluster (v : Volume) (c : ℕ) : Prop where
  two_le : 2 ≤ c
  lt : c < clusterEnd v.fatsize
  entry : v.HasEntry c
  begin : 0 ≤ v.dataBegin+c*v.clustSize
  inside : v.dataBegin+c*v.clustSize+v.clustSize ≤ v.sectors

/-- A file with a chain of clusters that is long enough for its size. -/
structure File (v : Volume) where
  size : ℕ
  size_lt : size < 2^32
  clusters : List ℕ
  isCluster : ∀ c ∈ clusters, IsCluster v c
  linked : clusters.IsChain fun c d => clusterOf v.fatsize (v.fatEntry c) = d
  ended : ∀ c ∈ clusters.getLast?, endMark v.fatsize ≤ clusterOf v.fatsize (v.fatEntry c)
  enough : size ≤ clusters.length*v.bytesPerClust

namespace File

variable {v : Volume} (F : File v)

def cluster (i : ℕ) : ℕ := F.clusters.getD i 0

/-- A byte of the file. -/
def byteAt (k : ℕ) : UInt8 :=
  v.bytes ((v.dataBegin+F.cluster (k/v.bytesPerClust)*v.clustSize).toNat*v.sectSize+
    k % v.bytesPerClust)

/-- The number of bytes to read; `maxsize` 0 is no limit. -/
def count (pos maxsize : ℕ) : ℕ :=
  if maxsize = 0 then F.size-pos else min (F.size-pos) maxsize

/-- Every call of `get_fatent` finds a buffer of its own. -/
def Gets (v : Volume) (fatent : ℕ → ℕ) : Prop :=
  ∀ n, ∃ fatbuf, v.fatStore.Valid fatbuf ∧ fatent n = (v.getFatent fatbuf n).1

/-- The read ends with the count, and the buffer gets the bytes of the file from `pos` on. -/
def Right (fatent : ℕ → ℕ) (misaligned : ℕ → Bool) (pos maxsize : ℕ) : Prop :=
  ∃ fuel out, getContents v fatent misaligned fuel (F.cluster 0) F.size pos maxsize =
      some ((F.count pos maxsize : ℤ), out) ∧
    Filled (fun k => F.byteAt (pos+k)) out (F.count pos maxsize)

/-! ## The chain -/

theorem bytesPerClust_le (v : Volume) : v.bytesPerClust ≤ 2^16 := by
  rw [Volume.bytesPerClust, Volume.clustSize, v.sectSize_pow, ← pow_add]
  exact Nat.pow_le_pow_right (by decide) (by have := v.clust_le; omega)

theorem bytesPerClust_pos (v : Volume) : 0 < v.bytesPerClust :=
  Nat.mul_pos (Nat.two_pow_pos _) v.sectSize_pos

theorem bytesPerClust_dvd (v : Volume) : v.bytesPerClust ∣ 2^32 := by
  rw [Volume.bytesPerClust, Volume.clustSize, v.sectSize_pow, ← pow_add]
  exact pow_dvd_pow 2 (by have := v.clust_le; omega)

theorem cluster_mem {i : ℕ} (h : i < F.clusters.length) : F.cluster i ∈ F.clusters := by
  rw [cluster, List.getD_eq_getElem _ _ h]
  exact List.getElem_mem h

theorem cluster_linked {i : ℕ} (h : i+1 < F.clusters.length) :
    clusterOf v.fatsize (v.fatEntry (F.cluster i)) = F.cluster (i+1) := by
  have hlink := List.isChain_iff_getElem.1 F.linked i h
  rw [cluster, cluster, List.getD_eq_getElem _ _ h, List.getD_eq_getElem _ _ (by omega)]
  exact hlink

/-- The entry of cluster `i` is taken for a cluster. -/
def Taken (i : ℕ) : Prop := checkClust (v.fatEntry (F.cluster i)) v.fatsize = false

theorem checkClust_false {x : ℕ} {fatsize : FatSize} (h : checkClust x fatsize = false) :
    2 ≤ x ∧ x < clustLimit fatsize := by
  unfold checkClust at h
  rw [Bool.or_eq_false_iff, decide_eq_false_iff_not, decide_eq_false_iff_not] at h
  omega

/-- Then it is the next cluster, without anything in its reserved bits. -/
theorem Taken.entry {F : File v} {i : ℕ} (h : F.Taken i) (hi : i+1 < F.clusters.length) :
    v.fatEntry (F.cluster i) = F.cluster (i+1) := by
  rw [← F.cluster_linked hi]
  have hlt := (checkClust_false h).2
  unfold clusterOf
  cases hsize : v.fatsize with
  | fat12 => rfl
  | fat16 => rfl
  | fat32 =>
    rw [hsize] at hlt
    rw [Nat.mod_eq_of_lt (hlt.trans_le (by decide))]

theorem index_lt {k : ℕ} (h : k < F.size) : k/v.bytesPerClust < F.clusters.length :=
  Nat.div_lt_of_lt_mul (by rw [Nat.mul_comm]; exact h.trans_le F.enough)

theorem entry_got {F : File v} {fatent : ℕ → ℕ} (hgets : Gets v fatent) {i : ℕ}
    (hi : i < F.clusters.length) : fatent (F.cluster i) = v.fatEntry (F.cluster i) := by
  obtain ⟨fatbuf, hvalid, hgot⟩ := hgets (F.cluster i)
  exact hgot.trans (v.getFatent_eq hvalid (F.isCluster _ (F.cluster_mem hi)).entry)

theorem Taken.got {F : File v} {fatent : ℕ → ℕ} (hgets : Gets v fatent) {i : ℕ} (h : F.Taken i)
    (hi : i+1 < F.clusters.length) : fatent (F.cluster i) = F.cluster (i+1) :=
  (entry_got hgets (by omega)).trans (h.entry hi)

theorem Taken.next {F : File v} {i : ℕ} (h : F.Taken i) (hi : i+1 < F.clusters.length) :
    checkClust (F.cluster (i+1)) v.fatsize = false := h.entry hi ▸ h

theorem untaken_check {F : File v} {fatent : ℕ → ℕ} (hgets : Gets v fatent) {i : ℕ}
    (h : ¬F.Taken i) (hi : i < F.clusters.length) :
    checkClust (fatent (F.cluster i)) v.fatsize = true := by
  rw [entry_got hgets hi]
  exact Bool.of_not_eq_false h

/-! ## The way to the position -/

section Seek

variable {F} {fatent : ℕ → ℕ} {pos : ℕ}

/-- Where the entries in front of the position are taken, the cluster of the position is found. -/
theorem seek_eq (hgets : Gets v fatent) (hpos : pos < F.size) (hlt : pos+v.bytesPerClust < 2^32) (fuel i : ℕ)
    (hi : i ≤ pos/v.bytesPerClust) (htaken : ∀ t, i ≤ t → t < pos/v.bytesPerClust → F.Taken t) :
    seek v fatent pos fuel ((i+1)*v.bytesPerClust) (F.cluster i) =
      if pos/v.bytesPerClust-i < fuel then some (some ((pos/v.bytesPerClust+1)*v.bytesPerClust,
        F.cluster (pos/v.bytesPerClust))) else none := by
  have hb := bytesPerClust_pos v
  have hindex := F.index_lt hpos
  have hdiv := Nat.div_mul_le_self pos v.bytesPerClust
  have hnext := Nat.lt_div_mul_add hb (a := pos)
  induction fuel generalizing i with
  | zero => rfl
  | succ fuel ih =>
    rw [seek]
    by_cases hend : i = pos/v.bytesPerClust
    · rw [if_neg, hend, Nat.sub_self, if_pos (Nat.succ_pos fuel)]
      rw [hend, Nat.succ_mul]
      omega
    · have hmul : (i+1)*v.bytesPerClust ≤ pos/v.bytesPerClust*v.bytesPerClust :=
        Nat.mul_le_mul_right _ (by omega)
      have ht := htaken i le_rfl (by omega)
      rw [if_pos (by omega)]
      dsimp only
      rw [ht.got hgets (by omega), ht.next (by omega), if_neg (by decide), ← Nat.succ_mul,
        Nat.mod_eq_of_lt (by rw [Nat.succ_mul]; omega),
        ih (i+1) (by omega) fun t h1 h2 => htaken t (by omega) h2]
      simp only [show pos/v.bytesPerClust-(i+1) < fuel ↔ pos/v.bytesPerClust-i < fuel+1 by omega]

/-- Where one is not, the read ends with nothing. -/
theorem seek_invalid (hgets : Gets v fatent) (hpos : pos < F.size) (hlt : pos+v.bytesPerClust < 2^32) (fuel i m : ℕ)
    (him : i ≤ m) (hm : m < pos/v.bytesPerClust) (htaken : ∀ t, i ≤ t → t < m → F.Taken t)
    (hnot : ¬F.Taken m) {r : Option (ℕ × ℕ)}
    (h : seek v fatent pos fuel ((i+1)*v.bytesPerClust) (F.cluster i) = some r) :
    r = none := by
  have hb := bytesPerClust_pos v
  have hindex := F.index_lt hpos
  have hdiv := Nat.div_mul_le_self pos v.bytesPerClust
  induction fuel generalizing i with
  | zero => cases h
  | succ fuel ih =>
    have hmul : (i+1)*v.bytesPerClust ≤ pos/v.bytesPerClust*v.bytesPerClust :=
      Nat.mul_le_mul_right _ (by omega)
    rw [seek, if_pos (by omega)] at h
    dsimp only at h
    by_cases hend : i = m
    · subst hend
      rw [untaken_check hgets hnot (by omega), if_pos rfl] at h
      exact (Option.some.inj h).symm
    · have ht := htaken i le_rfl (by omega)
      rw [ht.got hgets (by omega), ht.next (by omega), if_neg (by decide), ← Nat.succ_mul,
        Nat.mod_eq_of_lt (by rw [Nat.succ_mul]; omega)] at h
      exact ih (i+1) (by omega) (fun t h1 h2 => htaken t (by omega) h2) h

/-- In the last cluster below 2^32 the search does not come to an end, or with nothing. -/
theorem seek_high (hhigh : 2^32 ≤ pos+v.bytesPerClust)
    (fuel : ℕ) {actsize curclust : ℕ} (hact : v.bytesPerClust ∣ actsize) (hlt : actsize < 2^32) {r : Option (ℕ × ℕ)}
    (h : seek v fatent pos fuel actsize curclust = some r) : r = none := by
  obtain ⟨k, hk⟩ := bytesPerClust_dvd v
  have hle : ∀ a, v.bytesPerClust ∣ a → a < 2^32 → a ≤ pos := by
    rintro _ ⟨a, rfl⟩ hlt
    have hak : a < k := Nat.lt_of_mul_lt_mul_left (a := v.bytesPerClust) (by omega)
    have hmul := Nat.mul_le_mul_left v.bytesPerClust (show a+1 ≤ k from hak)
    rw [Nat.mul_succ] at hmul
    omega
  induction fuel generalizing actsize curclust with
  | zero => cases h
  | succ fuel ih =>
    rw [seek, if_pos (hle actsize hact hlt)] at h
    dsimp only at h
    split at h
    · exact (Option.some.inj h).symm
    · exact ih ((Nat.dvd_mod_iff (bytesPerClust_dvd v)).2 (hact.add (dvd_refl _)))
        (Nat.mod_lt _ (by decide)) h

end Seek

/-! ## Pieces -/

/-- The clusters from `i` to `e` follow each other on the volume. -/
def Run (i e : ℕ) : Prop := ∀ t, i ≤ t → t < e → F.cluster (t+1) = F.cluster t+1

section Search

variable {F} {fatent : ℕ → ℕ} {i e m : ℕ}

theorem wrap_pred {x y : ℕ} (hx : 2 ≤ x) (hlt : x < 2^32) : (x+(2^32-1)) % 2^32 = y ↔ x = y+1 := by
  rw [show x+(2^32-1) = x-1+2^32 by omega, Nat.add_mod_right, Nat.mod_eq_of_lt (by omega)]
  omega

theorem clustLimit_lt (fatsize : FatSize) : clustLimit fatsize < 2^32 := by
  cases fatsize <;> decide

/-- The search runs to `m`, or it stops at a cluster in front of it. -/
theorem search_cases (hgets : Gets v fatent) (filesize : ℕ) (hie : i ≤ e) (hem : e ≤ m) (fuel : ℕ) (hwrap : filesize+v.bytesPerClust < 2^32)
    (htaken : ∀ t, e ≤ t → t < m → F.Taken t ∧ t+1 < F.clusters.length ∧
      (t+1-i)*v.bytesPerClust < filesize) (hrun : F.Run i e) :
    (fuel ≤ m-e ∧
        search v fatent filesize fuel ((e+1-i)*v.bytesPerClust) (F.cluster e) = .running) ∨
      (∃ e', e ≤ e' ∧ e' < m ∧ F.Run i e' ∧
        search v fatent filesize fuel ((e+1-i)*v.bytesPerClust) (F.cluster e) =
          .getit ((e'+1-i)*v.bytesPerClust) (F.cluster e')) ∨
      F.Run i m ∧ m-e < fuel ∧
        search v fatent filesize fuel ((e+1-i)*v.bytesPerClust) (F.cluster e) =
          search v fatent filesize (fuel-(m-e)) ((m+1-i)*v.bytesPerClust) (F.cluster m) := by
  induction fuel generalizing e with
  | zero => exact .inl ⟨Nat.zero_le _, rfl⟩
  | succ fuel ih =>
    by_cases hend : e = m
    · subst hend
      exact .inr (.inr ⟨hrun, by omega, by rw [Nat.sub_self, Nat.sub_zero]⟩)
    obtain ⟨ht, hlen, hlt⟩ := htaken e le_rfl (by omega)
    have hrange := checkClust_false (ht.next hlen)
    have hlimit := clustLimit_lt v.fatsize
    rw [search, if_pos hlt]
    dsimp only
    rw [ht.got hgets hlen]
    by_cases hnext : F.cluster (e+1) = F.cluster e+1
    · rw [if_neg (not_not.2 ((wrap_pred hrange.1 (by omega)).2 hnext)), ht.next hlen, if_neg (by decide),
        Nat.mod_eq_of_lt (by omega), ← Nat.succ_mul, show (e+1-i).succ = e+1+1-i by omega,
        show fuel+1-(m-e) = fuel-(m-(e+1)) by omega]
      have hrun' : F.Run i (e+1) := fun t h1 h2 => by
        rcases Nat.lt_succ_iff_lt_or_eq.1 h2 with h | rfl
        · exact hrun t h1 h
        · exact hnext
      rcases ih (by omega) (by omega) (fun t h1 h2 => htaken t (by omega) h2) hrun' with
        ⟨hfuel, hs⟩ | ⟨e', h1, h2, hr, hs⟩ | ⟨hr, hfuel, hs⟩
      · exact .inl ⟨by omega, hs⟩
      · exact .inr (.inl ⟨e', by omega, h2, hr, hs⟩)
      · exact .inr (.inr ⟨hr, by omega, hs⟩)
    · rw [if_pos (fun h => hnext ((wrap_pred hrange.1 (by omega)).1 h))]
      exact .inr (.inl ⟨e, le_rfl, by omega, hrun, rfl⟩)

end Search

/-! ## The bytes of a piece -/

/-- The sector of cluster `i`. -/
def sectorAt (i : ℕ) : ℕ := (v.dataBegin+F.cluster i*v.clustSize).toNat

theorem startSect_eq {i : ℕ} (h : i < F.clusters.length) :
    v.startSect (F.cluster i) = F.sectorAt i := by
  obtain ⟨h2, -, -, hbegin, hin⟩ := F.isCluster _ (F.cluster_mem h)
  have hlt := v.sectors_lt
  have hsize : 0 < v.clustSize := Nat.two_pow_pos _
  rw [Volume.startSect, if_pos (by omega), Int.emod_eq_of_lt hbegin (by push_cast; omega), sectorAt]

theorem sectorAt_inside {i : ℕ} (h : i < F.clusters.length) :
    F.sectorAt i+v.clustSize ≤ v.sectors := by
  obtain ⟨-, -, -, hbegin, hin⟩ := F.isCluster _ (F.cluster_mem h)
  unfold sectorAt
  omega

theorem sectorAt_run {i e t : ℕ} (hrun : F.Run i e) (he : e < F.clusters.length) (hit : i ≤ t)
    (hte : t ≤ e) : F.sectorAt t = F.sectorAt i+(t-i)*v.clustSize := by
  obtain ⟨-, -, -, hbegin, -⟩ := F.isCluster _ (F.cluster_mem (show i < F.clusters.length by omega))
  have hcluster : F.cluster t = F.cluster i+(t-i) := by
    induction t, hit using Nat.le_induction with
    | base => rw [Nat.sub_self, Nat.add_zero]
    | succ t hit ih =>
      rw [hrun t hit (by omega), ih (by omega)]
      omega
  unfold sectorAt
  rw [hcluster, Nat.cast_add, add_mul, ← add_assoc, Int.toNat_add hbegin (by positivity)]
  congr 1

/-- The bytes of the file in the places of the buffer. -/
def bytesFrom (pos : ℕ) : Memory := fun k => F.byteAt (pos+k)

/-- In a run of clusters the bytes of the file stand in a row. -/
theorem bytesFrom_run (skip : ℕ) {pos i e k size : ℕ} (hrun : F.Run i e) (he : e < F.clusters.length)
    (hk : pos+k = i*v.bytesPerClust+skip) (hsize : skip+size ≤ (e+1-i)*v.bytesPerClust) :
    load (F.bytesFrom pos) k size = load v.bytes (F.sectorAt i*v.sectSize+skip) size := by
  refine load_eq_of _ _ _ _ _ fun j hj => ?_
  have hb := bytesPerClust_pos v
  have hat : pos+(k+j) = i*v.bytesPerClust+(skip+j) := by omega
  have hdiv : (skip+j)/v.bytesPerClust < e+1-i :=
    Nat.div_lt_of_lt_mul (by rw [Nat.mul_comm]; omega)
  have hmod := Nat.div_add_mod' (skip+j) v.bytesPerClust
  rw [bytesFrom, byteAt, hat, Nat.mul_comm i, Nat.mul_add_div hb, Nat.mul_add_mod, ← sectorAt]
  generalize (skip+j)/v.bytesPerClust = q at hdiv hmod ⊢
  rw [F.sectorAt_run hrun he (t := i+q) (by omega) (by omega), Nat.add_sub_cancel_left,
    Nat.add_mul, Nat.mul_assoc, ← Volume.bytesPerClust]
  congr 1
  omega

theorem getCluster_run {i e : ℕ} (misaligned : Bool) (size : ℕ) (hrun : F.Run i e)
    (he : e < F.clusters.length) (hie : i ≤ e) (hsize : size ≤ (e+1-i)*v.bytesPerClust) :
    v.getCluster misaligned (F.cluster i) size =
      some (load v.bytes (F.sectorAt i*v.sectSize) size) := by
  have hi : i < F.clusters.length := by omega
  have hstart := F.startSect_eq hi
  have hlast := F.sectorAt_inside he
  rw [F.sectorAt_run hrun he hie le_rfl] at hlast
  rw [← hstart]
  refine v.getCluster_eq misaligned (n := (e+1-i)*v.clustSize) ?_ ?_
  · rw [Nat.mul_assoc]
    exact hsize
  · rw [hstart, Nat.succ_sub hie, Nat.succ_mul]
    omega

/-! ## The loop that reads the pieces -/

section Copy

variable {F} {fatent : ℕ → ℕ} {pos W : ℕ}

/-- The last cluster of the bytes up to `W`. -/
def lastIndex (v : Volume) (W : ℕ) : ℕ := (W-1)/v.bytesPerClust

theorem mul_lt_of_le_last {i : ℕ} (hW : 0 < W) (hi : i ≤ lastIndex v W) :
    i*v.bytesPerClust < W := by
  have h := (Nat.le_div_iff_mul_le (bytesPerClust_pos v)).1 hi
  omega

theorem le_last_mul (hW : 0 < W) : W ≤ (lastIndex v W+1)*v.bytesPerClust := by
  have h := Nat.lt_div_mul_add (bytesPerClust_pos v) (a := W-1)
  rw [Nat.succ_mul, lastIndex]
  omega

theorem last_lt (hpos : pos < W) (hW : W ≤ F.size) : lastIndex v W < F.clusters.length :=
  F.index_lt (by omega)

/-- The entries from `i` to the last cluster in the form that the search asks for. -/
theorem taken_search (hpos : pos < W) (hW : W ≤ F.size) {i m : ℕ} (hm : m ≤ lastIndex v W)
    (htaken : ∀ t, i ≤ t → t < m → F.Taken t) (t : ℕ) (hit : i ≤ t) (htm : t < m) :
    F.Taken t ∧ t+1 < F.clusters.length ∧ (t+1-i)*v.bytesPerClust < W-i*v.bytesPerClust := by
  have hlast := F.last_lt hpos hW
  have hmul := mul_lt_of_le_last (v := v) (W := W) (i := t+1) (by omega) (by omega)
  refine ⟨htaken t hit htm, by omega, ?_⟩
  rw [Nat.sub_mul]
  have hle : i*v.bytesPerClust ≤ (t+1)*v.bytesPerClust := Nat.mul_le_mul_right _ (by omega)
  omega

/-- Where the entries up to the last cluster are taken, the rest of the bytes is read. -/
theorem copy_filled (hgets : Gets v fatent) (misaligned : ℕ → Bool) (hW : W ≤ F.size) (hpos : pos < W)
    (hlen : W-pos+v.bytesPerClust < 2^32) (fuel : ℕ) {i : ℕ} {out : Buffer}
    (hfuel : lastIndex v W-i+3 ≤ fuel) (hi : i ≤ lastIndex v W) (hposi : pos ≤ i*v.bytesPerClust)
    (htaken : ∀ t, i ≤ t → t < lastIndex v W → F.Taken t)
    (hout : Filled (F.bytesFrom pos) out (i*v.bytesPerClust-pos)) :
    ∃ out', copy v fatent misaligned fuel (F.cluster i) (W-i*v.bytesPerClust)
        (i*v.bytesPerClust-pos) out = some (asInt (W-pos : ℕ), out') ∧
      Filled (F.bytesFrom pos) out' (W-pos) := by
  induction fuel generalizing i out with
  | zero => omega
  | succ fuel ih =>
    have hlast := F.last_lt hpos hW
    have hmul := mul_lt_of_le_last (v := v) (by omega) hi
    have hend := le_last_mul (v := v) (W := W) (by omega)
    have hself : F.Run i i := fun t h1 h2 => absurd h1 (by omega)
    have hone : (i+1-i)*v.bytesPerClust = v.bytesPerClust := by rw [Nat.add_sub_cancel_left, one_mul]
    have hcases := search_cases (F := F) hgets (W-i*v.bytesPerClust) le_rfl hi fuel (by omega)
      (taken_search hpos hW le_rfl htaken) hself
    rw [hone] at hcases
    rw [copy]
    rcases hcases with ⟨hshort, -⟩ | ⟨e, hie, hem, hrun, hs⟩ | ⟨hrun, hmore, hs⟩
    · omega
    · -- the piece ends in front of a cluster that does not follow
      have he := mul_lt_of_le_last (v := v) (W := W) (i := e+1) (by omega) (by omega)
      have hle : i*v.bytesPerClust ≤ (e+1)*v.bytesPerClust := Nat.mul_le_mul_right _ (by omega)
      have hsub : (e+1-i)*v.bytesPerClust = (e+1)*v.bytesPerClust-i*v.bytesPerClust := Nat.sub_mul _ _ _
      have ht := htaken e hie hem
      have hput := hout.put ((e+1-i)*v.bytesPerClust)
      rw [F.bytesFrom_run 0 hrun (by omega) (by omega) (by omega), Nat.add_zero,
        show i*v.bytesPerClust-pos+(e+1-i)*v.bytesPerClust = (e+1)*v.bytesPerClust-pos by omega]
        at hput
      rw [hs]
      dsimp only
      rw [F.getCluster_run _ _ hrun (by omega) hie le_rfl]
      dsimp only
      rw [ht.got hgets (by omega), ht.next (by omega), if_neg (by decide),
        show W-i*v.bytesPerClust-(e+1-i)*v.bytesPerClust = W-(e+1)*v.bytesPerClust by omega,
        show i*v.bytesPerClust-pos+(e+1-i)*v.bytesPerClust = (e+1)*v.bytesPerClust-pos by omega]
      exact ih (by omega) (by omega) (by omega) (fun t h1 h2 => htaken t (by omega) h2) hput
    · -- the piece goes up to the last cluster
      obtain ⟨r, hr⟩ := Nat.exists_eq_add_of_lt hmore
      rw [show fuel-(lastIndex v W-i) = r+1 by omega, search, if_neg] at hs
      swap
      · rw [Nat.sub_mul]
        omega
      have hput := hout.put (W-i*v.bytesPerClust)
      have hsize : W-i*v.bytesPerClust ≤ (lastIndex v W+1-i)*v.bytesPerClust := by
        rw [Nat.sub_mul]
        omega
      rw [F.bytesFrom_run 0 hrun hlast (by omega) (by omega), Nat.add_zero,
        show i*v.bytesPerClust-pos+(W-i*v.bytesPerClust) = W-pos by omega] at hput
      rw [hs]
      dsimp only
      rw [F.getCluster_run _ _ hrun hlast hi hsize]
      dsimp only
      rw [← Nat.cast_add, show i*v.bytesPerClust-pos+(W-i*v.bytesPerClust) = W-pos by omega]
      exact ⟨_, rfl, hput⟩

/-- Where one is not, the read ends with fewer bytes. -/
theorem copy_short (hgets : Gets v fatent) (misaligned : ℕ → Bool) (hW : W ≤ F.size) (hpos : pos < W)
    (hint : W-pos < 2^31) (fuel : ℕ) {i m : ℕ} {out : Buffer} (him : i ≤ m)
    (hm : m < lastIndex v W) (hposi : pos ≤ i*v.bytesPerClust)
    (htaken : ∀ t, i ≤ t → t < m → F.Taken t) (hnot : ¬F.Taken m) {val : ℤ} {out' : Buffer}
    (h : copy v fatent misaligned fuel (F.cluster i) (W-i*v.bytesPerClust)
      (i*v.bytesPerClust-pos) out = some (val, out')) : val < (W-pos : ℕ) := by
  have hlast := F.last_lt hpos hW
  have hle16 := bytesPerClust_le v
  have hfew : ∀ k, k < W-pos → asInt k < (W-pos : ℕ) := fun k hk => by
    rw [asInt_of_lt (by positivity) (by exact_mod_cast hk.trans hint)]
    exact_mod_cast hk
  induction fuel generalizing i out with
  | zero => cases h
  | succ fuel ih =>
    have hmul := mul_lt_of_le_last (v := v) (W := W) (i := m+1) (by omega) (by omega)
    have hle : i*v.bytesPerClust ≤ (m+1)*v.bytesPerClust := Nat.mul_le_mul_right _ (by omega)
    have hself : F.Run i i := fun t h1 h2 => absurd h1 (by omega)
    have hone : (i+1-i)*v.bytesPerClust = v.bytesPerClust := by rw [Nat.add_sub_cancel_left, one_mul]
    have hcases := search_cases (F := F) hgets (W-i*v.bytesPerClust) le_rfl him fuel (by omega)
      (taken_search hpos hW hm.le htaken) hself
    rw [hone] at hcases
    rw [copy] at h
    rcases hcases with ⟨-, hs⟩ | ⟨e, hie, hem, hrun, hs⟩ | ⟨hrun, hmore, hs⟩
    · rw [hs] at h
      cases h
    · have hsub : (e+1-i)*v.bytesPerClust = (e+1)*v.bytesPerClust-i*v.bytesPerClust := Nat.sub_mul _ _ _
      have hle' : i*v.bytesPerClust ≤ (e+1)*v.bytesPerClust := Nat.mul_le_mul_right _ (by omega)
      have ht := htaken e hie hem
      rw [hs] at h
      dsimp only at h
      rw [F.getCluster_run _ _ hrun (by omega) hie le_rfl] at h
      dsimp only at h
      rw [ht.got hgets (by omega), ht.next (by omega), if_neg (by decide),
        show W-i*v.bytesPerClust-(e+1-i)*v.bytesPerClust = W-(e+1)*v.bytesPerClust by omega,
        show i*v.bytesPerClust-pos+(e+1-i)*v.bytesPerClust = (e+1)*v.bytesPerClust-pos by omega] at h
      exact ih (by omega) (by omega) (fun t h1 h2 => htaken t (by omega) h2) h
    · have hcheck : checkClust (fatent (F.cluster m)) v.fatsize = true :=
        untaken_check hgets hnot (by omega)
      have hsub : (m+1-i)*v.bytesPerClust = (m+1)*v.bytesPerClust-i*v.bytesPerClust := Nat.sub_mul _ _ _
      obtain ⟨r, hr⟩ := Nat.exists_eq_add_of_lt hmore
      rw [show fuel-(m-i) = r+1 by omega, search, if_pos (by omega)] at hs
      dsimp only at hs
      rw [hcheck, if_pos rfl] at hs
      split at hs
      · rw [hs] at h
        dsimp only at h
        rw [F.getCluster_run _ _ hrun (by omega) him le_rfl] at h
        dsimp only at h
        rw [hcheck, if_pos rfl, ← Nat.cast_add] at h
        obtain ⟨rfl, -⟩ := Prod.ext_iff.1 (Option.some.inj h)
        exact hfew _ (by omega)
      · rw [hs] at h
        obtain ⟨rfl, -⟩ := Prod.ext_iff.1 (Option.some.inj h)
        exact hfew _ (by omega)

end Copy

/-! ## The read -/

/-- The end of the bytes does not overflow, or that makes no difference. -/
def EndFits (pos maxsize : ℕ) : Prop :=
  maxsize = 0 ∨ pos+maxsize < 2^32 ∨ F.size ≤ (pos+maxsize) % 2^32

theorem clipSize_eq {pos maxsize : ℕ} (hpos : pos < F.size) (h : F.EndFits pos maxsize) :
    clipSize F.size pos maxsize = pos+F.count pos maxsize := by
  unfold clipSize count
  rcases h with rfl | h | h
  · rw [if_neg (by omega), if_pos rfl]
    omega
  · rw [Nat.mod_eq_of_lt h]
    split_ifs <;> omega
  · have hle := Nat.mod_le (pos+maxsize) (2^32)
    rw [if_neg (by omega)]
    split_ifs <;> omega

theorem count_pos {pos : ℕ} (maxsize : ℕ) (hpos : pos < F.size) : 0 < F.count pos maxsize := by
  unfold count
  split_ifs <;> omega

theorem count_le (pos maxsize : ℕ) : F.count pos maxsize ≤ F.size-pos := by
  unfold count
  split_ifs <;> omega

section Read

variable {F} {fatent : ℕ → ℕ} {pos : ℕ} (misaligned : ℕ → Bool)

/-- What the buffer has of the cluster at the position. -/
def firstPart (F : File v) (pos W : ℕ) : Buffer :=
  put (fun _ => none) 0
    (load (F.bytesFrom pos) 0 (min W ((pos/v.bytesPerClust+1)*v.bytesPerClust)-pos))

theorem firstPart_filled (F : File v) (pos W : ℕ) : Filled (F.bytesFrom pos) (F.firstPart pos W)
    (min W ((pos/v.bytesPerClust+1)*v.bytesPerClust)-pos) := by
  have h := (filled_empty (F.bytesFrom pos)).put
    (min W ((pos/v.bytesPerClust+1)*v.bytesPerClust)-pos)
  rwa [Nat.zero_add] at h

/-- The read of the rest of the cluster at the position. -/
theorem readFirst_eq {j W : ℕ} (fuel : ℕ) (hj : j < F.clusters.length)
    (hle : j*v.bytesPerClust ≤ pos) (hlt : pos < (j+1)*v.bytesPerClust) (hpos : pos < W)
    (hW : W < 2^32) (hnext : (j+1)*v.bytesPerClust < 2^32) :
    readFirst v fatent misaligned fuel (F.cluster j) (W-j*v.bytesPerClust)
        (pos-j*v.bytesPerClust) (min (W-j*v.bytesPerClust) v.bytesPerClust) =
      behindFirst v fatent misaligned fuel (F.cluster j) (W-(j+1)*v.bytesPerClust)
        (min W ((j+1)*v.bytesPerClust)-pos) (F.firstPart pos W) := by
  have hself : F.Run j j := fun t h1 h2 => absurd h1 (by omega)
  have hone : (j+1-j)*v.bytesPerClust = v.bytesPerClust := by rw [Nat.add_sub_cancel_left, one_mul]
  have hmul : (j+1)*v.bytesPerClust = j*v.bytesPerClust+v.bytesPerClust := Nat.succ_mul _ _
  have hindex : pos/v.bytesPerClust = j := Nat.div_eq_of_lt_le hle hlt
  have hread := F.getCluster_run false (min (W-j*v.bytesPerClust) v.bytesPerClust) hself hj
    le_rfl (by omega)
  unfold readFirst
  rw [hread, sub32_eq (by omega) (by omega)]
  dsimp only
  have hrest : W-j*v.bytesPerClust-min (W-j*v.bytesPerClust) v.bytesPerClust =
      W-(j+1)*v.bytesPerClust := by omega
  have hgot : min (W-j*v.bytesPerClust) v.bytesPerClust-(pos-j*v.bytesPerClust) =
      min W ((j+1)*v.bytesPerClust)-pos := by omega
  have hbytes : load (F.bytesFrom pos) 0 (min W ((j+1)*v.bytesPerClust)-pos) =
      load v.bytes (F.sectorAt j*v.sectSize+(pos-j*v.bytesPerClust))
        (min W ((j+1)*v.bytesPerClust)-pos) :=
    F.bytesFrom_run _ hself hj (by omega) (by omega)
  have hdrop := load_drop v.bytes (F.sectorAt j*v.sectSize)
    (show pos-j*v.bytesPerClust ≤ min (W-j*v.bytesPerClust) v.bytesPerClust by omega)
  rw [hgot] at hdrop
  rw [hrest, hgot, ← hdrop, List.take_of_length_le (length_load _ _ _).le, firstPart, hindex, hbytes]

/-- The read from the cluster at the position on. -/
theorem getContents_found (hgets : Gets v fatent) {maxsize : ℕ} (hpos : pos < F.size) (hends : F.EndFits pos maxsize)
    (hlt : pos+v.bytesPerClust < 2^32)
    (htaken : ∀ t, t < pos/v.bytesPerClust → F.Taken t) {W : ℕ} (hW : W = pos+F.count pos maxsize)
    (fuel : ℕ) (hfuel : pos/v.bytesPerClust < fuel) :
    getContents v fatent misaligned fuel (F.cluster 0) F.size pos maxsize =
      if pos % v.bytesPerClust ≠ 0 then
        behindFirst v fatent misaligned fuel (F.cluster (pos/v.bytesPerClust))
          (W-(pos/v.bytesPerClust+1)*v.bytesPerClust)
          (min W ((pos/v.bytesPerClust+1)*v.bytesPerClust)-pos) (F.firstPart pos W)
      else copy v fatent misaligned fuel (F.cluster (pos/v.bytesPerClust))
        (W-pos/v.bytesPerClust*v.bytesPerClust) 0 (fun _ => none) := by
  have hindex := F.index_lt hpos
  have hdiv := Nat.div_add_mod' pos v.bytesPerClust
  have hmod := Nat.mod_lt pos (bytesPerClust_pos v)
  have hcount := F.count_pos maxsize hpos
  have hle := F.count_le pos maxsize
  have hsize := F.size_lt
  have hclip : clipSize F.size pos maxsize = W := (F.clipSize_eq hpos hends).trans hW.symm
  have hseek := seek_eq hgets hpos hlt fuel 0 (Nat.zero_le _) fun t _ h2 => htaken t h2
  rw [Nat.sub_zero, if_pos hfuel, Nat.zero_add, one_mul] at hseek
  have hnext : (pos/v.bytesPerClust+1)*v.bytesPerClust =
      pos/v.bytesPerClust*v.bytesPerClust+v.bytesPerClust := Nat.succ_mul _ _
  have hrel : pos-pos/v.bytesPerClust*v.bytesPerClust = pos % v.bytesPerClust := by omega
  have hfirst := @readFirst_eq v F fatent pos misaligned _ W fuel hindex (by omega)
    (by omega) (by omega) (by omega) (by omega)
  rw [hrel] at hfirst
  unfold getContents
  rw [if_neg (by omega), hclip, hseek, Option.bind_some]
  dsimp only
  rw [hnext, Nat.add_sub_cancel, sub32_eq (by omega) (by omega), hrel, readFrom, hfirst, ← hnext]


/-- Where the bytes are read: the position is behind the file, or the entries in front of the last
cluster are taken, and neither the end nor the count overflows. -/
def Reads (F : File v) (pos maxsize : ℕ) : Prop :=
  F.size ≤ pos ∨ F.EndFits pos maxsize ∧ F.count pos maxsize < 2^31 ∧
    pos+v.bytesPerClust < 2^32 ∧ ∀ t, t < lastIndex v (pos+F.count pos maxsize) → F.Taken t

theorem index_le_last {W : ℕ} (h : pos < W) : pos/v.bytesPerClust ≤ lastIndex v W :=
  Nat.div_le_div_right (by omega)

theorem count_behind {maxsize : ℕ} (h : F.size ≤ pos) : F.count pos maxsize = 0 := by
  unfold count
  split_ifs <;> omega

/-- The bytes up to `W` are read behind the first cluster, too. -/
theorem behindFirst_filled (hgets : Gets v fatent) {W : ℕ} (hW : W ≤ F.size) (hpos : pos < W)
    (hlen : W-pos+v.bytesPerClust < 2^32) {j fuel : ℕ} (hj : pos/v.bytesPerClust = j)
    (hfuel : lastIndex v W+3 ≤ fuel) (htaken : ∀ t, t < lastIndex v W → F.Taken t) :
    ∃ out, behindFirst v fatent misaligned fuel (F.cluster j) (W-(j+1)*v.bytesPerClust)
        (min W ((j+1)*v.bytesPerClust)-pos) (F.firstPart pos W) = some (asInt (W-pos : ℕ), out) ∧
      Filled (F.bytesFrom pos) out (W-pos) := by
  have hfirst := F.firstPart_filled pos W
  have hnext := Nat.lt_div_mul_add (bytesPerClust_pos v) (a := pos)
  rw [← Nat.add_one_mul, hj] at hnext
  rw [hj] at hfirst
  unfold behindFirst
  by_cases hend : W ≤ (j+1)*v.bytesPerClust
  · rw [Nat.min_eq_left hend] at hfirst ⊢
    exact ⟨_, if_pos (by omega), hfirst⟩
  have hlast : j < lastIndex v W := by
    have hle := index_le_last (v := v) hpos
    refine lt_of_le_of_ne (hj ▸ hle) fun he => hend ?_
    rw [he]
    exact le_last_mul (by omega)
  have hlt := F.last_lt hpos hW
  have ht := htaken j hlast
  rw [Nat.min_eq_right (not_le.1 hend).le] at hfirst ⊢
  rw [if_neg (by omega), ht.got hgets (by omega), ht.next (by omega), if_neg (by decide)]
  exact copy_filled hgets misaligned hW hpos hlen fuel (by omega) hlast (by omega)
    (fun t _ h2 => htaken t h2) hfirst

/-- The whole read, where everything is taken. -/
theorem right_of_reads (hgets : Gets v fatent) {maxsize : ℕ} (h : F.Reads pos maxsize) :
    F.Right fatent misaligned pos maxsize := by
  by_cases hpos : F.size ≤ pos
  · refine ⟨0, fun _ => none, ?_, ?_⟩
    · rw [getContents, if_pos hpos, count_behind hpos]
      rfl
    · rw [count_behind hpos]
      exact filled_empty _
  obtain ⟨hends, hint, hlt, htaken⟩ := h.resolve_left hpos
  have hcount := F.count_pos maxsize (not_le.1 hpos)
  have hle := F.count_le pos maxsize
  have hb := bytesPerClust_le v
  have hindex : pos/v.bytesPerClust ≤ lastIndex v (pos+F.count pos maxsize) :=
    index_le_last (by omega)
  have hsub : pos+F.count pos maxsize-pos = F.count pos maxsize := Nat.add_sub_cancel_left _ _
  have hval : asInt (pos+F.count pos maxsize-pos : ℕ) = F.count pos maxsize := by
    rw [hsub, asInt_of_lt (by positivity) (by exact_mod_cast hint)]
  have hfound := getContents_found (F := F) misaligned hgets (by omega) hends hlt
    (fun t ht => htaken t (by omega)) rfl
    (lastIndex v (pos+F.count pos maxsize)+3) (by omega)
  obtain ⟨out, hout, hfilled⟩ : ∃ out, getContents v fatent misaligned
      (lastIndex v (pos+F.count pos maxsize)+3) (F.cluster 0) F.size pos maxsize =
        some (asInt (pos+F.count pos maxsize-pos : ℕ), out) ∧
      Filled (F.bytesFrom pos) out (pos+F.count pos maxsize-pos) := by
    rw [hfound]
    by_cases hrest : pos % v.bytesPerClust = 0
    · have hat : pos/v.bytesPerClust*v.bytesPerClust = pos := by
        have hdiv := Nat.div_add_mod' pos v.bytesPerClust
        omega
      have hcopy := @copy_filled v F fatent pos (pos+F.count pos maxsize) hgets misaligned (by omega)
        (by omega) (by omega) (lastIndex v (pos+F.count pos maxsize)+3) _ (fun _ => none)
        (Nat.add_le_add_right (Nat.sub_le _ _) 3) hindex hat.ge (fun t _ h2 => htaken t h2)
        (by rw [hat, Nat.sub_self]; exact filled_empty _)
      rw [if_neg (not_not.2 hrest)]
      rw [hat, Nat.sub_self] at hcopy
      rwa [hat]
    · rw [if_pos hrest]
      exact behindFirst_filled misaligned hgets (by omega) (by omega) (by omega) rfl le_rfl htaken
  rw [hval] at hout
  rw [hsub] at hfilled
  exact ⟨_, out, hout, hfilled⟩

/-! ### Where it is not -/

theorem value_of {a val : ℤ} {out out' : Buffer} (h : some (a, out) = some (val, out')) : val = a :=
  (congrArg Prod.fst (Option.some.inj h)).symm

theorem copy_lt (fuel : ℕ) {curclust filesize gotsize : ℕ}
    {out out' : Buffer} {val : ℤ}
    (h : copy v fatent misaligned fuel curclust filesize gotsize out = some (val, out')) :
    val < 2^31 := by
  have hneg : (-1 : ℤ) < 2^31 := by decide
  induction fuel generalizing curclust filesize gotsize out with
  | zero => cases h
  | succ fuel ih =>
    rw [copy] at h
    split at h
    · cases h
    · exact (value_of h).trans_lt (asInt_lt _)
    · split at h
      · exact (value_of h).trans_lt hneg
      · exact (value_of h).trans_lt (asInt_lt _)
    · split at h
      · exact (value_of h).trans_lt hneg
      · dsimp only at h
        split at h
        · exact (value_of h).trans_lt (asInt_lt _)
        · exact ih h

theorem behindFirst_lt {fuel curclust filesize actsize : ℕ}
    {out out' : Buffer} {val : ℤ}
    (h : behindFirst v fatent misaligned fuel curclust filesize actsize out = some (val, out')) :
    val < 2^31 := by
  unfold behindFirst at h
  split at h
  · exact (value_of h).trans_lt (asInt_lt _)
  · split at h
    · exact (value_of h).trans_lt (asInt_lt _)
    · exact copy_lt misaligned fuel h

theorem gets_empty (v : Volume) : Gets v fun n => (v.getFatent ⟨-1, []⟩ n).1 :=
  fun _ => ⟨⟨-1, []⟩, .inl rfl, rfl⟩

/-- The first entry that is not taken. -/
theorem first_untaken {n : ℕ} (h : ¬∀ t, t < n → F.Taken t) :
    ∃ m, m < n ∧ ¬F.Taken m ∧ ∀ t, t < m → F.Taken t := by
  classical
  push Not at h
  obtain ⟨hlt, hnot⟩ := Nat.find_spec h
  exact ⟨Nat.find h, hlt, hnot, fun t ht => by
    by_contra hn
    exact Nat.find_min h ht ⟨ht.trans hlt, hn⟩⟩

/-- The read stops short at the first entry that is not taken. -/
theorem behindFirst_short (hgets : Gets v fatent) {W : ℕ} (hW : W ≤ F.size) (hpos : pos < W) (hint : W-pos < 2^31)
    {j m fuel : ℕ} (hj : pos/v.bytesPerClust = j) (hjm : j ≤ m) (hm : m < lastIndex v W)
    (htaken : ∀ t, t < m → F.Taken t) (hnot : ¬F.Taken m) {val : ℤ} {out : Buffer}
    (h : behindFirst v fatent misaligned fuel (F.cluster j) (W-(j+1)*v.bytesPerClust)
      (min W ((j+1)*v.bytesPerClust)-pos) (F.firstPart pos W) = some (val, out)) :
    val < (W-pos : ℕ) := by
  have hnext := Nat.lt_div_mul_add (bytesPerClust_pos v) (a := pos)
  rw [← Nat.add_one_mul, hj] at hnext
  have hmul := mul_lt_of_le_last (v := v) (W := W) (i := j+1) (by omega) (by omega)
  have hlt := F.last_lt hpos hW
  unfold behindFirst at h
  rw [if_neg (by omega), Nat.min_eq_right hmul.le] at h
  by_cases hhere : j = m
  · rw [hhere, untaken_check hgets hnot (by omega), if_pos rfl] at h
    rw [value_of h, ← hhere, asInt_of_lt (by positivity)]
    · exact_mod_cast (by omega : (j+1)*v.bytesPerClust-pos < W-pos)
    · exact_mod_cast (by omega : (j+1)*v.bytesPerClust-pos < 2^31)
  · have ht := htaken j (by omega)
    rw [ht.got hgets (by omega), ht.next (by omega), if_neg (by decide)] at h
    exact copy_short hgets misaligned hW hpos hint fuel (by omega) hm (by omega)
      (fun t _ h2 => htaken t h2) hnot h

/-- A read that is right has passed everything. -/
theorem reads_of_right (hgets : Gets v fatent) {maxsize : ℕ} (hends : F.EndFits pos maxsize)
    (h : F.Right fatent misaligned pos maxsize) : F.Reads pos maxsize := by
  by_cases hpos : F.size ≤ pos
  · exact .inl hpos
  obtain ⟨fuel, out, hread, -⟩ := h
  have hcount := F.count_pos maxsize (not_le.1 hpos)
  have hle := F.count_le pos maxsize
  have hnone : ∀ r, seek v fatent pos fuel ((0+1)*v.bytesPerClust) (F.cluster 0) = some r →
      r ≠ none := by
    rintro r hseek rfl
    rw [Nat.zero_add, one_mul] at hseek
    rw [getContents, if_neg (by omega), hseek, Option.bind_some] at hread
    have hval := value_of hread
    omega
  have hsome : ∃ r, seek v fatent pos fuel ((0+1)*v.bytesPerClust) (F.cluster 0) = some r := by
    rw [← Option.ne_none_iff_exists']
    intro hseek
    rw [Nat.zero_add, one_mul] at hseek
    rw [getContents, if_neg (by omega), hseek] at hread
    cases hread
  obtain ⟨r, hr⟩ := hsome
  have hlow : pos+v.bytesPerClust < 2^32 := by
    by_contra hhigh
    have hb := bytesPerClust_le v
    refine hnone r hr (seek_high (not_lt.1 hhigh) fuel (Dvd.intro_left _ rfl) ?_ hr)
    rw [Nat.zero_add, one_mul]
    omega
  have hfront : ∀ t, t < pos/v.bytesPerClust → F.Taken t := by
    by_contra hnot
    obtain ⟨m, hm, hm', htaken⟩ := first_untaken hnot
    exact hnone r hr (seek_invalid hgets (by omega) hlow fuel 0 m (Nat.zero_le _) hm
      (fun t _ h2 => htaken t h2) hm' hr)
  have hfuel : pos/v.bytesPerClust < fuel := by
    by_contra hfew
    rw [seek_eq hgets (by omega) hlow fuel 0 (Nat.zero_le _) fun t _ h2 => hfront t h2,
      if_neg (by rwa [Nat.sub_zero])] at hr
    cases hr
  rw [getContents_found misaligned hgets (by omega) hends hlow hfront rfl fuel hfuel] at hread
  have hint : F.count pos maxsize < 2^31 := by
    have hlt : (F.count pos maxsize : ℤ) < 2^31 := by
      split at hread
      · exact behindFirst_lt misaligned hread
      · exact copy_lt misaligned fuel hread
    exact_mod_cast hlt
  refine .inr ⟨hends, hint, hlow, ?_⟩
  by_contra hnot
  obtain ⟨m, hm, hm', htaken⟩ := first_untaken hnot
  have hsub : pos+F.count pos maxsize-pos = F.count pos maxsize := Nat.add_sub_cancel_left _ _
  have hjm : pos/v.bytesPerClust ≤ m := by
    by_contra hlt
    exact hm' (hfront m (not_le.1 hlt))
  have hshort : (F.count pos maxsize : ℤ) < (pos+F.count pos maxsize-pos : ℕ) := by
    by_cases hrest : pos % v.bytesPerClust = 0
    · have hat : pos/v.bytesPerClust*v.bytesPerClust = pos := by
        have hdiv := Nat.div_add_mod' pos v.bytesPerClust
        omega
      have hcopy : copy v fatent misaligned fuel (F.cluster (pos/v.bytesPerClust))
          (pos+F.count pos maxsize-pos/v.bytesPerClust*v.bytesPerClust)
          (pos/v.bytesPerClust*v.bytesPerClust-pos) (fun _ => none) =
          some ((F.count pos maxsize : ℤ), out) := by
        rw [if_neg (not_not.2 hrest), hat] at hread
        rwa [hat, Nat.sub_self]
      exact copy_short hgets misaligned (by omega) (by omega) (by omega) fuel hjm hm hat.ge
        (fun t _ h2 => htaken t h2) hm' hcopy
    · rw [if_pos hrest] at hread
      exact behindFirst_short misaligned hgets (by omega) (by omega) (by omega) rfl hjm hm htaken hm' hread
  rw [hsub] at hshort
  exact lt_irrefl _ hshort

/-- The read is right where everything is taken; where the end does not overflow, only there. -/
theorem contents_right_iff (F : File v) (misaligned : ℕ → Bool) (pos maxsize : ℕ) :
    (F.Reads pos maxsize → ∀ fatent, Gets v fatent → F.Right fatent misaligned pos maxsize) ∧
      (F.EndFits pos maxsize → ((∀ fatent, Gets v fatent → F.Right fatent misaligned pos maxsize) ↔
        F.Reads pos maxsize)) :=
  ⟨fun h _ hgets => right_of_reads misaligned hgets h, fun hends =>
    ⟨fun h => reads_of_right misaligned (gets_empty v) hends (h _ (gets_empty v)),
      fun h _ hgets => right_of_reads misaligned hgets h⟩⟩

end Read

theorem ten_lt : 10 < 2^32 := by decide

/-- A volume with one cluster in use. -/
def tiny : Volume where
  fatsize := .fat16
  sectSize := 512
  fatSect := 1
  fatLength := 1
  sectors := 10
  bytes p := if p = 516 ∨ p = 517 then 255 else 0
  sectSize_pos := sector_pos
  sectSize_dvd := sector_dvd
  sectors_lt := ten_lt
  sectBits := 9
  clustBits := 0
  rootdirSect := 2
  dataBegin := 1
  sectSize_pow := by decide
  clust_le := by decide

theorem tiny_cluster : IsCluster tiny 2 :=
  ⟨le_rfl, by decide, ⟨by decide, by decide⟩, by decide, by decide⟩

theorem tiny_ended : endMark tiny.fatsize ≤ clusterOf tiny.fatsize (tiny.fatEntry 2) := by
  decide +kernel

/-- A file of 10 bytes there. -/
def ten : File tiny where
  size := 10
  size_lt := ten_lt
  clusters := [2]
  isCluster := fun _ h => List.mem_singleton.1 h ▸ tiny_cluster
  linked := List.isChain_singleton 2
  ended := fun _ h => Option.some.inj h ▸ tiny_ended
  enough := by decide

/-- From position 1, with `2^32-1` bytes as the limit, nothing of it is read. -/
theorem ten_not_read :
    ¬∀ fatent, Gets tiny fatent → ten.Right fatent (fun _ => false) 1 4294967295 := by
  intro h
  obtain ⟨fuel, out, h, -⟩ := h _ (gets_empty tiny)
  cases fuel with
  | zero => cases h
  | succ fuel =>
    have hread : ∀ fatent, getContents tiny fatent (fun _ => false) (fuel+1) 2 10 1 4294967295 =
        readFirst tiny fatent (fun _ => false) (fuel+1) 2 0 1 0 := fun _ => rfl
    rw [show ten.cluster 0 = 2 from rfl, show ten.size = 10 from rfl, hread, readFirst] at h
    split at h
    · exact absurd (value_of h) (by decide)
    · have hneg : asInt (sub32 0 1 : ℕ) < 0 := asInt_neg (by decide) (by decide)
      rw [behindFirst, if_pos rfl] at h
      have hval := value_of h
      rw [← hval] at hneg
      exact absurd hneg (by decide)

end File

end UBoot.Fat
