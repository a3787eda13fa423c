import UBoot.Gpt

/-!
# What a restored table is worth

`RoundTrip` is what a disk should give back after `gpt_restore`. The second
header keeps the address of the first array of entries, so that no list of
partitions has a second table of its own.
-/

set_option autoImplicit false

namespace UBoot.Gpt
open UBoot.ByteStore UBoot.LittleEndian

/-- Where the partitions are asked to be: a start of zero means right behind the one before,
and a last size of zero means up to the end. -/
def requestedLayout (lastUsableLba : ℕ) : ℕ → List DiskPartition → List (ℕ × ℕ)
  | _, [] => []
  | previous, p :: ps =>
    let start := if p.start ≠ 0 then p.start else previous
    let size := if ps = [] ∧ p.size = 0 then lastUsableLba+1-start else p.size
    (start, size) :: requestedLayout lastUsableLba (start+size) ps

def layout (dev : BlockDev) (partitions : List DiskPartition) : List (ℕ × ℕ) :=
  requestedLayout (dev.lba-34) 34 partitions

structure RoundTrip (dev : BlockDev) (partitions : List DiskPartition) (disk : Memory) : Prop where
  info : ∀ (i : ℕ) (p : DiskPartition), partitions[i]? = some p →
    ∃ info : PartitionInfo, getPartitionInfoEfi dev disk (i+1) = some info ∧
      (layout dev partitions)[i]? = some (info.start, info.size) ∧
      info.name = p.name.takeWhile (· ≠ 0)
  nonempty : ∀ q ∈ layout dev partitions, 0 < q.2
  inside : ∀ q ∈ layout dev partitions, 34 ≤ q.1 ∧ q.1+q.2 ≤ dev.lba-34+1
  disjoint : (layout dev partitions).Pairwise fun q r => q.1+q.2 ≤ r.1 ∨ r.1+r.2 ≤ q.1
  /-- The header in the last block is valid, with the entries behind the usable blocks. -/
  backup : ∃ r : GptHeader × List UInt8, isGptValid dev disk (dev.lba-1) = some r ∧
    r.1.partitionEntryLba = r.1.lastUsableLba+1

/-! ## The writes -/

theorem blockWrite_some (dev : BlockDev) (disk : Memory) (start blkcnt : ℕ)
    (buffer : List UInt8) (disk' : Memory)
    (h : blockWrite dev disk start blkcnt buffer = some disk') :
    start+blkcnt ≤ dev.lba ∧ ∀ e : Memory, blockWrite dev e start blkcnt buffer =
      some (store e (start*dev.blksz) (buffer.take (blkcnt*dev.blksz))) := by
  unfold blockWrite at h
  split at h
  · cases h
  · rename_i hok
    refine ⟨by omega, fun e => ?_⟩
    rw [blockWrite, if_neg hok]

def writeAll (blksz : ℕ) (writes : List (ℕ × List UInt8)) (disk : Memory) : Memory :=
  writes.foldl (fun d w => store d (w.1*blksz) w.2) disk

/-- The second header: its addresses are swapped, the one of the entries is kept. -/
structure Second (dev : BlockDev) (h : GptHeader) : Prop where
  myLba : h.myLba = (dev.lba+(2^64-1)) % 2^64
  lastUsableLba : h.lastUsableLba = (dev.lba+(2^64-34)) % 2^64
  partitionEntryLba : h.partitionEntryLba = 2
  diskGuid : h.diskGuid.length = 16

theorem stringUuid_length (uuid guid : List UInt8) (h : stringUuid uuid = some guid) :
    guid.length = 16 := by
  unfold stringUuid at h
  split at h
  · cases h
  · split at h
    · cases h
      simp
    · cases h

theorem gptFillHeader_fields (dev : BlockDev) (strGuid : List UInt8) (h : GptHeader)
    (hfill : gptFillHeader dev strGuid = some h) :
    h.alternateLba = (dev.lba+(2^64-1)) % 2^64 ∧ h.lastUsableLba = (dev.lba+(2^64-34)) % 2^64 ∧
      h.partitionEntryLba = 2 ∧ h.numPartitionEntries = 128 ∧ h.diskGuid.length = 16 := by
  obtain ⟨guid, hguid, rfl⟩ := Option.map_eq_some_iff.mp hfill
  exact ⟨rfl, rfl, rfl, rfl, stringUuid_length _ _ hguid⟩

theorem gptRestore_writes (dev : BlockDev) (heap strDiskGuid : List UInt8)
    (partitions : List DiskPartition) (disk disk' : Memory)
    (h : gptRestore dev heap strDiskGuid partitions disk = some disk') :
    ∃ (second : GptHeader) (mbr first entries : List UInt8),
      Second dev second ∧ 1 ≤ dev.lba ∧
      ∀ e : Memory, gptRestore dev heap strDiskGuid partitions e = some (writeAll dev.blksz
        [(0, mbr.take (1*dev.blksz)), (1, first.take (1*dev.blksz)),
          (2, entries.take (blockCnt dev 16384*dev.blksz)),
          ((second.lastUsableLba+1) % 2^32, entries.take (blockCnt dev 16384*dev.blksz)),
          (second.myLba % 2^32, (padToBlocksize dev second.bytes).take (1*dev.blksz))] e) := by
  obtain ⟨hd, hhd, h⟩ := Option.bind_eq_some_iff.mp h
  obtain ⟨entries, hentries, h⟩ := Option.bind_eq_some_iff.mp h
  obtain ⟨halternate, hlast, hentry, hnum, hguid⟩ := gptFillHeader_fields dev strDiskGuid hd hhd
  split at h
  · cases h
  · rename_i hfew
    rw [writeGptTable, hnum] at h
    obtain ⟨d0, h0, h⟩ := Option.bind_eq_some_iff.mp h
    obtain ⟨d1, h1, h⟩ := Option.bind_eq_some_iff.mp h
    obtain ⟨d2, h2, h⟩ := Option.bind_eq_some_iff.mp h
    obtain ⟨d3, h3, h4⟩ := Option.bind_eq_some_iff.mp h
    have w0 := blockWrite_some _ _ _ _ _ _ h0
    have w1 := blockWrite_some _ _ _ _ _ _ h1
    have w2 := blockWrite_some _ _ _ _ _ _ h2
    have w3 := blockWrite_some _ _ _ _ _ _ h3
    have w4 := blockWrite_some _ _ _ _ _ _ h4
    refine ⟨secondHeader (primaryHeader hd (entryArray dev entries)), protectiveMbr dev heap,
      padToBlocksize dev (primaryHeader hd (entryArray dev entries)).bytes,
      entryArray dev entries, ⟨halternate, hlast, hentry, hguid⟩, by omega, ?_⟩
    intro e
    rw [gptRestore, hhd]
    simp only [Option.bind_eq_bind, Option.bind_some]
    rw [hentries]
    simp only [Option.bind_some]
    rw [if_neg hfew, writeGptTable, hnum]
    simp only [Option.bind_eq_bind]
    rw [w0.2, Option.bind_some, w1.2, Option.bind_some, w2.2, Option.bind_some, w3.2,
      Option.bind_some, w4.2]
    rfl

/-! ## The last block -/

theorem isGptValid_header (dev : BlockDev) (disk : Memory) (lba : ℕ)
    (r : GptHeader × List UInt8) (h : isGptValid dev disk lba = some r) :
    r.1 = gptHeader (load disk (lba*dev.blksz) (1*dev.blksz)) ∧
      r.1.signature = gptHeaderSignature := by
  obtain ⟨b, hb, h⟩ := Option.bind_eq_some_iff.mp h
  unfold blockRead at hb
  split at hb
  · cases hb
  · cases hb
    dsimp only at h
    split at h
    · cases h
    · rename_i hsignature
      split at h
      · cases h
      · split at h
        · cases h
        · split at h
          · cases h
          · split at h
            · cases h
            · obtain ⟨ptes, _, h⟩ := Option.bind_eq_some_iff.mp h
              split at h
              · cases h
              · cases h
                exact ⟨rfl, not_not.mp hsignature⟩

theorem GptHeader.length_bytes (h : GptHeader) (hguid : h.diskGuid.length = 16) :
    h.bytes.length = 92 := by
  simp [GptHeader.bytes, hguid]

/-- One block holds the whole header. -/
theorem headerBlock (dev : BlockDev) (h : GptHeader) (hguid : h.diskGuid.length = 16) :
    ∃ rest : List UInt8, (padToBlocksize dev h.bytes).take (1*dev.blksz) = h.bytes ++ rest ∧
      (h.bytes ++ rest).length = 1*dev.blksz := by
  have hlen := h.length_bytes hguid
  have hblksz := dev.blksz_ge
  have hone : blockCnt dev 92 = 1 := by
    rw [blockCnt, Nat.div_eq_of_lt (by omega)]
  refine ⟨List.replicate (1*dev.blksz-92) 0, ?_, ?_⟩
  · rw [padToBlocksize, hlen, hone, List.take_of_length_le]
    rw [List.length_append, hlen, List.length_replicate]
    omega
  · rw [List.length_append, hlen, List.length_replicate]
    omega

theorem gptHeader_entryLba (h : GptHeader) (hguid : h.diskGuid.length = 16)
    (rest : List UInt8) :
    (gptHeader (h.bytes ++ rest)).partitionEntryLba = h.partitionEntryLba % 256^8 := by
  have hlen := h.length_bytes hguid
  have hsplit : h.bytes = (le 8 h.signature ++ (le 4 h.revision ++ (le 4 h.headerSize ++
      (le 4 h.headerCrc32 ++ (le 4 0 ++ (le 8 h.myLba ++ (le 8 h.alternateLba ++
      (le 8 h.firstUsableLba ++ (le 8 h.lastUsableLba ++ h.diskGuid))))))))) ++
      (le 8 h.partitionEntryLba ++ (le 4 h.numPartitionEntries ++
      (le 4 h.sizeofPartitionEntry ++ le 4 h.partitionEntryArrayCrc32))) := by
    simp only [GptHeader.bytes, List.append_assoc]
  show fieldAt (h.bytes ++ rest) 72 8 = _
  rw [fieldAt_append _ _ _ _ (by omega), hsplit]
  exact fieldAt_le _ _ _ _ _ (by simp [hguid])

theorem gptHeader_lastUsable (h : GptHeader) (hguid : h.diskGuid.length = 16)
    (rest : List UInt8) :
    (gptHeader (h.bytes ++ rest)).lastUsableLba = h.lastUsableLba % 256^8 := by
  have hlen := h.length_bytes hguid
  have hsplit : h.bytes = (le 8 h.signature ++ (le 4 h.revision ++ (le 4 h.headerSize ++
      (le 4 h.headerCrc32 ++ (le 4 0 ++ (le 8 h.myLba ++ (le 8 h.alternateLba ++
      le 8 h.firstUsableLba))))))) ++ (le 8 h.lastUsableLba ++ (h.diskGuid ++
      (le 8 h.partitionEntryLba ++ (le 4 h.numPartitionEntries ++
      (le 4 h.sizeofPartitionEntry ++ le 4 h.partitionEntryArrayCrc32))))) := by
    simp only [GptHeader.bytes, List.append_assoc]
  show fieldAt (h.bytes ++ rest) 48 8 = _
  rw [fieldAt_append _ _ _ _ (by omega), hsplit]
  exact fieldAt_le _ _ _ _ _ (by simp)

/-- The second header is where it should be, and names the first array. -/
theorem backup_shares (dev : BlockDev) (second : GptHeader) (hsecond : Second dev second)
    (hlast : 34 < second.lastUsableLba) (disk : Memory) (r : GptHeader × List UInt8)
    (h : isGptValid dev (store disk ((dev.lba-1)*dev.blksz)
      ((padToBlocksize dev second.bytes).take (1*dev.blksz))) (dev.lba-1) = some r) :
    r.1.partitionEntryLba ≠ r.1.lastUsableLba+1 := by
  obtain ⟨rest, hblock, hlen⟩ := headerBlock dev second hsecond.diskGuid
  have hheader := (isGptValid_header dev _ _ r h).1
  rw [hblock, ← hlen, (holds_store disk _ _).load_eq] at hheader
  rw [hheader, gptHeader_entryLba second hsecond.diskGuid,
    gptHeader_lastUsable second hsecond.diskGuid, hsecond.partitionEntryLba, Nat.mod_eq_of_lt
      (show second.lastUsableLba < 256^8 by rw [hsecond.lastUsableLba]; omega)]
  omega

theorem load_writeAll (blksz : ℕ) (writes : List (ℕ × List UInt8)) (disk : Memory) (p n : ℕ)
    (h : ∀ w ∈ writes, w.1*blksz+w.2.length ≤ p ∨ p+n ≤ w.1*blksz) :
    load (writeAll blksz writes disk) p n = load disk p n := by
  induction writes generalizing disk with
  | nil => rfl
  | cons w writes ih =>
    have hw := h w List.mem_cons_self
    rw [writeAll, List.foldl_cons]
    refine (ih _ fun v hv => h v (List.mem_cons_of_mem _ hv)).trans ?_
    apply load_congr
    intro x hlow hhigh
    exact store_of_outside disk _ _ x (by omega)

/-- A zeroed disk whose last block is not written has no second header. -/
theorem backup_missing (dev : BlockDev) (writes : List (ℕ × List UInt8))
    (h : ∀ w ∈ writes, w.1*dev.blksz+w.2.length ≤ (dev.lba-1)*dev.blksz) :
    isGptValid dev (writeAll dev.blksz writes fun _ => 0) (dev.lba-1) = none := by
  by_contra hsome
  obtain ⟨r, hr⟩ := Option.ne_none_iff_exists'.mp hsome
  obtain ⟨hheader, hsignature⟩ := isGptValid_header dev _ _ r hr
  rw [load_writeAll dev.blksz writes _ _ _ fun w hw => .inl (h w hw)] at hheader
  have hzero : r.1.signature = 0 := by
    rw [hheader]
    apply ofLe_zeros
    intro b hb
    have hload := List.mem_of_mem_drop (List.mem_of_mem_take hb)
    rw [load, List.mem_map] at hload
    obtain ⟨x, _, hx⟩ := hload
    exact hx.symm
  rw [hzero] at hsignature
  exact absurd hsignature (by decide)

/-- Every write is cut down to its blocks. -/
theorem write_fits (blksz start blkcnt bound : ℕ) (buffer : List UInt8)
    (h : start+blkcnt ≤ bound) :
    start*blksz+(buffer.take (blkcnt*blksz)).length ≤ bound*blksz := by
  have hlen : (buffer.take (blkcnt*blksz)).length ≤ blkcnt*blksz := List.length_take_le _ _
  have hmul : (start+blkcnt)*blksz ≤ bound*blksz := Nat.mul_le_mul_right _ h
  rw [Nat.add_mul] at hmul
  omega

/-- On a zeroed disk the second header is missing, or it names the first array. -/
theorem restored_backup (dev : BlockDev) (heap strDiskGuid : List UInt8)
    (partitions : List DiskPartition) (husable : 34 < (dev.lba+(2^64-34)) % 2^64)
    (disk disk' : Memory)
    (haccepted : gptRestore dev heap strDiskGuid partitions disk = some disk') :
    ∃ zeroed' : Memory, gptRestore dev heap strDiskGuid partitions (fun _ => 0) = some zeroed' ∧
      ¬ RoundTrip dev partitions zeroed' := by
  obtain ⟨second, mbr, first, entries, hsecond, hpos, hrestore⟩ :=
    gptRestore_writes dev heap strDiskGuid partitions disk disk' haccepted
  refine ⟨_, hrestore fun _ => 0, ?_⟩
  intro hround
  obtain ⟨r, hr, hown⟩ := hround.backup
  have hlba := dev.lba_lt
  have hcnt : blockCnt dev 16384 ≤ 32 := by
    have hle : (16384-1)/dev.blksz ≤ (16384-1)/512 :=
      Nat.div_le_div_left dev.blksz_ge (by omega)
    rw [blockCnt]
    omega
  have hmy : second.myLba = dev.lba-1 := by
    rw [hsecond.myLba]
    omega
  have hlast := hsecond.lastUsableLba
  by_cases hsmall : dev.lba-1 < 2^32
  · rw [hmy, Nat.mod_eq_of_lt hsmall, writeAll, List.foldl_cons, List.foldl_cons,
      List.foldl_cons, List.foldl_cons, List.foldl_cons, List.foldl_nil] at hr
    exact backup_shares dev second hsecond (by omega) _ r hr hown
  · rw [backup_missing dev] at hr
    · cases hr
    · intro w hw
      simp only [List.mem_cons, List.not_mem_nil, or_false] at hw
      rcases hw with rfl | rfl | rfl | rfl | rfl <;> apply write_fits <;> omega

/-- Whatever the disk and the list of partitions that is accepted for it: `gpt_restore` leaves no
second table of its own. -/
theorem no_own_backup (dev : BlockDev) (heap strDiskGuid : List UInt8)
    (partitions : List DiskPartition) (husable : 34 < (dev.lba+(2^64-34)) % 2^64)
    (haccepted : ∃ disk disk', gptRestore dev heap strDiskGuid partitions disk = some disk') :
    ¬ ∀ disk disk', gptRestore dev heap strDiskGuid partitions disk = some disk' →
      RoundTrip dev partitions disk' := by
  intro hall
  obtain ⟨disk, disk', haccepted⟩ := haccepted
  obtain ⟨zeroed', hzeroed, hnot⟩ :=
    restored_backup dev heap strDiskGuid partitions husable disk disk' haccepted
  exact hnot (hall _ _ hzeroed)

/-! ## A disk of one megabyte -/

def smallDisk : BlockDev := ⟨512, 2048, fun _ _ => false, by decide, by decide⟩

/-- `12345678-1234-1234-1234-123456789abc` -/
def sampleGuid : List UInt8 :=
  [49, 50, 51, 52, 53, 54, 55, 56, 45, 49, 50, 51, 52, 45, 49, 50, 51, 52, 45, 49, 50, 51, 52, 45,
    49, 50, 51, 52, 53, 54, 55, 56, 57, 97, 98, 99]

/-- A partition `boot` of 100 blocks at the first usable one. -/
def bootPartition : DiskPartition :=
  ⟨0, 100, [98, 111, 111, 116] ++ List.replicate 28 0, List.replicate 32 0, sampleGuid,
    by decide, by decide, by decide, by decide⟩

def heapBytes : List UInt8 := List.replicate 512 0

theorem boot_accepted : ∃ disk', gptRestore smallDisk heapBytes sampleGuid [bootPartition]
    (fun _ => 0) = some disk' := by
  rw [← Option.isSome_iff_exists]
  decide +kernel

theorem no_own_backup_boot :
    ¬ ∀ disk disk', gptRestore smallDisk heapBytes sampleGuid [bootPartition] disk = some disk' →
      RoundTrip smallDisk [bootPartition] disk' :=
  no_own_backup smallDisk heapBytes sampleGuid [bootPartition] (by decide) ⟨_, boot_accepted⟩

theorem boot_not_restored :
    ∃ disk', gptRestore smallDisk heapBytes sampleGuid [bootPartition] (fun _ => 0) = some disk' ∧
      ¬ RoundTrip smallDisk [bootPartition] disk' := by
  obtain ⟨disk', haccepted⟩ := boot_accepted
  exact restored_backup smallDisk heapBytes sampleGuid [bootPartition] (by decide) _ disk' haccepted

end UBoot.Gpt
