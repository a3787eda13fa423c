import UBoot.Gpt

/-!
# What is read while a partition table is checked

The header and the entries stand in buffers of the memory here, and every
address that is read is kept: the ranges of the two checksums and the entries
that are indexed. The size of the array is a product of 32 bits, while entries
are indexed by the size of the C structure, and the size of the header is used
as it stands on the disk.
-/

set_option autoImplicit false

namespace UBoot.GptBounds

open Gpt ByteStore LittleEndian

/-- The memory, with the buffer of a block for the header and the heap. What is allocated is
apart from that buffer. -/
structure Ram (dev : BlockDev) where
  memory : Memory
  head : ℕ
  memalign : ℕ → Option ℕ
  apart : ∀ size a, memalign size = some a → head+dev.blksz ≤ a ∨ a+size ≤ head

variable (dev : BlockDev) (ram : Ram dev) (disk : Memory)

def headerAt (m : Memory) : GptHeader := gptHeader (load m ram.head dev.blksz)

/-- The product of the two fields, in an `u32`. -/
def entryBytes (h : GptHeader) : ℕ := h.numPartitionEntries*h.sizeofPartitionEntry % 2^32

structure Entries where
  memory : Memory
  pte : ℕ
  allocated : ℕ

/-- The padded size is a `size_t` of 32 bits. When it wraps, the blocks read are more than what
is allocated and run over the whole memory: nothing is returned from that. -/
def allocReadGptEntries (m : Memory) (h : GptHeader) : Option Entries :=
  let count := entryBytes h
  let padded := blockCnt dev count*dev.blksz % 2^32
  if count = 0 then none
  else do
    let pte ← ram.memalign padded
    let bytes ← blockRead dev disk h.partitionEntryLba (blockCnt dev count)
    if padded < bytes.length then none
    else some ⟨store m pte bytes, pte, padded⟩

/-- A valid table in memory, with the addresses and lengths that were summed up. -/
structure Checked where
  memory : Memory
  pte : ℕ
  allocated : ℕ
  headRead : ℕ × ℕ
  arrayRead : ℕ × ℕ

def isGptValid (lba : ℕ) : Option Checked := do
  let b ← blockRead dev disk lba 1
  let m := store ram.memory ram.head b
  let h := headerAt dev ram m
  if h.signature ≠ gptHeaderSignature then none
  -- the field of the checksum is zero while the header is summed up
  else if efiCrc32 (load (store m (ram.head+16) [0, 0, 0, 0]) ram.head h.headerSize) ≠
      h.headerCrc32 then none
  else if h.myLba ≠ lba then none
  else if h.firstUsableLba > dev.lba then none
  else if h.lastUsableLba > dev.lba then none
  else
    let e ← allocReadGptEntries dev ram disk m h
    let h' := headerAt dev ram e.memory
    if efiCrc32 (load e.memory e.pte (entryBytes h')) ≠ h'.partitionEntryArrayCrc32 then none
    else some ⟨e.memory, e.pte, e.allocated, (ram.head, h.headerSize), (e.pte, entryBytes h')⟩

/-- The address of `gpt_pte[part - 1]`, where it is looked at. -/
def indexed (c : Checked) (part : ℕ) : Option ℕ :=
  if part < 1 ∨ part > (headerAt dev ram c.memory).numPartitionEntries then none
  else some (c.pte+(part-1)*sizeofGptEntry)

/-- What a request is told about an entry. -/
def entryInfo (pte : List UInt8) : PartitionInfo :=
  let start := fieldAt pte 32 8 % 2^32
  { start := start
    size := (fieldAt pte 40 8+1+(2^64-start)) % 2^32
    blksz := dev.blksz
    name := printEfiname pte
    bootable := (pte.getD 48 0).toNat/4 % 2 = 1 ∨ pte.take 16 = partitionSystemGuid }

def getPartitionInfoEfi (part : ℕ) : Option PartitionInfo := do
  let c ← isGptValid dev ram disk gptPrimaryPartitionTableLba
  let a ← indexed dev ram c part
  let pte := load c.memory a sizeofGptEntry
  if pte.take 16 = List.replicate 16 0 then none
  else some (entryInfo dev pte)

/-- A range of addresses inside of another. -/
def Inside (r s : ℕ × ℕ) : Prop := s.1 ≤ r.1 ∧ r.1+r.2 ≤ s.1+s.2

/-- The checksums keep to the header block and to the array, and so do the entries of every
part that an `int` can name. -/
structure Sound (c : Checked) : Prop where
  head : Inside c.headRead (ram.head, dev.blksz)
  array : Inside c.arrayRead (c.pte, c.allocated)
  entry : ∀ part a, part < 2^31 → indexed dev ram c part = some a →
    Inside (a, sizeofGptEntry) c.arrayRead

/-- The header that stands on the disk. -/
def headerOnDisk (lba : ℕ) : GptHeader := gptHeader (load disk (lba*dev.blksz) dev.blksz)

structure Fits (h : GptHeader) : Prop where
  headerSize : h.headerSize ≤ dev.blksz
  entries : h.numPartitionEntries*sizeofGptEntry ≤ entryBytes h

variable {dev ram disk}

theorem le_padded (size : ℕ) : size ≤ blockCnt dev size*dev.blksz := by
  have hblksz := dev.blksz_ge
  have hdiv := Nat.div_add_mod (size-1) dev.blksz
  have hmod := Nat.mod_lt (size-1) (show 0 < dev.blksz by omega)
  rw [blockCnt, Nat.add_mul, Nat.one_mul, Nat.mul_comm]
  omega

theorem blockRead_eq {start blkcnt : ℕ} {b : List UInt8}
    (h : blockRead dev disk start blkcnt = some b) :
    b = load disk (start*dev.blksz) (blkcnt*dev.blksz) := by
  rw [blockRead] at h
  split at h
  · exact absurd h (by simp)
  · exact (Option.some.inj h).symm

/-- The header is in memory as it stands on the disk. -/
theorem headerAt_store (m : Memory) (lba : ℕ) :
    headerAt dev ram (store m ram.head (load disk (lba*dev.blksz) (1*dev.blksz))) =
      headerOnDisk dev disk lba := by
  have hload := (holds_store m ram.head (load disk (lba*dev.blksz) (1*dev.blksz))).load_eq
  rw [length_load, Nat.one_mul] at hload
  rw [headerAt, headerOnDisk, Nat.one_mul, hload]

/-- What is read into the heap leaves the header. -/
theorem headerAt_heap (m : Memory) (pte : ℕ) (bytes : List UInt8) (size : ℕ)
    (hpte : ram.memalign size = some pte) (hlen : bytes.length ≤ size) :
    headerAt dev ram (store m pte bytes) = headerAt dev ram m := by
  have hapart := ram.apart size pte hpte
  rw [headerAt, headerAt, load_congr]
  exact fun x hx hx' => store_of_outside m pte bytes x (by omega)

/-- What the entries of a table are when they have been read. -/
theorem allocReadGptEntries_some {m : Memory} {h : GptHeader} {e : Entries}
    (he : allocReadGptEntries dev ram disk m h = some e) :
    entryBytes h ≤ e.allocated ∧
      headerAt dev ram e.memory = headerAt dev ram m ∧
      Gpt.allocReadGptEntries dev disk h = some (load e.memory e.pte e.allocated) := by
  rw [allocReadGptEntries] at he
  split at he
  · exact absurd he (by simp)
  · next hcount =>
    obtain ⟨pte, hpte, he⟩ := Option.bind_eq_some_iff.1 he
    obtain ⟨bytes, hread, he⟩ := Option.bind_eq_some_iff.1 he
    split at he
    · exact absurd he (by simp)
    · next hlen =>
      obtain rfl := Option.some.inj he
      have hbytes := blockRead_eq hread
      have hlength : bytes.length = blockCnt dev (entryBytes h)*dev.blksz := by
        rw [hbytes, length_load]
      have hpadded : blockCnt dev (entryBytes h)*dev.blksz % 2^32 = bytes.length := by
        have hle := Nat.mod_le (blockCnt dev (entryBytes h)*dev.blksz) (2^32)
        omega
      have hload : load (store m pte bytes) pte bytes.length = bytes :=
        (holds_store m pte bytes).load_eq
      refine ⟨?_, headerAt_heap m pte bytes _ hpte (Nat.le_of_not_lt hlen), ?_⟩
      · show entryBytes h ≤ blockCnt dev (entryBytes h)*dev.blksz % 2^32
        rw [hpadded, hlength]
        exact le_padded _
      · show _ = some (load (store m pte bytes) pte
          (blockCnt dev (entryBytes h)*dev.blksz % 2^32))
        rw [hpadded, hload, Gpt.allocReadGptEntries]
        exact (if_neg hcount).trans hread

/-- What holds of a table that is taken as valid. -/
structure Accepted (dev : BlockDev) (ram : Ram dev) (disk : Memory) (lba : ℕ) (c : Checked) :
    Prop where
  header : headerAt dev ram c.memory = headerOnDisk dev disk lba
  head : c.headRead = (ram.head, (headerOnDisk dev disk lba).headerSize)
  array : c.arrayRead = (c.pte, entryBytes (headerOnDisk dev disk lba))
  allocated : entryBytes (headerOnDisk dev disk lba) ≤ c.allocated
  entries : Gpt.allocReadGptEntries dev disk (headerOnDisk dev disk lba) =
    some (load c.memory c.pte c.allocated)
  headCrc : efiCrc32 (load (store (store ram.memory ram.head
    (load disk (lba*dev.blksz) (1*dev.blksz))) (ram.head+16) [0, 0, 0, 0]) ram.head
      (headerOnDisk dev disk lba).headerSize) = (headerOnDisk dev disk lba).headerCrc32
  arrayCrc : efiCrc32 (load c.memory c.pte (entryBytes (headerOnDisk dev disk lba))) =
    (headerOnDisk dev disk lba).partitionEntryArrayCrc32
  block : blockRead dev disk lba 1 = some (load disk (lba*dev.blksz) (1*dev.blksz))
  signature : (headerOnDisk dev disk lba).signature = gptHeaderSignature
  myLba : (headerOnDisk dev disk lba).myLba = lba
  firstUsableLba : (headerOnDisk dev disk lba).firstUsableLba ≤ dev.lba
  lastUsableLba : (headerOnDisk dev disk lba).lastUsableLba ≤ dev.lba

theorem accepted_of_valid {lba : ℕ} {c : Checked} (h : isGptValid dev ram disk lba = some c) :
    Accepted dev ram disk lba c := by
  rw [isGptValid] at h
  obtain ⟨b, hread, h⟩ := Option.bind_eq_some_iff.1 h
  obtain rfl := blockRead_eq hread
  dsimp only at h
  rw [headerAt_store] at h
  split at h
  · exact absurd h (by simp)
  · next hsignature =>
    split at h
    · exact absurd h (by simp)
    · next hcrc =>
      split at h
      · exact absurd h (by simp)
      · next hlba =>
        split at h
        · exact absurd h (by simp)
        · next hfirst =>
          split at h
          · exact absurd h (by simp)
          · next hlast =>
            obtain ⟨e, he, h⟩ := Option.bind_eq_some_iff.1 h
            obtain ⟨hallocated, hhead, hentries⟩ := allocReadGptEntries_some he
            rw [headerAt_store] at hhead
            rw [hhead] at h
            split at h
            · exact absurd h (by simp)
            · next harray =>
              obtain rfl := Option.some.inj h
              exact ⟨hhead, rfl, rfl, hallocated, hentries, not_not.1 hcrc, not_not.1 harray,
                hread, not_not.1 hsignature, not_not.1 hlba, Nat.le_of_not_lt hfirst,
                Nat.le_of_not_lt hlast⟩

theorem fits_of_sound {lba : ℕ} {c : Checked} (hvalid : isGptValid dev ram disk lba = some c)
    (hsound : Sound dev ram c) : Fits dev (headerOnDisk dev disk lba) := by
  have ha := accepted_of_valid hvalid
  have hhead := hsound.head
  rw [ha.head] at hhead
  refine ⟨Nat.add_le_add_iff_left.1 hhead.2, ?_⟩
  -- the last part of the table, or the last one that an `int` names
  have hentry := hsound.entry (min (headerOnDisk dev disk lba).numPartitionEntries (2^31-1))
  rw [ha.array, indexed, ha.header] at hentry
  by_cases hzero : (headerOnDisk dev disk lba).numPartitionEntries = 0
  · rw [hzero, Nat.zero_mul]
    exact Nat.zero_le _
  · rw [if_neg (by omega)] at hentry
    have hin := (hentry _ (by omega) rfl).2
    have hlt : entryBytes (headerOnDisk dev disk lba) < 2^32 := Nat.mod_lt _ (by decide)
    simp only [sizeofGptEntry] at hin ⊢
    omega

/-- What is looked at keeps to what is checked where the header fits. -/
theorem sound_iff_fits {lba : ℕ} {c : Checked} (hvalid : isGptValid dev ram disk lba = some c) :
    Sound dev ram c ↔ Fits dev (headerOnDisk dev disk lba) := by
  refine ⟨fits_of_sound hvalid, ?_⟩
  have ha := accepted_of_valid hvalid
  rintro ⟨hsize, hentries⟩
  refine ⟨?_, ?_, fun part a _ hindexed => ?_⟩
  · rw [ha.head]
    exact ⟨le_rfl, Nat.add_le_add_left hsize _⟩
  · rw [ha.array]
    exact ⟨le_rfl, Nat.add_le_add_left ha.allocated _⟩
  · rw [ha.array]
    rw [indexed, ha.header] at hindexed
    split at hindexed
    · exact absurd hindexed (by simp)
    · next hpart =>
      obtain rfl := Option.some.inj hindexed
      refine ⟨Nat.le_add_right _ _, ?_⟩
      simp only [sizeofGptEntry] at hentries ⊢
      omega

/-! ## What depends on the disk alone -/

/-- A part of what has been stored, stored anew. -/
theorem load_patch (m : Memory) (p : ℕ) (as olds news bs : List UInt8)
    (hlen : news.length = olds.length) :
    load (store (store m p (as ++ (olds ++ bs))) (p+as.length) news) p
      (as ++ (olds ++ bs)).length = as ++ (news ++ bs) := by
  obtain ⟨has, hrest⟩ := (holds_append _ p as (olds ++ bs)).1 (holds_store m p (as ++ (olds ++ bs)))
  have hbs := ((holds_append _ _ olds bs).1 hrest).2
  have hpatched : Holds (store (store m p (as ++ (olds ++ bs))) (p+as.length) news) p
      (as ++ (news ++ bs)) := by
    rw [holds_append, holds_append]
    refine ⟨(holds_store_of_before _ _ _ _ _ le_rfl).2 has, holds_store _ _ _, ?_⟩
    rw [hlen]
    refine (holds_congr _ _ _ _ fun a ha _ => ?_).2 hbs
    exact store_of_outside _ _ _ _ (by omega)
  have hload := hpatched.load_eq
  simp only [List.length_append, hlen] at hload ⊢
  exact hload

/-- The header as it is summed up, while it keeps to its block. -/
theorem load_zeroed (lba size : ℕ) (hsize : size ≤ dev.blksz) :
    load (store (store ram.memory ram.head (load disk (lba*dev.blksz) (1*dev.blksz)))
        (ram.head+16) [0, 0, 0, 0]) ram.head size =
      ((load disk (lba*dev.blksz) (1*dev.blksz)).take 16 ++ [0, 0, 0, 0] ++
        (load disk (lba*dev.blksz) (1*dev.blksz)).drop 20).take size := by
  have hblksz := dev.blksz_ge
  have hlength := length_load disk (lba*dev.blksz) (1*dev.blksz)
  generalize load disk (lba*dev.blksz) (1*dev.blksz) = b at hlength ⊢
  have hb : b = b.take 16 ++ ((b.drop 16).take 4 ++ b.drop 20) := by
    have hdrop := List.take_append_drop 4 (b.drop 16)
    rw [List.drop_drop] at hdrop
    rw [hdrop, List.take_append_drop]
  have hpatch := load_patch ram.memory ram.head (b.take 16) ((b.drop 16).take 4) [0, 0, 0, 0]
    (b.drop 20) (by simp; omega)
  rw [← hb, hlength, Nat.one_mul, List.length_take, Nat.min_eq_left (by omega)] at hpatch
  rw [load_take _ _ hsize, hpatch, List.append_assoc]

theorem gpt_isGptValid_eq {lba : ℕ} {c : Checked} (hvalid : isGptValid dev ram disk lba = some c)
    (hfits : Fits dev (headerOnDisk dev disk lba)) :
    Gpt.isGptValid dev disk lba =
      some (headerOnDisk dev disk lba, load c.memory c.pte c.allocated) := by
  have ha := accepted_of_valid hvalid
  have hheader : gptHeader (load disk (lba*dev.blksz) (1*dev.blksz)) =
      headerOnDisk dev disk lba := by
    rw [headerOnDisk, Nat.one_mul]
  have hhead := ha.headCrc
  have harray := ha.arrayCrc
  rw [load_zeroed _ _ hfits.headerSize] at hhead
  rw [load_take _ _ ha.allocated] at harray
  rw [Gpt.isGptValid, ha.block]
  simp only [Option.bind_eq_bind, Option.bind_some]
  rw [hheader, if_neg (not_not.2 ha.signature), if_neg (not_not.2 hhead),
    if_neg (not_not.2 ha.myLba), if_neg (Nat.not_lt.2 ha.firstUsableLba),
    if_neg (Nat.not_lt.2 ha.lastUsableLba), ha.entries, Option.bind_some]
  exact if_neg (not_not.2 harray)

/-- A lookup in a table that fits says what stands on the disk, whatever the memory held. -/
theorem lookup_from_disk (part : ℕ) {c : Checked}
    (hvalid : isGptValid dev ram disk gptPrimaryPartitionTableLba = some c)
    (hfits : Fits dev (headerOnDisk dev disk gptPrimaryPartitionTableLba)) :
    getPartitionInfoEfi dev ram disk part = Gpt.getPartitionInfoEfi dev disk part := by
  have ha := accepted_of_valid hvalid
  rw [getPartitionInfoEfi, hvalid, Gpt.getPartitionInfoEfi, gpt_isGptValid_eq hvalid hfits]
  simp only [Option.bind_eq_bind, Option.bind_some]
  rw [indexed, ha.header]
  by_cases hone : part < 1
  · rw [if_pos (.inl hone), if_pos hone]
    rfl
  by_cases hnum : part > (headerOnDisk dev disk gptPrimaryPartitionTableLba).numPartitionEntries
  · rw [if_pos (.inr hnum), if_neg hone, if_pos (.inl hnum)]
    rfl
  have hinside : (part-1)*sizeofGptEntry+sizeofGptEntry ≤ c.allocated := by
    have hentries := hfits.entries
    have hallocated := ha.allocated
    simp only [sizeofGptEntry] at hentries ⊢
    omega
  have hload : load c.memory (c.pte+(part-1)*sizeofGptEntry) sizeofGptEntry =
      ((load c.memory c.pte c.allocated).drop ((part-1)*sizeofGptEntry)).take sizeofGptEntry := by
    obtain ⟨r, hr⟩ := Nat.exists_eq_add_of_le hinside
    rw [hr, Nat.add_assoc, load_add, List.drop_left' (length_load _ _ _), load_add,
      List.take_left' (length_load _ _ _)]
  rw [if_neg (not_or.2 ⟨hone, hnum⟩), if_neg hone, Option.bind_some, hload]
  by_cases hunused : (((load c.memory c.pte c.allocated).drop ((part-1)*sizeofGptEntry)).take
      sizeofGptEntry).take 16 = List.replicate 16 0
  · rw [if_pos hunused, if_pos (.inr hunused)]
  · rw [if_neg hunused, if_neg (not_or.2 ⟨hnum, hunused⟩)]
    rfl

/-- Entries of at least the size of the structure, of which the array is below 4 GiB. -/
theorem fits_of_large (h : GptHeader) (hsize : h.headerSize ≤ dev.blksz)
    (hentry : sizeofGptEntry ≤ h.sizeofPartitionEntry)
    (harray : h.numPartitionEntries*h.sizeofPartitionEntry < 2^32) : Fits dev h where
  headerSize := hsize
  entries := by
    rw [entryBytes, Nat.mod_eq_of_lt harray]
    exact Nat.mul_le_mul_left _ hentry

/-! ## A table of five bytes -/

def smallEntries : GptHeader :=
  { signature := gptHeaderSignature, revision := gptHeaderRevisionV1, headerSize := 0,
    headerCrc32 := 0, myLba := 1, alternateLba := 0, firstUsableLba := 0, lastUsableLba := 0,
    diskGuid := List.replicate 16 0, partitionEntryLba := 2, numPartitionEntries := 5,
    sizeofPartitionEntry := 1, partitionEntryArrayCrc32 := 0xc622f71d }

def threeBlocks : BlockDev where
  blksz := 512
  lba := 3
  writeFails _ _ := false
  blksz_ge := le_rfl
  lba_lt := by decide

def freeRam : Ram threeBlocks where
  memory _ := 0
  head := 0
  memalign _ := some 512
  apart _ _ h := .inl (Option.some.inj h).le

def smallDisk : Memory := fun a => if a < 512 then 0 else smallEntries.bytes.getD (a-512) 0

theorem small_valid : (isGptValid threeBlocks freeRam smallDisk 1).isSome := by
  decide +kernel

theorem sound_iff_fits_small : ∃ c, isGptValid threeBlocks freeRam smallDisk 1 = some c ∧
    (Sound threeBlocks freeRam c ↔ Fits threeBlocks (headerOnDisk threeBlocks smallDisk 1)) := by
  obtain ⟨c, hc⟩ := Option.isSome_iff_exists.1 small_valid
  exact ⟨c, hc, sound_iff_fits hc⟩

theorem entry_outside : ∃ c, isGptValid threeBlocks freeRam smallDisk 1 = some c ∧
    ¬Sound threeBlocks freeRam c := by
  obtain ⟨c, hc⟩ := Option.isSome_iff_exists.1 small_valid
  refine ⟨c, hc, fun hsound => ?_⟩
  exact absurd (fits_of_sound hc hsound).entries (by decide +kernel)

end UBoot.GptBounds
