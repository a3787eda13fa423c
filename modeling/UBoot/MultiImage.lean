import UBoot.BootKernel

/-!
# Multi-file images: `image_multi_count` and `image_multi_getimg` of `common/image.c`

The data area starts with a table of sizes, which a zero word ends. Neither
function looks at the size in the header: the parts lie where the table says,
and are inside the data area when the table and the parts fit into it.
-/

set_option autoImplicit false

namespace UBoot.MultiImage
open UBoot.Fdt
open UBoot.Crc32 (crc32 crc32_append)
open UBoot.Fit (imageGetSize imageMultiCount imageCheckHcrc imageCheckDcrc imageGetType ihTypeMulti)

/-- The number of words of the memory. -/
def words : ℕ := 1073741824

/-- `size[i]` -/
def size (b : Blob) (i : ℕ) : ℕ := fdt32 b (64+4*i)

/-- `(size + 3) & ~3` -/
def rounded (s : ℕ) : ℕ := w32 (s+3)/4*4

/-- The loop over the parts in front of the requested one. -/
def offset (b : Blob) : ℕ → ℕ
  | 0 => 0
  | i+1 => w32 (offset b i+rounded (size b i))

/-- The address and the length of a part, for a data area at `data`. -/
def imageMultiGetimg (b : Blob) (data idx : ℕ) : Option (ℕ × ℕ) := do
  let count ← imageMultiCount b words 0
  let imgData := w32 (data+(count+1)*4)
  if idx < count then return (w32 (imgData+offset b idx), size b idx) else return (0, 0)

/-- The words that the loop of `image_multi_count` reads, as offsets into the data area. -/
def countReads (b : Blob) : ℕ → ℕ → List ℕ
  | 0, _ => []
  | fuel+1, i => 4*i::if size b i = 0 then [] else countReads b fuel (i+1)

/-- The words that `image_multi_getimg` reads. -/
def getimgReads (b : Blob) (idx : ℕ) : List ℕ :=
  countReads b words 0 ++
    match imageMultiCount b words 0 with
    | none => []
    | some count => if idx < count then 4*idx::(List.range idx).map (4*·) else []

/-! ## The table -/

/-- The first zero word is entry `n`. -/
def Ends (b : Blob) (n : ℕ) : Prop := (∀ i < n, size b i ≠ 0) ∧ size b n = 0

theorem imageMultiCount_succ (b : Blob) (fuel i : ℕ) : imageMultiCount b (fuel+1) i =
    if size b i = 0 then some i else imageMultiCount b fuel (i+1) := rfl

theorem count_some (b : Blob) (fuel i n : ℕ) (h : imageMultiCount b fuel i = some n) :
    i ≤ n ∧ n < i+fuel ∧ (∀ j, i ≤ j → j < n → size b j ≠ 0) ∧ size b n = 0 ∧
      countReads b fuel i = (List.range' i (n+1-i)).map (4*·) := by
  induction fuel generalizing i with
  | zero => exact absurd h (by simp [imageMultiCount])
  | succ fuel ih =>
    rw [imageMultiCount_succ] at h
    rw [countReads]
    by_cases hz : size b i = 0
    · rw [if_pos hz] at h
      obtain rfl := Option.some.inj h
      refine ⟨le_refl i, by omega, fun j h₁ h₂ => by omega, hz, ?_⟩
      rw [if_pos hz, show i+1-i = 1 by omega]
      rfl
    · rw [if_neg hz] at h
      obtain ⟨hle, hlt, hne, h0, hr⟩ := ih (i+1) h
      refine ⟨by omega, by omega, ?_, h0, ?_⟩
      · intro j h₁ h₂
        rcases Nat.eq_or_lt_of_le h₁ with rfl | h₁
        · exact hz
        · exact hne j h₁ h₂
      · rw [if_neg hz, hr, show n+1-i = (n+1-(i+1))+1 by omega, List.range'_succ, List.map_cons]

theorem count_of_ends (b : Blob) (fuel i n : ℕ) (hi : i ≤ n) (hn : n < i+fuel)
    (hne : ∀ j, i ≤ j → j < n → size b j ≠ 0) (h0 : size b n = 0) :
    imageMultiCount b fuel i = some n := by
  induction fuel generalizing i with
  | zero => omega
  | succ fuel ih =>
    rw [imageMultiCount_succ]
    rcases Nat.eq_or_lt_of_le hi with rfl | hlt
    · exact if_pos h0
    · rw [if_neg (hne i (le_refl i) hlt)]
      exact ih (i+1) hlt (by omega) fun j h₁ h₂ => hne j (by omega) h₂

theorem ends_of_count (b : Blob) (n : ℕ) (h : imageMultiCount b words 0 = some n) : Ends b n := by
  obtain ⟨-, -, hne, h0, -⟩ := count_some b words 0 n h
  exact ⟨fun i hi => hne i (Nat.zero_le i) hi, h0⟩

/-! ## The parts -/

def alignUp (n : ℕ) : ℕ := (n+3)/4*4

/-- What the parts in front of a part take. -/
def span (b : Blob) : ℕ → ℕ
  | 0 => 0
  | i+1 => span b i+alignUp (size b i)

/-- The table and the parts fit into the data area. -/
structure Fits (b : Blob) (n : ℕ) : Prop where
  ends : Ends b n
  table : 4*(n+1) ≤ imageGetSize b
  parts : ∀ i, i+1 = n → 4*(n+1)+span b i+size b i ≤ imageGetSize b

def part (b : Blob) (data : UInt32) (idx : ℕ) : ℕ × ℕ :=
  (imageMultiGetimg b data.toNat idx).getD (0, 0)

/-- Where a part starts in the data area. -/
def start (b : Blob) (data : UInt32) (idx : ℕ) : ℕ := minus (part b data idx).1 data.toNat

def len (b : Blob) (data : UInt32) (idx : ℕ) : ℕ := (part b data idx).2

/-- The parts stand one behind another in the data area, and nothing outside it is read. -/
structure Regular (b : Blob) (data : UInt32) (count : ℕ) : Prop where
  counted : imageMultiCount b words 0 = some count
  first : 0 < count → start b data 0 = 4*(count+1)
  next : ∀ i, i+1 < count → start b data (i+1) = alignUp (start b data i+len b data i)
  apart : ∀ i j, i < j → j < count → start b data i+len b data i ≤ start b data j
  behind : ∀ i < count, 4*(count+1) ≤ start b data i
  inside : ∀ i < count, start b data i+len b data i ≤ imageGetSize b
  beyond : ∀ i, count ≤ i → imageMultiGetimg b data.toNat i = some (0, 0)
  reads : ∀ idx, ∀ r ∈ getimgReads b idx, r+4 ≤ imageGetSize b

theorem minus_add (d x y : ℕ) (hd : d < 4294967296) : minus (w32 (w32 (d+x)+y)) d = w32 (x+y) := by
  unfold minus w32
  omega

theorem part_below (b : Blob) (data : UInt32) (n i : ℕ) (h : imageMultiCount b words 0 = some n)
    (hi : i < n) : start b data i = w32 (4*(n+1)+offset b i) ∧ len b data i = size b i := by
  have hp : part b data i = (w32 (w32 (data.toNat+(n+1)*4)+offset b i), size b i) := by
    simp only [part, imageMultiGetimg, h, Option.bind_eq_bind, Option.bind_some, hi, ↓reduceIte]
    rfl
  constructor
  · rw [start, hp, minus_add _ _ _ data.toNat_lt, Nat.mul_comm]
  · rw [len, hp]

theorem span_mono (b : Blob) (i j : ℕ) (h : i ≤ j) : span b i ≤ span b j := by
  induction h with
  | refl => exact le_refl _
  | step _ ih => exact le_trans ih (Nat.le_add_right _ _)

theorem span_succ_le (b : Blob) (i j : ℕ) (h : i < j) : span b i+size b i ≤ span b j := by
  have hs : span b (i+1) = span b i+alignUp (size b i) := rfl
  have := span_mono b (i+1) j h
  unfold alignUp at hs
  omega

theorem span_aligned (b : Blob) (i : ℕ) : 4 ∣ span b i := by
  induction i with
  | zero => exact dvd_zero 4
  | succ i ih => exact Nat.dvd_add ih (Nat.dvd_mul_left 4 _)

/-- Without a wrap the offsets are the sums of the sizes before. -/
theorem offset_eq_span (b : Blob) (i : ℕ) (h : span b i < 4294967296) :
    offset b i = span b i := by
  induction i with
  | zero => rfl
  | succ i ih =>
    have hs : span b (i+1) = span b i+alignUp (size b i) := rfl
    have hr : rounded (size b i) = alignUp (size b i) := by
      unfold alignUp at hs
      rw [rounded, alignUp, w32_of_lt _ (by omega)]
    rw [offset, ih (by omega), hr, ← hs, w32_of_lt _ h]

theorem alignUp_span (b : Blob) (n i : ℕ) :
    alignUp (4*(n+1)+span b i+size b i) = 4*(n+1)+span b (i+1) := by
  have hs : span b (i+1) = span b i+alignUp (size b i) := rfl
  obtain ⟨k, hk⟩ := span_aligned b i
  unfold alignUp at hs ⊢
  omega

theorem mem_getimgReads (b : Blob) (n : ℕ) (h : imageMultiCount b words 0 = some n) (idx r : ℕ)
    (hr : r ∈ getimgReads b idx) : ∃ k ≤ n, r = 4*k := by
  rw [getimgReads, h, (count_some b words 0 n h).2.2.2.2, List.mem_append] at hr
  rcases hr with hr | hr
  · obtain ⟨k, hk, rfl⟩ := List.mem_map.mp hr
    exact ⟨k, by simp only [List.mem_range'_1] at hk; omega, rfl⟩
  · dsimp only at hr
    split at hr
    · rcases List.mem_cons.mp hr with rfl | hr
      · exact ⟨idx, by omega, rfl⟩
      · obtain ⟨k, hk, rfl⟩ := List.mem_map.mp hr
        have := List.mem_range.mp hk
        exact ⟨k, by omega, rfl⟩
    · cases hr

theorem table_read (b : Blob) (n : ℕ) (h : imageMultiCount b words 0 = some n) (idx : ℕ) :
    4*n ∈ getimgReads b idx := by
  rw [getimgReads, (count_some b words 0 n h).2.2.2.2]
  refine List.mem_append_left _ (List.mem_map.mpr ⟨n, ?_, rfl⟩)
  rw [List.mem_range'_1]
  omega

theorem Fits.counted (b : Blob) (n : ℕ) (h : Fits b n) : imageMultiCount b words 0 = some n := by
  have hs : imageGetSize b < 4294967296 := fdt32_lt b 12
  have ht := h.table
  have hn : n < 0+words := by
    unfold words
    omega
  exact count_of_ends b words 0 n (Nat.zero_le n) hn (fun j _ hj => h.ends.1 j hj) h.ends.2

theorem Fits.part (b : Blob) (data : UInt32) (n : ℕ) (h : Fits b n) (i : ℕ) (hi : i < n) :
    start b data i = 4*(n+1)+span b i ∧ len b data i = size b i ∧
      4*(n+1)+span b i+size b i ≤ imageGetSize b := by
  have hs : imageGetSize b < 4294967296 := fdt32_lt b 12
  have hin : 4*(n+1)+span b i+size b i ≤ imageGetSize b := by
    have hlast := h.parts (n-1) (by omega)
    rcases Nat.eq_or_lt_of_le (Nat.le_sub_one_of_lt hi) with rfl | hlt
    · exact hlast
    · have := span_succ_le b i (n-1) hlt
      omega
  obtain ⟨hst, hl⟩ := part_below b data n i h.counted hi
  refine ⟨?_, hl, hin⟩
  rw [hst, offset_eq_span b i (by omega), w32_of_lt _ (by omega)]

theorem Fits.regular (b : Blob) (data : UInt32) (n : ℕ) (h : Fits b n) : Regular b data n := by
  have hp := h.part b data n
  constructor
  case counted => exact h.counted
  case first =>
    intro hn
    exact (hp 0 hn).1
  case next =>
    intro i hi
    rw [(hp (i+1) hi).1, (hp i (by omega)).1, (hp i (by omega)).2.1, alignUp_span]
  case apart =>
    intro i j hij hj
    have := span_succ_le b i j hij
    rw [(hp j hj).1, (hp i (by omega)).1, (hp i (by omega)).2.1]
    omega
  case behind =>
    intro i hi
    rw [(hp i hi).1]
    exact Nat.le_add_right _ _
  case inside =>
    intro i hi
    rw [(hp i hi).1, (hp i hi).2.1]
    exact (hp i hi).2.2
  case beyond =>
    intro i hi
    simp only [imageMultiGetimg, h.counted, Option.bind_eq_bind, Option.bind_some,
      show ¬i < n by omega, ↓reduceIte]
    rfl
  case reads =>
    intro idx r hr
    obtain ⟨k, hk, rfl⟩ := mem_getimgReads b n h.counted idx r hr
    have := h.table
    omega

theorem Regular.start (b : Blob) (data : UInt32) (n : ℕ) (h : Regular b data n) (i : ℕ)
    (hi : i < n) : start b data i = 4*(n+1)+span b i := by
  induction i with
  | zero => exact h.first hi
  | succ i ih =>
    rw [h.next i hi, ih (by omega), (part_below b data n i h.counted (by omega)).2, alignUp_span]

theorem Regular.fits (b : Blob) (data : UInt32) (n : ℕ) (h : Regular b data n) : Fits b n := by
  constructor
  case ends => exact ends_of_count b n h.counted
  case table =>
    have := h.reads 0 _ (table_read b n h.counted 0)
    omega
  case parts =>
    intro i hi
    have hin := h.inside i (by omega)
    rwa [h.start b data n i (by omega), (part_below b data n i h.counted (by omega)).2] at hin

/-- The parts of an image are regular when the table ends in the data area and the last part
does. -/
theorem parts_regular_iff (b : Blob) (data : UInt32) :
    (∃ n, Regular b data n) ↔ ∃ n, Fits b n := by
  constructor
  · rintro ⟨n, h⟩
    exact ⟨n, Regular.fits b data n h⟩
  · rintro ⟨n, h⟩
    exact ⟨n, Fits.regular b data n h⟩

/-- A multi-file image with good checksums: its table has one part of 100 bytes, and the data
area ends behind the table. -/
def tableOnly : Blob := ofWords
  [0x27051956, 0xf30d8a4b, 0, 8, 0x8000, 0x8000, 0x9900ee4, 0x5020400, 0, 0, 0, 0, 0, 0, 0, 0,
    100, 0]

theorem tableOnly_hcrc : imageCheckHcrc tableOnly = true := by
  have hparts : memory tableOnly 0 4 ++ [0, 0, 0, 0] ++ memory tableOnly 8 56 =
      [39, 5, 25, 86, 0, 0, 0, 0, 0, 0, 0, 0, 0, 0, 0, 8] ++
        ([0, 0, 128, 0, 0, 0, 128, 0, 9, 144, 14, 228, 5, 2, 4, 0] ++
          (List.replicate 16 0 ++ List.replicate 16 0)) := by decide +kernel
  have h1 : crc32 0 [39, 5, 25, 86, 0, 0, 0, 0, 0, 0, 0, 0, 0, 0, 0, 8] = 0x5aaad564 := by decide +kernel
  have h2 : crc32 0x5aaad564 [0, 0, 128, 0, 0, 0, 128, 0, 9, 144, 14, 228, 5, 2, 4, 0] = 0x7f3e5662 := by
    decide +kernel
  have h3 : crc32 0x7f3e5662 (List.replicate 16 0) = 0x3f06bf4 := by decide +kernel
  have h4 : crc32 0x3f06bf4 (List.replicate 16 0) = 0xf30d8a4b := by decide +kernel
  rw [imageCheckHcrc, hparts, crc32_append, crc32_append, crc32_append, h1, h2, h3, h4]
  decide +kernel

/-- The part starts at the end of the data area. -/
theorem part_outside :
    imageCheckHcrc tableOnly = true ∧ imageCheckDcrc tableOnly = true ∧
      imageGetType tableOnly = ihTypeMulti ∧
      imageMultiGetimg tableOnly 0x2000040 0 = some (0x2000048, 100) ∧
      imageGetSize tableOnly = 8 ∧ ∀ n, ¬Regular tableOnly 0x2000040 n := by
  have hcount : imageMultiCount tableOnly words 0 = some 1 := by decide +kernel
  refine ⟨tableOnly_hcrc, by decide +kernel, by decide +kernel, by decide +kernel,
    by decide +kernel, ?_⟩
  intro n h
  obtain rfl : 1 = n := Option.some.inj (hcount.symm.trans h.counted)
  exact absurd (h.inside 0 (by decide)) (by decide +kernel)

end UBoot.MultiImage
