import UBoot.DoimageLayout

/-!
# The block of a boot image

The main header says how long the block of headers is, how many extension headers follow
and where the image stands. A reader who goes by these fields finds what was asked for
exactly when the sources and the image are `Faithful`.
-/

set_option autoImplicit false

namespace UBoot.Doimage

open LittleEndian

/-! ## The fields of the main header -/

theorem fieldAt_skip (a b : Bytes) (offset n : ℕ) (h : a.length ≤ offset) :
    fieldAt (a ++ b) offset n = fieldAt b (offset-a.length) n := by
  rw [fieldAt, fieldAt, List.drop_append, List.drop_eq_nil_of_le h, List.nil_append]

theorem fieldAt_front (n v : ℕ) (rest : Bytes) : fieldAt (le n v ++ rest) 0 n = v % 256^n :=
  fieldAt_le [] rest 0 n v rfl

theorem length_leWord (w : UInt32) : (leWord w).length = 4 := length_le 4 _

def nandBytes (opt : UserOptions) : Bytes :=
  if opt.imageType = .nand then le 1 opt.nandBlkSize.toNat ++ [if opt.nandSlc then 0 else 1] else [0, 0]

theorem length_nandBytes (opt : UserOptions) : (nandBytes opt).length = 2 := by
  unfold nandBytes
  split_ifs
  · rfl
  · rfl
  · rfl

/-- The length of the block of headers. -/
def mainHdrLen (b : Bytes) : ℕ := fieldAt b 9 1*65536+fieldAt b 10 2

section MainHeader
variable (opt : UserOptions) (size headerSize ext : ℕ) (checkSum : UInt8) (rest : Bytes)

/-- The main header in front of its sum. -/
def mainFields : Bytes :=
  [opt.imageType.blockId, 0, 0, 0] ++ (le 4 (imageSize opt size) ++ ([1] ++
    (le 1 (headerSize/65536) ++ (le 2 headerSize ++ (le 4 (sourceAddr opt headerSize) ++
    (leWord opt.imageDest ++ (leWord opt.imageExec ++ ([0] ++ (nandBytes opt ++
    ([0, 0, 0] ++ le 1 ext))))))))))

theorem mainHeader_fields : mainHeader opt size headerSize ext checkSum =
    mainFields opt size headerSize ext ++ [checkSum] := by
  simp only [mainHeader, mainFields, nandBytes, List.append_assoc]

theorem length_mainFields : (mainFields opt size headerSize ext).length = 31 := by
  simp only [mainFields, List.length_append, length_le, length_leWord, length_nandBytes,
    List.length_cons, List.length_nil]

theorem length_mainHeader : (mainHeader opt size headerSize ext checkSum).length = 32 := by
  rw [mainHeader_fields, List.length_append, length_mainFields]
  rfl

theorem mainHeader_field (offset n : ℕ) (h : offset+n ≤ 31) :
    fieldAt (mainHeader opt size headerSize ext checkSum ++ rest) offset n =
      fieldAt (mainFields opt size headerSize ext) offset n := by
  rw [mainHeader_fields, List.append_assoc, fieldAt_append _ _ _ _ (by rwa [length_mainFields])]

theorem mainHeader_imageSize (h : imageSize opt size < 4294967296) :
    fieldAt (mainHeader opt size headerSize ext checkSum ++ rest) 4 4 = imageSize opt size := by
  rw [mainHeader_field _ _ _ _ _ _ _ _ (by omega), mainFields]
  simp (disch := simp) only [fieldAt_skip, List.length_cons, List.length_nil]
  rw [show 4-(0+1+1+1+1) = 0 from rfl, fieldAt_front]
  exact Nat.mod_eq_of_lt h

theorem mainHeader_headerSize (h : headerSize < 16777216) :
    mainHdrLen (mainHeader opt size headerSize ext checkSum ++ rest) = headerSize := by
  have hmsb : fieldAt (mainFields opt size headerSize ext) 9 1 = headerSize/65536 % 256^1 := by
    rw [mainFields]
    simp (disch := simp) only [fieldAt_skip, length_le, List.length_cons, List.length_nil]
    exact fieldAt_front 1 _ _
  have hlsb : fieldAt (mainFields opt size headerSize ext) 10 2 = headerSize % 256^2 := by
    rw [mainFields]
    simp (disch := simp) only [fieldAt_skip, length_le, List.length_cons, List.length_nil]
    exact fieldAt_front 2 _ _
  rw [mainHdrLen, mainHeader_field _ _ _ _ _ _ _ _ (by omega),
    mainHeader_field _ _ _ _ _ _ _ _ (by omega), hmsb, hlsb]
  omega

theorem mainHeader_sourceAddr (h : sourceAddr opt headerSize < 4294967296) :
    fieldAt (mainHeader opt size headerSize ext checkSum ++ rest) 12 4 =
      sourceAddr opt headerSize := by
  rw [mainHeader_field _ _ _ _ _ _ _ _ (by omega), mainFields]
  simp (disch := simp) only [fieldAt_skip, length_le, List.length_cons, List.length_nil]
  rw [show 12-(0+1+1+1+1)-4-(0+1)-1-2 = 0 from rfl, fieldAt_front]
  exact Nat.mod_eq_of_lt h

theorem mainHeader_ext (h : ext ≤ 255) :
    fieldAt (mainHeader opt size headerSize ext checkSum ++ rest) 30 1 = ext := by
  rw [mainHeader_field _ _ _ _ _ _ _ _ (by omega), mainFields]
  simp (disch := simp [length_leWord, length_nandBytes]) only [fieldAt_skip, length_le,
    length_leWord, length_nandBytes, List.length_cons, List.length_nil]
  have hfield := fieldAt_front 1 ext []
  rw [List.append_nil] at hfield
  rw [show 30-(0+1+1+1+1)-4-(0+1)-1-2-4-4-4-(0+1)-2-(0+1+1+1) = 0 from rfl, hfield]
  omega

theorem mainHeader_checkSum :
    (mainHeader opt size headerSize ext checkSum ++ rest).getD 31 0 = checkSum := by
  rw [mainHeader_fields, List.append_assoc,
    List.getD_append_right _ _ _ _ (by rw [length_mainFields]), length_mainFields]
  rfl

theorem mainHeader_cleared :
    (mainHeader opt size headerSize ext checkSum ++ rest).set 31 0 =
      mainHeader opt size headerSize ext 0 ++ rest := by
  rw [mainHeader_fields, mainHeader_fields, List.append_assoc, List.append_assoc,
    List.set_append_right _ _ (by rw [length_mainFields]), length_mainFields]
  rfl

end MainHeader

/-! ## Where the image stands -/

theorem or_add_and (x m : ℕ) : (x ||| m)+(x &&& m) = x+m := by
  induction x using Nat.strong_induction_on generalizing m with
  | _ x ih =>
    rcases Nat.eq_zero_or_pos x with rfl | hx
    · rw [Nat.zero_or, Nat.zero_and, Nat.add_zero, Nat.zero_add]
    · have hhalf := ih (x/2) (by omega) (m/2)
      have hor : (x ||| m)/2 = x/2 ||| m/2 := Nat.or_div_two
      have hand : (x &&& m)/2 = x/2 &&& m/2 := Nat.and_div_two
      have hor1 : (x ||| m) % 2 = 1 ↔ x % 2 = 1 ∨ m % 2 = 1 := Nat.or_mod_two_eq_one
      have hand1 : (x &&& m) % 2 = 1 ↔ x % 2 = 1 ∧ m % 2 = 1 := Nat.and_mod_two_eq_one
      omega

/-- What is filled up does not become shorter. -/
theorem alignHeader_ge (opt : UserOptions) (n : ℕ) (hn : n < 4294967296)
    (h : alignHeader opt n ≠ 0) : n ≤ alignHeader opt n := by
  unfold alignHeader at h ⊢
  cases ht : opt.imageType with
  | nand =>
    rw [ht] at h
    dsimp only at h ⊢
    have hpage := opt.nandPageSize.toNat_lt
    by_cases hp : opt.nandPageSize.toNat = 0
    · rw [hp, show ((0+4294967295) % 4294967296 : ℕ) = 2^32-1 from rfl,
        Nat.and_two_pow_sub_one_of_lt_two_pow hn] at h
      omega
    · rw [show (opt.nandPageSize.toNat+4294967295) % 4294967296 = opt.nandPageSize.toNat-1 by omega] at h ⊢
      have hsum := or_add_and n (opt.nandPageSize.toNat-1)
      have hor : n ||| (opt.nandPageSize.toNat-1) < 2^32 := Nat.or_lt_two_pow hn (by omega)
      have hle : n ≤ n ||| (opt.nandPageSize.toNat-1) := Nat.left_le_or
      omega
  | sata => dsimp only; omega
  | mmc => dsimp only; omega
  | uart => dsimp only; omega
  | flash => exact le_rfl
  | pex => exact le_rfl
  | i2c => exact le_rfl

theorem sourceAddr_eq (opt : UserOptions) (n : ℕ) (ht : opt.imageType ≠ .sata)
    (hn : n ≤ maxHeaderSize) :
    sourceAddr opt n = n+imgGap opt n ∧ sourceAddr opt n < 4294967296 := by
  have hsrc := opt.imageSource.toNat_lt
  unfold maxHeaderSize at hn
  unfold sourceAddr
  rw [if_neg ht]
  refine ⟨rfl, ?_⟩
  unfold imgGap
  rw [if_neg ht]
  split_ifs
  all_goals omega

/-! ## What is asked for -/

@[grind]
def Paired : List UInt32 → Prop
  | [] => True
  | [_] => False
  | a::b::ws => (a ≠ 0 ∨ b ≠ 0) ∧ Paired ws

/-- A file of whole words, or pairs of words none of which is a pair of zeros. -/
def Source.Whole : Source → Prop
  | .reg words => Paired words
  | .bin file => file.length % 4 = 0

/-- The header that a reader should find for a source. -/
def Source.entry : Source → UInt8 × Bytes
  | .reg words => (3, words.flatMap leWord)
  | .bin file => (2, file)

structure Faithful (opt : UserOptions) (image : Bytes) : Prop where
  sources : ∀ s ∈ opt.sources, s.Whole
  sum : opt.imageType = .uart → Contiguous opt image ∧ SumsUp (paddedImage opt image)

def secEntries (opt : UserOptions) (payload : Bytes) : List (UInt8 × Bytes) :=
  if opt.security.isSome then [(1, payload)] else []

/-- What a reader of the format finds in the output. -/
structure Layout (opt : UserOptions) (image : Bytes) (o : Output) : Prop where
  headers : ∃ payload : Bytes, payload.length = 1052 ∧
    walk (fieldAt o.block 30 1) ((o.block.take (mainHdrLen o.block)).drop 32) =
      some (secEntries opt payload ++ opt.sources.map Source.entry)
  sum : checksum8 ((o.block.take (mainHdrLen o.block)).set 31 0) = o.block.getD 31 0
  image : (o.block.drop (fieldAt o.block 12 4)).take (fieldAt o.block 4 4) = expectedImage opt image

theorem leWord_length (ws : List UInt32) : (ws.flatMap leWord).length = 4*ws.length := by
  induction ws with
  | nil => rfl
  | cons w ws ih =>
    rw [List.flatMap_cons, List.length_append, ih, length_leWord, List.length_cons]
    ring

theorem regWords_whole (ws : List UInt32) : (regWords ws).length = ws.length ↔ Paired ws := by
  induction ws using regWords.induct with
  | case1 => simp [regWords, Paired]
  | case2 => simp [regWords, Paired]
  | case3 a h => simp [regWords, Paired, h]
  | case4 a b ws h => simp [regWords, Paired, h]
  | case5 a b ws h ih =>
    rw [regWords, if_neg h, Paired, ← ih]
    have hne : a ≠ 0 ∨ b ≠ 0 := by
      by_contra hnot
      push Not at hnot
      exact h hnot
    simp [hne]

theorem regWords_paired (ws : List UInt32) (h : Paired ws) : regWords ws = ws := by
  induction ws using regWords.induct with
  | case1 => rfl
  | case2 => exact absurd h id
  | case3 a ha => exact absurd h id
  | case4 a b ws hab => exact absurd h.1 (by simp [hab])
  | case5 a b ws hab ih => rw [regWords, if_neg hab, ih h.2]

/-- The header built from a source carries it exactly when the source is whole. -/
theorem ext_entry (s : Source) : s.ext.entry = s.entry ↔ s.Whole := by
  cases s with
  | reg words =>
    change ((3 : UInt8), (regWords words).flatMap leWord) = (3, words.flatMap leWord) ↔ Paired words
    constructor
    · intro h
      have hlen := congrArg (fun e => e.2.length) h
      dsimp only at hlen
      rw [leWord_length, leWord_length] at hlen
      exact (regWords_whole words).1 (by omega)
    · intro h
      rw [regWords_paired words h]
  | bin file =>
    change ((2 : UInt8), file.take (4*(file.length/4))) = (2, file) ↔ file.length % 4 = 0
    constructor
    · intro h
      have hlen := congrArg (fun e => e.2.length) h
      dsimp only at hlen
      rw [List.length_take] at hlen
      omega
    · intro h
      rw [List.take_of_length_le (by omega)]

theorem whole_tail (s : Source) (h : s.Whole) : s.ext.tail.getD 0 0 ≠ 1 := by
  cases s with
  | reg words => exact (by decide : ([0, 0, 0, 0] : Bytes).getD 0 0 ≠ 1)
  | bin file =>
    have hfile : file.length % 4 = 0 := h
    have hdrop : file.drop (4*(file.length/4)) = [] := List.drop_eq_nil_of_le (by omega)
    change ((file.drop (4*(file.length/4)) ++ [0, 0, 0, 0]).take 4).getD 0 0 ≠ 1
    rw [hdrop]
    decide

end UBoot.Doimage
