import UBoot.MtdpartsRoundTrip

/-!
# The buffer of `generate_mtdparts`

What the function leaves in its buffer, also when a piece does not fit any more. The
counter `maxlen` has 32 bits and is taken down for every piece, but not for the nine
characters that the text begins with.
-/

set_option autoImplicit false

namespace UBoot.Mtdparts

/-- The state in the end: `fits` says that 0 is returned. -/
structure Generated where
  maxlen : UInt32
  text : Text
  fits : Bool
deriving DecidableEq, Repr

def writePieces : List Text → UInt32 → Text → Generated
  | [], maxlen, text => ⟨maxlen, text, true⟩
  | piece::pieces, maxlen, text =>
    if maxlen.toNat < piece.length then ⟨maxlen, text, false⟩
    else writePieces pieces (maxlen-UInt32.ofNat piece.length) (text ++ piece)

def generate (devices : List MtdDevice) (buflen : UInt32) : Generated :=
  if devices = [] then ⟨buflen-1, [], true⟩
  else writePieces (devicesPieces devices) (buflen-1) mtdpartsTag

/-- The terminator is written in the end. -/
def Generated.written (g : Generated) : ℕ := g.text.length+(if g.fits then 1 else 0)

def completeText (devices : List MtdDevice) : Text :=
  if devices = [] then [] else mtdpartsTag ++ (devicesPieces devices).flatten

structure InBuffer (devices : List MtdDevice) (buflen : UInt32) : Prop where
  inside : (generate devices buflen).written ≤ buflen.toNat
  counted : (generate devices buflen).maxlen =
    buflen-1-UInt32.ofNat (generate devices buflen).text.length
  full : (generate devices buflen).fits = false → buflen.toNat < (completeText devices).length+1

/-! ## The pieces -/

/-- A round takes the length of its piece from the counter. -/
theorem writePieces_cons (piece : Text) (pieces : List Text) (maxlen : UInt32) (text : Text)
    (h : piece.length ≤ maxlen.toNat) : writePieces (piece::pieces) maxlen text =
      writePieces pieces (maxlen-UInt32.ofNat piece.length) (text ++ piece) :=
  if_neg (Nat.not_lt.mpr h)

theorem toNat_sub_length (maxlen : UInt32) (piece : Text) (h : piece.length ≤ maxlen.toNat) :
    (maxlen-UInt32.ofNat piece.length).toNat = maxlen.toNat-piece.length := by
  have hlt := maxlen.toNat_lt
  have hlen : (UInt32.ofNat piece.length).toNat = piece.length :=
    UInt32.toNat_ofNat_of_lt' (lt_of_le_of_lt h hlt)
  rw [UInt32.toNat_sub_of_le _ _ (by rw [UInt32.le_iff_toNat_le, hlen]; exact h), hlen]

/-- By induction on the pieces: the counter and the text grow together. -/
theorem writePieces_counted (pieces : List Text) (maxlen : UInt32) (text : Text) :
    (writePieces pieces maxlen text).maxlen.toNat+(writePieces pieces maxlen text).text.length =
      maxlen.toNat+text.length := by
  induction pieces generalizing maxlen text with
  | nil => rfl
  | cons piece pieces ih =>
    by_cases h : maxlen.toNat < piece.length
    · rw [writePieces, if_pos h]
    · rw [writePieces_cons piece pieces maxlen text (Nat.le_of_not_lt h), ih,
        toNat_sub_length maxlen piece (Nat.le_of_not_lt h), List.length_append]
      omega

/-! ## The whole text -/

theorem toNat_sub_one (buflen : UInt32) (h : 0 < buflen) : (buflen-1).toNat = buflen.toNat-1 := by
  have hle : (1 : UInt32) ≤ buflen := by
    rw [UInt32.lt_iff_toNat_lt] at h
    rw [UInt32.le_iff_toNat_le]
    exact h
  rw [UInt32.toNat_sub_of_le _ _ hle]
  rfl

/-- Whatever fits is the text that the abstract writer makes. -/
theorem generateMtdparts_eq (devices : List MtdDevice) (buflen : UInt32) (h : 0 < buflen) :
    generateMtdparts devices buflen.toNat =
      if (generate devices buflen).fits then some (generate devices buflen).text else none := by
  unfold generateMtdparts generate
  by_cases hne : devices = []
  · rw [if_pos hne, if_pos hne]
    rfl
  · rw [if_neg hne, if_neg hne, ← toNat_sub_one buflen h]
    generalize devicesPieces devices = pieces
    generalize buflen-1 = maxlen
    generalize mtdpartsTag = text
    induction pieces generalizing maxlen text with
    | nil => rfl
    | cons piece pieces ih =>
      rw [List.foldlM_cons]
      by_cases hlen : maxlen.toNat < piece.length
      · rw [writePieces, if_pos hlen, put, if_pos hlen]
        rfl
      · rw [writePieces_cons piece pieces maxlen text (Nat.le_of_not_lt hlen), put, if_neg hlen, ← ih,
          toNat_sub_length maxlen piece (Nat.le_of_not_lt hlen)]
        rfl

theorem written_le (devices : List MtdDevice) (buflen : UInt32) (h : 0 < buflen) :
    (generate devices buflen).written ≤ buflen.toNat+9 := by
  have hone := toNat_sub_one buflen h
  have hpos : 0 < buflen.toNat := UInt32.lt_iff_toNat_lt.mp h
  unfold generate
  by_cases hne : devices = []
  · rw [if_pos hne]
    change 1 ≤ _
    omega
  · rw [if_neg hne]
    have hcount := writePieces_counted (devicesPieces devices) (buflen-1) mtdpartsTag
    have htag : mtdpartsTag.length = 9 := rfl
    unfold Generated.written
    split_ifs <;> omega

/-- The characters that are not counted are the only ones that can be too many, and what fits is
the text of the abstract writer. -/
theorem overrun_bounded (devices : List MtdDevice) (buflen : UInt32) (h : 0 < buflen) :
    (generate devices buflen).written ≤ buflen.toNat+9 ∧
      generateMtdparts devices buflen.toNat =
        if (generate devices buflen).fits then some (generate devices buflen).text else none :=
  ⟨written_le devices buflen h, generateMtdparts_eq devices buflen h⟩

theorem in_buffer_iff (devices : List MtdDevice) (buflen : UInt32) :
    InBuffer devices buflen ↔ devices = [] ∧ 0 < buflen := by
  constructor
  · intro h
    by_cases hne : devices = []
    · have hin := h.inside
      rw [generate, if_pos hne] at hin
      exact ⟨hne, UInt32.lt_iff_toNat_lt.mpr hin⟩
    · -- the nine characters in front are not counted
      exfalso
      have hcount := writePieces_counted (devicesPieces devices) (buflen-1) mtdpartsTag
      have hc := h.counted
      rw [generate, if_neg hne] at hc
      have htag : mtdpartsTag.length = 9 := rfl
      generalize writePieces (devicesPieces devices) (buflen-1) mtdpartsTag = g at hc hcount
      have hlt := g.maxlen.toNat_lt
      have hbuf := (buflen-1).toNat_lt
      have hnat := congrArg UInt32.toNat hc
      rw [UInt32.toNat_sub, UInt32.toNat_ofNat'] at hnat
      omega
  · rintro ⟨rfl, hpos⟩
    have hin : 0 < buflen.toNat := UInt32.lt_iff_toNat_lt.mp hpos
    refine ⟨hin, ?_, ?_⟩
    · exact (UInt32.sub_zero (buflen-1)).symm
    · intro h
      cases h

/-- One partition of one device, in a buffer of five characters. -/
def onePartition : List MtdDevice :=
  [⟨⟨.nand, 0, 65536, ['n']⟩, [⟨[], true, 4096, 0, 0⟩]⟩]

theorem overrun_bounded_five : (generate onePartition 5).written ≤ 5+9 ∧
    generateMtdparts onePartition 5 =
      if (generate onePartition 5).fits then some (generate onePartition 5).text else none :=
  overrun_bounded onePartition 5 (by decide)

theorem five_characters_overrun : ¬∀ devices buflen, InBuffer devices buflen := by
  intro h
  exact absurd (h onePartition 5).inside (by decide)

end UBoot.Mtdparts
