import UBoot.DoimageHeaders

/-!
# The layout of a boot image

A reader of the format finds the requested headers, the sum of the header block and the
image as they were asked for exactly when every BIN source is a row of whole words, every
REG source a row of pairs without a pair of zeros, and for a UART image the last word is
the sum of the others.
-/

set_option autoImplicit false

namespace UBoot.Doimage

open LittleEndian

/-! ## The image -/

theorem alignWord_spec (n : ℕ) : n ≤ alignWord n ∧ alignWord n < n+4 ∧ alignWord n % 4 = 0 := by
  unfold alignWord
  split_ifs
  · omega
  · omega

theorem getElem?_overwrite (buf bytes : Bytes) (i j : ℕ) (h : i+bytes.length ≤ buf.length) :
    (overwrite buf i bytes)[j]? =
      if i ≤ j ∧ j < i+bytes.length then bytes[j-i]? else buf[j]? := by
  have hlen : (buf.take i ++ bytes).length = i+bytes.length := by
    rw [List.length_append, List.length_take]
    omega
  have hi : (buf.take i).length = i := by
    rw [List.length_take]
    omega
  unfold overwrite
  by_cases h1 : j < i
  · rw [if_neg (by omega), List.append_assoc, List.getElem?_append_left (by omega),
      List.getElem?_take_of_lt h1]
  · by_cases h2 : j < i+bytes.length
    · rw [if_pos ⟨by omega, h2⟩, List.getElem?_append_left (by omega),
        List.getElem?_append_right (by omega), hi]
    · rw [if_neg (by omega), List.getElem?_append_right (by omega), hlen, List.getElem?_drop,
        show i+bytes.length+(j-(i+bytes.length)) = j by omega]

theorem length_overwrite (buf bytes : Bytes) (i : ℕ) (h : i+bytes.length ≤ buf.length) :
    (overwrite buf i bytes).length = buf.length := by
  simp only [overwrite, List.length_append, List.length_take, List.length_drop]
  omega

theorem overwrite_middle (front old new back : Bytes) (h : new.length = old.length) :
    overwrite (front ++ (old ++ back)) front.length new = front ++ (new ++ back) := by
  rw [overwrite, List.take_left, h, ← List.append_assoc front old back, ← List.length_append,
    List.drop_left, List.append_assoc]

/-- The image between its paddings. -/
def paddedImage (opt : UserOptions) (image : Bytes) : Bytes :=
  List.replicate opt.pre 5 ++ (image ++
    (List.replicate (alignWord (image.length+opt.pre+opt.post)-(image.length+opt.pre+opt.post)) 0 ++
      List.replicate opt.post 10))

/-- What stands at the source address: the sum is behind the image, but for a UART image. -/
def expectedImage (opt : UserOptions) (image : Bytes) : Bytes :=
  if opt.imageType = .uart then paddedImage opt image
  else paddedImage opt image ++ le 4 (checksum32 (paddedImage opt image))

section Image
variable (opt : UserOptions) (image : Bytes)

theorem length_paddedImage :
    (paddedImage opt image).length = alignWord (image.length+opt.pre+opt.post) := by
  have := (alignWord_spec (image.length+opt.pre+opt.post)).1
  simp only [paddedImage, List.length_append, List.length_replicate]
  omega

theorem replicate_split (m n : ℕ) (b : UInt8) :
    List.replicate (m+n) b = List.replicate m b ++ List.replicate n b :=
  (List.replicate_append_replicate).symm

/-- With room for the sum the buffer holds the padded image in front of it. -/
theorem preLoadImage_room (buf : Bytes) (ht : opt.imageType ≠ .uart)
    (h : preLoadImage opt image = some buf) :
    buf = paddedImage opt image ++ [0, 0, 0, 0] := by
  have hal := alignWord_spec (image.length+opt.pre+opt.post)
  have hsize : imageSize opt image.length = opt.pre+(image.length+
      ((alignWord (image.length+opt.pre+opt.post)-(image.length+opt.pre+opt.post))+(opt.post+4))) := by
    rw [imageSize, if_neg ht]
    omega
  have hpad : ∀ back, overwrite (List.replicate opt.pre 5 ++ (List.replicate image.length 0 ++ back))
      opt.pre image = List.replicate opt.pre 5 ++ (image ++ back) := by
    intro back
    have hm := overwrite_middle (List.replicate opt.pre 5) (List.replicate image.length 0) image back
      (by rw [List.length_replicate])
    rwa [List.length_replicate] at hm
  have hfirst : overwrite (List.replicate (imageSize opt image.length) 0) 0 (List.replicate opt.pre 5) =
      List.replicate opt.pre 5 ++ (List.replicate image.length 0 ++
        (List.replicate (alignWord (image.length+opt.pre+opt.post)-(image.length+opt.pre+opt.post)) 0 ++
          (List.replicate opt.post 0 ++ List.replicate 4 0))) := by
    have hm := overwrite_middle [] (List.replicate opt.pre 0) (List.replicate opt.pre 5)
      (List.replicate (image.length+((alignWord (image.length+opt.pre+opt.post)-
        (image.length+opt.pre+opt.post))+(opt.post+4))) 0) (by simp)
    rw [hsize, replicate_split]
    rw [replicate_split image.length, replicate_split _ (opt.post+4), replicate_split opt.post 4] at hm ⊢
    exact hm
  unfold preLoadImage at h
  dsimp only at h
  rw [hfirst] at h
  split_ifs at h with h0 h1
  · cases h
    rw [hpad, h0, paddedImage, h0]
    simp only [List.append_assoc, List.replicate_zero, List.nil_append]
    rfl
  · cases h
    have hpos : imageSize opt image.length-4-opt.post = (List.replicate opt.pre (5 : UInt8) ++
        (List.replicate image.length 0 ++ List.replicate (alignWord
          (image.length+opt.pre+opt.post)-(image.length+opt.pre+opt.post)) 0)).length := by
      simp only [List.length_append, List.length_replicate]
      omega
    have hm := overwrite_middle (List.replicate opt.pre (5 : UInt8) ++
        (List.replicate image.length 0 ++ List.replicate (alignWord
          (image.length+opt.pre+opt.post)-(image.length+opt.pre+opt.post)) 0))
      (List.replicate opt.post 0) (List.replicate opt.post 10) (List.replicate 4 0) (by simp)
    rw [← hpos] at hm
    simp only [List.append_assoc] at hm
    rw [hm, hpad, paddedImage]
    simp only [List.append_assoc]
    rfl

theorem length_preLoadImage (buf : Bytes) (h : preLoadImage opt image = some buf) :
    buf.length = imageSize opt image.length := by
  have hal := (alignWord_spec (image.length+opt.pre+opt.post)).1
  have hsize : alignWord (image.length+opt.pre+opt.post) ≤ imageSize opt image.length :=
    Nat.le_add_right _ _
  have hpre : (overwrite (List.replicate (imageSize opt image.length) 0) 0
      (List.replicate opt.pre 5)).length = imageSize opt image.length := by
    rw [length_overwrite, List.length_replicate]
    rw [List.length_replicate, List.length_replicate]
    omega
  unfold preLoadImage at h
  dsimp only at h
  split_ifs at h with h0 h1
  · cases h
    rw [length_overwrite _ _ _ (by rw [hpre]; omega), hpre]
  · cases h
    have hpost : (overwrite (overwrite (List.replicate (imageSize opt image.length) 0) 0
        (List.replicate opt.pre 5)) (imageSize opt image.length-4-opt.post)
        (List.replicate opt.post 10)).length = imageSize opt image.length := by
      rw [length_overwrite, hpre]
      rw [hpre, List.length_replicate]
      omega
    rw [length_overwrite _ _ _ (by rw [hpost]; omega), hpost]

theorem regularImg_room (buf img : Bytes) (ht : opt.imageType ≠ .uart)
    (hbuf : preLoadImage opt image = some buf) (h : buildRegularImg buf = some img) :
    img = expectedImage opt image := by
  have hb := preLoadImage_room opt image buf ht hbuf
  have hfront : buf.take (buf.length-4) = paddedImage opt image := by
    rw [hb, List.length_append]
    exact List.take_left' rfl
  unfold buildRegularImg at h
  rw [hfront] at h
  split_ifs at h
  cases h
  rw [expectedImage, if_neg ht]

/-! ### Without room for the sum -/

theorem getElem?_paddedImage (i : ℕ) : (paddedImage opt image)[i]? =
    if i < opt.pre then some 5
    else if i < opt.pre+image.length then image[i-opt.pre]?
    else if i < alignWord (image.length+opt.pre+opt.post)-opt.post then some 0
    else if i < alignWord (image.length+opt.pre+opt.post) then some 10
    else none := by
  have hal := (alignWord_spec (image.length+opt.pre+opt.post)).1
  rw [paddedImage]
  simp only [List.getElem?_append, List.length_replicate, List.getElem?_replicate]
  split_ifs
  all_goals first | rfl | omega

theorem pre_aligned : opt.pre % 4 = 0 := (alignWord_spec _).2.2

theorem post_aligned : opt.post % 4 = 0 := (alignWord_spec _).2.2

theorem getElem?_preLoadImage (buf : Bytes) (ht : opt.imageType = .uart)
    (h : preLoadImage opt image = some buf) (i : ℕ) : buf[i]? =
    if opt.pre ≤ i ∧ i < opt.pre+image.length then image[i-opt.pre]?
    else if alignWord (image.length+opt.pre+opt.post)-4-opt.post ≤ i ∧
      i < alignWord (image.length+opt.pre+opt.post)-4 ∧ opt.post ≠ 0 then some 10
    else if i < opt.pre then some 5
    else if i < alignWord (image.length+opt.pre+opt.post) then some 0
    else none := by
  have hal := (alignWord_spec (image.length+opt.pre+opt.post)).1
  have hpre : (overwrite (List.replicate (alignWord (image.length+opt.pre+opt.post)) 0) 0
      (List.replicate opt.pre 5)).length = alignWord (image.length+opt.pre+opt.post) := by
    rw [length_overwrite, List.length_replicate]
    rw [List.length_replicate, List.length_replicate]
    omega
  have hfive : ∀ j, (overwrite (List.replicate (alignWord (image.length+opt.pre+opt.post)) 0) 0
      (List.replicate opt.pre 5))[j]? = if j < opt.pre then some 5
        else if j < alignWord (image.length+opt.pre+opt.post) then some 0 else none := by
    intro j
    rw [getElem?_overwrite]
    · simp only [List.length_replicate, List.getElem?_replicate]
      split_ifs
      all_goals first | rfl | omega
    · rw [List.length_replicate, List.length_replicate]
      omega
  unfold preLoadImage imageSize at h
  rw [if_pos ht, Nat.add_zero] at h
  dsimp only at h
  split_ifs at h with h0 h1
  · cases h
    rw [getElem?_overwrite _ _ _ _ (by rw [hpre]; omega), hfive]
    split_ifs
    all_goals first | rfl | omega
  · cases h
    have hpost : (overwrite (overwrite (List.replicate (alignWord (image.length+opt.pre+opt.post)) 0) 0
        (List.replicate opt.pre 5)) (alignWord (image.length+opt.pre+opt.post)-4-opt.post)
        (List.replicate opt.post 10)).length = alignWord (image.length+opt.pre+opt.post) := by
      rw [length_overwrite, hpre]
      rw [hpre, List.length_replicate]
      omega
    rw [getElem?_overwrite _ _ _ _ (by rw [hpost]; omega), getElem?_overwrite, hfive]
    · simp only [List.length_replicate, List.getElem?_replicate]
      split_ifs
      all_goals first | rfl | omega
    · rw [hpre, List.length_replicate]
      omega

/-- The padding behind the image reaches to its end. -/
def Contiguous : Prop := opt.post = 0 ∨ 0 < image.length ∧ image.length % 4 = 0

theorem take_preLoadImage (buf : Bytes) (ht : opt.imageType = .uart)
    (h : preLoadImage opt image = some buf) (hlong : 4 < alignWord (image.length+opt.pre+opt.post)) :
    buf.take (alignWord (image.length+opt.pre+opt.post)-4) =
      (paddedImage opt image).take (alignWord (image.length+opt.pre+opt.post)-4) ↔
      Contiguous opt image := by
  have hal := alignWord_spec (image.length+opt.pre+opt.post)
  have hpre := pre_aligned opt
  have hpost := post_aligned opt
  constructor
  · intro heq
    by_contra hnot
    have hat : ∀ i, i < alignWord (image.length+opt.pre+opt.post)-4 →
        buf[i]? = (paddedImage opt image)[i]? := by
      intro i hi
      rw [← List.getElem?_take_of_lt hi, heq, List.getElem?_take_of_lt hi]
    have hne : opt.post ≠ 0 := fun h0 => hnot (Or.inl h0)
    have hsize : 4+opt.post ≤ alignWord (image.length+opt.pre+opt.post) := by
      unfold preLoadImage imageSize at h
      rw [if_pos ht, Nat.add_zero] at h
      dsimp only at h
      split_ifs at h
      · omega
      · omega
    by_cases hn : image.length = 0
    · -- the padding stands over the last word of the one in front
      have hbad := hat (opt.pre-1) (by omega)
      rw [getElem?_preLoadImage opt image buf ht h, getElem?_paddedImage, if_neg (by omega),
        if_pos (by omega), if_pos (by omega)] at hbad
      exact absurd hbad (by decide)
    · -- it starts directly behind the image
      have hmod : image.length % 4 ≠ 0 := fun h0 => hnot (Or.inr ⟨by omega, h0⟩)
      have hbad := hat (opt.pre+image.length) (by omega)
      rw [getElem?_preLoadImage opt image buf ht h, getElem?_paddedImage, if_neg (by omega),
        if_pos (by omega), if_neg (by omega), if_neg (by omega), if_pos (by omega)] at hbad
      exact absurd hbad (by decide)
  · intro hc
    ext i : 1
    by_cases hi : i < alignWord (image.length+opt.pre+opt.post)-4
    · rw [List.getElem?_take_of_lt hi, List.getElem?_take_of_lt hi,
        getElem?_preLoadImage opt image buf ht h, getElem?_paddedImage]
      rcases hc with hc | hc
      · split_ifs
        all_goals first | rfl | omega
      · split_ifs
        all_goals first | rfl | omega
    · rw [List.getElem?_eq_none (by rw [List.length_take]; omega),
        List.getElem?_eq_none (by rw [List.length_take]; omega)]

/-- The last word is the sum of the others. -/
def SumsUp (l : Bytes) : Prop := l.drop (l.length-4) = le 4 (checksum32 (l.take (l.length-4)))

theorem regularImg_uart (buf img : Bytes) (ht : opt.imageType = .uart)
    (hbuf : preLoadImage opt image = some buf) (h : buildRegularImg buf = some img) :
    img = expectedImage opt image ↔ Contiguous opt image ∧ SumsUp (paddedImage opt image) := by
  have hlen : buf.length = alignWord (image.length+opt.pre+opt.post) := by
    rw [length_preLoadImage opt image buf hbuf, imageSize, if_pos ht, Nat.add_zero]
  have hp := length_paddedImage opt image
  unfold buildRegularImg at h
  split_ifs at h with h4
  cases h
  have htake := take_preLoadImage opt image buf ht hbuf (by omega)
  rw [← htake, expectedImage, if_pos ht, SumsUp, hp, ← hlen]
  constructor
  · intro heq
    have hfront : buf.take (buf.length-4) = (paddedImage opt image).take (buf.length-4) := by
      rw [← heq]
      exact (List.take_left' (by rw [List.length_take]; omega)).symm
    rw [← hfront]
    refine ⟨rfl, ?_⟩
    rw [← heq]
    exact List.drop_left' (by rw [List.length_take]; omega)
  · rintro ⟨hfront, hback⟩
    rw [hfront, ← hback, List.take_append_drop]

end Image

end UBoot.Doimage
