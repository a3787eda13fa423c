import UBoot.DoimageBlock

/-!
# What a reader finds in a boot image

The steps of `process_image` put one behind the other. Each of the three parts that a
reader looks at is as asked for under its own part of `Faithful`, and only then.
-/

set_option autoImplicit false

namespace UBoot.Doimage

open LittleEndian

/-! ## The headers that are written -/

theorem bytes_le_chain (es : List Ext) (e : Ext) (he : e ∈ es) (ht : ∀ d ∈ es, d.tail.length = 4) :
    e.bytes.length ≤ (chain es).length := by
  induction es with
  | nil => exact absurd he List.not_mem_nil
  | cons d es ih =>
    rw [chain, List.length_append]
    rcases List.mem_cons.1 he with rfl | he
    · have hmarked : (if es = [] then e else e.marked).bytes.length = e.bytes.length := by
        split_ifs
        · rfl
        · rw [length_bytes, length_bytes, Ext.marked, List.length_set]
      omega
    · have hle := ih he fun c hc => ht c (List.mem_cons_of_mem _ hc)
      omega

theorem source_len (s : Source) : s.ext.len = extHdrBaseSize+s.ext.payload.length := by
  cases s with
  | reg words => rfl
  | bin file => rfl

/-- The extension headers as they are written. -/
structure Written (opt : UserOptions) (payload : Bytes) (y : Exts) : Prop where
  length : payload.length = 1052
  ext : y.ext = (secExts opt payload ++ opt.sources.map Source.ext).length
  bytes : y.bytes = chain (secExts opt payload ++ opt.sources.map Source.ext)
  few : y.ext ≤ 255
  room : 32+y.bytes.length ≤ maxHeaderSize

theorem securityRoom_built (opt : UserOptions) :
    Built (securityRoom opt) (if opt.security.isSome then [secRoom] else []) := by
  unfold securityRoom
  split_ifs
  · refine ⟨rfl, ?_, ?_⟩
    · rw [chain, if_pos rfl, secRoom_bytes, chain, List.append_nil]
    · intro e he
      rw [List.mem_singleton.1 he]
      rfl
  · exact ⟨rfl, rfl, fun e he => absurd he List.not_mem_nil⟩

theorem securityRoom_small (opt : UserOptions) :
    (securityRoom opt).ext ≤ 255 ∧ 32+(securityRoom opt).bytes.length ≤ maxHeaderSize := by
  unfold securityRoom maxHeaderSize
  split_ifs
  · rw [List.length_append, List.length_replicate]
    decide
  · decide

theorem length_fillSecurity (bytes payload : Bytes) (hp : payload.length = 1052)
    (hb : 1056 ≤ bytes.length) : (fillSecurity bytes payload).length = bytes.length := by
  rw [fillSecurity, List.length_append, List.length_append, length_extHead, hp, List.length_drop]
  omega

theorem signHeaders_written (opt : UserOptions) (size headerSize : ℕ) (x y : Exts) (img : Bytes)
    (hx : buildAll opt.sources (securityRoom opt) = some x)
    (hy : signHeaders opt size headerSize x img = some y) :
    (∃ payload, Written opt payload y) ∧ y.ext = x.ext ∧ y.bytes.length = x.bytes.length := by
  obtain ⟨hbuilt, hfew, hroom⟩ := buildAll_built opt.sources (securityRoom opt) x _
    (securityRoom_built opt) (securityRoom_small opt).1 (securityRoom_small opt).2 hx
  unfold signHeaders at hy
  cases hsec : opt.security with
  | none =>
    rw [hsec] at hy hbuilt
    cases hy
    refine ⟨⟨List.replicate 1052 0, List.length_replicate, ?_, ?_, hfew, hroom⟩, rfl, rfl⟩
    · rw [secExts, hsec]
      exact hbuilt.ext
    · rw [secExts, hsec]
      exact hbuilt.bytes
  | some sign =>
    rw [hsec] at hy hbuilt
    obtain ⟨payload, -, hpay⟩ := Option.bind_eq_some_iff.1 hy
    cases hpay
    have hbytes : x.bytes = chain (secRoom::opt.sources.map Source.ext) := hbuilt.bytes
    have hlong : 1056 ≤ x.bytes.length := by
      have hle := bytes_le_chain (secRoom::opt.sources.map Source.ext) secRoom (by simp) hbuilt.tails
      rw [← hbytes, length_bytes] at hle
      have hroomlen : secRoom.payload.length = 1052 := List.length_replicate
      omega
    have hlen := length_fillSecurity x.bytes payload.toList (by simp) hlong
    refine ⟨⟨payload.toList, by simp, ?_, ?_, hfew, ?_⟩, rfl, hlen⟩
    · rw [secExts, hsec]
      exact hbuilt.ext
    · rw [secExts, hsec, hbytes, fillSecurity_chain]
      rfl
    · dsimp only
      rw [hlen]
      exact hroom

theorem written_proper (opt : UserOptions) (payload : Bytes) (y : Exts) (h : Written opt payload y) :
    ∀ e ∈ secExts opt payload ++ opt.sources.map Source.ext, e.Proper := by
  have htails : ∀ e ∈ secExts opt payload ++ opt.sources.map Source.ext, e.tail.length = 4 := by
    intro e he
    rcases List.mem_append.1 he with he | he
    · unfold secExts at he
      split_ifs at he
      · rw [List.mem_singleton.1 he]
        rfl
      · exact absurd he List.not_mem_nil
    · obtain ⟨s, -, rfl⟩ := List.mem_map.1 he
      exact source_tail s
  have hlens : ∀ e ∈ secExts opt payload ++ opt.sources.map Source.ext,
      e.len = extHdrBaseSize+e.payload.length := by
    intro e he
    rcases List.mem_append.1 he with he | he
    · unfold secExts at he
      split_ifs at he
      · rw [List.mem_singleton.1 he, secHeader, h.length]
        rfl
      · exact absurd he List.not_mem_nil
    · obtain ⟨s, -, rfl⟩ := List.mem_map.1 he
      exact source_len s
  intro e he
  refine ⟨hlens e he, ?_, htails e he⟩
  have hle := bytes_le_chain _ e he htails
  have hroom := h.room
  rw [h.bytes] at hroom
  rw [length_bytes, htails e he] at hle
  rw [hlens e he]
  unfold extHdrBaseSize
  unfold maxHeaderSize at hroom
  omega

/-- Walking the written headers finds the requested ones exactly when all sources are whole. -/
theorem walk_written (opt : UserOptions) (payload rest : Bytes) (y : Exts)
    (h : Written opt payload y) :
    (∃ p : Bytes, p.length = 1052 ∧ walk y.ext (y.bytes ++ rest) =
      some (secEntries opt p ++ opt.sources.map Source.entry)) ↔ ∀ s ∈ opt.sources, s.Whole := by
  rw [h.ext, h.bytes, walk_chain _ rest (written_proper opt payload y h), List.map_append, List.map_map]
  constructor
  · rintro ⟨p, -, hp⟩ s hs
    split_ifs at hp
    have htails := List.append_inj_right' (Option.some.inj hp) (by simp)
    exact (ext_entry s).1 (List.map_inj_left.1 htails s hs)
  · intro hwhole
    refine ⟨payload, h.length, ?_⟩
    rw [if_pos]
    · have hsec : (secExts opt payload).map Ext.entry = secEntries opt payload := by
        unfold secExts secEntries
        split_ifs
        · rfl
        · rfl
      have hsources : opt.sources.map (Ext.entry ∘ Source.ext) = opt.sources.map Source.entry :=
        List.map_congr_left fun s hs => (ext_entry s).2 (hwhole s hs)
      rw [hsec, hsources]
    · intro e he
      rcases List.mem_append.1 (List.mem_of_getLast? he) with hmem | hmem
      · unfold secExts at hmem
        split_ifs at hmem
        · rw [List.mem_singleton.1 hmem]
          exact (by decide : ([0, 0, 0, 0] : Bytes).getD 0 0 ≠ 1)
        · exact absurd hmem List.not_mem_nil
      · obtain ⟨s, hs, rfl⟩ := List.mem_map.1 hmem
        exact whole_tail s (hwhole s hs)

/-! ## The steps of `process_image` -/

/-- What the steps of `process_image` leave. -/
structure Processed (opt : UserOptions) (image : Bytes) (o : Output) (headerSize : ℕ)
    (y : Exts) : Prop where
  written : ∃ payload, Written opt payload y
  room : 32+y.bytes.length ≤ headerSize
  small : headerSize ≤ maxHeaderSize
  size : imageSize opt image.length < 4294967296
  headers : o.headers = headersBlock opt image.length headerSize y
    (checksum8 (headersBlock opt image.length headerSize y 0))
  gap : o.gap = imgGap opt headerSize
  image : ∃ buf, preLoadImage opt image = some buf ∧ buildRegularImg buf = some o.image

theorem processImage_processed (opt : UserOptions) (image : Bytes) (o : Output)
    (h : processImage opt image = some o) : ∃ headerSize y, Processed opt image o headerSize y := by
  obtain ⟨x, hx, h⟩ := Option.bind_eq_some_iff.1 h
  obtain ⟨twsi, -, h⟩ := Option.bind_eq_some_iff.1 h
  dsimp only at h
  split_ifs at h with hhdr hpad hsize
  obtain ⟨buf, hbuf, h⟩ := Option.bind_eq_some_iff.1 h
  obtain ⟨y, hy, h⟩ := Option.bind_eq_some_iff.1 h
  obtain ⟨img, himg, h⟩ := Option.bind_eq_some_iff.1 h
  cases h
  push Not at hhdr
  obtain ⟨hwritten, -, hlen⟩ := signHeaders_written opt _ _ x y buf hx hy
  obtain ⟨payload, hw⟩ := hwritten
  have hroom := hw.room
  unfold maxHeaderSize at hroom
  refine ⟨_, y, ⟨⟨payload, hw⟩, ?_, hhdr.2, Nat.lt_of_not_le hsize, rfl, rfl, ⟨buf, hbuf, himg⟩⟩⟩
  rw [hlen]
  exact alignHeader_ge opt _ (by omega) hhdr.1

theorem headersBlock_split (opt : UserOptions) (size headerSize : ℕ) (y : Exts) (checkSum : UInt8) :
    headersBlock opt size headerSize y checkSum = mainHeader opt size headerSize y.ext checkSum ++
      (y.bytes ++ List.replicate (headerSize-(32+y.bytes.length)) 0) := by
  simp only [headersBlock, List.append_assoc, List.length_append, length_mainHeader]

section Block
variable {opt : UserOptions} {image : Bytes} {o : Output} {headerSize : ℕ} {y : Exts}

theorem processed_headers (h : Processed opt image o headerSize y) :
    o.headers.length = headerSize := by
  have hroom := h.room
  rw [h.headers, headersBlock_split, List.length_append, List.length_append, length_mainHeader,
    List.length_replicate]
  omega

theorem processed_block (h : Processed opt image o headerSize y) : ∃ checkSum rest,
    o.block = mainHeader opt image.length headerSize y.ext checkSum ++ rest := by
  rw [Output.block, h.headers, headersBlock_split, List.append_assoc, List.append_assoc]
  exact ⟨_, _, rfl⟩

theorem processed_front (h : Processed opt image o headerSize y) :
    o.block.take (mainHdrLen o.block) = o.headers := by
  obtain ⟨checkSum, rest, hb⟩ := processed_block h
  have hsmall := h.small
  unfold maxHeaderSize at hsmall
  rw [hb, mainHeader_headerSize _ _ _ _ _ _ (by omega), ← hb, Output.block, List.append_assoc]
  exact List.take_left' (processed_headers h)

theorem length_image (h : Processed opt image o headerSize y) :
    o.image.length = imageSize opt image.length := by
  obtain ⟨buf, hbuf, himg⟩ := h.image
  have hlen := length_preLoadImage opt image buf hbuf
  unfold buildRegularImg at himg
  split_ifs at himg with h4
  have himg := Option.some.inj himg
  rw [← himg, List.length_append, List.length_take, length_le]
  omega

theorem processed_image (h : Processed opt image o headerSize y) (ht : opt.imageType ≠ .sata) :
    (o.block.drop (fieldAt o.block 12 4)).take (fieldAt o.block 4 4) = o.image := by
  obtain ⟨checkSum, rest, hb⟩ := processed_block h
  obtain ⟨hsrc, hsmall⟩ := sourceAddr_eq opt headerSize ht h.small
  have haddr : fieldAt o.block 12 4 = (o.headers ++ List.replicate o.gap 0).length := by
    rw [hb, mainHeader_sourceAddr _ _ _ _ _ _ hsmall, hsrc, List.length_append,
      processed_headers h, List.length_replicate, h.gap]
  have hsize : fieldAt o.block 4 4 = o.image.length := by
    rw [hb, mainHeader_imageSize _ _ _ _ _ _ h.size, length_image h]
  rw [haddr, hsize, Output.block, List.drop_left, List.take_length]

/-- The sum is the sum of the block without it. -/
theorem processed_sum (h : Processed opt image o headerSize y) :
    checksum8 ((o.block.take (mainHdrLen o.block)).set 31 0) = o.block.getD 31 0 := by
  have hcleared : o.headers.set 31 0 = headersBlock opt image.length headerSize y 0 := by
    rw [h.headers, headersBlock_split, headersBlock_split, mainHeader_cleared]
  have hsum : o.block.getD 31 0 = checksum8 (headersBlock opt image.length headerSize y 0) := by
    rw [Output.block, h.headers, headersBlock_split _ _ _ _ (checksum8 _), List.append_assoc,
      List.append_assoc, mainHeader_checkSum]
  rw [processed_front h, hcleared, hsum]

theorem processed_walk (h : Processed opt image o headerSize y) :
    (∃ payload : Bytes, payload.length = 1052 ∧
      walk (fieldAt o.block 30 1) ((o.block.take (mainHdrLen o.block)).drop 32) =
        some (secEntries opt payload ++ opt.sources.map Source.entry)) ↔
      ∀ s ∈ opt.sources, s.Whole := by
  obtain ⟨payload, hw⟩ := h.written
  obtain ⟨checkSum, rest, hb⟩ := processed_block h
  have hext : fieldAt o.block 30 1 = y.ext := by
    rw [hb, mainHeader_ext _ _ _ _ _ _ hw.few]
  have hdrop : ∃ zeros, o.headers.drop 32 = y.bytes ++ zeros := by
    rw [h.headers, headersBlock_split, List.drop_left' (length_mainHeader _ _ _ _ _)]
    exact ⟨_, rfl⟩
  obtain ⟨zeros, hzeros⟩ := hdrop
  rw [processed_front h, hext, hzeros]
  exact walk_written opt payload zeros y hw

theorem processed_expected (h : Processed opt image o headerSize y) :
    o.image = expectedImage opt image ↔
      (opt.imageType = .uart → Contiguous opt image ∧ SumsUp (paddedImage opt image)) := by
  obtain ⟨buf, hbuf, himg⟩ := h.image
  by_cases ht : opt.imageType = .uart
  · rw [regularImg_uart opt image buf o.image ht hbuf himg]
    exact ⟨fun hc _ => hc, fun hc => hc ht⟩
  · exact iff_of_true (regularImg_room opt image buf o.image ht hbuf himg) fun hu => absurd hu ht

end Block

theorem layout_iff (opt : UserOptions) (image : Bytes) (o : Output) (ht : opt.imageType ≠ .sata)
    (h : processImage opt image = some o) : Layout opt image o ↔ Faithful opt image := by
  obtain ⟨headerSize, y, hp⟩ := processImage_processed opt image o h
  constructor
  · intro hl
    have himg := hl.image
    rw [processed_image hp ht] at himg
    exact ⟨(processed_walk hp).1 hl.headers, (processed_expected hp).1 himg⟩
  · intro hf
    refine ⟨(processed_walk hp).2 hf.sources, processed_sum hp, ?_⟩
    rw [processed_image hp ht]
    exact (processed_expected hp).2 hf.sum

def flashOptions (sources : List Source) : UserOptions where
  imageType := .flash
  imageSource := 0
  imageDest := 0
  imageExec := 0
  nandPageSize := 0
  nandBlkSize := 0
  nandSlc := true
  prepadding := none
  postpadding := none
  twsi := none
  dram := none
  binFile := none
  hdrsList := sources
  security := none

theorem layout_flash : ∃ o, processImage
    (flashOptions [.reg [0xD0001400, 5, 0xD0001404, 0], .bin [1, 2, 3, 4]]) [7, 8, 9, 10, 11] = some o ∧
    Layout (flashOptions [.reg [0xD0001400, 5, 0xD0001404, 0], .bin [1, 2, 3, 4]]) [7, 8, 9, 10, 11] o := by
  have hsome : (processImage (flashOptions [.reg [0xD0001400, 5, 0xD0001404, 0], .bin [1, 2, 3, 4]])
      [7, 8, 9, 10, 11]).isSome = true := by decide +kernel
  obtain ⟨o, ho⟩ := Option.isSome_iff_exists.1 hsome
  refine ⟨o, ho, (layout_iff _ _ o (by decide) ho).2 ⟨?_, fun h => absurd h (by decide)⟩⟩
  intro s hs
  rcases List.mem_cons.1 hs with rfl | hs
  · simp [Source.Whole, Paired]
  · rw [List.mem_singleton.1 hs]
    simp [Source.Whole]

/-- The fifth byte of the file is not in the header but in its tail, where it stands for a next header. -/
theorem fifth_byte_in_tail : ¬ ∀ opt image o, opt.imageType ≠ .sata →
    processImage opt image = some o → Layout opt image o := by
  intro hall
  have hsome : (processImage (flashOptions [.bin [1, 2, 3, 4, 1]]) [7, 8, 9, 10]).isSome = true := by
    decide +kernel
  obtain ⟨o, ho⟩ := Option.isSome_iff_exists.1 hsome
  obtain ⟨headerSize, y, hp⟩ := processImage_processed _ _ o ho
  have hwhole := (processed_walk hp).1 (hall _ _ o (by decide) ho).headers
  have hbin := hwhole (.bin [1, 2, 3, 4, 1]) (List.mem_singleton.2 rfl)
  exact absurd hbin (by decide : ¬ ([1, 2, 3, 4, 1] : Bytes).length % 4 = 0)

end UBoot.Doimage
