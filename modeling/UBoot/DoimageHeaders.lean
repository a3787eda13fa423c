import UBoot.Doimage
import Mathlib.Data.List.GetD

/-!
# Walking the extension headers

The bytes built are the headers one behind the other, and all but the last say that there
is a next one. A reader that goes by the stored lengths finds them again.
-/

set_option autoImplicit false

namespace UBoot.Doimage

open LittleEndian

/-! ## The reader -/

def extLen (b : Bytes) : ℕ := fieldAt b 1 1*65536+fieldAt b 2 2

/-- The extension headers as a reader of the format finds them, when in each of them the
tail says whether there is a further one. -/
def walk : ℕ → Bytes → Option (List (UInt8 × Bytes))
  | 0, _ => some []
  | n+1, b =>
    let len := extLen b
    if len < extHdrBaseSize ∨ b.length < len then none
    else if (b.getD (len-4) 0 == 1) = decide (0 < n) then
      (walk n (b.drop len)).map ((b.headD 0, (b.drop 4).take (len-extHdrBaseSize))::·)
    else none

/-! ## Chains of headers -/

structure Ext where
  type : UInt8
  len : ℕ
  payload : Bytes
  tail : Bytes

def Ext.bytes (e : Ext) : Bytes := extHead e.type e.len ++ e.payload ++ e.tail

def Ext.marked (e : Ext) : Ext := { e with tail := e.tail.set 0 1 }

def Ext.entry (e : Ext) : UInt8 × Bytes := (e.type, e.payload)

structure Ext.Proper (e : Ext) : Prop where
  len : e.len = extHdrBaseSize+e.payload.length
  short : e.len < 16777216
  tail : e.tail.length = 4

/-- All but the last header are marked. -/
def chain : List Ext → Bytes
  | [] => []
  | e::es => (if es = [] then e else e.marked).bytes ++ chain es

theorem length_extHead (type : UInt8) (len : ℕ) : (extHead type len).length = 4 := by
  simp [extHead]

theorem extLen_head (type : UInt8) (len : ℕ) (rest : Bytes) (h : len < 16777216) :
    extLen (extHead type len ++ rest) = len := by
  have h1 : fieldAt (extHead type len ++ rest) 1 1 = len/65536 := by
    rw [extHead, List.append_assoc, List.append_assoc, fieldAt_le [type] _ 1 1 _ rfl]
    omega
  have h2 : fieldAt (extHead type len ++ rest) 2 2 = len % 65536 := by
    rw [extHead, List.append_assoc, fieldAt_le ([type] ++ le 1 (len/65536)) rest 2 2 len (by simp)]
    norm_num
  rw [extLen, h1, h2]
  omega

theorem chain_snoc (es : List Ext) (e : Ext) :
    chain (es ++ [e]) = es.flatMap (fun e => e.marked.bytes) ++ e.bytes := by
  induction es with
  | nil => simp [chain]
  | cons d es ih =>
    rw [List.cons_append, chain, if_neg (by simp), ih, List.flatMap_cons, List.append_assoc]

theorem length_bytes (e : Ext) : e.bytes.length = 4+e.payload.length+e.tail.length := by
  rw [Ext.bytes, List.length_append, List.length_append, length_extHead]

theorem bytes_marked (e : Ext) (h : e.tail.length = 4) :
    e.marked.bytes = e.bytes.set (e.bytes.length-4) 1 := by
  have hlen := length_bytes e
  rw [h] at hlen
  have hfront : e.bytes.length-4 = (extHead e.type e.len ++ e.payload).length := by
    rw [hlen, List.length_append, length_extHead]
    omega
  have hset : e.bytes.set (extHead e.type e.len ++ e.payload).length 1 =
      extHead e.type e.len ++ e.payload ++ e.tail.set 0 1 := by
    rw [Ext.bytes, List.set_append_right _ _ le_rfl, Nat.sub_self]
  rw [hfront, hset]
  rfl

theorem markNext_chain (es : List Ext) (h : ∀ e ∈ es, e.tail.length = 4) :
    markNext ⟨es.length, chain es⟩ = es.flatMap (fun e => e.marked.bytes) := by
  rcases List.eq_nil_or_concat es with rfl | ⟨init, e, rfl⟩
  · rfl
  · rw [List.concat_eq_append] at h ⊢
    have htail := h e (by simp)
    have hlen := length_bytes e
    rw [markNext, if_pos (by simp), chain_snoc]
    dsimp only
    rw [List.length_append, List.set_append_right _ _ (by omega),
      show (init.flatMap fun e => e.marked.bytes).length+e.bytes.length-4-
        (init.flatMap fun e => e.marked.bytes).length = e.bytes.length-4 by omega,
      ← bytes_marked e htail, List.flatMap_append]
    simp

/-- What one step of the reader finds. -/
theorem walk_step (e : Ext) (n : ℕ) (rest : Bytes) (h : e.Proper) :
    walk (n+1) (e.bytes ++ rest) =
      if (e.tail.getD 0 0 == 1) = decide (0 < n) then (walk n rest).map (e.entry::·) else none := by
  have hlen := length_bytes e
  rw [h.tail] at hlen
  have hel : e.bytes.length = e.len := by
    rw [hlen, h.len, extHdrBaseSize]
    omega
  have hext : extLen (e.bytes ++ rest) = e.len := by
    rw [Ext.bytes, List.append_assoc, List.append_assoc]
    exact extLen_head _ _ _ h.short
  have hpay : ((e.bytes ++ rest).drop 4).take (e.len-extHdrBaseSize) = e.payload := by
    rw [Ext.bytes, List.append_assoc, List.append_assoc, List.drop_left' (length_extHead _ _)]
    apply List.take_left'
    rw [h.len]
    omega
  have hnext : (e.bytes ++ rest).getD (e.len-4) 0 = e.tail.getD 0 0 := by
    have hpos : e.len-4 = (extHead e.type e.len ++ e.payload).length := by
      rw [h.len, List.length_append, length_extHead, extHdrBaseSize]
      omega
    rw [hpos, Ext.bytes, List.append_assoc, List.getD_append_right _ _ _ _ le_rfl, Nat.sub_self]
    cases ht : e.tail with
    | nil =>
      have := h.tail
      rw [ht] at this
      exact absurd this (by decide)
    | cons t ts => rfl
  have hhead : (e.bytes ++ rest).headD 0 = e.type := rfl
  rw [walk, hext, if_neg, hnext, hpay, hhead, List.drop_left' hel]
  · rfl
  · rw [List.length_append, hel, h.len]
    omega

theorem marked_proper (e : Ext) (h : e.Proper) : e.marked.Proper :=
  ⟨h.len, h.short, by rw [Ext.marked, List.length_set]; exact h.tail⟩

theorem marked_next (e : Ext) (h : e.Proper) : e.marked.tail.getD 0 0 = 1 := by
  cases ht : e.tail with
  | nil =>
    have := h.tail
    rw [ht] at this
    exact absurd this (by decide)
  | cons t ts => simp [Ext.marked, ht]

/-- The reader finds the headers of a chain, unless the last of them says that there is a next. -/
theorem walk_chain (es : List Ext) (rest : Bytes) (h : ∀ e ∈ es, e.Proper) :
    walk es.length (chain es ++ rest) =
      if ∀ e, es.getLast? = some e → e.tail.getD 0 0 ≠ 1 then some (es.map Ext.entry) else none := by
  induction es with
  | nil => simp [walk, chain]
  | cons e es ih =>
    have he := h e (by simp)
    rw [chain, List.length_cons, List.append_assoc]
    by_cases hnil : es = []
    · subst hnil
      rw [if_pos rfl, walk_step e _ _ he]
      simp [walk, chain]
    · have hpos : 0 < es.length := List.length_pos_iff.2 hnil
      rw [if_neg hnil, walk_step _ _ _ (marked_proper e he), marked_next e he,
        if_pos (by simp [hpos]), ih (fun d hd => h d (by simp [hd])),
        List.getLast?_cons_of_ne_nil hnil]
      split_ifs
      · rfl
      · rfl

/-! ## What the tool builds -/

/-- The header that is built from a source. -/
def Source.ext : Source → Ext
  | .reg words => ⟨3, extHdrBaseSize+((regWords words).flatMap leWord).length,
      (regWords words).flatMap leWord, [0, 0, 0, 0]⟩
  | .bin file => ⟨2, extHdrBaseSize+(file.take (4*(file.length/4))).length,
      file.take (4*(file.length/4)), (file.drop (4*(file.length/4)) ++ [0, 0, 0, 0]).take 4⟩

theorem source_tail (s : Source) : s.ext.tail.length = 4 := by
  cases s with
  | reg words => rfl
  | bin file => simp [Source.ext]

/-- The bytes built are a chain. -/
structure Built (x : Exts) (es : List Ext) : Prop where
  ext : x.ext = es.length
  bytes : x.bytes = chain es
  tails : ∀ e ∈ es, e.tail.length = 4

theorem addExt_built (x : Exts) (es : List Ext) (h : Built x es) (e : Ext)
    (hlen : e.len = extHdrBaseSize+e.payload.length) (ht : e.tail.length = 4) :
    Built (addExt x e.type e.payload e.tail) (es ++ [e]) where
  ext := by
    rw [List.length_append]
    exact congrArg (·+1) h.ext
  bytes := by
    have hx : x = ⟨es.length, chain es⟩ := by
      cases x
      exact congrArg₂ Exts.mk h.ext h.bytes
    rw [chain_snoc, ← markNext_chain es h.tails, ← hx, Ext.bytes, hlen]
    rfl
  tails := by
    intro d hd
    rcases List.mem_append.1 hd with hd | hd
    · exact h.tails d hd
    · exact List.mem_singleton.1 hd ▸ ht

theorem buildHeader_built (s : Source) (x y : Exts) (es : List Ext) (h : Built x es)
    (hb : buildHeader s x = some y) :
    Built y (es ++ [s.ext]) ∧ 32+y.bytes.length ≤ maxHeaderSize ∧ x.ext ≠ 255 := by
  obtain ⟨z, hz, hy⟩ := Option.bind_eq_some_iff.1 hb
  split_ifs at hy with hfit
  cases hy
  cases s with
  | reg words =>
    dsimp only [buildHdrFunc, buildRegHeader] at hz
    split_ifs at hz with h1 h2
    cases hz
    exact ⟨addExt_built x es h (Source.reg words).ext rfl (source_tail _), Nat.le_of_not_lt hfit, h1⟩
  | bin file =>
    dsimp only [buildHdrFunc, buildBinHeader] at hz
    split_ifs at hz with h1 h2
    cases hz
    exact ⟨addExt_built x es h (Source.bin file).ext rfl (source_tail _), Nat.le_of_not_lt hfit, h1⟩

theorem buildAll_built (ss : List Source) (x y : Exts) (es : List Ext) (h : Built x es)
    (hext : x.ext ≤ 255) (hroom : 32+x.bytes.length ≤ maxHeaderSize)
    (hb : buildAll ss x = some y) :
    Built y (es ++ ss.map Source.ext) ∧ y.ext ≤ 255 ∧ 32+y.bytes.length ≤ maxHeaderSize := by
  induction ss generalizing x es with
  | nil =>
    cases hb
    rw [List.map_nil, List.append_nil]
    exact ⟨h, hext, hroom⟩
  | cons s ss ih =>
    obtain ⟨z, hz, hy⟩ := Option.bind_eq_some_iff.1 hb
    obtain ⟨hbuilt, hfit, hne⟩ := buildHeader_built s x z es h hz
    have hzext : z.ext ≤ 255 := by
      rw [hbuilt.ext, List.length_append, ← h.ext]
      simp only [List.length_cons, List.length_nil]
      omega
    have hnext := ih z (es ++ [s.ext]) hbuilt hzext hfit hy
    rwa [List.append_assoc, List.singleton_append, ← List.map_cons] at hnext

/-! ## The security header -/

def secRoom : Ext := ⟨1, 0, List.replicate 1052 0, [0, 0, 0, 0]⟩

def secHeader (payload : Bytes) : Ext := ⟨1, secHdrSize, payload, [0, 0, 0, 0]⟩

def secExts (opt : UserOptions) (payload : Bytes) : List Ext :=
  if opt.security.isSome then [secHeader payload] else []

theorem secRoom_bytes : secRoom.bytes = [1] ++ List.replicate 1059 0 := by
  have hz : (List.replicate 1059 0 : Bytes) = List.replicate 3 0 ++ (List.replicate 1052 0 ++ List.replicate 4 0) := by
    rw [List.replicate_append_replicate, List.replicate_append_replicate]
  rw [hz, Ext.bytes, secRoom, List.append_assoc]
  rfl

/-- Filling the room makes the first header of the chain the security header. -/
theorem fillSecurity_chain (es : List Ext) (payload : Bytes) :
    fillSecurity (chain (secRoom::es)) payload = chain (secHeader payload::es) := by
  have hdrop : ∀ (tail : Bytes), (extHead 1 0 ++ List.replicate 1052 0 ++ tail ++ chain es).drop 1056 =
      tail ++ chain es := by
    intro tail
    rw [List.append_assoc]
    apply List.drop_left'
    rw [List.length_append, length_extHead, List.length_replicate]
  rw [fillSecurity, chain, chain]
  by_cases hnil : es = []
  · rw [if_pos hnil, if_pos hnil, Ext.bytes, secRoom]
    dsimp only
    rw [hdrop, Ext.bytes, secHeader, List.append_assoc _ _ (chain es)]
  · rw [if_neg hnil, if_neg hnil, Ext.marked, Ext.bytes, secRoom]
    dsimp only
    rw [hdrop, Ext.marked, Ext.bytes, secHeader, List.append_assoc _ _ (chain es)]

end UBoot.Doimage
