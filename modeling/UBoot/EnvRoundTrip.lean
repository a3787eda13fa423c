import UBoot.EnvExport

/-!
# Export and import of the environment are inverse

Each exported entry parses back to itself, so reading the text into a fresh
table enters the bindings one after the other. A table without tombstones has
an unused slot as long as it has room, so no entry is ever overwritten.
-/

set_option autoImplicit false

namespace UBoot.EnvText
open UBoot.HashTable UBoot.OpenAddressing

/-- A name and a value that the text form can carry. -/
structure TextOk (sep : UInt8) (k v : CStr) : Prop where
  name : k ≠ []
  nameChars : ∀ c ∈ k, c ≠ equals ∧ c ≠ sep ∧ c ≠ 0
  nameStart : ∀ c, k.head? = some c → c ≠ 32 ∧ c ≠ 9 ∧ c ≠ 35
  value : v ≠ []
  valueChars : ∀ c ∈ v, c ≠ 0

/-! ## Parsing back one entry -/

theorem parseValue_end (sep : UInt8) (rest : List UInt8) :
    parseValue sep (sep::rest) = some ([], rest) := by
  cases rest with
  | nil => simp [parseValue]
  | cons d rest => simp [parseValue]

theorem parseValue_plain (sep c d : UInt8) (rest : List UInt8) (h0 : c ≠ 0) (hs : c ≠ sep)
    (hb : c ≠ backslash) :
    parseValue sep (c::d::rest) = (parseValue sep (d::rest)).map fun (v, r) => (c::v, r) := by
  simp [parseValue, h0, hs, hb]

theorem parseValue_escape (sep c : UInt8) (rest : List UInt8) (h0 : c ≠ 0) (hs : backslash ≠ sep) :
    parseValue sep (backslash::c::rest) = (parseValue sep rest).map fun (v, r) => (c::v, r) := by
  have hb : backslash ≠ 0 := by decide
  simp [parseValue, h0, hs, hb]

theorem parseValue_escaped (sep : UInt8) (hs : backslash ≠ sep) (v : CStr) (hv : ∀ c ∈ v, c ≠ 0)
    (rest : List UInt8) : parseValue sep (escaped sep v ++ sep::rest) = some (v, rest) := by
  induction v with
  | nil => exact parseValue_end sep rest
  | cons c v ih =>
    have h0 := hv c (by simp)
    have ih' := ih fun x hx => hv x (by simp [hx])
    have hcons : escaped sep (c::v) =
        (if special sep c then [backslash, c] else [c]) ++ escaped sep v := rfl
    rw [hcons]
    by_cases hsp : special sep c = true
    · rw [if_pos hsp, List.append_assoc]
      change parseValue sep (backslash::c::(escaped sep v ++ sep::rest)) = _
      rw [parseValue_escape sep c _ h0 hs, ih']
      rfl
    · rw [if_neg hsp, List.append_assoc]
      obtain ⟨d, tail, htail⟩ : ∃ d tail, escaped sep v ++ sep::rest = d::tail := by
        cases h : escaped sep v with
        | nil => exact ⟨sep, rest, rfl⟩
        | cons d tail => exact ⟨d, tail ++ sep::rest, rfl⟩
      have hne : c ≠ sep ∧ c ≠ backslash := by
        simpa [special] using hsp
      change parseValue sep (c::(escaped sep v ++ sep::rest)) = _
      rw [htail, parseValue_plain sep c d tail h0 hne.1 hne.2, ← htail, ih']
      rfl

theorem takeWhile_stop {α : Type*} (p : α → Bool) (l : List α) (x : α) (r : List α)
    (hl : ∀ c ∈ l, p c = true) (hx : p x = false) :
    (l ++ x::r).takeWhile p = l ∧ (l ++ x::r).dropWhile p = x::r := by
  rw [List.takeWhile_append_of_pos hl, List.dropWhile_append_of_pos hl]
  simp [hx]

/-- An escaped value that is not empty begins neither with NUL nor with the
separator, so its entry is not taken for a deletion. -/
theorem escaped_start (sep : UInt8) (hs : backslash ≠ sep) (v : CStr) (hne : v ≠ [])
    (hv : ∀ c ∈ v, c ≠ 0) (rest : List UInt8) :
    ∃ e after, escaped sep v ++ rest = e::after ∧ e ≠ 0 ∧ e ≠ sep := by
  cases v with
  | nil => exact absurd rfl hne
  | cons c v =>
    have hcons : escaped sep (c::v) =
        (if special sep c then [backslash, c] else [c]) ++ escaped sep v := rfl
    rw [hcons]
    by_cases hsp : special sep c = true
    · rw [if_pos hsp]
      exact ⟨backslash, _, rfl, by decide, hs⟩
    · rw [if_neg hsp]
      have hne : c ≠ sep ∧ c ≠ backslash := by
        simpa [special] using hsp
      exact ⟨c, _, rfl, hv c (by simp), hne.1⟩

theorem parseItem_encode (sep : UInt8) (hs : backslash ≠ sep) (he : equals ≠ sep) (k v : CStr)
    (h : TextOk sep k v) (rest : List UInt8) :
    parseItem sep (encode sep k v ++ rest) = some (.set k v, rest) := by
  obtain ⟨c, k', rfl⟩ : ∃ c k', k = c::k' := List.exists_cons_of_ne_nil h.name
  obtain ⟨h32, h9, h35⟩ := h.nameStart c rfl
  have htext : encode sep (c::k') v ++ rest =
      (c::k') ++ equals::(escaped sep v ++ sep::rest) := by
    simp [encode]
  have hblank : ((c::k') ++ equals::(escaped sep v ++ sep::rest)).dropWhile isblank =
      c::(k' ++ equals::(escaped sep v ++ sep::rest)) := by
    have hb : isblank c = false := by simp [isblank, h32, h9]
    rw [List.cons_append, List.dropWhile_cons_of_neg (by simp [hb])]
  obtain ⟨htake, hdrop⟩ := takeWhile_stop (fun x => x ≠ equals && x ≠ 0 && x ≠ sep) (c::k') equals
    (escaped sep v ++ sep::rest)
    (fun x hx => by
      have hc := h.nameChars x hx
      simp [hc.1, hc.2.1, hc.2.2]) (by simp)
  obtain ⟨e, after, heq, he0, hes⟩ := escaped_start sep hs v h.value h.valueChars (sep::rest)
  have he0' : equals ≠ 0 := by decide
  rw [htext, parseItem, hblank]
  simp only [h35, if_false]
  rw [← List.cons_append, htake, hdrop]
  simp only [he0', if_false, heq, he0, he, hes, or_self]
  rw [← heq, parseValue_escaped sep hs v h.valueChars rest]
  rfl

/-! ## Entering the bindings into a fresh table -/

def NoTomb (t : HTab) : Prop := ∀ i, 0 < i → i ≤ t.size → (t.table i).used ≠ -1

/-- Without tombstones, a table with no unused slot is full. -/
theorem noTomb_avoids (t : HTab) (m : EnvMap) (hm : Models t m) (hn : NoTomb t) (key : CStr) :
    ¬ Clobbers t key := by
  rintro ⟨hroom, -, hall⟩
  have hlive : ∀ i ∈ Finset.Icc 1 t.size, ∃ k ∈ m.keys, ∃ d, cells t i = .live k d := by
    intro i hi
    obtain ⟨h1, h2⟩ := Finset.mem_Icc.mp hi
    rcases hm.wf.slots i with h | h | ⟨k, d, hk, hd, h⟩
    · exact absurd h (hall i h1 h2).1
    · exact absurd h (hn i h1 h2)
    · have hl := (cell_live_iff t.size _ (hm.wf.slots i) k d).mpr ⟨h, hk, hd⟩
      exact ⟨k, Finmap.mem_keys.mpr (mem_of_live t m hm i k d h1 h2 hl), d, hl⟩
  choose! f hf d hd using hlive
  have hinj : Set.InjOn f (Finset.Icc 1 t.size) := by
    intro i hi j hj hij
    obtain ⟨h1, h2⟩ := Finset.mem_Icc.mp (Finset.mem_coe.mp hi)
    obtain ⟨h3, h4⟩ := Finset.mem_Icc.mp (Finset.mem_coe.mp hj)
    have hli := hd i (Finset.mem_coe.mp hi)
    have hlj := hd j (Finset.mem_coe.mp hj)
    rw [hij] at hli
    exact hm.wf.sound.single i j _ _ _ h1 h2 h3 h4 hli hlj
  have hcard := Finset.card_le_card_of_injOn f (fun i hi => hf i (Finset.mem_coe.mp hi)) hinj
  rw [Nat.card_Icc, ← hm.filled] at hcard
  have := hm.capacity
  omega

theorem enter_new (h : Hooks) (ha : Accepting h) (key v : CStr) (flag : ℕ) (t : HTab) (m : EnvMap)
    (hm : Models t m) (hn : NoTomb t) (hnew : key ∉ m) (hroom : m.keys.card < t.size) :
    ∃ r, hsearchR h key (some v) .enter t flag = some r ∧ r.htab.size = t.size ∧ NoTomb r.htab ∧
      Models r.htab (m.insert key v) := by
  obtain ⟨t', happ, hsize, hm'⟩ := enter_models h ha key v flag t m hm (noTomb_avoids t m hm hn key)
  have hmap : mapApply t.size m (.enter key v flag) = (.entered true, m.insert key v) :=
    if_pos (.inr hroom)
  rw [hmap] at happ hm'
  rcases search_cases h key (some v) .enter t hm.wf flag with
    ⟨i, d, hi, hin, hlive, -⟩ | ⟨-, idx, hp, -⟩
  · exact absurd (mem_of_live t m hm i key d hi hin hlive) hnew
  have hfull : t.filled ≠ t.size := by
    rw [hm.filled]
    omega
  obtain ⟨t'', hr, hw⟩ := enter_absent h ha key v flag t hm.wf idx hfull hp
  have ht : t'' = t' := by
    simpa [apply, hr] using happ
  subst ht
  refine ⟨_, hr, hsize, ?_, hm'⟩
  intro i hi hin (hu : (t''.table i).used = -1)
  have htomb : cells t'' i = .tomb := by
    simp [cells, cell, hu]
  rw [hw.cells] at htomb
  by_cases hj : i = (if firstDeleted t (homeIndex t.size key) ≠ 0
      then firstDeleted t (homeIndex t.size key) else idx)
  · rw [hj, put_same] at htomb
    cases htomb
  · rw [put_other _ _ _ _ hj] at htomb
    have hold := hn i hi (by rw [← hsize]; exact hin)
    rcases hm.wf.slots i with h0 | h0 | ⟨k, d, hk, hd, h0⟩
    · rw [cells, (cell_free_iff t.size _ (hm.wf.slots i)).mpr h0] at htomb
      cases htomb
    · exact hold h0
    · rw [cells, (cell_live_iff t.size _ (hm.wf.slots i) k d).mpr ⟨h0, hk, hd⟩] at htomb
      cases htomb

def insertAll (m : EnvMap) (es : List (CStr × CStr)) : EnvMap :=
  es.foldl (fun m e => m.insert e.1 e.2) m

theorem insertAll_lookup (es : List (CStr × CStr)) (hnd : (es.map Prod.fst).Nodup) (m : EnvMap)
    (k v : CStr) : (insertAll m es).lookup k = some v ↔
      (k, v) ∈ es ∨ k ∉ es.map Prod.fst ∧ m.lookup k = some v := by
  induction es generalizing m with
  | nil => simp [insertAll]
  | cons e es ih =>
    obtain ⟨hhead, htail⟩ := List.nodup_cons.mp hnd
    change (insertAll (m.insert e.1 e.2) es).lookup k = some v ↔ _
    rw [ih htail]
    by_cases hk : k = e.1
    · subst hk
      have hnot : (e.1, v) ∉ es := fun hmem => hhead (List.mem_map.mpr ⟨_, hmem, rfl⟩)
      rw [Finmap.lookup_insert, Option.some_inj]
      simp [hhead, hnot, Prod.ext_iff, eq_comm]
    · rw [Finmap.lookup_insert_of_ne m hk]
      simp [Prod.ext_iff, hk]

/-- The importer on the encoded entries, all of them new and with room. -/
theorem importLoop_encode (h : Hooks) (ha : Accepting h) (sep : UInt8) (hs : backslash ≠ sep)
    (he : equals ≠ sep) (flag : ℕ) (pad : List UInt8) (es : List (CStr × CStr)) (e : CStr × CStr)
    (hok : ∀ p ∈ e::es, TextOk sep p.1 p.2) (hnd : ((e::es).map Prod.fst).Nodup) (t : HTab)
    (m : EnvMap) (hm : Models t m) (hn : NoTomb t) (hnew : ∀ p ∈ e::es, p.1 ∉ m)
    (hroom : m.keys.card+(es.length+1) ≤ t.size) (fuel : ℕ) (hfuel : es.length+1 ≤ fuel) :
    ∃ t', importLoop h sep flag fuel ((e::es).flatMap (fun p => encode sep p.1 p.2) ++ 0::pad) t [] =
        some (t', []) ∧ Models t' (insertAll m (e::es)) := by
  induction es generalizing e t m fuel with
  | nil =>
    obtain ⟨n, rfl⟩ : ∃ n, fuel = n+1 := ⟨fuel-1, by simp at hfuel; omega⟩
    obtain ⟨r, hr, -, -, hm'⟩ := enter_new h ha e.1 e.2 flag t m hm hn (hnew e (by simp))
      (by simp at hroom; omega)
    refine ⟨r.htab, ?_, hm'⟩
    simp [importLoop, parseItem_encode sep hs he e.1 e.2 (hok e (by simp)), applyItem,
      dropVarFromSet, hr]
  | cons e' es ih =>
    obtain ⟨n, rfl⟩ : ∃ n, fuel = n+1 := ⟨fuel-1, by omega⟩
    obtain ⟨r, hr, hsize, hn', hm'⟩ := enter_new h ha e.1 e.2 flag t m hm hn (hnew e (by simp))
      (by simp at hroom; omega)
    have hkeys : (m.insert e.1 e.2).keys.card ≤ m.keys.card+1 := by
      rw [keys_insert_card]
      exact Finset.card_insert_le _ _
    obtain ⟨hhead, htail⟩ := List.nodup_cons.mp hnd
    obtain ⟨t', ht', hres⟩ := ih e' (fun p hp => hok p (by simp [List.mem_cons.mp hp]))
      htail r.htab _ hm' hn' (by
        intro p hp hmem
        rw [Finmap.mem_insert] at hmem
        rcases hmem with heq | hmem
        · exact hhead (List.mem_map.mpr ⟨p, hp, heq⟩)
        · exact hnew p (by simp [List.mem_cons.mp hp]) hmem)
      (by rw [hsize]; simp at hroom; omega) n (by simp at hfuel ⊢; omega)
    refine ⟨t', ?_, hres⟩
    obtain ⟨c, k, hk⟩ := List.exists_cons_of_ne_nil (hok e' (by simp)).name
    have hc : c ≠ 0 := ((hok e' (by simp)).nameChars c (by rw [hk]; simp)).2.2
    have hfirst : ∃ rest, (e'::es).flatMap (fun p => encode sep p.1 p.2) ++ 0::pad = c::rest := by
      rw [List.flatMap_cons, encode, hk]
      exact ⟨_, rfl⟩
    obtain ⟨rest, hrest⟩ := hfirst
    rw [List.flatMap_cons, List.append_assoc, importLoop,
      parseItem_encode sep hs he e.1 e.2 (hok e (by simp))]
    simp only [Option.bind_some, applyItem, dropVarFromSet, if_true, hr, Option.map_some]
    rw [hrest] at ht' ⊢
    simp only [hc, if_false]
    exact ht'

theorem empty_erase (key : CStr) : (∅ : EnvMap).erase key = ∅ := by
  refine Finmap.ext_lookup fun k => ?_
  by_cases hk : k = key
  · rw [hk, Finmap.lookup_erase, Finmap.lookup_empty]
  · rw [Finmap.lookup_erase_ne hk]

theorem importLoop_empty (h : Hooks) (ha : Accepting h) (sep : UInt8) (flag pad fuel : ℕ)
    (t : HTab) (hm : Models t ∅) :
    ∃ t', importLoop h sep flag (fuel+1) (0::List.replicate pad 0) t [] = some (t', []) ∧
      Models t' ∅ := by
  obtain ⟨t', happ, -, hm'⟩ := delete_models h ha [] flag t ∅ hm
  have hitem : parseItem sep (0::List.replicate pad 0) =
      some (.delete [], List.replicate pad 0) := by
    simp [parseItem, isblank]
  obtain ⟨r, hr, ht⟩ : ∃ r, hdeleteR h [] t flag = some r ∧ r.htab = t' := by
    simp only [apply, Option.map_eq_some_iff, Prod.mk.injEq] at happ
    obtain ⟨r, hr, -, ht⟩ := happ
    exact ⟨r, hr, ht⟩
  refine ⟨t', ?_, by simpa only [mapApply, empty_erase] using hm'⟩
  rw [importLoop, hitem]
  cases pad with
  | zero => simp [applyItem, dropVarFromSet, hr, ht]
  | succ pad => simp [applyItem, dropVarFromSet, hr, ht, List.replicate_succ]

theorem created_noTomb (n : ℕ) (hn : 2 ≤ n) (hb : n < 1073741824) (t : HTab)
    (h : hcreateR n = some t) : NoTomb t := by
  obtain ⟨-, -, he⟩ := hcreateR_spec n hn hb t h
  intro i _ _
  rw [he]
  simp [blank]

/-! ## The round trip -/

/-- The export stays in its buffer and lists the bindings with their names in
increasing order, and reading it back gives a table for the same map. -/
def RoundTrip (h : Hooks) (t : HTab) (m : EnvMap) (sep : UInt8) (resp calloc : Bool) (size : ℕ)
    (htab : Option HTab) (flag : ℕ) : Prop :=
  ∃ (e : Export) (es : List (CStr × CStr)), hexportR t sep 0 resp calloc size [] = .ok e ∧
    e.Inside ∧ e.text = es.flatMap (fun p => encode sep p.1 p.2) ++ [0] ∧
    (∀ k v, (k, v) ∈ es ↔ m.lookup k = some v) ∧ (es.map fun p => rank p.1).Pairwise (· < ·) ∧
    ∃ t', himportR h htab true e.buffer sep flag [] = some (1, some t') ∧ Models t' m

def sorted (t : HTab) : List (CStr × CStr) := (qsort (liveEntries t)).map binding

theorem mem_sorted (t : HTab) (m : EnvMap) (hm : Models t m) (k v : CStr) :
    (k, v) ∈ sorted t ↔ m.lookup k = some v := by
  have hp := (qsort_perm (liveEntries t)).map binding
  rw [sorted, hp.mem_iff]
  constructor
  · intro hmem
    obtain ⟨e, he, hb⟩ := List.mem_map.mp hmem
    have hl := mem_liveEntries t m hm e he
    rw [binding, Prod.mk.injEq] at hb
    rwa [hb.1, hb.2] at hl
  · exact liveEntries_of_lookup t m hm k v

theorem sorted_nodup (t : HTab) (m : EnvMap) (hm : Models t m) :
    ((sorted t).map Prod.fst).Nodup := by
  rw [sorted, List.map_map]
  exact ((qsort_perm (liveEntries t)).map _).nodup_iff.mpr (liveEntries_keys_nodup t m hm)

theorem insertAll_sorted (t : HTab) (m : EnvMap) (hm : Models t m) : insertAll ∅ (sorted t) = m := by
  refine Finmap.ext_lookup fun k => Option.ext fun v => ?_
  rw [insertAll_lookup (sorted t) (sorted_nodup t m hm), mem_sorted t m hm]
  simp

theorem exported_text (t : HTab) (sep : UInt8) (size : ℕ) :
    (exported t sep size).text = (sorted t).flatMap (fun p => encode sep p.1 p.2) ++ [0] := by
  simp only [exported, sorted, List.flatMap_map]
  rfl

/-- Every entry takes some text, so the loop has a round for each of them. -/
theorem length_le_encoded (sep : UInt8) (es : List (CStr × CStr)) :
    es.length ≤ (es.flatMap fun p => encode sep p.1 p.2).length := by
  induction es with
  | nil => simp
  | cons e es ih =>
    have hpos : 0 < (encode sep e.1 e.2).length := by simp [encode]
    rw [List.flatMap_cons, List.length_cons, List.length_append]
    omega

theorem himport_exported (h : Hooks) (ha : Accepting h) (t : HTab) (m : EnvMap) (hm : Models t m)
    (sep : UInt8) (hs : backslash ≠ sep) (he : equals ≠ sep)
    (hok : ∀ k v, m.lookup k = some v → TextOk sep k v) (size : ℕ) (n : ℕ) (hn : 2 ≤ n)
    (hb : n < 1073741824) (t0 : HTab) (hc : hcreateR n = some t0)
    (hroom : m.keys.card ≤ t0.size) (htab : Option HTab) (flag : ℕ)
    (himp : importTable htab (exported t sep size).buffer.length flag = some t0) :
    ∃ t', himportR h htab true (exported t sep size).buffer sep flag [] = some (1, some t') ∧
      Models t' m := by
  have hins := insertAll_sorted t m hm
  have hm0 := created_models n hn hb t0 hc
  have hlen : (sorted t).length = m.keys.card := by
    rw [sorted, List.length_map, (qsort_perm _).length_eq, liveEntries_length t m hm]
  have hloop : ∃ t', importLoop h sep flag ((exported t sep size).buffer.length+1)
      (exported t sep size).buffer t0 [] = some (t', []) ∧ Models t' m := by
    have hfuel : (sorted t).length ≤ (exported t sep size).buffer.length := by
      have hl := length_le_encoded sep (sorted t)
      rw [Export.buffer, exported_text]
      simp only [List.length_append]
      omega
    generalize (exported t sep size).buffer.length = fuel at hfuel
    rw [Export.buffer, exported_text]
    generalize hrep : List.replicate _ (0 : UInt8) = pad
    cases hsort : sorted t with
    | nil =>
      rw [hsort] at hins
      rw [← hins, ← hrep]
      exact importLoop_empty h ha sep flag _ fuel t0 hm0
    | cons e es =>
      have hmem : ∀ p ∈ e::es, m.lookup p.1 = some p.2 := by
        intro p hp
        exact (mem_sorted t m hm p.1 p.2).mp (by rw [hsort]; exact hp)
      have hnd := sorted_nodup t m hm
      rw [hsort] at hins hnd hlen hfuel
      rw [← hins, List.append_assoc]
      refine importLoop_encode h ha sep hs he flag _ es e (fun p hp => hok _ _ (hmem p hp)) hnd t0 ∅
        hm0 (created_noTomb n hn hb t0 hc) (fun p _ => Finmap.notMem_empty) ?_ _ ?_
      · rw [Finmap.keys_empty, Finset.card_empty, Nat.zero_add]
        exact hlen.trans_le hroom
      · simp only [List.length_cons] at hfuel
        omega
  obtain ⟨t', hl, hm'⟩ := hloop
  refine ⟨t', ?_, hm'⟩
  simp [himportR, himp, hl, deleteRest]

/-- The table of five slots after some entries. -/
def filledTable (ops : List Op) : HTab :=
  ((run permissive ops (emptyTable 5)).map Prod.snd).getD (emptyTable 5)

theorem filledTable_models (ops : List Op) (hc : Clear permissive ops (emptyTable 5)) :
    Models (filledTable ops) (mapRun 5 ops ∅).2 := by
  obtain ⟨t', hr, -, hm⟩ := run_models permissive permissive_accepting ops (emptyTable 5) ∅
    (created_models 2 (by decide) (by decide) _ hcreateR_two) hc
  rw [filledTable, hr]
  exact hm

theorem clear_enter (k v : CStr) : Clear permissive [.enter k v 0] (emptyTable 5) :=
  ⟨fun hc => absurd hc.2.1 (by simp [emptyTable, blank]), fun _ _ _ => trivial⟩

theorem lookup_single (k v k' v' : CStr)
    (h : (mapRun 5 [.enter k v 0] ∅).2.lookup k' = some v') : k' = k ∧ v' = v := by
  have hm : (mapRun 5 [.enter k v 0] ∅).2 = (∅ : EnvMap).insert k v := by
    simp [mapRun, mapApply]
  rw [hm] at h
  by_cases hk : k' = k
  · subst hk
    rw [Finmap.lookup_insert, Option.some_inj] at h
    exact ⟨rfl, h.symm⟩
  · rw [Finmap.lookup_insert_of_ne _ hk, Finmap.lookup_empty] at h
    cases h

end UBoot.EnvText
