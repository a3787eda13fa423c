import UBoot.EnvImport
import UBoot.EnvRoundTrip
import UBoot.EnvScan
import UBoot.HashTableEffect

/-!
# Importing a packed environment image

`himport_r` reads each `name=value` of an image in its own way: blanks in
front of the name are skipped, a `#` makes the entry a comment, an empty value
deletes, escape characters are dropped, and a later entry replaces an earlier
one. A scan of the image does none of this.
-/

set_option autoImplicit false

namespace UBoot.EnvText
open UBoot.HashTable UBoot.OpenAddressing UBoot.ByteStore UBoot.EnvScan

/-! ## Parsing an entry of an image -/

/-- What the value loop keeps: an escape character is dropped unless it is the last one. -/
def unescaped : CStr → CStr
  | [] => []
  | [c] => [c]
  | c::d::v => if c = backslash then d::unescaped v else c::unescaped (d::v)

theorem parseValue_nul (v : CStr) (hv : 0 ∉ v) (rest : List UInt8) :
    parseValue 0 (v ++ 0::rest) = some (unescaped v, rest) := by
  induction v using unescaped.induct with
  | case1 => exact parseValue_end 0 rest
  | case2 c =>
    have hc : c ≠ 0 := fun h => hv (by simp [h])
    simp [parseValue, hc, parseValue_end, unescaped]
  | case3 d v ih =>
    rw [List.mem_cons, List.mem_cons, not_or, not_or] at hv
    rw [List.cons_append, List.cons_append,
      parseValue_escape 0 d _ (Ne.symm hv.2.1) (by decide), ih hv.2.2, unescaped, if_pos rfl]
    rfl
  | case4 c d v hc ih =>
    have hv' : 0 ∉ d::v := fun h => hv (List.mem_cons_of_mem c h)
    have h0 : c ≠ 0 := fun h => hv (by simp [h])
    rw [List.cons_append, List.cons_append, parseValue_plain 0 c d _ h0 h0 hc, ← List.cons_append,
      ih hv', unescaped, if_neg hc]
    rfl

/-- The item that an entry of an image is read as. -/
def itemOf (e : Pair) : Item :=
  let name := e.1.dropWhile isblank
  if name.head? = some 35 then .comment
  else if e.2 = [] then .delete name else .set name (unescaped e.2)

/-- An entry whose name does not start with a blank. -/
theorem parseItem_name (text n v rest : List UInt8)
    (htext : text.dropWhile isblank = n ++ 61::(v ++ 0::rest)) (hn : ∀ c ∈ n, c ≠ 61 ∧ c ≠ 0)
    (hv : 0 ∉ v) :
    parseItem 0 text = some (if n.head? = some 35 then .comment
      else if v = [] then .delete n else .set n (unescaped v), rest) := by
  obtain ⟨c, r, hcr⟩ : ∃ c r, n ++ 61::(v ++ 0::rest) = c::r :=
    List.exists_cons_of_ne_nil (by simp)
  have hhead : n.head? = some 35 ↔ c = 35 := by
    cases n with
    | nil =>
      rw [List.nil_append, List.cons.injEq] at hcr
      rw [← hcr.1]
      simp
    | cons d n =>
      rw [List.cons_append, List.cons.injEq] at hcr
      rw [hcr.1, List.head?_cons, Option.some.injEq]
  rw [parseItem, htext, hcr]
  simp only [hhead]
  by_cases hc : c = 35
  · rw [if_pos hc, if_pos hc, ← hcr]
    have hline := (takeWhile_stop (fun c => c ≠ 0 && c ≠ (0 : UInt8)) (n ++ 61::v) 0 rest
      (fun x hx => by
        have hx0 : x ≠ 0 := by
          rintro rfl
          rcases List.mem_append.mp hx with hx | hx
          · exact (hn 0 hx).2 rfl
          · exact hv (by simpa using hx)
        simp [hx0]) (by simp)).2
    rw [List.append_assoc, List.cons_append] at hline
    rw [hline]
  · rw [if_neg hc, if_neg hc, ← hcr]
    obtain ⟨htake, hdrop⟩ := takeWhile_stop (fun x => x ≠ equals && x ≠ 0 && x ≠ (0 : UInt8)) n 61
      (v ++ 0::rest) (fun x hx => by simp [equals, (hn x hx).1, (hn x hx).2]) (by simp [equals])
    rw [htake, hdrop]
    simp only [show (61 : UInt8) ≠ 0 by decide, if_false]
    cases v with
    | nil => simp [equals]
    | cons d v =>
      have hd : d ≠ 0 := fun h => hv (by simp [h])
      simp only [List.cons_append, hd, or_self, if_false,
        reduceCtorEq]
      rw [← List.cons_append, parseValue_nul (d::v) hv rest]
      rfl

theorem parseItem_line (e : Pair) (he : Proper e) (rest : List UInt8) :
    parseItem 0 (line e ++ rest) = some (itemOf e, rest) := by
  obtain ⟨k, v⟩ := e
  obtain ⟨hk0, hk, hv⟩ := he
  have hstop : ¬isblank 61 = true := by decide
  have htext : line (k, v) ++ rest = k ++ 61::(v ++ 0::rest) := by simp [line]
  refine parseItem_name _ (k.dropWhile isblank) v rest ?_ (fun c hc => ?_) hv
  · rw [htext, List.dropWhile_append]
    cases hd : k.dropWhile isblank with
    | nil => simp [List.dropWhile_cons_of_neg hstop]
    | cons c n => rfl
  · have hm := (List.dropWhile_sublist _).mem hc
    exact ⟨fun h => hk (h ▸ hm), fun h => hk0 (h ▸ hm)⟩

/-! ## The operations of an import -/

/-- The operation that an entry of an image leads to. -/
def operations (e : Pair) : List Op := (itemOps 0 [] (itemOf e)).1

/-- The operations of an image; the terminator of an empty one is taken for a deletion. -/
def imported (es : List Pair) : List Op :=
  if es = [] then [.delete [] 0] else es.flatMap operations

theorem itemOps_nil (flag : ℕ) (item : Item) : (itemOps flag [] item).2 = [] := by
  cases item <;> rfl

theorem importOps_packed (es : List Pair) (hne : es ≠ []) (hp : ∀ e ∈ es, Proper e) (fuel : ℕ)
    (hf : es.length ≤ fuel) (pad : List UInt8) :
    importOps 0 0 fuel (packed es ++ 0::pad) [] = some (es.flatMap operations, []) := by
  induction es generalizing fuel with
  | nil => exact absurd rfl hne
  | cons e es ih =>
    obtain ⟨n, rfl⟩ : ∃ n, fuel = n+1 := ⟨fuel-1, by rw [List.length_cons] at hf; omega⟩
    have hitem := parseItem_line e (hp e (List.mem_cons_self ..)) (packed es ++ 0::pad)
    have hend : itemOps 0 [] (itemOf e) = (operations e, []) :=
      Prod.ext rfl (itemOps_nil 0 (itemOf e))
    rw [packed_cons, List.append_assoc, importOps, hitem]
    cases es with
    | nil => simp [hend]
    | cons e' es =>
      have hp' := fun x hx => hp x (List.mem_cons_of_mem e hx)
      obtain ⟨c, s, hc, h0⟩ := line_head e' (hp' e' (List.mem_cons_self ..))
      have hrest : packed (e'::es) ++ 0::pad = c::(s ++ packed es ++ 0::pad) := by
        rw [packed_cons, hc]
        simp
      have hrec := ih (List.cons_ne_nil e' es) hp' n (by
        rw [List.length_cons] at hf
        omega)
      rw [hrest] at hrec ⊢
      simp only [Option.bind_some, if_neg h0, hend, hrec, Option.map_some]
      rfl

/-- The text that `himport_r` is given: an image and what follows it. -/
theorem load_image (data : Memory) (size : ℕ) (es : List Pair) (hi : Image data size es) :
    ∃ pad, load data 0 size = image es ++ pad := by
  have hsize : size = (image es).length+(size-(image es).length) := by
    have := hi.fits
    omega
  refine ⟨load data (image es).length (size-(image es).length), ?_⟩
  have hload := hi.holds.load_eq
  rw [load] at hload ⊢
  conv_lhs => rw [hsize, ← List.range'_append_1, List.map_append, hload]
  rw [Nat.zero_add]
  rfl

theorem load_length (data : Memory) (p n : ℕ) : (load data p n).length = n := by simp [load]

theorem himportOps_image (data : Memory) (size : ℕ) (es : List Pair) (hi : Image data size es) :
    himportOps (load data 0 size) 0 0 [] = some (imported es) := by
  obtain ⟨pad, hpad⟩ := load_image data size es hi
  have hops : importOps 0 0 ((load data 0 size).length+1) (load data 0 size) [] =
      some (imported es, []) := by
    by_cases hes : es = []
    · rw [hpad, hes]
      simp [importOps, image, parseItem, isblank, imported, itemOps, dropVarFromSet]
    · have hlen := packed_length_ge es
      have hlt := hi.length_lt
      rw [load_length, hpad, image, if_neg hes, List.append_assoc, List.singleton_append,
        importOps_packed es hes hi.proper _ (by omega), imported, if_neg hes]
  rw [himportOps, List.map_nil, hops, Option.map_some]
  simp [deleteOps]

/-! ## The map that an import leaves -/

/-- A name that the parser takes as it is. -/
def PlainName (name : CStr) : Prop := ∀ c, name.head? = some c → isblank c = false ∧ c ≠ 35

theorem operations_plain (e : Pair) (h : PlainName e.1) :
    operations e = [if e.2 = [] then .delete e.1 0 else .enter e.1 (unescaped e.2) 0] := by
  have hname : e.1.dropWhile isblank = e.1 := by
    cases hk : e.1 with
    | nil => rfl
    | cons c k => exact List.dropWhile_cons_of_neg (by simp [(h c (by rw [hk]; rfl)).1])
  have hhead : e.1.head? ≠ some 35 := fun hc => (h 35 hc).2 rfl
  simp only [operations, itemOf, hname, if_neg hhead]
  by_cases hv : e.2 = []
  · rw [if_pos hv, if_pos hv]
    rfl
  · rw [if_neg hv, if_neg hv]
    rfl

/-- An operation is on a plain name only. -/
theorem operations_cases (e : Pair) : operations e = [] ∨ ∃ n, PlainName n ∧
    (operations e = [.delete n 0] ∨ ∃ v, operations e = [.enter n v 0]) := by
  simp only [operations, itemOf]
  by_cases hc : (e.1.dropWhile isblank).head? = some 35
  · rw [if_pos hc]
    exact .inl rfl
  · have hplain : PlainName (e.1.dropWhile isblank) := by
      intro c hc'
      have hblank := List.head?_dropWhile_not isblank e.1
      rw [hc'] at hblank
      exact ⟨by simpa using hblank, fun h => hc (by rw [hc', h])⟩
    rw [if_neg hc]
    refine .inr ⟨_, hplain, ?_⟩
    by_cases hv : e.2 = []
    · rw [if_pos hv]
      exact .inl rfl
    · rw [if_neg hv]
      exact .inr ⟨_, rfl⟩

theorem mapRun_append (cap : ℕ) (ops ops' : List Op) (m : EnvMap) :
    (mapRun cap (ops++ops') m).2 = (mapRun cap ops' (mapRun cap ops m).2).2 := by
  induction ops generalizing m with
  | nil => rfl
  | cons op ops ih => exact ih _

/-- The map after the entries of an image. -/
def after (cap : ℕ) (es : List Pair) (m : EnvMap) : EnvMap :=
  (mapRun cap (es.flatMap operations) m).2

theorem after_cons (cap : ℕ) (e : Pair) (es : List Pair) (m : EnvMap) :
    after cap (e::es) m = after cap es (mapRun cap (operations e) m).2 := by
  rw [after, List.flatMap_cons, mapRun_append]
  rfl

theorem mapApply_lookup_other (cap : ℕ) (m : EnvMap) (key v other : CStr) (flag : ℕ)
    (h : other ≠ key) :
    (mapApply cap m (.enter key v flag)).2.lookup other = m.lookup other ∧
      (mapApply cap m (.delete key flag)).2.lookup other = m.lookup other := by
  constructor
  · rw [mapApply]
    split
    · exact Finmap.lookup_insert_of_ne m h
    · rfl
  · exact Finmap.lookup_erase_ne h

/-- A name that is not plain is never entered. -/
theorem after_unplain (cap : ℕ) (es : List Pair) (m : EnvMap) (k : CStr) (hk : ¬PlainName k) :
    (after cap es m).lookup k = m.lookup k := by
  induction es generalizing m with
  | nil => rfl
  | cons e es ih =>
    rw [after_cons, ih]
    rcases operations_cases e with hop | ⟨n, hn, hop | ⟨v, hop⟩⟩
    · rw [hop]
      rfl
    · have hne : k ≠ n := fun h => hk (h ▸ hn)
      rw [hop]
      exact (mapApply_lookup_other cap m n [] k 0 hne).2
    · have hne : k ≠ n := fun h => hk (h ▸ hn)
      rw [hop]
      exact (mapApply_lookup_other cap m n v k 0 hne).1

def names (es : List Pair) : Finset CStr := (es.map Prod.fst).toFinset

/-- What the last entry of a name leaves of it. -/
def outcome (v : CStr) : Option CStr := if v = [] then none else some (unescaped v)

/-- The map after one entry with a plain name, for which there is room. -/
def entered (e : Pair) (m : EnvMap) : EnvMap :=
  if e.2 = [] then m.erase e.1 else m.insert e.1 (unescaped e.2)

theorem entered_lookup (e : Pair) (m : EnvMap) (k : CStr) :
    (entered e m).lookup k = if e.1 = k then outcome e.2 else m.lookup k := by
  unfold entered outcome
  by_cases hv : e.2 = []
  · rw [if_pos hv, if_pos hv]
    by_cases hk : e.1 = k
    · rw [if_pos hk, hk, Finmap.lookup_erase]
    · rw [if_neg hk, Finmap.lookup_erase_ne (Ne.symm hk)]
  · rw [if_neg hv, if_neg hv]
    by_cases hk : e.1 = k
    · rw [if_pos hk, hk, Finmap.lookup_insert]
    · rw [if_neg hk, Finmap.lookup_insert_of_ne m (Ne.symm hk)]

theorem entered_keys (e : Pair) (m : EnvMap) : (entered e m).keys ⊆ insert e.1 m.keys := by
  unfold entered
  split
  · rw [Finmap.keys_erase]
    exact (Finset.erase_subset _ _).trans (Finset.subset_insert _ _)
  · rw [keys_insert_card]

theorem mapRun_entry (cap : ℕ) (e : Pair) (he : PlainName e.1) (m : EnvMap)
    (hroom : e.1 ∈ m ∨ m.keys.card < cap) :
    (mapRun cap (operations e) m).2 = entered e m := by
  rw [operations_plain e he, entered]
  by_cases hv : e.2 = []
  · rw [if_pos hv, if_pos hv]
    rfl
  · rw [if_neg hv, if_neg hv]
    change (mapApply cap m (.enter e.1 (unescaped e.2) 0)).2 = _
    rw [mapApply, if_pos hroom]

/-- With room for every name, the last entry of a name decides. -/
theorem after_lookup (cap : ℕ) (es : List Pair) (hp : ∀ e ∈ es, PlainName e.1) (m : EnvMap)
    (hroom : (m.keys ∪ names es).card ≤ cap) (k : CStr) :
    (after cap es m).lookup k = match lookup k es.reverse with
      | none => m.lookup k
      | some v => outcome v := by
  induction es generalizing m with
  | nil => rfl
  | cons e es ih =>
    obtain ⟨he, hp'⟩ := List.forall_mem_cons.mp hp
    have hnames : names (e::es) = insert e.1 (names es) := by simp [names]
    have hfits : e.1 ∈ m ∨ m.keys.card < cap := by
      by_cases hk : e.1 ∈ m
      · exact .inl hk
      · right
        refine lt_of_lt_of_le (Finset.card_lt_card ⟨Finset.subset_union_left, fun hsub => hk ?_⟩) hroom
        rw [← Finmap.mem_keys]
        exact hsub (by simp [hnames])
    have hroom' : ((entered e m).keys ∪ names es).card ≤ cap := by
      refine (Finset.card_le_card ?_).trans hroom
      rw [hnames, Finset.union_insert, ← Finset.insert_union]
      exact Finset.union_subset_union_left (entered_keys e m)
    rw [after_cons, mapRun_entry cap e he m hfits, ih hp' _ hroom', List.reverse_cons, lookup_append,
      entered_lookup]
    cases lookup k es.reverse with
    | some v => rfl
    | none =>
      rw [Option.none_or, lookup, lookup]
      by_cases hk : e.1 = k
      · simp only [if_pos hk]
      · simp only [if_neg hk]

/-! ## Faithful images -/

/-- The condition under which an import keeps what a scan of the image finds: plain names, room
for all of them, and for each name a last value that is not empty and is, without its escape
characters, the first one. -/
structure Faithful (cap : ℕ) (es : List Pair) : Prop where
  plain : ∀ e ∈ es, PlainName e.1
  room : (names es).card ≤ cap
  values : ∀ name v, lookup name es = some v →
    ∃ w, lookup name es.reverse = some w ∧ w ≠ [] ∧ unescaped w = v

theorem lookup_of_mem (es : List Pair) (e : Pair) (he : e ∈ es) : ∃ v, lookup e.1 es = some v := by
  induction es with
  | nil => exact absurd he List.not_mem_nil
  | cons d es ih =>
    rw [lookup]
    by_cases hd : d.1 = e.1
    · exact ⟨d.2, if_pos hd⟩
    · rw [if_neg hd]
      rcases List.mem_cons.mp he with rfl | he
      · exact absurd rfl hd
      · exact ih he

theorem mem_of_lookup (es : List Pair) (name v : CStr) (h : lookup name es = some v) :
    (name, v) ∈ es := by
  induction es with
  | nil => cases h
  | cons e es ih =>
    rw [lookup] at h
    by_cases he : e.1 = name
    · rw [if_pos he, Option.some.injEq] at h
      rw [← he, ← h]
      exact List.mem_cons_self ..
    · rw [if_neg he] at h
      exact List.mem_cons_of_mem e (ih h)

theorem after_faithful (cap : ℕ) (es : List Pair) (hf : Faithful cap es) (k : CStr) :
    (after cap es ∅).lookup k = lookup k es := by
  rw [after_lookup cap es hf.plain ∅ (by simpa using hf.room)]
  cases hl : lookup k es with
  | some v =>
    obtain ⟨w, hw, hne, hv⟩ := hf.values k v hl
    simp only [hw, outcome, if_neg hne, hv]
  | none =>
    cases hr : lookup k es.reverse with
    | none => simp
    | some w =>
      obtain ⟨v, hv⟩ := lookup_of_mem es (k, w) (by simpa using mem_of_lookup _ k w hr)
      rw [hl] at hv
      cases hv

/-- An import that keeps the first value of every name is one of a faithful image. -/
theorem faithful_of_after (cap : ℕ) (es : List Pair) (hcap : (after cap es ∅).keys.card ≤ cap)
    (h : ∀ name v, lookup name es = some v → (after cap es ∅).lookup name = some v) :
    Faithful cap es := by
  have hplain : ∀ e ∈ es, PlainName e.1 := by
    intro e he
    by_contra hno
    obtain ⟨v, hv⟩ := lookup_of_mem es e he
    have hkeep := h e.1 v hv
    rw [after_unplain cap es ∅ e.1 hno, Finmap.lookup_empty] at hkeep
    cases hkeep
  have hsub : names es ⊆ (after cap es ∅).keys := by
    intro k hk
    obtain ⟨e, he, rfl⟩ := List.mem_map.mp (List.mem_toFinset.mp hk)
    obtain ⟨v, hv⟩ := lookup_of_mem es e he
    rw [Finmap.mem_keys, ← Finmap.lookup_isSome, h e.1 v hv]
    rfl
  have hroom := (Finset.card_le_card hsub).trans hcap
  refine ⟨hplain, hroom, fun name v hv => ?_⟩
  have hkeep := h name v hv
  rw [after_lookup cap es hplain ∅ (by simpa using hroom)] at hkeep
  cases hr : lookup name es.reverse with
  | none =>
    rw [hr] at hkeep
    cases hkeep
  | some w =>
    rw [hr] at hkeep
    refine ⟨w, rfl, ?_⟩
    simp only [outcome] at hkeep
    by_cases hw : w = []
    · rw [if_pos hw] at hkeep
      cases hkeep
    · rw [if_neg hw, Option.some.injEq] at hkeep
      exact ⟨hw, hkeep⟩

/-! ## The import -/

theorem same_noTomb {t t' : HTab} (hs : SameContents t t') (hn : NoTomb t) : NoTomb t' := by
  intro i hi hin
  rw [(hs.2.2 i).1]
  exact hn i hi (hin.trans_eq hs.1)

section
variable (h : Hooks) (ha : Accepting h)
include ha

theorem accepting_lawful : Lawful h := by
  refine ⟨ha.malloc, fun c t key v op flag t' hc => ?_⟩
  obtain ⟨t'', hc', hsame⟩ := ha.callback c t key v op flag
  rw [hc, Option.some.injEq] at hc'
  rw [hc']
  exact hsame

/-- Entries leave no tombstones. -/
theorem enter_noTomb (key v : CStr) (flag : ℕ) (t t' : HTab) (m m' : EnvMap) (hn : NoTomb t)
    (he : Effect h t m (.enter key v flag) t' m') : NoTomb t' := by
  cases he with
  | full _ _ _ _ _ => exact hn
  | refused _ _ _ i d hlive hno => exact hn
  | overwritten _ _ _ i d t1 hi hin hlive hok hcb =>
    have hn1 := same_noTomb ((accepting_lawful h ha).runCallback hcb) hn
    intro j hj hjn
    rw [HTab.setEntry]
    by_cases hji : j = i
    · rw [hji, setSlot_same]
      exact hji ▸ hn1 j hj hjn
    · rw [setSlot_other _ _ _ _ hji]
      exact hn1 j hj hjn
  | withdrawn _ _ _ i hi hin habs hfree hno =>
    obtain ⟨t1, hcb, -⟩ := accepting_runCallback h ha (seeded h key v t i) i key (some v) .create flag
    rcases hno with hno | hno
    · rw [accepting_denied h ha] at hno
      cases hno
    · rw [hcb] at hno
      cases hno
  | created _ _ _ i _ hi hin habs hfree hnew hok hcb =>
    refine same_noTomb ((accepting_lawful h ha).runCallback hcb) fun j hj hjn => ?_
    obtain ⟨hsize, -, hother, hslot⟩ := seeded_slots h key v t i
    by_cases hji : j = i
    · have hpos := home_pos t.size key
      rw [hji, hslot]
      change (homeIndex t.size key : ℤ) ≠ -1
      omega
    · rw [hother j hji]
      exact hn j hj (hjn.trans_eq hsize)

theorem clear_of_enters (ops : List Op) (hops : ∀ op ∈ ops, ∃ key v flag, op = .enter key v flag)
    (t : HTab) (m : EnvMap) (hm : Models t m) (hn : NoTomb t) : Clear h ops t := by
  induction ops generalizing t m with
  | nil => trivial
  | cons op ops ih =>
    obtain ⟨⟨key, v, flag, rfl⟩, hops'⟩ := List.forall_mem_cons.mp hops
    have hav := noTomb_avoids t m hm hn key
    refine ⟨hav, fun a t' happ => ?_⟩
    obtain ⟨a', t'', m', happ', he, hm', -⟩ :=
      step_effect h (accepting_lawful h ha) (.enter key v flag) t m hm hav
    rw [happ, Option.some.injEq, Prod.mk.injEq] at happ'
    rw [← happ'.2] at he hm'
    exact ih hops' t' m' hm' (enter_noTomb h ha key v flag t t' m m' hn he)

/-- Without empty values nothing is deleted. -/
theorem imported_clear (es : List Pair) (hv : ∀ e ∈ es, e.2 ≠ []) (t : HTab) (m : EnvMap)
    (hm : Models t m) (hn : NoTomb t) : Clear h (imported es) t := by
  unfold imported
  by_cases hes : es = []
  · rw [if_pos hes]
    exact ⟨trivial, fun _ _ _ => trivial⟩
  · rw [if_neg hes]
    refine clear_of_enters h ha _ (fun op hop => ?_) t m hm hn
    obtain ⟨e, he, hop⟩ := List.mem_flatMap.mp hop
    rw [operations, itemOf] at hop
    simp only [if_neg (hv e he)] at hop
    split at hop
    · exact absurd hop List.not_mem_nil
    · exact ⟨_, _, _, List.mem_singleton.mp hop⟩

/-- `himport_r` of an image into a new table keeps what a scan of the image finds exactly if the
image is faithful. -/
theorem himport_image (htab : Option HTab) (data : Memory) (size : ℕ) (es : List Pair)
    (hi : Image data size es) (t0 : HTab) (ht0 : importTable htab size 0 = some t0)
    (hclear : (∃ e ∈ es, e.2 = []) → Clear h (imported es) t0) :
    ∃ t' m', himportR h htab true (load data 0 size) 0 0 [] = some (1, some t') ∧ Models t' m' ∧
      ((∀ name v, lookup name es = some v → m'.lookup name = some v) ↔ Faithful t0.size es) ∧
      (Faithful t0.size es → ∀ name, m'.lookup name = lookup name es) := by
  have hfresh : hcreateR (min (configEnvMinEntries+size/8) configEnvMaxEntries) = some t0 := ht0
  have hlow : 2 ≤ min (configEnvMinEntries+size/8) configEnvMaxEntries := by
    unfold configEnvMinEntries configEnvMaxEntries
    omega
  have hhigh : min (configEnvMinEntries+size/8) configEnvMaxEntries < 1073741824 := by
    unfold configEnvMaxEntries
    omega
  have hm0 := created_models _ hlow hhigh t0 hfresh
  have hclear' : Clear h (imported es) t0 := by
    by_cases hv : ∃ e ∈ es, e.2 = []
    · exact hclear hv
    · exact imported_clear h ha es (fun e he h0 => hv ⟨e, he, h0⟩) t0 ∅ hm0
        (created_noTomb _ hlow hhigh t0 hfresh)
  obtain ⟨t', hrun, hsize, hm'⟩ := run_models h ha (imported es) t0 ∅ hm0 hclear'
  have hmap : (mapRun t0.size (imported es) ∅).2 = after t0.size es ∅ := by
    by_cases hes : es = []
    · rw [imported, if_pos hes, hes]
      exact empty_erase []
    · rw [imported, if_neg hes, after]
  rw [hmap] at hm'
  have hcap : (after t0.size es ∅).keys.card ≤ t0.size := by
    rw [← hm'.filled, ← hsize]
    exact hm'.capacity
  refine ⟨t', _, ?_, hm', ⟨faithful_of_after t0.size es hcap, fun hf name v hv => ?_⟩,
    after_faithful t0.size es⟩
  · rw [himportR_run h htab (load data 0 size) 0 0 [] t0 (by rw [load_length]; exact ht0),
      himportOps_image data size es hi, Option.bind_some, hrun, Option.map_some]
  · rw [after_faithful t0.size es hf, hv]

end

end UBoot.EnvText
