import UBoot.EnvText
import UBoot.HashTableMap

/-!
# What `hexport_r` writes

The live entries of a table are the bindings of the map it represents, each
once. Sorting permutes them, and puts them in byte order whenever `strcmp`
agrees with that order on the names present: its result is the difference of
two characters cut to a `signed char`, so it does for names whose bytes are
below 128. The stores of pass 2 exceed the length of pass 1 only for
the separator NUL, and then by the number of backslashes beyond two an entry.
-/

set_option autoImplicit false

namespace UBoot.EnvText
open UBoot.HashTable UBoot.OpenAddressing

/-! ## Order of names -/

/-- The bytes of a name as numbers, in lexicographic order. -/
def rank (k : CStr) : List ℕ := k.map UInt8.toNat

theorem rank_injective : Function.Injective rank :=
  List.map_injective_iff.mpr fun _ _ h => UInt8.toNat_inj.mp h

/-- `strcmp` tells the byte order of any two names of the map. -/
def Comparable (m : EnvMap) : Prop :=
  ∀ k ∈ m, ∀ k' ∈ m, (strcmp k k' ≤ 0 ↔ rank k ≤ rank k')

/-! ## Entries and bindings -/

def binding (e : Entry) : CStr × CStr := (deref e.key, deref e.data)

theorem mem_liveEntries (t : HTab) (m : EnvMap) (hm : Models t m) (e : Entry)
    (he : e ∈ liveEntries t) : m.lookup (deref e.key) = some (deref e.data) := by
  obtain ⟨i, hi, rfl⟩ := List.mem_map.mp he
  obtain ⟨hr, hu⟩ := List.mem_filter.mp hi
  have hu' : 0 < (t.table i).used := by simpa using hu
  have hr' := List.mem_range'_1.mp hr
  rcases hm.wf.slots i with h | h | ⟨k, d, hk, hd, h⟩
  · omega
  · omega
  · rw [hk, hd]
    exact represents_live _ _ hm.represents i k d (by omega) (by omega)
      ((cell_live_iff t.size _ (hm.wf.slots i) k d).mpr ⟨h, hk, hd⟩)

theorem liveEntries_of_lookup (t : HTab) (m : EnvMap) (hm : Models t m) (k v : CStr)
    (h : m.lookup k = some v) : (k, v) ∈ (liveEntries t).map binding := by
  obtain ⟨i, hi, hin, hl⟩ := (hm.represents k v).mp h
  obtain ⟨hu, hk, hd⟩ := (cell_live_iff t.size _ (hm.wf.slots i) k v).mp hl
  have hp := home_pos t.size k
  refine List.mem_map.mpr ⟨(t.table i).entry, ?_, by simp [binding, hk, hd, deref]⟩
  refine List.mem_map.mpr ⟨i, List.mem_filter.mpr ⟨List.mem_range'_1.mpr (by omega), ?_⟩, rfl⟩
  simpa using (by omega : 0 < (t.table i).used)

theorem liveEntries_keys_nodup (t : HTab) (m : EnvMap) (hm : Models t m) :
    ((liveEntries t).map fun e => deref e.key).Nodup := by
  rw [liveEntries, List.map_map]
  refine List.Nodup.map_on ?_ (List.Nodup.filter _ (List.nodup_range'))
  intro i hi j hj hij
  obtain ⟨hri, hui⟩ := List.mem_filter.mp hi
  obtain ⟨hrj, huj⟩ := List.mem_filter.mp hj
  have hui' : 0 < (t.table i).used := by simpa using hui
  have huj' : 0 < (t.table j).used := by simpa using huj
  have hri' := List.mem_range'_1.mp hri
  have hrj' := List.mem_range'_1.mp hrj
  rcases hm.wf.slots i with h | h | ⟨k, d, hk, hd, h⟩
  · omega
  · omega
  rcases hm.wf.slots j with h' | h' | ⟨k', d', hk', hd', h'⟩
  · omega
  · omega
  have hkk : k = k' := by simpa [deref, hk, hk'] using hij
  subst hkk
  exact hm.wf.sound.single i j k d d' (by omega) (by omega) (by omega) (by omega)
    ((cell_live_iff t.size _ (hm.wf.slots i) k d).mpr ⟨h, hk, hd⟩)
    ((cell_live_iff t.size _ (hm.wf.slots j) k d').mpr ⟨h', hk', hd'⟩)

theorem liveEntries_length (t : HTab) (m : EnvMap) (hm : Models t m) :
    (liveEntries t).length = m.keys.card := by
  have hn := liveEntries_keys_nodup t m hm
  have he : ((liveEntries t).map fun e => deref e.key).toFinset = m.keys := by
    ext k
    rw [List.mem_toFinset, Finmap.mem_keys, ← Finmap.lookup_isSome, Option.isSome_iff_exists]
    constructor
    · intro hk
      obtain ⟨e, he, rfl⟩ := List.mem_map.mp hk
      exact ⟨_, mem_liveEntries t m hm e he⟩
    · rintro ⟨v, hv⟩
      obtain ⟨e, he, hb⟩ := List.mem_map.mp (liveEntries_of_lookup t m hm k v hv)
      exact List.mem_map.mpr ⟨e, he, congrArg Prod.fst hb⟩
  rw [← he, List.toFinset_card_of_nodup hn, List.length_map]

theorem selected_all (t : HTab) : selected t 0 [] = liveEntries t := by
  simp [selected]

/-! ## Sorting -/

theorem qsort_perm (l : List Entry) : (qsort l).Perm l := by
  have h := ShellSort.sort_perm (fun a b => decide (cmpkey a b ≤ 0)) l.length
    (fun i => l.getD i ⟨none, none, none, 0⟩)
  rwa [ShellSort.front_getD] at h

theorem qsort_sorted (l : List Entry)
    (hc : ∀ a ∈ l, ∀ b ∈ l, (cmpkey a b ≤ 0 ↔ rank (deref a.key) ≤ rank (deref b.key))) :
    (qsort l).Pairwise fun a b => rank (deref a.key) ≤ rank (deref b.key) := by
  have hs := ShellSort.sort_sorted (fun e : Entry => rank (deref e.key))
    (fun a b => decide (cmpkey a b ≤ 0)) l.length (fun i => l.getD i ⟨none, none, none, 0⟩) (by
      rw [ShellSort.front_getD]
      intro a ha b hb
      simpa using hc a ha b hb)
  rw [List.pairwise_iff_getElem]
  intro i j hi hj hij
  have hj' : j < l.length := by simpa [qsort, ShellSort.front] using hj
  simpa [qsort, ShellSort.front] using hs i j hij hj'

theorem qsort_strict (t : HTab) (m : EnvMap) (hm : Models t m) (hc : Comparable m) :
    ((qsort (liveEntries t)).map fun e => rank (deref e.key)).Pairwise (· < ·) := by
  have hmem : ∀ e ∈ liveEntries t, deref e.key ∈ m := by
    intro e he
    rw [← Finmap.lookup_isSome, mem_liveEntries t m hm e he]
    rfl
  have hs := qsort_sorted (liveEntries t) fun a ha b hb => hc _ (hmem a ha) _ (hmem b hb)
  have hn : ((qsort (liveEntries t)).map fun e => deref e.key).Nodup :=
    ((qsort_perm (liveEntries t)).map _).nodup_iff.mpr (liveEntries_keys_nodup t m hm)
  rw [List.pairwise_map]
  rw [List.Nodup, List.pairwise_map] at hn
  refine (hs.and hn).imp fun {a b} h => lt_of_le_of_ne h.1 fun he => h.2 (rank_injective he)

/-! ## Lengths -/

theorem escaped_length (sep : UInt8) (v : CStr) :
    (escaped sep v).length = v.length+v.countP (special sep) := by
  induction v with
  | nil => rfl
  | cons c v ih =>
    have hcons : escaped sep (c::v) =
        (if special sep c then [backslash, c] else [c]) ++ escaped sep v := rfl
    rw [hcons, List.length_append, ih, List.countP_cons]
    split_ifs <;> simp <;> omega

theorem encodeEntry_length (sep : UInt8) (e : Entry) :
    (encodeEntry sep e).length =
      (deref e.key).length+2+(deref e.data).length+(deref e.data).countP (special sep) := by
  simp only [encodeEntry, encode, List.length_append, List.length_cons, List.length_nil,
    escaped_length]
  omega

/-- The stores of pass 2 against the length of pass 1, entry by entry. -/
theorem text_length_newline (sep : UInt8) (hsep : sep ≠ 0) (es : List Entry) :
    (es.flatMap (encodeEntry sep)).length+2*es.length = totlen sep es := by
  induction es with
  | nil => rfl
  | cons e es ih =>
    have ht : totlen sep (e::es) = entryLen sep e+totlen sep es := by simp [totlen]
    rw [ht, ← ih, List.flatMap_cons, List.length_append, encodeEntry_length, entryLen, measured,
      if_neg hsep, List.length_cons]
    omega

/-- The number of backslashes in the values of a list of entries. -/
def backslashes (es : List Entry) : ℕ := (es.map fun e => (deref e.data).count backslash).sum

theorem countP_special_nul (v : CStr) (hv : ∀ c ∈ v, c ≠ 0) :
    v.countP (special 0) = v.count backslash := by
  rw [List.count, List.countP_congr]
  intro c hc
  simp [special, hv c hc]

theorem text_length_nul (es : List Entry) (hv : ∀ e ∈ es, ∀ c ∈ deref e.data, c ≠ 0) :
    (es.flatMap (encodeEntry 0)).length+2*es.length = totlen 0 es+backslashes es := by
  induction es with
  | nil => rfl
  | cons e es ih =>
    have ht : totlen 0 (e::es) = entryLen 0 e+totlen 0 es := by simp [totlen]
    have hb : backslashes (e::es) = (deref e.data).count backslash+backslashes es := by
      simp [backslashes]
    have ih' := ih fun x hx => hv x (by simp [hx])
    rw [ht, hb, List.flatMap_cons, List.length_append, encodeEntry_length, entryLen, measured,
      if_pos rfl, List.length_cons, countP_special_nul _ (hv e (by simp))]
    omega

theorem flatMap_length_perm (f : Entry → List UInt8) (l l' : List Entry) (h : l.Perm l') :
    (l.flatMap f).length = (l'.flatMap f).length :=
  (h.flatMap_right f).length_eq

/-- The export of a whole table to a buffer of a given size, or with size 0 to
one of the measured length. -/
def exported (t : HTab) (sep : UInt8) (size : ℕ) : Export :=
  ⟨(qsort (liveEntries t)).flatMap (encodeEntry sep) ++ [0],
    if size ≠ 0 then size else totlen sep (liveEntries t)+1⟩

theorem hexportR_all (t : HTab) (sep : UInt8) (resp calloc : Bool) (size : ℕ)
    (hbuf : (resp || calloc) = true) (hsize : size = 0 ∨ totlen sep (liveEntries t) < size) :
    hexportR t sep 0 resp calloc size [] = .ok (exported t sep size) := by
  have h1 : ¬ (size ≠ 0 ∧ size < totlen sep (liveEntries t)+1) := by omega
  have h2 : ¬ (!resp && !calloc) = true := by
    revert hbuf
    cases resp <;> cases calloc <;> decide
  simp only [hexportR, selected_all]
  rw [if_neg h1, if_neg h2]
  rfl

/-- The text stays in its buffer unless the separator is NUL and the values
have more backslashes than two for each entry and the unused bytes together. -/
theorem exported_inside_iff (t : HTab) (sep : UInt8) (size : ℕ)
    (hsize : size = 0 ∨ totlen sep (liveEntries t) < size)
    (hv : ∀ e ∈ liveEntries t, ∀ c ∈ deref e.data, c ≠ 0) :
    (exported t sep size).Inside ↔ sep ≠ 0 ∨ backslashes (liveEntries t) ≤
      2*(liveEntries t).length+(size-(totlen sep (liveEntries t)+1)) := by
  have hp := flatMap_length_perm (encodeEntry sep) _ _ (qsort_perm (liveEntries t))
  have hbuf : (if size ≠ 0 then size else totlen sep (liveEntries t)+1) =
      totlen sep (liveEntries t)+1+(size-(totlen sep (liveEntries t)+1)) := by
    split_ifs <;> omega
  simp only [Export.Inside, exported, List.length_append, hp, List.length_cons, List.length_nil,
    hbuf]
  by_cases hsep : sep = 0
  · subst hsep
    have hl := text_length_nul (liveEntries t) hv
    constructor
    · intro h
      exact .inr (by omega)
    · rintro (h | h)
      · exact absurd rfl h
      · omega
  · have hl := text_length_newline sep hsep (liveEntries t)
    exact ⟨fun _ => .inl hsep, fun _ => by omega⟩

/-! ## Any selection -/

def lengths (es : List Entry) : ℕ :=
  (es.map fun e => (deref e.key).length+(deref e.data).length).sum

/-- The characters of values that are escaped for the separator NUL: the backslashes. -/
def escapes (es : List Entry) : ℕ := (es.map fun e => (deref e.data).countP (special 0)).sum

theorem totlen_nul (es : List Entry) : totlen 0 es = lengths es+4*es.length := by
  induction es with
  | nil => rfl
  | cons e es ih =>
    have ht : totlen 0 (e::es) = entryLen 0 e+totlen 0 es := by simp [totlen]
    have hl : lengths (e::es) = (deref e.key).length+(deref e.data).length+lengths es := by
      simp [lengths]
    rw [ht, hl, ih, entryLen, measured, if_pos rfl, List.length_cons]
    omega

theorem text_length_escapes (es : List Entry) :
    (es.flatMap (encodeEntry 0)).length = lengths es+2*es.length+escapes es := by
  induction es with
  | nil => rfl
  | cons e es ih =>
    have hl : lengths (e::es) = (deref e.key).length+(deref e.data).length+lengths es := by
      simp [lengths]
    have hx : escapes (e::es) = (deref e.data).countP (special 0)+escapes es := by
      simp [escapes]
    rw [List.flatMap_cons, List.length_append, encodeEntry_length, ih, hl, hx, List.length_cons]
    omega

/-- When there is a buffer and its size is taken for large enough, everything is stored. -/
theorem hexportR_inside (t : HTab) (sep : UInt8) (flag : ℕ) (resp calloc : Bool) (size : ℕ)
    (argv : List CStr) :
    (∀ e, hexportR t sep flag resp calloc size argv = .ok e → e.Inside) ↔
      size ≠ 0 ∧ size < totlen sep (selected t flag argv)+1 ∨ resp = false ∧ calloc = false ∨
      ((selected t flag argv).flatMap (encodeEntry sep)).length+1 ≤
        if size ≠ 0 then size else totlen sep (selected t flag argv)+1 := by
  have hperm := flatMap_length_perm (encodeEntry sep) _ _ (qsort_perm (selected t flag argv))
  unfold hexportR
  dsimp only
  by_cases hsmall : size ≠ 0 ∧ size < totlen sep (selected t flag argv)+1
  · rw [if_pos hsmall]
    exact iff_of_true (fun e he => absurd he (by simp)) (.inl hsmall)
  · rw [if_neg hsmall, ← hperm]
    by_cases hbuf : (!resp && !calloc) = true
    · rw [if_pos hbuf]
      exact iff_of_true (fun e he => absurd he (by simp)) (.inr (.inl (by simpa using hbuf)))
    · have hnone : ¬ (resp = false ∧ calloc = false) := by simpa using hbuf
      rw [if_neg hbuf]
      constructor
      · intro h
        have hin := h _ rfl
        unfold Export.Inside at hin
        rw [List.length_append] at hin
        exact .inr (.inr hin)
      · intro h e he
        rcases h with h | h | h
        · exact absurd h hsmall
        · exact absurd h hnone
        · cases he
          unfold Export.Inside
          rwa [List.length_append]

end UBoot.EnvText
