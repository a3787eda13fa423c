import UBoot.BootKernel
import UBoot.FdtScan

/-!
# The configuration for a board: `fit_conf_find_compat` of `common/image.c`

The board's list of compatible strings goes from the most special to the most
general. A configuration is as good as the first string of the list that its
device tree has, and the first of the best configurations is taken. `none` is
a walk without an end.
-/

set_option autoImplicit false

namespace UBoot.Fit
open UBoot.Fdt

/-! ## `lib/libfdt/fdt_ro.c` -/

/-- The loop of `fdt_stringlist_contains`. -/
@[grind]
def stringlistLoop (b : Blob) (str : Name) : ℕ → ℕ → ℕ → Bool
  | 0, _, _ => false
  | fuel+1, strlist, listlen =>
    if listlen < str.length then false
    else if memory b strlist (str.length+1) = str ++ [0] then true
    else
      match (memory b strlist listlen).findIdx? (· = 0) with
      | none => false
      | some k => stringlistLoop b str fuel (strlist+k+1) (listlen-(k+1))

/-- A negative length is less than that of the string. -/
def fdtStringlistContains (b : Blob) (v : Value) (str : Name) : Bool :=
  ¬isNeg v.len ∧ stringlistLoop b str (v.len+1) v.data v.len

/-- `fdt_node_check_compatible` returns 0. -/
def fdtNodeCheckCompatible (b : Blob) (nodeoffset : ℕ) (compatible : Name) : Option Bool := do
  match ← lookup b nodeoffset (text "compatible") with
  | none => return false
  | some v => return fdtStringlistContains b v compatible

/-! ## The choice -/

/-- The device tree of a configuration, as a blob of its own. -/
def kfdtOf (fit : Blob) (imagesNoffset noffset : ℕ) : Option (Option Blob) := do
  match ← lookup fit noffset (text "fdt") with
  | none => return none
  | some name =>
    let kfdtNoffset ← subnodeOffset fit imagesNoffset (cstrAt fit name.data)
    if isNeg kfdtNoffset then return none
    else
      match ← fitImageGetData fit kfdtNoffset with
      | none => return none
      | some v => return some (blobAt fit v.data)

/-- `best_match_offset`, which is 0 if there is no match yet, and `best_match_pos`. -/
structure BestMatch where
  offset : ℕ
  pos : ℕ

/-- The loop over the board's strings, from number `i`. -/
@[grind]
def matchLoop (kfdt : Blob) (best : BestMatch) : List Name → ℕ → Option (Option ℕ)
  | [], _ => some none
  | cur::rest, i =>
    if best.offset = 0 ∨ i < best.pos then
      match fdtNodeCheckCompatible kfdt 0 cur with
      | none => none
      | some true => some (some i)
      | some false => matchLoop kfdt best rest (i+1)
    else some none

/-- The body of the loop over the configurations. -/
def tryConf (fit : Blob) (imagesNoffset : ℕ) (compat : List Name) (best : BestMatch)
    (noffset : ℕ) : Option BestMatch := do
  match ← kfdtOf fit imagesNoffset noffset with
  | none => return best
  | some kfdt =>
    match ← matchLoop kfdt best compat 0 with
    | none => return best
    | some i => return ⟨noffset, i⟩

@[grind]
def confLoop (fit : Blob) (imagesNoffset : ℕ) (compat : List Name) :
    ℕ → ℕ → ℤ → BestMatch → Option BestMatch
  | 0, _, _, _ => none
  | fuel+1, noffset, ndepth, best =>
    if isNeg noffset ∨ ndepth ≤ 0 then some best
    else
      match (if 1 < ndepth then some best else tryConf fit imagesNoffset compat best noffset) with
      | none => none
      | some best =>
        match nextNode fit noffset ndepth with
        | none => none
        | some (noffset', ndepth') => confLoop fit imagesNoffset compat fuel noffset' ndepth' best

/-- The strings of a list; one without its end goes on behind the list. -/
def stringList (b : Blob) (v : Value) : List Name :=
  if isNeg v.len then [] else stringsFrom b v.len v.data (v.data+v.len)

def minusOne : ℕ := 4294967295

def fitConfFindCompat (fit fdt : Blob) : Option ℕ := do
  let confsNoffset ← pathOffset fit fitConfsPath 0
  let imagesNoffset ← pathOffset fit fitImagesPath 0
  if isNeg confsNoffset ∨ isNeg imagesNoffset then return minusOne
  else
    match ← lookup fdt 0 (text "compatible") with
    | none => return minusOne
    | some v =>
      let (noffset, ndepth) ← nextNode fit confsNoffset 0
      let best ← confLoop fit imagesNoffset (stringList fdt v) walkFuel noffset ndepth ⟨0, 0⟩
      return if best.offset = 0 then minusOne else best.offset

/-! ## The best configuration -/

section Choice

variable (fit : Blob) (images : ℕ) (compat : List Name)

/-- The device tree of a configuration has string number `i` of the board's list. -/
def MatchesAt (conf i : ℕ) : Prop :=
  ∃ kfdt cur, kfdtOf fit images conf = some (some kfdt) ∧ compat[i]? = some cur ∧
    fdtNodeCheckCompatible kfdt 0 cur = some true

/-- No configuration of a list is better than the best match, and none in front of it as good. -/
structure Leads (confs : List ℕ) (best : BestMatch) : Prop where
  unmatched : best.offset = 0 → ∀ c ∈ confs, ∀ i, ¬MatchesAt fit images compat c i
  matched : best.offset ≠ 0 → ∃ before after, confs = before ++ best.offset::after ∧
    MatchesAt fit images compat best.offset best.pos ∧
    (∀ c ∈ confs, ∀ i, MatchesAt fit images compat c i → best.pos ≤ i) ∧
    ∀ c ∈ before, ¬MatchesAt fit images compat c best.pos

/-- The walks for a configuration do not come to an end. Its device tree is not looked at if the
board has no strings or a configuration in front of it has the first of them. -/
def Endless (before : List ℕ) (conf : ℕ) : Prop :=
  kfdtOf fit images conf = none ∨
    ∃ kfdt, kfdtOf fit images conf = some (some kfdt) ∧ lookup kfdt 0 (text "compatible") = none ∧
      compat ≠ [] ∧ ∀ c ∈ before, ¬MatchesAt fit images compat c 0

variable {fit images compat}

theorem checkCompatible_none (kfdt : Blob) (cur : Name) :
    fdtNodeCheckCompatible kfdt 0 cur = none ↔ lookup kfdt 0 (text "compatible") = none := by
  unfold fdtNodeCheckCompatible
  cases lookup kfdt 0 (text "compatible") with
  | none => simp
  | some v => cases v <;> simp

theorem matchLoop_none (kfdt : Blob) (best : BestMatch) (l : List Name) (i : ℕ) :
    matchLoop kfdt best l i = none ↔
      lookup kfdt 0 (text "compatible") = none ∧ l ≠ [] ∧ (best.offset = 0 ∨ i < best.pos) := by
  have hcheck := checkCompatible_none kfdt
  generalize lookup kfdt 0 (text "compatible") = compatible at hcheck ⊢
  induction l generalizing i with
  | nil => simp [matchLoop]
  | cons cur rest ih =>
    rw [matchLoop]
    by_cases hb : best.offset = 0 ∨ i < best.pos
    · rw [if_pos hb]
      cases hc : fdtNodeCheckCompatible kfdt 0 cur with
      | none => simp [(hcheck cur).mp hc, hb]
      | some r =>
        have hne : compatible ≠ none := by
          intro hn
          rw [(hcheck cur).mpr hn] at hc
          cases hc
        cases r with
        | true => simp [hne]
        | false => simp [ih, hne]
    · rw [if_neg hb]
      simp [hb]

/-- A match is the first of the strings that are looked at. -/
theorem matchLoop_some (kfdt : Blob) (best : BestMatch) (l : List Name) (i k : ℕ)
    (h : matchLoop kfdt best l i = some (some k)) :
    i ≤ k ∧ (best.offset = 0 ∨ k < best.pos) ∧
      (∃ cur, l[k-i]? = some cur ∧ fdtNodeCheckCompatible kfdt 0 cur = some true) ∧
      ∀ j cur, i+j < k → l[j]? = some cur → fdtNodeCheckCompatible kfdt 0 cur ≠ some true := by
  induction l generalizing i with
  | nil => cases h
  | cons cur rest ih =>
    rw [matchLoop] at h
    split at h
    case isFalse => cases h
    case isTrue hb =>
      split at h
      case h_1 => cases h
      case h_2 hc =>
        obtain rfl : i = k := by simpa using h
        refine ⟨le_refl i, hb, ⟨cur, by simp, hc⟩, ?_⟩
        intro j _ hj
        omega
      case h_3 hc =>
        obtain ⟨hle, hb', ⟨s, hs, hm⟩, hfirst⟩ := ih (i+1) h
        refine ⟨by omega, hb', ⟨s, ?_, hm⟩, ?_⟩
        · rw [show k-i = k-(i+1)+1 by omega, List.getElem?_cons_succ]
          exact hs
        · intro j s hj hget
          cases j with
          | zero =>
            obtain rfl : cur = s := by simpa using hget
            simp [hc]
          | succ j => exact hfirst j s (by omega) (by simpa using hget)

theorem matchLoop_unmatched (kfdt : Blob) (best : BestMatch) (l : List Name) (i : ℕ)
    (h : matchLoop kfdt best l i = some none) (j : ℕ) (cur : Name) (hget : l[j]? = some cur)
    (hm : fdtNodeCheckCompatible kfdt 0 cur = some true) : best.offset ≠ 0 ∧ best.pos ≤ i+j := by
  induction l generalizing i j with
  | nil => simp at hget
  | cons s rest ih =>
    rw [matchLoop] at h
    split at h
    case isFalse hb =>
      rw [not_or] at hb
      exact ⟨hb.1, by omega⟩
    case isTrue hb =>
      split at h
      case h_1 => cases h
      case h_2 => cases h
      case h_3 hc =>
        cases j with
        | zero =>
          obtain rfl : s = cur := by simpa using hget
          simp [hc] at hm
        | succ j =>
          have := ih (i+1) h j (by simpa using hget)
          omega

/-- What the configurations looked at so far say of the best match. -/
theorem Leads.settled (confs : List ℕ) (best : BestMatch) (h : Leads fit images compat confs best) :
    ¬(best.offset = 0 ∨ 0 < best.pos) ↔ ∃ c ∈ confs, MatchesAt fit images compat c 0 := by
  constructor
  · intro hb
    rw [not_or, Nat.not_lt, Nat.le_zero] at hb
    obtain ⟨before, after, hsplit, hm, -⟩ := h.matched hb.1
    rw [hb.2] at hm
    exact ⟨best.offset, by simp [hsplit], hm⟩
  · rintro ⟨c, hc, hm⟩ (hb | hb)
    · exact h.unmatched hb c hc 0 hm
    · by_cases h0 : best.offset = 0
      · exact h.unmatched h0 c hc 0 hm
      · obtain ⟨-, -, -, -, hmin, -⟩ := h.matched h0
        exact absurd (hmin c hc 0 hm) (by omega)

theorem tryConf_none (confs : List ℕ) (best : BestMatch) (h : Leads fit images compat confs best)
    (c : ℕ) : tryConf fit images compat best c = none ↔ Endless fit images compat confs c := by
  unfold tryConf Endless
  cases hk : kfdtOf fit images c with
  | none => simp
  | some k =>
    cases k with
    | none => simp
    | some kfdt =>
      have hs := h.settled
      rw [not_iff_comm] at hs
      simp only [Option.bind_eq_bind, Option.bind_some, Option.bind_eq_none_iff, reduceCtorEq,
        false_or, Option.some.injEq, exists_eq_left']
      constructor
      · intro hall
        have hn : matchLoop kfdt best compat 0 = none := by
          rw [Option.eq_none_iff_forall_ne_some]
          intro r hr
          have := hall r hr
          cases r <;> cases this
        obtain ⟨h1, h2, h3⟩ := (matchLoop_none kfdt best compat 0).mp hn
        refine ⟨h1, h2, ?_⟩
        intro c' hc' hm
        exact hs.mpr h3 ⟨c', hc', hm⟩
      · rintro ⟨h1, h2, h3⟩ r hr
        have h4 := hs.mp fun ⟨c', hc', hm⟩ => h3 c' hc' hm
        rw [(matchLoop_none kfdt best compat 0).mpr ⟨h1, h2, h4⟩] at hr
        cases hr

/-- One configuration more. -/
theorem Leads.step (confs : List ℕ) (best best' : BestMatch) (c : ℕ) (hc : c ≠ 0)
    (h : Leads fit images compat confs best) (ht : tryConf fit images compat best c = some best') :
    Leads fit images compat (confs ++ [c]) best' := by
  unfold tryConf at ht
  obtain ⟨k, hk, ht⟩ := Option.bind_eq_some_iff.mp ht
  -- a configuration that changes nothing has no string in front of the best match
  have hkeep : (∀ i, MatchesAt fit images compat c i → best.offset ≠ 0 ∧ best.pos ≤ i) →
      Leads fit images compat (confs ++ [c]) best := by
    intro hno
    constructor
    case unmatched =>
      intro h0 c' hc' i hm
      rcases List.mem_append.mp hc' with hc' | hc'
      · exact h.unmatched h0 c' hc' i hm
      · rw [List.mem_singleton.mp hc'] at hm
        exact (hno i hm).1 h0
    case matched =>
      intro h0
      obtain ⟨before, after, hsplit, hm, hmin, hfirst⟩ := h.matched h0
      refine ⟨before, after ++ [c], by rw [hsplit, List.append_assoc, List.cons_append], hm, ?_,
        hfirst⟩
      intro c' hc' i hm'
      rcases List.mem_append.mp hc' with hc' | hc'
      · exact hmin c' hc' i hm'
      · rw [List.mem_singleton.mp hc'] at hm'
        exact (hno i hm').2
  cases k with
  | none =>
    cases ht
    refine hkeep ?_
    rintro i ⟨kfdt, cur, hk', -⟩
    rw [hk] at hk'
    cases hk'
  | some kfdt =>
    obtain ⟨r, hr, ht⟩ := Option.bind_eq_some_iff.mp ht
    cases r with
    | none =>
      cases ht
      refine hkeep ?_
      rintro i ⟨kfdt', cur, hk', hget, hm⟩
      obtain rfl : kfdt = kfdt' := by simpa [hk] using hk'
      simpa using matchLoop_unmatched kfdt best compat 0 hr i cur hget hm
    | some i =>
      cases ht
      obtain ⟨-, hb, ⟨cur, hget, hm⟩, hfirst⟩ := matchLoop_some kfdt best compat 0 i hr
      -- none of the configurations before has a string so far in front
      have hbefore : ∀ c' ∈ confs, ∀ j, MatchesAt fit images compat c' j → i < j := by
        intro c' hc' j hm'
        by_cases h0 : best.offset = 0
        · exact absurd hm' (h.unmatched h0 c' hc' j)
        · obtain ⟨-, -, -, -, hmin, -⟩ := h.matched h0
          exact (hb.resolve_left h0).trans_le (hmin c' hc' j hm')
      constructor
      case unmatched => exact fun h0 => absurd h0 hc
      case matched =>
        refine fun _ => ⟨confs, [], rfl, ⟨kfdt, cur, hk, hget, hm⟩, ?_, ?_⟩
        · intro c' hc' j hm'
          rcases List.mem_append.mp hc' with hc' | hc'
          · exact (hbefore c' hc' j hm').le
          · obtain ⟨kfdt', s, hk', hget', hs⟩ := hm'
            rw [List.mem_singleton.mp hc', hk] at hk'
            obtain rfl : kfdt = kfdt' := by simpa using hk'
            by_contra hlt
            have hj : j < i := not_le.mp hlt
            exact hfirst j s (by omega) hget' hs
        · intro c' hc' hm'
          exact lt_irrefl i (hbefore c' hc' i hm')

theorem foldlM_leads (before rest : List ℕ) (best : BestMatch) (hne : ∀ c ∈ rest, c ≠ 0)
    (h : Leads fit images compat before best) (best' : BestMatch)
    (hf : rest.foldlM (tryConf fit images compat) best = some best') :
    Leads fit images compat (before ++ rest) best' := by
  induction rest generalizing before best with
  | nil =>
    cases hf
    rw [List.append_nil]
    exact h
  | cons c rest ih =>
    rw [List.foldlM_cons] at hf
    obtain ⟨b₁, h₁, hf⟩ := Option.bind_eq_some_iff.mp hf
    have := ih (before ++ [c]) b₁ (fun c' hc' => hne c' (List.mem_cons_of_mem c hc'))
      (h.step before best b₁ c (hne c List.mem_cons_self) h₁) hf
    rwa [List.append_assoc, List.singleton_append] at this

theorem foldlM_none (before rest : List ℕ) (best : BestMatch) (hne : ∀ c ∈ rest, c ≠ 0)
    (h : Leads fit images compat before best) :
    rest.foldlM (tryConf fit images compat) best = none ↔
      ∃ l c after, rest = l ++ c::after ∧ Endless fit images compat (before ++ l) c := by
  induction rest generalizing before best with
  | nil => simp [List.foldlM_nil]
  | cons c rest ih =>
    rw [List.foldlM_cons]
    cases ht : tryConf fit images compat best c with
    | none =>
      have he := (tryConf_none before best h c).mp ht
      constructor
      · intro _
        exact ⟨[], c, rest, rfl, by rwa [List.append_nil]⟩
      · intro _
        rfl
    | some b₁ =>
      have hno : ¬Endless fit images compat before c := by
        rw [← tryConf_none before best h c, ht]
        simp
      have hi := ih (before ++ [c]) b₁ (fun c' hc' => hne c' (List.mem_cons_of_mem c hc'))
        (h.step before best b₁ c (hne c List.mem_cons_self) ht)
      rw [Option.bind_eq_bind, Option.bind_some, hi]
      constructor
      · rintro ⟨l, d, after, rfl, he⟩
        rw [List.append_assoc] at he
        exact ⟨c::l, d, after, rfl, he⟩
      · rintro ⟨l, d, after, hsplit, he⟩
        cases l with
        | nil =>
          obtain ⟨rfl, -⟩ := List.cons.inj hsplit
          rw [List.append_nil] at he
          exact absurd he hno
        | cons c' l =>
          obtain ⟨rfl, hrest⟩ := List.cons.inj hsplit
          exact ⟨l, d, after, hrest, by rwa [List.append_assoc]⟩

end Choice

/-! ## The whole search -/

theorem confLoop_eq (fit : Blob) (images : ℕ) (compat : List Name) (fuel o : ℕ) (d : ℤ)
    (best : BestMatch) : confLoop fit images compat fuel o d best =
      (scan fit fuel o d).bind fun r => r.1.foldlM (tryConf fit images compat) best := by
  induction fuel generalizing o d best with
  | zero => rfl
  | succ fuel ih =>
    rw [confLoop, scan]
    by_cases hstop : isNeg o ∨ d ≤ 0
    · rw [if_pos hstop, if_pos hstop]
      rfl
    · rw [if_neg hstop, if_neg hstop]
      rw [not_or, not_le] at hstop
      by_cases hd : d = 1
      · rw [if_neg (by omega)]
        cases ht : tryConf fit images compat best o with
        | none =>
          cases nextNode fit o d with
          | none => rfl
          | some r =>
            simp only [if_pos hd, Option.bind_map]
            cases scan fit fuel r.1 r.2 with
            | none => rfl
            | some l => simp [List.foldlM_cons, ht]
        | some best' =>
          cases nextNode fit o d with
          | none => rfl
          | some r =>
            simp only [if_pos hd, Option.bind_map, ih]
            congr 1
            funext l
            simp [List.foldlM_cons, ht]
      · rw [if_pos (by omega)]
        cases nextNode fit o d with
        | none => rfl
        | some r =>
          simp only [if_neg hd, Option.bind_map, ih]
          rfl

/-- The subnodes of `/configurations`. -/
def configurations (fit : Blob) : List ℕ :=
  match pathOffset fit fitConfsPath 0 with
  | none => []
  | some confs => if isNeg confs then [] else subnodes fit confs

/-- The device tree of a configuration has string number `i` of the list of the board. -/
def MatchesBoard (fit fdt : Blob) (conf i : ℕ) : Prop :=
  ∃ images v, pathOffset fit fitImagesPath 0 = some images ∧ ¬isNeg images ∧
    lookup fdt 0 (text "compatible") = some (some v) ∧
    MatchesAt fit images (stringList fdt v) conf i

/-- The first of the best configurations, or an error if no configuration matches. -/
def Chosen (fit fdt : Blob) (r : ℕ) : Prop :=
  (r = minusOne ∧ ∀ c ∈ configurations fit, ∀ i, ¬MatchesBoard fit fdt c i) ∨
  (¬isNeg r ∧ ∃ before after i, configurations fit = before ++ r::after ∧ MatchesBoard fit fdt r i ∧
    (∀ c ∈ configurations fit, ∀ j, MatchesBoard fit fdt c j → i ≤ j) ∧
    ∀ c ∈ before, ¬MatchesBoard fit fdt c i)

/-- The walks that the search needs come to an end. -/
structure WalksEnd (fit fdt : Blob) : Prop where
  confs : pathOffset fit fitConfsPath 0 ≠ none
  images : pathOffset fit fitImagesPath 0 ≠ none
  board : ∀ confs images, pathOffset fit fitConfsPath 0 = some confs → ¬isNeg confs →
    pathOffset fit fitImagesPath 0 = some images → ¬isNeg images →
    lookup fdt 0 (text "compatible") ≠ none ∧
    ∀ v, lookup fdt 0 (text "compatible") = some (some v) → children fit confs ≠ none ∧
      ∀ before c after, configurations fit = before ++ c::after →
        ¬Endless fit images (stringList fdt v) before c

theorem scan_nonneg (b : Blob) (fuel o : ℕ) (d : ℤ) (l : List ℕ) (e : ℕ)
    (h : scan b fuel o d = some (l, e)) : ∀ n ∈ l, ¬isNeg n := by
  induction fuel generalizing o d l with
  | zero => cases h
  | succ fuel ih =>
    by_cases hstop : isNeg o ∨ d ≤ 0
    · rw [scan_stop b fuel o d hstop] at h
      cases h
      simp
    · rw [not_or, not_le] at hstop
      obtain ⟨o', d', l', -, hs, rfl⟩ := scan_step b fuel o d hstop.1 hstop.2 l e h
      intro n hn
      split at hn
      · rcases List.mem_cons.mp hn with rfl | hn
        · exact hstop.1
        · exact ih o' d' l' hs n hn
      · exact ih o' d' l' hs n hn

section Search

variable {fit fdt : Blob} {confs images : ℕ} {v : Value}
  (hconfs : pathOffset fit fitConfsPath 0 = some confs) (hc : ¬isNeg confs)
  (himages : pathOffset fit fitImagesPath 0 = some images) (hi : ¬isNeg images)
  (hv : lookup fdt 0 (text "compatible") = some (some v))
include hconfs hc himages hi hv

/-- The search as a fold over the configurations. -/
theorem findCompat_eq : fitConfFindCompat fit fdt = (children fit confs).bind fun r =>
    (r.1.foldlM (tryConf fit images (stringList fdt v)) ⟨0, 0⟩).map fun best =>
      if best.offset = 0 then minusOne else best.offset := by
  simp only [fitConfFindCompat, hconfs, himages, hv, Option.bind_eq_bind, Option.bind_some, hc, hi,
    or_self, if_false, children]
  cases nextNode fit confs 0 with
  | none => rfl
  | some r =>
    simp only [Option.bind_some, confLoop_eq, Option.bind_assoc, Option.map_eq_bind]
    rfl

omit hconfs hc in
theorem matchesBoard_iff (conf i : ℕ) :
    MatchesBoard fit fdt conf i ↔ MatchesAt fit images (stringList fdt v) conf i := by
  constructor
  · rintro ⟨images', v', himages', -, hv', hm⟩
    obtain rfl : images = images' := Option.some.inj (himages.symm.trans himages')
    obtain rfl : v = v' := by simpa using hv.symm.trans hv'
    exact hm
  · intro hm
    exact ⟨images, v, himages, hi, hv, hm⟩

omit hconfs hc in
theorem chosen_of_leads (best : BestMatch) (hneg : ∀ c ∈ configurations fit, ¬isNeg c)
    (h : Leads fit images (stringList fdt v) (configurations fit) best) :
    Chosen fit fdt (if best.offset = 0 then minusOne else best.offset) := by
  have hm := matchesBoard_iff himages hi hv
  by_cases h0 : best.offset = 0
  · rw [if_pos h0]
    refine .inl ⟨rfl, ?_⟩
    intro c hc i
    rw [hm]
    exact h.unmatched h0 c hc i
  · rw [if_neg h0]
    obtain ⟨before, after, hsplit, hbest, hmin, hfirst⟩ := h.matched h0
    refine .inr ⟨hneg _ (by simp [hsplit]), before, after, best.pos, hsplit, ?_, ?_, ?_⟩
    · exact (hm _ _).mpr hbest
    · intro c hc j hj
      exact hmin c hc j ((hm c j).mp hj)
    · intro c hc hj
      exact hfirst c hc ((hm c best.pos).mp hj)

/-- With all it needs there, the search chooses when the walks for the configurations end. -/
theorem findCompat_searched :
    (∃ r, fitConfFindCompat fit fdt = some r ∧ Chosen fit fdt r) ↔
      children fit confs ≠ none ∧ ∀ before c after, configurations fit = before ++ c::after →
        ¬Endless fit images (stringList fdt v) before c := by
  rw [findCompat_eq hconfs hc himages hi hv]
  cases hch : children fit confs with
  | none => simp
  | some r =>
    obtain ⟨l, e⟩ := r
    have hl : configurations fit = l := by
      rw [configurations, hconfs]
      simp only [if_neg hc]
      exact children_subnodes fit confs l e hch
    obtain ⟨hh, hroot⟩ : checkHeader fit = 0 ∧ IsNode fit 0 := by
      rw [fitConfsPath, pathOffset] at hconfs
      cases hs : subnodeOffset fit 0 (text "configurations") with
      | none => simp [hs] at hconfs
      | some o =>
        rw [hs] at hconfs
        simp only [pathOffset, ite_self, Option.some.injEq] at hconfs
        exact subnodeOffset_rooted fit _ o hs (by rwa [hconfs])
    have hgt := children_gt fit (hroot.rooted fit 0 hh) confs hc l e hch
    have hne : ∀ c ∈ l, c ≠ 0 := fun c hc => Nat.ne_zero_of_lt (hgt c hc)
    have hneg : ∀ c ∈ configurations fit, ¬isNeg c := by
      rw [hl]
      obtain ⟨r, -, hs⟩ := Option.bind_eq_some_iff.mp hch
      exact scan_nonneg fit walkFuel r.1 r.2 l e hs
    have hstart : Leads fit images (stringList fdt v) [] ⟨0, 0⟩ :=
      ⟨fun _ c hc => absurd hc List.not_mem_nil, fun h => absurd rfl h⟩
    have hnone := foldlM_none [] l ⟨0, 0⟩ hne hstart
    simp only [List.nil_append, ← hl] at hnone
    rw [Option.bind_some, ← hl]
    constructor
    · rintro ⟨r, hr, -⟩
      refine ⟨Option.some_ne_none _, ?_⟩
      intro before c after hsplit he
      rw [hnone.mpr ⟨before, c, after, hsplit, he⟩] at hr
      cases hr
    · rintro ⟨-, hend⟩
      cases hf : (configurations fit).foldlM (tryConf fit images (stringList fdt v)) ⟨0, 0⟩ with
      | none =>
        obtain ⟨before, c, after, hsplit, he⟩ := hnone.mp hf
        exact absurd he (hend before c after hsplit)
      | some best =>
        refine ⟨_, rfl, chosen_of_leads himages hi hv best hneg ?_⟩
        exact foldlM_leads [] (configurations fit) ⟨0, 0⟩ (by rwa [hl]) hstart best hf

end Search

/-- The search chooses the first of the best configurations when its walks come to an end. -/
theorem find_compat_iff (fit fdt : Blob) :
    (∃ r, fitConfFindCompat fit fdt = some r ∧ Chosen fit fdt r) ↔ WalksEnd fit fdt := by
  cases hconfs : pathOffset fit fitConfsPath 0 with
  | none =>
    constructor
    · rintro ⟨r, hr, -⟩
      simp [fitConfFindCompat, hconfs] at hr
    · intro h
      exact absurd hconfs h.confs
  | some confs =>
    cases himages : pathOffset fit fitImagesPath 0 with
    | none =>
      constructor
      · rintro ⟨r, hr, -⟩
        simp [fitConfFindCompat, hconfs, himages] at hr
      · intro h
        exact absurd himages h.images
    | some images =>
      by_cases hneg : isNeg confs ∨ isNeg images
      · constructor
        · intro _
          refine ⟨by simp [hconfs], by simp [himages], ?_⟩
          intro confs' images' hc' hc hi' hi
          obtain rfl : confs = confs' := Option.some.inj (hconfs.symm.trans hc')
          obtain rfl : images = images' := Option.some.inj (himages.symm.trans hi')
          exact absurd hneg (not_or.mpr ⟨hc, hi⟩)
        · intro _
          refine ⟨minusOne, by simp [fitConfFindCompat, hconfs, himages, hneg], .inl ⟨rfl, ?_⟩⟩
          rintro c hmem i ⟨images', -, hi', hi, -⟩
          obtain rfl : images = images' := Option.some.inj (himages.symm.trans hi')
          simp only [configurations, hconfs, hneg.resolve_right hi, if_true, List.not_mem_nil] at hmem
      · have hpos := not_or.mp hneg
        cases hv : lookup fdt 0 (text "compatible") with
        | none =>
          constructor
          · rintro ⟨r, hr, -⟩
            simp [fitConfFindCompat, hconfs, himages, hneg, hv] at hr
          · intro h
            exact absurd hv (h.board confs images hconfs hpos.1 himages hpos.2).1
        | some v =>
          cases v with
          | none =>
            constructor
            · intro _
              refine ⟨by simp [hconfs], by simp [himages], ?_⟩
              intro _ _ _ _ _ _
              exact ⟨by simp [hv], fun v' hv' => by simp [hv] at hv'⟩
            · intro _
              refine ⟨minusOne, by simp [fitConfFindCompat, hconfs, himages, hv],
                .inl ⟨rfl, ?_⟩⟩
              rintro c - i ⟨-, v', -, -, hv', -⟩
              simp [hv] at hv'
          | some v =>
            rw [findCompat_searched hconfs hpos.1 himages hpos.2 hv]
            constructor
            · rintro ⟨hch, hend⟩
              refine ⟨by simp [hconfs], by simp [himages], ?_⟩
              intro confs' images' hc' _ hi' _
              obtain rfl : confs = confs' := Option.some.inj (hconfs.symm.trans hc')
              obtain rfl : images = images' := Option.some.inj (himages.symm.trans hi')
              refine ⟨by simp [hv], ?_⟩
              intro v' hv'
              obtain rfl : v = v' := by simpa using hv.symm.trans hv'
              exact ⟨hch, hend⟩
            · intro h
              exact (h.board confs images hconfs hpos.1 himages hpos.2).2 v hv

/-- A property that leads back to itself is walked over for ever. -/
theorem nextNodeLoop_stuck (b : Blob) (o : ℕ) (ht : (nextTag b o).tag = .prop)
    (hn : (nextTag b o).next = o) (fuel : ℕ) (d : ℤ) : nextNodeLoop b fuel o d = none := by
  induction fuel with
  | zero => rfl
  | succ fuel ih =>
    rw [nextNodeLoop, ht]
    simp only [hn]
    exact ih

def boardTree : Blob := ofWords
  [0xd00dfeed, 0x54, 0x28, 0x48, 0, 0x11, 0x10, 0, 0xb, 0x20,
    1, 0, 3, 2, 0, 0x61000000, 2, 9,
    0x636f6d70, 0x61746962, 0x6c650000]

/-- The configuration `c` with the tree of the board, and `d` with a property of length
`0xfffffff4`. -/
def stuckFit : Blob := ofWords
  [0xd00dfeed, 0x10c, 0x28, 0x100, 0, 0x11, 0x10, 0, 9, 0xd8,
    1, 0, 1, 0x696d6167, 0x65730000,
    1, 0x66000000, 3, 0x54, 0,
    0xd00dfeed, 0x54, 0x28, 0x48, 0, 0x11, 0x10, 0, 0xb, 0x20, 1, 0, 3, 2, 0, 0x61000000, 2, 9,
    0x636f6d70, 0x61746962, 0x6c650000,
    2, 2,
    1, 0x636f6e66, 0x69677572, 0x6174696f, 0x6e730000,
    1, 0x63000000, 3, 2, 5, 0x66000000, 2,
    1, 0x64000000, 3, 0xfffffff4, 0, 2,
    2, 2, 9,
    0x64617461, 0x666474, 0]

theorem stuckFit_children : children stuckFit 132 = none := by
  have h1 : nextNode stuckFit 132 0 = some (152, 1) := by decide +kernel
  have h2 : nextNode stuckFit 152 1 = some (180, 1) := by decide +kernel
  have h3 : nextNode stuckFit 180 1 = none := by
    rw [nextNode, if_neg (by decide), if_neg (by decide +kernel),
      show checkNodeOffset stuckFit 180 = 188 by decide +kernel]
    exact nextNodeLoop_stuck stuckFit 188 (by decide +kernel) (by decide +kernel) walkFuel 1
  have hd : scan stuckFit (walkFuel-2+1) 180 1 = none := by
    rw [scan, if_neg (by decide), h3]
  rw [children, h1, Option.bind_some, show walkFuel = walkFuel-2+1+1 from rfl, scan,
    if_neg (by decide), h2]
  simp only [hd, Option.map_none]

/-- The configuration `c` matches, and the search does not come back from `d`. -/
theorem search_stuck : MatchesBoard stuckFit boardTree 152 0 ∧
    ¬∃ r, fitConfFindCompat stuckFit boardTree = some r ∧ Chosen stuckFit boardTree r := by
  have hconfs : pathOffset stuckFit fitConfsPath 0 = some 132 := by decide +kernel
  have himages : pathOffset stuckFit fitImagesPath 0 = some 8 := by decide +kernel
  have hv : lookup boardTree 0 (text "compatible") = some (some ⟨60, 2⟩) := by decide +kernel
  constructor
  · rw [matchesBoard_iff himages (by decide) hv]
    refine ⟨blobAt stuckFit 80, text "a", ?_, by decide +kernel, by decide +kernel⟩
    have hfdt : lookup stuckFit 152 (text "fdt") = some (some ⟨212, 2⟩) := by decide +kernel
    have hsub : subnodeOffset stuckFit 8 (cstrAt stuckFit 212) = some 20 := by decide +kernel
    have hdata : fitImageGetData stuckFit 20 = some (some ⟨80, 84⟩) := by decide +kernel
    simp only [kfdtOf, hfdt, hsub, hdata, Option.bind_eq_bind, Option.bind_some]
    rfl
  · rw [findCompat_searched hconfs (by decide) himages (by decide) hv, stuckFit_children]
    rintro ⟨h, -⟩
    exact h rfl

end UBoot.Fit
