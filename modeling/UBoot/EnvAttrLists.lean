import Mathlib.Data.List.TakeWhile
import UBoot.EnvAttr

/-!
# Reading an attribute list

`env_attr_lookup` takes the last place of a name that stands alone, and finds
it since places that overlap a later one do not stand alone. Such places are
the names of entries with nothing but blanks around their parts, and those
`env_attr_walk` reads too.
-/

set_option autoImplicit false

namespace UBoot.EnvAttr
open UBoot.HashTable

/-! ## The last place of a kind -/

/-- `r` is the last place with a property. -/
def IsLast (P : ℕ → Prop) : Option ℕ → Prop
  | none => ∀ p, ¬P p
  | some p => P p ∧ ∀ q, p < q → ¬P q

theorem IsLast.unique {P : ℕ → Prop} {r r' : Option ℕ} (h : IsLast P r) (h' : IsLast P r') :
    r = r' := by
  cases r with
  | none =>
    cases r' with
    | none => rfl
    | some q => exact absurd h'.1 (h q)
  | some p =>
    cases r' with
    | none => exact absurd h.1 (h' p)
    | some q =>
      have h1 : ¬p < q := fun hpq => h.2 q hpq h'.1
      have h2 : ¬q < p := fun hqp => h'.2 p hqp h.1
      exact congrArg some (by omega)

theorem IsLast.congr {P Q : ℕ → Prop} {r : Option ℕ} (h : IsLast P r) (hpq : ∀ p, P p ↔ Q p) :
    IsLast Q r := by
  have : P = Q := funext fun p => propext (hpq p)
  exact this ▸ h

theorem IsLast.bound {P : ℕ → Prop} {r : Option ℕ} (h : IsLast P r) {q : ℕ} (hq : P q) :
    ∃ p, r = some p ∧ q ≤ p := by
  cases r with
  | none => exact absurd hq (h q)
  | some p =>
    refine ⟨p, rfl, ?_⟩
    by_contra hlt
    exact h.2 q (by omega) hq

def OccursAt (list name : CStr) (p : ℕ) : Prop := name <+: list.drop p

theorem occursAt_le (list name : CStr) (hn : name ≠ []) (p : ℕ) (h : OccursAt list name p) :
    p+name.length ≤ list.length := by
  have hlen := h.length_le
  have hpos := List.length_pos_iff.mpr hn
  rw [List.length_drop] at hlen
  omega

/-- `strstr` finds the first place. -/
theorem strstr_cases (list name : CStr) (hn : name ≠ []) (searched : ℕ) :
    (strstr name (list.drop searched) searched = none ∧
      ∀ q, searched ≤ q → ¬OccursAt list name q) ∨
    ∃ p, strstr name (list.drop searched) searched = some p ∧ searched ≤ p ∧
      OccursAt list name p ∧ ∀ q, searched ≤ q → q < p → ¬OccursAt list name q := by
  generalize hs : list.drop searched = s
  induction s generalizing searched with
  | nil =>
    left
    refine ⟨if_neg hn, fun q hq ho => ?_⟩
    have hlen := occursAt_le list name hn q ho
    have hpos := List.length_pos_iff.mpr hn
    have hnil := List.drop_eq_nil_iff.mp hs
    omega
  | cons c s ih =>
    by_cases hp : name.isPrefixOf (c::s) = true
    · right
      refine ⟨searched, by rw [strstr, if_pos hp], le_rfl, ?_, fun q h1 h2 => by omega⟩
      rw [OccursAt, hs]
      exact List.isPrefixOf_iff_prefix.mp hp
    · have hno : ¬OccursAt list name searched := by
        rw [OccursAt, hs]
        exact fun h => hp (List.isPrefixOf_iff_prefix.mpr h)
      have hs' : list.drop (searched+1) = s := by rw [← List.drop_drop, hs]; rfl
      rw [strstr, if_neg hp]
      rcases ih (searched+1) hs' with ⟨hnone, hall⟩ | ⟨p, hsome, hle, ho, hall⟩
      · refine .inl ⟨hnone, fun q hq => ?_⟩
        rcases Nat.eq_or_lt_of_le hq with rfl | hq
        · exact hno
        · exact hall q hq
      · refine .inr ⟨p, hsome, by omega, ho, fun q hq hqp => ?_⟩
        rcases Nat.eq_or_lt_of_le hq with rfl | hq
        · exact hno
        · exact hall q hq hqp

theorem any_lt (start : Option ℕ) (n : ℕ) :
    start.any (fun s => s < n) = true ↔ ∃ s, start = some s ∧ s < n := by
  cases start <;> simp

/-- The places of a name that end before `start`. -/
def EndsBefore (list name : CStr) (start : Option ℕ) (p : ℕ) : Prop :=
  OccursAt list name p ∧ ∀ s, start = some s → p+name.length ≤ s

theorem reverseLoop_last (list name : CStr) (hn : name ≠ []) (start : Option ℕ)
    (fuel searched : ℕ) (result : Option ℕ) (hf : list.length+1 ≤ searched+fuel)
    (hr : IsLast (fun p => EndsBefore list name start p ∧ p < searched) result) :
    IsLast (EndsBefore list name start) (reverseLoop list name start fuel searched result) := by
  have hpos := List.length_pos_iff.mpr hn
  induction fuel generalizing searched result with
  | zero =>
    refine hr.congr fun p => ⟨fun h => h.1, fun h => ⟨h, ?_⟩⟩
    have := occursAt_le list name hn p h.1
    omega
  | succ fuel ih =>
    rw [reverseLoop]
    rcases strstr_cases list name hn searched with ⟨hnone, hall⟩ | ⟨place, hsome, hle, ho, hall⟩
    · rw [hnone]
      refine hr.congr fun p => ⟨fun h => h.1, fun h => ⟨h, ?_⟩⟩
      by_contra hp
      exact hall p (by omega) h.1
    · rw [hsome]
      simp only
      by_cases hstart : start.any (fun s => s < place+name.length) = true
      · rw [if_pos hstart]
        refine hr.congr fun p => ⟨fun h => h.1, fun h => ⟨h, ?_⟩⟩
        obtain ⟨s, hs, hlt⟩ := (any_lt _ _).mp hstart
        have hend := h.2 s hs
        by_contra hp
        exact hall p (by omega) (by omega) h.1
      · rw [if_neg hstart]
        refine ih (place+1) (some place) (by omega) ⟨⟨⟨ho, fun s hs => ?_⟩, by omega⟩, ?_⟩
        · by_contra hlt
          exact hstart ((any_lt _ _).mpr ⟨s, hs, by omega⟩)
        · intro q hq h
          omega

theorem reverseStrstr_last (list name : CStr) (hn : name ≠ []) (start : Option ℕ) :
    IsLast (EndsBefore list name start) (reverseStrstr list name start) := by
  rw [reverseStrstr, if_neg hn]
  exact reverseLoop_last list name hn start _ 0 none (by omega) (fun p h => by omega)

/-! ## The place that is looked up -/

/-- The names that a list can have: without delimiters and without white space at the ends. -/
structure ProperName (name : CStr) : Prop where
  nonempty : name ≠ []
  delim : listDelim ∉ name
  sep : attrSep ∉ name
  first : ∀ c, name.head? = some c → isspace c = false
  last : ∀ c, name.getLast? = some c → isspace c = false

theorem isspace_space : isspace space = true := by decide

theorem dropWhile_append_head (s rest : CStr) (hs : s ≠ [])
    (hl : ∀ c, s.getLast? = some c → c ≠ space) :
    ∃ c t, (s++rest).dropWhile (· = space) = c::t ∧ c ∈ s := by
  induction s with
  | nil => exact absurd rfl hs
  | cons c s ih =>
    rw [List.cons_append, List.dropWhile_cons]
    by_cases hc : c = space
    · rw [if_pos (by simpa using hc)]
      have hs' : s ≠ [] := by
        rintro rfl
        exact hl c rfl hc
      obtain ⟨d, t, hd, hm⟩ := ih hs' fun d hd => hl d (by
        rw [List.getLast?_cons, hd, Option.getD_some])
      exact ⟨d, t, hd, List.mem_cons_of_mem c hm⟩
    · rw [if_neg (by simpa using hc)]
      exact ⟨c, s++rest, rfl, List.mem_cons_self ..⟩

section
variable (before list name : CStr)

/-- The name stands alone at a place. -/
def Exact (p : ℕ) : Prop := OccursAt list name p ∧ exactMatch before list name p = true

variable (hn : ProperName name)
include hn

/-- A place that overlaps a later one does not stand alone. -/
theorem overlap_not_exact (p q : ℕ) (ho : OccursAt list name q) (hpq : p < q)
    (hqp : q < p+name.length) : exactMatch before list name p = false := by
  obtain ⟨rest, hrest⟩ := ho
  have hdrop : list.drop (p+name.length) = name.drop (p+name.length-q)++rest := by
    have h1 : p+name.length = q+(p+name.length-q) := by omega
    rw [h1, ← List.drop_drop, ← hrest, ← h1, List.drop_append_of_le_length (by omega)]
  obtain ⟨c, t, hc, hm⟩ := dropWhile_append_head (name.drop (p+name.length-q)) rest
    (by rw [Ne, List.drop_eq_nil_iff]; omega) (by
      intro c hc hsp
      rw [List.getLast?_drop, if_neg (by omega)] at hc
      have := hn.last c hc
      rw [hsp, isspace_space] at this
      cases this)
  have hm' := List.mem_of_mem_drop hm
  have h1 : c ≠ attrSep := fun h => hn.sep (h ▸ hm')
  have h2 : c ≠ listDelim := fun h => hn.delim (h ▸ hm')
  simp [exactMatch, hdrop, hc, h1, h2]

theorem lookupLoop_last (fuel : ℕ) (place : Option ℕ) (hf : ∀ p, place = some p → p < fuel)
    (ho : ∀ p, place = some p → OccursAt list name p)
    (hall : ∀ q, Exact before list name q → ∃ p, place = some p ∧ q ≤ p) :
    ∃ r, lookupLoop before list name fuel place = some r ∧ IsLast (Exact before list name) r := by
  induction fuel generalizing place with
  | zero =>
    cases place with
    | none => exact ⟨none, rfl, fun p hp => by obtain ⟨q, hq, -⟩ := hall p hp; cases hq⟩
    | some p => exact absurd (hf p rfl) (Nat.not_lt_zero p)
  | succ fuel ih =>
    cases place with
    | none => exact ⟨none, rfl, fun p hp => by obtain ⟨q, hq, -⟩ := hall p hp; cases hq⟩
    | some p =>
      have hle : ∀ q, Exact before list name q → q ≤ p := by
        intro q hq
        obtain ⟨p', hp', hqp⟩ := hall q hq
        cases hp'
        exact hqp
      rw [lookupLoop]
      by_cases he : exactMatch before list name p = true
      · rw [if_pos he]
        exact ⟨some p, rfl, ⟨ho p rfl, he⟩, fun q hq hex => by have := hle q hex; omega⟩
      · rw [if_neg he]
        have hlast := reverseStrstr_last list name hn.nonempty (some p)
        have hpos := List.length_pos_iff.mpr hn.nonempty
        have hp := hf p rfl
        refine ih _ (fun p' hp' => ?_) (fun p' hp' => ?_) (fun q hq => ?_)
        · rw [hp'] at hlast
          have := hlast.1.2 p rfl
          omega
        · rw [hp'] at hlast
          exact hlast.1.1
        · -- an exact place ends before `p`
          have hend : EndsBefore list name (some p) q := by
            refine ⟨hq.1, ?_⟩
            rintro s ⟨⟩
            by_contra hlt
            rcases Nat.eq_or_lt_of_le (hle q hq) with rfl | hqp
            · exact he hq.2
            · have := overlap_not_exact before list name hn q p (ho p rfl) hqp (by omega)
              rw [hq.2] at this
              cases this
          exact hlast.bound hend

/-- `env_attr_lookup` ends at the last place where the name stands alone. -/
theorem envAttrLookup_last : ∃ r, IsLast (Exact before list name) r ∧
    envAttrLookup before list name = some (r.map fun p =>
      attributesAt (list.drop (p+name.length))) := by
  have hlast := reverseStrstr_last list name hn.nonempty none
  have hpos := List.length_pos_iff.mpr hn.nonempty
  obtain ⟨r, hr, hl⟩ := lookupLoop_last before list name hn (list.length+1)
    (reverseStrstr list name none)
    (fun p hp => by
      rw [hp] at hlast
      have := occursAt_le list name hn.nonempty p hlast.1.1
      omega)
    (fun p hp => by
      rw [hp] at hlast
      exact hlast.1.1)
    (fun q hq => hlast.bound ⟨hq.1, fun s hs => nomatch hs⟩)
  exact ⟨r, hl, by rw [envAttrLookup, hr, Option.map_some]⟩

end

/-! ## Entries -/

@[grind]
def joined : List CStr → CStr
  | [] => []
  | [e] => e
  | e::e'::es => e++listDelim::joined (e'::es)

theorem entries_ne_nil (list : CStr) : entries list ≠ [] := by
  cases list with
  | nil => exact List.cons_ne_nil _ _
  | cons c list =>
    rw [entries]
    split
    · exact List.cons_ne_nil _ _
    · split <;> exact List.cons_ne_nil _ _

theorem joined_entries (list : CStr) : joined (entries list) = list := by
  induction list with
  | nil => rfl
  | cons c list ih =>
    rw [entries]
    obtain ⟨e, es, he⟩ := List.exists_cons_of_ne_nil (entries_ne_nil list)
    rw [he] at ih ⊢
    by_cases hc : c = listDelim
    · rw [if_pos hc, joined, ih, hc]
      rfl
    · rw [if_neg hc]
      cases es with
      | nil => exact congrArg (c :: ·) ih
      | cons e' es => exact congrArg (c :: ·) ih

theorem mem_entries (list : CStr) : ∀ e ∈ entries list, ∀ c ∈ e, c ∈ list ∧ c ≠ listDelim := by
  induction list with
  | nil =>
    intro e he c hc
    rw [entries, List.mem_singleton] at he
    rw [he] at hc
    exact absurd hc List.not_mem_nil
  | cons d list ih =>
    rw [entries]
    obtain ⟨e, es, he⟩ := List.exists_cons_of_ne_nil (entries_ne_nil list)
    rw [he] at ih ⊢
    have ih' : ∀ x ∈ e::es, ∀ c ∈ x, c ∈ d::list ∧ c ≠ listDelim := fun x hx c hc =>
      ⟨List.mem_cons_of_mem d (ih x hx c hc).1, (ih x hx c hc).2⟩
    by_cases hd : d = listDelim
    · rw [if_pos hd]
      exact List.forall_mem_cons.mpr ⟨fun c hc => absurd hc List.not_mem_nil, ih'⟩
    · rw [if_neg hd]
      obtain ⟨h1, h2⟩ := List.forall_mem_cons.mp ih'
      exact List.forall_mem_cons.mpr
        ⟨List.forall_mem_cons.mpr ⟨⟨List.mem_cons_self .., hd⟩, h1⟩, h2⟩

/-- The nearest byte in front that is not a blank is a delimiter. -/
def Led (before : CStr) : Prop := (before.dropWhile (· = space)).head? = some listDelim

def Spaces (s : CStr) : Prop := ∀ c ∈ s, c = space

theorem dropWhile_spaces (s rest : CStr) (hs : Spaces s) :
    (s++rest).dropWhile (· = space) = rest.dropWhile (· = space) :=
  List.dropWhile_append_of_pos (by simpa [Spaces] using hs)

theorem exists_spaces (s : CStr) :
    ∃ gap t, s = gap++t ∧ Spaces gap ∧ t.head? ≠ some space := by
  induction s with
  | nil => exact ⟨[], [], rfl, fun c hc => absurd hc List.not_mem_nil, nofun⟩
  | cons c s ih =>
    by_cases hc : c = space
    · obtain ⟨gap, t, rfl, hg, ht⟩ := ih
      exact ⟨c::gap, t, rfl, List.forall_mem_cons.mpr ⟨hc, hg⟩, ht⟩
    · exact ⟨[], c::s, rfl, fun d hd => absurd hd List.not_mem_nil, by simpa using hc⟩

theorem led_append (s before : CStr) (hs : listDelim ∉ s) :
    Led (s++before) ↔ Spaces s ∧ Led before := by
  induction s with
  | nil => simp [Spaces]
  | cons c s ih =>
    have hs' : listDelim ∉ s := fun hm => hs (List.mem_cons_of_mem c hm)
    by_cases hc : c = space
    · have hskip : Led (c::s++before) ↔ Led (s++before) := by
        rw [Led, List.cons_append, List.dropWhile_cons_of_pos (by simpa using hc), Led]
      rw [hskip, ih hs']
      simp [Spaces, hc]
    · constructor
      · intro h
        rw [Led, List.cons_append, List.dropWhile_cons_of_neg (by simpa using hc),
          List.head?_cons, Option.some.injEq] at h
        exact absurd (List.mem_cons.mpr (.inl h.symm)) hs
      · intro h
        exact absurd (h.1 c (List.mem_cons_self ..)) hc

/-- What comes after a name that stands alone. -/
def Followed (s : CStr) : Prop :=
  (s.dropWhile (· = space)).head? = some attrSep ∨
    (s.dropWhile (· = space)).head? = some listDelim ∨ (s.dropWhile (· = space)).head? = none

theorem exact_iff (before list name : CStr) (p : ℕ) :
    Exact before list name p ↔ OccursAt list name p ∧
      (p = 0 ∨ Led ((list.take p).reverse++before)) ∧ Followed (list.drop (p+name.length)) := by
  simp [Exact, exactMatch, Led, Followed]

/-- The end of a list, or a delimiter. -/
def Closed (tail : CStr) : Prop := tail = [] ∨ ∃ rest, tail = listDelim::rest

theorem prefix_of_closed (name s tail : CStr) (hn : listDelim ∉ name) (ht : Closed tail)
    (h : name <+: s++tail) : name <+: s := by
  induction s generalizing name with
  | nil =>
    rcases ht with rfl | ⟨rest, rfl⟩
    · exact h
    · cases name with
      | nil => exact List.nil_prefix
      | cons c name =>
        rw [List.nil_append, List.cons_prefix_cons] at h
        exact absurd (List.mem_cons.mpr (.inl h.1.symm)) hn
  | cons d s ih =>
    cases name with
    | nil => exact List.nil_prefix
    | cons c name =>
      rw [List.cons_append, List.cons_prefix_cons] at h
      rw [List.cons_prefix_cons]
      exact ⟨h.1, ih name (fun hm => hn (List.mem_cons_of_mem c hm)) h.2⟩

/-- A place behind the first delimiter is a place of the rest. -/
theorem exact_rest (before e rest name : CStr) (q : ℕ) :
    Exact before (e++listDelim::rest) name (e.length+1+q) ↔
      Exact (listDelim::(e.reverse++before)) rest name q := by
  have hdrop (n : ℕ) : (e++listDelim::rest).drop (e.length+1+n) = rest.drop n := by
    rw [Nat.add_assoc, List.drop_append, List.drop_eq_nil_of_le (by omega), List.nil_append,
      show e.length+(1+n)-e.length = n+1 by omega, List.drop_succ_cons]
  have htake : (e++listDelim::rest).take (e.length+1+q) = e++listDelim::rest.take q := by
    rw [Nat.add_assoc, List.take_append, List.take_of_length_le (by omega),
      show e.length+(1+q)-e.length = q+1 by omega, List.take_succ_cons]
  have hbytes : (e++listDelim::rest.take q).reverse++before =
      (rest.take q).reverse++listDelim::(e.reverse++before) := by simp
  rw [exact_iff, exact_iff, OccursAt, OccursAt, hdrop, htake, hbytes,
    show e.length+1+q+name.length = e.length+1+(q+name.length) by omega, hdrop]
  have hzero : ¬e.length+1+q = 0 := by omega
  simp only [hzero, false_or]
  refine and_congr_right fun _ => and_congr_left fun _ => ?_
  constructor
  · exact .inr
  · rintro (rfl | h)
    · rfl
    · exact h

/-- An entry with a name, and the blanks around it. -/
structure Shape (name e lead gap t : CStr) : Prop where
  eq : e = lead++(name++(gap++t))
  lead : Spaces lead
  gap : Spaces gap
  rest : t = [] ∨ ∃ u, t = attrSep::u

theorem followed_shape (s tail : CStr) (hs : listDelim ∉ s) (ht : Closed tail) :
    Followed (s++tail) ↔ ∃ gap t, s = gap++t ∧ Spaces gap ∧ (t = [] ∨ ∃ u, t = attrSep::u) := by
  constructor
  · intro h
    obtain ⟨gap, t, rfl, hg, hd⟩ := exists_spaces s
    refine ⟨gap, t, rfl, hg, ?_⟩
    cases t with
    | nil => exact .inl rfl
    | cons c u =>
      rw [Followed, List.append_assoc, dropWhile_spaces _ _ hg, List.cons_append,
        List.dropWhile_cons_of_neg (by simpa using hd)] at h
      rcases h with h | h | h
      · cases h
        exact .inr ⟨u, rfl⟩
      · cases h
        exact absurd (List.mem_append_right _ (List.mem_cons_self ..)) hs
      · cases h
  · rintro ⟨gap, t, rfl, hg, ht'⟩
    rw [Followed, List.append_assoc, dropWhile_spaces _ _ hg]
    rcases ht' with rfl | ⟨u, rfl⟩
    · rcases ht with rfl | ⟨rest, rfl⟩
      · exact .inr (.inr rfl)
      · exact .inr (.inl rfl)
    · exact .inl rfl

section
variable (before e tail name : CStr) (hn : ProperName name) (he : listDelim ∉ e)
  (ht : Closed tail)
include hn he ht

/-- A place in the first entry. -/
theorem exact_first (p : ℕ) (hp : p ≤ e.length) :
    Exact before (e++tail) name p ↔ ∃ lead gap t, Shape name e lead gap t ∧ lead.length = p ∧
      (lead = [] ∨ Led before) := by
  have hdrop : (e++tail).drop p = e.drop p++tail := List.drop_append_of_le_length hp
  have htake : (e++tail).take p = e.take p := List.take_append_of_le_length hp
  rw [exact_iff, OccursAt, hdrop, htake, ← List.drop_drop, hdrop]
  constructor
  · rintro ⟨ho, hled, hfol⟩
    obtain ⟨s, hs⟩ := prefix_of_closed name (e.drop p) tail hn.delim ht ho
    have hes : e = e.take p++(name++s) := by rw [hs, List.take_append_drop]
    rw [← hs, List.append_assoc, List.drop_left] at hfol
    have hs' : listDelim ∉ s := fun hm => he (by
      rw [hes]
      exact List.mem_append_right _ (List.mem_append_right _ hm))
    obtain ⟨gap, t, rfl, hg, ht'⟩ := (followed_shape s tail hs' ht).mp hfol
    have hlen : (e.take p).length = p := List.length_take_of_le hp
    rcases hled with rfl | hled
    · exact ⟨[], gap, t, ⟨by simpa using hes, fun c hc => absurd hc List.not_mem_nil, hg, ht'⟩, rfl,
        .inl rfl⟩
    · obtain ⟨hsp, hb⟩ := (led_append _ before (fun hm =>
        he (List.mem_of_mem_take (List.mem_reverse.mp hm)))).mp hled
      exact ⟨e.take p, gap, t, ⟨hes, fun c hc => hsp c (List.mem_reverse.mpr hc), hg, ht'⟩, hlen,
        .inr hb⟩
  · rintro ⟨lead, gap, t, ⟨rfl, hl, hg, ht'⟩, rfl, hb⟩
    rw [List.drop_left, List.take_left, List.append_assoc, List.drop_left]
    refine ⟨List.prefix_append _ _, ?_, ?_⟩
    · rcases hb with rfl | hb
      · exact .inl rfl
      · right
        rw [led_append]
        · exact ⟨fun c hc => hl c (List.mem_reverse.mp hc), hb⟩
        · exact fun hm => he (List.mem_append_left _ (List.mem_reverse.mp hm))
    · exact (followed_shape _ tail (fun hm => he (List.mem_append_right _
        (List.mem_append_right _ hm))) ht).mpr ⟨gap, t, rfl, hg, ht'⟩

end

theorem spaces_isspace (s : CStr) (hs : Spaces s) : ∀ c ∈ s, isspace c = true := by
  intro c hc
  rw [hs c hc]
  exact isspace_space

theorem strim_eq (lead s gap : CStr) (hl : Spaces lead) (hg : Spaces gap)
    (hfirst : ∀ c, s.head? = some c → isspace c = false)
    (hlast : ∀ c, s.getLast? = some c → isspace c = false) : strim (lead++(s++gap)) = s := by
  rw [strim, List.dropWhile_append_of_pos (spaces_isspace lead hl)]
  cases s with
  | nil =>
    have hnil : ([]++gap).dropWhile isspace = [] := by
      rw [List.nil_append, List.dropWhile_eq_nil_iff]
      exact spaces_isspace gap hg
    rw [hnil]
    rfl
  | cons c s =>
    rw [List.cons_append, List.dropWhile_cons_of_neg (by simp [hfirst c rfl]), ← List.cons_append,
      List.reverse_append, List.dropWhile_append_of_pos (fun d hd =>
        spaces_isspace gap hg d (List.mem_reverse.mp hd))]
    obtain ⟨d, u, hd⟩ := List.exists_cons_of_ne_nil (l := (c::s).reverse) (by simp)
    have hlast' : isspace d = false := hlast d (by
      rw [← List.head?_reverse, hd, List.head?_cons])
    rw [hd, List.dropWhile_cons_of_neg (by simp [hlast']), ← hd, List.reverse_reverse]

/-- The attributes of an entry of the given shape. -/
def attributesOf : CStr → Option CStr
  | [] => none
  | _::u => some (strim u)

theorem parse_shape (name e lead gap t : CStr) (hn : ProperName name)
    (h : Shape name e lead gap t) : parseEntry e = some (name, attributesOf t) := by
  obtain ⟨rfl, hl, hg, ht⟩ := h
  have hno : ∀ c ∈ lead++(name++gap), (c ≠ attrSep : Bool) = true := by
    intro c hc
    simp only [List.mem_append] at hc
    simp only [ne_eq, decide_not, Bool.not_eq_eq_eq_not, Bool.not_true, decide_eq_false_iff_not]
    rintro rfl
    rcases hc with hc | hc | hc
    · exact absurd (hl _ hc) (by decide)
    · exact hn.sep hc
    · exact absurd (hg _ hc) (by decide)
  have hstop : t.takeWhile (· ≠ attrSep) = [] ∧ t.dropWhile (· ≠ attrSep) = t := by
    rcases ht with rfl | ⟨u, rfl⟩ <;> simp
  have happ : lead++(name++(gap++t)) = (lead++(name++gap))++t := by simp
  have htake : (lead++(name++(gap++t))).takeWhile (· ≠ attrSep) = lead++(name++gap) := by
    rw [happ, List.takeWhile_append_of_pos hno, hstop.1, List.append_nil]
  have hdrop : (lead++(name++(gap++t))).dropWhile (· ≠ attrSep) = t := by
    rw [happ, List.dropWhile_append_of_pos hno, hstop.2]
  unfold parseEntry
  simp only [htake, hdrop, strim_eq lead name gap hl hg hn.first hn.last, if_neg hn.nonempty]
  rcases ht with rfl | ⟨u, rfl⟩ <;> rfl

/-- Attributes without white space inside, with blanks around them. -/
def Bare (t : CStr) : Prop :=
  t = [] ∨ ∃ lead a gap, t = attrSep::(lead++(a++gap)) ∧ Spaces lead ∧ Spaces gap ∧
    ∀ c ∈ a, isspace c = false

/-! ## The lookup and the walk -/

/-- What a walk over the list delivers. -/
def delivered (list : CStr) : List (CStr × Option CStr) := (entries list).filterMap parseEntry

/-- The attributes that are delivered last for a name. -/
def lastDelivered (ds : List (CStr × Option CStr)) (name : CStr) : Option CStr :=
  ds.foldl (fun r p => if p.1 = name then some (p.2.getD []) else r) none

theorem foldl_delivered (ds : List (CStr × Option CStr)) (name : CStr) (r : Option CStr) :
    ds.foldl (fun r p => if p.1 = name then some (p.2.getD []) else r) r =
      (lastDelivered ds name).or r := by
  induction ds using List.reverseRecOn with
  | nil => rfl
  | append_singleton ds p ih =>
    rw [lastDelivered, List.foldl_append, List.foldl_append, ih]
    by_cases hp : p.1 = name
    · simp [hp]
    · simp [hp, lastDelivered]

theorem lastDelivered_cons (d : CStr × Option CStr) (ds : List (CStr × Option CStr))
    (name : CStr) : lastDelivered (d::ds) name =
      (lastDelivered ds name).or (if d.1 = name then some (d.2.getD []) else none) := by
  rw [lastDelivered, List.foldl_cons, foldl_delivered]

theorem lastDelivered_append (ds ds' : List (CStr × Option CStr)) (name : CStr) :
    lastDelivered (ds++ds') name = (lastDelivered ds' name).or (lastDelivered ds name) := by
  rw [lastDelivered, List.foldl_append, foldl_delivered]
  rfl

theorem lastDelivered_mem (ds : List (CStr × Option CStr)) (name a : CStr)
    (h : lastDelivered ds name = some a) : ∃ p ∈ ds, p.1 = name ∧ p.2.getD [] = a := by
  induction ds with
  | nil => cases h
  | cons d ds ih =>
    rw [lastDelivered_cons] at h
    cases hl : lastDelivered ds name with
    | some b =>
      rw [hl] at h ih
      obtain ⟨p, hp, hpa⟩ := ih h
      exact ⟨p, List.mem_cons_of_mem d hp, hpa⟩
    | none =>
      rw [hl, Option.none_or] at h
      by_cases hd : d.1 = name
      · rw [if_pos hd] at h
        exact ⟨d, List.mem_cons_self .., hd, Option.some.inj h⟩
      · rw [if_neg hd] at h
        cases h

/-- The walk finds the name in the entry. -/
def Names (name e : CStr) : Prop := ∃ a, parseEntry e = some (name, a)

/-- An entry that the lookup reads as the walk does: blanks and nothing else around the name and
the attributes, and none before the name that starts the list. -/
def Spelled (first : Bool) (name e : CStr) : Prop :=
  ∃ lead gap t, Shape name e lead gap t ∧ (first = true → lead = []) ∧ Bare t

/-- The last entry with the name is spelled so. -/
def ReadableFrom (name : CStr) : Bool → List CStr → Prop
  | _, [] => True
  | first, e::es => (Names name e → (∃ e' ∈ es, Names name e') ∨ Spelled first name e) ∧
      ReadableFrom name false es

def Readable (list name : CStr) : Prop := ReadableFrom name true (entries list)

theorem shape_lead (name e lead gap t : CStr) (hn : ProperName name)
    (h : Shape name e lead gap t) : e.takeWhile (· = space) = lead := by
  obtain ⟨rfl, hl, -, -⟩ := h
  rw [List.takeWhile_append_of_pos (by simpa [Spaces] using hl)]
  cases name with
  | nil => exact absurd rfl hn.nonempty
  | cons c name =>
    have hc : c ≠ space := by
      rintro rfl
      exact absurd (hn.first space rfl) (by decide)
    rw [List.cons_append, List.takeWhile_cons_of_neg (by simpa using hc), List.append_nil]

section
variable (name : CStr)

/-- An entry without white space. -/
theorem spelled_of_plain (first : Bool) (e : CStr) (he : ∀ c ∈ e, isspace c = false)
    (hname : Names name e) : Spelled first name e := by
  obtain ⟨a, ha⟩ := hname
  have hnil : Spaces [] := fun c hc => absurd hc List.not_mem_nil
  have htrim (s : CStr) (hs : ∀ c ∈ s, isspace c = false) : strim s = s := by
    have h := strim_eq [] s [] hnil hnil (fun c hc => hs c (List.mem_of_mem_head? hc))
      (fun c hc => hs c (List.mem_of_getLast? hc))
    rwa [List.nil_append, List.append_nil] at h
  have hparts : ∀ c ∈ e.takeWhile (· ≠ attrSep), isspace c = false := fun c hc =>
    he c ((List.takeWhile_sublist _).mem hc)
  have hparts' : ∀ c ∈ e.dropWhile (· ≠ attrSep), isspace c = false := fun c hc =>
    he c ((List.dropWhile_sublist _).mem hc)
  have heq : e.takeWhile (· ≠ attrSep) = name := by
    unfold parseEntry at ha
    simp only [htrim _ hparts] at ha
    split at ha
    · cases ha
    · exact congrArg Prod.fst (Option.some.inj ha)
  have hsplit : e = name++e.dropWhile (· ≠ attrSep) := by
    conv_lhs => rw [← List.takeWhile_append_dropWhile (p := (· ≠ attrSep)) (l := e), heq]
  have hrest : e.dropWhile (· ≠ attrSep) = [] ∨ ∃ u, e.dropWhile (· ≠ attrSep) = attrSep::u := by
    have hhead := List.head?_dropWhile_not (· ≠ attrSep) e
    cases hd : e.dropWhile (· ≠ attrSep) with
    | nil => exact .inl rfl
    | cons c u =>
      rw [hd] at hhead
      exact .inr ⟨u, by simpa using hhead⟩
  refine ⟨[], [], e.dropWhile (· ≠ attrSep), ⟨hsplit, hnil, hnil, hrest⟩, fun _ => rfl, ?_⟩
  rcases hrest with hd | ⟨u, hd⟩
  · exact .inl hd
  · rw [hd] at hparts' ⊢
    exact .inr ⟨[], u, [], by simp, hnil, hnil, fun c hc =>
      hparts' c (List.mem_cons_of_mem _ hc)⟩

/-- A list without white space is read alike. -/
theorem readable_of_plain (list : CStr) (hplain : ∀ c ∈ list, isspace c = false) :
    Readable list name := by
  have main : ∀ (es : List CStr) (first : Bool), (∀ e ∈ es, ∀ c ∈ e, isspace c = false) →
      ReadableFrom name first es := by
    intro es
    induction es with
    | nil => exact fun _ _ => trivial
    | cons e es ih =>
      intro first hes
      obtain ⟨he, hes'⟩ := List.forall_mem_cons.mp hes
      exact ⟨fun h => .inr (spelled_of_plain name first e he h), ih false hes'⟩
  exact main (entries list) true fun e he c hc => hplain c (mem_entries list e he c hc).1

end

end UBoot.EnvAttr
