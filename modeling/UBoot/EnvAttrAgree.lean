import UBoot.EnvAttrTried

/-!
# The lookup against the walk

For a name that an entry can have, the lookup takes the last entry in which nothing but blanks is
around it, while the walk strips all white space. Other names are never delivered, but the lookup
may find them across the parts of a list.
-/

set_option autoImplicit false

namespace UBoot.EnvAttr
open UBoot.HashTable

/-- What a walk delivers, one after the other. -/
def walked (list : CStr) : List (CStr × Option CStr) :=
  (envAttrWalk (fun ds name attributes => (0, ds ++ [(name, attributes)])) (some list) []).2

theorem walkEntries_delivered (es : List CStr) (ds : List (CStr × Option CStr)) :
    (walkEntries (fun ds name attributes => (0, ds ++ [(name, attributes)])) es ds).2 =
      ds ++ es.filterMap parseEntry := by
  induction es generalizing ds with
  | nil => simp [walkEntries]
  | cons e es ih =>
    rw [walkEntries]
    cases hp : parseEntry e with
    | none => rw [List.filterMap_cons_none hp, ← ih ds]
    | some p =>
      obtain ⟨name, attributes⟩ := p
      rw [List.filterMap_cons_some hp]
      simp only [ne_eq, not_true_eq_false, if_false, ih, List.append_assoc, List.cons_append,
        List.nil_append]

theorem walked_delivered (list : CStr) : walked list = delivered list := by
  rw [walked, envAttrWalk, walkEntries_delivered, delivered, List.nil_append]

/-- The lookup gives what the walk delivers last for the name. -/
def Agrees (before list name : CStr) : Prop :=
  envAttrLookup before list name = some (lastDelivered (walked list) name)

/-- Up to the first blank, what is behind the colon and its blanks. -/
def cut : CStr → CStr
  | [] => []
  | _::u => (u.dropWhile (· = space)).takeWhile (· ≠ space)

/-- Nothing but blanks is around the name of the entry, and nothing in front of a name at the
start of the list. -/
def Plain (before name e : CStr) : Prop :=
  ∃ lead gap t, Shape name e lead gap t ∧ (lead = [] ∨ Led before)

/-- The last of the entries that is plain for a name, and its attributes up to a blank. -/
inductive Shows (name : CStr) : CStr → List CStr → CStr → Prop
  | last (before e lead gap t : CStr) (es : List CStr) (hs : Shape name e lead gap t)
      (hl : lead = [] ∨ Led before) (hno : ∀ x ∈ es, ¬ Plain [listDelim] name x) :
      Shows name before (e::es) (cut t)
  | later (before e a : CStr) (es : List CStr) (h : Shows name [listDelim] es a) :
      Shows name before (e::es) a

/-- The last of the entries with a name, white space aside, and its attributes. -/
inductive Tells (name : CStr) : List CStr → CStr → Prop
  | last (e : CStr) (a : Option CStr) (es : List CStr) (hp : parseEntry e = some (name, a))
      (hno : ∀ x ∈ es, ¬ Names name x) : Tells name (e::es) (a.getD [])
  | later (e a : CStr) (es : List CStr) (h : Tells name es a) : Tells name (e::es) a

/-! ## What is told -/

theorem lastDelivered_none (es : List CStr) (name : CStr) (h : ∀ e ∈ es, ¬ Names name e) :
    lastDelivered (es.filterMap parseEntry) name = none := by
  cases hl : lastDelivered (es.filterMap parseEntry) name with
  | none => rfl
  | some a =>
    obtain ⟨p, hp, hname, -⟩ := lastDelivered_mem _ name a hl
    obtain ⟨e, he, hpe⟩ := List.mem_filterMap.mp hp
    exact absurd ⟨p.2, by rw [hpe, ← hname]⟩ (h e he)

theorem lastDelivered_tells (es : List CStr) (name a : CStr) (h : Tells name es a) :
    lastDelivered (es.filterMap parseEntry) name = some a := by
  induction h with
  | last e a es hp hno =>
    rw [List.filterMap_cons_some hp, lastDelivered_cons, lastDelivered_none es name hno, if_pos rfl]
    rfl
  | later e a es _ ih =>
    cases hp : parseEntry e with
    | none => rw [List.filterMap_cons_none hp, ih]
    | some p => rw [List.filterMap_cons_some hp, lastDelivered_cons, ih]; rfl

theorem tells_cases (es : List CStr) (name : CStr) :
    (∀ e ∈ es, ¬ Names name e) ∨ ∃ a, Tells name es a := by
  induction es with
  | nil => exact .inl fun e he => absurd he List.not_mem_nil
  | cons e es ih =>
    rcases ih with hno | ⟨a, ha⟩
    · by_cases hname : Names name e
      · obtain ⟨a, hp⟩ := hname
        exact .inr ⟨_, .last e a es hp hno⟩
      · exact .inl (List.forall_mem_cons.mpr ⟨hname, hno⟩)
    · exact .inr ⟨a, .later e a es ha⟩

/-! ## What is shown -/

theorem shows_cases (es : List CStr) (before name : CStr) :
    (∀ e t, es = e::t → ¬ Plain before name e ∧ ∀ x ∈ t, ¬ Plain [listDelim] name x) ∨
      ∃ a, Shows name before es a := by
  induction es generalizing before with
  | nil => exact .inl nofun
  | cons e es ih =>
    rcases ih [listDelim] with hno | ⟨a, ha⟩
    · have hrest : ∀ x ∈ es, ¬ Plain [listDelim] name x := by
        cases es with
        | nil => exact fun x hx => absurd hx List.not_mem_nil
        | cons d es => exact List.forall_mem_cons.mpr (hno d es rfl)
      by_cases hplain : Plain before name e
      · obtain ⟨lead, gap, t, hs, hl⟩ := hplain
        exact .inr ⟨_, .last before e lead gap t es hs hl hrest⟩
      · left
        rintro d t ⟨rfl, rfl⟩
        exact ⟨hplain, hrest⟩
    · exact .inr ⟨a, .later before e a es ha⟩

theorem takeWhile_closed (s tail : CStr) (hs : listDelim ∉ s) (htail : Closed tail) :
    (s++tail).takeWhile (fun c => decide (c ≠ listDelim ∧ c ≠ space)) =
      s.takeWhile (· ≠ space) := by
  induction s with
  | nil => rcases htail with rfl | ⟨rest, rfl⟩ <;> rfl
  | cons c s ih =>
    have hc : c ≠ listDelim := fun h => hs (by rw [h]; exact List.mem_cons_self)
    rw [List.cons_append, List.takeWhile_cons, List.takeWhile_cons,
      ih fun hm => hs (List.mem_cons_of_mem c hm)]
    simp [hc]

theorem shows_cons (name before e a : CStr) (es : List CStr) :
    Shows name before (e::es) a ↔ (∃ lead gap t, Shape name e lead gap t ∧
      (lead = [] ∨ Led before) ∧ (∀ x ∈ es, ¬ Plain [listDelim] name x) ∧ a = cut t) ∨
      Shows name [listDelim] es a := by
  constructor
  · intro h
    cases h with
    | last _ _ lead gap t _ hs hl hno => exact .inl ⟨lead, gap, t, hs, hl, hno, rfl⟩
    | later _ _ _ _ h => exact .inr h
  · rintro (⟨lead, gap, t, hs, hl, hno, rfl⟩ | h)
    · exact .last before e lead gap t es hs hl hno
    · exact .later before e a es h

theorem attributesAt_cut (gap t tail : CStr) (hg : Spaces gap) (hs : t = [] ∨ ∃ u, t = attrSep::u)
    (ht : listDelim ∉ t) (htail : Closed tail) : attributesAt (gap++t++tail) = cut t := by
  unfold attributesAt
  rw [List.append_assoc, dropWhile_spaces _ _ hg]
  rcases hs with rfl | ⟨u, rfl⟩
  · rcases htail with rfl | ⟨rest, rfl⟩ <;> rfl
  · rw [List.cons_append, List.dropWhile_cons_of_neg (by decide)]
    simp only [if_true, cut]
    obtain ⟨gap', a, rfl, hg', ha⟩ := exists_spaces u
    rw [List.append_assoc, dropWhile_spaces _ _ hg', dropWhile_spaces _ _ hg']
    cases a with
    | nil => rcases htail with rfl | ⟨rest, rfl⟩ <;> rfl
    | cons c a =>
      have hc : c ≠ space := by simpa using ha
      rw [List.cons_append, List.dropWhile_cons_of_neg (by simpa using hc),
        List.dropWhile_cons_of_neg (by simpa using hc), ← List.cons_append]
      exact takeWhile_closed (c::a) tail (fun hm => ht (by simp [List.mem_cons.mp hm])) htail

section
variable (name : CStr) (hn : ProperName name)
include hn

theorem plain_names (before e : CStr) (h : Plain before name e) : Names name e := by
  obtain ⟨lead, gap, t, hs, -⟩ := h
  exact ⟨_, parse_shape name e lead gap t hn hs⟩

/-- The parts of an entry around a name are fixed. -/
theorem shape_unique (e lead gap t lead' gap' t' : CStr) (h : Shape name e lead gap t)
    (h' : Shape name e lead' gap' t') : lead = lead' ∧ t = t' := by
  have hlead : lead = lead' := by
    rw [← shape_lead name e lead gap t hn h, shape_lead name e lead' gap' t' hn h']
  have heq : gap++t = gap'++t' := by
    have h1 := h.eq.symm.trans h'.eq
    rw [hlead] at h1
    exact List.append_cancel_left (List.append_cancel_left h1)
  have hstop : ∀ s : CStr, (s = [] ∨ ∃ u, s = attrSep::u) → s.dropWhile (· = space) = s := by
    rintro s (rfl | ⟨u, rfl⟩) <;> rfl
  have hdrop := congrArg (List.dropWhile (· = space)) heq
  rw [dropWhile_spaces _ _ h.gap, dropWhile_spaces _ _ h'.gap, hstop t h.rest,
    hstop t' h'.rest] at hdrop
  exact ⟨hlead, hdrop⟩

section First
variable (before e tail : CStr) (he : listDelim ∉ e) (ht : Closed tail)
  (hrest : ∀ p, e.length < p → ¬ Exact before (e++tail) name p) (r : Option ℕ)
  (hr : IsLast (Exact before (e++tail) name) r)
include he ht hrest hr

/-- What is looked up when nothing is found behind the first entry and that is plain. -/
theorem first_shown (lead gap t : CStr) (hs : Shape name e lead gap t)
    (hl : lead = [] ∨ Led before) :
    r.map (fun p => attributesAt ((e++tail).drop (p+name.length))) = some (cut t) := by
  have hlen : lead.length ≤ e.length := by
    rw [hs.eq, List.length_append]
    omega
  have hex : Exact before (e++tail) name lead.length :=
    (exact_first before e tail name hn he ht _ hlen).mpr ⟨lead, gap, t, hs, rfl, hl⟩
  have hlast : IsLast (Exact before (e++tail) name) (some lead.length) := by
    refine ⟨hex, fun q hq hq' => ?_⟩
    have hle : q ≤ e.length := by
      by_contra hlt
      exact hrest q (by omega) hq'
    obtain ⟨lead', gap', t', hs', rfl, -⟩ := (exact_first before e tail name hn he ht q hle).mp hq'
    rw [(shape_unique name hn e lead gap t lead' gap' t' hs hs').1] at hq
    exact absurd hq (lt_irrefl _)
  have hdrop : (e++tail).drop (lead.length+name.length) = gap++t++tail := by
    rw [hs.eq, ← List.drop_drop, List.append_assoc, List.drop_left, List.append_assoc,
      List.drop_left]
  have hdelim : listDelim ∉ t := fun hm => he (by
    rw [hs.eq]
    simp [hm])
  rw [hr.unique hlast, Option.map_some, hdrop, attributesAt_cut gap t tail hs.gap hs.rest hdelim ht]

theorem first_unshown (hno : ¬ Plain before name e) : r = none := by
  have hnone : IsLast (Exact before (e++tail) name) none := by
    intro p hp
    have hle : p ≤ e.length := by
      by_contra hlt
      exact hrest p (by omega) hp
    obtain ⟨lead, gap, t, hs, -, hl⟩ := (exact_first before e tail name hn he ht p hle).mp hp
    exact hno ⟨lead, gap, t, hs, hl⟩
  exact hr.unique hnone

end First

theorem exact_single (before e : CStr) (p : ℕ) (hp : e.length < p) :
    ¬ Exact before (e++[]) name p := by
  intro hex
  have hle := occursAt_le _ name hn.nonempty p hex.1
  rw [List.append_nil] at hle
  omega

omit hn in
theorem plain_led (before e : CStr) (hb : Led before) :
    Plain before name e ↔ Plain [listDelim] name e := by
  have hd : Led [listDelim] := rfl
  simp only [Plain, hb, hd, or_true]

omit hn in
theorem shows_led (before a : CStr) (es : List CStr) (hb : Led before)
    (h : Shows name [listDelim] es a) : Shows name before es a := by
  cases es with
  | nil => cases h
  | cons e es =>
    rw [shows_cons] at h ⊢
    rcases h with ⟨lead, gap, t, hs, -, hno, ha⟩ | h
    · exact .inl ⟨lead, gap, t, hs, .inr hb, hno, ha⟩
    · exact .inr h

/-- The last place where the name stands alone is in the last plain entry. -/
theorem last_shown (es : List CStr) (e before : CStr) (hd : ∀ x ∈ e::es, listDelim ∉ x)
    (r : Option ℕ) (hr : IsLast (Exact before (joined (e::es)) name) r) :
    (∀ a, Shows name before (e::es) a →
      r.map (fun p => attributesAt ((joined (e::es)).drop (p+name.length))) = some a) ∧
    (¬ Plain before name e → (∀ x ∈ es, ¬ Plain [listDelim] name x) → r = none) := by
  induction es generalizing e before r with
  | nil =>
    have he := hd e List.mem_cons_self
    have happ : joined [e] = e++[] := (List.append_nil e).symm
    rw [happ] at hr ⊢
    have hrest := exact_single name hn before e
    refine ⟨fun a ha => ?_, fun hno _ => first_unshown name hn before e [] he (.inl rfl) hrest r hr hno⟩
    rcases (shows_cons name before e a []).mp ha with ⟨lead, gap, t, hs, hl, -, rfl⟩ | h
    · exact first_shown name hn before e [] he (.inl rfl) hrest r hr lead gap t hs hl
    · cases h
  | cons e' es ih =>
    have he := hd e List.mem_cons_self
    have hd' := fun x hx => hd x (List.mem_cons_of_mem e hx)
    have hled : Led (listDelim::(e.reverse++before)) := rfl
    obtain ⟨r', hr', -⟩ := envAttrLookup_last (listDelim::(e.reverse++before)) (joined (e'::es)) name hn
    obtain ⟨hshown, hnone⟩ := ih e' (listDelim::(e.reverse++before)) hd' r' hr'
    rw [show joined (e::e'::es) = e++listDelim::joined (e'::es) from rfl] at hr ⊢
    -- places behind the first entry are places of the rest
    have hbehind : ∀ p, e.length < p → Exact before (e++listDelim::joined (e'::es)) name p →
        ∃ q, p = e.length+1+q ∧ Exact (listDelim::(e.reverse++before)) (joined (e'::es)) name q := by
      intro p hp hex
      refine ⟨p-e.length-1, by omega, ?_⟩
      rw [← exact_rest before e, show e.length+1+(p-e.length-1) = p by omega]
      exact hex
    have hempty : (∀ x ∈ e'::es, ¬ Plain [listDelim] name x) →
        ∀ p, e.length < p → ¬ Exact before (e++listDelim::joined (e'::es)) name p := by
      intro hno p hp hex
      obtain ⟨hno', hnos⟩ := List.forall_mem_cons.mp hno
      rw [hnone ((plain_led name _ e' hled).not.mpr hno') hnos] at hr'
      obtain ⟨q, -, hq⟩ := hbehind p hp hex
      exact hr' q hq
    refine ⟨fun a ha => ?_, fun hno hnos => ?_⟩
    · rcases (shows_cons name before e a (e'::es)).mp ha with
        ⟨lead, gap, t, hs, hl, hno, rfl⟩ | h
      · exact first_shown name hn before e _ he (.inr ⟨_, rfl⟩) (hempty hno) r hr lead gap t hs hl
      · have hq := hshown a (shows_led name _ a _ hled h)
        cases r' with
        | none => cases hq
        | some q =>
          have hlast : IsLast (Exact before (e++listDelim::joined (e'::es)) name)
              (some (e.length+1+q)) := by
            refine ⟨(exact_rest before e _ name q).mpr hr'.1, fun p hp hex => ?_⟩
            obtain ⟨q', rfl, hq'⟩ := hbehind p (by omega) hex
            exact hr'.2 q' (by omega) hq'
          have hdrop : (e++listDelim::joined (e'::es)).drop (e.length+1+q+name.length) =
              (joined (e'::es)).drop (q+name.length) := by
            rw [show e.length+1+q+name.length = e.length+((q+name.length)+1) by omega,
              List.drop_length_add_append, List.drop_succ_cons]
          rw [hr.unique hlast, Option.map_some, hdrop, ← hq, Option.map_some]
    · exact first_unshown name hn before e _ he (.inr ⟨_, rfl⟩) (hempty hnos) r hr hno

end

/-! ## Agreement -/

section
variable (before list name : CStr)

/-- Whatever the walk tells last for the name is shown last. -/
def ReadAlike : Prop := ∀ a, Tells name (entries list) a → Shows name before (entries list) a

theorem agrees_proper (hn : ProperName name) :
    Agrees before list name ↔ ReadAlike before list name := by
  obtain ⟨r, hr, hlook⟩ := envAttrLookup_last before list name hn
  obtain ⟨e, es, hes⟩ := List.exists_cons_of_ne_nil (entries_ne_nil list)
  have hdelim : ∀ x ∈ e::es, listDelim ∉ x := by
    rw [← hes]
    exact fun x hx hm => (mem_entries list x hx _ hm).2 rfl
  have hlist : joined (e::es) = list := by rw [← hes, joined_entries]
  obtain ⟨hshown, hnone⟩ := last_shown name hn es e before hdelim r (by rw [hlist]; exact hr)
  rw [hlist] at hshown
  rw [Agrees, walked_delivered, delivered, hlook, Option.some.injEq, ReadAlike, hes]
  constructor
  · intro hagree a ha
    rw [lastDelivered_tells _ name a ha] at hagree
    rcases shows_cases (e::es) before name with hno | ⟨b, hb⟩
    · obtain ⟨hno, hnos⟩ := hno e es rfl
      rw [hnone hno hnos] at hagree
      cases hagree
    · rw [hshown b hb] at hagree
      rwa [← Option.some.inj hagree]
  · intro hall
    rcases tells_cases (e::es) name with hno | ⟨a, ha⟩
    · rw [lastDelivered_none _ name hno]
      obtain ⟨hno', hnos⟩ := List.forall_mem_cons.mp hno
      rw [hnone (fun hp => hno' (plain_names name hn before e hp))
        fun x hx hp => hnos x hx (plain_names name hn _ x hp)]
      rfl
    · rw [lastDelivered_tells _ name a ha, hshown a (hall a ha)]

end

/-! ## Lists that are spelled plainly -/

/-- Attributes without white space inside are not cut off. -/
theorem cut_bare (t : CStr) (hb : Bare t) : cut t = (attributesOf t).getD [] := by
  rcases hb with rfl | ⟨lead, a, gap, rfl, hl, hg, ha⟩
  · rfl
  · have hstrim : strim (lead++(a++gap)) = a := strim_eq lead a gap hl hg
      (fun c hc => ha c (List.mem_of_mem_head? hc)) (fun c hc => ha c (List.mem_of_getLast? hc))
    have hgap : gap.takeWhile (· ≠ space) = [] ∧ gap.dropWhile (· = space) = [] := by
      constructor
      · cases gap with
        | nil => rfl
        | cons d gap => rw [hg d List.mem_cons_self]; rfl
      · rw [List.dropWhile_eq_nil_iff]
        simpa [Spaces] using hg
    have hplain : ∀ c ∈ a, (decide (c ≠ space)) = true := by
      intro c hc
      have h2 : c ≠ space := by
        rintro rfl
        exact absurd (ha _ hc) (by decide)
      simpa using h2
    simp only [cut, attributesOf, Option.getD_some, hstrim]
    rw [dropWhile_spaces _ _ hl]
    cases a with
    | nil => rw [List.nil_append, hgap.2]; rfl
    | cons c a =>
      have hc : c ≠ space := of_decide_eq_true (hplain c List.mem_cons_self)
      rw [List.cons_append, List.dropWhile_cons_of_neg (by simpa using hc), ← List.cons_append,
        List.takeWhile_append_of_pos hplain, hgap.1, List.append_nil]

section
variable (name : CStr) (hn : ProperName name)
include hn

theorem shows_of_readable (es : List CStr) (before a : CStr) (first : Bool)
    (hread : ReadableFrom name first es) (hb : first = false → Led before)
    (h : Tells name es a) : Shows name before es a := by
  induction h generalizing before first with
  | last e a es hp hno =>
    have hspelled := (hread.1 ⟨a, hp⟩).resolve_left fun ⟨x, hx, hname⟩ => hno x hx hname
    obtain ⟨lead, gap, t, hs, hlead, hbare⟩ := hspelled
    have ha : a = attributesOf t :=
      congrArg Prod.snd (Option.some.inj (hp.symm.trans (parse_shape name e lead gap t hn hs)))
    rw [ha, ← cut_bare t hbare]
    apply Shows.last before e lead gap t es hs
    · cases first with
      | true => exact .inl (hlead rfl)
      | false => exact .inr (hb rfl)
    · exact fun x hx hplain => hno x hx (plain_names name hn _ x hplain)
  | later e a es _ ih => exact .later before e a es (ih _ false hread.2 fun _ => rfl)

/-- The lookup gives what the walk delivers last. -/
theorem envAttrLookup_delivered (before list : CStr) (hread : Readable list name) :
    envAttrLookup before list name = some (lastDelivered (delivered list) name) := by
  rw [← walked_delivered]
  exact (agrees_proper before list name hn).mpr fun a ha =>
    shows_of_readable name hn _ before a true hread nofun ha

end

/-! ## Names that no entry has -/

theorem strim_head (s : CStr) (c : UInt8) (h : (strim s).head? = some c) : isspace c = false := by
  have hpre : strim s <+: s.dropWhile isspace := by
    rw [strim, ← List.reverse_suffix, List.reverse_reverse]
    exact List.dropWhile_suffix isspace
  obtain ⟨rest, hrest⟩ := hpre
  have hhead := List.head?_dropWhile_not isspace s
  rw [← hrest, List.head?_append, h] at hhead
  simpa using hhead

theorem strim_last (s : CStr) (c : UInt8) (h : (strim s).getLast? = some c) :
    isspace c = false := by
  have hhead := List.head?_dropWhile_not isspace (s.dropWhile isspace).reverse
  rw [strim, List.getLast?_reverse] at h
  rw [h] at hhead
  simpa using hhead

theorem strim_mem (s : CStr) (c : UInt8) (h : c ∈ strim s) : c ∈ s := by
  rw [strim, List.mem_reverse] at h
  have h1 := (List.dropWhile_sublist isspace).mem h
  exact (List.dropWhile_sublist isspace).mem (List.mem_reverse.mp h1)

/-- The walk delivers proper names only. -/
theorem names_proper (name e : CStr) (he : listDelim ∉ e) (h : Names name e) : ProperName name := by
  obtain ⟨a, ha⟩ := h
  unfold parseEntry at ha
  dsimp only at ha
  by_cases hnil : strim (e.takeWhile (· ≠ attrSep)) = []
  · rw [if_pos hnil] at ha
    cases ha
  · rw [if_neg hnil] at ha
    obtain ⟨rfl, -⟩ := Prod.mk.inj (Option.some.inj ha)
    refine ⟨hnil, fun hm => ?_, fun hm => ?_, strim_head _, strim_last _⟩
    · exact he ((List.takeWhile_sublist _).mem (strim_mem _ _ hm))
    · have hsep := List.mem_takeWhile_imp (strim_mem _ _ hm)
      simp at hsep

theorem delivered_improper (list name : CStr) (hn : ¬ ProperName name) :
    lastDelivered (delivered list) name = none :=
  lastDelivered_none _ name fun e he hname =>
    hn (names_proper name e (fun hm => (mem_entries list e he _ hm).2 rfl) hname)

/-- A lookup of the empty name goes round at the start of the list. -/
theorem lookupLoop_empty (before list : CStr) (fuel : ℕ)
    (h : exactMatch before list [] 0 = false) :
    lookupLoop before list [] fuel (some 0) = none := by
  induction fuel with
  | zero => rfl
  | succ fuel ih =>
    have hstart : reverseStrstr list [] (some 0) = some 0 := if_pos rfl
    rw [lookupLoop, h, if_neg Bool.false_ne_true, hstart, ih]

theorem empty_not_agrees (before list : CStr) : ¬ Agrees before list [] := by
  have hno : ¬ ProperName [] := fun h => h.nonempty rfl
  have hstart : reverseStrstr list [] none = some 0 := if_pos rfl
  rw [Agrees, walked_delivered, delivered_improper list [] hno, envAttrLookup, hstart]
  cases he : exactMatch before list [] 0 with
  | true =>
    rw [lookupLoop, he, if_pos rfl]
    simp
  | false =>
    rw [lookupLoop_empty before list _ he]
    simp

/-- What an agreement takes: a name that an entry can have is read alike, any other stands alone
at no place that is tried. -/
structure Alike (before list name : CStr) : Prop where
  nonempty : name ≠ []
  proper : ProperName name → ReadAlike before list name
  improper : ¬ ProperName name → ∀ p, Tried before list name p →
    exactMatch before list name p = false

theorem lookup_agrees_iff (before list name : CStr) :
    Agrees before list name ↔ Alike before list name := by
  by_cases hnil : name = []
  · rw [hnil]
    exact ⟨fun h => absurd h (empty_not_agrees before list), fun h => absurd rfl h.nonempty⟩
  · by_cases hn : ProperName name
    · rw [agrees_proper before list name hn]
      exact ⟨fun h => ⟨hnil, fun _ => h, fun hno => absurd hn hno⟩, fun h => h.proper hn⟩
    · have hlook := envAttrLookup_tried before list name hnil
      rw [Agrees, walked_delivered, delivered_improper list name hn]
      constructor
      · intro h
        refine ⟨hnil, fun hp => absurd hp hn, fun _ => ?_⟩
        rcases hlook with ⟨q, -, -, heq⟩ | ⟨hall, -⟩
        · rw [heq] at h
          cases h
        · exact hall
      · intro h
        rcases hlook with ⟨q, hq, hex, -⟩ | ⟨-, heq⟩
        · rw [h.improper hn q hq] at hex
          cases hex
        · exact heq

/-- In ` a:x` the walk delivers `x` for `a`, which the lookup does not find. -/
theorem blank_before_first : ¬ Agrees [0] [32, 97, 58, 120] [97] := by
  have hlook : envAttrLookup [0] [32, 97, 58, 120] [97] = some none := by decide +kernel
  have hwalk : lastDelivered (walked [32, 97, 58, 120]) [97] = some [120] := by decide +kernel
  rw [Agrees, hlook, hwalk]
  simp

end UBoot.EnvAttr
