import Mathlib.Logic.Relation
import UBoot.EnvAttrLists

/-!
# The places that a lookup tries

`env_attr_lookup` tries the last place of a name first and then, as long as the name does not
stand alone, the last one that ends before. At each it looks back over blanks for a delimiter,
also at the start of the list.
-/

set_option autoImplicit false

namespace UBoot.EnvAttr
open UBoot.HashTable

/-! ## Lookups that stay in the list -/

/-- `none` is a look at a byte in front of the list. -/
def exactMatchIn (list name : CStr) (place : ℕ) : Option Bool :=
  if (list.take place).reverse.dropWhile (· = space) = [] then none
  else some (exactMatch [] list name place)

/-- The loop of `env_attr_lookup` on the bytes of the list alone. -/
@[grind]
def lookupLoopIn (list name : CStr) : ℕ → Option ℕ → Option (Option ℕ)
  | _, none => some none
  | 0, some _ => none
  | fuel+1, some place =>
    match exactMatchIn list name place with
    | none => none
    | some true => some (some place)
    | some false => lookupLoopIn list name fuel (reverseStrstr list name (some place))

/-- `env_attr_lookup` on the bytes of the list alone; `none` if it reads others or does not end. -/
def envAttrLookupIn (list name : CStr) : Option (Option CStr) :=
  (lookupLoopIn list name (list.length+1) (reverseStrstr list name none)).map fun place =>
    place.map fun place => attributesAt (list.drop (place+name.length))

/-! ## Tried places -/

section
variable (before list name : CStr)

/-- The place that is tried after one where the name does not stand alone. -/
def Next (p q : ℕ) : Prop :=
  exactMatch before list name p = false ∧ IsLast (EndsBefore list name (some p)) (some q)

def Tried (p : ℕ) : Prop :=
  ∃ q, IsLast (EndsBefore list name none) (some q) ∧
    Relation.ReflTransGen (Next before list name) q p

theorem tried_first (h : IsLast (EndsBefore list name none) none) (p : ℕ) :
    ¬ Tried before list name p := by
  rintro ⟨q, hq, -⟩
  cases hq.unique h

/-- From a place without a further one, only that place is tried. -/
theorem tried_end (p : ℕ) (h : exactMatch before list name p = true ∨
    IsLast (EndsBefore list name (some p)) none) (q : ℕ)
    (hq : Relation.ReflTransGen (Next before list name) p q) : q = p := by
  cases hq.cases_head with
  | inl heq => exact heq.symm
  | inr hnext =>
    obtain ⟨x, ⟨hno, hx⟩, -⟩ := hnext
    rcases h with h | h
    · rw [hno] at h
      cases h
    · cases hx.unique h

theorem tried_next (p p' : ℕ) (hno : exactMatch before list name p = false)
    (h : IsLast (EndsBefore list name (some p)) (some p')) (q : ℕ) :
    Relation.ReflTransGen (Next before list name) p q ↔
      q = p ∨ Relation.ReflTransGen (Next before list name) p' q := by
  constructor
  · intro hq
    cases hq.cases_head with
    | inl heq => exact .inl heq.symm
    | inr hnext =>
      obtain ⟨x, ⟨-, hx⟩, hrest⟩ := hnext
      cases hx.unique h
      exact .inr hrest
  · rintro (rfl | hq)
    · exact .refl
    · exact .head ⟨hno, h⟩ hq

/-- The result of a lookup that comes to a place. -/
def EndsAt (p : ℕ) : Option ℕ → Prop
  | some q => Relation.ReflTransGen (Next before list name) p q ∧
      exactMatch before list name q = true
  | none => ∀ q, Relation.ReflTransGen (Next before list name) p q →
      exactMatch before list name q = false

variable (hn : name ≠ [])
include hn

theorem next_lt (p p' : ℕ) (h : IsLast (EndsBefore list name (some p)) (some p')) : p' < p := by
  have hpos := List.length_pos_iff.mpr hn
  have hend := h.1.2 p rfl
  omega

theorem lookupLoop_tried (fuel p : ℕ) (hf : p < fuel) :
    ∃ r, lookupLoop before list name fuel (some p) = some r ∧ EndsAt before list name p r := by
  induction fuel generalizing p with
  | zero => exact absurd hf (Nat.not_lt_zero p)
  | succ fuel ih =>
    rw [lookupLoop]
    cases he : exactMatch before list name p with
    | true => exact ⟨some p, if_pos rfl, .refl, he⟩
    | false =>
      rw [if_neg Bool.false_ne_true]
      have hlast := reverseStrstr_last list name hn (some p)
      cases hr : reverseStrstr list name (some p) with
      | none =>
        rw [hr] at hlast
        refine ⟨none, by cases fuel <;> rfl, fun q hq => ?_⟩
        rw [tried_end before list name p (.inr hlast) q hq]
        exact he
      | some p' =>
        rw [hr] at hlast
        have hlt := next_lt list name hn p p' hlast
        obtain ⟨r, hloop, hends⟩ := ih p' (by omega)
        refine ⟨r, hloop, ?_⟩
        cases r with
        | none =>
          intro q hq
          rcases (tried_next before list name p p' he hlast q).mp hq with rfl | hq
          · exact he
          · exact hends q hq
        | some q =>
          exact ⟨(tried_next before list name p p' he hlast q).mpr (.inr hends.1), hends.2⟩

/-- A lookup ends at a tried place where the name stands alone, or there is none. -/
theorem envAttrLookup_tried :
    (∃ q, Tried before list name q ∧ exactMatch before list name q = true ∧
      envAttrLookup before list name =
        some (some (attributesAt (list.drop (q+name.length))))) ∨
    ((∀ q, Tried before list name q → exactMatch before list name q = false) ∧
      envAttrLookup before list name = some none) := by
  have hlast := reverseStrstr_last list name hn none
  rw [envAttrLookup]
  cases hr : reverseStrstr list name none with
  | none =>
    rw [hr] at hlast
    exact .inr ⟨fun q hq => absurd hq (tried_first before list name hlast q), rfl⟩
  | some p =>
    rw [hr] at hlast
    have hle := occursAt_le list name hn p hlast.1.1
    have hpos := List.length_pos_iff.mpr hn
    obtain ⟨r, hloop, hends⟩ := lookupLoop_tried before list name hn (list.length+1) p (by omega)
    rw [hloop]
    cases r with
    | none =>
      refine .inr ⟨fun q hq => ?_, rfl⟩
      obtain ⟨p', hp', hq⟩ := hq
      cases hp'.unique hlast
      exact hends q hq
    | some q => exact .inl ⟨q, ⟨p, hlast, hends.1⟩, hends.2, rfl⟩

end

/-! ## Staying inside -/

section
variable (list name : CStr)

/-- A byte of the list in front of a place ends the look back. -/
def Stopped (p : ℕ) : Prop := ∃ c ∈ list.take p, c ≠ space

theorem stopped_iff (p : ℕ) :
    (list.take p).reverse.dropWhile (· = space) ≠ [] ↔ Stopped list p := by
  rw [Ne, List.dropWhile_eq_nil_iff, Stopped]
  simp

theorem exactMatchIn_stopped (p : ℕ) (h : Stopped list p) :
    exactMatchIn list name p = some (exactMatch [] list name p) :=
  if_neg ((stopped_iff list p).mpr h)

theorem exactMatchIn_none (p : ℕ) (h : ¬ Stopped list p) : exactMatchIn list name p = none := by
  apply if_pos
  by_contra hne
  exact h ((stopped_iff list p).mp hne)

/-- What is in front of the list does not matter where the look back stops in it. -/
theorem exactMatch_stopped (before : CStr) (p : ℕ) (h : Stopped list p) :
    exactMatch before list name p = exactMatch [] list name p := by
  obtain ⟨c, t, hc⟩ := List.exists_cons_of_ne_nil ((stopped_iff list p).mpr h)
  have hsplit (b : CStr) : (((list.take p).reverse++b).dropWhile (· = space)).head? = some c := by
    rw [List.dropWhile_append, hc]
    rfl
  simp only [exactMatch, hsplit]

theorem lookupLoopIn_same (before : CStr) (fuel : ℕ) (place r : Option ℕ)
    (h : lookupLoopIn list name fuel place = some r) :
    lookupLoop before list name fuel place = some r := by
  induction fuel generalizing place with
  | zero =>
    cases place with
    | none => exact h
    | some p => cases h
  | succ fuel ih =>
    cases place with
    | none => exact h
    | some p =>
      rw [lookupLoopIn] at h
      by_cases hs : Stopped list p
      · rw [exactMatchIn_stopped list name p hs] at h
        rw [lookupLoop, exactMatch_stopped list name before p hs]
        cases he : exactMatch [] list name p with
        | true =>
          rw [he] at h
          exact h
        | false =>
          rw [he] at h
          exact ih _ h
      · rw [exactMatchIn_none list name p hs] at h
        cases h

variable (hn : name ≠ [])
include hn

theorem lookupLoopIn_tried (fuel p : ℕ) (hf : p < fuel) :
    (lookupLoopIn list name fuel (some p)).isSome ↔
      ∀ q, Relation.ReflTransGen (Next [] list name) p q → Stopped list q := by
  induction fuel generalizing p with
  | zero => exact absurd hf (Nat.not_lt_zero p)
  | succ fuel ih =>
    rw [lookupLoopIn]
    by_cases hs : Stopped list p
    · rw [exactMatchIn_stopped list name p hs]
      cases he : exactMatch [] list name p with
      | true =>
        refine ⟨fun _ q hq => ?_, fun _ => rfl⟩
        rw [tried_end [] list name p (.inl he) q hq]
        exact hs
      | false =>
        dsimp only
        have hlast := reverseStrstr_last list name hn (some p)
        cases hr : reverseStrstr list name (some p) with
        | none =>
          rw [hr] at hlast
          refine ⟨fun _ q hq => ?_, fun _ => by cases fuel <;> rfl⟩
          rw [tried_end [] list name p (.inr hlast) q hq]
          exact hs
        | some p' =>
          rw [hr] at hlast
          have hlt := next_lt list name hn p p' hlast
          rw [ih p' (by omega)]
          constructor
          · intro hall q hq
            rcases (tried_next [] list name p p' he hlast q).mp hq with rfl | hq
            · exact hs
            · exact hall q hq
          · exact fun hall q hq => hall q ((tried_next [] list name p p' he hlast q).mpr (.inr hq))
    · rw [exactMatchIn_none list name p hs]
      refine ⟨fun h => ?_, fun hall => absurd (hall p .refl) hs⟩
      cases h

end

/-- The lookup ends, and it reads only the list and the name, so that the memory in front of the
list is of no account. -/
def StaysInside (list name : CStr) : Prop :=
  ∃ r, envAttrLookupIn list name = some r ∧ ∀ before, envAttrLookup before list name = some r

/-- A lookup stays inside exactly when each place that it tries has a byte of the list other than
a blank in front of it. -/
theorem staysInside_iff (list name : CStr) :
    StaysInside list name ↔ name ≠ [] ∧ ∀ p, Tried [] list name p → Stopped list p := by
  by_cases hn : name = []
  · have hnone : envAttrLookupIn list name = none := by
      rw [hn, envAttrLookupIn, reverseStrstr, if_pos rfl, lookupLoopIn,
        exactMatchIn_none list [] 0 (by rintro ⟨c, hc, -⟩; simp at hc)]
      rfl
    constructor
    · rintro ⟨r, hr, -⟩
      rw [hnone] at hr
      cases hr
    · exact fun h => absurd hn h.1
  · have hlast := reverseStrstr_last list name hn none
    cases hr : reverseStrstr list name none with
    | none =>
      rw [hr] at hlast
      constructor
      · exact fun _ => ⟨hn, fun p hp => absurd hp (tried_first [] list name hlast p)⟩
      · intro _
        refine ⟨none, ?_, fun before => ?_⟩
        · rw [envAttrLookupIn, hr]
          rfl
        · rw [envAttrLookup, hr]
          rfl
    | some p =>
      rw [hr] at hlast
      have hle := occursAt_le list name hn p hlast.1.1
      have hpos := List.length_pos_iff.mpr hn
      have hloop := lookupLoopIn_tried list name hn (list.length+1) p (by omega)
      constructor
      · rintro ⟨r, hr', -⟩
        rw [envAttrLookupIn, hr] at hr'
        obtain ⟨place, hplace, -⟩ := Option.map_eq_some_iff.mp hr'
        rw [hplace] at hloop
        refine ⟨hn, fun q hq => ?_⟩
        obtain ⟨p', hp', hq⟩ := hq
        cases hp'.unique hlast
        exact hloop.mp rfl q hq
      · rintro ⟨-, hall⟩
        obtain ⟨place, hplace⟩ := Option.isSome_iff_exists.mp
          (hloop.mpr fun q hq => hall q ⟨p, hlast, hq⟩)
        refine ⟨place.map fun place => attributesAt (list.drop (place+name.length)), ?_, fun before => ?_⟩
        · rw [envAttrLookupIn, hr, hplace]
          rfl
        · rw [envAttrLookup, hr, lookupLoopIn_same list name before _ _ _ hplace]
          rfl

/-- The name `a` at the start of the list `a:x` is looked at with the byte in front of the list. -/
theorem first_name_leaves_list : ¬ StaysInside [97, 58, 120] [97] := by
  rintro ⟨r, hr, -⟩
  have hnone : envAttrLookupIn [97, 58, 120] [97] = none := by decide +kernel
  rw [hnone] at hr
  cases hr

end UBoot.EnvAttr
