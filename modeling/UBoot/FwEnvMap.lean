import UBoot.FwEnv

/-!
# `fw_env_write` as an update of a map

On a well-formed area the functions are those of a list of pairs. A change of
a variable deletes its first entry before the space for the new one is
checked, and `fw_setenv` does not report that the change has failed.
-/

set_option autoImplicit false

namespace UBoot.FwEnv
open UBoot.ByteStore UBoot.EnvScan
open UBoot.EnvFlags (VarAccess preventDelete preventCreate preventOverwr preventNondefOverwr)

variable (t : Tool)

/-! ## The area as a list -/

/-- The entries without the first one of the name. -/
@[grind]
def erased (name : Str) : List Pair → List Pair
  | [] => []
  | e::es => if e.1 = name then es else e::erased name es

theorem erased_append (name : Str) (es fs : List Pair) (e : Pair) (he : e.1 = name)
    (h : lookup name es = none) : erased name (es ++ e::fs) = es++fs := by
  induction es with
  | nil => rw [List.nil_append, erased, if_pos he, List.nil_append]
  | cons d es ih =>
    rw [lookup] at h
    by_cases hd : d.1 = name
    · rw [if_pos hd] at h
      cases h
    · rw [if_neg hd] at h
      rw [List.cons_append, erased, if_neg hd, ih h, List.cons_append]

theorem erased_of_absent (name : Str) (es : List Pair) (h : lookup name es = none) :
    erased name es = es := by
  induction es with
  | nil => rfl
  | cons d es ih =>
    rw [lookup] at h
    by_cases hd : d.1 = name
    · rw [if_pos hd] at h
      cases h
    · rw [if_neg hd] at h
      rw [erased, if_neg hd, ih h]

theorem lookup_erased (name other : Str) (ho : other ≠ name) (es : List Pair) :
    lookup other (erased name es) = lookup other es := by
  induction es with
  | nil => rfl
  | cons e es ih =>
    rw [erased]
    by_cases he : e.1 = name
    · rw [if_pos he, lookup, if_neg (by rw [he]; exact Ne.symm ho)]
    · rw [if_neg he, lookup, lookup, ih]

section
variable {data : Memory} {es : List Pair}

/-- The entry of a well-formed area between two parts of the list. -/
theorem holds_entry {size : ℕ} {es₁ es₂ : List Pair} {e : Pair}
    (hi : Image data size (es₁ ++ e::es₂)) :
    Holds data (packed es₁).length (line e) ∧
      Holds data ((packed es₁).length+(line e).length) (packed es₂ ++ [0]) := by
  have h := holds_of_start data 0 _ _ hi.holds (packed_prefix_image _)
  rw [packed_append, packed_cons, List.append_assoc, List.append_assoc, holds_append,
    holds_append, Nat.zero_add] at h
  exact h.2

theorem fwGetenv_packed {size : ℕ} (hp : ∀ e ∈ es, Proper e) (h : Holds data 0 (packed es ++ [0]))
    (hs : (packed es).length ≤ size) (name : Str) (hn : 61 ∉ name) :
    fwGetenv data size name = some (lookup name es) := by
  rw [fwGetenv]
  rcases scan_lookup data size es hp h hs name hn with ⟨hl, env, nxt, hr⟩ | ⟨v, env, nxt, val, hl, hr, hv⟩
  · rw [hr, hl]
    rfl
  · rw [hr, hl, ← hv]
    rfl

theorem fwGetenv_image {size : ℕ} (hi : Image data size es) (name : Str) (hn : 61 ∉ name) :
    fwGetenv data size name = some (lookup name es) :=
  fwGetenv_packed hi.proper (holds_of_start data 0 _ _ hi.holds (packed_prefix_image es))
    hi.length_lt.le name hn

/-! ## Deleting an entry -/

/-- The only two terminators in a row are the last byte and the one behind it. -/
def Ends : List UInt8 → Prop
  | [] => False
  | [b] => b = 0
  | b::c::s => (b ≠ 0 ∨ c ≠ 0) ∧ Ends (c::s)

theorem ends_append (s u : List UInt8) (hs : 0 ∉ s) (hu : Ends u) : Ends (s++u) := by
  induction s with
  | nil => exact hu
  | cons c s ih =>
    rw [List.mem_cons, not_or] at hs
    have ht := ih hs.2
    rw [List.cons_append]
    cases hsu : s++u with
    | nil => rw [hsu] at ht; exact ht.elim
    | cons d w =>
      rw [hsu] at ht
      exact ⟨.inl (Ne.symm hs.1), ht⟩

theorem ends_packed (es : List Pair) (hne : es ≠ []) (hp : ∀ e ∈ es, Proper e) :
    Ends (packed es) := by
  induction es with
  | nil => exact absurd rfl hne
  | cons e es ih =>
    have he : Proper e := hp e (List.mem_cons_self ..)
    have hl : packed (e::es) = (e.1 ++ 61::e.2) ++ 0::packed es := by simp [line]
    rw [hl]
    apply ends_append
    · simp [he.1, he.2.2]
    · cases es with
      | nil => exact rfl
      | cons f es =>
        have hf : Proper f := hp f (by simp)
        obtain ⟨c, s, hc, h0⟩ := line_head f hf
        have ht := ih (by simp) fun g hg => hp g (List.mem_cons_of_mem e hg)
        rw [packed_cons, hc, List.cons_append] at ht ⊢
        exact ⟨.inr h0, ht⟩

theorem shift_ends (s : List UInt8) (hs : Ends s) (fuel env nxt : ℕ) (data : Memory)
    (h : Holds data nxt (s++[0])) (hlt : env < nxt) (hf : s.length ≤ fuel) :
    shift fuel env nxt data = some (env+s.length-1, store data env s) := by
  induction s generalizing fuel env nxt data with
  | nil => exact hs.elim
  | cons b s ih =>
    rw [List.length_cons] at hf ⊢
    obtain ⟨hb, h⟩ := h
    cases fuel with
    | zero => omega
    | succ fuel =>
      have hnext : Function.update data env b (nxt+1) = data (nxt+1) :=
        Function.update_of_ne (by omega) ..
      rw [shift, hb]
      simp only [Function.update_self, hnext]
      cases s with
      | nil =>
        rw [if_pos ⟨hs, h.1⟩]
        rfl
      | cons c s =>
        have hc : data (nxt+1) = c := h.1
        rw [if_neg (by rw [hc, not_and_or]; exact hs.1), ih hs.2 fuel (env+1) (nxt+1)]
        · rw [show env+1+(c::s).length-1 = env+((c::s).length+1)-1 by omega]
          rfl
        · exact (holds_congr _ _ _ _ fun a ha _ => Function.update_of_ne (by omega) ..).mpr h
        · omega
        · omega

theorem findEnd_ends (s : List UInt8) (hs : Ends s) (fuel p : ℕ) (data : Memory)
    (h : Holds data p (s++[0])) (hf : s.length ≤ fuel) :
    findEnd data fuel p = some (p+s.length-1) := by
  induction s generalizing fuel p with
  | nil => exact hs.elim
  | cons b s ih =>
    rw [List.length_cons] at hf ⊢
    obtain ⟨hb, h⟩ := h
    cases fuel with
    | zero => omega
    | succ fuel =>
      rw [findEnd, hb]
      cases s with
      | nil =>
        rw [if_pos ⟨hs, h.1⟩]
        rfl
      | cons c s =>
        have hc : data (p+1) = c := h.1
        rw [if_neg (by rw [hc, not_and_or]; exact hs.1), ih hs.2 fuel (p+1) h (by omega)]
        congr 1
        omega

theorem deleteEntry_eq {es₁ es₂ : List Pair} {e : Pair}
    (hi : Image data t.size (es₁ ++ e::es₂)) :
    deleteEntry t (packed es₁).length ((packed es₁).length+(e.1.length+e.2.length+1)) data =
      some (store data (packed es₁).length (image es₂)) := by
  have h := (holds_entry hi).2
  rw [line_length, show (packed es₁).length+(e.1.length+e.2.length+2) =
    (packed es₁).length+(e.1.length+e.2.length+1)+1 by omega] at h
  have hlen := hi.length_lt
  rw [packed_append, packed_cons, List.length_append, List.length_append] at hlen
  rw [deleteEntry]
  by_cases he : es₂ = []
  · subst he
    rw [if_pos h.1]
    rfl
  · have hp : ∀ f ∈ es₂, Proper f := fun f hf =>
      hi.proper f (List.mem_append_right _ (List.mem_cons_of_mem e hf))
    have hne : data ((packed es₁).length+(e.1.length+e.2.length+1)+1) ≠ 0 := by
      cases es₂ with
      | nil => exact absurd rfl he
      | cons f es =>
        obtain ⟨c, s, hc, h0⟩ := line_head f (hp f (List.mem_cons_self ..))
        rw [packed_cons, hc] at h
        rw [h.1]
        exact h0
    have hends := ends_packed es₂ he hp
    have hpos : 0 < (packed es₂).length := by
      cases hs : packed es₂ with
      | nil => rw [hs] at hends; exact hends.elim
      | cons c s => exact Nat.succ_pos _
    rw [if_neg hne, shift_ends _ hends _ _ _ _ h (by omega) (by omega), Option.map_some, image,
      if_neg he, store_append, show (packed es₁).length+(packed es₂).length-1+1 =
        (packed es₁).length+(packed es₂).length by omega]
    rfl

theorem image_deleted {size : ℕ} {es₁ es₂ : List Pair} {e : Pair}
    (hi : Image data size (es₁ ++ e::es₂)) :
    Image (store data (packed es₁).length (image es₂)) size (es₁++es₂) := by
  have h := holds_of_start data 0 _ _ hi.holds (packed_prefix_image _)
  rw [packed_append, List.append_assoc, holds_append] at h
  apply image_of_packed
  · intro f hf
    apply hi.proper f
    rw [List.mem_append] at hf ⊢
    exact hf.imp id (List.mem_cons_of_mem e)
  · simpa using holds_append_store data 0 (packed es₁) (image es₂) h.1
  · have hf := image_length_le es₂
    have hl := hi.length_lt
    rw [packed_append, packed_cons, List.length_append, List.length_append, line_length] at hl
    rw [List.length_append]
    omega

/-! ## Appending an entry -/

theorem findEnd_image (hi : Image data t.size es) :
    findEnd data (t.size+1) 0 = some ((packed es).length-1) := by
  by_cases he : es = []
  · subst he
    have h : Holds data 0 [0, 0] := hi.holds
    rw [findEnd, if_pos ⟨h.1, h.2.1⟩]
    rfl
  · have hl := hi.length_lt
    rw [findEnd_ends _ (ends_packed es he hi.proper) (t.size+1) 0 data
      (holds_of_start data 0 _ _ hi.holds (packed_prefix_image es)) (by omega), Nat.zero_add]

theorem appendEntry_eq (hi : Image data t.size es) (name value : Str) :
    appendEntry t name value data =
      some (if t.size < (packed es).length+(line (name, value)).length+1 then (.overflow, data)
        else (.ok, store data (packed es).length (line (name, value) ++ [0]))) := by
  have henv : (if 0 < (packed es).length-1 then (packed es).length-1+1 else (packed es).length-1) =
      (packed es).length := by
    cases es with
    | nil => rfl
    | cons e es =>
      have hg := packed_length_ge (e::es)
      rw [List.length_cons] at hg
      rw [if_pos (by omega)]
      omega
  rw [appendEntry, findEnd_image t hi, Option.map_some]
  have hline : line (name, value) ++ [0] = name ++ 61::(value ++ [0, 0]) := by
    simp [line]
  simp only [henv, line_length, hline]
  rw [show (packed es).length+(name.length+2+(value.length+1)) =
    (packed es).length+(name.length+value.length+2)+1 by omega]

theorem image_appended {size : ℕ} (hi : Image data size es) (e : Pair) (he : Proper e)
    (hs : (packed es).length+(line e).length+1 ≤ size) :
    Image (store data (packed es).length (line e ++ [0])) size (es++[e]) := by
  have h := holds_of_start data 0 _ _ hi.holds (packed_prefix_image _)
  rw [holds_append] at h
  have him : image [e] = line e ++ [0] := by
    rw [image, if_neg (by simp), packed_cons, packed_nil, List.append_nil]
  apply image_of_packed
  · intro f hf
    rw [List.mem_append, List.mem_singleton] at hf
    rcases hf with hf | rfl
    · exact hi.proper f hf
    · exact he
  · rw [him]
    simpa using holds_append_store data 0 (packed es) (line e ++ [0]) h.1
  · rw [him, List.length_append, List.length_append, List.length_singleton]
    omega

/-! ## `fw_env_write` -/

/-- The access flags allow the change that is asked for. -/
def Permitted (data : Memory) (es : List Pair) (name value : Str) : Prop :=
  match lookup name es with
  | none => value = [] ∨ t.validateVaraccess data name preventCreate = false
  | some old =>
    if value = [] then t.validateVaraccess data name preventDelete = false
    else t.overwriteDenied data name old = false

/-- There is room for the new definition once the old one is gone. -/
def Fits (es : List Pair) (name value : Str) : Prop :=
  value = [] ∨ (packed (erased name es)).length+(line (name, value)).length+1 ≤ t.size

/-- The entries after a change. -/
def written (name value : Str) (es : List Pair) : List Pair :=
  erased name es ++ if value = [] then [] else [(name, value)]

structure Outcome (data : Memory) (es : List Pair) (name value : Str) (r : Ret)
    (data' : Memory) : Prop where
  denied : ¬Permitted t data es name value → r = .erofs ∧ data' = data
  done : Permitted t data es name value → Fits t es name value →
    r = .ok ∧ Image data' t.size (written name value es)
  overflow : Permitted t data es name value → ¬Fits t es name value → r = .overflow ∧
    Image data' t.size (erased name es) ∧ (lookup name es = none → data' = data)

theorem append_outcome (data data' : Memory) (es : List Pair) (name value : Str)
    (hn : Proper (name, value)) (hv : value ≠ []) (hp : Permitted t data es name value)
    (hi : Image data' t.size (erased name es)) (hd : lookup name es = none → data' = data) :
    ∃ r data'', appendEntry t name value data' = some (r, data'') ∧
      Outcome t data es name value r data'' := by
  by_cases hf : Fits t es name value
  · have hs : (packed (erased name es)).length+(line (name, value)).length+1 ≤ t.size :=
      hf.resolve_left hv
    refine ⟨_, _, by rw [appendEntry_eq t hi, if_neg (by omega)], fun h => absurd hp h, ?_,
      fun _ h => absurd hf h⟩
    intro _ _
    rw [written, if_neg hv]
    exact ⟨rfl, image_appended hi (name, value) hn hs⟩
  · have hs : ¬(packed (erased name es)).length+(line (name, value)).length+1 ≤ t.size :=
      fun h => hf (.inr h)
    exact ⟨_, _, by rw [appendEntry_eq t hi, if_pos (by omega)], fun h => absurd hp h,
      fun _ h => absurd h hf, fun _ _ => ⟨rfl, hi, hd⟩⟩

/-- `fw_env_write` returns on every well-formed area. -/
theorem fwEnvWrite_outcome (hi : Image data t.size es) (name value : Str)
    (hn : Proper (name, value)) :
    ∃ r data', fwEnvWrite t name value data = some (r, data') ∧
      Outcome t data es name value r data' := by
  rw [fwEnvWrite, hi.scan_eq data t.size es name hn.2.1, Option.bind_some]
  rcases located_cases name es 0 0 with ⟨hl, env, nxt, hs⟩ | ⟨es₁, v, es₂, rfl, hl, hs⟩
  · rw [hs]
    simp only
    have he := erased_of_absent name es hl
    by_cases hv : value = []
    · rw [if_pos hv]
      have hp : Permitted t data es name value := by
        rw [Permitted, hl]
        exact .inl hv
      refine ⟨_, _, rfl, fun h => absurd hp h, fun _ _ => ⟨rfl, ?_⟩, fun _ h => absurd (.inl hv) h⟩
      rw [written, if_pos hv, List.append_nil, he]
      exact hi
    · rw [if_neg hv]
      by_cases hc : t.validateVaraccess data name preventCreate = true
      · rw [if_pos hc]
        have hp : ¬Permitted t data es name value := by
          rw [Permitted, hl]
          simp [hv, hc]
        exact ⟨_, _, rfl, fun _ => ⟨rfl, rfl⟩, fun h => absurd h hp, fun h => absurd h hp⟩
      · rw [if_neg hc]
        have hp : Permitted t data es name value := by
          rw [Permitted, hl]
          exact .inr (by simpa using hc)
        exact append_outcome t data data es name value hn hv hp (he.symm ▸ hi) fun _ => rfl
  · have hlook := lookup_split name v es₁ es₂ hl
    have herase := erased_append name es₁ es₂ (name, v) rfl hl
    have hval := fwGetenv_image hi name hn.2.1
    rw [fwGetenv, hi.scan_eq data t.size _ name hn.2.1, Option.map_some, hs, hlook] at hval
    simp only [Option.some.injEq] at hval
    rw [hs]
    simp only [Nat.zero_add] at hval ⊢
    rw [hval, deleteEntry_eq t hi]
    have hdel := image_deleted hi
    by_cases hv : value = []
    · rw [if_pos hv]
      by_cases hc : t.validateVaraccess data name preventDelete = true
      · rw [if_pos hc]
        have hp : ¬Permitted t data (es₁ ++ (name, v)::es₂) name value := by
          simp [Permitted, hlook, hv, hc]
        exact ⟨_, _, rfl, fun _ => ⟨rfl, rfl⟩, fun h => absurd h hp, fun h => absurd h hp⟩
      · rw [if_neg hc]
        have hp : Permitted t data (es₁ ++ (name, v)::es₂) name value := by
          simp only [Permitted, hlook, if_pos hv]
          simpa using hc
        refine ⟨_, _, rfl, fun h => absurd hp h, fun _ _ => ⟨rfl, ?_⟩,
          fun _ h => absurd (.inl hv) h⟩
        rw [written, if_pos hv, List.append_nil, herase]
        exact hdel
    · rw [if_neg hv]
      by_cases hc : t.overwriteDenied data name v = true
      · rw [if_pos hc]
        have hp : ¬Permitted t data (es₁ ++ (name, v)::es₂) name value := by
          simp [Permitted, hlook, hv, hc]
        exact ⟨_, _, rfl, fun _ => ⟨rfl, rfl⟩, fun h => absurd h hp, fun h => absurd h hp⟩
      · rw [if_neg hc]
        have hp : Permitted t data (es₁ ++ (name, v)::es₂) name value := by
          simp only [Permitted, hlook, if_neg hv]
          simpa using hc
        rw [Option.bind_some]
        apply append_outcome t data _ _ name value hn hv hp
        · rw [herase]
          exact hdel
        · rw [hlook]
          intro h
          cases h

/-! ## `fw_setenv` -/

/-- The value that `fw_setenv` makes of its arguments. -/
def joined (args : List Str) : Str := (joinValues (fun _ => true) args none).getD []

theorem joinValues_cases (realloc : ℕ → Bool) (args : List Str) (value : Option Str) :
    joinValues realloc args value = none ∨
      joinValues realloc args value = joinValues (fun _ => true) args value := by
  induction args generalizing value with
  | nil => exact .inr rfl
  | cons a args ih =>
    cases value with
    | none =>
      rw [joinValues, joinValues, if_pos rfl]
      by_cases hr : realloc (a.length+1) = true
      · rw [if_pos hr]
        exact ih _
      · exact .inl (if_neg hr)
    | some value =>
      rw [joinValues, joinValues, if_pos rfl]
      by_cases hr : realloc (value.length+1+a.length+1) = true
      · rw [if_pos hr]
        exact ih _
      · exact .inl (if_neg hr)

theorem joinValues_text (args : List Str) (value : Option Str) (ha : ∀ a ∈ args, 0 ∉ a)
    (hv : 0 ∉ value.getD []) :
    ∃ v, joinValues (fun _ => true) args value = some v ∧ 0 ∉ v := by
  induction args generalizing value with
  | nil => exact ⟨_, rfl, hv⟩
  | cons a args ih =>
    have h0 : 0 ∉ a := ha a (List.mem_cons_self ..)
    have hr := fun b hb => ha b (List.mem_cons_of_mem a hb)
    cases value with
    | none => exact ih (some a) hr h0
    | some value =>
      apply ih (some (value ++ 32::a)) hr
      simp only [Option.getD_some, List.mem_append, List.mem_cons, not_or] at hv ⊢
      exact ⟨hv, by decide, h0⟩

/-- `fw_setenv` does not come to `fw_env_write`. -/
def Unreached (h : Host) (data : Memory) (name : Str) (args : List Str) : Prop :=
  h.validateSetParams data name args = false ∨ joinValues h.realloc args none = none

theorem fwSetenv_reports (h : Host) (name : Str) (args : List Str) (ha : ∀ a ∈ args, 0 ∉ a)
    (r : Ret) (data' : Memory) (hw : fwEnvWrite t name (joined args) data = some (r, data')) :
    (∀ ret data'', fwSetenv t h name args data = some (ret, data'') → ret ≠ 0) ↔
      Unreached h data name args ∨ h.fwEnvClose data' ≠ 0 := by
  rw [fwSetenv, Unreached]
  by_cases hv : h.validateSetParams data name args = true
  · rw [if_neg (by rw [hv]; decide)]
    rcases joinValues_cases h.realloc args none with hj | hj
    · simp only [hj, or_true, true_or, iff_true]
      rintro ret data'' ⟨⟩
      decide
    · obtain ⟨v, hjv, -⟩ := joinValues_text args none ha (List.not_mem_nil)
      have hjoin : joined args = v := by rw [joined, hjv, Option.getD_some]
      rw [hj, hjv]
      simp only [hv, Bool.true_eq_false, false_or, reduceCtorEq]
      rw [← hjoin, hw, Option.map_some]
      constructor
      · intro hr
        exact hr _ _ rfl
      · rintro hr ret data'' ⟨⟩
        exact hr
  · rw [if_pos (by simpa using hv)]
    simp only [Bool.not_eq_true] at hv
    simp only [hv, true_or, iff_true]
    rintro ret data'' ⟨⟩
    decide

/-! ## The map -/

/-- A change by the tool is a change of one variable, or of nothing, and is told. -/
structure EditsMap (h : Host) (data : Memory) (name : Str) (args : List Str) : Prop where
  returns : ∃ r data', fwEnvWrite t name (joined args) data = some (r, data')
  changed : ∀ data', fwEnvWrite t name (joined args) data = some (.ok, data') →
    fwGetenv data' t.size name = some (if joined args = [] then none else some (joined args)) ∧
    (∀ other, 61 ∉ other → other ≠ name →
      fwGetenv data' t.size other = fwGetenv data t.size other) ∧
    ∃ es', Image data' t.size es'
  unchanged : ∀ r data', fwEnvWrite t name (joined args) data = some (r, data') → r ≠ .ok →
    data' = data
  reported : ∀ r data', fwEnvWrite t name (joined args) data = some (r, data') → r ≠ .ok →
    ∀ ret data'', fwSetenv t h name args data = some (ret, data'') → ret ≠ 0

/-- `fw_setenv` stops before the change, or the flash does not take the image. -/
def Told (h : Host) (data : Memory) (name : Str) (args : List Str) : Prop :=
  Unreached h data name args ∨ h.fwEnvClose data ≠ 0

/-- A change that is denied, or an addition without room, is told for another reason; a
change of a value has room; and no second entry of the name comes to light. -/
structure Meets (h : Host) (data : Memory) (es : List Pair) (name : Str) (args : List Str) :
    Prop where
  denied : ¬Permitted t data es name (joined args) → Told h data name args
  single : Permitted t data es name (joined args) → Fits t es name (joined args) →
    ∀ w, lookup name (erased name es) = some w → joined args ≠ [] ∧ w = joined args
  room : Permitted t data es name (joined args) → ¬Fits t es name (joined args) →
    lookup name es = none ∧ Told h data name args

theorem lookup_written (name value : Str) (es : List Pair) :
    lookup name (written name value es) = (if value = [] then none else some value) ↔
      ∀ w, lookup name (erased name es) = some w → value ≠ [] ∧ w = value := by
  rw [written, lookup_append]
  cases hl : lookup name (erased name es) with
  | none => by_cases hv : value = [] <;> simp [hv, lookup]
  | some w => by_cases hv : value = [] <;> simp [hv]

theorem lookup_written_other (name value other : Str) (ho : other ≠ name) (es : List Pair) :
    lookup other (written name value es) = lookup other es := by
  rw [written, lookup_append, lookup_erased name other ho]
  by_cases hv : value = []
  · rw [if_pos hv, lookup, Option.or_none]
  · rw [if_neg hv, lookup, if_neg (Ne.symm ho), lookup, Option.or_none]

/-- An area tells how long its entries are. -/
theorem packed_length_unique {fs : List Pair} (hi : Image data t.size es)
    (hj : Image data t.size fs) : (packed es).length-1 = (packed fs).length-1 :=
  Option.some.inj ((findEnd_image t hi).symm.trans (findEnd_image t hj))

theorem erased_length (name old : Str) (es : List Pair) (h : lookup name es = some old) :
    (packed (erased name es)).length+2 ≤ (packed es).length := by
  induction es with
  | nil => cases h
  | cons e es ih =>
    rw [lookup] at h
    rw [erased, packed_cons, List.length_append, line_length]
    by_cases he : e.1 = name
    · rw [if_pos he]
      omega
    · rw [if_neg he] at h ⊢
      rw [packed_cons, List.length_append, line_length]
      have := ih h
      omega

theorem erased_changes {data' : Memory} (hi : Image data t.size es) (name : Str)
    (hl : lookup name es ≠ none) (hj : Image data' t.size (erased name es)) : data' ≠ data := by
  rintro rfl
  obtain ⟨old, ho⟩ := Option.ne_none_iff_exists'.mp hl
  have hlen := erased_length name old es ho
  have huniq := packed_length_unique t hi hj
  omega

/-- Exactly when a change of a well-formed area by the tool is one of the map. -/
theorem fw_env_edits_map (h : Host) (data : Memory) (es : List Pair) (hi : Image data t.size es)
    (name : Str) (args : List Str) (hn : 0 ∉ name) (hn' : 61 ∉ name) (ha : ∀ a ∈ args, 0 ∉ a) :
    EditsMap t h data name args ↔ Meets t h data es name args := by
  obtain ⟨v, hjv, hv⟩ := joinValues_text args none ha (List.not_mem_nil)
  have hjoin : joined args = v := by rw [joined, hjv, Option.getD_some]
  obtain ⟨r, data', hw, ho⟩ := fwEnvWrite_outcome t hi name (joined args) ⟨hn, hn', hjoin ▸ hv⟩
  have htell := fwSetenv_reports t h name args ha r data' hw
  have hend (r₁ : Ret) (d₁ : Memory) (h₁ : fwEnvWrite t name (joined args) data = some (r₁, d₁)) :
      r = r₁ ∧ data' = d₁ := Prod.mk.inj (Option.some.inj (hw.symm.trans h₁))
  by_cases hp : Permitted t data es name (joined args)
  · by_cases hf : Fits t es name (joined args)
    · obtain ⟨rfl, hj⟩ := ho.done hp hf
      have hget (other : Str) (hother : 61 ∉ other) := fwGetenv_image hj other hother
      constructor
      · intro he
        refine ⟨fun hd => absurd hp hd, fun _ _ => ?_, fun _ hd => absurd hf hd⟩
        have hname := (he.changed data' hw).1
        rw [hget name hn', Option.some.injEq] at hname
        exact (lookup_written name (joined args) es).mp hname
      · intro hm
        refine ⟨⟨_, _, hw⟩, ?_, ?_, ?_⟩
        · intro d₁ h₁
          obtain ⟨-, rfl⟩ := hend _ _ h₁
          refine ⟨?_, ?_, _, hj⟩
          · rw [hget name hn', (lookup_written name (joined args) es).mpr (hm.single hp hf)]
          · intro other hother hne
            rw [hget other hother, fwGetenv_image hi other hother,
              lookup_written_other name (joined args) other hne]
        · intro r₁ d₁ h₁ hr
          exact absurd (hend _ _ h₁).1.symm hr
        · intro r₁ d₁ h₁ hr
          exact absurd (hend _ _ h₁).1.symm hr
    · obtain ⟨rfl, hj, hsame⟩ := ho.overflow hp hf
      constructor
      · intro he
        refine ⟨fun hd => absurd hp hd, fun _ hd => absurd hd hf, fun _ _ => ?_⟩
        have hdata := he.unchanged _ _ hw (by decide)
        constructor
        · by_contra hl
          exact erased_changes t hi name hl hj hdata
        · have := htell.mp (he.reported _ _ hw (by decide))
          rw [hdata] at this
          exact this
      · intro hm
        obtain ⟨hl, htold⟩ := hm.room hp hf
        refine ⟨⟨_, _, hw⟩, ?_, ?_, ?_⟩
        · intro d₁ h₁
          cases (hend _ _ h₁).1
        · intro r₁ d₁ h₁ _
          rw [← (hend _ _ h₁).2]
          exact hsame hl
        · intro r₁ d₁ h₁ _
          apply htell.mpr
          rw [hsame hl]
          exact htold
  · obtain ⟨rfl, rfl⟩ := ho.denied hp
    constructor
    · intro he
      exact ⟨fun _ => htell.mp (he.reported _ _ hw (by decide)), fun hd => absurd hd hp,
        fun hd => absurd hd hp⟩
    · intro hm
      refine ⟨⟨_, _, hw⟩, ?_, ?_, ?_⟩
      · intro d₁ h₁
        cases (hend _ _ h₁).1
      · intro r₁ d₁ h₁ _
        exact (hend _ _ h₁).2.symm
      · intro r₁ d₁ h₁ _
        exact htell.mpr (hm.denied hp)

end

/-- An area of eight bytes, with nothing protected and a flash that takes every image. -/
def smallTool : Tool := ⟨8, fun _ _ => .any, fun _ => none⟩
def smallHost : Host := ⟨fun _ _ _ => true, fun _ => true, fun _ => 0⟩

/-- `a=1` -/
def smallData : Memory := store (fun _ => 0) 0 (image [([97], [49])])

theorem smallData_image : Image smallData smallTool.size [([97], [49])] := by
  refine ⟨?_, holds_store _ 0 _, by decide⟩
  intro e he
  rw [List.mem_singleton] at he
  subst he
  exact ⟨by decide, by decide, by decide⟩

/-- The value 1 becomes 2. -/
theorem fw_env_edits_map_overwrite :
    Image smallData smallTool.size [([97], [49])] ∧
      EditsMap smallTool smallHost smallData [97] [[50]] := by
  have hp : Permitted smallTool smallData [([97], [49])] [97] [50] := by
    show smallTool.overwriteDenied smallData [97] [49] = false
    rfl
  have hf : Fits smallTool [([97], [49])] [97] [50] := .inr (by decide)
  refine ⟨smallData_image, (fw_env_edits_map smallTool smallHost smallData _ smallData_image
    [97] [[50]] (by decide) (by decide) (by simp)).mpr ⟨fun h => absurd hp h, ?_,
      fun _ h => absurd hf h⟩⟩
  intro _ _ w hw
  cases hw

/-- A value that does not fit: the variable is gone, and `fw_setenv` returns 0. -/
theorem overflow_loses_variable :
    ¬EditsMap smallTool smallHost smallData [97] [[50, 51, 52, 53, 54]] ∧
    (fwEnvWrite smallTool [97] [50, 51, 52, 53, 54] smallData).map
      (fun r => (r.1, fwGetenv r.2 8 [97])) = some (.overflow, some none) ∧
    fwGetenv smallData 8 [97] = some (some [49]) ∧
    (fwSetenv smallTool smallHost [97] [[50, 51, 52, 53, 54]] smallData).map (fun r => r.1) =
      some 0 := by
  refine ⟨?_, by decide +kernel, by decide +kernel, by decide +kernel⟩
  intro h
  obtain ⟨r, data', hw⟩ := h.returns
  have hr : r = .overflow := by
    have hd : (fwEnvWrite smallTool [97] [50, 51, 52, 53, 54] smallData).map Prod.fst =
      some .overflow := by decide +kernel
    rw [show fwEnvWrite smallTool [97] [50, 51, 52, 53, 54] smallData = some (r, data') from hw]
      at hd
    exact Option.some.inj hd
  have hs : (fwSetenv smallTool smallHost [97] [[50, 51, 52, 53, 54]] smallData).map Prod.fst =
    some 0 := by decide +kernel
  obtain ⟨⟨ret, data''⟩, hsome, hret⟩ := Option.map_eq_some_iff.mp hs
  exact h.reported r data' hw (by rw [hr]; decide) ret data'' hsome hret

end UBoot.FwEnv
