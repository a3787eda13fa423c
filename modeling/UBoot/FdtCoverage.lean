import UBoot.FdtRegions
import UBoot.FdtWalk
import Mathlib

/-!
# What the regions cover

The tags of the structure block are listed with the node they belong to, the
path under which the walk enters it, and the path of the node around it. A tag
is covered by the regions exactly if it is selected: a property if its node is
listed and its name is not excluded, a tag of a node if the node or the one
around it is listed, and the end of a node also if the subnode before it is.
-/

set_option autoImplicit false

namespace UBoot.Fdt

/-- A tag with the node it belongs to, the path of the node around that one,
and the path of the node that ends right before the tag. -/
structure Item where
  tag : Tag
  offset : ℕ
  next : ℕ
  owner : Option (ℕ × Name)
  outer : Option Name
  closed : Option Name

/-- The items from an offset, with the open nodes, the innermost first. -/
@[grind]
def items (b : Blob) : ℕ → ℕ → Name → List (ℕ × Name) → Option Name → List Item
  | 0, _, _, _, _ => []
  | fuel+1, offset, path, nodes, closed =>
    let next := (nextTag b offset).next
    let outer := (nodes.drop 1).head?.map Prod.snd
    match (nextTag b offset).tag with
    | .done => []
    | .prop => ⟨.prop, offset, next, nodes.head?, outer, closed⟩::items b fuel next path nodes none
    | .nop => ⟨.nop, offset, next, nodes.head?, outer, closed⟩::items b fuel next path nodes none
    | .beginNode =>
      let path' := childPath path (cstrAt b (w32 (offDtStruct b+offset+4)))
      ⟨.beginNode, offset, next, some (offset, path'), nodes.head?.map Prod.snd, closed⟩::
        items b fuel next path' ((offset, path')::nodes) none
    | .endNode => ⟨.endNode, offset, next, nodes.head?, outer, closed⟩::
        items b fuel next (parentPath path) (nodes.drop 1) (nodes.head?.map Prod.snd)

/-- All items of a tree. -/
def allItems (b : Blob) : List Item := items b walkFuel 0 [] [] none

theorem items_along (b : Blob) (fuel o : ℕ) (path : Name) (nodes : List (ℕ × Name))
    (closed : Option Name) : ∀ i ∈ items b fuel o path nodes closed, Along b o i.offset := by
  induction fuel generalizing o path nodes closed with
  | zero => simp [items]
  | succ fuel ih =>
    have hrest : (nextTag b o).tag ≠ .done → ∀ o', Along b (nextTag b o).next o' → Along b o o' :=
      fun ht o' h => Relation.ReflTransGen.head ⟨ht, rfl⟩ h
    unfold items
    cases ht : (nextTag b o).tag with
    | done => simp
    | _ =>
      intro i hi
      rcases List.mem_cons.mp hi with rfl | hi
      · exact .refl
      · exact hrest (by rw [ht]; decide) _ (ih _ _ _ _ i hi)

/-- A node that the walk comes to. -/
theorem isNode_of_item (b : Blob) (o : ℕ)
    (h : ∃ i ∈ allItems b, i.offset = o ∧ (nextTag b i.offset).tag = .beginNode) : IsNode b o := by
  obtain ⟨i, hi, rfl, htag⟩ := h
  exact ⟨items_along b walkFuel 0 [] [] none i hi, htag⟩

@[grind]
def Listed (inc : List Name) : Option Name → Prop
  | none => False
  | some path => path ∈ inc

instance (inc : List Name) (path : Option Name) : Decidable (Listed inc path) :=
  match path with
  | none => inferInstanceAs (Decidable False)
  | some path => inferInstanceAs (Decidable (path ∈ inc))

def Selected (b : Blob) (q : Search) (i : Item) : Prop :=
  Listed q.inc (i.owner.map Prod.snd) ∧
      (i.tag = .prop → q.excProp.any (strEq b (fdtString b (propNameoff b i.offset))) = false) ∨
    (i.tag = .beginNode ∨ i.tag = .endNode) ∧ Listed q.inc i.outer ∨
    i.tag = .endNode ∧ Listed q.inc i.closed

/-! ## `want` -/

/-- `want` for the innermost of some nodes. -/
@[grind]
def wantOf (inc : List Name) : List (ℕ × Name) → ℕ
  | [] => 0
  | v::rest => if v.2 ∈ inc then 2 else wantOf inc rest-1

@[grind]
def stackOf (inc : List Name) : List (ℕ × Name) → List ℕ
  | [] => []
  | _::rest => wantOf inc rest::stackOf inc rest

theorem wantOf_le (inc : List Name) (nodes : List (ℕ × Name)) : wantOf inc nodes ≤ 2 := by
  induction nodes with
  | nil => simp [wantOf]
  | cons v rest ih =>
    unfold wantOf
    split_ifs <;> omega

theorem wantOf_two (inc : List Name) (nodes : List (ℕ × Name)) :
    2 ≤ wantOf inc nodes ↔ Listed inc (nodes.head?.map Prod.snd) := by
  cases nodes with
  | nil => simp [wantOf, Listed]
  | cons v rest =>
    have := wantOf_le inc rest
    by_cases h : v.2 ∈ inc
    · simp [wantOf, Listed, h]
    · simp [wantOf, Listed, h]
      omega

theorem wantOf_pos (inc : List Name) (nodes : List (ℕ × Name)) : wantOf inc nodes ≠ 0 ↔
    Listed inc (nodes.head?.map Prod.snd) ∨ Listed inc ((nodes.drop 1).head?.map Prod.snd) := by
  cases nodes with
  | nil => simp [wantOf, Listed]
  | cons v rest =>
    have hrest := wantOf_two inc rest
    rw [List.drop_one, List.tail_cons, ← hrest]
    have := wantOf_le inc rest
    by_cases h : v.2 ∈ inc
    · simp [wantOf, Listed, h]
    · simp [wantOf, Listed, h]
      omega

/-! ## Marking -/

/-- A byte of the blob is in one of the first regions. -/
def Within (count : ℕ) (region : ℕ → Region) (a : ℕ) : Prop :=
  ∃ k < count, (region k).offset ≤ a ∧ a < (region k).offset+(region k).size

theorem exists_update (count : ℕ) (region : ℕ → Region) (r : Region) (p : Region → Prop) :
    (∃ k < count+1, p (Function.update region count r k)) ↔ (∃ k < count, p (region k)) ∨ p r := by
  have hold : ∀ k < count, Function.update region count r k = region k := fun k hk =>
    Function.update_of_ne hk.ne _ _
  have hnew : Function.update region count r count = r := Function.update_self _ _ _
  constructor
  · rintro ⟨k, hk, h⟩
    by_cases hkc : k = count
    · rw [hkc, hnew] at h
      exact .inr h
    · rw [hold k (by omega)] at h
      exact .inl ⟨k, by omega, h⟩
  · rintro (⟨k, hk, h⟩ | h)
    · exact ⟨k, by omega, by rw [hold k hk]; exact h⟩
    · exact ⟨count, by omega, by rw [hnew]; exact h⟩

theorem within_update (count : ℕ) (region : ℕ → Region) (r : Region) (a : ℕ) :
    Within (count+1) (Function.update region count r) a ↔
      Within count region a ∨ r.offset ≤ a ∧ a < r.offset+r.size :=
  exists_update count region r fun r => r.offset ≤ a ∧ a < r.offset+r.size

/-- A byte of the structure block is in a stored region or in the open one. -/
def Cov (b : Blob) (w : Walk) (x : ℕ) : Prop :=
  Within w.count w.region (offDtStruct b+x) ∨ ∃ s, w.start = some s ∧ s ≤ x

/-- The regions lie between the start of the block and the current offset. -/
structure Tidy (b : Blob) (w : Walk) (off : ℕ) : Prop where
  low : ∀ k < w.count, offDtStruct b ≤ (w.region k).offset
  high : ∀ k < w.count, (w.region k).offset+(w.region k).size ≤ offDtStruct b+off
  fits : ∀ k < w.count, (w.region k).offset+(w.region k).size < 4294967296
  start : ∀ s, w.start = some s → s ≤ off ∧ offDtStruct b+s < 4294967296

/-- What the end of the loop body does with the tag from `off` to `next`. -/
structure Marked (b : Blob) (w w' : Walk) (taken : Bool) (off next stopAt : ℕ) :
    Prop where
  tidy : Tidy b w' next
  before : ∀ x < off, (Cov b w' x ↔ Cov b w x)
  inside : ∀ x, off ≤ x → x < next →
    (Cov b w' x ↔ taken = true ∨ w.start ≠ none ∧ stopAt = next)
  start : w'.start ≠ none ↔ taken = true

theorem mark_fields (b : Blob) (q : Search) (w : Walk) (taken : Bool) (off stopAt : ℕ) :
    (mark b q w taken off stopAt).path = w.path ∧ (mark b q w taken off stopAt).stack = w.stack ∧
    (mark b q w taken off stopAt).want = w.want := by
  unfold mark
  cases taken <;> cases w.start <;> simp only [and_self]
  split_ifs <;> simp only [and_self]

theorem mark_count (b : Blob) (q : Search) (w : Walk) (taken : Bool) (off stopAt : ℕ)
    (h : (mark b q w taken off stopAt).count ≤ q.maxRegions) : w.count ≤ q.maxRegions := by
  unfold mark at h
  cases taken <;> cases hs : w.start <;> simp only [hs] at h
  · exact h
  · omega
  · split_ifs at h with h1
    · exact h1.2.1
    · exact h
  · exact h

section Mark

variable (b : Blob) (q : Search) (w : Walk) (off next stopAt : ℕ)
  (hoff : offDtStruct b+off < 4294967296) (hle : off ≤ next) (hnext : next < 4294967296)
  (hstop : stopAt = off ∨ stopAt = next) (hfit : offDtStruct b+stopAt < 4294967296)
  (htidy : Tidy b w off)

include htidy hle in
theorem tidy_mono : Tidy b w next :=
  ⟨htidy.low, fun k hk => by have := htidy.high k hk; omega, htidy.fits,
    fun s hs => by have := htidy.start s hs; omega⟩

include htidy in
/-- Beyond the offset there is only the open region. -/
theorem cov_beyond (x : ℕ) (hx : off ≤ x) : Cov b w x ↔ w.start ≠ none := by
  constructor
  · rintro (⟨k, hk, h1, h2⟩ | ⟨s, hs, -⟩)
    · have := htidy.high k hk
      omega
    · rw [hs]
      simp
  · intro hne
    obtain ⟨s, hs⟩ := Option.ne_none_iff_exists'.mp hne
    have := htidy.start s hs
    exact .inr ⟨s, hs, by omega⟩

include hoff hle htidy in
theorem mark_open (hnone : w.start = none) :
    Marked b w (mark b q w true off stopAt) true off next stopAt := by
  have hbase : offDtStruct b < 4294967296 := fdt32_lt b 8
  unfold mark
  simp only [hnone]
  split_ifs with h
  · -- the last region ends here and is continued
    obtain ⟨h0, -, hend⟩ := h
    have hk : w.count-1 < w.count := by omega
    have hlow := htidy.low _ hk
    have hhigh := htidy.high _ hk
    rw [w32_of_lt _ (by omega)] at hend
    unfold minus at hend ⊢
    generalize hr : w.region (w.count-1) = r at *
    have he : w32 (4294967296+(r.offset+r.size)-offDtStruct b) = r.offset+r.size-offDtStruct b := by
      unfold w32
      omega
    have hs : w32 (4294967296+r.offset-offDtStruct b) = r.offset-offDtStruct b := by
      unfold w32
      omega
    rw [he] at hend
    rw [hs]
    have htidy' : Tidy b { w with count := w.count-1, start := some (r.offset-offDtStruct b) } off :=
      ⟨fun k hk => htidy.low k (by simp only at hk; omega),
        fun k hk => htidy.high k (by simp only at hk; omega),
        fun k hk => htidy.fits k (by simp only at hk; omega), fun s hs => by cases hs; omega⟩
    refine ⟨tidy_mono b _ off next hle htidy', fun x hx => ?_, fun x h1 _ => ?_, by simp⟩
    · constructor
      · rintro (⟨k, hk, h1, h2⟩ | ⟨s, hs, h1⟩)
        · exact .inl ⟨k, by simp only at hk; omega, h1, h2⟩
        · cases hs
          exact .inl ⟨w.count-1, hk, by rw [hr]; omega, by rw [hr]; omega⟩
      · rintro (⟨k, hk, h1, h2⟩ | ⟨s, hs, -⟩)
        · by_cases hkl : k = w.count-1
          · subst hkl
            rw [hr] at h1
            exact .inr ⟨_, rfl, by omega⟩
          · exact .inl ⟨k, by simp only; omega, h1, h2⟩
        · rw [hnone] at hs
          cases hs
    · rw [cov_beyond b _ off htidy' x h1]
      simp
  · have htidy' : Tidy b { w with start := some off } off :=
      ⟨htidy.low, htidy.high, htidy.fits, fun s hs => by cases hs; exact ⟨le_rfl, hoff⟩⟩
    refine ⟨tidy_mono b _ off next hle htidy', fun x hx => ?_, fun x h1 _ => ?_, by simp⟩
    · constructor
      · rintro (h1 | ⟨s, hs, h1⟩)
        · exact .inl h1
        · cases hs
          omega
      · rintro (h1 | ⟨s, hs, -⟩)
        · exact .inl h1
        · rw [hnone] at hs
          cases hs
    · rw [cov_beyond b _ off htidy' x h1]
      simp

include hle hnext hstop hfit htidy in
theorem mark_close (s : ℕ) (hs : w.start = some s)
    (hcount : (mark b q w false off stopAt).count ≤ q.maxRegions) :
    Marked b w (mark b q w false off stopAt) false off next stopAt := by
  obtain ⟨hso, hsb⟩ := htidy.start s hs
  unfold mark at hcount ⊢
  simp only [hs] at hcount ⊢
  have hlt : w.count < q.maxRegions := by omega
  have hsize : minus stopAt s = stopAt-s := by
    unfold minus w32
    omega
  rw [if_pos hlt, w32_of_lt _ (by omega), hsize]
  have hcov : ∀ x, Cov b { w with
      region := Function.update w.region w.count ⟨offDtStruct b+s, stopAt-s⟩
      count := w.count+1
      start := none } x ↔ Within w.count w.region (offDtStruct b+x) ∨ s ≤ x ∧ x < stopAt := by
    intro x
    unfold Cov
    simp only [within_update, reduceCtorEq, false_and, exists_false, or_false]
    refine or_congr_right ?_
    omega
  have hold : ∀ k < w.count, Function.update w.region w.count
      ⟨offDtStruct b+s, stopAt-s⟩ k = w.region k := fun k hk =>
    Function.update_of_ne hk.ne _ _
  have hnew : Function.update w.region w.count ⟨offDtStruct b+s, stopAt-s⟩ w.count =
      ⟨offDtStruct b+s, stopAt-s⟩ := Function.update_self _ _ _
  generalize Function.update w.region w.count ⟨offDtStruct b+s, stopAt-s⟩ = region at *
  refine ⟨⟨fun k hk => ?_, fun k hk => ?_, fun k hk => ?_, by simp⟩, fun x hx => ?_,
    fun x h1 h2 => ?_, by simp⟩
  · simp only at hk ⊢
    by_cases hkc : k = w.count
    · rw [hkc, hnew]
      simp
    · rw [hold k (by omega)]
      exact htidy.low k (by omega)
  · simp only at hk ⊢
    by_cases hkc : k = w.count
    · rw [hkc, hnew]
      simp only
      omega
    · rw [hold k (by omega)]
      have := htidy.high k (by omega)
      omega
  · simp only at hk ⊢
    by_cases hkc : k = w.count
    · rw [hkc, hnew]
      simp only
      omega
    · rw [hold k (by omega)]
      exact htidy.fits k (by omega)
  · rw [hcov x]
    unfold Cov
    rw [hs]
    simp only [Option.some_inj, exists_eq_left']
    constructor
    · exact fun h => h.imp id fun h => h.1
    · exact fun h => h.imp id fun h => ⟨h, by omega⟩
  · rw [hcov x]
    simp only [Bool.false_eq_true, false_or, hs, ne_eq, reduceCtorEq, not_false_eq_true, true_and]
    constructor
    · rintro (⟨k, hk, h3, h4⟩ | h)
      · have := htidy.high k hk
        omega
      · omega
    · intro h
      exact .inr (by omega)

include hle htidy in
/-- Nothing to be done. -/
theorem mark_same (taken : Bool) (h : w.start ≠ none ↔ taken = true) :
    Marked b w w taken off next stopAt := by
  refine ⟨tidy_mono b w off next hle htidy, fun x _ => Iff.rfl, fun x h1 _ => ?_, h⟩
  rw [cov_beyond b w off htidy x h1, h]
  constructor
  · exact fun ht => .inl ht
  · rintro (ht | ⟨hne, -⟩)
    · exact ht
    · exact hne

include hoff hle hnext hstop htidy in
theorem mark_marked (taken : Bool) (hfit : taken = false → offDtStruct b+stopAt < 4294967296)
    (hcount : (mark b q w taken off stopAt).count ≤ q.maxRegions) :
    Marked b w (mark b q w taken off stopAt) taken off next stopAt := by
  cases taken with
  | true =>
    cases hs : w.start with
    | none => exact mark_open b q w off next stopAt hoff hle htidy hs
    | some s =>
      have heq : mark b q w true off stopAt = w := by simp only [mark, hs]
      rw [heq]
      exact mark_same b w off next stopAt hle htidy true (by simp [hs])
  | false =>
    cases hs : w.start with
    | none =>
      have heq : mark b q w false off stopAt = w := by simp only [mark, hs]
      rw [heq]
      exact mark_same b w off next stopAt hle htidy false (by simp [hs])
    | some s => exact mark_close b q w off next stopAt hle hnext hstop (hfit rfl) htidy s hs hcount

end Mark

/-! ## One tag -/

/-- The variables of the walk agree with the open nodes. -/
structure Sync (q : Search) (w : Walk) (path : Name) (nodes : List (ℕ × Name))
    (closed : Option Name) : Prop where
  path : w.path = path
  stack : w.stack = stackOf q.inc nodes
  want : w.want = wantOf q.inc nodes
  /-- In a node that is not wanted a region is open only behind a listed subnode. -/
  start : wantOf q.inc nodes = 0 → (w.start ≠ none ↔ Listed q.inc closed)

/-- The walk has passed a tag. -/
structure Passed (b : Blob) (q : Search) (w w' : Walk) (i : Item) (path : Name)
    (nodes : List (ℕ × Name)) (closed : Option Name) : Prop where
  sync : Sync q w' path nodes closed
  tidy : Tidy b w' i.next
  before : ∀ x < i.offset, (Cov b w' x ↔ Cov b w x)
  inside : ∀ x, i.offset ≤ x → x < i.next → (Cov b w' x ↔ Selected b q i)

section Visit

variable (b : Blob) (q : Search) (w w' : Walk) (path : Name) (nodes : List (ℕ × Name))
  (closed : Option Name) (off next : ℕ)
  (hoff : offDtStruct b+off < 4294967296) (hle : off ≤ next) (hnext : next < 4294967296)
  (hsync : Sync q w path nodes closed) (htidy : Tidy b w off)

include hoff hle hnext hsync htidy in
/-- A property or a filler: it is taken in a listed node only. -/
theorem passed_content (tag : Tag) (htag : tag = .prop ∨ tag = .nop) (skip : Bool)
    (hskip : skip = true ↔
      tag = .prop ∧ q.excProp.any (strEq b (fdtString b (propNameoff b off))) = true)
    (hw : w' = mark b q w (2 ≤ w.want && !skip) off off) (hcount : w'.count ≤ q.maxRegions) :
    Passed b q w w' ⟨tag, off, next, nodes.head?, (nodes.drop 1).head?.map Prod.snd, closed⟩ path
      nodes none := by
  subst hw
  have hm := mark_marked b q w off next off hoff hle hnext (.inl rfl) htidy _ (fun _ => hoff) hcount
  obtain ⟨f1, f2, f3⟩ := mark_fields b q w (2 ≤ w.want && !skip) off off
  refine ⟨⟨f1.trans hsync.path, f2.trans hsync.stack, f3.trans hsync.want, fun h0 => ?_⟩, hm.tidy, hm.before, fun x h1 h2 => ?_⟩
  · rw [hm.start, hsync.want, h0]
    simp [Listed]
  · rw [hm.inside x h1 h2]
    have hne : off ≠ next := by
      simp only at h1 h2
      omega
    have htwo := wantOf_two q.inc nodes
    have hb : tag ≠ .beginNode ∧ tag ≠ .endNode := by
      rcases htag with rfl | rfl <;> decide
    simp only [hne, and_false, or_false, Selected, hb.1, hb.2, false_and, hsync.want,
      Bool.and_eq_true, decide_eq_true_eq, Bool.not_eq_true', htwo]
    refine and_congr_right fun _ => ?_
    rw [← Bool.not_eq_true, hskip, not_and, Bool.not_eq_true]

include hoff hle hnext hsync htidy in
theorem passed_begin (path' : Name) (want : ℕ) (hwant : want = if path' ∈ q.inc then 2 else w.want-1)
    (hw : w' = mark b q (w.moveTo path' (w.want::w.stack) want) (want ≠ 0) off
      (if w.want = 1 ∨ path' ∉ q.inc ∧ w.want = 0 then off else next))
    (hcount : w'.count ≤ q.maxRegions) :
    Passed b q w w' ⟨.beginNode, off, next, some (off, path'), nodes.head?.map Prod.snd, closed⟩
      path' ((off, path')::nodes) none := by
  have hwant' : want = wantOf q.inc ((off, path')::nodes) := by
    rw [hwant, hsync.want]
    rfl
  have hpos := wantOf_pos q.inc ((off, path')::nodes)
  rw [← hwant'] at hpos
  have hle2 := wantOf_le q.inc nodes
  -- a node that is not taken ends the region in front of it
  have hstop : want = 0 → w.want = 1 ∨ path' ∉ q.inc ∧ w.want = 0 := by
    intro h0
    rw [hwant] at h0
    split_ifs at h0 with h
    by_cases h1 : w.want = 1
    · exact .inl h1
    · exact .inr ⟨h, by omega⟩
  subst hw
  have hm := mark_marked b q (w.moveTo path' (w.want::w.stack) want) off next _ hoff hle hnext (by
    split_ifs
    · exact .inl rfl
    · exact .inr rfl) ⟨htidy.low, htidy.high, htidy.fits, htidy.start⟩ _ (fun hf => by
    rw [if_pos (hstop (by simpa using hf))]
    exact hoff) hcount
  obtain ⟨f1, f2, f3⟩ := mark_fields b q (w.moveTo path' (w.want::w.stack) want) (want ≠ 0) off
    (if w.want = 1 ∨ path' ∉ q.inc ∧ w.want = 0 then off else next)
  refine ⟨⟨f1, f2.trans ?_, f3.trans hwant', fun h0 => ?_⟩, hm.tidy, hm.before,
    fun x h1 h2 => ?_⟩
  · rw [stackOf, ← hsync.want, ← hsync.stack]
    rfl
  · rw [hm.start, hwant', h0]
    simp [Listed]
  · rw [hm.inside x h1 h2]
    have hne : off ≠ next := by
      simp only at h1 h2
      omega
    simp only [List.head?_cons, Option.map_some, List.drop_one, List.tail_cons] at hpos
    simp only [Selected, decide_eq_true_eq, hpos, Option.map_some, true_and, reduceCtorEq, false_imp_iff,
      and_true, false_and, or_false]
    constructor
    · rintro (h | ⟨-, h⟩)
      · exact h
      · by_contra hn
        have h0 : want = 0 := by
          by_contra h0
          exact hn (hpos.mp h0)
        rw [if_pos (hstop h0)] at h
        exact hne h
    · exact fun h => .inl h

include hoff hle hnext hsync htidy in
theorem passed_end (hfit : offDtStruct b+next < 4294967296) (outer : ℕ) (stack : List ℕ)
    (hstack : w.stack = outer::stack)
    (hw : w' = mark b q (w.moveTo (parentPath w.path) stack outer) (w.want ≠ 0) off next)
    (hcount : w'.count ≤ q.maxRegions) :
    Passed b q w w' ⟨.endNode, off, next, nodes.head?, (nodes.drop 1).head?.map Prod.snd, closed⟩
      (parentPath path) (nodes.drop 1) (nodes.head?.map Prod.snd) := by
  have hst := hsync.stack
  cases nodes with
  | nil =>
    rw [hstack] at hst
    cases hst
  | cons v rest =>
    rw [hstack, stackOf, List.cons.injEq] at hst
    obtain ⟨rfl, rfl⟩ := hst
    have hpos := wantOf_pos q.inc (v::rest)
    have htwo := wantOf_two q.inc rest
    subst hw
    have hm := mark_marked b q (w.moveTo (parentPath w.path) (stackOf q.inc rest)
      (wantOf q.inc rest)) off next next hoff hle hnext (.inr rfl)
      ⟨htidy.low, htidy.high, htidy.fits, htidy.start⟩ _ (fun _ => hfit) hcount
    obtain ⟨f1, f2, f3⟩ := mark_fields b q (w.moveTo (parentPath w.path) (stackOf q.inc rest)
      (wantOf q.inc rest)) (w.want ≠ 0) off next
    simp only [List.head?_cons, Option.map_some, List.drop_one, List.tail_cons] at hpos ⊢
    refine ⟨⟨?_, f2, f3, fun h0 => ?_⟩, hm.tidy, hm.before, fun x h1 h2 => ?_⟩
    · rw [f1, ← hsync.path]
      rfl
    · rw [hm.start, decide_eq_true_eq, hsync.want, hpos, ← htwo, h0]
      simp
    · rw [hm.inside x h1 h2]
      simp only [Selected, decide_eq_true_eq, Option.map_some, reduceCtorEq, false_imp_iff, and_true,
        or_true, true_and]
      rw [hsync.want]
      by_cases h0 : wantOf q.inc (v::rest) = 0
      · have hn : ¬(_ ∨ _) := fun h => hpos.mpr h h0
        rw [not_or] at hn
        rw [show (w.moveTo (parentPath w.path) (stackOf q.inc rest) (wantOf q.inc rest)).start =
          w.start from rfl, hsync.start h0]
        simp [h0, hn.1, hn.2]
      · constructor
        · intro _
          rcases hpos.mp h0 with h | h
          · exact .inl h
          · exact .inr (.inl h)
        · exact fun _ => .inl h0

end Visit

/-- One round of the loop passes the first item. -/
theorem visit_passed (b : Blob) (hb : Rooted b) (q : Search) (w w' : Walk) (path : Name)
    (nodes : List (ℕ × Name)) (closed : Option Name) (fuel off : ℕ) (ho : off < 4294967296)
    (ho4 : off % 4 = 0) (hsync : Sync q w path nodes closed) (htidy : Tidy b w off)
    (ht : (nextTag b off).tag ≠ .done) (h : visit b q w off = some (.ok w')) :
    ∃ i path' nodes' closed', items b (fuel+1) off path nodes closed =
        i::items b fuel (nextTag b off).next path' nodes' closed' ∧
      i.offset = off ∧ i.next = (nextTag b off).next ∧
      (w'.count ≤ q.maxRegions → Passed b q w w' i path' nodes' closed') := by
  have htot : totalsize b < 4294967296 := fdt32_lt b 4
  obtain ⟨-, -, -, -, hin, -⟩ := nextTag_cases b off ho ht
  obtain ⟨hle, hnext, -, -⟩ := nextTag_next b hb off ho ho4 ht
  have hoff : offDtStruct b+off < 4294967296 := by omega
  have hnext' : (nextTag b off).next < 4294967296 := by omega
  unfold visit at h
  simp only at h
  cases htag : (nextTag b off).tag with
  | done => exact absurd htag ht
  | prop =>
    rw [htag] at h
    simp only at h
    split_ifs at h with h1
    refine ⟨_, _, _, _, by simp only [items, htag]; rfl, rfl, rfl, fun hcount => ?_⟩
    exact passed_content b q w w' path nodes closed off _ hoff hle hnext' hsync htidy .prop
      (.inl rfl) (q.excProp.any (strEq b (fdtString b (propNameoff b off)))) (by simp)
      (by cases h; rfl) hcount
  | nop =>
    rw [htag] at h
    refine ⟨_, _, _, _, by simp only [items, htag]; rfl, rfl, rfl, fun hcount => ?_⟩
    exact passed_content b q w w' path nodes closed off _ hoff hle hnext' hsync htidy .nop
      (.inr rfl) false (by simp) (by cases h; simp) hcount
  | beginNode =>
    rw [htag] at h
    by_cases h1 : w.stack.length = fdtMaxDepth
    · rw [if_pos h1] at h
      cases h
    rw [if_neg h1] at h
    cases hn : getName b off with
    | none =>
      rw [hn] at h
      cases h
    | some p =>
      have hp : p = w32 (offDtStruct b+off+4) := by
        unfold getName at hn
        split_ifs at hn
        cases hn
        rfl
      rw [hn] at h
      simp only at h
      by_cases h2 : q.pathLen ≤ w.path.length+2+(cstrAt b p).length
      · rw [if_pos h2] at h
        cases h
      rw [if_neg h2, hp] at h
      cases h
      refine ⟨_, _, _, _, by simp only [items, htag]; rfl, rfl, rfl, fun hcount => ?_⟩
      exact passed_begin b q w _ path nodes closed off _ hoff hle hnext' hsync htidy _ _ (by
        rw [← hsync.path]) (by rw [← hsync.path]) hcount
  | endNode =>
    rw [htag] at h
    have hfit := nextTag_end b hb off ho ho4 htag
    cases hst : w.stack with
    | nil =>
      rw [hst] at h
      cases h
    | cons outer stack =>
      rw [hst] at h
      refine ⟨_, _, _, _, by simp only [items, htag]; rfl, rfl, rfl, fun hcount => ?_⟩
      exact passed_end b q w w' path nodes closed off _ hoff hle hnext' hsync htidy hfit outer stack
        hst (by cases h; rfl) hcount

/-! ## The whole walk -/

/-- An offset where a tag may be. -/
structure Spot (b : Blob) (o : ℕ) : Prop where
  le : o ≤ 4294967284
  aligned : o % 4 = 0
  fits : offDtStruct b+o < 4294967296+3

theorem Spot.next (b : Blob) (hb : Rooted b) (o : ℕ) (ho : Spot b o)
    (ht : (nextTag b o).tag ≠ .done) : Spot b (nextTag b o).next := by
  have hle := ho.le
  obtain ⟨-, h1, h2, h3⟩ := nextTag_next b hb o (by omega) ho.aligned ht
  exact ⟨h1, h2, h3⟩

/-- A round stays in its node, enters a subnode or goes back to the node around. -/
def Moved (q : Search) (w : Walk) (path : Name) (stack : List ℕ) : Prop :=
  path = w.path ∧ stack = w.stack ∨
    (∃ name : Name, path = childPath w.path name ∧ stack = w.want::w.stack ∧
      w.stack.length ≠ fdtMaxDepth ∧ w.path.length+2+name.length < q.pathLen) ∨
    path = parentPath w.path ∧ ∃ outer, w.stack = outer::stack

/-- Every round moves in the tree and then marks. -/
theorem visit_mark (b : Blob) (q : Search) (w w' : Walk) (off : ℕ)
    (h : visit b q w off = some (.ok w')) : ∃ path stack want taken stopAt,
      w' = mark b q (w.moveTo path stack want) taken off stopAt ∧
      (stopAt = off ∨ stopAt = (nextTag b off).next) ∧
      (taken = false → stopAt = off ∨ (nextTag b off).tag = .endNode) ∧ Moved q w path stack := by
  unfold visit at h
  simp only at h
  cases htag : (nextTag b off).tag with
  | prop =>
    rw [htag] at h
    simp only at h
    split_ifs at h with h1
    cases h
    exact ⟨w.path, w.stack, w.want, _, off, rfl, .inl rfl, fun _ => .inl rfl, .inl ⟨rfl, rfl⟩⟩
  | nop =>
    rw [htag] at h
    cases h
    exact ⟨w.path, w.stack, w.want, _, off, rfl, .inl rfl, fun _ => .inl rfl, .inl ⟨rfl, rfl⟩⟩
  | done =>
    rw [htag] at h
    cases h
    exact ⟨w.path, w.stack, w.want, true, _, rfl, .inr rfl, by simp, .inl ⟨rfl, rfl⟩⟩
  | beginNode =>
    rw [htag] at h
    by_cases h1 : w.stack.length = fdtMaxDepth
    · rw [if_pos h1] at h
      cases h
    rw [if_neg h1] at h
    cases hn : getName b off with
    | none =>
      rw [hn] at h
      cases h
    | some p =>
      rw [hn] at h
      simp only at h
      by_cases h2 : q.pathLen ≤ w.path.length+2+(cstrAt b p).length
      · rw [if_pos h2] at h
        cases h
      rw [if_neg h2] at h
      cases h
      refine ⟨_, _, _, _, _, rfl, ?_, ?_, .inr (.inl ⟨_, rfl, rfl, h1, by omega⟩)⟩
      · split_ifs
        · exact .inl rfl
        · exact .inr rfl
      · intro hf
        rw [if_pos]
        · exact .inl rfl
        · have h0 := of_decide_eq_false hf
          rw [not_not] at h0
          split_ifs at h0 with hin
          by_cases hw : w.want = 1
          · exact .inl hw
          · exact .inr ⟨hin, by omega⟩
  | endNode =>
    rw [htag] at h
    cases hst : w.stack with
    | nil =>
      rw [hst] at h
      cases h
    | cons outer stack =>
      rw [hst] at h
      cases h
      exact ⟨_, _, _, _, _, rfl, .inr rfl, fun _ => .inr rfl, .inr (.inr ⟨rfl, _, hst⟩)⟩

theorem visit_count (b : Blob) (q : Search) (w w' : Walk) (off : ℕ)
    (h : visit b q w off = some (.ok w')) (hcount : w'.count ≤ q.maxRegions) :
    w.count ≤ q.maxRegions := by
  obtain ⟨path, stack, want, taken, stopAt, rfl, -⟩ := visit_mark b q w w' off h
  have hw := mark_count b q _ _ _ _ hcount
  exact hw

theorem findLoop_step (b : Blob) (q : Search) (fuel off : ℕ) (w : Walk) (r : Walk × ℕ)
    (h : findLoop b q (fuel+1) off w = some (.ok r)) : ∃ w', visit b q w off = some (.ok w') ∧
      ((nextTag b off).tag = .done ∧ r = (w', (nextTag b off).next) ∨
        (nextTag b off).tag ≠ .done ∧ findLoop b q fuel (nextTag b off).next w' = some (.ok r)) := by
  rw [findLoop] at h
  cases hv : visit b q w off with
  | none =>
    rw [hv] at h
    cases h
  | some e =>
    rw [hv] at h
    cases e with
    | error e => cases h
    | ok w' =>
      simp only at h
      split_ifs at h with ht
      · cases h
        exact ⟨w', rfl, .inl ⟨ht, rfl⟩⟩
      · exact ⟨w', rfl, .inr ⟨ht, h⟩⟩

theorem findLoop_count (b : Blob) (q : Search) (fuel off : ℕ) (w : Walk) (r : Walk × ℕ)
    (h : findLoop b q fuel off w = some (.ok r)) (hcount : r.1.count ≤ q.maxRegions) :
    w.count ≤ q.maxRegions := by
  induction fuel generalizing off w with
  | zero => cases h
  | succ fuel ih =>
    obtain ⟨w', hv, ⟨-, hr⟩ | ⟨-, hl⟩⟩ := findLoop_step b q fuel off w r h
    · subst hr
      exact visit_count b q w w' off hv hcount
    · exact visit_count b q w w' off hv (ih _ w' hl)

/-- The walk from `off` has come to the end tag with some items passed. -/
structure Ended (b : Blob) (q : Search) (w : Walk) (off : ℕ) (passed : List Item) (wl : Walk)
    (last : ℕ) : Prop where
  done : (nextTag b last).tag = .done
  spot : Spot b last
  le : off ≤ last
  tidy : Tidy b wl last
  before : ∀ x < off, (Cov b wl x ↔ Cov b w x)
  inside : ∀ i ∈ passed, ∀ x, i.offset ≤ x → x < i.next → (Cov b wl x ↔ Selected b q i)
  range : ∀ i ∈ passed, off ≤ i.offset ∧ i.next ≤ last
  all : ∀ o, Along b off o → (nextTag b o).tag ≠ .done → ∃ i ∈ passed, i.offset = o

theorem findLoop_ended (b : Blob) (hb : Rooted b) (q : Search) (fuel off : ℕ) (w w' : Walk) (nx : ℕ)
    (path : Name) (nodes : List (ℕ × Name)) (closed : Option Name) (hspot : Spot b off)
    (hsync : Sync q w path nodes closed) (htidy : Tidy b w off)
    (h : findLoop b q fuel off w = some (.ok (w', nx))) (hcount : w'.count ≤ q.maxRegions) :
    ∃ wl last, w' = mark b q wl true last nx ∧ nx = (nextTag b last).next ∧
      Ended b q w off (items b fuel off path nodes closed) wl last := by
  induction fuel generalizing off w path nodes closed with
  | zero => cases h
  | succ fuel ih =>
    have hle := hspot.le
    obtain ⟨w1, hv, ⟨ht, hr⟩ | ⟨ht, hl⟩⟩ := findLoop_step b q fuel off w _ h
    · cases hr
      refine ⟨w, off, ?_, rfl, ht, hspot, le_rfl, htidy, fun x _ => Iff.rfl, ?_, ?_, ?_⟩
      · simp only [visit, ht, Option.some_inj, Except.ok.injEq] at hv
        exact hv.symm
      · simp [items, ht]
      · simp [items, ht]
      · intro o ho hto
        cases Relation.ReflTransGen.cases_head ho with
        | inl heq => exact absurd (heq ▸ ht) hto
        | inr hstep =>
          obtain ⟨_, ⟨hne, -⟩, -⟩ := hstep
          exact absurd ht hne
    · obtain ⟨i, path', nodes', closed', hitems, hi, hin, hp⟩ := visit_passed b hb q w w1 path nodes
        closed fuel off (by omega) hspot.aligned hsync htidy ht hv
      have hpass := hp (findLoop_count b q fuel _ w1 _ hl hcount)
      have htidy1 : Tidy b w1 (nextTag b off).next := hin ▸ hpass.tidy
      obtain ⟨wl, last, hw', hnx, he⟩ := ih _ w1 path' nodes' closed' (hspot.next b hb off ht)
        hpass.sync htidy1 hl
      have hge := (nextTag_next b hb off (by omega) hspot.aligned ht).1
      have hlast := he.le
      refine ⟨wl, last, hw', hnx, he.done, he.spot, by omega, he.tidy, ?_, ?_, ?_, ?_⟩
      · intro x hx
        rw [he.before x (by omega)]
        exact hpass.before x (by omega)
      · rw [hitems]
        intro j hj x h1 h2
        rcases List.mem_cons.mp hj with rfl | hj
        · rw [he.before x (by omega)]
          exact hpass.inside x h1 h2
        · exact he.inside j hj x h1 h2
      · rw [hitems]
        intro j hj
        rcases List.mem_cons.mp hj with rfl | hj
        · omega
        · have := he.range j hj
          omega
      · rw [hitems]
        intro o ho hto
        cases Relation.ReflTransGen.cases_head ho with
        | inl heq => exact ⟨i, List.mem_cons_self, by omega⟩
        | inr hstep =>
          obtain ⟨c, ⟨-, hc⟩, hrest⟩ := hstep
          subst hc
          obtain ⟨j, hj, hjo⟩ := he.all o hrest hto
          exact ⟨j, List.mem_cons_of_mem _ hj, hjo⟩

/-- The bytes that are read for a region, whose end may be behind that of the memory. -/
def Region.Has (r : Region) (a : ℕ) : Prop := ∃ j < r.size, w32 (r.offset+j) = w32 a

instance (r : Region) (a : ℕ) : Decidable (r.Has a) := inferInstanceAs (Decidable (∃ _ < _, _))

/-- A byte of the blob is read for one of the first regions. -/
def Reads (count : ℕ) (region : ℕ → Region) (a : ℕ) : Prop := ∃ k < count, (region k).Has a

theorem reads_update (count : ℕ) (region : ℕ → Region) (r : Region) (a : ℕ) :
    Reads (count+1) (Function.update region count r) a ↔ Reads count region a ∨ r.Has a :=
  exists_update count region r fun r => r.Has a

/-- A region that does not come round to the block is read from its start to its end. -/
theorem has_iff (b : Blob) (r : Region) (hlow : offDtStruct b ≤ r.offset)
    (hhigh : r.offset+r.size ≤ offDtStruct b+4294967296) (x : ℕ) (hx : x < 4294967296) :
    r.Has (offDtStruct b+x) ↔ r.offset ≤ offDtStruct b+x ∧ offDtStruct b+x < r.offset+r.size := by
  unfold Region.Has w32
  constructor
  · rintro ⟨j, hj, heq⟩
    omega
  · intro h
    exact ⟨offDtStruct b+x-r.offset, by omega, by congr 1; omega⟩

theorem reads_stored (b : Blob) (w : Walk) (off x : ℕ) (htidy : Tidy b w off) (hx : x < 4294967296) :
    Reads w.count w.region (offDtStruct b+x) ↔ Within w.count w.region (offDtStruct b+x) := by
  refine exists_congr fun k => and_congr_right fun hk => ?_
  have hfits := htidy.fits k hk
  exact has_iff b _ (htidy.low k hk) (by omega) x hx

/-- The last region, if it starts inside the block. -/
theorem closeWalk_open (b : Blob) (q : Search) (w : Walk) (off nx s x : ℕ) (htidy : Tidy b w off)
    (hs : w.start = some s) (hsn : s ≤ nx) (hnx : nx < 4294967296) (hx : x < nx)
    (hcount : w.count < q.maxRegions) :
    Reads (closeWalk b q w nx).1 (closeWalk b q w nx).2 (offDtStruct b+x) ↔ Cov b w x := by
  have hsb := (htidy.start s hs).2
  have hsize : minus nx s = nx-s := by
    unfold minus w32
    omega
  simp only [closeWalk, hs, Option.getD_some, if_pos hcount, w32_of_lt _ hsb, hsize, reads_update]
  refine or_congr (reads_stored b w off x htidy (by omega)) ?_
  rw [has_iff b ⟨offDtStruct b+s, nx-s⟩ (by simp) (by simp only; omega) x (by omega)]
  simp only [hs, Option.some.injEq, exists_eq_left']
  omega

/-- Behind the end tag the regions are complete. -/
theorem closeWalk_covers (b : Blob) (q : Search) (wl : Walk) (last : ℕ)
    (hdone : (nextTag b last).tag = .done) (hspot : Spot b last) (htidy : Tidy b wl last)
    (hcount : (mark b q wl true last (nextTag b last).next).count < q.maxRegions) (x : ℕ)
    (hx : x < last) :
    Reads (closeWalk b q (mark b q wl true last (nextTag b last).next) (nextTag b last).next).1
      (closeWalk b q (mark b q wl true last (nextTag b last).next) (nextTag b last).next).2
      (offDtStruct b+x) ↔ Cov b wl x := by
  obtain ⟨hle, hlt, htrunc⟩ := nextTag_done b last hspot.le hspot.aligned hdone
  have hbase : offDtStruct b < 4294967296 := fdt32_lt b 8
  have hlast := hspot.le
  have hfits := hspot.fits
  cases hs : wl.start with
  | some s =>
    have hsame : mark b q wl true last (nextTag b last).next = wl := by simp only [mark, hs]
    obtain ⟨h1, -⟩ := htidy.start s hs
    rw [hsame] at hcount ⊢
    exact closeWalk_open b q wl last _ s x htidy hs (by omega) hlt (by omega) hcount
  | none =>
    by_cases hoff : offDtStruct b+last < 4294967296
    · have hm := mark_open b q wl last (nextTag b last).next (nextTag b last).next hoff hle htidy hs
      obtain ⟨s, hs'⟩ := Option.ne_none_iff_exists'.mp (hm.start.mpr rfl)
      obtain ⟨h1, -⟩ := hm.tidy.start s hs'
      rw [closeWalk_open b q _ _ _ s x hm.tidy hs' h1 hlt (by omega) hcount]
      exact hm.before x hx
    · -- the block ends with the address space: the last region is in front of the block
      have hmark : mark b q wl true last (nextTag b last).next = { wl with start := some last } := by
        unfold mark
        simp only [hs]
        rw [if_neg]
        rintro ⟨h0, -, hend⟩
        have hk : wl.count-1 < wl.count := by omega
        have hlow := htidy.low _ hk
        have hfit := htidy.fits _ hk
        rw [w32_of_lt _ hfit] at hend
        unfold minus w32 at hend
        omega
      rw [hmark] at hcount ⊢
      have hw : w32 (offDtStruct b+last) = offDtStruct b+last-4294967296 := by
        unfold w32
        omega
      have hsize : minus (nextTag b last).next last = 4294967288-last := by
        rw [htrunc (by omega)]
        unfold minus w32 errTruncated err
        omega
      simp only [closeWalk, Option.getD_some, if_pos hcount, hw, hsize, reads_update]
      rw [Cov, hs]
      refine or_congr (reads_stored b wl last x htidy (by omega)) ?_
      simp only [reduceCtorEq, false_and, exists_false, iff_false]
      rintro ⟨j, hj, heq⟩
      unfold w32 at heq
      simp only at hj heq
      omega

/-- A byte of a tag is hashed exactly if the tag is selected. -/
theorem findRegions_covers (b : Blob) (hb : Rooted b) (q : Search) (count : ℕ) (region : ℕ → Region)
    (h : findRegions b q = some (.ok (count, region))) (hcount : count ≤ q.maxRegions) :
    ∀ i ∈ allItems b, ∀ x, i.offset ≤ x → x < i.next →
      (Reads count region (offDtStruct b+x) ↔ Selected b q i) := by
  unfold findRegions at h
  cases hl : findLoop b q walkFuel 0 startWalk with
  | none =>
    rw [hl] at h
    cases h
  | some r =>
    rw [hl] at h
    cases r with
    | error e => cases h
    | ok r =>
      obtain ⟨w', nx⟩ := r
      simp only at h
      by_cases hsize : nx ≠ sizeDtStruct b
      · rw [if_pos hsize] at h
        cases h
      rw [if_neg hsize, Option.some.injEq, Except.ok.injEq] at h
      have hc : (closeWalk b q w' nx).1 = w'.count+1 := rfl
      have hlt : w'.count < q.maxRegions := by
        have := congrArg Prod.fst h
        omega
      obtain ⟨wl, last, hw', hnx, he⟩ := findLoop_ended b hb q walkFuel 0 startWalk w' nx [] [] none
        ⟨by omega, by omega, by have := fdt32_lt b 8; unfold offDtStruct; omega⟩
        ⟨rfl, rfl, rfl, fun _ => by simp [startWalk, Listed]⟩
        ⟨by simp [startWalk], by simp [startWalk], by simp [startWalk], by simp [startWalk]⟩ hl hlt.le
      subst hnx
      rw [hw'] at h hlt
      intro i hi x h1 h2
      have hrange := he.range i hi
      have hcov := closeWalk_covers b q wl last he.done he.spot he.tidy hlt x (by omega)
      rw [h] at hcov
      rw [hcov]
      exact he.inside i hi x h1 h2

end UBoot.Fdt
