import Mathlib.Data.List.TakeWhile
import Mathlib.Tactic

/-!
# Trees of ranges with keys in their inner nodes

The leaves list ranges in order, an inner node lists its children with the key
from which each of them counts. A search takes the last child in front of a key.
Where it takes only children that begin below the key, it finds what the tree
holds exactly when no child that begins with the key holds it.
-/

set_option autoImplicit false

namespace UBoot.RangeTree

/-- The keys from `first` up to `past`. -/
structure Span (K V : Type) where
  first : K
  past : K
  val : V
  deriving DecidableEq, Repr

/-- A tree whose leaves lie in one depth; a child has its key and its address. -/
abbrev Node (K ι V : Type) : ℕ → Type
  | 0 => List (Span K V)
  | d+1 => List ((K × ι) × Node K ι V d)

variable {K ι V : Type}

def spans : (d : ℕ) → Node K ι V d → List (Span K V)
  | 0, es => es
  | d+1, is => is.flatMap fun c => spans d c.2

/-- The last entry in front of the first that fails a test. -/
def lastBefore {α : Type} (p : α → Bool) (l : List α) : Option α := (l.takeWhile p).getLast?

/-- The key of the next child, or the end of them all. -/
def upper {d : ℕ} (hi : K) (post : List ((K × ι) × Node K ι V d)) : K :=
  (post.head?.map (·.1.1)).getD hi

variable [LinearOrder K]

def Span.Has (s : Span K V) (k : K) : Prop := s.first ≤ k ∧ k < s.past

instance (s : Span K V) (k : K) : Decidable (s.Has k) := instDecidableAnd

/-- Ranges and keys are in order, and those of a child lie between its key and the next. -/
def Within : (d : ℕ) → K → K → Node K ι V d → Prop
  | 0, lo, hi, es => es.Pairwise (fun s t => s.past ≤ t.first) ∧
      ∀ s ∈ es, lo ≤ s.first ∧ s.first < s.past ∧ s.past ≤ hi
  | d+1, lo, hi, is => is.Pairwise (fun c c' => c.1.1 < c'.1.1) ∧
      ∀ pre (c : (K × ι) × Node K ι V d) post, is = pre ++ c :: post →
        lo ≤ c.1.1 ∧ c.1.1 < hi ∧ Within d c.1.1 (upper hi post) c.2

/-- The range that holds a key. -/
def covering (k : K) (d : ℕ) (t : Node K ι V d) : Option (Span K V) :=
  (spans d t).find? fun s => decide (s.Has k)

/-- The search by children that begin below the key. It fails where there is none, at an address
that cannot be followed, and in a leaf that begins behind the key. -/
def find (ok : ι → Bool) (k : K) : (d : ℕ) → Node K ι V d → Option (Option (Span K V))
  | 0, es => (lastBefore (fun s => decide (s.first ≤ k)) es).map fun s =>
      if k < s.past then some s else none
  | d+1, is => (lastBefore (fun c => decide (c.1.1 < k)) is).bind fun c =>
      if ok c.1.2 then find ok k d c.2 else none

/-- On the way of the search a child begins below the key, its address can be followed, no child
that begins with the key holds it, and the leaf begins in front of it. -/
def Clear (ok : ι → Bool) (k : K) : (d : ℕ) → Node K ι V d → Prop
  | 0, es => ∃ s ∈ es, s.first ≤ k
  | d+1, is => ∃ pre, ∃ c : (K × ι) × Node K ι V d, ∃ post, is = pre ++ c :: post ∧ c.1.1 < k ∧
      ok c.1.2 = true ∧ Clear ok k d c.2 ∧
      ∀ c' ∈ post, k ≤ c'.1.1 ∧ (c'.1.1 = k → ∀ s ∈ spans d c'.2, ¬s.Has k)

/-! ## The last entry -/

section Last

variable {α : Type} (p : α → Bool)

omit [LinearOrder K] in
/-- In a row where the entries that pass come first, the last of them is taken. -/
theorem lastBefore_split (pre post : List α) (a : α)
    (hmono : (pre ++ a :: post).Pairwise fun b c => p c = true → p b = true) (ha : p a = true)
    (hpost : ∀ b ∈ post, p b = false) : lastBefore p (pre ++ a :: post) = some a := by
  have hpre : ∀ b ∈ pre, p b = true := fun b hb =>
    (List.pairwise_append.1 hmono).2.2 b hb a List.mem_cons_self ha
  have hend : post.takeWhile p = [] := by
    cases post with
    | nil => rfl
    | cons b post => rw [List.takeWhile_cons_of_neg (by simp [hpost b List.mem_cons_self])]
  rw [lastBefore, List.takeWhile_append_of_pos hpre, List.takeWhile_cons_of_pos ha, hend]
  exact List.getLast?_concat ..

omit [LinearOrder K] in
theorem lastBefore_cases (l : List α)
    (hmono : l.Pairwise fun b c => p c = true → p b = true) :
    ((∀ a ∈ l, p a = false) ∧ lastBefore p l = none) ∨
      ∃ pre a post, l = pre ++ a :: post ∧ p a = true ∧ (∀ b ∈ post, p b = false) ∧
        lastBefore p l = some a := by
  induction l with
  | nil => exact .inl ⟨by simp, rfl⟩
  | cons a l ih =>
    obtain ⟨hhead, hrest⟩ := List.pairwise_cons.1 hmono
    rcases ih hrest with ⟨hall, -⟩ | ⟨pre, b, post, rfl, hb, hpost, -⟩
    · cases ha : p a with
      | false =>
        refine .inl ⟨List.forall_mem_cons.2 ⟨ha, hall⟩, ?_⟩
        rw [lastBefore, List.takeWhile_cons_of_neg (by simp [ha])]
        rfl
      | true => exact .inr ⟨[], a, l, rfl, ha, hall, lastBefore_split p [] l a hmono ha hall⟩
    · exact .inr ⟨a :: pre, b, post, rfl, hb, hpost,
        lastBefore_split p (a :: pre) post b hmono hb hpost⟩

end Last

/-! ## What a tree holds -/

theorem covering_sound {k : K} {d : ℕ} {t : Node K ι V d} {s : Span K V}
    (h : covering k d t = some s) : s ∈ spans d t ∧ s.Has k :=
  ⟨List.mem_of_find?_eq_some h,
    of_decide_eq_true (List.find?_some (p := fun s : Span K V => decide (s.Has k)) h)⟩

theorem spans_within {d : ℕ} {lo hi : K} {t : Node K ι V d} (h : Within d lo hi t)
    (s : Span K V) (hs : s ∈ spans d t) : lo ≤ s.first ∧ s.past ≤ hi := by
  induction d generalizing lo hi with
  | zero =>
    obtain ⟨hfirst, -, hpast⟩ := h.2 s hs
    exact ⟨hfirst, hpast⟩
  | succ d ih =>
    obtain ⟨c, hc, hsc⟩ := List.mem_flatMap.1 hs
    obtain ⟨pre, post, hsplit⟩ := List.append_of_mem hc
    obtain ⟨hlo, hhi, hwithin⟩ := h.2 pre c post hsplit
    obtain ⟨hfirst, hpast⟩ := ih hwithin hsc
    refine ⟨hlo.trans hfirst, hpast.trans ?_⟩
    cases post with
    | nil => exact le_rfl
    | cons c' post =>
      exact (h.2 (pre ++ [c]) c' post (by rw [hsplit]; simp)).2.1.le

theorem upper_le {d : ℕ} {hi : K} {post : List ((K × ι) × Node K ι V d)}
    (h : post.Pairwise fun c c' => c.1.1 < c'.1.1) : ∀ c' ∈ post, upper hi post ≤ c'.1.1 := by
  cases post with
  | nil => exact fun c' hc' => absurd hc' List.not_mem_nil
  | cons b post =>
    intro c' hc'
    rcases List.mem_cons.1 hc' with rfl | hc'
    · exact le_rfl
    · exact ((List.pairwise_cons.1 h).1 c' hc').le

/-- A key is held by the child that begins last in front of it. -/
theorem covering_child {d : ℕ} {lo hi k : K} {pre post : List ((K × ι) × Node K ι V d)}
    {c : (K × ι) × Node K ι V d}
    (h : Within (d+1) lo hi (pre ++ c :: post : List ((K × ι) × Node K ι V d)))
    (hc : c.1.1 ≤ k) (hpost : ∀ c' ∈ post, k < c'.1.1) :
    covering k (d+1) (pre ++ c :: post : List ((K × ι) × Node K ι V d)) = covering k d c.2 := by
  have hbefore : ∀ s ∈ List.flatMap (fun c => spans d c.2) pre, ¬decide (s.Has k) = true := by
    intro s hs hhas
    obtain ⟨c', hc', hsc⟩ := List.mem_flatMap.1 hs
    obtain ⟨pre', post', rfl⟩ := List.append_of_mem hc'
    have hwithin := (h.2 pre' c' (post' ++ c :: post) (by simp)).2.2
    have hpast := (spans_within hwithin s hsc).2
    have hpair := h.1
    rw [List.append_assoc, List.pairwise_append] at hpair
    have hnext : upper hi (post' ++ c :: post) ≤ c.1.1 :=
      upper_le (List.pairwise_cons.1 hpair.2.1).2 c (by simp)
    exact absurd (of_decide_eq_true hhas).2 (not_lt.2 (hpast.trans (hnext.trans hc)))
  have hbehind : ∀ s ∈ List.flatMap (fun c => spans d c.2) post, ¬decide (s.Has k) = true := by
    intro s hs hhas
    obtain ⟨c', hc', hsc⟩ := List.mem_flatMap.1 hs
    obtain ⟨pre', post', rfl⟩ := List.append_of_mem hc'
    have hwithin := (h.2 (pre ++ c :: pre') c' post' (by simp)).2.2
    have hfirst := (spans_within hwithin s hsc).1
    exact absurd (of_decide_eq_true hhas).1
      (not_le.2 ((hpost c' (by simp)).trans_le hfirst))
  rw [covering, spans, List.flatMap_append, List.flatMap_cons, List.find?_append,
    List.find?_eq_none.2 hbefore, List.find?_append, List.find?_eq_none.2 hbehind, Option.or_none]
  rfl

theorem covering_leaf {lo hi k : K} {pre post : List (Span K V)} {s : Span K V}
    (h : Within (ι := ι) 0 lo hi (pre ++ s :: post : List (Span K V)))
    (hs : s.first ≤ k) (hpost : ∀ t ∈ post, k < t.first) :
    covering (ι := ι) k 0 (pre ++ s :: post : List (Span K V)) =
      if k < s.past then some s else none := by
  have hpair := List.pairwise_append.1 h.1
  have hbefore : ∀ t ∈ pre, ¬decide (t.Has k) = true := fun t ht hhas =>
    absurd (of_decide_eq_true hhas).2
      (not_lt.2 ((hpair.2.2 t ht s List.mem_cons_self).trans hs))
  have hbehind : ∀ t ∈ post, ¬decide (t.Has k) = true := fun t ht hhas =>
    absurd (of_decide_eq_true hhas).1 (not_le.2 (hpost t ht))
  rw [covering, spans, List.find?_append, List.find?_eq_none.2 hbefore, Option.none_or]
  by_cases hpast : k < s.past
  · have hhas : decide (s.Has k) = true := decide_eq_true ⟨hs, hpast⟩
    simp only [List.find?_cons, hhas, if_pos hpast]
  · have hhas : decide (s.Has k) = false := decide_eq_false fun hhas => hpast hhas.2
    simp only [List.find?_cons, hhas, if_neg hpast]
    exact List.find?_eq_none.2 hbehind

/-- There is one range that holds a key. -/
theorem covering_unique {d : ℕ} {lo hi k : K} {t : Node K ι V d} (h : Within d lo hi t)
    {s : Span K V} (hs : s ∈ spans d t) (hk : s.Has k) : covering k d t = some s := by
  induction d generalizing lo hi with
  | zero =>
    obtain ⟨pre, post, rfl⟩ := List.append_of_mem hs
    have hpair := (List.pairwise_append.1 h.1).2.1
    have hbehind := (List.pairwise_cons.1 hpair).1
    rw [covering_leaf h hk.1 fun t ht => hk.2.trans_le (hbehind t ht), if_pos hk.2]
  | succ d ih =>
    obtain ⟨c, hc, hsc⟩ := List.mem_flatMap.1 hs
    obtain ⟨pre, post, rfl⟩ := List.append_of_mem hc
    obtain ⟨-, -, hwithin⟩ := h.2 pre c post rfl
    obtain ⟨hfirst, hpast⟩ := spans_within hwithin s hsc
    have hpair := (List.pairwise_cons.1 (List.pairwise_append.1 h.1).2.1).2
    rw [covering_child h (hfirst.trans hk.1) fun c' hc' =>
      hk.2.trans_le (hpast.trans (upper_le hpair c' hc'))]
    exact ih hwithin hsc

/-! ## The search -/

variable (ok : ι → Bool)

/-- What the search finds lies in the tree and holds the key. -/
theorem find_sound {k : K} {d : ℕ} {t : Node K ι V d} {s : Span K V}
    (h : find ok k d t = some (some s)) : s ∈ spans d t ∧ s.Has k := by
  have hmem : ∀ {α : Type} {p : α → Bool} {l : List α} {a : α}, lastBefore p l = some a →
      a ∈ l ∧ p a = true := fun ha =>
    have htake := List.mem_of_getLast? ha
    ⟨(List.takeWhile_prefix _).subset htake, List.mem_takeWhile_imp htake⟩
  induction d with
  | zero =>
    obtain ⟨s', hs', hfound⟩ := Option.map_eq_some_iff.1 h
    obtain ⟨hin, hfirst⟩ := hmem hs'
    split at hfound
    · next hpast =>
      obtain rfl := Option.some.inj hfound
      exact ⟨hin, of_decide_eq_true hfirst, hpast⟩
    · cases hfound
  | succ d ih =>
    obtain ⟨c, hc, hfound⟩ := Option.bind_eq_some_iff.1 h
    split at hfound
    · obtain ⟨hin, hhas⟩ := ih hfound
      exact ⟨List.mem_flatMap.2 ⟨c, (hmem hc).1, hin⟩, hhas⟩
    · cases hfound

theorem covering_eq_none {k : K} {d : ℕ} {t : Node K ι V d} :
    covering k d t = none ↔ ∀ s ∈ spans d t, ¬s.Has k := by
  simp only [covering, List.find?_eq_none, decide_eq_true_eq]

theorem find_leaf_iff {lo hi k : K} {es : List (Span K V)} (h : Within (ι := ι) 0 lo hi es) :
    find ok k 0 es = some (covering (ι := ι) k 0 es) ↔ Clear ok k 0 es := by
  have hmono : es.Pairwise fun s t => decide (t.first ≤ k) = true → decide (s.first ≤ k) = true := by
    refine h.1.imp_of_mem fun {s t} hs _ hst ht => decide_eq_true ?_
    exact ((h.2 s hs).2.1.le.trans hst).trans (of_decide_eq_true ht)
  rcases lastBefore_cases _ es hmono with ⟨hall, hnone⟩ | ⟨pre, s, post, rfl, hs, hpost, hlast⟩
  · rw [find, hnone]
    refine ⟨fun hfalse => (nomatch hfalse), ?_⟩
    rintro ⟨s, hs, hfirst⟩
    exact absurd hfirst (of_decide_eq_false (hall s hs))
  · have hfirst := of_decide_eq_true hs
    rw [find, hlast, covering_leaf h hfirst fun t ht => not_le.1 (of_decide_eq_false (hpost t ht))]
    exact ⟨fun _ => ⟨s, by simp, hfirst⟩, fun _ => rfl⟩

/-- The search finds what the tree holds exactly where its way is clear. -/
theorem find_iff {d : ℕ} {lo hi k : K} {t : Node K ι V d} (h : Within d lo hi t) :
    find ok k d t = some (covering k d t) ↔ Clear ok k d t := by
  induction d generalizing lo hi with
  | zero => exact find_leaf_iff ok h
  | succ d ih =>
    change List ((K × ι) × Node K ι V d) at t
    have hmono : t.Pairwise fun c c' => decide (c'.1.1 < k) = true → decide (c.1.1 < k) = true :=
      h.1.imp fun hlt hk => decide_eq_true (hlt.trans (of_decide_eq_true hk))
    rcases lastBefore_cases _ t hmono with ⟨hall, hnone⟩ | ⟨pre, c, post, rfl, hc, hpost, hlast⟩
    · rw [find, hnone]
      refine ⟨fun hfalse => (nomatch hfalse), ?_⟩
      rintro ⟨pre, c, post, rfl, hc, -⟩
      exact absurd hc (of_decide_eq_false (hall c (by simp)))
    have hlow := of_decide_eq_true hc
    have hfrom : ∀ c' ∈ post, k ≤ c'.1.1 := fun c' hc' =>
      not_lt.1 (of_decide_eq_false (hpost c' hc'))
    obtain ⟨-, -, hwithin⟩ := h.2 pre c post rfl
    -- the way of a clear search leads to the same child
    have hclear : Clear ok k (d+1) (pre ++ c :: post : List ((K × ι) × Node K ι V d)) ↔
        ok c.1.2 = true ∧ Clear ok k d c.2 ∧
          ∀ c' ∈ post, c'.1.1 = k → ∀ s ∈ spans d c'.2, ¬s.Has k := by
      constructor
      · rintro ⟨pre', b, post', hsplit, hb, hok, hrest, hbehind⟩
        have hsame : lastBefore (fun c => decide (c.1.1 < k)) (pre ++ c :: post) = some b := by
          have hsplit' : pre ++ c :: post = pre' ++ b :: post' := hsplit
          rw [hsplit'] at hmono ⊢
          exact lastBefore_split _ pre' post' b hmono (decide_eq_true hb)
            fun c' hc' => decide_eq_false (not_lt.2 (hbehind c' hc').1)
        obtain rfl := Option.some.inj (hlast.symm.trans hsame)
        refine ⟨hok, hrest, fun c' hc' hkey => ?_⟩
        have hmem : c' ∈ pre' ++ c :: post' := by
          have hsplit' : pre ++ c :: post = pre' ++ c :: post' := hsplit
          rw [← hsplit']
          simp [hc']
        rcases List.mem_append.1 hmem with hin | hin
        · have hpair := List.pairwise_append.1 (hsplit ▸ h.1 :
            (pre' ++ c :: post').Pairwise fun c c' => c.1.1 < c'.1.1)
          exact absurd ((hpair.2.2 c' hin c List.mem_cons_self).trans hlow) (hkey ▸ lt_irrefl _)
        · rcases List.mem_cons.1 hin with rfl | hin
          · exact absurd hlow (hkey ▸ lt_irrefl _)
          · exact (hbehind c' hin).2 hkey
      · rintro ⟨hok, hrest, hbehind⟩
        exact ⟨pre, c, post, rfl, hlow, hok, hrest, fun c' hc' => ⟨hfrom c' hc', hbehind c' hc'⟩⟩
    have hfind : find ok k (d+1) (pre ++ c :: post : List ((K × ι) × Node K ι V d)) =
        if ok c.1.2 then find ok k d c.2 else none := by
      rw [find, hlast]
      rfl
    rw [hfind, hclear]
    by_cases hok : ok c.1.2 = true
    swap
    · rw [if_neg hok]
      exact ⟨fun hfalse => (nomatch hfalse), fun hall => absurd hall.1 hok⟩
    rw [if_pos hok]
    by_cases hkey : ∃ c' ∈ post, c'.1.1 = k
    · -- the next child begins with the key, and the one that is taken ends before it
      obtain ⟨c', hc', hk⟩ := hkey
      obtain ⟨mid, back, rfl⟩ := List.append_of_mem hc'
      have hpair := h.1
      have hmid : mid = [] := by
        cases mid with
        | nil => rfl
        | cons b mid =>
          have hlt : b.1.1 < c'.1.1 := by
            have hp := (List.pairwise_append.1 hpair).2.1
            exact (List.pairwise_cons.1 (List.pairwise_cons.1 hp).2).1 c' (by simp)
          exact absurd (hfrom b (by simp)) (not_le.2 (hk ▸ hlt))
      subst hmid
      have hback : ∀ b ∈ back, k < b.1.1 := by
        intro b hb
        have hp := (List.pairwise_append.1 hpair).2.1
        exact hk ▸ (List.pairwise_cons.1 (List.pairwise_cons.1 hp).2).1 b hb
      have hcover : covering k (d+1) (pre ++ c :: ([] ++ c' :: back) :
          List ((K × ι) × Node K ι V d)) = covering k d c'.2 := by
        have hsplit : pre ++ c :: ([] ++ c' :: back) = (pre ++ [c]) ++ c' :: back := by simp
        rw [hsplit] at h ⊢
        exact covering_child h hk.le hback
      have hends : covering k d c.2 = none := by
        refine covering_eq_none.2 fun s hs hhas => ?_
        have hpast : s.past ≤ c'.1.1 := (spans_within hwithin s hs).2
        exact absurd hhas.2 (not_lt.2 (hk ▸ hpast))
      have hih := ih hwithin
      rw [hends] at hih
      rw [hcover]
      constructor
      · intro hfound
        have hnone : covering k d c'.2 = none := by
          cases hs : covering k d c'.2 with
          | none => rfl
          | some s =>
            obtain ⟨hin, hhas⟩ := find_sound ok (hfound.trans (congrArg some hs))
            exact absurd hhas (covering_eq_none.1 hends s hin)
        refine ⟨hok, hih.1 (hnone ▸ hfound), fun b hb hbk => ?_⟩
        rcases List.mem_cons.1 (by simpa using hb) with rfl | hb
        · exact covering_eq_none.1 hnone
        · exact absurd hbk (hback b hb).ne'
      · rintro ⟨-, hrest, hbehind⟩
        rw [covering_eq_none.2 (hbehind c' (by simp) hk)]
        exact hih.2 hrest
    · -- every later child begins behind the key
      have hover : ∀ c' ∈ post, k < c'.1.1 := fun c' hc' =>
        lt_of_le_of_ne (hfrom c' hc') fun hk => hkey ⟨c', hc', hk.symm⟩
      rw [covering_child h hlow.le hover, ih hwithin]
      exact ⟨fun hrest => ⟨hok, hrest, fun c' hc' hk => absurd hk (hover c' hc').ne'⟩,
        fun hall => hall.2.1⟩

end UBoot.RangeTree
