import UBoot.Defrag

/-!
# The hole list under `__NetDefragment`

The descriptors in the payload represent a list of holes, each with its index
and the byte behind it. The three ways of changing the list act on it as their
names say, except that the first record has the index 0 that also means none:
when the hole in front is number 0, removing or moving the second one drops it.
-/

set_option autoImplicit false

namespace UBoot.Defrag
open UBoot.LinkedRecords

/-- Indices grow along the list, so that only the first can be 0. -/
structure Increasing (hs : List (ℕ × ℕ)) : Prop where
  lt : (indices hs).Pairwise (· < ·)
  bound : ∀ j ∈ indices hs, j < 65536

theorem indices_append (xs ys : List (ℕ × ℕ)) : indices (xs ++ ys) = indices xs ++ indices ys := by
  simp [indices]

theorem indices_cons (x : ℕ × ℕ) (xs : List (ℕ × ℕ)) : indices (x::xs) = x.1::indices xs := rfl

section Split

variable (pre post : List (ℕ × ℕ)) (i l : ℕ) (hinc : Increasing (pre ++ (i, l)::post))

include hinc in
theorem increasing_parts : (indices pre).Nodup ∧ (indices post).Nodup ∧ (∀ j ∈ indices pre, j < i) ∧
    (∀ j ∈ indices post, i < j) ∧ i < 65536 ∧ ∀ j ∈ indices post, j < 65536 := by
  have hlt := hinc.lt
  have hb := hinc.bound
  rw [indices_append, indices_cons, List.pairwise_append, List.pairwise_cons] at hlt
  rw [indices_append, indices_cons] at hb
  obtain ⟨h1, ⟨h2, h3⟩, h4⟩ := hlt
  refine ⟨h1.imp (fun h => h.ne), h3.imp (fun h => h.ne), fun j hj => h4 j hj i (by simp), h2,
    hb i (by simp), fun j hj => hb j (by simp [hj])⟩

include hinc in
theorem post_nil_iff : headIx post 0 = 0 ↔ post = [] := by
  constructor
  · intro h
    by_contra hne
    have hmem := headIx_mem post 0 hne
    have := (increasing_parts pre post i l hinc).2.2.2.1 _ hmem
    omega
  · rintro rfl
    rfl

theorem pre_ne_nil (h : lastIx pre 0 ≠ 0) : pre ≠ [] := by
  rintro rfl
  exact h rfl

theorem headIx_ne_nil (h : pre ≠ []) (n m : ℕ) : headIx pre n = headIx pre m := by
  cases pre with
  | nil => exact absurd rfl h
  | cons x xs => rfl

/-- What stays linked in front of a hole whose `prev_hole` is read as a number. -/
def kept : List (ℕ × ℕ) := if lastIx pre 0 = 0 then [] else pre

variable (b : Bytes) (hseg : Seg b 0 (pre ++ (i, l)::post) 0)

include hseg in
theorem seg_parts : Seg b 0 pre i ∧ limit b i = l ∧ prev b i = lastIx pre 0 ∧
    next b i = headIx post 0 ∧ Seg b i post 0 := by
  rw [seg_append] at hseg
  exact hseg

end Split

/-- The list that a changed state represents. -/
structure Linked (s : State) (hs : List (ℕ × ℕ)) : Prop where
  seg : Seg s.payload 0 hs 0
  first : s.firstHole = headIx hs 0

theorem removeHole_linked (s : State) (pre post : List (ℕ × ℕ)) (i l : ℕ)
    (hinc : Increasing (pre ++ (i, l)::post)) (h : Linked s (pre ++ (i, l)::post)) :
    ((removeHole s i).2.1 = true ↔ kept pre ++ post = []) ∧
    ((removeHole s i).2.1 = false → Linked (removeHole s i).1 (kept pre ++ post)) := by
  obtain ⟨hpre, hlim, hprev, hnext, hpost⟩ := seg_parts pre post i l s.payload h.seg
  obtain ⟨nd1, nd2, lt1, lt2, hi, bd⟩ := increasing_parts pre post i l hinc
  have hnil := post_nil_iff pre post i l hinc
  have hfirst := h.first
  unfold removeHole kept
  simp only [hprev, hnext]
  by_cases hp : lastIx pre 0 = 0
  · by_cases hn : headIx post 0 = 0
    · have hpost0 := hnil.mp hn
      simp [hp, hpost0, headIx]
    · have hne : post ≠ [] := fun he => hn (hnil.mpr he)
      simp only [hp, hn, and_false, if_false, if_true, List.nil_append, hne, Bool.false_eq_true,
        true_and, forall_const]
      exact ⟨seg_setPrev _ post i 0 0 (by omega) hne nd2 hpost, rfl⟩
  · have hne' : pre ≠ [] := pre_ne_nil pre hp
    have hmem1 := lastIx_mem pre 0 hne'
    by_cases hn : headIx post 0 = 0
    · have hpost0 := hnil.mp hn
      subst hpost0
      simp only [hp, hn, false_and, if_false, if_true, List.append_nil, hne', Bool.false_eq_true,
        true_and, forall_const]
      refine ⟨seg_setNext _ pre 0 i 0 (by omega) hne' nd1 hpre, ?_⟩
      rw [hfirst, headIx_append]
      exact headIx_ne_nil pre hne' _ _
    · have hne : post ≠ [] := fun he => hn (hnil.mpr he)
      have hmem2 := headIx_mem post 0 hne
      have hlt1 := lt1 _ hmem1
      have hlt2 := lt2 _ hmem2
      have hbd := bd _ hmem2
      simp only [hp, hn, false_and, if_false, List.append_eq_nil_iff, hne', Bool.false_eq_true,
        true_and, forall_const]
      refine ⟨?_, ?_⟩
      · rw [seg_append]
        constructor
        · refine seg_setNext _ pre 0 i _ hbd hne' nd1 ?_
          exact seg_congr _ _ pre 0 i (fun j hj => same_setPrev _ _ _ _ (by
            have := lt1 j hj
            omega)) hpre
        · refine seg_congr (setPrev s.payload (headIx post 0) (lastIx pre 0)) _ post _ 0
            (fun j hj => same_setNext _ _ _ _ (by
              have := lt2 j hj
              omega)) ?_
          exact seg_setPrev _ post i _ 0 (by omega) hne nd2 hpost
      · rw [hfirst, headIx_append, headIx_append]
        exact headIx_ne_nil pre hne' _ _

/-- The link back from the records behind a new one. -/
theorem seg_relink (b : Bytes) (post : List (ℕ × ℕ)) (i n : ℕ) (hn : n < 65536)
    (hpost : Seg b i post 0) (hd : (indices post).Nodup) (hpos : ∀ j ∈ indices post, 0 < j) :
    Seg (if headIx post 0 ≠ 0 then setPrev b (headIx post 0) n else b) n post 0 := by
  cases post with
  | nil => trivial
  | cons x xs =>
    have hx : headIx (x::xs) 0 ≠ 0 := by
      have := hpos x.1 (by simp [indices])
      simp only [headIx]
      omega
    rw [if_pos hx]
    exact seg_setPrev b (x::xs) i n 0 hn (by simp) hd hpost

theorem same_relink (b : Bytes) (post : List (ℕ × ℕ)) (n k : ℕ) (hk : k ≠ headIx post 0) :
    Same b (if headIx post 0 ≠ 0 then setPrev b (headIx post 0) n else b) k := by
  split_ifs
  · exact same_setPrev _ _ _ _ hk
  · exact fun _ _ _ => rfl

theorem moveHole_linked (s : State) (pre post : List (ℕ × ℕ)) (i l n : ℕ)
    (hinc : Increasing (pre ++ (i, l)::post)) (h : Linked s (pre ++ (i, l)::post))
    (hn : i < n) (hn' : n < 65536) (hpost : ∀ j ∈ indices post, n < j) :
    (moveHole s i n).2.1 = false ∧ Linked (moveHole s i n).1 (kept pre ++ (n, l)::post) := by
  obtain ⟨hpre, hlim, hprev, hnext, hpost'⟩ := seg_parts pre post i l s.payload h.seg
  obtain ⟨nd1, nd2, lt1, lt2, hi, bd⟩ := increasing_parts pre post i l hinc
  obtain ⟨c1, c2, c3⟩ := copyRecord_fields s.payload n i
  have hfirst := h.first
  -- the copy at `n` touches none of the records that stay
  have hpre1 : Seg (copyRecord s.payload n i) 0 pre i :=
    seg_congr _ _ pre 0 i (fun j hj => same_copyRecord _ _ _ _ (by have := lt1 j hj; omega)) hpre
  have hpost1 : Seg (copyRecord s.payload n i) i post 0 :=
    seg_congr _ _ post i 0 (fun j hj => same_copyRecord _ _ _ _ (by have := hpost j hj; omega)) hpost'
  have hhead : ∀ k ≤ n, k ≠ 0 → k ≠ headIx post 0 := by
    intro k hk hk0
    cases post with
    | nil => exact hk0
    | cons x xs =>
      have := hpost x.1 (by simp [indices])
      simp only [headIx]
      omega
  have hrelink := seg_relink (copyRecord s.payload n i) post i n hn' hpost1 nd2
    (fun j hj => by have := hpost j hj; omega)
  have hsame := same_fields _ _ n (same_relink (copyRecord s.payload n i) post n n
    (hhead n le_rfl (by omega)))
  unfold moveHole
  simp only [c2, hnext]
  generalize hb1 : (if headIx post 0 ≠ 0 then setPrev (copyRecord s.payload n i) (headIx post 0) n
    else copyRecord s.payload n i) = b1 at *
  rw [c1, c2, c3, hlim, hprev, hnext] at hsame
  rw [hsame.2.2]
  by_cases hp : lastIx pre 0 = 0
  · simp only [hp, ne_eq, not_true_eq_false, if_false, kept, if_true, List.nil_append, true_and]
    exact ⟨⟨hsame.1, hsame.2.2.trans hp, hsame.2.1, hrelink⟩, rfl⟩
  · have hne' : pre ≠ [] := pre_ne_nil pre hp
    have hmem1 := lastIx_mem pre 0 hne'
    have hlt1 := lt1 _ hmem1
    simp only [hp, ne_eq, not_false_eq_true, if_true, kept, if_false, true_and]
    refine ⟨?_, ?_⟩
    · rw [seg_append]
      have hpre2 : Seg b1 0 pre i := by
        refine seg_congr _ _ pre 0 i (fun j hj => ?_) hpre1
        by_cases hj0 : j = headIx post 0
        · cases post with
          | nil =>
            rw [← hb1]
            simp only [headIx, ne_eq, not_true_eq_false, if_false]
            exact fun _ _ _ => rfl
          | cons x xs =>
            have h1 := hpost x.1 (by simp [indices])
            have h2 := lt1 j hj
            simp only [headIx] at hj0
            omega
        · rw [← hb1]
          exact same_relink _ post n j hj0
      have hfields := same_fields _ _ n (same_setNext b1 n (lastIx pre 0) n (by omega))
      refine ⟨seg_setNext b1 pre 0 i n hn' hne' nd1 hpre2, hfields.1.trans hsame.1,
        hfields.2.2.trans hsame.2.2, hfields.2.1.trans hsame.2.1, ?_⟩
      exact seg_congr _ _ post n 0 (fun j hj => same_setNext _ _ _ _ (by
        have := hpost j hj
        omega)) hrelink
    · rw [hfirst, headIx_append, headIx_append]
      exact headIx_ne_nil pre hne' _ _

theorem splitHole_linked (s : State) (pre post : List (ℕ × ℕ)) (i l n start : ℕ)
    (hinc : Increasing (pre ++ (i, l)::post)) (h : Linked s (pre ++ (i, l)::post))
    (hn : i < n) (hn' : n < 65536) (hpost : ∀ j ∈ indices post, n < j) (hstart : start < 65536) :
    (splitHole s i n start).2.1 = false ∧
    Linked (splitHole s i n start).1 (pre ++ (i, start)::(n, l)::post) := by
  obtain ⟨hpre, hlim, hprev, hnext, hpost'⟩ := seg_parts pre post i l s.payload h.seg
  obtain ⟨nd1, nd2, lt1, lt2, hi, bd⟩ := increasing_parts pre post i l hinc
  obtain ⟨c1, c2, c3⟩ := copyRecord_fields s.payload n i
  obtain ⟨k1, k2, k3⟩ := same_fields _ _ i (same_copyRecord s.payload i n i (by omega))
  have hfirst := h.first
  let b := setPrev (setNext (setLimit (copyRecord s.payload n i) i start) i n) n i
  have hother : ∀ j, j ≠ i → j ≠ n → Same s.payload b j := by
    intro j hji hjn
    refine Same.trans _ _ _ _ (same_copyRecord s.payload j n i hjn) ?_
    refine Same.trans _ _ _ _ (same_setLimit _ j i start hji) ?_
    exact Same.trans _ _ _ _ (same_setNext _ j i n hji) (same_setPrev _ j n i hjn)
  -- the two halves of the hole
  have hi3 : limit b i = start ∧ next b i = n ∧ prev b i = lastIx pre 0 := by
    obtain ⟨e1, e2, e3⟩ := same_fields _ _ i
      (same_setPrev (setNext (setLimit (copyRecord s.payload n i) i start) i n) i n i (by omega))
    refine ⟨e1.trans ?_, e2.trans (next_setNext _ i n hn'), e3.trans ?_⟩
    · rw [limit_setNext, limit_setLimit _ i start hstart]
    · rw [prev_setNext, prev_setLimit, k3, hprev]
  have hn3 : limit b n = l ∧ next b n = headIx post 0 ∧ prev b n = i := by
    obtain ⟨e1, e2, -⟩ := same_fields _ _ n
      (same_setNext (setLimit (copyRecord s.payload n i) i start) n i n (by omega))
    obtain ⟨f1, f2, -⟩ := same_fields _ _ n
      (same_setLimit (copyRecord s.payload n i) n i start (by omega))
    refine ⟨?_, ?_, prev_setPrev _ n i hi⟩
    · change limit (setPrev _ n i) n = l
      rw [limit_setPrev, e1, f1, c1, hlim]
    · change next (setPrev _ n i) n = _
      rw [next_setPrev, e2, f2, c2, hnext]
  have hpre1 : Seg b 0 pre i := seg_congr _ _ pre 0 i (fun j hj => hother j (by
    have := lt1 j hj; omega) (by have := lt1 j hj; omega)) hpre
  have hpost1 : Seg b i post 0 := seg_congr _ _ post i 0 (fun j hj => hother j (by
    have := lt2 j hj; omega) (by have := hpost j hj; omega)) hpost'
  have hrelink := seg_relink b post i n hn' hpost1 nd2 (fun j hj => by have := hpost j hj; omega)
  have hkeep : ∀ k ≤ n, Same b (if headIx post 0 ≠ 0 then setPrev b (headIx post 0) n else b) k := by
    intro k hk
    cases post with
    | nil => exact fun _ _ _ => rfl
    | cons x xs =>
      have := hpost x.1 (by simp [indices])
      exact same_relink b (x::xs) n k (by simp only [headIx]; omega)
  have heq : splitHole s i n start = ({ s with
      payload := (if headIx post 0 ≠ 0 then setPrev b (headIx post 0) n else b) }, false,
      (splitHole s i n start).2.2) := by
    unfold splitHole
    simp only
    change (if next b n ≠ 0 then _ else _) = _
    rw [hn3.2.1]
    split_ifs <;> rfl
  rw [heq]
  refine ⟨rfl, ?_, ?_⟩
  · rw [seg_append]
    obtain ⟨e1, e2, e3⟩ := same_fields _ _ i (hkeep i (by omega))
    obtain ⟨f1, f2, f3⟩ := same_fields _ _ n (hkeep n le_rfl)
    refine ⟨seg_congr _ _ pre 0 i (fun j hj => hkeep j (by have := lt1 j hj; omega)) hpre1,
      e1.trans hi3.1, e3.trans hi3.2.2, e2.trans hi3.2.1, f1.trans hn3.1, f3.trans hn3.2.2,
      f2.trans hn3.2.1, hrelink⟩
  · rw [hfirst, headIx_append, headIx_append]
    rfl

/-! ## What the changes touch -/

/-- Only the records listed are written, and only the old ones are read. -/
structure Effect (s : State) (r : State × Bool × List Access) (old new : List ℕ) : Prop where
  frame : ∀ x, (∀ j ∈ old ++ new, x < 8*j ∨ 8*j+8 ≤ x) → r.1.payload x = s.payload x
  header : r.1.header = s.header
  totalLen : r.1.totalLen = s.totalLen
  accesses : ∀ a ∈ r.2.2, (∃ j ∈ old, a = .follow j) ∨ ∃ j ∈ old ++ new, a = .hole j
  written : ∀ j ∈ new, .hole j ∈ r.2.2

theorem put16_outside (b : Bytes) (i k v x : ℕ) (hk : k ≤ 6) (h : x < 8*i ∨ 8*i+8 ≤ x) :
    put16 b (8*i+k) v x = b x :=
  put16_other b (8*i+k) v x (by omega)

theorem linked_neighbours (pre post : List (ℕ × ℕ)) (i l : ℕ) :
    (lastIx pre 0 ≠ 0 → lastIx pre 0 ∈ indices (pre ++ (i, l)::post)) ∧
    (headIx post 0 ≠ 0 → headIx post 0 ∈ indices (pre ++ (i, l)::post)) := by
  rw [indices_append, indices_cons]
  constructor
  · intro h
    exact List.mem_append_left _ (lastIx_mem pre 0 (pre_ne_nil pre h))
  · intro h
    have hne : post ≠ [] := by
      rintro rfl
      exact h rfl
    exact List.mem_append_right _ (List.mem_cons_of_mem _ (headIx_mem post 0 hne))

theorem removeHole_effect (s : State) (pre post : List (ℕ × ℕ)) (i l : ℕ)
    (h : Linked s (pre ++ (i, l)::post)) :
    Effect s (removeHole s i) (indices (pre ++ (i, l)::post)) [] := by
  obtain ⟨-, -, hprev, hnext, -⟩ := seg_parts pre post i l s.payload h.seg
  obtain ⟨hl, hh⟩ := linked_neighbours pre post i l
  unfold removeHole
  simp only [hprev, hnext]
  split_ifs with h1 h2 h3
  · exact ⟨fun _ _ => rfl, rfl, rfl, by simp, by simp⟩
  · have hm := hh fun h0 => h1 ⟨h2, h0⟩
    refine ⟨fun x hx => put16_outside _ _ 4 _ x (by omega) (hx _ (by simpa using hm)), rfl, rfl, ?_, by simp⟩
    intro a ha
    simp only [List.mem_cons, List.not_mem_nil, or_false] at ha
    rcases ha with rfl | rfl
    · exact .inl ⟨_, hm, rfl⟩
    · exact .inr ⟨_, by simpa using hm, rfl⟩
  · have hm := hl h2
    refine ⟨fun x hx => put16_outside _ _ 2 _ x (by omega) (hx _ (by simpa using hm)), rfl, rfl, ?_, by simp⟩
    intro a ha
    simp only [List.mem_cons, List.not_mem_nil, or_false] at ha
    rcases ha with rfl | rfl
    · exact .inl ⟨_, hm, rfl⟩
    · exact .inr ⟨_, by simpa using hm, rfl⟩
  · have hm := hl h2
    have hm' := hh h3
    refine ⟨fun x hx => ?_, rfl, rfl, ?_, by simp⟩
    · refine (put16_outside _ _ 2 _ x (by omega) (hx _ (by simpa using hm))).trans ?_
      exact put16_outside _ _ 4 _ x (by omega) (hx _ (by simpa using hm'))
    · intro a ha
      simp only [List.mem_cons, List.not_mem_nil, or_false] at ha
      rcases ha with rfl | rfl | rfl | rfl
      · exact .inl ⟨_, hm', rfl⟩
      · exact .inr ⟨_, by simpa using hm', rfl⟩
      · exact .inl ⟨_, hm, rfl⟩
      · exact .inr ⟨_, by simpa using hm, rfl⟩

theorem copyRecord_outside (b : Bytes) (n i x : ℕ) (h : x < 8*n ∨ 8*n+8 ≤ x) :
    copyRecord b n i x = b x :=
  if_neg (by omega)

theorem moveHole_effect (s : State) (pre post : List (ℕ × ℕ)) (i l n : ℕ)
    (h : Linked s (pre ++ (i, l)::post)) (hpost : ∀ j ∈ indices post, n < j) (hn : 0 < n) :
    Effect s (moveHole s i n) (indices (pre ++ (i, l)::post)) [n] := by
  obtain ⟨-, -, hprev, hnext, -⟩ := seg_parts pre post i l s.payload h.seg
  obtain ⟨hl, hh⟩ := linked_neighbours pre post i l
  obtain ⟨-, c2, c3⟩ := copyRecord_fields s.payload n i
  have hhead : n ≠ headIx post 0 := by
    cases post with
    | nil => exact fun he => absurd he (by simp only [headIx]; omega)
    | cons x xs =>
      have := hpost x.1 (by simp [indices])
      simp only [headIx]
      omega
  have hsame := (same_fields _ _ n (same_relink (copyRecord s.payload n i) post n n hhead)).2.2
  rw [c3, hprev] at hsame
  have hframe : ∀ x, (∀ j ∈ indices (pre ++ (i, l)::post) ++ [n], x < 8*j ∨ 8*j+8 ≤ x) →
      (if headIx post 0 ≠ 0 then setPrev (copyRecord s.payload n i) (headIx post 0) n
        else copyRecord s.payload n i) x = s.payload x := by
    intro x hx
    have hcopy := copyRecord_outside s.payload n i x (hx n (by simp))
    split_ifs with h0
    · refine (put16_outside _ _ 4 _ x (by omega) (hx _ (by simp [hh h0]))).trans hcopy
    · exact hcopy
  have hacc : ∀ a ∈ (if headIx post 0 ≠ 0 then [Access.follow (headIx post 0), .hole (headIx post 0)]
      else []), (∃ j ∈ indices (pre ++ (i, l)::post), a = .follow j) ∨
      ∃ j ∈ indices (pre ++ (i, l)::post) ++ [n], a = .hole j := by
    intro a ha
    split_ifs at ha with h0
    · simp only [List.mem_cons, List.not_mem_nil, or_false] at ha
      rcases ha with rfl | rfl
      · exact .inl ⟨_, hh h0, rfl⟩
      · exact .inr ⟨_, by simp [hh h0], rfl⟩
    · cases ha
  unfold moveHole
  simp only [c2, hnext]
  rw [hsame]
  by_cases h0 : lastIx pre 0 ≠ 0
  · rw [if_pos h0]
    refine ⟨fun x hx => ?_, rfl, rfl, ?_, by simp⟩
    · exact (put16_outside _ _ 2 _ x (by omega) (hx _ (by simp [hl h0]))).trans (hframe x hx)
    · intro a ha
      simp only [List.cons_append, List.mem_cons, List.mem_append, List.not_mem_nil, or_false] at ha
      rcases ha with rfl | ha | rfl | rfl
      · exact .inr ⟨n, by simp, rfl⟩
      · exact hacc a ha
      · exact .inl ⟨_, hl h0, rfl⟩
      · exact .inr ⟨_, by simp [hl h0], rfl⟩
  · rw [if_neg h0]
    refine ⟨hframe, rfl, rfl, ?_, by simp⟩
    intro a ha
    simp only [List.mem_cons] at ha
    rcases ha with rfl | ha
    · exact .inr ⟨n, by simp, rfl⟩
    · exact hacc a ha

theorem splitHole_effect (s : State) (pre post : List (ℕ × ℕ)) (i l n start : ℕ)
    (h : Linked s (pre ++ (i, l)::post)) (hn : i < n) :
    Effect s (splitHole s i n start) (indices (pre ++ (i, l)::post)) [n] := by
  obtain ⟨-, -, -, hnext, -⟩ := seg_parts pre post i l s.payload h.seg
  obtain ⟨-, hh⟩ := linked_neighbours pre post i l
  obtain ⟨-, c2, -⟩ := copyRecord_fields s.payload n i
  have hi : i ∈ indices (pre ++ (i, l)::post) := by simp [indices]
  have hframe : ∀ x, (∀ j ∈ indices (pre ++ (i, l)::post) ++ [n], x < 8*j ∨ 8*j+8 ≤ x) →
      setPrev (setNext (setLimit (copyRecord s.payload n i) i start) i n) n i x = s.payload x := by
    intro x hx
    have hxi := hx i (by simp [hi])
    have hxn := hx n (by simp)
    refine (put16_outside _ _ 4 _ x (by omega) hxn).trans ?_
    refine (put16_outside _ _ 2 _ x (by omega) hxi).trans ?_
    exact (put16_outside _ _ 0 _ x (by omega) hxi).trans (copyRecord_outside _ _ _ x hxn)
  have hnext' : next (setPrev (setNext (setLimit (copyRecord s.payload n i) i start) i n) n i) n =
      headIx post 0 := by
    obtain ⟨-, e2, -⟩ := same_fields _ _ n
      (same_setNext (setLimit (copyRecord s.payload n i) i start) n i n (by omega))
    obtain ⟨-, f2, -⟩ := same_fields _ _ n
      (same_setLimit (copyRecord s.payload n i) n i start (by omega))
    rw [next_setPrev, e2, f2, c2, hnext]
  unfold splitHole
  simp only
  rw [hnext']
  split_ifs with h0
  · refine ⟨fun x hx => ?_, rfl, rfl, ?_, by simp⟩
    · exact (put16_outside _ _ 4 _ x (by omega) (hx _ (by simp [hh h0]))).trans (hframe x hx)
    · intro a ha
      simp only [List.mem_cons, List.not_mem_nil, or_false] at ha
      rcases ha with rfl | rfl | rfl | rfl | rfl | rfl
      · exact .inr ⟨n, by simp, rfl⟩
      · exact .inr ⟨i, by simp [hi], rfl⟩
      · exact .inr ⟨i, by simp [hi], rfl⟩
      · exact .inr ⟨n, by simp, rfl⟩
      · exact .inl ⟨_, hh h0, rfl⟩
      · exact .inr ⟨_, by simp [hh h0], rfl⟩
  · refine ⟨hframe, rfl, rfl, ?_, by simp⟩
    intro a ha
    simp only [List.mem_cons, List.not_mem_nil, or_false] at ha
    rcases ha with rfl | rfl | rfl | rfl
    · exact .inr ⟨n, by simp, rfl⟩
    · exact .inr ⟨i, by simp [hi], rfl⟩
    · exact .inr ⟨i, by simp [hi], rfl⟩
    · exact .inr ⟨n, by simp, rfl⟩

end UBoot.Defrag
