import UBoot.DefragHoles

/-!
# One fragment

The holes of a packet in progress are ordered and apart, and each but the last
ends at a multiple of eight. The search finds the first hole that reaches the
fragment, and what the function then does is one change of the hole list and
the copy of the fragment; the copy leaves the descriptors alone if it does not
run into the next hole and a new descriptor starts where it ends.
-/

set_option autoImplicit false

namespace UBoot.Defrag
open UBoot.LinkedRecords

/-- A hole is not empty, its descriptor lies in the buffer, and it ends at a
multiple of eight or, if it is open, nowhere. -/
structure HoleOk (p : ℕ × ℕ) : Prop where
  nonempty : 8*p.1 < p.2
  inside : 8*p.1+8 ≤ ipMaxudp
  limit : p.2 = 65535 ∨ p.2 % 8 = 0 ∧ p.2 < 65536

structure Ordered (hs : List (ℕ × ℕ)) : Prop where
  ok : ∀ p ∈ hs, HoleOk p
  apart : hs.Pairwise fun p q => p.2 ≤ 8*q.1

theorem ordered_increasing (hs : List (ℕ × ℕ)) (h : Ordered hs) : Increasing hs := by
  constructor
  · rw [indices, List.pairwise_map]
    refine h.apart.imp_of_mem fun {p q} hp _ hpq => ?_
    have := (h.ok p hp).nonempty
    omega
  · intro j hj
    obtain ⟨p, hp, rfl⟩ := List.mem_map.mp hj
    have := (h.ok p hp).inside
    have hm : ipMaxudp = 16464 := rfl
    omega

/-- There are no more holes than descriptors fit in the buffer. -/
theorem ordered_length (hs : List (ℕ × ℕ)) (h : Ordered hs) : hs.length ≤ 2058 := by
  have hnd : (indices hs).Nodup := (ordered_increasing hs h).lt.imp fun h => h.ne
  have hsub : indices hs ⊆ List.range 2058 := by
    intro j hj
    obtain ⟨p, hp, rfl⟩ := List.mem_map.mp hj
    have := (h.ok p hp).inside
    have hm : ipMaxudp = 16464 := rfl
    rw [List.mem_range]
    omega
  have := (List.subperm_of_subset hnd hsub).length_le
  simpa [indices] using this

structure Rep (s : State) (hs : List (ℕ × ℕ)) : Prop where
  ordered : Ordered hs
  linked : Linked s hs
  ne : hs ≠ []

/-! ## The search -/

section Scan

variable (b : Bytes) (start fuel h : ℕ)

theorem scan_stop (hl : start ≤ limit b h) :
    scan b start (fuel+1) h = some (some h, [.follow h]) := by
  unfold scan
  rw [if_neg (by omega)]

theorem scan_end (hl : limit b h < start) (hn : next b h = 0) :
    scan b start (fuel+1) h = some (none, [.follow h]) := by
  unfold scan
  rw [if_pos hl, if_pos hn]

theorem scan_follow (hl : limit b h < start) (hn : next b h ≠ 0) : scan b start (fuel+1) h =
    (scan b start fuel (next b h)).map fun (r, a) => (r, .follow h::a) := by
  rw [scan, if_pos hl, if_neg hn]

end Scan

theorem split_at (hs : List (ℕ × ℕ)) (start : ℕ) : (∀ x ∈ hs, x.2 < start) ∨
    ∃ pre i l post, hs = pre ++ (i, l)::post ∧ (∀ x ∈ pre, x.2 < start) ∧ start ≤ l := by
  induction hs with
  | nil => exact .inl (by simp)
  | cons p hs ih =>
    by_cases hp : p.2 < start
    · rcases ih with ih | ⟨pre, i, l, post, rfl, h1, h2⟩
      · refine .inl fun x hx => ?_
        rcases List.mem_cons.mp hx with rfl | hx
        · exact hp
        · exact ih x hx
      · refine .inr ⟨p::pre, i, l, post, rfl, fun x hx => ?_, h2⟩
        rcases List.mem_cons.mp hx with rfl | hx
        · exact hp
        · exact h1 x hx
    · exact .inr ⟨[], p.1, p.2, hs, rfl, by simp, by omega⟩

theorem increasing_tail (p : ℕ × ℕ) (hs : List (ℕ × ℕ)) (h : Increasing (p::hs)) : Increasing hs ∧
    (hs ≠ [] → headIx hs 0 ≠ 0) := by
  have hlt := h.lt
  rw [indices_cons, List.pairwise_cons] at hlt
  refine ⟨⟨hlt.2, fun j hj => h.bound j (by simp [indices_cons, hj])⟩, fun hne h0 => ?_⟩
  have := hlt.1 _ (headIx_mem hs 0 hne)
  omega

theorem scan_found (b : Bytes) (start : ℕ) (pre : List (ℕ × ℕ)) (i l : ℕ) (post : List (ℕ × ℕ))
    (p : ℕ) (hseg : Seg b p (pre ++ (i, l)::post) 0) (hinc : Increasing (pre ++ (i, l)::post))
    (hpre : ∀ x ∈ pre, x.2 < start) (hl : start ≤ l) (fuel : ℕ) (hfuel : pre.length < fuel) :
    scan b start fuel (headIx (pre ++ (i, l)::post) 0) =
      some (some i, (indices (pre ++ [(i, l)])).map .follow) := by
  induction pre generalizing p fuel with
  | nil =>
    obtain ⟨n, rfl⟩ : ∃ n, fuel = n+1 := ⟨fuel-1, by simp at hfuel; omega⟩
    obtain ⟨hlim, -⟩ := hseg
    exact scan_stop b start n i (by omega)
  | cons x pre ih =>
    obtain ⟨n, rfl⟩ : ∃ n, fuel = n+1 := ⟨fuel-1, by simp at hfuel; omega⟩
    obtain ⟨hlim, -, hnext, hrest⟩ := hseg
    obtain ⟨hinc', hhead⟩ := increasing_tail x _ hinc
    have hne : headIx (pre ++ (i, l)::post) 0 ≠ 0 := hhead (by simp)
    have ih' := ih x.1 hrest hinc' (fun y hy => hpre y (by simp [hy])) n (by simpa using hfuel)
    have hx := hpre x (by simp)
    have hnext' : next b x.1 = headIx (pre ++ (i, l)::post) 0 := hnext
    change scan b start (n+1) x.1 = _
    rw [scan_follow b start n x.1 (by omega) (by rw [hnext']; exact hne), hnext', ih']
    rfl

theorem scan_beyond (b : Bytes) (start : ℕ) (hs : List (ℕ × ℕ)) (p : ℕ) (hseg : Seg b p hs 0)
    (hinc : Increasing hs) (hne : hs ≠ []) (hall : ∀ x ∈ hs, x.2 < start) (fuel : ℕ)
    (hfuel : hs.length ≤ fuel) :
    scan b start fuel (headIx hs 0) = some (none, (indices hs).map .follow) := by
  induction hs generalizing p fuel with
  | nil => exact absurd rfl hne
  | cons x hs ih =>
    obtain ⟨n, rfl⟩ : ∃ n, fuel = n+1 := ⟨fuel-1, by simp at hfuel; omega⟩
    obtain ⟨hlim, -, hnext, hrest⟩ := hseg
    obtain ⟨hinc', hhead⟩ := increasing_tail x _ hinc
    have hx := hall x (by simp)
    change scan b start (n+1) x.1 = _
    cases hs with
    | nil => exact scan_end b start n x.1 (by omega) hnext
    | cons y ys =>
      have ih' := ih x.1 hrest hinc' (by simp) (fun z hz => hall z (List.mem_cons_of_mem _ hz)) n
        (by simpa using hfuel)
      rw [scan_follow b start n x.1 (by omega) (by rw [hnext]; exact hhead (by simp)), hnext, ih']
      rfl

/-! ## The change of the list -/

theorem linked_setLimit (s : State) (pre post : List (ℕ × ℕ)) (i l v : ℕ) (hv : v < 65536)
    (hinc : Increasing (pre ++ (i, l)::post)) (h : Linked s (pre ++ (i, l)::post)) :
    Linked { s with payload := setLimit s.payload i v } (pre ++ (i, v)::post) := by
  obtain ⟨hpre, -, hprev, hnext, hpost⟩ := seg_parts pre post i l s.payload h.seg
  obtain ⟨-, -, lt1, lt2, -, -⟩ := increasing_parts pre post i l hinc
  constructor
  · rw [seg_append]
    refine ⟨seg_congr _ _ pre 0 i (fun j hj => same_setLimit _ j i v (lt1 j hj).ne) hpre, ?_⟩
    refine ⟨limit_setLimit _ i v hv, (prev_setLimit _ i v).trans hprev,
      (next_setLimit _ i v).trans hnext, ?_⟩
    exact seg_congr _ _ post i 0 (fun j hj => same_setLimit _ j i v (lt2 j hj).ne.symm) hpost
  · have hfirst := h.first
    rw [headIx_append] at hfirst ⊢
    exact hfirst

/-- The holes after a fragment of `len` bytes at `off8` in the hole `(i, l)`. -/
def updated (pre : List (ℕ × ℕ)) (i l : ℕ) (post : List (ℕ × ℕ)) (off8 len : ℕ) : List (ℕ × ℕ) :=
  if off8 ≤ i ∧ l ≤ 8*off8+len then kept pre ++ post
  else if l ≤ 8*off8+len then pre ++ (i, 8*off8)::post
  else if off8 ≤ i then kept pre ++ (off8+len/8, l)::post
  else pre ++ (i, 8*off8)::(off8+len/8, l)::post

/-- The descriptor written where the fragment ends. -/
def fresh (l off8 len : ℕ) : List ℕ := if l ≤ 8*off8+len then [] else [off8+len/8]

theorem updateHoles_nat (s : State) (h off8 len : ℕ) : updateHoles s h off8 len =
    if off8 ≤ h ∧ limit s.payload h ≤ 8*off8+len then removeHole s h
    else if limit s.payload h ≤ 8*off8+len then
      ({ s with payload := setLimit s.payload h (8*off8) }, false, [.hole h])
    else if off8 ≤ h then moveHole s h (off8+len/8) else splitHole s h (off8+len/8) (8*off8) := by
  have hn : ((off8 : ℤ)+(len : ℤ).tdiv 8).toNat = off8+len/8 := by
    rw [Int.tdiv_eq_ediv_of_nonneg (by omega)]
    omega
  unfold updateHoles
  simp only [hn]
  norm_cast

structure Change (s : State) (r : State × Bool × List Access) (old hs : List (ℕ × ℕ))
    (new : List ℕ) : Prop where
  done : r.2.1 = true ↔ hs = []
  linked : hs ≠ [] → Linked r.1 hs
  effect : Effect s r (indices old) new

theorem updateHoles_change (s : State) (pre post : List (ℕ × ℕ)) (i l off8 len : ℕ)
    (hinc : Increasing (pre ++ (i, l)::post)) (h : Linked s (pre ++ (i, l)::post))
    (hstart : 8*off8 < 65536) (hroom : 8*off8+len < l → i < off8+len/8 ∧ off8+len/8 < 65536 ∧
      ∀ j ∈ indices post, off8+len/8 < j) :
    Change s (updateHoles s i off8 len) (pre ++ (i, l)::post) (updated pre i l post off8 len)
      (fresh l off8 len) := by
  obtain ⟨-, hlim, -, -, -⟩ := seg_parts pre post i l s.payload h.seg
  rw [updateHoles_nat, updated, fresh, hlim]
  by_cases hl : l ≤ 8*off8+len
  · by_cases ho : off8 ≤ i
    · rw [if_pos ⟨ho, hl⟩, if_pos ⟨ho, hl⟩, if_pos hl]
      obtain ⟨h1, h2⟩ := removeHole_linked s pre post i l hinc h
      refine ⟨h1, fun hne => h2 ?_, removeHole_effect s pre post i l h⟩
      exact Bool.eq_false_iff.mpr fun ht => hne (h1.mp ht)
    · rw [if_neg (fun hc => ho hc.1), if_pos hl, if_neg (fun hc => ho hc.1), if_pos hl, if_pos hl]
      refine ⟨by simp, fun _ => linked_setLimit s pre post i l _ hstart hinc h, ?_⟩
      have hi : i ∈ indices (pre ++ (i, l)::post) := by simp [indices]
      refine ⟨fun x hx => put16_outside _ i 0 _ x (by omega) (hx i (by simpa using hi)), rfl, rfl, ?_,
        by simp⟩
      intro a ha
      exact .inr ⟨i, by simpa using hi, by simpa using ha⟩
  · obtain ⟨r1, r2, r3⟩ := hroom (by omega)
    have hc : ¬(off8 ≤ i ∧ l ≤ 8*off8+len) := fun hc => hl hc.2
    simp only [if_neg hc, if_neg hl]
    by_cases ho : off8 ≤ i
    · rw [if_pos ho, if_pos ho]
      obtain ⟨h1, h2⟩ := moveHole_linked s pre post i l _ hinc h r1 r2 r3
      exact ⟨by simp [h1], fun _ => h2, moveHole_effect s pre post i l _ h r3 (by omega)⟩
    · rw [if_neg ho, if_neg ho]
      obtain ⟨h1, h2⟩ := splitHole_linked s pre post i l _ (8*off8) hinc h r1 r2 r3 hstart
      exact ⟨by simp [h1], fun _ => h2, splitHole_effect s pre post i l _ _ h r1⟩

/-! ## The fragment in its hole -/

/-- The end of the hole, which the last fragment moves to its own. -/
def cut (l off8 len : ℕ) (more : Bool) : ℕ := if more then l else 8*off8+len

/-- The search has stopped at `(i, l)`, and the fragment overlaps with it. -/
structure Hit (pre : List (ℕ × ℕ)) (i l off8 len : ℕ) : Prop where
  before : ∀ x ∈ pre, x.2 < 8*off8
  reaches : 8*off8 ≤ l
  overlap : i < off8+(len+7)/8

/-- The fragment stays in front of the next hole, and what it leaves of its
own starts where it ends and has room for a descriptor. -/
structure Room (l : ℕ) (post : List (ℕ × ℕ)) (off8 len : ℕ) (more : Bool) : Prop where
  apart : ∀ j ∈ indices post, 8*off8+len ≤ 8*j
  rest : more = true → 8*off8+len < l → len % 8 = 0 ∧ 8*off8+len+8 ≤ ipMaxudp

section Hole

variable (pre post : List (ℕ × ℕ)) (i l off8 len : ℕ) (more : Bool)

theorem kept_sublist : (kept pre).Sublist pre := by
  unfold kept
  split_ifs
  · exact List.nil_sublist pre
  · exact List.Sublist.refl pre

variable (hord : Ordered (pre ++ (i, l)::post))

include hord in
theorem ordered_parts : (∀ p ∈ pre, HoleOk p) ∧ HoleOk (i, l) ∧ (∀ p ∈ post, HoleOk p) ∧
    pre.Pairwise (fun p q => p.2 ≤ 8*q.1) ∧ post.Pairwise (fun p q => p.2 ≤ 8*q.1) ∧
    (∀ p ∈ pre, p.2 ≤ 8*i) ∧ (∀ q ∈ post, l ≤ 8*q.1) ∧ ∀ p ∈ pre, ∀ q ∈ post, p.2 ≤ 8*q.1 := by
  have hap := hord.apart
  rw [List.pairwise_append, List.pairwise_cons] at hap
  obtain ⟨h1, ⟨h2, h3⟩, h4⟩ := hap
  refine ⟨fun p hp => hord.ok p (by simp [hp]), hord.ok _ (by simp),
    fun p hp => hord.ok p (by simp [hp]), h1, h3, fun p hp => h4 p hp (i, l) (by simp), h2,
    fun p hp q hq => h4 p hp q (by simp [hq])⟩

/-- New holes between what is in front and what is behind. -/
theorem ordered_between (pre' mid : List (ℕ × ℕ)) (hsub : pre'.Sublist pre)
    (hord : Ordered (pre ++ (i, l)::post)) (hmid : ∀ p ∈ mid, HoleOk p ∧ 8*i ≤ 8*p.1 ∧ p.2 ≤ l)
    (hap : mid.Pairwise fun p q => p.2 ≤ 8*q.1) : Ordered (pre' ++ (mid ++ post)) := by
  obtain ⟨o1, o2, o3, a1, a2, b1, b2, b3⟩ := ordered_parts pre post i l hord
  constructor
  · intro p hp
    rcases List.mem_append.mp hp with hp | hp
    · exact o1 p (hsub.subset hp)
    · rcases List.mem_append.mp hp with hp | hp
      · exact (hmid p hp).1
      · exact o3 p hp
  · rw [List.pairwise_append, List.pairwise_append]
    refine ⟨a1.sublist hsub, ⟨hap, a2, fun p hp q hq => ?_⟩, fun p hp q hq => ?_⟩
    · have h1 := (hmid p hp).2.2
      have h2 := b2 q hq
      omega
    · rcases List.mem_append.mp hq with hq | hq
      · have h1 := b1 p (hsub.subset hp)
        have h2 := (hmid q hq).2.1
        omega
      · exact b3 p (hsub.subset hp) q hq

variable (hhit : Hit pre i l off8 len) (hroom : Room l post off8 len more)

/-- A rest of the hole starts where the fragment ends. -/
theorem rest_place (hroom : Room l post off8 len more) (h : 8*off8+len < cut l off8 len more) :
    cut l off8 len more = l ∧ 8*(off8+len/8) = 8*off8+len ∧ 8*off8+len+8 ≤ ipMaxudp := by
  cases more with
  | true =>
    obtain ⟨h1, h2⟩ := hroom.rest rfl h
    refine ⟨rfl, by omega, h2⟩
  | false => exact absurd h (by simp [cut])

include hord hhit hroom in
theorem updated_ordered (hstart : 8*off8 < 65536) :
    Ordered (updated pre i (cut l off8 len more) post off8 len) := by
  obtain ⟨-, hok, -, -, -, -, -, -⟩ := ordered_parts pre post i l hord
  have hov := hhit.overlap
  have hre := hhit.reaches
  have hin := hok.inside
  have hfront : i < off8 → HoleOk (i, 8*off8) ∧ 8*i ≤ 8*i ∧ 8*off8 ≤ l := by
    intro h
    exact ⟨⟨by simp only; omega, hok.inside, .inr ⟨by simp only; omega, hstart⟩⟩, le_rfl, hre⟩
  have hrest : 8*off8+len < cut l off8 len more → cut l off8 len more = l ∧
      8*i ≤ 8*(off8+len/8) ∧ HoleOk (off8+len/8, l) := by
    intro h
    obtain ⟨h1, h2, h3⟩ := rest_place post l off8 len more hroom h
    refine ⟨h1, by omega, ⟨by simp only; omega, by simp only; omega, hok.limit⟩⟩
  unfold updated
  split_ifs with h1 h2 h3
  · exact ordered_between pre post i l (kept pre) [] (kept_sublist pre) hord (by simp) (by simp)
  · refine ordered_between pre post i l pre [(i, 8*off8)] (List.Sublist.refl _) hord ?_ (by simp)
    intro p hp
    rw [List.mem_singleton] at hp
    subst hp
    exact hfront (by omega)
  · obtain ⟨e, hle, hok'⟩ := hrest (by omega)
    rw [e]
    refine ordered_between pre post i l (kept pre) [_] (kept_sublist pre) hord ?_ (by simp)
    intro p hp
    rw [List.mem_singleton] at hp
    subst hp
    exact ⟨hok', hle, le_rfl⟩
  · obtain ⟨e, hle, hok'⟩ := hrest (by omega)
    rw [e]
    refine ordered_between pre post i l pre [(i, 8*off8), _] (List.Sublist.refl _) hord ?_ ?_
    · intro p hp
      simp only [List.mem_cons, List.not_mem_nil, or_false] at hp
      rcases hp with rfl | rfl
      · exact hfront (by omega)
      · exact ⟨hok', hle, le_rfl⟩
    · simp only [List.pairwise_cons, List.mem_singleton, forall_eq, List.not_mem_nil, false_imp_iff,
        implies_true, List.Pairwise.nil, and_true]
      omega

/-- The descriptors of the updated list: old ones that the fragment does not
touch, and the one where it ends. -/
theorem updated_indices (hord : Ordered (pre ++ (i, l)::post)) (hhit : Hit pre i l off8 len)
    (hroom : Room l post off8 len more) :
    ∀ j ∈ indices (updated pre i (cut l off8 len more) post off8 len),
      (j ∈ indices (pre ++ (i, l)::post) ∨ j ∈ fresh (cut l off8 len more) off8 len) ∧
      (8*j+8 ≤ 8*off8 ∨ 8*off8+len ≤ 8*j) := by
  obtain ⟨okp, -, -, -, -, -, -, -⟩ := ordered_parts pre post i l hord
  have hpre : ∀ j ∈ indices pre, (j ∈ indices (pre ++ (i, l)::post) ∨
      j ∈ fresh (cut l off8 len more) off8 len) ∧ (8*j+8 ≤ 8*off8 ∨ 8*off8+len ≤ 8*j) := by
    intro j hj
    obtain ⟨p, hp, rfl⟩ := List.mem_map.mp hj
    have h1 := (okp p hp).nonempty
    have h2 := hhit.before p hp
    refine ⟨.inl ?_, .inl (by omega)⟩
    rw [indices_append]
    exact List.mem_append_left _ hj
  have hpost : ∀ j ∈ indices post, (j ∈ indices (pre ++ (i, l)::post) ∨
      j ∈ fresh (cut l off8 len more) off8 len) ∧ (8*j+8 ≤ 8*off8 ∨ 8*off8+len ≤ 8*j) := by
    intro j hj
    refine ⟨.inl ?_, .inr (hroom.apart j hj)⟩
    rw [indices_append, indices_cons]
    exact List.mem_append_right _ (List.mem_cons_of_mem _ hj)
  have hi : i ∈ indices (pre ++ (i, l)::post) := by simp [indices]
  have hkept : ∀ j ∈ indices (kept pre), j ∈ indices pre := fun j hj =>
    ((kept_sublist pre).map Prod.fst).subset hj
  have hfresh : 8*off8+len < cut l off8 len more →
      off8+len/8 ∈ fresh (cut l off8 len more) off8 len ∧ 8*off8+len ≤ 8*(off8+len/8) := by
    intro h
    refine ⟨?_, (rest_place post l off8 len more hroom h).2.1.ge⟩
    rw [fresh, if_neg (by omega)]
    exact List.mem_singleton.mpr rfl
  intro j hj
  unfold updated at hj
  split_ifs at hj with h1 h2 h3
  · rw [indices_append] at hj
    rcases List.mem_append.mp hj with hj | hj
    · exact hpre j (hkept j hj)
    · exact hpost j hj
  · rw [indices_append, indices_cons] at hj
    rcases List.mem_append.mp hj with hj | hj
    · exact hpre j hj
    · rcases List.mem_cons.mp hj with rfl | hj
      · exact ⟨.inl hi, .inl (by omega)⟩
      · exact hpost j hj
  · rw [indices_append, indices_cons] at hj
    rcases List.mem_append.mp hj with hj | hj
    · exact hpre j (hkept j hj)
    · rcases List.mem_cons.mp hj with rfl | hj
      · exact ⟨.inr (hfresh (by omega)).1, .inr (hfresh (by omega)).2⟩
      · exact hpost j hj
  · rw [indices_append, indices_cons, indices_cons] at hj
    rcases List.mem_append.mp hj with hj | hj
    · exact hpre j hj
    · rcases List.mem_cons.mp hj with rfl | hj
      · exact ⟨.inl hi, .inl (by omega)⟩
      · rcases List.mem_cons.mp hj with rfl | hj
        · exact ⟨.inr (hfresh (by omega)).1, .inr (hfresh (by omega)).2⟩
        · exact hpost j hj

end Hole

/-! ## The fragment received -/

def totalAfter (s : State) (off8 len : ℕ) (more : Bool) : ℕ :=
  if more then s.totalLen else 8*off8+len

/-- What a fragment that is taken does to the packet in progress. -/
structure Received (s : State) (r : Result) (old hs : List (ℕ × ℕ)) (new : List ℕ) (off8 len : ℕ)
    (more : Bool) (ip : Bytes) : Prop where
  packet : r.packet = if hs = [] then some (totalAfter s off8 len more+ipHdrSize) else none
  linked : hs ≠ [] → Linked r.state hs
  copied : ∀ x < len, r.state.payload (8*off8+x) = ip (ipHdrSize+x)
  frame : ∀ x, (∀ j ∈ indices old ++ new, x < 8*j ∨ 8*j+8 ≤ x) →
    x < 8*off8 ∨ 8*off8+len ≤ x → r.state.payload x = s.payload x
  totalLen : r.state.totalLen = totalAfter s off8 len more
  id : ipId r.state.header = ipId s.header
  accesses : ∃ as rest, r.accesses = as ++ .copy (8*off8) len::rest ∧
    (∀ a ∈ as, (∃ j ∈ indices old, a = .follow j) ∨ ∃ j ∈ indices old ++ new, a = .hole j) ∧
    (∀ j ∈ new, .hole j ∈ as) ∧ ∀ a ∈ rest, a = .header

theorem finish_id (s : State) : ipId (finish s).header = ipId s.header := by
  simp [ipId, ntohs, finish]

theorem truncate_nat (s : State) (h off8 len : ℕ) (more : Bool) (hlen : 8*off8+len < 65536) :
    truncate s h off8 len more = if more then (s, []) else
      ({ s with totalLen := 8*off8+len, payload := setLimit s.payload h (8*off8+len) }, [.hole h]) := by
  have hu : u16 (8*(off8 : ℤ)+len) = 8*off8+len := by
    unfold u16
    omega
  simp only [truncate, hu]

theorem truncate_linked (s : State) (pre post : List (ℕ × ℕ)) (i l off8 len : ℕ) (more : Bool)
    (hlen : 8*off8+len < 65536) (hinc : Increasing (pre ++ (i, l)::post))
    (h : Linked s (pre ++ (i, l)::post)) :
    Linked (truncate s i off8 len more).1 (pre ++ (i, cut l off8 len more)::post) := by
  rw [truncate_nat s i off8 len more hlen]
  cases more with
  | true => exact h
  | false =>
    obtain ⟨hseg, hfirst⟩ := linked_setLimit s pre post i l (8*off8+len) hlen hinc h
    exact ⟨hseg, hfirst⟩

theorem truncate_effect (s : State) (i off8 len : ℕ) (more : Bool) (hlen : 8*off8+len < 65536) :
    (∀ x, x < 8*i ∨ 8*i+8 ≤ x → (truncate s i off8 len more).1.payload x = s.payload x) ∧
    (truncate s i off8 len more).1.header = s.header ∧
    (truncate s i off8 len more).1.totalLen = totalAfter s off8 len more ∧
    ∀ a ∈ (truncate s i off8 len more).2, a = .hole i := by
  rw [truncate_nat s i off8 len more hlen, totalAfter]
  cases more with
  | true => simp
  | false =>
    refine ⟨fun x hx => put16_outside _ i 0 _ x (by omega) hx, rfl, rfl, ?_⟩
    intro a ha
    simpa using ha

theorem receive_eq (s : State) (i off8 len : ℕ) (more : Bool) (ip : Bytes)
    (hov : i < off8+(len+7)/8) (hlen : len < 65536) :
    receive s i off8 len more ip =
      let t := truncate s i off8 len more
      let u := updateHoles t.1 i off8 len
      let c : State := { u.1 with
        payload := copyIn u.1.payload (8*off8) len fun x => ip (ipHdrSize+x) }
      if u.2.1 then ⟨finish c, some (c.totalLen+ipHdrSize),
        (t.2 ++ u.2.2 ++ [.copy (8*off8) len]) ++ [.header]⟩
      else ⟨c, none, t.2 ++ u.2.2 ++ [.copy (8*off8) len]⟩ := by
  have hdiv : ((len : ℤ)+7).tdiv 8 = ((len+7)/8 : ℕ) := by
    rw [Int.tdiv_eq_ediv_of_nonneg (by omega)]
    omega
  have hmod : ((len : ℤ) % 4294967296).toNat = len := by omega
  unfold receive
  rw [hdiv, if_neg (by omega)]
  simp only [copyFragment, hmod]

/-- Truncation and update together. -/
theorem holes_change (s : State) (pre post : List (ℕ × ℕ)) (i l off8 len : ℕ) (more : Bool)
    (hrep : Rep s (pre ++ (i, l)::post)) (hend : 8*off8+len ≤ ipMaxudp)
    (hhit : Hit pre i l off8 len) (hroom : Room l post off8 len more) :
    Change (truncate s i off8 len more).1 (updateHoles (truncate s i off8 len more).1 i off8 len)
      (pre ++ (i, l)::post) (updated pre i (cut l off8 len more) post off8 len)
      (fresh (cut l off8 len more) off8 len) := by
  have hmax : ipMaxudp = 16464 := rfl
  have hinc := ordered_increasing _ hrep.ordered
  have hind : indices (pre ++ (i, cut l off8 len more)::post) = indices (pre ++ (i, l)::post) := by
    simp [indices]
  have hinc' : Increasing (pre ++ (i, cut l off8 len more)::post) :=
    ⟨hind ▸ hinc.lt, hind ▸ hinc.bound⟩
  have hlinked := truncate_linked s pre post i l off8 len more (by omega) hinc hrep.linked
  obtain ⟨-, -, -, -, -, -, hpost, -⟩ := ordered_parts pre post i l hrep.ordered
  have hov := hhit.overlap
  obtain ⟨h1, h2, h3⟩ := updateHoles_change _ pre post i (cut l off8 len more) off8 len hinc' hlinked
    (by omega) (by
      intro h
      obtain ⟨h1, h2, h3⟩ := rest_place post l off8 len more hroom h
      refine ⟨by omega, by omega, fun j hj => ?_⟩
      obtain ⟨q, hq, rfl⟩ := List.mem_map.mp hj
      have := hpost q hq
      omega)
  exact ⟨h1, h2, hind ▸ h3⟩

theorem receive_received (s : State) (pre post : List (ℕ × ℕ)) (i l off8 len : ℕ) (more : Bool)
    (ip : Bytes) (hrep : Rep s (pre ++ (i, l)::post)) (hend : 8*off8+len ≤ ipMaxudp)
    (hhit : Hit pre i l off8 len) (hroom : Room l post off8 len more) :
    Received s (receive s i off8 len more ip) (pre ++ (i, l)::post)
      (updated pre i (cut l off8 len more) post off8 len) (fresh (cut l off8 len more) off8 len)
      off8 len more ip := by
  have hmax : ipMaxudp = 16464 := rfl
  obtain ⟨hdone, hlinked, heff⟩ := holes_change s pre post i l off8 len more hrep hend hhit hroom
  obtain ⟨tf, th, tt, ta⟩ := truncate_effect s i off8 len more (by omega)
  have hind := updated_indices pre post i l off8 len more hrep.ordered hhit hroom
  have hi : i ∈ indices (pre ++ (i, l)::post) := by simp [indices]
  rw [receive_eq s i off8 len more ip hhit.overlap (by omega)]
  simp only
  generalize truncate s i off8 len more = t at *
  generalize updateHoles t.1 i off8 len = u at *
  generalize updated pre i (cut l off8 len more) post off8 len = hs at *
  generalize fresh (cut l off8 len more) off8 len = new at *
  have hcopied : ∀ x < len, copyIn u.1.payload (8*off8) len (fun x => ip (ipHdrSize+x)) (8*off8+x) =
      ip (ipHdrSize+x) := by
    intro x hx
    unfold copyIn
    rw [if_pos (by omega), Nat.add_sub_cancel_left]
  have hframe : ∀ x, (∀ j ∈ indices (pre ++ (i, l)::post) ++ new, x < 8*j ∨ 8*j+8 ≤ x) →
      x < 8*off8 ∨ 8*off8+len ≤ x →
      copyIn u.1.payload (8*off8) len (fun x => ip (ipHdrSize+x)) x = s.payload x := by
    intro x hx hout
    unfold copyIn
    rw [if_neg (by omega), heff.frame x hx]
    exact tf x (hx i (List.mem_append_left _ hi))
  have hseg : hs ≠ [] → Seg (copyIn u.1.payload (8*off8) len fun x => ip (ipHdrSize+x)) 0 hs 0 :=
    fun hne => seg_congr _ _ hs 0 0 (fun j hj => same_copyIn _ _ _ _ _ (hind j hj).2)
      (hlinked hne).seg
  have hacc : ∀ a ∈ t.2 ++ u.2.2, (∃ j ∈ indices (pre ++ (i, l)::post), a = .follow j) ∨
      ∃ j ∈ indices (pre ++ (i, l)::post) ++ new, a = .hole j := by
    intro a ha
    rcases List.mem_append.mp ha with ha | ha
    · exact .inr ⟨i, List.mem_append_left _ hi, ta a ha⟩
    · exact heff.accesses a ha
  have hwritten : ∀ j ∈ new, .hole j ∈ t.2 ++ u.2.2 := fun j hj =>
    List.mem_append_right _ (heff.written j hj)
  by_cases hd : u.2.1 = true
  · rw [if_pos hd]
    have hnil := hdone.mp hd
    refine ⟨?_, fun hne => absurd hnil hne, hcopied, hframe, heff.totalLen.trans tt, ?_, ?_⟩
    · rw [if_pos hnil, ← tt, ← heff.totalLen]
    · rw [finish_id]
      simp only [heff.header, th]
    · exact ⟨t.2 ++ u.2.2, [.header], by simp, hacc, hwritten, by simp⟩
  · rw [if_neg hd]
    have hne : hs ≠ [] := fun h => hd (hdone.mpr h)
    refine ⟨(if_neg hne).symm, fun _ => ⟨hseg hne, (hlinked hne).first⟩, hcopied, hframe,
      heff.totalLen.trans tt, ?_, ?_⟩
    · simp only [heff.header, th]
    · exact ⟨t.2 ++ u.2.2, [], by simp, hacc, hwritten, by simp⟩

/-! ## The whole function -/

theorem place_found (s : State) (ip : Bytes) (pre post : List (ℕ × ℕ)) (i l : ℕ)
    (hrep : Rep s (pre ++ (i, l)::post)) (hpre : ∀ x ∈ pre, x.2 < 8*offset8 ip)
    (hl : 8*offset8 ip ≤ l) :
    place s ip = some { receive s i (offset8 ip) (fragLen ip) (moreFragments ip) ip with
      accesses := (indices (pre ++ [(i, l)])).map .follow ++
        (receive s i (offset8 ip) (fragLen ip) (moreFragments ip) ip).accesses } := by
  have hlen := ordered_length _ hrep.ordered
  rw [List.length_append] at hlen
  have hscan := scan_found s.payload (8*offset8 ip) pre i l post 0 hrep.linked.seg
    (ordered_increasing _ hrep.ordered) hpre hl scanFuel (by unfold scanFuel; omega)
  rw [place, hrep.linked.first, hscan]

theorem place_beyond (s : State) (ip : Bytes) (hs : List (ℕ × ℕ)) (hrep : Rep s hs)
    (hall : ∀ x ∈ hs, x.2 < 8*offset8 ip) :
    place s ip = some ⟨s, none, (indices hs).map .follow⟩ := by
  have hlen := ordered_length _ hrep.ordered
  have hscan := scan_beyond s.payload (8*offset8 ip) hs 0 hrep.linked.seg
    (ordered_increasing _ hrep.ordered) hrep.ne hall scanFuel (by unfold scanFuel; omega)
  rw [place, hrep.linked.first, hscan]

/-- The hole that the search stops at does not overlap with the fragment. -/
theorem receive_missed (s : State) (i off8 : ℕ) (len : ℤ) (more : Bool) (ip : Bytes)
    (h : (off8 : ℤ)+(len+7).tdiv 8 ≤ i) : receive s i off8 len more ip = ⟨s, none, []⟩ :=
  if_pos h

theorem reset_rep (s : State) (ip : Bytes) : Rep (reset s ip) [(0, 65535)] := by
  refine ⟨⟨?_, by simp⟩, ⟨⟨?_, ?_, ?_, trivial⟩, rfl⟩, by simp⟩
  · intro p hp
    rw [List.mem_singleton] at hp
    subst hp
    exact ⟨by simp, by simp [ipMaxudp, ipPktsize, ipHdrSize], .inl rfl⟩
  · simp [reset]
  · simp [reset]
  · simp [reset, headIx]

theorem copyIn_header (b : Bytes) (ip : Bytes) : ipId (copyIn b 0 ipHdrSize ip) = ipId ip := by
  simp [ipId, ntohs, copyIn, ipHdrSize]

end UBoot.Defrag
