import UBoot.DefragStep
import UBoot.BlockTransfer

/-!
# Reassembly of a datagram

A datagram is cut into fragments at multiples of eight bytes, which arrive in
any order and more than once. The hole list is the list of the maximal runs of
missing fragments, as long as the hole number 0 is not dropped: that happens
when the first fragment is missing and the second run loses its beginning.
-/

set_option autoImplicit false

namespace UBoot.Defrag
open UBoot.LinkedRecords UBoot.BlockTransfer

/-- A payload and its partition: fragment `k` is from `bound k` to `bound (k+1)`. -/
structure Datagram where
  id : ℕ
  payload : Bytes
  count : ℕ
  bound : ℕ → ℕ
  positive : 0 < count
  bound_zero : bound 0 = 0
  bound_lt : ∀ k < count, bound k < bound (k+1)
  aligned : ∀ k < count, bound k % 8 = 0
  size : bound count ≤ ipMaxudp

/-- The packet carries fragment `j`. -/
structure IsFragment (d : Datagram) (j : ℕ) (ip : Bytes) : Prop where
  lt : j < d.count
  id : ipId ip = d.id
  offset : 8*offset8 ip = d.bound j
  len : ipLen ip = ipHdrSize+(d.bound (j+1)-d.bound j)
  more : moreFragments ip = decide (j+1 < d.count)
  data : ∀ x < d.bound (j+1)-d.bound j, ip (ipHdrSize+x) = d.payload (d.bound j+x)

section Bounds

variable (d : Datagram)

theorem bound_add (a m : ℕ) (h : a+m ≤ d.count) : d.bound a+m ≤ d.bound (a+m) := by
  induction m with
  | zero => exact le_rfl
  | succ m ih =>
    have h1 := ih (by omega)
    have h2 := d.bound_lt (a+m) (by omega)
    change d.bound a+(m+1) ≤ d.bound (a+m+1)
    omega

theorem bound_strict (a b : ℕ) (h : a < b) (hb : b ≤ d.count) : d.bound a < d.bound b := by
  have := bound_add d a (b-a) (by omega)
  rw [Nat.add_sub_cancel' h.le] at this
  omega

theorem bound_mono (a b : ℕ) (h : a ≤ b) (hb : b ≤ d.count) : d.bound a ≤ d.bound b := by
  have := bound_add d a (b-a) (by omega)
  rw [Nat.add_sub_cancel' h] at this
  omega

theorem bound_lt_iff (a b : ℕ) (ha : a ≤ d.count) (hb : b ≤ d.count) :
    d.bound a < d.bound b ↔ a < b := by
  constructor
  · intro h
    by_contra hn
    have := bound_mono d b a (by omega) ha
    omega
  · exact fun h => bound_strict d a b h hb

theorem bound_le_iff (a b : ℕ) (ha : a ≤ d.count) (hb : b ≤ d.count) :
    d.bound a ≤ d.bound b ↔ a ≤ b := by
  rw [← not_lt, ← not_lt, bound_lt_iff d b a hb ha]

/-- Every byte is in a fragment. -/
theorem fragment_of (x : ℕ) (hx : x < d.bound d.count) :
    ∃ k < d.count, d.bound k ≤ x ∧ x < d.bound (k+1) := by
  have h : ∀ m ≤ d.count, x < d.bound m → ∃ k < d.count, d.bound k ≤ x ∧ x < d.bound (k+1) := by
    intro m hm hxm
    induction m with
    | zero =>
      rw [d.bound_zero] at hxm
      omega
    | succ m ih =>
      by_cases hlt : x < d.bound m
      · exact ih (by omega) hlt
      · exact ⟨m, by omega, by omega, hxm⟩
  exact h d.count le_rfl hx

/-- Where a run of missing fragments ends; nothing ends the last one. -/
def stop (b : ℕ) : ℕ := if b = d.count then 65535 else d.bound b

theorem stop_gt (a b : ℕ) (h : a < b) (hb : b ≤ d.count) : d.bound a < stop d b := by
  have hsize := d.size
  have hmax : ipMaxudp = 16464 := rfl
  have h1 := bound_strict d a b h hb
  have h2 := bound_mono d b d.count hb le_rfl
  unfold stop
  split_ifs
  · omega
  · exact h1

theorem stop_le (a b : ℕ) (h : a ≤ d.count) (hb : b ≤ d.count) (hs : stop d b ≤ d.bound a) :
    b ≤ a ∧ b ≠ d.count := by
  have hsize := d.size
  have hmax : ipMaxudp = 16464 := rfl
  have h1 := bound_mono d a d.count h le_rfl
  unfold stop at hs
  split_ifs at hs with hc
  · omega
  · exact ⟨(bound_le_iff d b a hb h).mp hs, hc⟩

end Bounds

/-! ## Missing runs -/

/-- The hole is the run of the fragments from `a` to `b`, which are missing. -/
structure IsRun (d : Datagram) (got : Finset ℕ) (a b : ℕ) (p : ℕ × ℕ) : Prop where
  lt : a < b
  le : b ≤ d.count
  start : 8*p.1 = d.bound a
  limit : p.2 = stop d b
  missing : ∀ k, a ≤ k → k < b → k ∉ got
  maximal : b = d.count ∨ b ∈ got

structure Missing (d : Datagram) (got : Finset ℕ) (hs : List (ℕ × ℕ)) : Prop where
  run : ∀ p ∈ hs, ∃ a b, IsRun d got a b p
  all : ∀ k < d.count, k ∉ got → ∃ p ∈ hs, 8*p.1 ≤ d.bound k ∧ d.bound k < p.2

theorem missing_all (d : Datagram) : Missing d ∅ [(0, 65535)] := by
  have hsize := d.size
  have hmax : ipMaxudp = 16464 := rfl
  constructor
  · intro p hp
    rw [List.mem_singleton] at hp
    subst hp
    exact ⟨0, d.count, d.positive, le_rfl, d.bound_zero.symm, by simp [stop], by simp, .inl rfl⟩
  · intro k hk _
    have := bound_mono d k d.count hk.le le_rfl
    exact ⟨_, List.mem_singleton.mpr rfl, by simp, by simp only; omega⟩

theorem missing_nil_iff (d : Datagram) (got : Finset ℕ) (hs : List (ℕ × ℕ)) (h : Missing d got hs) :
    hs = [] ↔ ∀ k < d.count, k ∈ got := by
  constructor
  · rintro rfl k hk
    by_contra hn
    obtain ⟨p, hp, -⟩ := h.all k hk hn
    cases hp
  · intro hall
    by_contra hne
    obtain ⟨p, hp⟩ := List.exists_mem_of_ne_nil hs hne
    obtain ⟨a, b, hr⟩ := h.run p hp
    exact hr.missing a le_rfl hr.lt (hall a (lt_of_lt_of_le hr.lt hr.le))

/-- The fragment is missing, and it starts the second run of missing ones while
the first fragment of all is missing too. -/
def SecondRun (got : Finset ℕ) (j : ℕ) : Prop :=
  j ∉ got ∧ ∃ b, 0 < b ∧ b < j ∧ (∀ k < b, k ∉ got) ∧ ∀ k, b ≤ k → k < j → k ∈ got

/-! ## The hole of a fragment -/

section Fragment

variable (d : Datagram) (got : Finset ℕ) (pre post : List (ℕ × ℕ)) (i l j : ℕ)
  (hord : Ordered (pre ++ (i, l)::post)) (hmis : Missing d got (pre ++ (i, l)::post))
  (hj : j < d.count)

include hord hmis hj in
/-- The search finds the hole of a missing fragment. -/
theorem new_hit (hnew : j ∉ got) (hpre : ∀ x ∈ pre, x.2 < d.bound j) (hl : d.bound j ≤ l) :
    ∃ a b, IsRun d got a b (i, l) ∧ a ≤ j ∧ j < b := by
  obtain ⟨-, -, -, -, -, -, hpost, -⟩ := ordered_parts pre post i l hord
  obtain ⟨a, b, hr⟩ := hmis.run (i, l) (by simp)
  have hlim : l = stop d b := hr.limit
  have hstart : 8*i = d.bound a := hr.start
  have hle := hr.le
  have hlt := hr.lt
  obtain ⟨p, hp, h1, h2⟩ := hmis.all j hj hnew
  -- a hole that only touches the fragment is followed by one that has come
  have hbj : j < b := by
    by_contra hn
    have hbj : b ≠ d.count := by omega
    have hlb : l = d.bound b := by rw [hlim, stop, if_neg hbj]
    have heq : ¬b < j := fun h => by
      have := bound_strict d b j h hj.le
      omega
    have : b = j := by omega
    rcases hr.maximal with hm | hm
    · exact hbj hm
    · exact hnew (this ▸ hm)
  refine ⟨a, b, hr, ?_, hbj⟩
  rcases List.mem_append.mp hp with hp | hp
  · have := hpre p hp
    omega
  rcases List.mem_cons.mp hp with rfl | hp
  · exact (bound_le_iff d a j (by omega) hj.le).mp (by simp only at h1; omega)
  · have h3 := hpost p hp
    have h4 := stop_gt d j b hbj hle
    omega

include hord hmis hj in
/-- A fragment that has come can only touch the end of the hole. -/
theorem old_hit (hold : j ∈ got) (hl : d.bound j ≤ l) (hov : 8*i < d.bound (j+1)) :
    l = d.bound j ∧ 8*i < l ∧ ∀ q ∈ post, d.bound (j+1) ≤ 8*q.1 := by
  obtain ⟨-, hok, -, -, -, -, hpost, -⟩ := ordered_parts pre post i l hord
  obtain ⟨a, b, hr⟩ := hmis.run (i, l) (by simp)
  have hlim : l = stop d b := hr.limit
  have hstart : 8*i = d.bound a := hr.start
  have hle := hr.le
  have hlt := hr.lt
  have ha : a < j+1 := (bound_lt_iff d a (j+1) (by omega) hj).mp (by omega)
  have hb : b ≤ j := by
    by_contra hn
    exact hr.missing j (by omega) (by omega) hold
  have hlb : l = d.bound b := by rw [hlim, stop, if_neg (by omega)]
  have hbj : j ≤ b := (bound_le_iff d j b hj.le hle).mp (by omega)
  have hbeq : b = j := by omega
  refine ⟨by rw [hlb, hbeq], hok.nonempty, fun q hq => ?_⟩
  obtain ⟨a', b', hr'⟩ := hmis.run q (by simp [hq])
  have hle' := hr'.le
  have hlt' := hr'.lt
  have hstart' := hr'.start
  have h1 := hpost q hq
  have h2 : j ≤ a' := (bound_le_iff d j a' hj.le (by omega)).mp (by rw [← hbeq]; omega)
  have h3 : a' ≠ j := by
    rintro rfl
    exact hr'.missing a' le_rfl hlt' hold
  rw [hstart']
  exact bound_mono d (j+1) a' (by omega) (by omega)

include hord hmis in
/-- A run that has lost a fragment is replaced by what is left of it. -/
theorem missing_replace (a b : ℕ) (hr : IsRun d got a b (i, l)) (haj : a ≤ j) (hjb : j < b)
    (mid : List (ℕ × ℕ)) (hmid : ∀ p ∈ mid, ∃ a' b', IsRun d (insert j got) a' b' p)
    (hall : ∀ k, a ≤ k → k < b → k ≠ j → ∃ p ∈ mid, 8*p.1 ≤ d.bound k ∧ d.bound k < p.2) :
    Missing d (insert j got) (pre ++ (mid ++ post)) := by
  obtain ⟨-, -, -, -, -, hpre, hpost, -⟩ := ordered_parts pre post i l hord
  have hlim : l = stop d b := hr.limit
  have hstart : 8*i = d.bound a := hr.start
  have hle := hr.le
  have hjl : d.bound j < l := hlim ▸ stop_gt d j b hjb hle
  have hij : 8*i ≤ d.bound j := hstart ▸ bound_mono d a j haj (by omega)
  -- the other holes do not contain the fragment
  have hother : ∀ p ∈ pre ++ (i, l)::post, p.2 ≤ 8*i ∨ l ≤ 8*p.1 →
      ∃ a' b', IsRun d (insert j got) a' b' p := by
    intro p hp hout
    obtain ⟨a', b', hr'⟩ := hmis.run p hp
    have hle' := hr'.le
    have hstart' := hr'.start
    have hlim' := hr'.limit
    refine ⟨a', b', hr'.lt, hle', hstart', hlim', fun k h1 h2 hk => ?_, ?_⟩
    · rcases Finset.mem_insert.mp hk with rfl | hk
      · have h3 := stop_gt d k b' h2 hle'
        have h4 := bound_mono d a' k h1 (by omega)
        omega
      · exact hr'.missing k h1 h2 hk
    · exact hr'.maximal.imp id fun h => Finset.mem_insert_of_mem h
  constructor
  · intro p hp
    rcases List.mem_append.mp hp with hp | hp
    · exact hother p (by simp [hp]) (.inl (hpre p hp))
    · rcases List.mem_append.mp hp with hp | hp
      · exact hmid p hp
      · exact hother p (by simp [hp]) (.inr (hpost p hp))
  · intro k hk hkn
    rw [Finset.mem_insert, not_or] at hkn
    obtain ⟨p, hp, h1, h2⟩ := hmis.all k hk hkn.2
    rcases List.mem_append.mp hp with hp | hp
    · exact ⟨p, List.mem_append_left _ hp, h1, h2⟩
    rcases List.mem_cons.mp hp with rfl | hp
    · simp only at h1 h2
      have hak : a ≤ k := (bound_le_iff d a k (by omega) hk.le).mp (by omega)
      have hkb : k < b := by
        by_contra hn
        have h3 : b ≠ d.count := by omega
        have h4 := bound_mono d b k (by omega) hk.le
        rw [hlim, stop, if_neg h3] at h2
        omega
      obtain ⟨q, hq, hq'⟩ := hall k hak hkb hkn.1
      exact ⟨q, List.mem_append_right _ (List.mem_append_left _ hq), hq'⟩
    · exact ⟨p, List.mem_append_right _ (List.mem_append_right _ hp), h1, h2⟩

include hord hmis hj in
/-- The holes in front stay, unless they are hole number 0 alone. -/
theorem kept_eq (b : ℕ) (hr : IsRun d got j b (i, l)) (hnot : ¬SecondRun got j) :
    kept pre = pre := by
  have hnew : j ∉ got := hr.missing j le_rfl hr.lt
  have hstart : 8*i = d.bound j := hr.start
  unfold kept
  split_ifs with h0
  · cases pre with
    | nil => rfl
    | cons x xs =>
      exfalso
      obtain ⟨-, -, -, -, -, hpre, hpost, -⟩ := ordered_parts (x::xs) post i l hord
      have hinc := (ordered_increasing _ hord).lt
      rw [List.cons_append, indices_cons, List.pairwise_cons] at hinc
      have hxs : xs = [] := by
        by_contra hne
        have h1 := hinc.1 _ (by rw [indices_append]; exact List.mem_append_left _ (lastIx_mem xs x.1 hne))
        change lastIx xs x.1 = 0 at h0
        omega
      subst hxs
      change x.1 = 0 at h0
      obtain ⟨a', b', hr'⟩ := hmis.run x (by simp)
      have hlt' := hr'.lt
      have hle' := hr'.le
      have hstart' := hr'.start
      have hlim' := hr'.limit
      have hx := hpre x (by simp)
      have ha' : a' = 0 := by
        by_contra hne
        have := bound_strict d 0 a' (by omega) (by omega)
        omega
      obtain ⟨hb1, hb2⟩ := stop_le d j b' hj.le hle' (by omega)
      have hbgot := hr'.maximal.resolve_left hb2
      have hbj : b' ≠ j := by
        rintro rfl
        exact hnew hbgot
      refine hnot ⟨hnew, b', by omega, by omega, fun k hk => hr'.missing k (by omega) hk, ?_⟩
      intro k h1 h2
      by_contra hk
      obtain ⟨p, hp, h3, h4⟩ := hmis.all k (by omega) hk
      have hkj := bound_strict d k j h2 hj.le
      simp only [List.cons_append, List.nil_append, List.mem_cons] at hp
      rcases hp with rfl | rfl | hp
      · rw [hlim', stop, if_neg hb2] at h4
        have := bound_mono d b' k h1 (by omega)
        omega
      · simp only at h3
        omega
      · have h5 := hpost p hp
        have h6 : l = stop d b := hr.limit
        have h7 := stop_gt d j b hr.lt hr.le
        omega
  · rfl

variable (off8 len : ℕ) (hoff : 8*off8 = d.bound j) (hlen : 8*off8+len = d.bound (j+1))

include hlen in
/-- The fragment reaches the end of its run exactly if it is the last one of it. -/
theorem cut_le_iff (a b : ℕ) (hr : IsRun d got a b (i, l)) (hjb : j < b) :
    cut l off8 len (decide (j+1 < d.count)) ≤ 8*off8+len ↔ b = j+1 := by
  have hle := hr.le
  have hlim : l = stop d b := hr.limit
  by_cases hm : j+1 < d.count
  · rw [decide_eq_true hm, hlen]
    change l ≤ _ ↔ _
    rw [hlim]
    constructor
    · intro h
      have := (stop_le d (j+1) b hm.le hle h).1
      omega
    · rintro rfl
      rw [stop, if_neg (by omega)]
  · rw [decide_eq_false hm]
    simp only [cut, Bool.false_eq_true, if_false, le_refl, true_iff]
    omega

include hord hmis hj hoff hlen in
theorem updated_missing (a b : ℕ) (hr : IsRun d got a b (i, l)) (haj : a ≤ j) (hjb : j < b)
    (hnot : ¬SecondRun got j) : Missing d (insert j got)
      (updated pre i (cut l off8 len (decide (j+1 < d.count))) post off8 len) := by
  have hle := hr.le
  have hlt := hr.lt
  have hlim : l = stop d b := hr.limit
  have hstart : 8*i = d.bound a := hr.start
  have hcut := cut_le_iff d got i l j off8 len hlen a b hr hjb
  have hfirst : off8 ≤ i ↔ a = j := by
    have := bound_le_iff d j a hj.le (by omega)
    omega
  have hleft : a < j → IsRun d (insert j got) a j (i, 8*off8) := by
    intro h
    refine ⟨h, hj.le, hstart, by rw [stop, if_neg hj.ne, hoff], fun k h1 h2 hk => ?_,
      .inr (Finset.mem_insert_self j got)⟩
    rcases Finset.mem_insert.mp hk with rfl | hk
    · omega
    · exact hr.missing k h1 (by omega) hk
  have hright : b ≠ j+1 → cut l off8 len (decide (j+1 < d.count)) = l ∧
      IsRun d (insert j got) (j+1) b (off8+len/8, l) := by
    intro h
    have hm : j+1 < d.count := by omega
    have hal := d.aligned (j+1) hm
    rw [decide_eq_true hm]
    refine ⟨rfl, by omega, hle, by simp only; omega, hlim, fun k h1 h2 hk => ?_,
      hr.maximal.imp id fun h => Finset.mem_insert_of_mem h⟩
    rcases Finset.mem_insert.mp hk with rfl | hk
    · omega
    · exact hr.missing k (by omega) h2 hk
  have hin1 : ∀ k, a ≤ k → k < j → 8*i ≤ d.bound k ∧ d.bound k < 8*off8 := by
    intro k h1 h2
    rw [hstart, hoff]
    exact ⟨bound_mono d a k h1 (by omega), bound_strict d k j h2 hj.le⟩
  have hin2 : b ≠ j+1 → ∀ k, j < k → k < b → 8*(off8+len/8) ≤ d.bound k ∧ d.bound k < l := by
    intro h k h1 h2
    have h3 : 8*(off8+len/8) = d.bound (j+1) := (hright h).2.start
    rw [h3, hlim]
    exact ⟨bound_mono d (j+1) k (by omega) (by omega), stop_gt d k b h2 hle⟩
  have hreplace := missing_replace d got pre post i l j hord hmis a b hr haj hjb
  unfold updated
  by_cases hb : b = j+1
  · by_cases ha : a = j
    · subst ha
      rw [if_pos ⟨hfirst.mpr rfl, hcut.mpr hb⟩, kept_eq d got pre post i l a hord hmis hj b hr hnot]
      exact hreplace [] (by simp) (fun k h1 h2 h3 => by omega)
    · rw [if_neg (fun h => ha (hfirst.mp h.1)), if_pos (hcut.mpr hb)]
      refine hreplace [(i, 8*off8)] ?_ (fun k h1 h2 h3 => ?_)
      · intro p hp
        rw [List.mem_singleton] at hp
        subst hp
        exact ⟨a, j, hleft (by omega)⟩
      · exact ⟨_, List.mem_singleton.mpr rfl, hin1 k h1 (by omega)⟩
  · have hcut' := fun h => hb (hcut.mp h)
    rw [(hright hb).1] at hcut' ⊢
    by_cases ha : a = j
    · subst ha
      rw [if_neg (fun h => hcut' h.2), if_neg hcut', if_pos (hfirst.mpr rfl),
        kept_eq d got pre post i l a hord hmis hj b hr hnot]
      refine hreplace [(off8+len/8, l)] ?_ (fun k h1 h2 h3 => ?_)
      · intro p hp
        rw [List.mem_singleton] at hp
        subst hp
        exact ⟨a+1, b, (hright hb).2⟩
      · exact ⟨_, List.mem_singleton.mpr rfl, hin2 hb k (by omega) h2⟩
    · rw [if_neg (fun h => hcut' h.2), if_neg hcut', if_neg (fun h => ha (hfirst.mp h))]
      refine hreplace [(i, 8*off8), (off8+len/8, l)] ?_ (fun k h1 h2 h3 => ?_)
      · intro p hp
        simp only [List.mem_cons, List.not_mem_nil, or_false] at hp
        rcases hp with rfl | rfl
        · exact ⟨a, j, hleft (by omega)⟩
        · exact ⟨j+1, b, (hright hb).2⟩
      · rcases Nat.lt_or_ge k j with h | h
        · exact ⟨(i, 8*off8), by simp, hin1 k h1 h⟩
        · exact ⟨(off8+len/8, l), by simp, hin2 hb k (by omega) h2⟩

end Fragment

/-! ## One arrival -/

/-- The bytes of the fragments that have come are in their place. -/
def Holds (d : Datagram) (s : State) (got : Finset ℕ) : Prop :=
  ∀ k ∈ got, ∀ x, d.bound k ≤ x → x < d.bound (k+1) → s.payload x = d.payload x

structure Progress (d : Datagram) (s : State) (got : Finset ℕ) (hs : List (ℕ × ℕ)) : Prop where
  rep : Rep s hs
  missing : Missing d got hs
  below : ∀ k ∈ got, k < d.count
  holds : Holds d s got
  total : s.totalLen = if d.count-1 ∈ got then d.bound d.count else 65535
  id : ipId s.header = d.id

def Complete (d : Datagram) (got : Finset ℕ) : Prop := ∀ k < d.count, k ∈ got

instance (d : Datagram) (got : Finset ℕ) : Decidable (Complete d got) :=
  inferInstanceAs (Decidable (∀ k < d.count, k ∈ got))

/-- What the arrival of fragment `j` gives. -/
structure Arrival (d : Datagram) (r : Result) (got : Finset ℕ) : Prop where
  packet : r.packet = if Complete d got then some (d.bound d.count+ipHdrSize) else none
  holds : Holds d r.state got
  next : ¬Complete d got → ∃ hs, Progress d r.state got hs

/-- The descriptor of a missing run is not in a fragment that has come. -/
theorem record_apart (d : Datagram) (got : Finset ℕ) (a b : ℕ) (p : ℕ × ℕ)
    (hr : IsRun d got a b p) (k x : ℕ) (hk : k ∈ got) (hkc : k < d.count) (h1 : d.bound k ≤ x)
    (h2 : x < d.bound (k+1)) : x < 8*p.1 ∨ 8*p.1+8 ≤ x := by
  have hle := hr.le
  have hlt := hr.lt
  rw [hr.start]
  rcases Nat.lt_or_ge k a with h | h
  · have := bound_mono d (k+1) a h (by omega)
    omega
  · have hkb : b ≤ k := by
      by_contra hn
      exact hr.missing k h (by omega) hk
    have h3 := d.aligned a (by omega)
    have h4 := d.aligned (a+1) (by omega)
    have h5 := bound_strict d a (a+1) (by omega) (by omega)
    have h6 := bound_mono d (a+1) k (by omega) hkc.le
    omega

theorem progress_same (d : Datagram) (s : State) (got : Finset ℕ) (hs : List (ℕ × ℕ)) (j : ℕ)
    (as : List Access) (hp : Progress d s got hs) (hj : j ∈ got) :
    Arrival d ⟨s, none, as⟩ (insert j got) := by
  rw [Finset.insert_eq_of_mem hj]
  have hinc : ¬Complete d got := fun h =>
    hp.rep.ne ((missing_nil_iff d got hs hp.missing).mpr h)
  exact ⟨(if_neg hinc).symm, hp.holds, fun _ => ⟨hs, hp⟩⟩

/-- A fragment that is taken and has updated the list as it should. -/
theorem progress_received (d : Datagram) (s : State) (got : Finset ℕ) (hs hs' : List (ℕ × ℕ))
    (new : List ℕ) (j off8 len : ℕ) (ip : Bytes) (r : Result) (hp : Progress d s got hs)
    (hf : IsFragment d j ip) (hoff : 8*off8 = d.bound j) (hlen : 8*off8+len = d.bound (j+1))
    (hrec : Received s r hs hs' new off8 len (decide (j+1 < d.count)) ip) (hord : Ordered hs')
    (hmis : Missing d (insert j got) hs')
    (hnew : ∀ n ∈ new, ∃ a b l, IsRun d got a b (n, l)) : Arrival d r (insert j got) := by
  have hj := hf.lt
  have hbelow : ∀ k ∈ insert j got, k < d.count := by
    intro k hk
    rcases Finset.mem_insert.mp hk with rfl | hk
    · exact hj
    · exact hp.below k hk
  have hholds : Holds d r.state (insert j got) := by
    intro k hk x h1 h2
    by_cases hkj : k = j
    · subst hkj
      have h3 := hrec.copied (x-8*off8) (by omega)
      have h4 := hf.data (x-8*off8) (by omega)
      rw [Nat.add_sub_cancel' (by omega)] at h3
      rw [h3, h4, ← hoff, Nat.add_sub_cancel' (by omega)]
    · have hk' := Finset.mem_of_mem_insert_of_ne hk hkj
      have hkc := hp.below k hk'
      rw [hrec.frame x ?_ ?_]
      · exact hp.holds k hk' x h1 h2
      · intro n hn
        rcases List.mem_append.mp hn with hn | hn
        · obtain ⟨p, hpm, rfl⟩ := List.mem_map.mp hn
          obtain ⟨a, b, hr⟩ := hp.missing.run p hpm
          exact record_apart d got a b p hr k x hk' hkc h1 h2
        · obtain ⟨a, b, l, hr⟩ := hnew n hn
          exact record_apart d got a b (n, l) hr k x hk' hkc h1 h2
      · rcases Nat.lt_or_ge k j with h | h
        · have := bound_mono d (k+1) j h hj.le
          omega
        · have := bound_mono d (j+1) k (by omega) hkc.le
          omega
  have htotal : totalAfter s off8 len (decide (j+1 < d.count)) =
      if d.count-1 ∈ insert j got then d.bound d.count else 65535 := by
    unfold totalAfter
    by_cases hm : j+1 < d.count
    · simp only [hm, decide_true, if_true, hp.total, Finset.mem_insert]
      have : d.count-1 ≠ j := by omega
      simp only [this, false_or]
    · have : d.count-1 = j := by omega
      have hc : d.count = j+1 := by omega
      simp only [hm, decide_false, Bool.false_eq_true, if_false, this, Finset.mem_insert_self, if_true]
      rw [hlen, hc]
  refine ⟨?_, hholds, fun hnc => ?_⟩
  · rw [hrec.packet]
    have hiff := missing_nil_iff d _ hs' hmis
    by_cases hc : Complete d (insert j got)
    · rw [if_pos hc, if_pos (hiff.mpr hc), htotal, if_pos (hc _ (by have := d.positive; omega))]
    · rw [if_neg hc, if_neg fun h => hc (hiff.mp h)]
  · have hne : hs' ≠ [] := fun h => hnc ((missing_nil_iff d _ hs' hmis).mp h)
    exact ⟨hs', ⟨hord, hrec.linked hne, hne⟩, hmis, hbelow, hholds, hrec.totalLen.trans htotal,
      hrec.id.trans hp.id⟩

/-- A missing fragment at its place. -/
theorem new_arrival (d : Datagram) (s : State) (got : Finset ℕ) (pre post : List (ℕ × ℕ))
    (i l j off8 len : ℕ) (ip : Bytes) (hp : Progress d s got (pre ++ (i, l)::post))
    (hf : IsFragment d j ip) (hoff : 8*off8 = d.bound j) (hlen : 8*off8+len = d.bound (j+1))
    (hpre : ∀ x ∈ pre, x.2 < 8*off8) (hl : 8*off8 ≤ l) (hj : j ∉ got) (hnot : ¬SecondRun got j) :
    Arrival d (receive s i off8 len (decide (j+1 < d.count)) ip) (insert j got) := by
  have hord := hp.rep.ordered
  have hsize := d.size
  have hmax : ipMaxudp = 16464 := rfl
  have hjc := hf.lt
  obtain ⟨-, -, -, -, -, -, hpost, -⟩ := ordered_parts pre post i l hord
  obtain ⟨a, b, hr, haj, hjb⟩ := new_hit d got pre post i l j hord hp.missing hjc hj (hoff ▸ hpre)
    (hoff ▸ hl)
  have hle := hr.le
  have hstart : 8*i = d.bound a := hr.start
  have hlim : l = stop d b := hr.limit
  have hcut := cut_le_iff d got i l j off8 len hlen a b hr hjb
  have hai := bound_mono d a j haj hjc.le
  have hstep := d.bound_lt j hjc
  have hend := bound_mono d (j+1) d.count hjc le_rfl
  have hhit : Hit pre i l off8 len := ⟨hpre, hl, by omega⟩
  have hstop : d.bound (j+1) ≤ l := by
    rw [hlim, stop]
    split_ifs with hc
    · omega
    · exact bound_mono d (j+1) b hjb hle
  have hroom : Room l post off8 len (decide (j+1 < d.count)) := by
    constructor
    · intro n hn
      obtain ⟨q, hq, rfl⟩ := List.mem_map.mp hn
      have := hpost q hq
      omega
    · intro hm _
      have hm' := of_decide_eq_true hm
      have h1 := d.aligned (j+1) hm'
      have h2 := bound_strict d (j+1) d.count hm' le_rfl
      omega
  have hrec := receive_received s pre post i l off8 len (decide (j+1 < d.count)) ip hp.rep (by omega)
    hhit hroom
  refine progress_received d s got _ _ _ j off8 len ip _ hp hf hoff hlen hrec
    (updated_ordered pre post i l off8 len _ hord hhit hroom (by omega))
    (updated_missing d got pre post i l j hord hp.missing hjc off8 len hoff hlen a b hr haj hjb hnot) ?_
  intro n hn
  unfold fresh at hn
  split_ifs at hn with h
  · cases hn
  · rw [List.mem_singleton] at hn
    have hb : b ≠ j+1 := fun hb => h (hcut.mpr hb)
    have hal := d.aligned (j+1) (by omega)
    refine ⟨j+1, b, l, by omega, hle, by simp only; omega, hlim, fun k h1 h2 => ?_, hr.maximal⟩
    exact hr.missing k (by omega) h2

/-- A fragment that has come before and touches the hole in front of it. -/
theorem old_arrival (d : Datagram) (s : State) (got : Finset ℕ) (pre post : List (ℕ × ℕ))
    (i l j off8 len : ℕ) (ip : Bytes) (hp : Progress d s got (pre ++ (i, l)::post))
    (hf : IsFragment d j ip) (hoff : 8*off8 = d.bound j) (hlen : 8*off8+len = d.bound (j+1))
    (hpre : ∀ x ∈ pre, x.2 < 8*off8) (hl : 8*off8 ≤ l) (hj : j ∈ got)
    (hov : 8*i < d.bound (j+1)) :
    Arrival d (receive s i off8 len (decide (j+1 < d.count)) ip) (insert j got) := by
  have hord := hp.rep.ordered
  have hsize := d.size
  have hmax : ipMaxudp = 16464 := rfl
  have hjc := hf.lt
  have hend := bound_mono d (j+1) d.count hjc le_rfl
  obtain ⟨hlj, hil, hpost⟩ := old_hit d got pre post i l j hord hp.missing hjc hj (by omega) hov
  have hhit : Hit pre i l off8 len := ⟨hpre, hl, by omega⟩
  have hroom : Room l post off8 len (decide (j+1 < d.count)) := by
    refine ⟨fun n hn => ?_, fun _ h => by omega⟩
    obtain ⟨q, hq, rfl⟩ := List.mem_map.mp hn
    have := hpost q hq
    omega
  have hcut : cut l off8 len (decide (j+1 < d.count)) ≤ 8*off8+len := by
    unfold cut
    split_ifs <;> omega
  have hrec := receive_received s pre post i l off8 len (decide (j+1 < d.count)) ip hp.rep (by omega)
    hhit hroom
  have hsame : updated pre i (cut l off8 len (decide (j+1 < d.count))) post off8 len =
      pre ++ (i, l)::post := by
    rw [updated, if_neg (fun h => by omega), if_pos hcut, hoff, hlj]
  rw [hsame, fresh, if_pos hcut] at hrec
  exact progress_received d s got _ _ [] j off8 len ip _ hp hf hoff hlen hrec hord
    (by rw [Finset.insert_eq_of_mem hj]; exact hp.missing) (by simp)

theorem place_arrival (d : Datagram) (s : State) (got : Finset ℕ) (hs : List (ℕ × ℕ)) (j : ℕ)
    (ip : Bytes) (hp : Progress d s got hs) (hf : IsFragment d j ip) (hnot : ¬SecondRun got j) :
    ∃ r, place s ip = some r ∧ Arrival d r (insert j got) := by
  have hjc := hf.lt
  have hoff := hf.offset
  have hstep := d.bound_lt j hjc
  obtain ⟨len, hlen⟩ : ∃ len, 8*offset8 ip+len = d.bound (j+1) := ⟨d.bound (j+1)-d.bound j, by omega⟩
  have hfl : fragLen ip = (len : ℕ) := by
    rw [fragLen, hf.len]
    push_cast
    omega
  have hdiv : ((len : ℤ)+7).tdiv 8 = ((len+7)/8 : ℕ) := by
    rw [Int.tdiv_eq_ediv_of_nonneg (by omega)]
    omega
  rcases split_at hs (8*offset8 ip) with hall | ⟨pre, i, l, post, rfl, hpre, hl⟩
  · refine ⟨_, place_beyond s ip hs hp.rep hall, progress_same d s got hs j _ hp ?_⟩
    by_contra hj
    obtain ⟨p, hpm, -, h2⟩ := hp.missing.all j hjc hj
    have := hall p hpm
    omega
  refine ⟨_, place_found s ip pre post i l hp.rep hpre hl, ?_⟩
  by_cases hov : 8*i < d.bound (j+1)
  · rw [hfl, hf.more]
    have harr : Arrival d (receive s i (offset8 ip) len (decide (j+1 < d.count)) ip)
        (insert j got) := by
      by_cases hj : j ∈ got
      · exact old_arrival d s got pre post i l j _ len ip hp hf hoff hlen hpre hl hj hov
      · exact new_arrival d s got pre post i l j _ len ip hp hf hoff hlen hpre hl hj hnot
    exact ⟨harr.packet, harr.holds, harr.next⟩
  · rw [receive_missed s i _ _ _ ip (by rw [hfl, hdiv]; omega)]
    refine progress_same d s got _ j _ hp ?_
    by_contra hj
    obtain ⟨a, b, hr, haj, -⟩ := new_hit d got pre post i l j hp.rep.ordered hp.missing hjc hj
      (hoff ▸ hpre) (hoff ▸ hl)
    have h1 : 8*i = d.bound a := hr.start
    have h2 := bound_mono d a j haj hjc.le
    omega

/-! ## Runs -/

structure Assembly where
  state : State
  got : Finset ℕ

/-- The arrival of a packet with a fragment. -/
def arrive (d : Datagram) (s : Assembly) (e : ℕ × Bytes) (s' : Assembly) : Prop :=
  IsFragment d e.1 e.2 ∧
    ∃ r, defragment s.state e.2 = some r ∧ s' = ⟨r.state, insert e.1 s.got⟩

/-- The datagram is not complete, and the fragment does not start the second
missing run while the first fragment is missing. -/
def Allowed (d : Datagram) (s : Assembly) (e : ℕ × Bytes) : Prop :=
  ¬Complete d s.got ∧ ¬SecondRun s.got e.1

/-- No datagram with this identification was the last one to be assembled. -/
def Fresh (d : Datagram) (s : State) : Prop := s.totalLen = 0 ∨ ipId s.header ≠ d.id

structure Assembling (d : Datagram) (s : Assembly) : Prop where
  start : s.got = ∅ → Fresh d s.state
  progress : s.got ≠ ∅ → ¬Complete d s.got → ∃ hs, Progress d s.state s.got hs

theorem fragment_near (d : Datagram) (j : ℕ) (ip : Bytes) (hf : IsFragment d j ip) :
    ¬tooFar (offset8 ip) (fragLen ip) := by
  have hsize := d.size
  have hoff := hf.offset
  have hstep := d.bound_lt j hf.lt
  have hend := bound_mono d (j+1) d.count hf.lt le_rfl
  unfold tooFar
  rw [fragLen, hf.len]
  push_cast
  omega

theorem reset_progress (d : Datagram) (s : State) (j : ℕ) (ip : Bytes) (hf : IsFragment d j ip) :
    Progress d (reset s ip) ∅ [(0, 65535)] :=
  ⟨reset_rep s ip, missing_all d, by simp, by simp [Holds], by simp [reset],
    (copyIn_header s.header ip).trans hf.id⟩

theorem progress_not_new (d : Datagram) (s : State) (got : Finset ℕ) (hs : List (ℕ × ℕ)) (j : ℕ)
    (ip : Bytes) (hp : Progress d s got hs) (hf : IsFragment d j ip) : ¬isNew s ip := by
  rintro (h | h)
  · have h1 := hp.total
    have h2 := bound_strict d 0 d.count d.positive le_rfl
    rw [h] at h1
    split_ifs at h1
    omega
  · exact h (hp.id.trans hf.id.symm)

theorem defragment_arrival (d : Datagram) (s : Assembly) (j : ℕ) (ip : Bytes)
    (hs : Assembling d s) (hf : IsFragment d j ip) (hok : Allowed d s (j, ip)) :
    ∃ r, defragment s.state ip = some r ∧ Arrival d r (insert j s.got) := by
  unfold defragment
  rw [if_neg (fragment_near d j ip hf)]
  by_cases hgot : s.got = ∅
  · have hnew : isNew s.state ip := by
      rcases hs.start hgot with h | h
      · exact .inl h
      · exact .inr fun he => h (he.trans hf.id)
    obtain ⟨r, hr, harr⟩ := place_arrival d (reset s.state ip) ∅ _ j ip
      (reset_progress d s.state j ip hf) hf (hgot ▸ hok.2)
    rw [if_pos hnew, hr, hgot]
    exact ⟨_, rfl, harr.packet, harr.holds, harr.next⟩
  · obtain ⟨hl, hp⟩ := hs.progress hgot hok.1
    rw [if_neg (progress_not_new d s.state s.got hl j ip hp hf)]
    exact place_arrival d s.state s.got hl j ip hp hf hok.2

theorem arrive_assembling (d : Datagram) (s : Assembly) (e : ℕ × Bytes) (s' : Assembly)
    (hs : Assembling d s) (hok : Allowed d s e) (hstep : arrive d s e s') : Assembling d s' := by
  obtain ⟨hf, r, hr, rfl⟩ := hstep
  obtain ⟨r', hr', harr⟩ := defragment_arrival d s e.1 e.2 hs hf hok
  rw [hr] at hr'
  cases hr'
  exact ⟨fun h => absurd h (Finset.insert_ne_empty _ _), fun _ hc => harr.next hc⟩

/-- Until the datagram is complete nothing is returned; the arrival that
completes it returns its payload. -/
theorem reassembly_correct (d : Datagram) (s₀ : State) (hfresh : Fresh d s₀) (s : Assembly)
    (hreach : Reach (arrive d) (Allowed d) ⟨s₀, ∅⟩ s) (j : ℕ) (ip : Bytes)
    (hf : IsFragment d j ip) (hok : Allowed d s (j, ip)) :
    ∃ r, defragment s.state ip = some r ∧
      (¬Complete d (insert j s.got) → r.packet = none) ∧
      (Complete d (insert j s.got) → r.packet = some (d.bound d.count+ipHdrSize) ∧
        ∀ x < d.bound d.count, r.state.payload x = d.payload x) := by
  have hs : Assembling d s := reach_invariant _ _ (Assembling d)
    (fun s e s' hs hok hstep => arrive_assembling d s e s' hs hok hstep) ⟨s₀, ∅⟩ s
    ⟨fun _ => hfresh, fun h => absurd rfl h⟩ hreach
  obtain ⟨r, hr, harr⟩ := defragment_arrival d s j ip hs hf hok
  refine ⟨r, hr, fun hc => harr.packet.trans (if_neg hc), fun hc => ⟨harr.packet.trans (if_pos hc),
    fun x hx => ?_⟩⟩
  obtain ⟨k, hk, h1, h2⟩ := fragment_of d x hx
  exact harr.holds k (hc k hk) x h1 h2

/-- 24 bytes in three fragments. -/
def threeParts : Datagram where
  id := 7
  payload := fun x => UInt8.ofNat (x+1)
  count := 3
  bound := fun k => 8*k
  positive := by decide
  bound_zero := rfl
  bound_lt := fun k _ => by omega
  aligned := fun k _ => by omega
  size := by decide

def part (j : ℕ) : Bytes := fun x =>
  if x < 20 then [0x45, 0, 0, 28, 0, 7, if j < 2 then 0x20 else 0, UInt8.ofNat j].getD x 0
  else threeParts.payload (8*j+(x-20))

theorem part_isFragment : ∀ j < 3, IsFragment threeParts j (part j) := by
  intro j hj
  have h : j = 0 ∨ j = 1 ∨ j = 2 := by omega
  rcases h with rfl | rfl | rfl <;>
    exact ⟨by decide, by decide, by decide, by decide, by decide, by decide⟩

theorem reassembly_correct_in_order :
    ∃ s, Reach (arrive threeParts) (Allowed threeParts) ⟨zeroed, ∅⟩ s ∧ ∃ r,
      defragment s.state (part 2) = some r ∧ r.packet = some 44 ∧
      ∀ x < 24, r.state.payload x = UInt8.ofNat (x+1) := by
  have hfresh : Fresh threeParts zeroed := .inl rfl
  have hfirst : ∀ got j, j ≤ 1 → ¬SecondRun got j := by
    rintro got j hj ⟨-, b, h1, h2, -⟩
    omega
  -- the fragments before the last one return nothing
  have hok0 : Allowed threeParts ⟨zeroed, ∅⟩ (0, part 0) := ⟨by decide, hfirst _ 0 (by decide)⟩
  obtain ⟨r0, h0, -, -⟩ := reassembly_correct threeParts zeroed hfresh ⟨zeroed, ∅⟩ .refl 0 (part 0)
    (part_isFragment 0 (by decide)) hok0
  have hreach0 := reach_next (arrive threeParts) (Allowed threeParts) _ _ ⟨r0.state, {0}⟩ (0, part 0) .refl
    ⟨part_isFragment 0 (by decide), r0, h0, rfl⟩ hok0
  have hok1 : Allowed threeParts ⟨r0.state, {0}⟩ (1, part 1) :=
    ⟨show ¬Complete threeParts {0} by decide, hfirst _ 1 (by decide)⟩
  obtain ⟨r1, h1, -, -⟩ := reassembly_correct threeParts zeroed hfresh _ hreach0 1 (part 1)
    (part_isFragment 1 (by decide)) hok1
  have hreach1 := reach_next (arrive threeParts) (Allowed threeParts) _ _ ⟨r1.state, {1, 0}⟩ (1, part 1) hreach0
    ⟨part_isFragment 1 (by decide), r1, h1, rfl⟩ hok1
  have hok2 : Allowed threeParts ⟨r1.state, {1, 0}⟩ (2, part 2) := by
    refine ⟨show ¬Complete threeParts {1, 0} by decide, ?_⟩
    rintro ⟨-, b, h1, -, h3, -⟩
    exact h3 0 h1 (by simp)
  obtain ⟨r2, h2, -, hdone⟩ := reassembly_correct threeParts zeroed hfresh _ hreach1 2 (part 2)
    (part_isFragment 2 (by decide)) hok2
  exact ⟨_, hreach1, r2, h2, hdone (show Complete threeParts {2, 1, 0} by decide)⟩

/-- The middle and the last fragment make a packet without the first one. -/
theorem missing_start_returned : ¬∀ (d : Datagram) (s : Assembly),
    Reach (arrive d) (fun _ _ => True) ⟨zeroed, ∅⟩ s → ∀ j ip, IsFragment d j ip →
    ∃ r, defragment s.state ip = some r ∧
      (r.packet.isSome ↔ ¬Complete d s.got ∧ Complete d (insert j s.got)) ∧
      (Complete d (insert j s.got) → ∀ x < d.bound d.count, r.state.payload x = d.payload x) := by
  intro h
  have hrun : ((defragment zeroed (part 1)).bind fun r => defragment r.state (part 2)).map
      (·.packet) = some (some 44) := by
    decide +kernel
  obtain ⟨r1, h1, -⟩ := h threeParts ⟨zeroed, ∅⟩ .refl 1 (part 1) (part_isFragment 1 (by decide))
  have hreach := reach_next (arrive threeParts) (fun _ _ => True) _ _ ⟨r1.state, {1}⟩ (1, part 1) .refl
    ⟨part_isFragment 1 (by decide), r1, h1, rfl⟩ trivial
  obtain ⟨r2, h2, hiff, -⟩ := h threeParts _ hreach 2 (part 2) (part_isFragment 2 (by decide))
  rw [h1, Option.bind_some, h2, Option.map_some, Option.some_inj] at hrun
  rw [hrun] at hiff
  exact absurd (hiff.mp rfl).2 (show ¬Complete threeParts {2, 1} by decide)

end UBoot.Defrag
