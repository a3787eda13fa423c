import UBoot.LmbRuns

/-!
# The search of `__lmb_alloc_base`

A place for an allocation is an aligned range in a memory region, below the limit and
apart from what is reserved. The search finds the highest place that does not start
at 0. It may leave the memory when the limit is below the size, where a subtraction
wraps, and when a region reaches the end of the address space.
-/

set_option autoImplicit false

namespace UBoot.LogicalBlocks

/-- No region begins before the end of one before it. -/
def Ordered (t : Table) : Prop :=
  ∀ i j, i < j → j < t.cnt → (t.region i).base+(t.region i).size ≤ (t.region j).base

/-- The range of an allocation shares no address with a region. -/
def Apart (base size : ℕ) (r : Range) : Prop := Disjoint (Set.Ico base (base+size)) r.addresses

/-- Where an allocation can go. -/
structure Place (l : Lmb) (size align maxAddr base : ℕ) : Prop where
  aligned : align ∣ base
  inside : ∃ i < l.memory.cnt, (l.memory.region i).base ≤ base ∧
    base+size ≤ (l.memory.region i).base+(l.memory.region i).size
  below : maxAddr ≠ 0 → base+size ≤ maxAddr
  apart : ∀ j < l.reserved.cnt, Apart base size (l.reserved.region j)

/-- The limit leaves room for the size, or rules out every region that has room. -/
def LimitOk (l : Lmb) (size maxAddr : ℕ) : Prop :=
  maxAddr = 0 ∨ size ≤ maxAddr ∨
    ∀ i < l.memory.cnt, (l.memory.region i).base < maxAddr → (l.memory.region i).size < size

/-! ## Rounding down -/

theorem alignDown_eq (k addr : ℕ) (hk : k < 32) (ha : addr < 4294967296) :
    alignDown addr (2^k) = addr/2^k*2^k := by
  have hp : 2^k ≤ 2147483648 := Nat.pow_le_pow_right (by decide) (show k ≤ 31 by omega)
  have hpos : 0 < 2^k := Nat.two_pow_pos k
  have hmask : 4294967295-minus (2^k) 1 = 2^k*(2^(32-k)-1) := by
    rw [minus_of_le _ _ hpos (by omega), Nat.mul_sub, ← Nat.pow_add, show k+(32-k) = 32 by omega]
    omega
  rw [alignDown, hmask]
  apply Nat.eq_of_testBit_eq
  intro i
  rw [Nat.testBit_and, Nat.testBit_two_pow_mul, Nat.testBit_two_pow_sub_one, Nat.mul_comm (addr/2^k),
    Nat.testBit_two_pow_mul, Nat.testBit_div_two_pow]
  by_cases hi : k ≤ i
  · rw [decide_eq_true hi, Bool.true_and, Bool.true_and, show i-k+k = i by omega]
    by_cases hlt : i < 32
    · rw [decide_eq_true (by omega), Bool.and_true]
    · have hbig : addr < 2^i :=
        lt_of_lt_of_le (show addr < 2^32 from ha) (Nat.pow_le_pow_right Nat.two_pos (by omega))
      rw [Nat.testBit_lt_two_pow hbig, Bool.false_and]
  · rw [decide_eq_false hi, Bool.false_and, Bool.false_and, Bool.and_false]

theorem alignDown_dvd (k addr : ℕ) (hk : k < 32) (ha : addr < 4294967296) :
    2^k ∣ alignDown addr (2^k) := by
  rw [alignDown_eq k addr hk ha]
  exact Nat.dvd_mul_left _ _

/-- An aligned address at or below an address is at or below it rounded down. -/
theorem le_alignDown (k p addr : ℕ) (hk : k < 32) (ha : addr < 4294967296) (hp : 2^k ∣ p)
    (hle : p ≤ addr) : p ≤ alignDown addr (2^k) := by
  rw [alignDown_eq k addr hk ha]
  obtain ⟨c, rfl⟩ := hp
  rw [Nat.mul_comm (2^k) c]
  apply Nat.mul_le_mul_right
  rw [Nat.le_div_iff_mul_le (Nat.two_pow_pos k), Nat.mul_comm]
  exact hle

/-! ## One memory region -/

theorem overlapsRegion_none (region : ℕ → Range) (base size i n : ℕ)
    (h : overlapsRegion region base size i n = none) :
    ∀ j, i ≤ j → j < i+n → ¬addrsOverlap base size (region j).base (region j).size := by
  induction n generalizing i with
  | zero =>
    intro j h1 h2
    omega
  | succ n ih =>
    rw [overlapsRegion] at h
    split_ifs at h with h1
    intro j hj1 hj2
    by_cases hj : j = i
    · rw [hj]
      exact h1
    · exact ih (i+1) h j (by omega) (by omega)

theorem overlapsRegion_lt (region : ℕ → Range) (base size i n j : ℕ)
    (h : overlapsRegion region base size i n = some j) : j < i+n := by
  induction n generalizing i with
  | zero => cases h
  | succ n ih =>
    rw [overlapsRegion] at h
    split_ifs at h with h1
    · cases h
      omega
    · have := ih (i+1) h
      omega

theorem apart_of_sides (base size : ℕ) (r : Range)
    (h : base+size ≤ r.base ∨ r.base+r.size ≤ base) : Apart base size r := by
  rw [Apart, Range.addresses, Set.disjoint_left]
  intro x h1 h2
  rw [Set.mem_Ico] at h1 h2
  omega

theorem apart_of_not_overlap (base size : ℕ) (r : Range) (hb : base+size < 4294967296)
    (hr : r.base+r.size < 4294967296) (h : ¬addrsOverlap base size r.base r.size) :
    Apart base size r := by
  unfold addrsOverlap at h
  rw [word_of_lt _ hb, word_of_lt _ hr] at h
  apply apart_of_sides
  omega

/-- A range apart from a region lies on one side of it. -/
theorem Apart.sides (base size : ℕ) (r : Range) (hs : 0 < size) (hr : 0 < r.size ∨ r.base = 0)
    (h : Apart base size r) : base+size ≤ r.base ∨ r.base+r.size ≤ base := by
  rw [Apart, Range.addresses, Set.disjoint_left] at h
  by_contra hc
  exact h (show max base r.base ∈ Set.Ico base (base+size) by rw [Set.mem_Ico]; omega)
    (show max base r.base ∈ Set.Ico r.base (r.base+r.size) by rw [Set.mem_Ico]; omega)

section Down

variable (t : Table) (lmbbase size k : ℕ) (hk : k < 32)

/-- The next place to be tried lies below the region that was in the way. -/
theorem next_below (j base : ℕ) (hj : overlapsRegion t.region base size 0 t.cnt = some j)
    (hs : ¬(t.region j).base < size) :
    minus (t.region j).base size = (t.region j).base-size ∧ (t.region j).base-size < base ∧
      (t.region j).base < 4294967296 := by
  have hover := (overlapsRegion_some t.region base size 0 t.cnt j hj).2
  have hmod : word (base+size) ≤ base+size := Nat.mod_le _ _
  have hlt : word (base+size) < 4294967296 := Nat.mod_lt _ (by decide)
  refine ⟨minus_of_le _ _ (by omega) (by omega), by omega, by omega⟩

include hk

theorem searchDown_found (fuel base b : ℕ) (hb : 2^k ∣ b)
    (h : searchDown t lmbbase size (2^k) fuel b = some (some base)) :
    base ≤ b ∧ base ≠ 0 ∧ lmbbase ≤ base ∧ 2^k ∣ base ∧
      overlapsRegion t.region base size 0 t.cnt = none := by
  induction fuel generalizing b with
  | zero => cases h
  | succ fuel ih =>
    rw [searchDown] at h
    split_ifs at h with h0
    · simp at h
    cases hj : overlapsRegion t.region b size 0 t.cnt with
    | none =>
      rw [hj] at h
      obtain rfl : b = base := by simpa using h
      exact ⟨le_rfl, by omega, by omega, hb, hj⟩
    | some j =>
      rw [hj] at h
      simp only at h
      split_ifs at h with h1
      · simp at h
      obtain ⟨hm, hlt, hw⟩ := next_below t size j b hj h1
      rw [hm] at h
      obtain ⟨h2, h3⟩ := ih _ (alignDown_dvd k _ hk (by omega)) h
      have := alignDown_le ((t.region j).base-size) (2^k)
      exact ⟨by omega, h3⟩

/-- Every free place at or below the first one is at or below the one that is found. -/
theorem searchDown_highest (fuel b p : ℕ) (hf : b < fuel) (hs : 0 < size)
    (hwrap : b+size < 4294967296) (hfit : Fits t)
    (hne : ∀ j < t.cnt, 0 < (t.region j).size ∨ (t.region j).base = 0) (hp0 : p ≠ 0)
    (hlow : lmbbase ≤ p) (hle : p ≤ b) (hal : 2^k ∣ p)
    (hfree : ∀ j < t.cnt, Apart p size (t.region j)) :
    ∃ base, searchDown t lmbbase size (2^k) fuel b = some (some base) ∧ p ≤ base := by
  induction fuel generalizing b with
  | zero => omega
  | succ fuel ih =>
    rw [searchDown, if_neg (by omega)]
    cases hj : overlapsRegion t.region b size 0 t.cnt with
    | none => exact ⟨b, rfl, hle⟩
    | some j =>
      have hjlt := overlapsRegion_lt t.region b size 0 t.cnt j hj
      rw [Nat.zero_add] at hjlt
      have hover := overlapsRegion_some t.region b size 0 t.cnt j hj
      unfold addrsOverlap at hover
      rw [word_of_lt _ (hfit j hjlt)] at hover
      -- the free place is not behind this region, as the range tried begins before its end
      have hbelow : p+size ≤ (t.region j).base := by
        obtain h | h := (hfree j hjlt).sides _ _ _ hs (hne j hjlt)
        · exact h
        · omega
      simp only
      rw [if_neg (by omega)]
      obtain ⟨hm, hlt, hw⟩ := next_below t size j b hj (by omega)
      rw [hm]
      have hdown := alignDown_le ((t.region j).base-size) (2^k)
      exact ih _ (by omega) (by omega) (le_alignDown k p _ hk (by omega) hal (by omega))

end Down

/-! ## All memory regions -/

section Regions

variable (l : Lmb) (size k maxAddr : ℕ) (hk : k < 32)

include hk

theorem topBase_spec (i b : ℕ) (hi : i < l.memory.cnt) (hfit : Fits l.memory)
    (hlim : LimitOk l size maxAddr) (h : topBase (l.memory.region i) size (2^k) maxAddr = some b) :
    2^k ∣ b ∧ b+size ≤ (l.memory.region i).base+(l.memory.region i).size ∧
      (maxAddr ≠ 0 → b+size ≤ maxAddr) := by
  have hend := hfit i hi
  unfold topBase at h
  rw [word_of_lt _ hend] at h
  split_ifs at h with h1 h2 h3
  · obtain rfl := Option.some.inj h
    rw [minus_of_le _ _ (by omega) hend]
    have := alignDown_le ((l.memory.region i).base+(l.memory.region i).size-size) (2^k)
    exact ⟨alignDown_dvd k _ hk (by omega), by omega, fun hm => absurd h2 hm⟩
  · have hsize : size ≤ maxAddr := by
      obtain hl | hl | hl := hlim
      · exact absurd hl h2
      · exact hl
      · exact absurd (hl i hi h3) h1
    obtain rfl := Option.some.inj h
    rw [minus_of_le _ _ (by omega) (by omega)]
    have := alignDown_le (min ((l.memory.region i).base+(l.memory.region i).size) maxAddr-size) (2^k)
    exact ⟨alignDown_dvd k _ hk (by omega), by omega, fun _ => by omega⟩

theorem searchRegions_found (n base : ℕ) (hn : n ≤ l.memory.cnt) (hfm : Fits l.memory)
    (hfr : Fits l.reserved) (hlim : LimitOk l size maxAddr)
    (h : searchRegions l size (2^k) maxAddr n = some (some base)) :
    base ≠ 0 ∧ Place l size (2^k) maxAddr base ∧ ∃ i < n, (l.memory.region i).base ≤ base := by
  induction n with
  | zero => simp [searchRegions] at h
  | succ n ih =>
    have hlater : searchRegions l size (2^k) maxAddr n = some (some base) →
        base ≠ 0 ∧ Place l size (2^k) maxAddr base ∧ ∃ i < n+1, (l.memory.region i).base ≤ base := by
      intro h
      obtain ⟨h1, h2, i, h3, h4⟩ := ih (by omega) h
      exact ⟨h1, h2, i, by omega, h4⟩
    rw [searchRegions] at h
    cases ht : topBase (l.memory.region n) size (2^k) maxAddr with
    | none =>
      rw [ht] at h
      exact hlater h
    | some b =>
      rw [ht] at h
      simp only at h
      cases hd : searchDown l.reserved (l.memory.region n).base size (2^k) (b+1) b with
      | none =>
        rw [hd] at h
        cases h
      | some r =>
        rw [hd] at h
        cases r with
        | none => exact hlater h
        | some b' =>
          obtain rfl : b' = base := by simpa using h
          obtain ⟨g1, g2, g3⟩ := topBase_spec l size k maxAddr hk n b (by omega) hfm hlim ht
          obtain ⟨d1, d2, d3, d4, d5⟩ := searchDown_found l.reserved _ size k hk _ _ _ g1 hd
          have hend := hfm n (by omega)
          refine ⟨d2, ⟨d4, ⟨n, by omega, d3, by omega⟩, fun hm => ?_, fun j hj => ?_⟩, n, by omega, d3⟩
          · have := g3 hm
            omega
          · exact apart_of_not_overlap _ _ _ (by omega) (hfr j hj)
              (overlapsRegion_none _ _ _ _ _ d5 j (Nat.zero_le j) (by omega))

end Regions

/-! ## The allocation -/

theorem addRegion_neg (t t' : Table) (base size : ℕ) (r : ℤ)
    (h : addRegion t base size = some (r, t')) (hr : r < 0) :
    t' = t ∧ maxLmbRegions ≤ t.cnt ∧ scan t.region base size 0 t.cnt = .fresh := by
  have hmap : ∀ (o : Option Table) (x : ℤ), 0 ≤ x → (o.map fun t' => (x, t')) ≠ some (r, t') := by
    intro o x hx ho
    obtain ⟨t1, -, h2⟩ := Option.map_eq_some_iff.mp ho
    have := congrArg Prod.fst h2
    simp only at this
    omega
  have hpair : ∀ (x : ℤ) (t1 : Table), 0 ≤ x → some (x, t1) ≠ some (r, t') := by
    intro x t1 hx ho
    have := congrArg Prod.fst (Option.some.inj ho)
    simp only at this
    omega
  unfold addRegion at h
  by_cases h0 : t.cnt = 1 ∧ (t.region 0).size = 0
  · rw [if_pos h0] at h
    exact absurd h (hpair _ _ (by decide))
  rw [if_neg h0] at h
  cases hs : scan t.region base size 0 t.cnt with
  | present =>
    rw [hs] at h
    exact absurd h (hpair _ _ (by decide))
  | grown i x =>
    rw [hs] at h
    simp only at h
    split_ifs at h
    · exact absurd h (hmap _ _ (by decide))
    · exact absurd h (hpair _ _ (by decide))
  | fresh =>
    rw [hs] at h
    simp only at h
    split_ifs at h with h1 h2
    · exact absurd h (hmap _ _ (by decide))
    · exact ⟨(congrArg Prod.snd (Option.some.inj h)).symm, h2, rfl⟩
    · exact absurd h (hpair _ _ (by decide))

/-- How an allocation ends. -/
theorem allocBase_cases (l l' : Lmb) (size align maxAddr base : ℕ)
    (h : allocBase l size align maxAddr = some (base, l')) :
    (searchRegions l size align maxAddr l.memory.cnt = some none ∧ base = 0 ∧ l' = l) ∨
      ∃ b, searchRegions l size align maxAddr l.memory.cnt = some (some b) ∧
        (∃ r, addRegion l.reserved b (alignUp size align) = some (r, l'.reserved)) ∧
        (base = b ∨ base = 0 ∧ l' = l ∧ maxLmbRegions ≤ l.reserved.cnt) := by
  unfold allocBase at h
  cases hs : searchRegions l size align maxAddr l.memory.cnt with
  | none =>
    rw [hs] at h
    cases h
  | some o =>
    rw [hs] at h
    cases o with
    | none =>
      obtain ⟨rfl, rfl⟩ := Prod.mk.inj (Option.some.inj h)
      exact .inl ⟨rfl, rfl, rfl⟩
    | some b =>
      right
      simp only at h
      refine ⟨b, rfl, ?_⟩
      -- a table without an entry left stays as it is
      cases ha : addRegion l.reserved b (alignUp size align) with
      | none =>
        rw [ha] at h
        cases h
      | some x =>
        obtain ⟨r, t⟩ := x
        rw [ha] at h
        simp only [Option.some_inj, Prod.mk.injEq] at h
        obtain ⟨h1, h2⟩ := h
        refine ⟨⟨r, by rw [← h2]⟩, ?_⟩
        by_cases hr : r < 0
        · obtain ⟨rfl, hfull, -⟩ := addRegion_neg _ _ _ _ _ ha hr
          rw [if_pos hr] at h1
          exact .inr ⟨h1.symm, h2.symm, hfull⟩
        · rw [if_neg hr] at h1
          exact .inl h1.symm

/-- What is allocated is a place, and a failure changes nothing. -/
def AllocSound (l : Lmb) (size align maxAddr : ℕ) : Prop :=
  ∀ base l', allocBase l size align maxAddr = some (base, l') →
    (base ≠ 0 → Place l size align maxAddr base) ∧ (base = 0 → l' = l)

/-- One region of memory and nothing reserved. -/
def oneRegion (base size : ℕ) : Lmb := ⟨⟨1, fun _ => ⟨base, size⟩⟩, tableInit ⟨0, fun _ => ⟨0, 0⟩⟩⟩

theorem oneRegion_fits (base size : ℕ) (h : base+size < 4294967296) :
    Fits (oneRegion base size).memory ∧ Fits (oneRegion base size).reserved := by
  refine ⟨fun _ _ => h, fun i hi => ?_⟩
  obtain rfl : i = 0 := Nat.lt_one_iff.mp hi
  exact Nat.zero_lt_succ _

/-- What the search relies on: regions in order and in the address space, a size, a
limit that is not below it, and a free entry. -/
structure Regular (l : Lmb) (size maxAddr : ℕ) : Prop where
  memory : Ordered l.memory
  fits : Fits l.memory ∧ Fits l.reserved
  nonempty : ∀ j < l.reserved.cnt, 0 < (l.reserved.region j).size ∨ (l.reserved.region j).base = 0
  wanted : 0 < size
  limit : LimitOk l size maxAddr
  slot : l.reserved.cnt < maxLmbRegions

theorem topBase_above (l : Lmb) (size k maxAddr i p : ℕ) (hk : k < 32) (hreg : Regular l size maxAddr)
    (hi : i < l.memory.cnt) (hal : 2^k ∣ p) (hlow : (l.memory.region i).base ≤ p)
    (hhigh : p+size ≤ (l.memory.region i).base+(l.memory.region i).size)
    (hmax : maxAddr ≠ 0 → p+size ≤ maxAddr) :
    ∃ b, topBase (l.memory.region i) size (2^k) maxAddr = some b ∧ p ≤ b := by
  have hend := hreg.fits.1 i hi
  have hs := hreg.wanted
  unfold topBase
  rw [word_of_lt _ hend, if_neg (by omega)]
  split_ifs with h2 h3
  · rw [minus_of_le _ _ (by omega) hend]
    exact ⟨_, rfl, le_alignDown k p _ hk (by omega) hal (by omega)⟩
  · have := hmax h2
    rw [minus_of_le _ _ (by omega) (by omega)]
    exact ⟨_, rfl, le_alignDown k p _ hk (by omega) hal (by omega)⟩
  · have := hmax h2
    omega

theorem searchRegions_highest (l : Lmb) (size k maxAddr n i p : ℕ) (hk : k < 32)
    (hreg : Regular l size maxAddr) (hn : n ≤ l.memory.cnt) (hi : i < n) (hp0 : p ≠ 0)
    (hal : 2^k ∣ p) (hlow : (l.memory.region i).base ≤ p)
    (hhigh : p+size ≤ (l.memory.region i).base+(l.memory.region i).size)
    (hmax : maxAddr ≠ 0 → p+size ≤ maxAddr)
    (hfree : ∀ j < l.reserved.cnt, Apart p size (l.reserved.region j)) :
    ∃ base, searchRegions l size (2^k) maxAddr n = some (some base) ∧ p ≤ base := by
  have hs := hreg.wanted
  have hlim := hreg.limit
  induction n with
  | zero => omega
  | succ n ih =>
    rw [searchRegions]
    by_cases hin : i = n
    · -- the region of the place itself
      subst hin
      obtain ⟨b, ht, hb⟩ := topBase_above l size k maxAddr i p hk hreg (by omega) hal hlow hhigh hmax
      obtain ⟨-, g2, -⟩ := topBase_spec l size k maxAddr hk i b (by omega) hreg.fits.1 hlim ht
      have hend := hreg.fits.1 i (by omega)
      obtain ⟨base, hd, hle⟩ := searchDown_highest l.reserved _ size k hk (b+1) b p (by omega) hs
        (by omega) hreg.fits.2 hreg.nonempty hp0 hlow hb hal hfree
      rw [ht]
      simp only [hd]
      exact ⟨base, rfl, hle⟩
    · have hlater := ih (by omega) (by omega)
      cases ht : topBase (l.memory.region n) size (2^k) maxAddr with
      | none => exact hlater
      | some b =>
        obtain ⟨r, hd, -⟩ := searchDown_some l.reserved (l.memory.region n).base size (2^k) (b+1) b
          (Nat.lt_succ_self b)
        simp only [hd]
        cases r with
        | none => exact hlater
        | some base =>
          -- a region that comes later lies above the place
          obtain ⟨g1, -, -⟩ := topBase_spec l size k maxAddr hk n b (by omega) hreg.fits.1 hlim ht
          obtain ⟨-, -, d3, -, -⟩ := searchDown_found l.reserved _ size k hk _ _ _ g1 hd
          have := hreg.memory i n (by omega) (by omega)
          exact ⟨base, rfl, by omega⟩

theorem oneRegion_regular (base size wanted : ℕ) (h : base+size < 4294967296) (hw : 0 < wanted) :
    Regular (oneRegion base size) wanted 0 where
  memory := fun i j h1 h2 => absurd h2 (by simp only [oneRegion]; omega)
  fits := oneRegion_fits base size h
  nonempty := fun j hj => by
    obtain rfl : j = 0 := Nat.lt_one_iff.mp hj
    exact .inr rfl
  wanted := hw
  limit := .inl rfl
  slot := show 1 < 8 by decide

end UBoot.LogicalBlocks
