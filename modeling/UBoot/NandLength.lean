import UBoot.NandSkipBad

/-!
# The length with bad blocks: `get_len_incl_bad` and `check_skip_len`

`reach` goes from block end to block end, and `goodBytes` counts the good bytes
up to there. The length is right when the walk stops at the block that brings
the last good byte, or at the end of the device. One of the two loops looks up
the address modulo 4 GiB and stops early, the other keeps its sum in 32 bits.
-/

set_option autoImplicit false

namespace UBoot.NandLength
open UBoot.NandUtil

/-- A device whose addresses are a `loff_t`. -/
structure Device extends Nand where
  size_lt : toNand.size < 2^63

/-- An offset, which is a `loff_t`, and a length. -/
structure Area where
  offset : ℕ
  length : ℕ
  offset_lt : offset < 2^63

/-- The sum of the test has 64 bits. The turns are bounded by the blocks of the device, as each of
them goes to the next block. -/
@[grind]
def getLenLoop (d : Nand) (chip : Chip) (length : ℕ) : ℕ → ℕ → ℕ → ℕ → ℕ
  | 0, _, _, lenInclBad => lenInclBad
  | turns+1, offset, lenExclBad, lenInclBad =>
    if lenExclBad < length then
      let blockLen := d.erasesize-offset % d.erasesize
      let lenExclBad :=
        if nandBlockIsbad d chip (blockOf d offset) = 0 then lenExclBad+blockLen else lenExclBad
      let lenInclBad := lenInclBad+blockLen
      let offset := offset+blockLen
      if (offset+lenInclBad) % 2^64 ≥ d.size then lenInclBad
      else getLenLoop d chip length turns offset lenExclBad lenInclBad
    else lenInclBad

def getLenInclBad (d : Nand) (chip : Chip) (offset length : ℕ) : ℕ :=
  getLenLoop d chip length (d.blocks+1) offset 0 0

section Walk
variable (d : Nand) (chip : Chip) (offset : ℕ)

/-! ## The walk over the blocks -/

/-- The address after `j` blocks or parts of them. -/
@[grind]
def reach : ℕ → ℕ
  | 0 => offset
  | j+1 => d.next (reach j)

/-- The good bytes up to there, by a test of the block at an address. -/
@[grind]
def bytesBy (good : ℕ → Bool) : ℕ → ℕ
  | 0 => 0
  | j+1 => bytesBy good j+if good (reach d offset j) then d.next (reach d offset j)-reach d offset j else 0

def goodBytes (j : ℕ) : ℕ := bytesBy d offset (fun a => !chip.bad (a/d.erasesize)) j

/-- The good bytes as `get_len_incl_bad` looks them up. -/
def seenBytes (j : ℕ) : ℕ := bytesBy d offset (fun a => nandBlockIsbad d chip (blockOf d a) == 0) j

/-- The blocks from the offset to the end of the device. -/
def left : ℕ := d.blocks-offset/d.erasesize

theorem reach_div (j : ℕ) : reach d offset j/d.erasesize = offset/d.erasesize+j := by
  induction j with
  | zero => rfl
  | succ j ih =>
    rw [reach, Nand.next, Nat.mul_div_cancel _ (erasesize_pos d), ih, Nat.add_assoc]

theorem reach_lt (j : ℕ) : reach d offset j < reach d offset (j+1) := offset_lt_next d _

theorem reach_strictMono : StrictMono (reach d offset) := strictMono_nat_of_lt_succ (reach_lt d offset)

theorem reach_next_le (j : ℕ) : reach d offset (j+1) ≤ reach d offset j+d.erasesize := by
  have hnext := next_eq d (reach d offset j)
  rw [reach]
  omega

/-- The walk is inside of the device as long as blocks are left. -/
theorem reach_inside (j : ℕ) : reach d offset j < d.size ↔ j < left d offset := by
  have hdiv := reach_div d offset j
  rw [Nand.size, ← Nat.div_lt_iff_lt_mul (erasesize_pos d), hdiv, left]
  omega

theorem bytesBy_mono (good : ℕ → Bool) : Monotone (bytesBy d offset good) :=
  monotone_nat_of_le_succ fun j => by
    rw [bytesBy]
    exact Nat.le_add_right ..

/-- The walk to the block that brings the last byte, or to the end of the device. -/
structure Ends (good : ℕ → ℕ) (length t : ℕ) : Prop where
  inside : t ≤ left d offset
  before : ∀ j < t, good j < length
  enough : t = left d offset ∨ length ≤ good t

/-- What the early test of `get_len_incl_bad` adds up after `j` blocks. -/
def tested (j : ℕ) : ℕ := reach d offset j+(reach d offset j-offset)

/-- Where `get_len_incl_bad` stops. -/
structure Stops (length s : ℕ) : Prop where
  before : ∀ j < s, seenBytes d chip offset j < length ∧ (j = 0 ∨ tested d offset j < d.size)
  here : length ≤ seenBytes d chip offset s ∨ (0 < s ∧ d.size ≤ tested d offset s)

variable {d chip offset} {length s : ℕ}

/-- The loop goes on to the place where it stops. -/
theorem getLenLoop_stops (hsize : d.size < 2^63) (hoffset : offset < 2^63)
    (hs : Stops d chip offset length s) (turns j : ℕ) (hj : j < s) (hturns : s-j ≤ turns) :
    getLenLoop d chip length turns (reach d offset j) (seenBytes d chip offset j)
      (reach d offset j-offset) = reach d offset s-offset := by
  induction turns generalizing j with
  | zero => omega
  | succ turns ih =>
    obtain ⟨hseen, htest⟩ := hs.before j hj
    have hmono : offset ≤ reach d offset j := (reach_strictMono d offset).monotone (Nat.zero_le j)
    have hlt := reach_lt d offset j
    have hnext := next_eq d (reach d offset j)
    have hle := reach_next_le d offset j
    have hE := erasesize_le d
    have hlen : d.erasesize-reach d offset j % d.erasesize =
        reach d offset (j+1)-reach d offset j := by
      rw [reach]
      omega
    have hseen' : (if nandBlockIsbad d chip (blockOf d (reach d offset j)) = 0 then
        seenBytes d chip offset j+(reach d offset (j+1)-reach d offset j)
        else seenBytes d chip offset j) = seenBytes d chip offset (j+1) := by
      rw [seenBytes, seenBytes, bytesBy, reach]
      by_cases hgood : nandBlockIsbad d chip (blockOf d (reach d offset j)) = 0
      · rw [if_pos hgood, if_pos (by simpa using hgood)]
      · rw [if_neg hgood, if_neg (by simpa using hgood), Nat.add_zero]
    have hsmall : tested d offset (j+1) < 2^64 := by
      rw [tested]
      rcases htest with rfl | htest
      · have hzero : reach d offset 0 = offset := rfl
        omega
      · rw [tested] at htest
        omega
    have hreach : reach d offset j+(reach d offset (j+1)-reach d offset j) = reach d offset (j+1) := by
      omega
    have hincl : reach d offset j-offset+(reach d offset (j+1)-reach d offset j) =
        reach d offset (j+1)-offset := by omega
    rw [getLenLoop, if_pos hseen]
    dsimp only
    rw [hlen, hseen', hreach, hincl, ← tested, Nat.mod_eq_of_lt hsmall]
    by_cases hlast : j+1 = s
    · rw [hlast]
      split_ifs with hstop
      · rfl
      · have henough := hs.here.resolve_right (fun h => hstop h.2)
        cases turns with
        | zero => rfl
        | succ turns => rw [getLenLoop, if_neg (not_lt.mpr henough)]
    · have hgo := (hs.before (j+1) (by omega)).2
      rw [if_neg (by omega)]
      exact ih (j+1) (by omega) (by omega)

theorem stops_bound (hs : Stops d chip offset length s) : s ≤ d.blocks+1 := by
  by_contra hlong
  obtain ⟨-, htest⟩ := hs.before (d.blocks+1) (by omega)
  have hinside : ¬(d.blocks+1 < left d offset) :=
    not_lt.mpr ((Nat.sub_le ..).trans (Nat.le_succ _))
  rw [← reach_inside] at hinside
  rw [tested] at htest
  omega

theorem getLenInclBad_stops (hsize : d.size < 2^63) (hoffset : offset < 2^63)
    (hs : Stops d chip offset length s) :
    getLenInclBad d chip offset length = reach d offset s-offset := by
  by_cases hzero : s = 0
  · subst hzero
    have henough : length ≤ 0 := hs.here.resolve_right (fun h => absurd h.1 (by decide))
    rw [getLenInclBad, getLenLoop, if_neg (by omega)]
    exact (Nat.sub_self offset).symm
  · have h := getLenLoop_stops hsize hoffset hs (d.blocks+1) 0 (by omega) (by
      have := stops_bound hs
      omega)
    rw [← h, getLenInclBad]
    congr 1
    exact (Nat.sub_self offset).symm

/-- The loop always stops somewhere. -/
theorem stops_exists : ∃ s, Stops d chip offset length s := by
  have hsome : ∃ s, length ≤ seenBytes d chip offset s ∨ (0 < s ∧ d.size ≤ tested d offset s) := by
    refine ⟨left d offset+1, Or.inr ⟨Nat.succ_pos _, ?_⟩⟩
    have hout : ¬(reach d offset (left d offset+1) < d.size) := by
      rw [reach_inside]
      omega
    rw [tested]
    omega
  refine ⟨Nat.find hsome, ?_, Nat.find_spec hsome⟩
  intro j hj
  have hnot := Nat.find_min hsome hj
  rw [not_or] at hnot
  exact ⟨not_le.mp hnot.1, by omega⟩

/-! ## The check -/

theorem goodBytes_bad (j : ℕ) (hbad : chip.bad (offset/d.erasesize+j) = true) :
    goodBytes d chip offset (j+1) = goodBytes d chip offset j := by
  rw [goodBytes, goodBytes, bytesBy, reach_div, hbad]
  rfl

theorem goodBytes_good (j : ℕ) (hgood : chip.bad (offset/d.erasesize+j) = false) :
    goodBytes d chip offset (j+1) =
      goodBytes d chip offset j+(reach d offset (j+1)-reach d offset j) := by
  rw [goodBytes, goodBytes, bytesBy, reach_div, hgood]
  rfl

/-- A turn of the check. -/
theorem checkSkipLoop_step (turns j excl : ℕ) (ret : ℤ) (hexcl : excl < length)
    (hj : j < left d offset) :
    checkSkipLoop d chip length (turns+1) (reach d offset j) excl ret =
      if chip.bad (offset/d.erasesize+j) then
        checkSkipLoop d chip length turns (reach d offset (j+1)) excl 1
      else checkSkipLoop d chip length turns (reach d offset (j+1))
        ((excl+(reach d offset (j+1)-reach d offset j)) % 2^32) ret := by
  have hin := (reach_inside d offset j).mpr hj
  have hlt := reach_lt d offset j
  have hnext := next_eq d (reach d offset j)
  have hlen : d.erasesize-reach d offset j % d.erasesize =
      reach d offset (j+1)-reach d offset j := by
    rw [reach]
    omega
  rw [checkSkipLoop, if_pos hexcl, if_neg (by omega)]
  dsimp only
  rw [isbad_start d chip _ hin, reach_div, hlen, Nat.add_sub_cancel' hlt.le]
  cases chip.bad (offset/d.erasesize+j) <;> rfl

/-- With the good bytes there, and their sum in 32 bits, the check succeeds. -/
theorem checkSkipLoop_enough {t : ℕ} (ht : Ends d offset (goodBytes d chip offset) length t)
    (henough : length ≤ goodBytes d chip offset t) (hsum : goodBytes d chip offset t < 2^32)
    (turns j : ℕ) (ret : ℤ) (hret : 0 ≤ ret) (hj : j ≤ t) (hturns : t-j < turns) :
    0 ≤ checkSkipLoop d chip length turns (reach d offset j) (goodBytes d chip offset j) ret := by
  induction turns generalizing j ret with
  | zero => omega
  | succ turns ih =>
    by_cases hlast : j = t
    · rw [hlast, checkSkipLoop, if_neg (not_lt.mpr henough)]
      exact hret
    · have hlt := ht.before j (by omega)
      have hle : goodBytes d chip offset (j+1) ≤ goodBytes d chip offset t :=
        bytesBy_mono d offset _ (by omega)
      rw [checkSkipLoop_step turns j _ ret hlt (lt_of_lt_of_le (by omega) ht.inside)]
      cases hbad : chip.bad (offset/d.erasesize+j) with
      | true =>
        rw [if_pos rfl, ← goodBytes_bad j hbad]
        exact ih (j+1) 1 (by decide) (by omega) (by omega)
      | false =>
        rw [if_neg (by decide), ← goodBytes_good j hbad, Nat.mod_eq_of_lt (by omega)]
        exact ih (j+1) ret hret (by omega) (by omega)

/-- Without them, or with a sum that wraps, it fails. -/
theorem checkSkipLoop_fails {t : ℕ} (ht : Ends d offset (goodBytes d chip offset) length t)
    (hlength : length < 2^32) (turns j : ℕ) (ret : ℤ)
    (hj : (j ≤ t ∧ goodBytes d chip offset t < length) ∨ (j < t ∧ 2^32 ≤ goodBytes d chip offset t)) :
    checkSkipLoop d chip length turns (reach d offset j) (goodBytes d chip offset j) ret = -1 := by
  induction turns generalizing j ret with
  | zero => rfl
  | succ turns ih =>
    by_cases hlast : j = t
    · -- no block is left
      subst hlast
      have hfew : goodBytes d chip offset j < length := by omega
      have hleft : j = left d offset := ht.enough.resolve_right (not_le.mpr hfew)
      have hout : ¬(reach d offset j < d.size) := by
        rw [reach_inside]
        omega
      rw [checkSkipLoop, if_pos hfew, if_pos (not_lt.mp hout)]
    · have hlt := ht.before j (by omega)
      rw [checkSkipLoop_step turns j _ ret hlt (lt_of_lt_of_le (by omega) ht.inside)]
      cases hbad : chip.bad (offset/d.erasesize+j) with
      | true =>
        have hsame := goodBytes_bad j hbad
        rw [if_pos rfl, ← hsame]
        apply ih (j+1) 1
        rcases hj with ⟨_, hfew⟩ | ⟨_, hwrap⟩
        · exact Or.inl ⟨by omega, hfew⟩
        · refine Or.inr ⟨?_, hwrap⟩
          by_contra hend
          rw [show t = j+1 by omega] at hwrap
          omega
      | false =>
        have hsum := goodBytes_good j hbad
        rw [if_neg (by decide), ← hsum]
        by_cases hwrap : 2^32 ≤ goodBytes d chip offset (j+1)
        · -- the sum wraps with a whole block
          have hwhole : reach d offset (j+1)-reach d offset j = d.erasesize := by
            have hle := reach_next_le d offset j
            have hE := erasesize_le d
            cases j with
            | zero =>
              have hzero : goodBytes d chip offset 0 = 0 := rfl
              omega
            | succ j =>
              have hdvd : d.erasesize ∣ reach d offset (j+1) := next_dvd d _
              rw [reach, next_of_dvd d _ hdvd]
              omega
          rw [hsum, hwhole] at hwrap ⊢
          exact check_wrapped d chip length turns _ _ ret (next_dvd d _) hlt hwrap
        · rw [Nat.mod_eq_of_lt (by omega)]
          apply ih (j+1) ret
          rcases hj with ⟨_, hfew⟩ | ⟨_, hlong⟩
          · exact Or.inl ⟨by omega, hfew⟩
          · refine Or.inr ⟨?_, hlong⟩
            by_contra hend
            rw [show t = j+1 by omega] at hlong
            omega

theorem ends_unique {good : ℕ → ℕ} {t t' : ℕ}
    (h : Ends d offset good length t) (h' : Ends d offset good length t') : t = t' := by
  have hle : ∀ u v, Ends d offset good length u → Ends d offset good length v → u ≤ v := by
    intro u v hu hv
    by_contra hlt
    have hshort := hu.before v (by omega)
    have hin := hu.inside
    rcases hv.enough with hend | henough
    · omega
    · omega
  exact le_antisymm (hle t t' h h') (hle t' t h' h)

variable (d chip offset)

/-- In front of the last block the early test does not strike and the blocks that are looked up
bring too little, and one of the two stops the loop there. -/
def Clear (length t : ℕ) : Prop :=
  length = 0 ∨ (0 < t ∧ (t = 1 ∨ tested d offset (t-1) < d.size) ∧
    seenBytes d chip offset (t-1) < length ∧
    (length ≤ seenBytes d chip offset t ∨ d.size ≤ tested d offset t))

theorem tested_mono : Monotone (tested d offset) := by
  intro i j hij
  have h := (reach_strictMono d offset).monotone hij
  rw [tested, tested]
  omega

theorem stops_iff_clear {length t : ℕ} (ht : Ends d offset (goodBytes d chip offset) length t) :
    Stops d chip offset length t ↔ Clear d chip offset length t := by
  constructor
  · intro hs
    by_cases hzero : t = 0
    · subst hzero
      left
      have henough : length ≤ 0 := hs.here.resolve_right (fun h => absurd h.1 (by decide))
      omega
    · right
      obtain ⟨hseen, htest⟩ := hs.before (t-1) (by omega)
      refine ⟨by omega, ?_, hseen, hs.here.imp_right And.right⟩
      rcases htest with h | h
      · exact Or.inl (by omega)
      · exact Or.inr h
  · rintro (rfl | ⟨hpos, htest, hseen, hhere⟩)
    · have hzero : t = 0 := by
        by_contra h
        exact absurd (ht.before 0 (by omega)) (by omega)
      subst hzero
      exact ⟨fun j hj => absurd hj (by omega), Or.inl (Nat.zero_le _)⟩
    · refine ⟨fun j hj => ⟨?_, ?_⟩, hhere.imp_right fun h => ⟨hpos, h⟩⟩
      · exact lt_of_le_of_lt (bytesBy_mono d offset _ (by omega)) hseen
      · rcases htest with rfl | htest
        · exact Or.inl (by omega)
        · exact Or.inr (lt_of_le_of_lt (tested_mono d offset (by omega)) htest)

end Walk

/-! ## The two functions -/

/-- The length ends with the block that brings the last byte, or with the device, and only there
the check fails. -/
def Agree (dev : Device) (chip : Chip) (a : Area) : Prop :=
  ∃ t, Ends dev.toNand a.offset (goodBytes dev.toNand chip a.offset) a.length t ∧
    getLenInclBad dev.toNand chip a.offset a.length = reach dev.toNand a.offset t-a.offset ∧
    (a.length < 2^32 → (checkSkipLen dev.toNand chip a.offset a.length = -1 ↔
      goodBytes dev.toNand chip a.offset t < a.length))

/-- The walk is not cut short, and the good bytes up to its end are fewer than 4 GiB. -/
def Plain (dev : Device) (chip : Chip) (a : Area) : Prop :=
  ∃ t, Ends dev.toNand a.offset (goodBytes dev.toNand chip a.offset) a.length t ∧
    Clear dev.toNand chip a.offset a.length t ∧
    (a.length < 2^32 → goodBytes dev.toNand chip a.offset t < a.length ∨
      goodBytes dev.toNand chip a.offset t < 2^32)

theorem getLen_iff (dev : Device) (chip : Chip) (a : Area) (t : ℕ)
    (ht : Ends dev.toNand a.offset (goodBytes dev.toNand chip a.offset) a.length t) :
    getLenInclBad dev.toNand chip a.offset a.length = reach dev.toNand a.offset t-a.offset ↔
      Clear dev.toNand chip a.offset a.length t := by
  rw [← stops_iff_clear dev.toNand chip a.offset ht]
  constructor
  · intro h
    obtain ⟨s, hs⟩ : ∃ s, Stops dev.toNand chip a.offset a.length s := stops_exists
    rw [getLenInclBad_stops dev.size_lt a.offset_lt hs] at h
    have hmono := (reach_strictMono dev.toNand a.offset).monotone
    have hs0 : a.offset ≤ reach dev.toNand a.offset s := hmono (Nat.zero_le s)
    have ht0 : a.offset ≤ reach dev.toNand a.offset t := hmono (Nat.zero_le t)
    obtain rfl : s = t := (reach_strictMono dev.toNand a.offset).injective (by omega)
    exact hs
  · exact getLenInclBad_stops dev.size_lt a.offset_lt

theorem check_iff (dev : Device) (chip : Chip) (a : Area) (t : ℕ) (hlength : a.length < 2^32)
    (ht : Ends dev.toNand a.offset (goodBytes dev.toNand chip a.offset) a.length t) :
    checkSkipLen dev.toNand chip a.offset a.length = -1 ↔
      goodBytes dev.toNand chip a.offset t < a.length ∨
        2^32 ≤ goodBytes dev.toNand chip a.offset t := by
  constructor
  · intro h
    by_contra hnot
    rw [not_or, not_lt, not_le] at hnot
    have hturns : t-0 < dev.blocks+1 := by
      have hin := ht.inside
      have hle : left dev.toNand a.offset ≤ dev.blocks := Nat.sub_le ..
      omega
    have hok := checkSkipLoop_enough ht hnot.1 hnot.2 (dev.blocks+1) 0 0 le_rfl (Nat.zero_le _) hturns
    have hcheck : checkSkipLen dev.toNand chip a.offset a.length =
        checkSkipLoop dev.toNand chip a.length (dev.blocks+1) (reach dev.toNand a.offset 0)
          (goodBytes dev.toNand chip a.offset 0) 0 := rfl
    omega
  · intro h
    refine checkSkipLoop_fails ht hlength (dev.blocks+1) 0 0 ?_
    rcases h with hfew | hwrap
    · exact Or.inl ⟨Nat.zero_le _, hfew⟩
    · refine Or.inr ⟨?_, hwrap⟩
      by_contra hzero
      rw [show t = 0 by omega] at hwrap
      have hnone : goodBytes dev.toNand chip a.offset 0 = 0 := rfl
      omega

theorem agree_at (dev : Device) (chip : Chip) (a : Area) (t : ℕ)
    (ht : Ends dev.toNand a.offset (goodBytes dev.toNand chip a.offset) a.length t) :
    (getLenInclBad dev.toNand chip a.offset a.length = reach dev.toNand a.offset t-a.offset ∧
      (a.length < 2^32 → (checkSkipLen dev.toNand chip a.offset a.length = -1 ↔
        goodBytes dev.toNand chip a.offset t < a.length))) ↔
    (Clear dev.toNand chip a.offset a.length t ∧
      (a.length < 2^32 → goodBytes dev.toNand chip a.offset t < a.length ∨
        goodBytes dev.toNand chip a.offset t < 2^32)) := by
  rw [getLen_iff dev chip a t ht]
  refine and_congr_right fun _ => imp_congr_right fun hlength => ?_
  rw [check_iff dev chip a t hlength ht]
  constructor
  · intro h
    by_contra hnot
    rw [not_or, not_lt, not_lt] at hnot
    have := h.mp (Or.inr hnot.2)
    omega
  · intro h
    constructor
    · rintro (hfew | hwrap)
      · exact hfew
      · omega
    · exact Or.inl

/-- The two functions are right exactly where nothing cuts their walks short. -/
theorem agree_iff_plain (dev : Device) (chip : Chip) (a : Area) :
    Agree dev chip a ↔ Plain dev chip a :=
  exists_congr fun t => and_congr_right fun ht => agree_at dev chip a t ht

/-- Four good blocks of one byte. -/
def fourBlocks : Device := ⟨⟨0, 0, 4, by decide, by decide⟩, by decide⟩

def sound : Chip := ⟨fun _ => false, fun _ _ _ => none, fun _ _ => 0, fun _ => false⟩

/-- All four bytes are asked for, and the length ends after two. -/
theorem length_cut_short : ¬Agree fourBlocks sound ⟨0, 4, by decide⟩ := by
  rintro ⟨t, ht, hlen, -⟩
  have hwhole : Ends fourBlocks.toNand 0 (goodBytes fourBlocks.toNand sound 0) 4 4 :=
    ⟨by decide, by decide, by decide⟩
  obtain rfl := ends_unique ht hwhole
  exact absurd hlen (by decide)

end UBoot.NandLength
