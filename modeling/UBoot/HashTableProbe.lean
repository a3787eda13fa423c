import UBoot.HashTableSearch
import Mathlib.Tactic.ReduceModChar
import Mathlib.Tactic.NormNum.Prime
import Mathlib.NumberTheory.LucasPrimality

/-!
# The probe sequence over all table sizes

The trial division of `isprime` squares its divisor in 32 bits. It still takes
no composite number for a prime, but it takes 1 for one, and it rejects
4294967291, the last prime below `2^32`. A request of 0 or 1 and a request behind
4294967279 therefore end at a table of size 1, where the sequence leaves the table.
-/

set_option autoImplicit false

namespace UBoot.HashTable

open UBoot.ProbeCycle

/-- The table size that `hcreate_r` chooses. -/
def tableSize (nel : ℕ) : ℕ := primeFrom 2147483648 (nel ||| 1)

/-- The next index of `hsearch_r`, in unsigned arithmetic. -/
def nextIdx (size hval2 idx : ℕ) : ℕ :=
  if idx ≤ hval2 then wrap32 (size+idx+(4294967296-hval2)) else idx-hval2

def probe (size hval : ℕ) : ℕ → ℕ
  | 0 => hval
  | j+1 => nextIdx size (stride size hval) (probe size hval j)

/-- The sequence stays in the table and meets each index once before it is back at its start. -/
structure FullCycle (size hval : ℕ) : Prop where
  inside : ∀ j, 0 < probe size hval j ∧ probe size hval j ≤ size
  once : ∀ i, 0 < i → i ≤ size → ∃! j, j < size ∧ probe size hval j = i
  back : probe size hval size = hval

/-- The table size is a prime from 3 on, and from each start the sequence is a full cycle. -/
structure Cycles (size : ℕ) : Prop where
  prime : size.Prime
  three_le : 3 ≤ size
  full : ∀ hval, 0 < hval → hval ≤ size → FullCycle size hval

/-! ## The trial division -/

/-- What `isprimeDiv` has seen when it is done: the divisors in front of `r` have not stopped it. -/
structure DivExit (number start r : ℕ) : Prop where
  ge : start ≤ r
  odd : r % 2 = 1
  passed : ∀ d, start ≤ d → d % 2 = 1 → d < r → wrap32 (d*d) < number ∧ ¬d ∣ number

theorem isprimeDiv_passed (number fuel div : ℕ) (hodd : div % 2 = 1) :
    DivExit number div (isprimeDiv number fuel div) ∧
      (isprimeDiv number fuel div = div+2*fuel ∨
        number ≤ wrap32 (isprimeDiv number fuel div*isprimeDiv number fuel div) ∨
        isprimeDiv number fuel div ∣ number) := by
  induction fuel generalizing div with
  | zero => exact ⟨⟨le_rfl, hodd, fun d h1 _ h2 => absurd h2 (not_lt.2 h1)⟩, .inl rfl⟩
  | succ fuel ih =>
    unfold isprimeDiv
    split_ifs with h
    · obtain ⟨⟨hge, hodd', hpassed⟩, hstop⟩ := ih (div+2) (by omega)
      refine ⟨⟨by omega, hodd', fun d h1 h2 h3 => ?_⟩, ?_⟩
      · rcases Nat.eq_or_lt_of_le h1 with rfl | hlt
        · exact ⟨h.1, fun hd => h.2 (Nat.mod_eq_zero_of_dvd hd)⟩
        · exact hpassed d (by omega) h2 h3
      · rwa [show div+2*(fuel+1) = div+2+2*fuel by omega]
    · refine ⟨⟨le_rfl, hodd, fun d h1 _ h2 => absurd h2 (not_lt.2 h1)⟩, .inr ?_⟩
      by_cases hs : wrap32 (div*div) < number
      · exact .inr (Nat.dvd_of_mod_eq_zero (not_not.1 fun hm => h ⟨hs, hm⟩))
      · exact .inl (not_lt.1 hs)

/-- An odd number from 3 on stops the division at the latest when it is reached. -/
theorem isprimeDiv_stops (number : ℕ) (hodd : number % 2 = 1) (hge : 3 ≤ number) :
    DivExit number 3 (isprimeDiv number number 3) ∧ isprimeDiv number number 3 ≤ number ∧
      (number ≤ wrap32 (isprimeDiv number number 3*isprimeDiv number number 3) ∨
        isprimeDiv number number 3 ∣ number) := by
  obtain ⟨hexit, hstop⟩ := isprimeDiv_passed number number 3 rfl
  have hle : isprimeDiv number number 3 ≤ number := by
    by_contra hlt
    exact (hexit.passed number hge hodd (not_le.1 hlt)).2 (dvd_refl _)
  exact ⟨hexit, hle, hstop.resolve_left (by omega)⟩

/-- No composite number below `2^32` is taken for a prime. -/
theorem isprime_prime {number : ℕ} (hodd : number % 2 = 1) (hge : 3 ≤ number)
    (hlt : number < 4294967296) (h : isprime number = true) : number.Prime := by
  obtain ⟨hexit, -, hstop⟩ := isprimeDiv_stops number hodd hge
  have hnot : ¬isprimeDiv number number 3 ∣ number := fun hd => by
    simp [isprime, Nat.mod_eq_zero_of_dvd hd] at h
  have hsq := hstop.resolve_right hnot
  by_contra hp
  have hmin := Nat.minFac_sq_le_self (by omega) hp
  have hdvd := Nat.minFac_dvd number
  have hmod : number.minFac % 2 = 1 := by
    rcases Nat.even_or_odd number.minFac with he | ho
    · have := he.two_dvd.trans hdvd
      omega
    · exact Nat.odd_iff.1 ho
  have hthree : 3 ≤ number.minFac := by
    have := (Nat.minFac_prime (n := number) (by omega)).two_le
    omega
  have hbig : isprimeDiv number number 3 < number.minFac :=
    lt_of_le_of_ne (not_lt.1 fun hgt => (hexit.passed _ hthree hmod hgt).2 hdvd)
      fun he => hnot (he ▸ hdvd)
  have hmul := Nat.mul_le_mul hbig hbig
  have hwrap := Nat.mod_le (isprimeDiv number number 3*isprimeDiv number number 3) 4294967296
  unfold wrap32 at hsq
  nlinarith

/-- A prime is taken for one when an odd number below it has a square in 32 bits that is not less. -/
theorem isprime_of_square {p d : ℕ} (hp : p.Prime) (hodd : p % 2 = 1) (hge : 3 ≤ p) (hd : 3 ≤ d)
    (hdodd : d % 2 = 1) (hdp : d < p) (hsq : p ≤ wrap32 (d*d)) : isprime p = true := by
  obtain ⟨hexit, hle, -⟩ := isprimeDiv_stops p hodd hge
  have hdiv : isprimeDiv p p 3 ≤ d := by
    by_contra hgt
    exact absurd (hexit.passed d hd hdodd (not_le.1 hgt)).1 (not_lt.2 hsq)
  have hthree := hexit.ge
  have hnot : ¬isprimeDiv p p 3 ∣ p := fun h => by
    rcases (Nat.dvd_prime hp).1 h with h1 | h1 <;> omega
  simpa [isprime] using fun h => hnot (Nat.dvd_of_mod_eq_zero h)

theorem wrap_square_mod {d : ℕ} (hodd : d % 2 = 1) : wrap32 (d*d) % 8 = 1 := by
  obtain ⟨k, rfl⟩ : ∃ k, d = 2*k+1 := ⟨d/2, by omega⟩
  have heven : k*(k+1) % 2 = 0 := Nat.even_iff.1 (Nat.even_mul_succ_self k)
  have hsq : (2*k+1)*(2*k+1) = 4*(k*(k+1))+1 := by ring
  rw [hsq, wrap32]
  omega

/-- No square reaches the numbers from 4294967291 on: they are divided at the latest by themselves. -/
theorem isprime_last {number : ℕ} (hodd : number % 2 = 1) (hge : 4294967291 ≤ number)
    (hlt : number < 4294967296) : isprime number = false := by
  obtain ⟨hexit, -, hstop⟩ := isprimeDiv_stops number hodd (by omega)
  have hmod := wrap_square_mod hexit.odd
  have hwrap : wrap32 (isprimeDiv number number 3*isprimeDiv number number 3) < 4294967296 :=
    Nat.mod_lt _ (by decide)
  have hdvd := hstop.resolve_left fun hle => by omega
  simp [isprime, Nat.mod_eq_zero_of_dvd hdvd]

/-! ## The sizes -/

/-- The search ends at the latest at a number that the trial division takes for a prime. -/
theorem primeFrom_le {p : ℕ} (hp : isprime p = true) (hpodd : p % 2 = 1) (hplt : p < 4294967296)
    (fuel nel : ℕ) (hodd : nel % 2 = 1) (hle : nel ≤ p) (hfuel : p < nel+2*fuel) :
    isprime (primeFrom fuel nel) = true ∧ nel ≤ primeFrom fuel nel ∧ primeFrom fuel nel ≤ p ∧
      primeFrom fuel nel % 2 = 1 := by
  induction fuel generalizing nel with
  | zero => omega
  | succ fuel ih =>
    unfold primeFrom
    split_ifs with hprime
    · exact ⟨hprime, le_rfl, hle, hodd⟩
    · have hne : nel ≠ p := by
        rintro rfl
        exact hprime hp
      have hwrap : wrap32 (nel+2) = nel+2 := Nat.mod_eq_of_lt (by omega)
      rw [hwrap]
      obtain ⟨h1, h2, h3, h4⟩ := ih (nel+2) (by omega) (by omega) (by omega)
      exact ⟨h1, by omega, h3, h4⟩

theorem isprime_composite {number d : ℕ} (hodd : number % 2 = 1) (hge : 3 ≤ number)
    (hlt : number < 4294967296) (hd : d ∣ number) (h2 : 2 ≤ d) (hdlt : d < number) :
    isprime number = false :=
  Bool.eq_false_iff.2 fun h => Nat.not_prime_of_dvd_of_lt hd h2 hdlt (isprime_prime hodd hge hlt h)

/-- Behind 4294967279 no number is taken for a prime. -/
theorem isprime_high {number : ℕ} (hodd : number % 2 = 1) (hge : 4294967281 ≤ number)
    (hlt : number < 4294967296) : isprime number = false := by
  by_cases hlast : 4294967291 ≤ number
  · exact isprime_last hodd hlast hlt
  obtain ⟨d, hd, h2, hdlt⟩ : ∃ d, d ∣ number ∧ 2 ≤ d ∧ d < number := by
    obtain rfl | rfl | rfl | rfl | rfl : number = 4294967281 ∨ number = 4294967283 ∨
        number = 4294967285 ∨ number = 4294967287 ∨ number = 4294967289 := by omega
    · exact ⟨11, by omega, by omega, by omega⟩
    · exact ⟨3, by omega, by omega, by omega⟩
    · exact ⟨5, by omega, by omega, by omega⟩
    · exact ⟨13, by omega, by omega, by omega⟩
    · exact ⟨3, by omega, by omega, by omega⟩
  exact isprime_composite hodd (by omega) hlt hd h2 hdlt

/-- From there the search wraps around and ends at 1. -/
theorem primeFrom_high (fuel nel : ℕ) (hodd : nel % 2 = 1) (hge : 4294967281 ≤ nel)
    (hlt : nel < 4294967296) (hfuel : 4294967300 ≤ nel+2*fuel) : primeFrom fuel nel = 1 := by
  induction fuel generalizing nel with
  | zero => omega
  | succ fuel ih =>
    rw [primeFrom, isprime_high hodd hge hlt, if_neg (by decide)]
    by_cases hend : nel = 4294967295
    · obtain ⟨fuel, rfl⟩ : ∃ r, fuel = r+1 := ⟨fuel-1, by omega⟩
      rw [hend, show wrap32 (4294967295+2) = 1 by decide, primeFrom, if_pos (by decide)]
    · have hwrap : wrap32 (nel+2) = nel+2 := Nat.mod_eq_of_lt (by omega)
      rw [hwrap]
      exact ih (nel+2) (by omega) (by omega) (by omega) (by omega)

theorem natCast_ne_one {p a : ℕ} (ha : 1 < a) (hap : a < p) : (a : ZMod p) ≠ 1 := by
  intro h
  have hmod := (ZMod.natCast_eq_natCast_iff' a 1 p).1 (by exact_mod_cast h)
  rw [Nat.mod_eq_of_lt hap, Nat.mod_eq_of_lt (ha.trans hap)] at hmod
  omega

theorem prime_top : Nat.Prime 4294967279 := by
  refine lucas_primality _ 7 (by reduce_mod_char) fun q hq hd => ?_
  have hsplit : 4294967279-1 = 2*7*17*18046081 := by norm_num
  have hfactor : Nat.Prime 18046081 := by norm_num
  rw [hsplit, hq.dvd_mul, hq.dvd_mul, hq.dvd_mul, Nat.prime_dvd_prime_iff_eq hq (by norm_num),
    Nat.prime_dvd_prime_iff_eq hq (by norm_num), Nat.prime_dvd_prime_iff_eq hq (by norm_num),
    Nat.prime_dvd_prime_iff_eq hq hfactor] at hd
  rcases hd with ((rfl | rfl) | rfl) | rfl
  · reduce_mod_char
    exact natCast_ne_one (a := 4294967278) (by norm_num) (by norm_num)
  · reduce_mod_char
    exact natCast_ne_one (a := 2715380062) (by norm_num) (by norm_num)
  · reduce_mod_char
    exact natCast_ne_one (a := 1549005076) (by norm_num) (by norm_num)
  · reduce_mod_char
    exact natCast_ne_one (a := 2648553886) (by norm_num) (by norm_num)

theorem isprime_top : isprime 4294967279 = true :=
  isprime_of_square (d := 34716455) prime_top rfl (by decide) (by decide) rfl (by decide)
    (by decide)

theorem tableSize_prime {nel : ℕ} (h2 : 2 ≤ nel) (hle : nel ≤ 4294967279) :
    (tableSize nel).Prime ∧ 3 ≤ tableSize nel ∧ tableSize nel < 4294967296 := by
  obtain ⟨hlo, hhi⟩ := or_one_bounds nel
  have hodd := or_one_odd nel
  obtain ⟨h1, h2, h3, h4⟩ := primeFrom_le isprime_top rfl (by decide) 2147483648 (nel ||| 1) hodd
    (by omega) (by omega)
  rw [← tableSize] at h1 h2 h3 h4
  exact ⟨isprime_prime h4 (by omega) (by omega) h1, by omega, by omega⟩

theorem tableSize_one {nel : ℕ} (hlt : nel < 4294967296) (h : nel < 2 ∨ 4294967279 < nel) :
    tableSize nel = 1 := by
  obtain ⟨hlo, hhi⟩ := or_one_bounds nel
  have hodd := or_one_odd nel
  rcases h with h | h
  · obtain ⟨fuel, hfuel⟩ : ∃ r, 2147483648 = r+1 := ⟨2147483647, rfl⟩
    rw [tableSize, show nel ||| 1 = 1 by omega, hfuel, primeFrom, if_pos (by decide)]
  · exact primeFrom_high 2147483648 _ hodd (by omega) (by omega) (by omega)

/-! ## The sequence -/

section Sequence

variable {size hval : ℕ}

theorem stride_lt (h3 : 3 ≤ size) (hlt : size < 4294967296) :
    0 < stride size hval ∧ stride size hval < size := by
  have hwrap : wrap32 (size+4294967294) = size-2 := by
    unfold wrap32
    omega
  have hmod := Nat.mod_lt hval (show 0 < size-2 by omega)
  rw [stride, hwrap]
  omega

theorem nextIdx_eq {s idx : ℕ} (hs : s < size) (hlt : size < 4294967296) :
    nextIdx size s idx = back size s idx := by
  unfold nextIdx back wrap32
  split_ifs <;> omega

theorem probe_eq (h3 : 3 ≤ size) (hlt : size < 4294967296) (j : ℕ) :
    probe size hval j = walk size (stride size hval) hval j := by
  induction j with
  | zero => rfl
  | succ j ih => rw [probe, walk, ih, nextIdx_eq (stride_lt h3 hlt).2 hlt]

theorem fullCycle (hprime : size.Prime) (h3 : 3 ≤ size) (hlt : size < 4294967296) (hpos : 0 < hval)
    (hle : hval ≤ size) : FullCycle size hval := by
  obtain ⟨hs, hslt⟩ := @stride_lt size hval h3 hlt
  have hcop := (Nat.coprime_of_lt_prime hs.ne' hslt hprime).symm
  refine ⟨fun j => ?_, fun i h1 h2 => ?_, ?_⟩
  · rw [probe_eq h3 hlt]
    exact ⟨walk_pos _ _ _ hslt hpos j, walk_le _ _ _ hle j⟩
  · obtain ⟨j, hj, hi⟩ := walk_surjective _ _ _ hslt hcop hpos hle i h1 h2
    rw [← probe_eq h3 hlt] at hi
    refine ⟨j, ⟨hj, hi⟩, fun l hl => ?_⟩
    have heq := hl.2.trans hi.symm
    rw [probe_eq h3 hlt, probe_eq h3 hlt] at heq
    rcases le_total l j with h | h
    · exact walk_injective_below _ _ _ hslt hcop l j h hj heq
    · exact (walk_injective_below _ _ _ hslt hcop j l h hl.1 heq.symm).symm
  · rw [probe_eq h3 hlt]
    exact walk_return _ _ _ hslt hpos hle

end Sequence

end UBoot.HashTable
