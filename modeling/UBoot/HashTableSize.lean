import UBoot.HashTable
import Mathlib.NumberTheory.Bertrand

/-!
# The size chosen by `hcreate_r`

Trial division by odd numbers is a primality test for odd arguments whose
square root fits 16 bits, except that it rejects 3. The search for a prime
therefore ends at a prime of at least 5. A request of `2^30` entries or more
cannot be allocated, so the search never wraps around for a table in use.
-/

set_option autoImplicit false

namespace UBoot.HashTable

/-- The loop invariant of `isprime` at its exit: no odd number below the final
divisor divides the argument, and the loop had a reason to stop. -/
structure TrialExit (number r : ℕ) : Prop where
  ge : 3 ≤ r
  odd : r % 2 = 1
  stops : number ≤ r*r ∨ r ∣ number
  clear : ∀ d, 3 ≤ d → d % 2 = 1 → d < r → ¬ d ∣ number
  small : r = 3 ∨ (r-2)*(r-2) < number

theorem isprimeDiv_exit (number fuel div : ℕ) (hn : number ≤ 65535*65535)
    (hdiv : 3 ≤ div) (hodd : div % 2 = 1) (hle : div ≤ 65535)
    (hfuel : number ≤ (div+2*fuel)*(div+2*fuel))
    (hclear : ∀ d, 3 ≤ d → d % 2 = 1 → d < div → ¬ d ∣ number)
    (hsmall : div = 3 ∨ (div-2)*(div-2) < number) :
    TrialExit number (isprimeDiv number fuel div) := by
  induction fuel generalizing div with
  | zero => exact ⟨hdiv, hodd, .inl (by simpa [isprimeDiv] using hfuel), hclear, hsmall⟩
  | succ fuel ih =>
    have hsq : div*div ≤ 65535*65535 := Nat.mul_le_mul hle hle
    have hw : wrap32 (div*div) = div*div := Nat.mod_eq_of_lt (by omega)
    unfold isprimeDiv
    rw [hw]
    split_ifs with h
    · have hlt : div < 65535 := by
        by_contra hge
        have : 65535*65535 ≤ div*div := Nat.mul_le_mul (by omega) (by omega)
        omega
      apply ih (div+2) (by omega) (by omega) (by omega)
      · rwa [show div+2+2*fuel = div+2*(fuel+1) by ring]
      · intro d hd hdo hdlt
        rcases Nat.lt_or_ge d div with hlt' | hge
        · exact hclear d hd hdo hlt'
        · have : d = div := by omega
          subst d
          exact fun hdvd => h.2 (Nat.mod_eq_zero_of_dvd hdvd)
      · exact .inr (by simpa using h.1)
    · refine ⟨hdiv, hodd, ?_, hclear, hsmall⟩
      by_cases hs : div*div < number
      · exact .inr (Nat.dvd_of_mod_eq_zero (by
          by_contra hm
          exact h ⟨hs, hm⟩))
      · exact .inl (by omega)

theorem isprime_exit (number : ℕ) (hn : number ≤ 65535*65535) :
    TrialExit number (isprimeDiv number number 3) :=
  isprimeDiv_exit number number 3 hn (by decide) (by decide) (by decide)
    (by nlinarith) (fun d h1 _ h2 => by omega) (.inl rfl)

theorem isprime_sound (number : ℕ) (hn : number ≤ 65535*65535) (hodd : number % 2 = 1)
    (hge : 2 ≤ number) (h : isprime number = true) : number.Prime := by
  have hx := isprime_exit number hn
  have hndvd : ¬ isprimeDiv number number 3 ∣ number := by
    intro hd
    simp [isprime, Nat.mod_eq_zero_of_dvd hd] at h
  have hsq : number ≤ isprimeDiv number number 3*isprimeDiv number number 3 :=
    hx.stops.resolve_right hndvd
  by_contra hp
  have hmf := Nat.minFac_sq_le_self (by omega) hp
  have hdvd := Nat.minFac_dvd number
  have hmp := Nat.minFac_prime (n := number) (by omega)
  have hmodd : number.minFac % 2 = 1 := by
    rcases Nat.even_or_odd number.minFac with he | ho
    · have : 2 ∣ number := he.two_dvd.trans hdvd
      omega
    · exact Nat.odd_iff.mp ho
  have hm3 : 3 ≤ number.minFac := by
    have := hmp.two_le
    omega
  have hle : number.minFac ≤ isprimeDiv number number 3 := by
    by_contra hgt
    nlinarith
  rcases Nat.lt_or_eq_of_le hle with hlt | heq
  · exact hx.clear _ hm3 hmodd hlt hdvd
  · exact hndvd (heq ▸ hdvd)

theorem isprime_complete (number : ℕ) (hn : number ≤ 65535*65535) (hge : 5 ≤ number)
    (hp : number.Prime) : isprime number = true := by
  have hx := isprime_exit number hn
  have hndvd : ¬ isprimeDiv number number 3 ∣ number := by
    intro hd
    rcases (Nat.dvd_prime hp).mp hd with h1 | h1
    · have := hx.ge
      omega
    · rcases hx.small with h3 | h3
      · omega
      · rw [h1] at h3
        obtain ⟨m, rfl⟩ : ∃ m, number = m+5 := ⟨number-5, by omega⟩
        have : m+5-2 = m+3 := by omega
        rw [this] at h3
        nlinarith
  have hmod : number % isprimeDiv number number 3 ≠ 0 :=
    fun h => hndvd (Nat.dvd_of_mod_eq_zero h)
  simpa [isprime] using hmod

theorem isprime_three : isprime 3 = false := by decide

/-- The search ends at the first odd prime from 5 on, whatever prime `p` is
known above the request. -/
theorem primeFrom_spec (p : ℕ) (hp : p.Prime) (hp5 : 5 ≤ p) (hpn : p ≤ 65535*65535)
    (fuel nel : ℕ) (hodd : nel % 2 = 1) (hnel : 3 ≤ nel) (hle : nel ≤ p) (hfuel : p < nel+2*fuel) :
    (primeFrom fuel nel).Prime ∧ 5 ≤ primeFrom fuel nel ∧ nel ≤ primeFrom fuel nel := by
  induction fuel generalizing nel with
  | zero => omega
  | succ fuel ih =>
    have hpodd : p % 2 = 1 := by
      rcases hp.eq_two_or_odd with h | h <;> omega
    unfold primeFrom
    cases hq : isprime nel with
    | true =>
      have h5 : 5 ≤ nel := by
        by_contra hlt
        have : nel = 3 := by omega
        rw [this, isprime_three] at hq
        exact absurd hq (by decide)
      simp only [if_true]
      exact ⟨isprime_sound nel (by omega) hodd (by omega) hq, h5, le_refl _⟩
    | false =>
      have hne : nel ≠ p := by
        rintro rfl
        rw [isprime_complete nel hpn hp5 hp] at hq
        exact absurd hq (by decide)
      have hw : wrap32 (nel+2) = nel+2 := Nat.mod_eq_of_lt (by omega)
      simp only [Bool.false_eq_true, if_false, hw]
      obtain ⟨h1, h2, h3⟩ := ih (nel+2) (by omega) (by omega) (by omega) (by omega)
      exact ⟨h1, h2, by omega⟩

theorem or_one_odd (n : ℕ) : (n ||| 1) % 2 = 1 := by
  simp

theorem or_one_bounds (n : ℕ) : n ≤ (n ||| 1) ∧ (n ||| 1) ≤ n+1 := by
  refine ⟨Nat.left_le_or, ?_⟩
  have h : n ||| 1 = 2*(n/2)+1 := by
    have hd : (n ||| 1)/2 = n/2 := by
      rw [← Nat.shiftRight_one, ← Nat.shiftRight_one, Nat.shiftRight_or_distrib]
      simp
    have := or_one_odd n
    omega
  omega

/-- What `hcreate_r` establishes about the table size. -/
structure SizeOk (size : ℕ) : Prop where
  prime : size.Prime
  five : 5 ≤ size
  bound : size < 268435456

theorem hcreateR_spec (n : ℕ) (hn : 2 ≤ n) (hb : n < 1073741824) (t : HTab)
    (h : hcreateR n = some t) :
    SizeOk t.size ∧ n ≤ t.size ∧ t = ⟨fun _ => blank, t.size, 0⟩ := by
  obtain ⟨hlo, hhi⟩ := or_one_bounds n
  obtain ⟨p, hp, hlt, hle⟩ := Nat.exists_prime_lt_and_le_two_mul (n ||| 1) (by omega)
  have hp5 : 5 ≤ p := by
    by_contra h5
    have hodd := or_one_odd n
    have : p = 4 := by omega
    subst p
    exact absurd hp (by decide)
  obtain ⟨h1, h2, h3⟩ := primeFrom_spec p hp hp5 (by omega) 2147483648 (n ||| 1)
    (or_one_odd n) (by have := or_one_odd n; omega) (by omega) (by omega)
  simp only [hcreateR] at h
  split_ifs at h with hfit
  simp only [sizeofENTRY] at hfit
  obtain rfl := Option.some_inj.mp h
  exact ⟨⟨h1, h2, by simp only; omega⟩, by simp only; omega, rfl⟩

end UBoot.HashTable
