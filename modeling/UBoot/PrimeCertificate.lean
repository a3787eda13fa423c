import Mathlib.FieldTheory.Finite.Basic
import Mathlib.NumberTheory.LucasPrimality
import Mathlib.Tactic.LinearCombination
import Mathlib.Tactic.Ring

/-!
# Certificates of primality and powers in a cubic extension

Powers are taken digit by digit, in a form that the kernel evaluates. A list of entries
certifies its numbers by Lucas's test when the factors of each are certified before it. The
powers of the unknown modulo a cubic polynomial show where it has a root.
-/

set_option autoImplicit false

namespace PrimeCertificate

/-! ## Powers digit by digit -/

/-- `a^e` modulo `m`, for exponents of up to `k` digits to the base 256. -/
def powMod (m a : ℕ) : ℕ → ℕ → ℕ
  | 0, _ => 1 % m
  | k+1, e => powMod m a k (e/256)^256*a^(e % 256) % m

theorem powMod_cast (m a k : ℕ) {e : ℕ} (he : e < 256^k) : (powMod m a k e : ZMod m) = a^e := by
  induction k generalizing e with
  | zero =>
    obtain rfl : e = 0 := by omega
    rw [powMod, ZMod.natCast_mod, Nat.cast_one, pow_zero]
  | succ k ih =>
    rw [pow_succ] at he
    have hrest := ih (show e/256 < 256^k by omega)
    rw [powMod, ZMod.natCast_mod, Nat.cast_mul, Nat.cast_pow, hrest, Nat.cast_pow, ← pow_mul,
      ← pow_add, Nat.div_add_mod']

theorem powMod_lt {m : ℕ} (hm : 0 < m) (a k e : ℕ) : powMod m a k e < m := by
  cases k <;> exact Nat.mod_lt _ hm

theorem powMod_eq_one {m : ℕ} (hm : 1 < m) (a k : ℕ) {e : ℕ} (he : e < 256^k) :
    powMod m a k e = 1 ↔ (a : ZMod m)^e = 1 := by
  rw [← powMod_cast m a k he]
  constructor
  · intro h
    rw [h, Nat.cast_one]
  · intro h
    have hmod : (powMod m a k e : ZMod m) = (1 : ℕ) := by rw [h, Nat.cast_one]
    rw [ZMod.natCast_eq_natCast_iff', Nat.mod_eq_of_lt (powMod_lt (by omega) a k e),
      Nat.mod_eq_of_lt hm] at hmod
    exact hmod

/-! ## Certificates -/

/-- A number, an element of full order, and the primes that divide the number less one. -/
structure Entry where
  p : ℕ
  root : ℕ
  factors : List ℕ

/-- Lucas's test, for numbers of up to `k` bytes. -/
def Entry.Passes (k : ℕ) (e : Entry) : Prop :=
  (1 < e.p ∧ e.p ≤ 256^k ∧ e.factors.prod^(8*k) % (e.p-1) = 0) ∧ powMod e.p e.root k (e.p-1) = 1 ∧
    ∀ q ∈ e.factors, powMod e.p e.root k ((e.p-1)/q) ≠ 1

instance (k : ℕ) (e : Entry) : Decidable (e.Passes k) := inferInstanceAs (Decidable (_ ∧ _ ∧ _))

theorem Entry.Passes.prime {k : ℕ} {e : Entry} (h : e.Passes k) (hfactors : ∀ q ∈ e.factors, q.Prime) :
    e.p.Prime := by
  obtain ⟨⟨hone, hbits, hprod⟩, hroot, horder⟩ := h
  apply lucas_primality e.p e.root
  · exact (powMod_eq_one hone _ k (by omega)).mp hroot
  · intro q hq hdvd
    have hmem : q ∈ e.factors := by
      obtain ⟨a, ha, hqa⟩ := (Prime.dvd_prod_iff hq.prime).mp
        (hq.dvd_of_dvd_pow (hdvd.trans (Nat.dvd_of_mod_eq_zero hprod)))
      rwa [(Nat.prime_dvd_prime_iff_eq hq (hfactors a ha)).mp hqa]
    have hle := Nat.div_le_self (e.p-1) q
    rw [ne_eq, ← powMod_eq_one hone _ k (by omega)]
    exact horder q hmem

/-- Each entry passes, with factors that are known or certified before it. -/
def Certified (k : ℕ) : List ℕ → List Entry → Prop
  | _, [] => True
  | known, e :: es => e.Passes k ∧ (∀ q ∈ e.factors, q ∈ known) ∧ Certified k (e.p :: known) es

instance Certified.decidable (k : ℕ) : (known : List ℕ) → (es : List Entry) →
    Decidable (Certified k known es)
  | _, [] => .isTrue trivial
  | known, e :: es =>
    have := Certified.decidable k (e.p :: known) es
    inferInstanceAs (Decidable (_ ∧ _ ∧ _))

theorem Certified.prime {k : ℕ} {known : List ℕ} {es : List Entry} (h : Certified k known es)
    (hknown : ∀ q ∈ known, q.Prime) : ∀ e ∈ es, e.p.Prime := by
  induction es generalizing known with
  | nil => simp
  | cons e es ih =>
    obtain ⟨hpasses, hfactors, hrest⟩ := h
    have hprime := hpasses.prime fun q hq => hknown q (hfactors q hq)
    intro e' he'
    rcases List.mem_cons.mp he' with rfl | he'
    · exact hprime
    · apply ih hrest _ e' he'
      intro q hq
      rcases List.mem_cons.mp hq with rfl | hq
      · exact hprime
      · exact hknown q hq

/-! ## Roots of a cubic polynomial -/

/-- A polynomial of degree 2 at most. -/
structure Quadratic where
  c0 : ℕ
  c1 : ℕ
  c2 : ℕ
  deriving DecidableEq

/-- The product modulo `m` and modulo `x^3 = u x+v`. -/
def Quadratic.mul (m u v : ℕ) (f g : Quadratic) : Quadratic :=
  let d3 := (f.c1*g.c2+f.c2*g.c1) % m
  let d4 := f.c2*g.c2 % m
  ⟨(f.c0*g.c0+v*d3) % m, (f.c0*g.c1+f.c1*g.c0+u*d3+v*d4) % m,
    (f.c0*g.c2+f.c1*g.c1+f.c2*g.c0+u*d4) % m⟩

/-- `x^e` modulo the cubic. -/
def xPow (m u v : ℕ) : ℕ → ℕ → Quadratic
  | 0, _ => ⟨1, 0, 0⟩
  | k+1, e =>
    let h := xPow m u v k (e/2)
    let h := h.mul m u v h
    if e % 2 = 1 then h.mul m u v ⟨0, 1, 0⟩ else h

def Quadratic.eval {m : ℕ} (f : Quadratic) (r : ZMod m) : ZMod m := f.c0+f.c1*r+f.c2*r^2

section Roots

variable {m u v : ℕ} {r : ZMod m} (hr : r^3 = u*r+v)

include hr

theorem Quadratic.mul_eval (f g : Quadratic) : (f.mul m u v g).eval r = f.eval r*g.eval r := by
  simp only [Quadratic.eval, Quadratic.mul, ZMod.natCast_mod, Nat.cast_add, Nat.cast_mul]
  have h4 : r^4 = u*r^2+v*r := by
    rw [pow_succ, hr]
    ring
  calc _ = (f.c0*g.c0 : ZMod m)+(f.c0*g.c1+f.c1*g.c0)*r+(f.c0*g.c2+f.c1*g.c1+f.c2*g.c0)*r^2+
        (f.c1*g.c2+f.c2*g.c1)*(u*r+v)+f.c2*g.c2*(u*r^2+v*r) := by ring
    _ = _ := by
      rw [← hr, ← h4]
      ring

theorem xPow_eval (k : ℕ) {e : ℕ} (he : e < 2^k) : (xPow m u v k e).eval r = r^e := by
  induction k generalizing e with
  | zero =>
    obtain rfl : e = 0 := by omega
    simp [xPow, Quadratic.eval]
  | succ k ih =>
    rw [pow_succ] at he
    have hhalf := ih (show e/2 < 2^k by omega)
    have hx : Quadratic.eval ⟨0, 1, 0⟩ r = r := by simp [Quadratic.eval]
    rw [xPow]
    split_ifs with hodd
    · rw [Quadratic.mul_eval hr, Quadratic.mul_eval hr, hhalf, hx, ← pow_add, ← pow_succ,
        show e/2+e/2+1 = e by omega]
    · rw [Quadratic.mul_eval hr, hhalf, ← pow_add, show e/2+e/2 = e by omega]

end Roots

/-- A cubic without roots modulo a prime `m`: the remainder `g` of `x^m-x` has a combination with
it that is 1, with the factors `s` for `g` and `c0+c1 x` for the cubic. -/
theorem cubic_no_root {m u v k : ℕ} (c0 c1 : ℕ) [hm : Fact m.Prime] (hk : m < 2^k) {g s : Quadratic}
    (hg : xPow m u v k m = ⟨g.c0, (g.c1+1) % m, g.c2⟩)
    (hbezout : (s.c0*g.c0+(m-v)*c0) % m = 1 ∧
      (s.c0*g.c1+s.c1*g.c0+(m-v)*c1+(m-u)*c0) % m = 0 ∧
      (s.c0*g.c2+s.c1*g.c1+s.c2*g.c0+(m-u)*c1) % m = 0 ∧
      (s.c1*g.c2+s.c2*g.c1+c0) % m = 0 ∧ (s.c2*g.c2+c1) % m = 0)
    (huv : u ≤ m ∧ v ≤ m) (r : ZMod m) : r^3 ≠ u*r+v := by
  intro hr
  have hpow := xPow_eval hr k hk
  rw [ZMod.pow_card, hg] at hpow
  simp only [Quadratic.eval, ZMod.natCast_mod, Nat.cast_add, Nat.cast_one] at hpow
  have hcast : ∀ n c : ℕ, n % m = c → (n : ZMod m) = c := by
    rintro n _ rfl
    rw [ZMod.natCast_mod]
  obtain ⟨h0, h1, h2, h3, h4⟩ := hbezout
  have h0 := hcast _ _ h0
  have h1 := hcast _ _ h1
  have h2 := hcast _ _ h2
  have h3 := hcast _ _ h3
  have h4 := hcast _ _ h4
  push_cast [Nat.cast_sub huv.1, Nat.cast_sub huv.2] at h0 h1 h2 h3 h4
  simp only [ZMod.natCast_self, zero_sub] at h0 h1 h2 h3 h4
  have hzero : (1 : ZMod m) = 0 := by
    linear_combination -h0-r*h1-r^2*h2-r^3*h3-r^4*h4+(s.c0+s.c1*r+s.c2*r^2)*hpow+(c0+c1*r)*hr
  exact one_ne_zero hzero

end PrimeCertificate
