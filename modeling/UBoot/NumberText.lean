import Mathlib.Data.Nat.Digits.Lemmas
import Mathlib.Tactic

/-!
# Numbers as text: `number` of `lib/vsprintf.c`

The characters are written from the last digit on. Decimal digits come from pieces
of 100000, in which a division by ten is a multiplication and a shift; the pieces
come from the division of 64-bit numbers in `lib/div64.c`.
-/

set_option autoImplicit false

namespace UBoot.NumberText

/-! ## Division of 64-bit numbers -/

/-- The first loop of `__div64_32`: `b` and `d` are doubled. -/
@[grind]
def doubled (rem : ℕ) : ℕ → ℕ → ℕ → ℕ × ℕ
  | 0, b, d => (b, d)
  | fuel+1, b, d => if b < 2^63 ∧ b < rem then doubled rem fuel (b+b) (d+d) else (b, d)

/-- The second loop, down to `d = 0`: the remainder and the quotient. -/
@[grind]
def subtracted (rem res b d : ℕ) : ℕ × ℕ :=
  let r := if rem ≥ b then (rem-b, res+d) else (rem, res)
  if d/2 = 0 then r else subtracted r.1 r.2 (b/2) (d/2)
termination_by d
decreasing_by omega

/-- `__div64_32`: the remainder and the quotient. -/
def div64 (n base : ℕ) : ℕ × ℕ :=
  let high := n/2^32
  let res := if high ≥ base then high/base*2^32 else 0
  let rem := if high ≥ base then n-high/base*base*2^32 else n
  let up := doubled rem 64 base 1
  subtracted rem res up.1 up.2

/-- `do_div` -/
def doDiv (n base : ℕ) : ℕ × ℕ := if n/2^32 = 0 then (n % base, n/base) else div64 n base

/-! ## Decimal digits -/

def ch (d : ℕ) : UInt8 := UInt8.ofNat (d+48)

def putDecTrunc (q : ℕ) : List UInt8 :=
  let d1 := q/2^4 % 16
  let d2 := q/2^8 % 16
  let d3 := q/2^12
  let d0 := 6*(d3+d2+d1)+q % 16
  let q := d0*0xcd/2^11
  let d1 := q+9*d3+5*d2+d1
  ch (d0-10*q) :: if d1 = 0 then [] else
    let q := d1*0xcd/2^11
    let d2 := q+2*d2
    ch (d1-10*q) :: if d2 = 0 ∧ d3 = 0 then [] else
      let q := d2*0xd/2^7
      let d3 := q+4*d3
      ch (d2-10*q) :: if d3 = 0 then [] else
        let q := d3*0xcd/2^11
        ch (d3-10*q) :: if q = 0 then [] else [ch q]

def putDecFull (q : ℕ) : List UInt8 :=
  let d1 := q/2^4 % 16
  let d2 := q/2^8 % 16
  let d3 := q/2^12
  let d0 := 6*(d3+d2+d1)+q % 16
  let q := d0*0xcd/2^11
  let d1 := q+9*d3+5*d2+d1
  let q1 := d1*0xcd/2^11
  let d2 := q1+2*d2
  let q2 := d2*0xd/2^7
  let d3 := q2+4*d3
  let q3 := d3*0xcd/2^11
  [ch (d0-10*q), ch (d1-10*q1), ch (d2-10*q2), ch (d3-10*q3), ch q3]

/-- `put_dec`, in at most `fuel` pieces. -/
@[grind]
def putDec : ℕ → ℕ → List UInt8
  | 0, _ => []
  | fuel+1, num =>
    if num < 100000 then putDecTrunc num
    else
      let r := doDiv num 100000
      putDecFull r.1 ++ putDec fuel r.2

/-! ## `number` -/

inductive Base where
  | oct
  | dec
  | hex
  deriving DecidableEq, Repr

def Base.value : Base → ℕ
  | .oct => 8
  | .dec => 10
  | .hex => 16

/-- The bits of `type`. -/
structure Flags where
  zeropad : Bool
  sign : Bool
  plus : Bool
  space : Bool
  left : Bool
  small : Bool
  special : Bool
  deriving DecidableEq, Repr

def digits : List UInt8 := [48, 49, 50, 51, 52, 53, 54, 55, 56, 57, 65, 66, 67, 68, 69, 70]

def locase (small : Bool) : UInt8 := if small then 0x20 else 0

def digitChar (small : Bool) (d : ℕ) : UInt8 := digits.getD d 0 ||| locase small

/-- The loop for base 8 and 16, with `mask+1` as the base. -/
@[grind]
def putMask (small : Bool) (base : ℕ) : ℕ → ℕ → List UInt8
  | 0, _ => []
  | fuel+1, num =>
    digitChar small (num % 256 % base) ::
      if num/base = 0 then [] else putMask small base fuel (num/base)

/-- `tmp`, the last digit first; its 66 characters are enough for 64 bits. -/
def putDigits (small : Bool) (base : Base) (num : ℕ) : List UInt8 :=
  if num = 0 then [48]
  else match base with
    | .dec => putDec 66 num
    | b => putMask small b.value 66 num

def signText (f : Flags) (num : ℕ) : List UInt8 :=
  if f.sign then
    if 2^63 ≤ num then [45] else if f.plus then [43] else if f.space then [32] else []
  else []

/-- The number whose digits are printed. -/
def magnitude (f : Flags) (num : ℕ) : ℕ := if f.sign ∧ 2^63 ≤ num then 2^64-num else num

def pfxText (f : Flags) : Base → List UInt8
  | .oct => if f.special then [48] else []
  | .dec => []
  | .hex => if f.special then [48, 88 ||| locase f.small] else []

/-- What `while (--size >= 0)` leaves in `size`. -/
def spent (size : ℤ) : ℤ := min (size-1) (-1)

/-- The characters that `number` adds to the text. -/
def number (f : Flags) (base : Base) (size precision : ℤ) (num : ℕ) : List UInt8 :=
  let tmp := putDigits f.small base (magnitude f num)
  let zeropad := f.zeropad && !f.left
  let precision := max (tmp.length : ℤ) precision
  let size := size-(signText f num).length-(pfxText f base).length-precision
  let front := !zeropad && !f.left
  let lead := if front then List.replicate size.toNat 32 else []
  let size := if front then spent size else size
  let fill := if f.left then [] else List.replicate size.toNat (if zeropad then 48 else 32)
  let size := if f.left then size else spent size
  lead ++ signText f num ++ pfxText f base ++ fill ++
    List.replicate (precision-tmp.length).toNat 48 ++ tmp.reverse ++ List.replicate size.toNat 32

/-! ## The division -/

theorem doubled_spec {rem base : ℕ} (hrem : rem < 2^64) (hbase : 0 < base) (fuel k : ℕ)
    (hlt : base*2^k < 2^64) (hfuel : 2^64 ≤ base*2^k*2^fuel) :
    ∃ k', doubled rem fuel (base*2^k) (2^k) = (base*2^k', 2^k') ∧ rem < 2*(base*2^k') := by
  induction fuel generalizing k with
  | zero => omega
  | succ fuel ih =>
    have hpos : 0 < base*2^k := Nat.mul_pos hbase (Nat.two_pow_pos k)
    rw [doubled]
    split_ifs with h
    · have hdouble : base*2^k+base*2^k = base*2^(k+1) := by ring
      have hpow : 2^k+2^k = 2^(k+1) := by ring
      rw [hdouble, hpow]
      refine ih (k+1) (by omega) ?_
      rwa [Nat.mul_assoc, ← pow_add, show k+1+fuel = k+(fuel+1) by omega, pow_add, ← Nat.mul_assoc]
    · exact ⟨k, rfl, by omega⟩

theorem subtracted_spec (base k rem res : ℕ) (h : rem < 2*(base*2^k)) :
    (subtracted rem res (base*2^k) (2^k)).1 < base ∧
      (subtracted rem res (base*2^k) (2^k)).2*base+(subtracted rem res (base*2^k) (2^k)).1 =
        res*base+rem := by
  induction k generalizing rem res with
  | zero =>
    rw [subtracted, pow_zero, mul_one] at *
    rw [if_pos (by decide)]
    split_ifs with hge
    · exact ⟨by omega, by rw [Nat.add_mul]; omega⟩
    · exact ⟨by omega, rfl⟩
  | succ k ih =>
    have hpos := Nat.two_pow_pos k
    have hhalf : base*2^(k+1)/2 = base*2^k := by
      rw [pow_succ, ← Nat.mul_assoc, Nat.mul_div_cancel _ (by decide)]
    have hpow : 2^(k+1)/2 = 2^k := by rw [pow_succ, Nat.mul_div_cancel _ (by decide)]
    have hmul : base*2^(k+1) = 2*(base*2^k) := by ring
    rw [subtracted]
    rw [hhalf, hpow, if_neg hpos.ne']
    split_ifs with hge
    · obtain ⟨h1, h2⟩ := ih (rem-base*2^(k+1)) (res+2^(k+1)) (by omega)
      refine ⟨h1, h2.trans ?_⟩
      rw [Nat.add_mul, Nat.mul_comm (2^(k+1))]
      omega
    · exact ih rem res (by omega)

/-- `__div64_32` divides. -/
theorem div64_eq {n base : ℕ} (hn : n < 2^64) (hbase : 0 < base) (hlt : base < 2^32) :
    div64 n base = (n % base, n/base) := by
  have hres : ∃ res rem, (if n/2^32 ≥ base then n/2^32/base*2^32 else 0) = res ∧
      (if n/2^32 ≥ base then n-n/2^32/base*base*2^32 else n) = rem ∧ res*base+rem = n := by
    split_ifs with h
    · have hmul : n/2^32/base*base*2^32 ≤ n := by
        have h1 := Nat.div_mul_le_self (n/2^32) base
        have h2 := Nat.div_mul_le_self n (2^32)
        exact (Nat.mul_le_mul_right _ h1).trans h2
      refine ⟨_, _, rfl, rfl, ?_⟩
      rw [Nat.mul_right_comm]
      omega
    · exact ⟨_, _, rfl, rfl, by omega⟩
  obtain ⟨res, rem, hr1, hr2, hsum⟩ := hres
  obtain ⟨k, hup, hrem⟩ := @doubled_spec rem base (by omega) hbase 64 0 (by omega) (by omega)
  rw [pow_zero, mul_one] at hup
  obtain ⟨h1, h2⟩ := subtracted_spec base k rem res hrem
  rw [hsum] at h2
  unfold div64
  dsimp only
  rw [hr1, hr2, hup]
  dsimp only
  obtain ⟨hdiv, hmod⟩ := (Nat.div_mod_unique hbase).2 ⟨(Nat.add_comm _ _).trans
    ((congrArg (· + _) (Nat.mul_comm _ _)).trans h2), h1⟩
  rw [hdiv, hmod]

theorem doDiv_eq {n base : ℕ} (hn : n < 2^64) (hbase : 0 < base) (hlt : base < 2^32) :
    doDiv n base = (n % base, n/base) := by
  rw [doDiv, div64_eq hn hbase hlt, ite_self]

/-! ## The decimal digits -/

/-- A division by ten as multiplication and shift. -/
theorem tenth {x : ℕ} (h : x ≤ 1028) : x*0xcd/2^11 = x/10 := by omega

theorem tenth_short {x : ℕ} (h : x ≤ 68) : x*0xd/2^7 = x/10 := by omega

theorem ten_split {q a e : ℕ} (h : q = 10*a+e) : q/10 = a+e/10 ∧ q % 10 = e % 10 := by omega

theorem sub_tenth (x : ℕ) : x-10*(x/10) = x % 10 := by omega

theorem nibbles (q : ℕ) : q = 4096*(q/2^12)+256*(q/2^8 % 16)+16*(q/2^4 % 16)+q % 16 := by omega

/-- The steps of both functions: each takes the last digit and leaves the tenth of what it had. -/
theorem steps {q d1 d2 d3 e0 e1 e2 e3 : ℕ} (h : q < 100000) (h1 : d1 = q/2^4 % 16)
    (h2 : d2 = q/2^8 % 16) (h3 : d3 = q/2^12) (he0 : e0 = 6*(d3+d2+d1)+q % 16)
    (he1 : e1 = e0*0xcd/2^11+9*d3+5*d2+d1) (he2 : e2 = e1*0xcd/2^11+2*d2)
    (he3 : e3 = e2*0xd/2^7+4*d3) :
    (e0-10*(e0*0xcd/2^11) = q % 10 ∧ e1-10*(e1*0xcd/2^11) = q/10 % 10 ∧
      e2-10*(e2*0xd/2^7) = q/100 % 10 ∧ e3-10*(e3*0xcd/2^11) = q/1000 % 10 ∧
      e3*0xcd/2^11 = q/10000) ∧
    (e1 = 0 ↔ q/10 = 0) ∧ (e2 = 0 ∧ d3 = 0 ↔ q/100 = 0) ∧ (e3 = 0 ↔ q/1000 = 0) := by
  have hnib := nibbles q
  rw [← h1, ← h2, ← h3] at hnib
  have hd0 : q % 16 < 16 := Nat.mod_lt _ (by decide)
  have hd1 : d1 < 16 := h1 ▸ Nat.mod_lt _ (by decide)
  have hd2 : d2 < 16 := h2 ▸ Nat.mod_lt _ (by decide)
  have hd3 : d3 ≤ 24 := h3 ▸ Nat.le_of_lt_succ (Nat.div_lt_of_lt_mul (by omega))
  clear h1 h2 h3
  generalize q % 16 = d0 at he0 hnib hd0
  rw [tenth (by omega)] at he1
  obtain ⟨hq1, hr0⟩ := ten_split (q := q) (a := 409*d3+25*d2+d1) (e := e0) (by omega)
  have hb0 : e0/10 ≤ 34 := Nat.le_of_lt_succ (Nat.div_lt_of_lt_mul (by omega))
  rw [tenth (by omega)] at he2
  obtain ⟨hq2, hr1⟩ := ten_split (q := q/10) (a := 40*d3+2*d2) (e := e1) (by omega)
  have hb1 : e1/10 ≤ 34 := Nat.le_of_lt_succ (Nat.div_lt_of_lt_mul (by omega))
  rw [tenth_short (by omega)] at he3
  obtain ⟨hq3, hr2⟩ := ten_split (q := q/10/10) (a := 4*d3) (e := e2) (by omega)
  have hb2 : e2/10 ≤ 6 := Nat.le_of_lt_succ (Nat.div_lt_of_lt_mul (by omega))
  obtain ⟨hq4, hr3⟩ := ten_split (q := q/10/10/10) (a := 0) (e := e3) (by omega)
  rw [tenth (by omega), tenth (by omega), tenth_short (by omega), tenth (by omega), sub_tenth,
    sub_tenth, sub_tenth, sub_tenth, ← hr0, ← hr1, ← hr2, ← hr3]
  have h100 : q/100 = q/10/10 := (Nat.div_div_eq_div_mul q 10 10).symm
  have h1000 : q/1000 = q/10/10/10 := by rw [← h100, Nat.div_div_eq_div_mul]
  have h10000 : q/10000 = q/10/10/10/10 := by rw [← h1000, Nat.div_div_eq_div_mul]
  rw [h100, h1000, h10000]
  clear hr0 hr1 hr2 hr3 h100 h1000 h10000
  exact ⟨⟨rfl, rfl, rfl, rfl, by omega⟩, by omega, by omega, by omega⟩

theorem putDecFull_eq {q : ℕ} (h : q < 100000) :
    putDecFull q = [ch (q % 10), ch (q/10 % 10), ch (q/100 % 10), ch (q/1000 % 10), ch (q/10000)] := by
  obtain ⟨⟨h0, h1, h2, h3, h4⟩, -⟩ := steps h rfl rfl rfl rfl rfl rfl rfl
  unfold putDecFull
  dsimp only
  rw [h0, h1, h2, h3, h4]

theorem digits_ten {n : ℕ} (h : n ≠ 0) : Nat.digits 10 n = n % 10 :: Nat.digits 10 (n/10) :=
  Nat.digits_eq_cons_digits_div (by decide) h

theorem putDecTrunc_eq {q : ℕ} (h : q < 100000) (hq : q ≠ 0) :
    putDecTrunc q = (Nat.digits 10 q).map ch := by
  obtain ⟨⟨h0, h1, h2, h3, h4⟩, hend1, hend2, hend3⟩ := steps h rfl rfl rfl rfl rfl rfl rfl
  have h100 : q/10/10 = q/100 := Nat.div_div_eq_div_mul q 10 10
  have h1000 : q/100/10 = q/1000 := Nat.div_div_eq_div_mul q 100 10
  have h10000 : q/1000/10 = q/10000 := Nat.div_div_eq_div_mul q 1000 10
  unfold putDecTrunc
  dsimp only
  simp only [h0, h1, h2, h3]
  simp only [h4, hend1, hend2, hend3]
  rw [digits_ten hq, List.map_cons]
  by_cases hz1 : q/10 = 0
  · rw [if_pos hz1, hz1, Nat.digits_zero, List.map_nil]
  rw [if_neg hz1, digits_ten hz1, List.map_cons, h100]
  by_cases hz2 : q/100 = 0
  · rw [if_pos hz2, hz2, Nat.digits_zero, List.map_nil]
  rw [if_neg hz2, digits_ten hz2, List.map_cons, h1000]
  by_cases hz3 : q/1000 = 0
  · rw [if_pos hz3, hz3, Nat.digits_zero, List.map_nil]
  rw [if_neg hz3, digits_ten hz3, List.map_cons, h10000]
  by_cases hz4 : q/10000 = 0
  · rw [if_pos hz4, hz4, Nat.digits_zero, List.map_nil]
  have hlast : q/10000 < 10 := Nat.div_lt_of_lt_mul h
  rw [if_neg hz4, Nat.digits_of_lt 10 _ hz4 hlast, List.map_singleton]

/-- A digit of a piece is the digit of the number. -/
theorem digit_piece (n : ℕ) {d : ℕ} (h : d*10 ∣ 100000) :
    n % 100000/d % 10 = n/d % 10 := by
  obtain ⟨k, hk⟩ := h
  rw [hk, Nat.mul_assoc, Nat.mod_mul_right_div_self, Nat.mod_mul_right_mod]

theorem putDec_eq (fuel n : ℕ) (hn : n < 2^64) (h0 : n ≠ 0) (hfuel : n < 100000^fuel) :
    putDec fuel n = (Nat.digits 10 n).map ch := by
  induction fuel generalizing n with
  | zero => omega
  | succ fuel ih =>
    rw [putDec]
    split_ifs with hlt
    · exact putDecTrunc_eq hlt h0
    · have hnext : n/100000 < 100000^fuel := Nat.div_lt_of_lt_mul (by rwa [← pow_succ'])
      have hmod : n % 100000 < 100000 := Nat.mod_lt _ (by decide)
      dsimp only
      rw [doDiv_eq hn (by decide) (by decide), putDecFull_eq hmod,
        ih (n/100000) (by omega) (by omega) hnext]
      have h1 : n/10 ≠ 0 := by omega
      have h2 : n/10/10 ≠ 0 := by omega
      have h3 : n/10/10/10 ≠ 0 := by omega
      have h4 : n/10/10/10/10 ≠ 0 := by omega
      rw [digits_ten h0, digits_ten h1, digits_ten h2, digits_ten h3, digits_ten h4]
      simp only [Nat.div_div_eq_div_mul, List.map_cons, List.cons_append, List.nil_append,
        Nat.reduceMul]
      have hone : n % 100000 % 10 = n % 10 := Nat.mod_mod_of_dvd n (by decide)
      have hlast : n % 100000/10000 = n/10000 % 10 := Nat.mod_mul_right_div_self n 10000 10
      rw [hone, digit_piece n (by decide), digit_piece n (by decide),
        digit_piece n (by decide), hlast]

/-! ## The characters of a number -/

theorem Base.one_lt (b : Base) : 1 < b.value := by
  cases b <;> decide

theorem putMask_eq (small : Bool) {b : ℕ} (hb : 1 < b) (hdvd : b ∣ 256) (fuel n : ℕ) (h0 : n ≠ 0)
    (hfuel : n < b^fuel) : putMask small b fuel n = (Nat.digits b n).map (digitChar small) := by
  induction fuel generalizing n with
  | zero => exact absurd (Nat.lt_one_iff.1 hfuel) h0
  | succ fuel ih =>
    rw [putMask, Nat.mod_mod_of_dvd n hdvd, Nat.digits_eq_cons_digits_div hb h0, List.map_cons]
    split_ifs with hend
    · rw [hend, Nat.digits_zero, List.map_nil]
    · rw [ih (n/b) hend (Nat.div_lt_of_lt_mul (by rwa [← pow_succ']))]

theorem ch_eq (small : Bool) {d : ℕ} (h : d < 10) : ch d = digitChar small d := by
  revert d
  cases small <;> decide

/-- The digits of a number, the last one first, without leading zeros. -/
theorem putDigits_eq (small : Bool) (base : Base) {n : ℕ} (hn : n < 2^64) :
    putDigits small base n =
      if n = 0 then [48] else (Nat.digits base.value n).map (digitChar small) := by
  have hlt : ∀ b, 2 ≤ b → n < b^66 := fun b hb =>
    hn.trans_le ((Nat.pow_le_pow_right (by decide) (by decide)).trans (Nat.pow_le_pow_left hb 66))
  unfold putDigits
  split_ifs with h0
  · rfl
  cases base with
  | oct => exact putMask_eq small (by decide) (by decide) 66 n h0 (hlt 8 (by decide))
  | hex => exact putMask_eq small (by decide) (by decide) 66 n h0 (hlt 16 (by decide))
  | dec =>
    refine (putDec_eq 66 n hn h0 (hlt 100000 (by decide))).trans (List.map_congr_left fun d hd => ?_)
    exact ch_eq small (Nat.digits_lt_base (by decide) hd)

theorem magnitude_lt (f : Flags) {num : ℕ} (h : num < 2^64) : magnitude f num < 2^64 := by
  unfold magnitude
  split_ifs <;> omega

/-! ## Padding -/

theorem spent_toNat (size : ℤ) : (spent size).toNat = 0 := by
  unfold spent
  omega

/-- Where the width and the precision ask for no padding, the text is the sign, the mark of the
base and the digits. -/
theorem number_unpadded (f : Flags) (base : Base) (size precision : ℤ) (num : ℕ)
    (hprecision : precision ≤ (putDigits f.small base (magnitude f num)).length)
    (hsize : size ≤ (signText f num ++ pfxText f base ++
      putDigits f.small base (magnitude f num)).length) :
    number f base size precision num =
      signText f num ++ pfxText f base ++ (putDigits f.small base (magnitude f num)).reverse := by
  have hneg : size-(signText f num).length-(pfxText f base).length-
      max ((putDigits f.small base (magnitude f num)).length : ℤ) precision ≤ 0 := by
    rw [max_eq_left hprecision]
    simp only [List.length_append, Nat.cast_add] at hsize
    omega
  have hspent := spent_toNat
  unfold number
  dsimp only
  generalize size-(signText f num).length-(pfxText f base).length-
    max ((putDigits f.small base (magnitude f num)).length : ℤ) precision = s at hneg ⊢
  have hnone : s.toNat = 0 := Int.toNat_of_nonpos hneg
  rw [max_eq_left hprecision, Int.sub_self, Int.toNat_zero, List.replicate_zero]
  cases f.zeropad <;> cases f.left <;> simp [hspent, hnone]

end UBoot.NumberText
