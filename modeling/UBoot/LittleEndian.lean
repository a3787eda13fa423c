import Mathlib.Tactic

/-!
# Numbers in little-endian bytes

`le n v` are the `n` low bytes of `v`, and `ofLe` reads bytes back. A record is
a row of such fields, and `fieldAt` reads the field at an offset.
-/

set_option autoImplicit false

namespace UBoot.LittleEndian

@[grind]
def le : ℕ → ℕ → List UInt8
  | 0, _ => []
  | n+1, v => UInt8.ofNat v :: le n (v/256)

@[grind]
def ofLe : List UInt8 → ℕ
  | [] => 0
  | b :: bs => b.toNat+256*ofLe bs

def fieldAt (bs : List UInt8) (offset n : ℕ) : ℕ := ofLe ((bs.drop offset).take n)

@[simp] theorem length_le (n v : ℕ) : (le n v).length = n := by
  induction n generalizing v with
  | zero => rfl
  | succ n ih => rw [le, List.length_cons, ih]

theorem ofLe_le (n v : ℕ) : ofLe (le n v) = v % 256^n := by
  induction n generalizing v with
  | zero => simp [le, ofLe, Nat.mod_one]
  | succ n ih =>
    have hsplit : v % 256^(n+1) = v % 256+256*(v/256 % 256^n) := by rw [pow_succ', Nat.mod_mul]
    rw [le, ofLe, ih, UInt8.toNat_ofNat', hsplit]

theorem ofLe_zeros (bs : List UInt8) (h : ∀ b ∈ bs, b = 0) : ofLe bs = 0 := by
  induction bs with
  | nil => rfl
  | cons b bs ih =>
    rw [ofLe, h b List.mem_cons_self, ih fun c hc => h c (List.mem_cons_of_mem _ hc)]
    rfl

theorem ofLe_lt (bs : List UInt8) : ofLe bs < 256^bs.length := by
  induction bs with
  | nil => decide
  | cons b bs ih =>
    have hb := b.toNat_lt
    rw [ofLe, List.length_cons, pow_succ']
    omega

theorem fieldAt_lt (bs : List UInt8) (offset n : ℕ) : fieldAt bs offset n < 256^n :=
  (ofLe_lt _).trans_le (Nat.pow_le_pow_right (by decide) (List.length_take_le n _))

theorem ofLe_drop (bs : List UInt8) (n : ℕ) : ofLe (bs.drop n) = ofLe bs/256^n := by
  induction n generalizing bs with
  | zero => rw [List.drop_zero, pow_zero, Nat.div_one]
  | succ n ih =>
    cases bs with
    | nil => rw [List.drop_nil, ofLe, Nat.zero_div]
    | cons b bs =>
      have hb := b.toNat_lt
      rw [List.drop_succ_cons, ih, ofLe, pow_succ', ← Nat.div_div_eq_div_mul,
        show (b.toNat+256*ofLe bs)/256 = ofLe bs by omega]

theorem ofLe_take (bs : List UInt8) (n : ℕ) : ofLe (bs.take n) = ofLe bs % 256^n := by
  induction n generalizing bs with
  | zero => rw [List.take_zero, pow_zero, Nat.mod_one, ofLe]
  | succ n ih =>
    cases bs with
    | nil => rw [List.take_nil, ofLe, Nat.zero_mod]
    | cons b bs =>
      have hb := b.toNat_lt
      have hlow : (b.toNat+256*ofLe bs) % 256 = b.toNat := by omega
      have hhigh : (b.toNat+256*ofLe bs)/256 = ofLe bs := by omega
      rw [List.take_succ_cons, ofLe, ih, ofLe, pow_succ', Nat.mod_mul, hlow, hhigh]

/-- A field is a row of bits of the number. -/
theorem fieldAt_eq_bits (bs : List UInt8) (offset n : ℕ) :
    fieldAt bs offset n = ofLe bs/2^(8*offset) % 2^(8*n) := by
  rw [fieldAt, ofLe_take, ofLe_drop, pow_mul, pow_mul, show (2 : ℕ)^8 = 256 by decide]

/-- A field is read where it has been put. -/
theorem fieldAt_le (front back : List UInt8) (offset n v : ℕ) (hoffset : front.length = offset) :
    fieldAt (front ++ (le n v ++ back)) offset n = v % 256^n := by
  rw [fieldAt, ← hoffset, List.drop_left, List.take_left' (length_le n v), ofLe_le]

theorem fieldAt_append (bs rest : List UInt8) (offset n : ℕ) (h : offset+n ≤ bs.length) :
    fieldAt (bs ++ rest) offset n = fieldAt bs offset n := by
  rw [fieldAt, fieldAt, List.drop_append_of_le_length (by omega),
    List.take_append_of_le_length (by rw [List.length_drop]; omega)]

end UBoot.LittleEndian
