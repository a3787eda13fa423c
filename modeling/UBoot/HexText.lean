import UBoot.LittleEndian

/-!
# Bytes in hexadecimal digits

A text is a list of characters as bytes. `pairs` writes two digits for a byte,
the high one first, and `value` reads a row of digits of either case.
-/

set_option autoImplicit false

namespace UBoot.HexText
open UBoot.LittleEndian

/-- What a digit of either case stands for. -/
def digit (c : UInt8) : Option ℕ :=
  if 48 ≤ c ∧ c ≤ 57 then some (c.toNat-48)
  else if 65 ≤ c ∧ c ≤ 70 then some (c.toNat-55)
  else if 97 ≤ c ∧ c ≤ 102 then some (c.toNat-87)
  else none

def IsDigits (s : List UInt8) : Prop := ∀ c ∈ s, (digit c).isSome

instance (s : List UInt8) : Decidable (IsDigits s) :=
  List.decidableBAll (fun c => (digit c).isSome = true) s

def value (s : List UInt8) : ℕ := s.foldl (fun v c => v*16+(digit c).getD 0) 0

/-- The digits are counted from `letter` after the nine. -/
def digitChar (letter : UInt8) (n : ℕ) : UInt8 :=
  if n < 10 then UInt8.ofNat (48+n) else letter+UInt8.ofNat (n-10)

def lowerA : UInt8 := 97
def upperA : UInt8 := 65

def pair (letter b : UInt8) : List UInt8 :=
  [digitChar letter (b.toNat/16), digitChar letter (b.toNat % 16)]

def pairs (letter : UInt8) (bs : List UInt8) : List UInt8 := bs.flatMap (pair letter)

def toLower (c : UInt8) : UInt8 := if 65 ≤ c ∧ c ≤ 90 then c+32 else c

/-- The bytes of a row of digits. -/
def bytesOf : List UInt8 → List UInt8
  | a :: b :: s => UInt8.ofNat ((digit a).getD 0*16+(digit b).getD 0) :: bytesOf s
  | _ => []

/-- The bytes of a number, the high one first. -/
def be (n v : ℕ) : List UInt8 := (le n v).reverse

def ofBe (bs : List UInt8) : ℕ := ofLe bs.reverse

/-! ## Digits -/

theorem digit_digitChar (n : ℕ) (hn : n < 16) :
    digit (digitChar lowerA n) = some n ∧ digit (digitChar upperA n) = some n := by
  revert n
  decide

theorem digit_lt (c : UInt8) (n : ℕ) (h : digit c = some n) : n < 16 := by
  unfold digit at h
  simp only [UInt8.le_iff_toNat_le] at h
  split_ifs at h with h1 h2 h3 <;> cases h <;> simp at * <;> omega

theorem digitChar_digit (c : UInt8) (n : ℕ) (h : digit c = some n) :
    digitChar lowerA n = toLower c := by
  unfold digit at h
  unfold digitChar lowerA toLower
  simp only [UInt8.le_iff_toNat_le] at h ⊢
  apply UInt8.toNat_inj.mp
  split_ifs at h ⊢ with h1 h2 h3 h4 h5 <;> cases h <;> simp at * <;> omega

/-! ## Rows of digits -/

theorem foldl_value (s : List UInt8) (v : ℕ) :
    s.foldl (fun v c => v*16+(digit c).getD 0) v = v*16^s.length+value s := by
  induction s generalizing v with
  | nil => simp [value]
  | cons c s ih =>
    rw [value, List.foldl_cons, List.foldl_cons, ih, ih (0*16+_), List.length_cons, pow_succ]
    ring

@[simp] theorem value_nil : value [] = 0 := rfl

theorem value_append (s t : List UInt8) : value (s ++ t) = value s*16^t.length+value t := by
  rw [value, List.foldl_append, foldl_value t]
  rfl

theorem value_lt (s : List UInt8) : value s < 16^s.length := by
  induction s using List.reverseRecOn with
  | nil => simp
  | append_singleton s c ih =>
    have hc : (digit c).getD 0 < 16 := by
      cases h : digit c with
      | none => simp
      | some n => exact digit_lt c n h
    rw [value_append, List.length_append, List.length_singleton, pow_one, pow_succ]
    simp only [value, List.foldl_cons, List.foldl_nil, Nat.zero_mul, Nat.zero_add] at ih ⊢
    omega

/-! ## Numbers -/

@[simp] theorem length_be (n v : ℕ) : (be n v).length = n := by
  rw [be, List.length_reverse, length_le]

theorem be_succ (n v : ℕ) : be (n+1) v = be n (v/256) ++ [UInt8.ofNat v] := by
  rw [be, le, List.reverse_cons, be]

theorem ofBe_append (bs : List UInt8) (b : UInt8) : ofBe (bs ++ [b]) = ofBe bs*256+b.toNat := by
  rw [ofBe, List.reverse_append, List.reverse_singleton, List.singleton_append, ofLe, ofBe]
  omega

theorem be_ofBe (bs : List UInt8) : be bs.length (ofBe bs) = bs := by
  induction bs using List.reverseRecOn with
  | nil => rfl
  | append_singleton bs b ih =>
    have hb := b.toNat_lt
    rw [List.length_append, List.length_singleton, be_succ, ofBe_append,
      show (ofBe bs*256+b.toNat)/256 = ofBe bs by omega, ih]
    congr 2
    apply UInt8.toNat_inj.mp
    rw [UInt8.toNat_ofNat']
    omega

/-! ## Bytes -/

theorem pairs_append (letter : UInt8) (bs cs : List UInt8) :
    pairs letter (bs ++ cs) = pairs letter bs ++ pairs letter cs := List.flatMap_append ..

theorem length_pairs (letter : UInt8) (bs : List UInt8) :
    (pairs letter bs).length = 2*bs.length := by
  induction bs with
  | nil => rfl
  | cons b bs ih =>
    rw [pairs, List.flatMap_cons, List.length_append, ← pairs, ih, List.length_cons, pair]
    simp only [List.length_cons, List.length_nil]
    omega

theorem digits_pairs (letter : UInt8) (hletter : letter = lowerA ∨ letter = upperA)
    (bs : List UInt8) : IsDigits (pairs letter bs) := by
  intro c hc
  obtain ⟨b, -, hb⟩ := List.mem_flatMap.mp hc
  have hhigh := digit_digitChar (b.toNat/16) (by have := b.toNat_lt; omega)
  have hlow := digit_digitChar (b.toNat % 16) (by omega)
  simp only [pair, List.mem_cons, List.not_mem_nil, or_false] at hb
  rcases hletter with rfl | rfl <;> rcases hb with rfl | rfl <;>
    simp only [hhigh, hlow, Option.isSome_some]

theorem value_pairs (letter : UInt8) (hletter : letter = lowerA ∨ letter = upperA)
    (bs : List UInt8) : value (pairs letter bs) = ofBe bs := by
  induction bs using List.reverseRecOn with
  | nil => rfl
  | append_singleton bs b ih =>
    have hhigh := digit_digitChar (b.toNat/16) (by have := b.toNat_lt; omega)
    have hlow := digit_digitChar (b.toNat % 16) (by omega)
    have hpair : value (pair letter b) = b.toNat := by
      rcases hletter with rfl | rfl <;>
        simp only [value, pair, List.foldl_cons, List.foldl_nil, hhigh, hlow, Option.getD_some] <;>
        omega
    rw [pairs_append, value_append, ih, ofBe_append]
    simp only [pairs, List.flatMap_singleton, hpair]
    rfl

theorem length_bytesOf (n : ℕ) (s : List UInt8) (h : s.length = 2*n) :
    (bytesOf s).length = n := by
  induction n generalizing s with
  | zero => rw [List.length_eq_zero_iff.mp (by omega : s.length = 0)]; rfl
  | succ n ih =>
    match s, h with
    | a :: b :: s, h =>
      rw [bytesOf, List.length_cons, ih s (by simp only [List.length_cons] at h; omega)]

theorem bytesOf_pairs (letter : UInt8) (hletter : letter = lowerA ∨ letter = upperA)
    (bs rest : List UInt8) : bytesOf (pairs letter bs ++ rest) = bs ++ bytesOf rest := by
  induction bs with
  | nil => rfl
  | cons b bs ih =>
    have hhigh := digit_digitChar (b.toNat/16) (by have := b.toNat_lt; omega)
    have hlow := digit_digitChar (b.toNat % 16) (by omega)
    have hbyte : UInt8.ofNat (b.toNat/16*16+b.toNat % 16) = b := by
      rw [Nat.div_add_mod' b.toNat 16, UInt8.ofNat_toNat]
    rw [pairs, List.flatMap_cons, ← pairs, pair, List.append_assoc]
    simp only [List.cons_append, List.nil_append, bytesOf]
    rw [ih]
    rcases hletter with rfl | rfl <;>
      simp only [hhigh, hlow, Option.getD_some, hbyte]

/-- The bytes of a row of digits are written as the digits, in lower case. -/
theorem pairs_be (n : ℕ) (s : List UInt8) (hlen : s.length = 2*n) (hs : IsDigits s) :
    pairs lowerA (be n (value s)) = s.map toLower := by
  induction n generalizing s with
  | zero =>
    rw [List.length_eq_zero_iff.mp (by omega : s.length = 0)]
    rfl
  | succ n ih =>
    obtain ⟨x, y, hxy⟩ := List.length_eq_two.mp (show (s.drop (2*n)).length = 2 by
      rw [List.length_drop]; omega)
    obtain ⟨t, rfl⟩ : ∃ t, s = t ++ [x, y] :=
      ⟨s.take (2*n), by rw [← hxy, List.take_append_drop]⟩
    have ht : t.length = 2*n := by
      simp only [List.length_append, List.length_cons, List.length_nil] at hlen
      omega
    obtain ⟨i, hi⟩ := Option.isSome_iff_exists.mp (hs x (by simp))
    obtain ⟨j, hj⟩ := Option.isSome_iff_exists.mp (hs y (by simp))
    have hi' := digit_lt x i hi
    have hj' := digit_lt y j hj
    have hv : value (t ++ [x, y]) = value t*256+(i*16+j) := by
      rw [value_append]
      simp [value, hi, hj]
    have hbyte : (UInt8.ofNat (value t*256+(i*16+j))).toNat = i*16+j := by
      rw [UInt8.toNat_ofNat']
      omega
    rw [hv, be_succ, show (value t*256+(i*16+j))/256 = value t by omega, pairs_append,
      ih t ht (fun c hc => hs c (List.mem_append_left _ hc)), List.map_append]
    simp only [pairs, List.flatMap_singleton, pair, hbyte, List.map_cons, List.map_nil,
      ← digitChar_digit x i hi, ← digitChar_digit y j hj,
      show (i*16+j)/16 = i by omega, show (i*16+j) % 16 = j by omega]

end UBoot.HexText
