import Mathlib.Data.List.GetD
import Mathlib.Tactic

/-!
# Shift registers with feedback

A register is shifted towards its lowest bit, and the feedback is added when a
one leaves it. Shifting is linear, and it is injective when the feedback has
the highest bit. Up to as many bits as the register is wide may be taken in at
once, which makes all the ways to feed it by bytes and words the same.
-/

set_option autoImplicit false

namespace ShiftRegister

variable {w : ℕ} (poly : BitVec w)

def shift (c : BitVec w) : BitVec w := if c.getLsbD 0 then poly ^^^ (c >>> 1) else c >>> 1

def shifts : ℕ → BitVec w → BitVec w
  | 0, c => c
  | n+1, c => shifts n (shift poly c)

def bit (b : Bool) : BitVec w := (BitVec.ofBool b).setWidth w

/-- The bits come in one by one. -/
def feed (c : BitVec w) (bits : List Bool) : BitVec w :=
  bits.foldl (fun c b => shift poly (c ^^^ bit b)) c

/-- The register that holds a list of bits, the first of them lowest. -/
def packed : List Bool → BitVec w
  | [] => 0
  | b :: bits => bit b ^^^ (packed bits <<< 1)

/-! ## Shifting -/

theorem shift_xor (a b : BitVec w) : shift poly (a ^^^ b) = shift poly a ^^^ shift poly b := by
  unfold shift
  rw [BitVec.getLsbD_xor, BitVec.ushiftRight_xor_distrib]
  cases a.getLsbD 0 <;> cases b.getLsbD 0
  · rfl
  · simp only [Bool.false_xor, if_true, Bool.false_eq_true, if_false]
    ac_rfl
  · simp only [Bool.xor_false, if_true, Bool.false_eq_true, if_false]
    ac_rfl
  · simp only [Bool.xor_self, if_true, Bool.false_eq_true, if_false]
    rw [show ∀ p x y : BitVec w, p ^^^ x ^^^ (p ^^^ y) = (p ^^^ p) ^^^ (x ^^^ y) from
      fun p x y => by ac_rfl, BitVec.xor_self, BitVec.zero_xor]

theorem shifts_xor (n : ℕ) (a b : BitVec w) :
    shifts poly n (a ^^^ b) = shifts poly n a ^^^ shifts poly n b := by
  induction n generalizing a b with
  | zero => rfl
  | succ n ih => rw [shifts, shift_xor, ih, shifts, shifts]

/-- What has been moved up without a loss comes down again. -/
theorem shift_shiftLeft (c : BitVec w) (hc : c.getLsbD (w-1) = false) :
    shift poly (c <<< 1) = c := by
  have hlow : (c <<< 1).getLsbD 0 = false := by simp
  rw [shift, hlow, if_neg Bool.false_ne_true]
  apply BitVec.eq_of_getLsbD_eq
  intro i hi
  rw [BitVec.getLsbD_ushiftRight, BitVec.getLsbD_shiftLeft]
  by_cases htop : 1+i < w
  · simp [htop]
  · rw [show i = w-1 by omega, hc, decide_eq_false (by omega), Bool.false_and, Bool.false_and]

theorem shift_injective (hpoly : poly.msb = true) : Function.Injective (shift poly) := by
  intro a b h
  have hzero : shift poly (a ^^^ b) = 0 := by rw [shift_xor, h, BitVec.xor_self]; rfl
  generalize hc : a ^^^ b = c at hzero
  have hclear : c = 0 := by
    unfold shift at hzero
    apply BitVec.eq_of_getLsbD_eq
    intro i hi
    have hbit : ∀ j, (if c.getLsbD 0 then poly ^^^ (c >>> 1) else c >>> 1).getLsbD j = false :=
      fun j => by rw [hzero]; exact BitVec.getLsbD_zero
    -- the highest bit of the shifted register tells whether there was a feedback
    have hlow : c.getLsbD 0 = false := by
      by_contra hne
      have htop := hbit (w-1)
      rw [if_pos (by simpa using hne), BitVec.getLsbD_xor, ← BitVec.msb_eq_getLsbD_last, hpoly,
        BitVec.getLsbD_ushiftRight, BitVec.getLsbD_of_ge _ _ (by omega)] at htop
      exact absurd htop (by decide)
    rw [BitVec.ofNat_eq_ofNat, BitVec.getLsbD_zero]
    cases i with
    | zero => exact hlow
    | succ i =>
      have hi' := hbit i
      rwa [hlow, if_neg Bool.false_ne_true, BitVec.getLsbD_ushiftRight, Nat.add_comm] at hi'
  exact BitVec.xor_eq_zero_iff.mp (hc.trans hclear)

theorem shifts_injective (hpoly : poly.msb = true) (n : ℕ) :
    Function.Injective (shifts poly n) := by
  induction n with
  | zero => exact fun _ _ h => h
  | succ n ih => exact fun _ _ h => shift_injective poly hpoly (ih h)

/-! ## Packing -/

theorem getLsbD_bit (b : Bool) (i : ℕ) :
    (bit b : BitVec w).getLsbD i = (decide (i = 0 ∧ 0 < w) && b) := by
  rw [bit, BitVec.getLsbD_setWidth]
  cases i with
  | zero => simp
  | succ i => simp

theorem getLsbD_packed (bits : List Bool) (i : ℕ) :
    (packed bits : BitVec w).getLsbD i = (decide (i < w) && bits.getD i false) := by
  induction bits generalizing i with
  | nil => simp [packed]
  | cons b bits ih =>
    rw [packed, BitVec.getLsbD_xor, getLsbD_bit, BitVec.getLsbD_shiftLeft, ih]
    cases i with
    | zero => simp
    | succ i =>
      by_cases hi : i+1 < w
      · simp [hi, show i < w by omega]
      · simp [hi]

/-- The bits of a number from the lowest on. -/
def bitsOf {n : ℕ} (x : BitVec n) : List Bool := (List.range n).map x.getLsbD

@[simp] theorem length_bitsOf {n : ℕ} (x : BitVec n) : (bitsOf x).length = n := by
  rw [bitsOf, List.length_map, List.length_range]

theorem bitsOf_append {n m : ℕ} (x : BitVec n) (y : BitVec m) :
    bitsOf (x ++ y) = bitsOf y ++ bitsOf x := by
  have hsplit : List.range (n+m) = List.range m ++ (List.range n).map (m+·) := by
    rw [Nat.add_comm, List.range_add]
  rw [bitsOf, hsplit, List.map_append, List.map_map, bitsOf, bitsOf]
  congr 1
  · apply List.map_congr_left
    intro i hi
    rw [BitVec.getLsbD_append, if_pos (List.mem_range.mp hi)]
  · apply List.map_congr_left
    intro i _
    rw [Function.comp_apply, BitVec.getLsbD_append, if_neg (by omega), Nat.add_sub_cancel_left]

theorem packed_bitsOf {n : ℕ} (x : BitVec n) : (packed (bitsOf x) : BitVec w) = x.setWidth w := by
  apply BitVec.eq_of_getLsbD_eq
  intro i hi
  rw [getLsbD_packed, BitVec.getLsbD_setWidth, bitsOf, List.getD_eq_getElem?_getD,
    List.getElem?_map]
  by_cases hn : i < n
  · rw [List.getElem?_range hn, Option.map_some, Option.getD_some]
  · rw [List.getElem?_eq_none (by rw [List.length_range]; omega), BitVec.getLsbD_of_ge _ _ (by omega)]
    rfl

theorem packed_injective {bits bits' : List Bool} (hlen : bits.length = bits'.length)
    (hw : bits.length ≤ w) (h : (packed bits : BitVec w) = packed bits') : bits = bits' := by
  apply List.ext_getElem hlen
  intro i hi hi'
  have hbit := congrArg (fun c : BitVec w => c.getLsbD i) h
  rwa [getLsbD_packed, getLsbD_packed, decide_eq_true (show i < w by omega), Bool.true_and,
    Bool.true_and, List.getD_eq_getElem _ _ hi, List.getD_eq_getElem _ _ hi'] at hbit

/-! ## Feeding -/

theorem feed_append (c : BitVec w) (bits bits' : List Bool) :
    feed poly c (bits ++ bits') = feed poly (feed poly c bits) bits' := List.foldl_append

/-- Bits that fit into the register are taken in at once. -/
theorem feed_eq (c : BitVec w) (bits : List Bool) (hw : bits.length ≤ w) :
    feed poly c bits = shifts poly bits.length (c ^^^ packed bits) := by
  induction bits generalizing c with
  | nil => rw [packed, List.length_nil, shifts]; exact (BitVec.xor_zero).symm
  | cons b bits ih =>
    rw [List.length_cons] at hw
    have htop : (packed bits : BitVec w).getLsbD (w-1) = false := by
      rw [getLsbD_packed, List.getD_eq_default _ _ (by omega), Bool.and_false]
    rw [feed, List.foldl_cons, ← feed, ih _ (by omega), List.length_cons, shifts, packed,
      ← BitVec.xor_assoc, shift_xor poly _ (packed bits <<< 1), shift_shiftLeft poly _ htop]

theorem feed_injective (hpoly : poly.msb = true) (bits : List Bool) :
    Function.Injective fun c => feed poly c bits := by
  induction bits with
  | nil => exact fun _ _ h => h
  | cons b bits ih =>
    intro c c' h
    have hshift := shift_injective poly hpoly (ih h)
    exact BitVec.xor_left_inj _ |>.mp hshift

/-- Bits that differ only where the register holds them all are told apart. -/
theorem feed_burst (hpoly : poly.msb = true) (c : BitVec w) {front u v back : List Bool}
    (hlen : u.length = v.length) (hw : u.length ≤ w)
    (h : feed poly c (front ++ u ++ back) = feed poly c (front ++ v ++ back)) : u = v := by
  rw [feed_append, feed_append, feed_append, feed_append] at h
  have hmiddle := feed_injective poly hpoly back h
  rw [feed_eq poly _ u hw, feed_eq poly _ v (hlen ▸ hw), hlen] at hmiddle
  have hpacked := shifts_injective poly hpoly _ hmiddle
  exact packed_injective hlen hw (BitVec.xor_right_inj _ |>.mp hpacked)

/-! ## Parts of a register -/

/-- The lowest bits alone decide on the feedback, and the others move down. -/
theorem shifts_split (n : ℕ) (hn : n ≤ w) (c : BitVec w) :
    shifts poly n c = shifts poly n ((c.setWidth n).setWidth w) ^^^ (c >>> n) := by
  have hmove : ∀ (k : ℕ) (d : BitVec w), (∀ i, w-k ≤ i → d.getLsbD i = false) →
      shifts poly k (d <<< k) = d := by
    intro k
    induction k with
    | zero => exact fun d _ => BitVec.shiftLeft_zero d
    | succ k ih =>
      intro d hd
      have htop : (d <<< k).getLsbD (w-1) = false := by
        rw [BitVec.getLsbD_shiftLeft]
        by_cases hk : w-1 < k
        · simp [hk]
        · rw [hd (w-1-k) (by omega), Bool.and_false]
      rw [shifts, BitVec.shiftLeft_add, shift_shiftLeft poly _ htop]
      exact ih d fun i hi => hd i (by omega)
  have hsum : c = (c.setWidth n).setWidth w ^^^ ((c >>> n) <<< n) := by
    apply BitVec.eq_of_getLsbD_eq
    intro i hi
    rw [BitVec.getLsbD_xor, BitVec.getLsbD_setWidth, BitVec.getLsbD_setWidth,
      BitVec.getLsbD_shiftLeft, BitVec.getLsbD_ushiftRight]
    by_cases hlow : i < n
    · simp [hi, hlow]
    · simp [hi, hlow, show n+(i-n) = i by omega]
  conv_lhs => rw [hsum]
  rw [shifts_xor, hmove n (c >>> n) fun i hi => by
    rw [BitVec.getLsbD_ushiftRight, BitVec.getLsbD_of_ge _ _ (by omega)]]

end ShiftRegister
