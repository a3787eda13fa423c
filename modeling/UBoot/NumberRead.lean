import UBoot.NumberText
import UBoot.Uuid

/-!
# Numbers that are printed and read again

Digits without a leading zero are read back in their base. What `number` prints
are such digits, behind the sign and the mark of the base: `simple_strtoull` takes
the marks `0x` and `0`, and it takes no sign.
-/

set_option autoImplicit false

namespace UBoot.NumberText

open UBoot.Uuid

/-- `s` are the digits of `n`, and a zero stands in front only when it is the number. -/
structure Positional (b n : ℕ) (s : List UInt8) : Prop where
  digit : ∀ c ∈ s, isxdigit c ∧ digitValue c < b
  value : Nat.ofDigits b (s.reverse.map digitValue) = n
  nonempty : s ≠ []
  first : ∀ t, s = 48 :: t → t = []

/-- The digits that `number` prints. -/
def text (f : Flags) (base : Base) (num : ℕ) : List UInt8 :=
  (putDigits f.small base (magnitude f num)).reverse

/-! ## Reading -/

theorem strtoulLoop_value (w b v : ℕ) (s : List UInt8)
    (hs : ∀ c ∈ s, isxdigit c ∧ digitValue c < b) :
    strtoulLoop w b (v % 2^w) s =
      (v*b^s.length+Nat.ofDigits b (s.reverse.map digitValue)) % 2^w := by
  induction s generalizing v with
  | nil => simp [strtoulLoop]
  | cons c s ih =>
    have hc := hs c List.mem_cons_self
    have hmod : (v % 2^w*b+digitValue c) % 2^w = (v*b+digitValue c) % 2^w := by
      rw [Nat.add_mod, Nat.mod_mul_mod, ← Nat.add_mod]
    rw [strtoulLoop, if_pos hc, hmod, ih _ fun x hx => hs x (List.mem_cons_of_mem c hx),
      List.reverse_cons, List.map_append, List.map_singleton, Nat.ofDigits_append,
      Nat.ofDigits_singleton, List.length_map, List.length_reverse, List.length_cons, pow_succ]
    congr 1
    ring

section Read

variable {b n w : ℕ} {s : List UInt8}

theorem Positional.loop (h : Positional b n s) (hn : n < 2^w) : strtoulLoop w b 0 s = n := by
  have hloop := strtoulLoop_value w b 0 s h.digit
  rwa [Nat.zero_mod, Nat.zero_mul, Nat.zero_add, h.value, Nat.mod_eq_of_lt hn] at hloop

theorem Positional.cons (h : Positional b n s) : ∃ c t, s = c :: t ∧ isxdigit c ∧ c ≠ 120 := by
  obtain ⟨c, t, rfl⟩ := List.exists_cons_of_ne_nil h.nonempty
  have hx := (h.digit c List.mem_cons_self).1
  refine ⟨c, t, rfl, hx, ?_⟩
  rintro rfl
  exact absurd hx (by decide)

theorem strtoul_of_ne {c : UInt8} (h : c ≠ 48) (t : List UInt8) :
    simpleStrtoul w b (c :: t) = strtoulLoop w (if b = 0 then 10 else b) 0 (c :: t) := by
  unfold simpleStrtoul
  split
  next cp heq => exact absurd (List.cons.inj heq).1 h
  next => rfl

/-- The digits are read in their base. -/
theorem Positional.read (h : Positional b n s) (hb : b ≠ 0) (hn : n < 2^w) :
    simpleStrtoul w b s = n := by
  obtain ⟨c, t, rfl, -⟩ := h.cons
  by_cases hc : c = 48
  · subst hc
    obtain rfl := h.first t rfl
    rw [← h.loop hn, simpleStrtoul, List.head?_nil, if_neg (by simp), if_neg hb]
    have hzero : strtoulLoop w b 0 [48] = 0 := by
      rw [strtoulLoop]
      split_ifs <;> simp [strtoulLoop, show digitValue 48 = 0 from rfl]
    rw [hzero, strtoulLoop]
  · rw [strtoul_of_ne hc, if_neg hb, h.loop hn]

theorem Positional.read_zero (h : Positional 10 n s) (hn : n < 2^w) : simpleStrtoul w 0 s = n := by
  rw [← h.read (by decide) hn]
  obtain ⟨c, t, rfl, -⟩ := h.cons
  by_cases hc : c = 48
  · subst hc
    obtain rfl := h.first t rfl
    simp [simpleStrtoul, strtoulLoop]
  · rw [strtoul_of_ne hc, strtoul_of_ne hc, if_pos rfl, if_neg (by decide)]

/-- Behind `0x` they are read in base 16, whatever the base is. -/
theorem Positional.read_hex (h : Positional 16 n s) (hn : n < 2^w) :
    simpleStrtoul w b (48 :: 120 :: s) = n := by
  rw [← h.loop hn]
  obtain ⟨c, t, rfl, hx, -⟩ := h.cons
  rw [simpleStrtoul, List.head?_cons, List.tail_cons, List.head?_cons, Option.any_some,
    if_pos ⟨rfl, hx⟩]

/-- Behind `0` they are read in base 8. -/
theorem Positional.read_oct (h : Positional 8 n s) (hb : b = 0 ∨ b = 8) (hn : n < 2^w) :
    simpleStrtoul w b (48 :: s) = n := by
  have hbase : (if b = 0 then 8 else b) = 8 := by
    rcases hb with rfl | rfl <;> rfl
  obtain ⟨c, t, rfl, -, hne⟩ := h.cons
  rw [simpleStrtoul, List.head?_cons, if_neg (fun hx => hne (Option.some.inj hx.1)), hbase, h.loop hn]

/-- A mark `0X` and a sign are not taken: the number is zero. -/
theorem strtoul_other {c : UInt8} (hc : c = 43 ∨ c = 45 ∨ c = 32) (t : List UInt8) :
    simpleStrtoul w b (c :: t) = 0 ∧ simpleStrtoul w b (48 :: 88 :: t) = 0 := by
  constructor
  · have hx : isxdigit c = false := by
      rcases hc with rfl | rfl | rfl <;> rfl
    rw [strtoul_of_ne (by rcases hc with rfl | rfl | rfl <;> decide), strtoulLoop, hx,
      if_neg (by simp)]
  · have hmark : ¬(some (88 : UInt8) = some 120) := by decide
    have hx : ¬(isxdigit 88 = true) := by decide
    rw [simpleStrtoul, List.head?_cons, if_neg (fun h => hmark h.1), strtoulLoop,
      if_neg (fun h => hx h.1)]

end Read

/-! ## Printing -/

theorem digitChar_value (small : Bool) {d : ℕ} (h : d < 16) :
    isxdigit (digitChar small d) ∧ digitValue (digitChar small d) = d ∧
      (digitChar small d = 48 → d = 0) := by
  revert d
  cases small <;> decide

theorem Base.le_sixteen (b : Base) : b.value ≤ 16 := by
  cases b <;> decide

/-- The digits that are printed are those of the number. -/
theorem text_positional (f : Flags) (base : Base) {num : ℕ} (h : num < 2^64) :
    Positional base.value (magnitude f num) (text f base num) := by
  have hone := base.one_lt
  have hsixteen := base.le_sixteen
  rw [text, putDigits_eq f.small base (magnitude_lt f h)]
  generalize magnitude f num = n
  split_ifs with h0
  · subst h0
    exact ⟨fun c hc => List.mem_singleton.1 hc ▸ ⟨rfl, by rw [show digitValue 48 = 0 from rfl]; omega⟩,
      rfl, List.cons_ne_nil _ _, fun t ht => (List.cons.inj ht).2.symm⟩
  have hdigit : ∀ d ∈ Nat.digits base.value n, d < base.value := fun d hd =>
    Nat.digits_lt_base hone hd
  refine ⟨fun c hc => ?_, ?_, ?_, fun t ht => ?_⟩
  · obtain ⟨d, hd, rfl⟩ := List.mem_map.1 (List.mem_reverse.1 hc)
    obtain ⟨hx, hv, -⟩ := digitChar_value f.small ((hdigit d hd).trans_le hsixteen)
    exact ⟨hx, hv.symm ▸ hdigit d hd⟩
  · rw [List.reverse_reverse, List.map_map, List.map_congr_left (g := id), List.map_id,
      Nat.ofDigits_digits]
    exact fun d hd => (digitChar_value f.small ((hdigit d hd).trans_le hsixteen)).2.1
  · rw [ne_eq, List.reverse_eq_nil_iff, List.map_eq_nil_iff]
    exact Nat.digits_ne_nil_iff_ne_zero.2 h0
  · -- the last digit of the list is not zero
    have hlist : (Nat.digits base.value n).map (digitChar f.small) = t.reverse ++ [48] := by
      rw [← List.reverse_reverse (List.map _ _), ht, List.reverse_cons]
    have hne : Nat.digits base.value n ≠ [] := Nat.digits_ne_nil_iff_ne_zero.2 h0
    have hlast := List.getLast_map (f := digitChar f.small) (l := Nat.digits base.value n)
      (h := by rwa [ne_eq, List.map_eq_nil_iff])
    simp only [hlist, List.getLast_append_singleton] at hlast
    have hzero := (digitChar_value f.small
      ((hdigit _ (List.getLast_mem hne)).trans_le hsixteen)).2.2 hlast.symm
    exact absurd hzero (Nat.getLast_digit_ne_zero _ h0)

/-- The value of a signed number. -/
theorem magnitude_signed (f : Flags) {num : ℕ} (h : num < 2^64) :
    (signText f num = [45] ↔ f.sign = true ∧ 2^63 ≤ num) ∧
      (signText f num = [45] → (2^64-magnitude f num) % 2^64 = num) ∧
      (signText f num ≠ [45] → magnitude f num = num) := by
  have hiff : signText f num = [45] ↔ f.sign = true ∧ 2^63 ≤ num := by
    unfold signText
    split_ifs with h1 h2 h3 h4
    · exact iff_of_true rfl ⟨h1, h2⟩
    · exact iff_of_false (by decide) fun hn => h2 hn.2
    · exact iff_of_false (by decide) fun hn => h2 hn.2
    · exact iff_of_false (by decide) fun hn => h2 hn.2
    · exact iff_of_false (by decide) fun hn => h1 hn.1
  refine ⟨hiff, fun hs => ?_, fun hs => if_neg fun hn => hs (hiff.2 hn)⟩
  rw [magnitude, if_pos (hiff.1 hs)]
  omega

/-- Without padding, the text is the sign, the mark of the base and the digits; the digits are
read back in their base, behind `0x` in base 0 and 16; behind a minus sign they are those of the
negative, modulo `2^64`. A sign itself and the mark `0X` are not read. -/
theorem number_read (f : Flags) (base : Base) (size precision : ℤ) (num : ℕ) (h : num < 2^64)
    (hprecision : precision ≤ (text f base num).length)
    (hsize : size ≤ (signText f num ++ pfxText f base ++ text f base num).length) :
    number f base size precision num = signText f num ++ pfxText f base ++ text f base num ∧
      Positional base.value (magnitude f num) (text f base num) ∧
      simpleStrtoul 64 base.value (text f base num) = magnitude f num ∧
      (base = .dec → simpleStrtoul 64 0 (text f base num) = magnitude f num) ∧
      (base = .hex → ∀ b, b = 0 ∨ b = 16 →
        simpleStrtoul 64 b (48 :: 120 :: text f base num) = magnitude f num) ∧
      (base = .oct → ∀ b, b = 0 ∨ b = 8 →
        simpleStrtoul 64 b (48 :: text f base num) = magnitude f num) ∧
      (signText f num = [45] ↔ f.sign = true ∧ 2^63 ≤ num) ∧
      (signText f num = [45] → (2^64-magnitude f num) % 2^64 = num) ∧
      (signText f num ≠ [45] → magnitude f num = num) ∧
      ∀ b t, (signText f num ≠ [] → simpleStrtoul 64 b (signText f num ++ t) = 0) ∧
        simpleStrtoul 64 b (48 :: 88 :: t) = 0 := by
  have hpos := text_positional f base h
  have hlt := magnitude_lt f h
  have hone := base.one_lt
  unfold text at hprecision hsize
  rw [List.length_reverse] at hprecision
  rw [List.length_append, List.length_reverse, ← List.length_append] at hsize
  refine ⟨number_unpadded f base size precision num hprecision hsize, hpos,
    hpos.read (by omega) hlt, ?_, ?_, ?_, (magnitude_signed f h).1, (magnitude_signed f h).2.1,
    (magnitude_signed f h).2.2, fun b t => ⟨fun hs => ?_, (strtoul_other (.inl rfl) t).2⟩⟩
  · rintro rfl
    exact hpos.read_zero hlt
  · rintro rfl b -
    exact hpos.read_hex hlt
  · rintro rfl b hb
    exact hpos.read_oct hb hlt
  · obtain ⟨c, hc, hmark⟩ : ∃ c, signText f num = [c] ∧ (c = 43 ∨ c = 45 ∨ c = 32) := by
      unfold signText at hs ⊢
      split_ifs at hs ⊢
      · exact ⟨45, rfl, .inr (.inl rfl)⟩
      · exact ⟨43, rfl, .inl rfl⟩
      · exact ⟨32, rfl, .inr (.inr rfl)⟩
      · exact absurd rfl hs
      · exact absurd rfl hs
    rw [hc, List.singleton_append]
    exact (strtoul_other hmark t).1

def signed : Flags := ⟨false, true, false, false, false, false, false⟩

/-- `-42` -/
theorem number_read_signed : number signed .dec (-1) (-1) (2^64-42) = [45, 52, 50] :=
  (number_read signed .dec (-1) (-1) (2^64-42) (by decide) (by decide +kernel)
    (by decide +kernel)).1.trans (by decide +kernel)

/-- A text with a minus sign is read as zero. -/
theorem minus_one_unread : number signed .dec (-1) (-1) (2^64-1) = [45, 49] ∧
    simpleStrtoul 64 10 [45, 49] = 0 := by
  decide +kernel

end UBoot.NumberText
