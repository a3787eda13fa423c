import UBoot.Gpt
import UBoot.HexText

/-!
# The text of a GUID: `disk/part_efi.c`

`uuid_string` prints the sixteen bytes through a table of places, and
`string_uuid` reads five numbers with `simple_strtoul` of `lib/vsprintf.c` and
puts them together in the two byte orders of a GUID. A text ends where its list
ends. The processor keeps numbers in little-endian order and a `ulong` in 32
bits.
-/

set_option autoImplicit false

namespace UBoot.Uuid
open UBoot.HexText

/-- `efi_guid_t` -/
structure Guid where
  b : List UInt8
  length_b : b.length = 16
  deriving DecidableEq

def hyphen : UInt8 := 45

/-! ## Printing -/

def le : List ℕ := [3, 2, 1, 0, 5, 4, 7, 6, 8, 9, 10, 11, 12, 13, 14, 15]

def uuidString (uuid : Guid) : List UInt8 :=
  (List.range 16).flatMap fun i =>
    pair lowerA (uuid.b.getD (le.getD i 0) 0) ++
      if i = 3 ∨ i = 5 ∨ i = 7 ∨ i = 9 then [hyphen] else []

/-! ## Numbers: `lib/vsprintf.c` -/

def isdigit (c : UInt8) : Bool := 48 ≤ c ∧ c ≤ 57
def isxdigit (c : UInt8) : Bool := isdigit c ∨ (65 ≤ c ∧ c ≤ 70) ∨ (97 ≤ c ∧ c ≤ 102)
def islower (c : UInt8) : Bool := (97 ≤ c ∧ c ≤ 122) ∨ (223 ≤ c ∧ c ≠ 247)
def toupper (c : UInt8) : UInt8 := if islower c then c-32 else c

def digitValue (c : UInt8) : ℕ :=
  if isdigit c then c.toNat-48 else (if islower c then toupper c else c).toNat-65+10

def strtoulLoop (width base : ℕ) : ℕ → List UInt8 → ℕ
  | result, [] => result
  | result, c :: cp =>
    if isxdigit c ∧ digitValue c < base then
      strtoulLoop width base ((result*base+digitValue c) % 2^width) cp
    else result

/-- `simple_strtoul` for a `width` of 32 bits and `simple_strtoull` for 64. -/
def simpleStrtoul (width base : ℕ) : List UInt8 → ℕ
  | 48 :: cp =>
    if cp.head? = some 120 ∧ cp.tail.head?.any isxdigit then strtoulLoop width 16 0 cp.tail
    else strtoulLoop width (if base = 0 then 8 else base) 0 cp
  | cp => strtoulLoop width (if base = 0 then 10 else base) 0 cp

/-! ## Reading -/

def efiGuid (a b c : ℕ) (d0 d1 d2 d3 d4 d5 d6 d7 : UInt8) : Guid :=
  ⟨[UInt8.ofNat a, UInt8.ofNat (a/256), UInt8.ofNat (a/65536), UInt8.ofNat (a/16777216),
    UInt8.ofNat b, UInt8.ofNat (b/256), UInt8.ofNat c, UInt8.ofNat (c/256),
    d0, d1, d2, d3, d4, d5, d6, d7], rfl⟩

def hyphenAt (i : ℕ) : Bool := i = 8 ∨ i = 13 ∨ i = 18 ∨ i = 23

def charOk (i : ℕ) (c : UInt8) : Bool := if hyphenAt i then c = hyphen else isxdigit c

/-- `*(p + k)`, where `p` points to the bytes of `e`. -/
def byteOf (e k : ℕ) : UInt8 := UInt8.ofNat (e/256^k)

def stringUuid (uuid : List UInt8) : Option Guid :=
  if uuid.length ≠ 36 then none
  else if (List.range 36).all fun i => charOk i (uuid.getD i 0) then
    let a := simpleStrtoul 32 16 uuid
    let b := simpleStrtoul 32 16 (uuid.drop 9) % 2^16
    let c := simpleStrtoul 32 16 (uuid.drop 14) % 2^16
    let d := simpleStrtoul 32 16 (uuid.drop 19) % 2^16
    let e := simpleStrtoul 64 16 (uuid.drop 24)
    some (efiGuid a b c (UInt8.ofNat (d/256)) (UInt8.ofNat (d % 256))
      (byteOf e 5) (byteOf e 4) (byteOf e 3) (byteOf e 2) (byteOf e 1) (byteOf e 0))
  else none

/-! ## Texts of five groups -/

/-- Hexadecimal digits in groups of 8, 4, 4, 4 and 12. -/
structure Groups where
  a : List UInt8
  b : List UInt8
  c : List UInt8
  d : List UInt8
  e : List UInt8
  length_a : a.length = 8
  length_b : b.length = 4
  length_c : c.length = 4
  length_d : d.length = 4
  length_e : e.length = 12
  digits_a : IsDigits a
  digits_b : IsDigits b
  digits_c : IsDigits c
  digits_d : IsDigits d
  digits_e : IsDigits e

def Groups.text (g : Groups) : List UInt8 :=
  g.a ++ hyphen :: (g.b ++ hyphen :: (g.c ++ hyphen :: (g.d ++ hyphen :: g.e)))

theorem isxdigit_eq (c : UInt8) : isxdigit c = (digit c).isSome := by
  unfold isxdigit isdigit digit
  split_ifs <;> simp_all

theorem digitValue_eq (c : UInt8) (n : ℕ) (h : digit c = some n) : digitValue c = n := by
  unfold digit at h
  unfold digitValue isdigit
  split_ifs at h with h1 h2 h3
  · cases h
    rw [if_pos (decide_eq_true h1)]
  · cases h
    have hlow : islower c = false := by
      simp only [islower, UInt8.le_iff_toNat_le] at h2 ⊢
      simp at *
      omega
    rw [if_neg (by simpa using h1), hlow, if_neg (by decide)]
    simp only [UInt8.le_iff_toNat_le] at h2
    simp at h2
    omega
  · cases h
    have hlow : islower c = true := by
      simp only [islower, UInt8.le_iff_toNat_le] at h3 ⊢
      simp at *
      omega
    rw [if_neg (by simpa using h1), hlow, if_pos rfl, toupper, hlow, if_pos rfl]
    simp only [UInt8.le_iff_toNat_le] at h3
    simp at h3
    rw [UInt8.toNat_sub_of_le _ _ (by rw [UInt8.le_iff_toNat_le]; simp; omega)]
    simp
    omega

/-- What the loop makes of a row of digits. -/
theorem strtoulLoop_digits (width v : ℕ) (s rest : List UInt8) (hs : IsDigits s)
    (hrest : ∀ c ∈ rest.head?, digit c = none) :
    strtoulLoop width 16 (v % 2^width) (s ++ rest) = (v*16^s.length+value s) % 2^width := by
  induction s generalizing v with
  | nil =>
    cases rest with
    | nil => simp [strtoulLoop]
    | cons c rest =>
      have hc : isxdigit c = false := by
        rw [isxdigit_eq, hrest c rfl, Option.isSome_none]
      simp [strtoulLoop, hc]
  | cons c s ih =>
    obtain ⟨n, hn⟩ := Option.isSome_iff_exists.mp (hs c List.mem_cons_self)
    have hlt := digit_lt c n hn
    have hx : isxdigit c = true := by rw [isxdigit_eq, hn, Option.isSome_some]
    have hv : value (c :: s) = n*16^s.length+value s := by
      rw [value, List.foldl_cons, foldl_value, hn, Nat.zero_mul, Nat.zero_add, Option.getD_some]
    rw [List.cons_append, strtoulLoop, digitValue_eq c n hn, if_pos ⟨hx, hlt⟩]
    have hmod : (v % 2^width*16+n) % 2^width = (v*16+n) % 2^width := by
      rw [Nat.add_mod, Nat.mod_mul_mod, ← Nat.add_mod]
    rw [hmod, ih _ (fun x h => hs x (List.mem_cons_of_mem _ h)), hv, List.length_cons, pow_succ]
    congr 1
    ring

theorem simpleStrtoul_digits (width : ℕ) (s rest : List UInt8) (hs : IsDigits s)
    (hrest : ∀ c ∈ rest.head?, digit c = none ∧ c ≠ 120) :
    simpleStrtoul width 16 (s ++ rest) = value s % 2^width := by
  have hnone : ∀ c ∈ rest.head?, digit c = none := fun c hc => (hrest c hc).1
  unfold simpleStrtoul
  split
  next cp heq =>
    -- a leading zero is taken, and no `x` stands behind it
    obtain ⟨t, rfl, rfl⟩ : ∃ t, s = 48 :: t ∧ cp = t ++ rest := by
      cases s with
      | nil =>
        rw [List.nil_append] at heq
        exact absurd (hnone 48 (by rw [heq]; rfl)) (by decide)
      | cons c t =>
        rw [List.cons_append, List.cons.injEq] at heq
        exact ⟨t, by rw [heq.1], heq.2.symm⟩
    have hx : (t ++ rest).head? ≠ some 120 := by
      cases t with
      | nil =>
        intro h
        exact (hrest 120 h).2 rfl
      | cons c t =>
        intro h
        obtain rfl : c = 120 := by simpa using h
        exact absurd (hs 120 (by simp)) (by decide)
    have h := strtoulLoop_digits width 0 t rest (fun c hc => hs c (List.mem_cons_of_mem _ hc)) hnone
    rw [if_neg (fun h => hx h.1), if_neg (by decide)]
    rw [Nat.zero_mod, Nat.zero_mul, Nat.zero_add] at h
    rw [h]
    rw [value, value, List.foldl_cons]
    rfl
  next cp =>
    have h := strtoulLoop_digits width 0 s rest hs hnone
    rw [Nat.zero_mod, Nat.zero_mul, Nat.zero_add] at h
    rw [if_neg (by decide), h]

/-- A hyphen or the end of the text stops a number. -/
theorem simpleStrtoul_group (width : ℕ) (s rest : List UInt8) (hs : IsDigits s)
    (hlen : 4*s.length ≤ width) (hrest : ∀ c ∈ rest.head?, c = hyphen) :
    simpleStrtoul width 16 (s ++ rest) = value s := by
  have hlt := value_lt s
  have hpow : 16^s.length ≤ 2^width := by
    rw [show 16 = 2^4 by rfl, ← pow_mul]
    exact Nat.pow_le_pow_right (by decide) hlen
  rw [simpleStrtoul_digits width s rest hs, Nat.mod_eq_of_lt (by omega)]
  intro c hc
  rw [hrest c hc]
  decide

/-! ## The check of the characters -/

/-- The characters from the place `i` on are right. -/
def Right (i : ℕ) (s : List UInt8) : Prop := ∀ j < s.length, charOk (i+j) (s.getD j 0)

theorem right_cons (i : ℕ) (c : UInt8) (s : List UInt8) :
    Right i (c :: s) ↔ charOk i c ∧ Right (i+1) s := by
  constructor
  · intro h
    refine ⟨h 0 (by simp), fun j hj => ?_⟩
    have hnext := h (j+1) (by simpa using hj)
    rwa [List.getD_cons_succ, ← Nat.add_assoc, Nat.add_right_comm] at hnext
  · rintro ⟨hc, hs⟩ j hj
    cases j with
    | zero => exact hc
    | succ j =>
      rw [List.getD_cons_succ, ← Nat.add_assoc, Nat.add_right_comm]
      exact hs j (by simpa using hj)

theorem right_append (i : ℕ) (s t : List UInt8) :
    Right i (s ++ t) ↔ Right i s ∧ Right (i+s.length) t := by
  induction s generalizing i with
  | nil => simp [Right]
  | cons c s ih =>
    rw [List.cons_append, right_cons, right_cons, ih, List.length_cons, and_assoc,
      Nat.add_assoc, Nat.add_comm 1]

theorem right_group (i : ℕ) (s : List UInt8) (h : ∀ j < s.length, hyphenAt (i+j) = false) :
    Right i s ↔ IsDigits s := by
  induction s generalizing i with
  | nil => simp [Right, IsDigits]
  | cons c s ih =>
    have hi := h 0 (by simp)
    have hrest : ∀ j < s.length, hyphenAt (i+1+j) = false := by
      intro j hj
      rw [Nat.add_right_comm]
      exact h (j+1) (by simpa using hj)
    rw [right_cons, ih _ hrest, charOk, show hyphenAt i = false from hi, isxdigit_eq]
    simp [IsDigits]

theorem right_hyphen (i : ℕ) (c : UInt8) (h : hyphenAt i) : charOk i c ↔ c = hyphen := by
  rw [charOk, if_pos h, decide_eq_true_iff]

theorem right_all (s : List UInt8) (hlen : s.length = 36) :
    ((List.range 36).all fun i => charOk i (s.getD i 0)) ↔ Right 0 s := by
  rw [List.all_eq_true]
  unfold Right
  simp [hlen]

theorem right_groups (a b c d e : List UInt8) (x y z w : UInt8) (ha : a.length = 8)
    (hb : b.length = 4) (hc : c.length = 4) (hd : d.length = 4) (he : e.length = 12) :
    Right 0 (a ++ x :: (b ++ y :: (c ++ z :: (d ++ w :: e)))) ↔
      IsDigits a ∧ x = hyphen ∧ IsDigits b ∧ y = hyphen ∧ IsDigits c ∧ z = hyphen ∧
        IsDigits d ∧ w = hyphen ∧ IsDigits e := by
  rw [right_append, right_cons, right_append, right_cons, right_append, right_cons, right_append,
    right_cons, ha, hb, hc, hd, right_group 0 a (by rw [ha]; decide),
    right_group _ b (by rw [hb]; decide), right_group _ c (by rw [hc]; decide),
    right_group _ d (by rw [hd]; decide), right_group _ e (by rw [he]; decide),
    right_hyphen _ x (by decide), right_hyphen _ y (by decide), right_hyphen _ z (by decide),
    right_hyphen _ w (by decide)]

theorem length_text (g : Groups) : g.text.length = 36 := by
  simp only [Groups.text, List.length_append, List.length_cons, g.length_a, g.length_b,
    g.length_c, g.length_d, g.length_e]

/-- One element stands between the two parts of a longer list. -/
theorem split_at (s : List UInt8) (n : ℕ) (h : n < s.length) :
    ∃ a x b, s = a ++ x :: b ∧ a.length = n ∧ b.length+(n+1) = s.length := by
  refine ⟨s.take n, s[n], s.drop (n+1), ?_, ?_, ?_⟩
  · rw [← List.drop_eq_getElem_cons h, List.take_append_drop]
  · rw [List.length_take]
    omega
  · rw [List.length_drop]
    omega

/-- The check lets the texts of five groups pass and no other. -/
theorem groups_iff (s : List UInt8) :
    (s.length = 36 ∧ Right 0 s) ↔ ∃ g : Groups, g.text = s := by
  constructor
  · rintro ⟨hlen, hright⟩
    obtain ⟨a, x, s1, rfl, ha, h1⟩ := split_at s 8 (by omega)
    obtain ⟨b, y, s2, rfl, hb, h2⟩ := split_at s1 4 (by omega)
    obtain ⟨c, z, s3, rfl, hc, h3⟩ := split_at s2 4 (by omega)
    obtain ⟨d, w, e, rfl, hd, h4⟩ := split_at s3 4 (by omega)
    have he : e.length = 12 := by omega
    rw [right_groups a b c d e x y z w ha hb hc hd he] at hright
    obtain ⟨da, rfl, db, rfl, dc, rfl, dd, rfl, de⟩ := hright
    exact ⟨⟨a, b, c, d, e, ha, hb, hc, hd, he, da, db, dc, dd, de⟩, rfl⟩
  · rintro ⟨g, rfl⟩
    refine ⟨length_text g, ?_⟩
    rw [Groups.text, right_groups _ _ _ _ _ _ _ _ _ g.length_a g.length_b g.length_c g.length_d
      g.length_e]
    exact ⟨g.digits_a, rfl, g.digits_b, rfl, g.digits_c, rfl, g.digits_d, rfl, g.digits_e⟩

/-! ## The bytes of the groups -/

/-- The first three numbers have their low byte first. -/
def Groups.bytes (g : Groups) : List UInt8 :=
  (be 4 (value g.a)).reverse ++ ((be 2 (value g.b)).reverse ++ ((be 2 (value g.c)).reverse ++
    (be 2 (value g.d) ++ be 6 (value g.e))))

def Groups.guid (g : Groups) : Guid := ⟨g.bytes, by simp [Groups.bytes]⟩

theorem text_drop (g : Groups) :
    g.text.drop 9 = g.b ++ hyphen :: (g.c ++ hyphen :: (g.d ++ hyphen :: g.e)) ∧
    g.text.drop 14 = g.c ++ hyphen :: (g.d ++ hyphen :: g.e) ∧
    g.text.drop 19 = g.d ++ hyphen :: g.e ∧ g.text.drop 24 = g.e := by
  have hstep : ∀ (n : ℕ) (s t u : List UInt8), s = t ++ hyphen :: u → t.length+1 = n →
      s.drop n = u := by
    intro n s t u hs hn
    rw [hs, ← hn, ← List.drop_drop, List.drop_left, List.drop_succ_cons, List.drop_zero]
  have hb := hstep 9 g.text g.a _ rfl (by rw [g.length_a])
  have hc := hstep 5 (g.text.drop 9) g.b _ hb (by rw [g.length_b])
  rw [List.drop_drop] at hc
  have hd := hstep 5 (g.text.drop 14) g.c _ hc (by rw [g.length_c])
  rw [List.drop_drop] at hd
  have he := hstep 5 (g.text.drop 19) g.d _ hd (by rw [g.length_d])
  rw [List.drop_drop] at he
  exact ⟨hb, hc, hd, he⟩

theorem ofNat_low (v : ℕ) : UInt8.ofNat (v % 256) = UInt8.ofNat v := by
  apply UInt8.toNat_inj.mp
  rw [UInt8.toNat_ofNat', UInt8.toNat_ofNat']
  omega

/-- `string_uuid` reads the bytes of the groups. -/
theorem stringUuid_text (g : Groups) : stringUuid g.text = some g.guid := by
  have hcheck := (groups_iff g.text).mpr ⟨g, rfl⟩
  obtain ⟨hb, hc, hd, he⟩ := text_drop g
  have ha : simpleStrtoul 32 16 g.text = value g.a :=
    simpleStrtoul_group 32 _ _ g.digits_a (by rw [g.length_a]) (by simp)
  have lb := value_lt g.b
  have lc := value_lt g.c
  have ld := value_lt g.d
  rw [g.length_b] at lb
  rw [g.length_c] at lc
  rw [g.length_d] at ld
  rw [stringUuid, if_neg (not_not.mpr hcheck.1), if_pos ((right_all _ hcheck.1).mpr hcheck.2),
    ha, hb, hc, hd, he]
  rw [simpleStrtoul_group 32 _ _ g.digits_b (by rw [g.length_b]; decide) (by simp),
    simpleStrtoul_group 32 _ _ g.digits_c (by rw [g.length_c]; decide) (by simp),
    simpleStrtoul_group 32 _ _ g.digits_d (by rw [g.length_d]; decide) (by simp),
    ← List.append_nil g.e,
    simpleStrtoul_group 64 _ _ g.digits_e (by rw [g.length_e]; decide) (by simp)]
  rw [Nat.mod_eq_of_lt (by omega), Nat.mod_eq_of_lt (by omega), Nat.mod_eq_of_lt (by omega)]
  simp only [efiGuid, Groups.guid, Groups.bytes, be, LittleEndian.le, List.reverse_cons,
    List.reverse_nil, List.nil_append, List.cons_append, Nat.div_div_eq_div_mul,
    byteOf, ofNat_low]
  norm_num

theorem stringUuid_some (s : List UInt8) (u : Guid) (h : stringUuid s = some u) :
    ∃ g : Groups, g.text = s ∧ u = g.guid := by
  have hpass : s.length = 36 ∧ Right 0 s := by
    unfold stringUuid at h
    split_ifs at h with hlen hright
    exact ⟨not_not.mp hlen, (right_all s (not_not.mp hlen)).mp hright⟩
  obtain ⟨g, rfl⟩ := (groups_iff s).mp hpass
  rw [stringUuid_text g] at h
  exact ⟨g, rfl, (Option.some.inj h).symm⟩

/-! ## Printing them -/

/-- The table takes the bytes of the first three numbers from the high one on. -/
theorem uuidString_bytes (u : Guid) (a b c d e : List UInt8) (ha : a.length = 4)
    (hb : b.length = 2) (hc : c.length = 2) (hd : d.length = 2) (he : e.length = 6)
    (h : u.b = a.reverse ++ (b.reverse ++ (c.reverse ++ (d ++ e)))) :
    uuidString u = pairs lowerA a ++ hyphen :: (pairs lowerA b ++ hyphen :: (pairs lowerA c ++
      hyphen :: (pairs lowerA d ++ hyphen :: pairs lowerA e))) := by
  match a, ha with
  | [a0, a1, a2, a3], _ => match b, hb with
    | [b0, b1], _ => match c, hc with
      | [c0, c1], _ => match d, hd with
        | [d0, d1], _ => match e, he with
          | [e0, e1, e2, e3, e4, e5], _ =>
            rw [uuidString, h]
            rfl

/-- The digits come back in lower case. -/
theorem uuidString_guid (g : Groups) : uuidString g.guid = g.text.map toLower := by
  rw [uuidString_bytes g.guid _ _ _ _ _ (length_be 4 _) (length_be 2 _) (length_be 2 _)
    (length_be 2 _) (length_be 6 _) rfl, pairs_be 4 _ g.length_a g.digits_a,
    pairs_be 2 _ g.length_b g.digits_b, pairs_be 2 _ g.length_c g.digits_c,
    pairs_be 2 _ g.length_d g.digits_d, pairs_be 6 _ g.length_e g.digits_e, Groups.text]
  simp only [List.map_append, List.map_cons, show toLower hyphen = hyphen by decide]

/-- Every GUID is printed as the text of five groups that it is read from. -/
theorem groups_of (u : Guid) : ∃ g : Groups, g.text = uuidString u ∧ g.guid = u := by
  have hpart : ∀ n k, n+k ≤ 16 → ((u.b.drop n).take k).length = k := by
    intro n k h
    rw [List.length_take, List.length_drop, u.length_b]
    omega
  obtain ⟨a, b, c, d, e, ha, hb, hc, hd, he, hu⟩ : ∃ a b c d e : List UInt8, a.length = 4 ∧
      b.length = 2 ∧ c.length = 2 ∧ d.length = 2 ∧ e.length = 6 ∧
      u.b = a.reverse ++ (b.reverse ++ (c.reverse ++ (d ++ e))) := by
    refine ⟨((u.b.drop 0).take 4).reverse, ((u.b.drop 4).take 2).reverse,
      ((u.b.drop 6).take 2).reverse, (u.b.drop 8).take 2, (u.b.drop 10).take 6, ?_, ?_, ?_,
      hpart 8 2 (by decide), hpart 10 6 (by decide), ?_⟩
    · rw [List.length_reverse, hpart 0 4 (by decide)]
    · rw [List.length_reverse, hpart 4 2 (by decide)]
    · rw [List.length_reverse, hpart 6 2 (by decide)]
    · have hcut : ∀ n k, (u.b.drop n).take k ++ u.b.drop (n+k) = u.b.drop n := by
        intro n k
        rw [← List.drop_drop, List.take_append_drop]
      have hlast : u.b.drop (10+6) = [] := by
        rw [List.drop_eq_nil_iff, u.length_b]
      have he := hcut 10 6
      rw [hlast, List.append_nil] at he
      simp only [List.reverse_reverse]
      rw [he, hcut 8 2, hcut 6 2, hcut 4 2, hcut 0 4, List.drop_zero]
  have hdigits := digits_pairs lowerA (Or.inl rfl)
  refine ⟨⟨pairs lowerA a, pairs lowerA b, pairs lowerA c, pairs lowerA d, pairs lowerA e,
    by rw [length_pairs, ha], by rw [length_pairs, hb], by rw [length_pairs, hc],
    by rw [length_pairs, hd], by rw [length_pairs, he], hdigits a, hdigits b, hdigits c, hdigits d,
    hdigits e⟩, (uuidString_bytes u a b c d e ha hb hc hd he hu).symm, ?_⟩
  have hvalue : ∀ (n : ℕ) (bs : List UInt8), bs.length = n →
      be n (value (pairs lowerA bs)) = bs := by
    rintro n bs rfl
    rw [value_pairs lowerA (Or.inl rfl), be_ofBe]
  have hbytes : u = ⟨u.b, u.length_b⟩ := rfl
  rw [hbytes]
  simp only [Groups.guid, Groups.bytes, hvalue 4 a ha, hvalue 2 b hb, hvalue 2 c hc, hvalue 2 d hd,
    hvalue 6 e he, hu]

/-! ## The reader of the partition table -/

theorem hexValue_group (s rest : List UInt8) (hs : IsDigits s) (hrest : ∀ c ∈ rest.head?, c = hyphen) :
    Gpt.hexValue (s ++ rest) = value s := by
  have htake : (s ++ rest).takeWhile (fun c => (Gpt.hexDigit c).isSome) = s := by
    change (s ++ rest).takeWhile (fun c => (digit c).isSome) = s
    rw [List.takeWhile_append_of_pos hs]
    cases rest with
    | nil => simp
    | cons c rest =>
      rw [hrest c rfl, List.takeWhile_cons_of_neg (by decide), List.append_nil]
  rw [Gpt.hexValue, htake]
  rfl

/-- The reading of a GUID into the table is `string_uuid`. -/
theorem gpt_stringUuid (s : List UInt8) : Gpt.stringUuid s = (stringUuid s).map Guid.b := by
  have hcheck : ∀ i c, (if i = 8 ∨ i = 13 ∨ i = 18 ∨ i = 23 then c == 45
      else (Gpt.hexDigit c).isSome) = charOk i c := by
    intro i c
    rw [charOk, isxdigit_eq, hyphenAt]
    split_ifs with h1 h2 h2
    · rfl
    · exact absurd (decide_eq_true h1) h2
    · exact absurd (of_decide_eq_true h2) h1
    · rfl
  cases h : stringUuid s with
  | none =>
    unfold stringUuid at h
    unfold Gpt.stringUuid
    simp only [hcheck]
    split_ifs at h ⊢
    · rfl
    · rfl
  | some u =>
    obtain ⟨g, rfl, rfl⟩ := stringUuid_some s u h
    have hpass := (groups_iff g.text).mpr ⟨g, rfl⟩
    obtain ⟨hb, hc, hd, he⟩ := text_drop g
    have ha : Gpt.hexValue g.text = value g.a := hexValue_group _ _ g.digits_a (by simp)
    unfold Gpt.stringUuid
    simp only [hcheck]
    rw [if_neg (not_not.mpr hpass.1), if_pos ((right_all _ hpass.1).mpr hpass.2), ha, hb, hc, hd,
      he, hexValue_group _ _ g.digits_b (by simp), hexValue_group _ _ g.digits_c (by simp),
      hexValue_group _ _ g.digits_d (by simp), ← List.append_nil g.e,
      hexValue_group _ _ g.digits_e (by simp)]
    simp [Groups.guid, Groups.bytes, be]

/-! ## The conversions -/

/-- Printing and reading are inverse up to the case of the digits, and exactly the texts of five
groups are read. -/
theorem uuid_text_converts :
    (∀ g : Guid, stringUuid (uuidString g) = some g) ∧
    (∀ (s : List UInt8) (g : Guid), stringUuid s = some g → uuidString g = s.map toLower) ∧
    (∀ s : List UInt8, (stringUuid s).isSome ↔ ∃ g : Groups, s = g.text) := by
  refine ⟨?_, ?_, ?_⟩
  · intro u
    obtain ⟨g, htext, rfl⟩ := groups_of u
    rw [← htext, stringUuid_text]
  · intro s u h
    obtain ⟨g, rfl, rfl⟩ := stringUuid_some s u h
    exact uuidString_guid g
  · intro s
    constructor
    · intro h
      obtain ⟨u, hu⟩ := Option.isSome_iff_exists.mp h
      obtain ⟨g, hg, -⟩ := stringUuid_some s u hu
      exact ⟨g, hg.symm⟩
    · rintro ⟨g, rfl⟩
      rw [stringUuid_text, Option.isSome_some]

end UBoot.Uuid
