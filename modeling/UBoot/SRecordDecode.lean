import UBoot.SRecord

/-!
# What a decoded S-record says

A line contains a record when digits for the count field and the bytes that it
counts stand behind its first `S` and the type. A data record is decoded to what
is written in it, unless its count field is smaller than the address and the
checksum.
-/

set_option autoImplicit false

namespace UBoot.SRecord
open UBoot.HexText

/-- A text of a line without its terminator. -/
structure Line where
  chars : List UInt8
  noNul : 0 ∉ chars

/-- The first record of the line has the type `v`, and digits for `bytes` stand behind it. -/
def Contains (line : List UInt8) (v : UInt8) (bytes : List UInt8) : Prop :=
  ∃ front digits rest, 83 ∉ front ∧ IsDigits digits ∧ digits.length = 2*bytes.length ∧
    bytes = bytesOf digits ∧ line = front ++ 83 :: v :: (digits ++ rest)

/-! ## Two digits -/

theorem hex1Bin_digit (c : UInt8) (n : ℕ) (h : digit c = some n) : hex1Bin c = n := by
  unfold digit at h
  unfold hex1Bin
  simp only [UInt8.le_iff_toNat_le] at h ⊢
  split_ifs at h ⊢ with h1 h2 h3 h4 <;> cases h <;> simp at * <;> omega

theorem hex1Bin_none (c : UInt8) (h : digit c = none) : hex1Bin c = -1 := by
  unfold digit at h
  unfold hex1Bin
  split_ifs at h ⊢
  rfl

/-- The first character decides alone when it is no digit. -/
theorem hex2Bin_none (a : UInt8) (s : List UInt8) (h : digit a = none) :
    hex2Bin (a :: s) = some (-1) := by
  unfold hex2Bin
  dsimp only
  rw [hex1Bin_none a h]
  rfl

theorem hex2Bin_second (a : UInt8) (s : List UInt8) (i : ℕ) (h : digit a = some i) :
    hex2Bin (a :: s) = match s with
      | [] => none
      | b :: _ => if hex1Bin b < 0 then some (-1) else some (i*16+hex1Bin b) := by
  have hi : ¬((i : ℤ) < 0) := by omega
  unfold hex2Bin
  dsimp only
  rw [hex1Bin_digit a i h]
  refine (if_neg hi).trans ?_
  cases s <;> rfl

theorem hex2Bin_digits (a b : UInt8) (s : List UInt8) (i j : ℕ) (ha : digit a = some i)
    (hb : digit b = some j) : hex2Bin (a :: b :: s) = some ((i*16+j : ℕ) : ℤ) := by
  have hj : ¬((j : ℤ) < 0) := by omega
  rw [hex2Bin_second a _ i ha]
  dsimp only
  rw [hex1Bin_digit b j hb, if_neg hj]
  norm_cast

/-- Two characters of a line are read or refused, and the terminator is no digit. -/
theorem hex2Bin_line (t : List UInt8) :
    hex2Bin (t ++ [0]) = some (-1) ∨
    ∃ a b s i j, t = a :: b :: s ∧ digit a = some i ∧ digit b = some j ∧
      hex2Bin (t ++ [0]) = some ((i*16+j : ℕ) : ℤ) := by
  cases t with
  | nil => exact Or.inl (by decide)
  | cons a t =>
    cases ha : digit a with
    | none => exact Or.inl (hex2Bin_none a _ ha)
    | some i =>
      have hsecond := hex2Bin_second a (t ++ [0]) i ha
      cases t with
      | nil => exact Or.inl hsecond
      | cons b s =>
        cases hb : digit b with
        | none =>
          left
          rw [List.cons_append, hsecond, List.cons_append]
          dsimp only
          rw [hex1Bin_none b hb]
          rfl
        | some j => exact Or.inr ⟨a, b, s, i, j, rfl, ha, hb, hex2Bin_digits a b _ i j ha hb⟩

/-! ## A row of bytes -/

theorem isDigits_cons (c : UInt8) (s : List UInt8) :
    IsDigits (c :: s) ↔ (digit c).isSome ∧ IsDigits s := List.forall_mem_cons

theorem hexBytes_digits (n : ℕ) (s rest : List UInt8) (hs : IsDigits s) (hlen : s.length = 2*n) :
    hexBytes n (s ++ rest) = some (bytesOf s, true, rest) := by
  induction n generalizing s with
  | zero =>
    rw [List.length_eq_zero_iff.mp (by omega : s.length = 0)]
    rfl
  | succ n ih =>
    match s, hlen with
    | a :: b :: s, hlen =>
      rw [isDigits_cons, isDigits_cons] at hs
      obtain ⟨i, hi⟩ := Option.isSome_iff_exists.mp hs.1
      obtain ⟨j, hj⟩ := Option.isSome_iff_exists.mp hs.2.1
      have hrest := ih s hs.2.2 (by simp only [List.length_cons] at hlen; omega)
      rw [hexBytes, List.cons_append, List.cons_append, hex2Bin_digits a b _ i j hi hj]
      simp only [Option.bind_eq_bind, Option.bind_some, List.drop_succ_cons, List.drop_zero, hrest]
      rw [if_neg (by omega), bytesOf, hi, hj]
      rfl

/-- The reading of a row stays in the line. -/
theorem hexBytes_line (n : ℕ) (t : List UInt8) :
    ∃ bs ok rest, hexBytes n (t ++ [0]) = some (bs, ok, rest ++ [0]) ∧ (ok = true →
      ∃ s, IsDigits s ∧ s.length = 2*n ∧ bs = bytesOf s ∧ t = s ++ rest) := by
  induction n generalizing t with
  | zero => exact ⟨[], true, t, rfl, fun _ => ⟨[], by simp [IsDigits], rfl, rfl, rfl⟩⟩
  | succ n ih =>
    rcases hex2Bin_line t with hbad | ⟨a, b, s, i, j, rfl, hi, hj, hgood⟩
    · refine ⟨[], false, t, ?_, fun h => absurd h (by decide)⟩
      rw [hexBytes, hbad]
      rfl
    · obtain ⟨bs, ok, rest, hrest, hok⟩ := ih s
      refine ⟨UInt8.ofNat (i*16+j) :: bs, ok, rest, ?_, ?_⟩
      · rw [hexBytes, hgood]
        simp only [Option.bind_eq_bind, Option.bind_some, List.cons_append, List.drop_succ_cons,
          List.drop_zero, hrest]
        rw [if_neg (by omega)]
        rfl
      · intro h
        obtain ⟨s', hs', hlen, rfl, rfl⟩ := hok h
        refine ⟨a :: b :: s', ?_, ?_, ?_, rfl⟩
        · rw [isDigits_cons, isDigits_cons, hi, hj]
          exact ⟨rfl, rfl, hs'⟩
        · rw [List.length_cons, List.length_cons, hlen]
          omega
        · rw [bytesOf, hi, hj]
          rfl

/-! ## The start of a record -/

theorem skipStart_record (front t : List UInt8) (hS : 83 ∉ front) (h0 : 0 ∉ front) :
    skipStart (front ++ 83 :: t) = some t := by
  induction front with
  | nil => rfl
  | cons c front ih =>
    rw [List.mem_cons, not_or] at hS h0
    rw [List.cons_append, skipStart, if_neg (Ne.symm h0.1), if_neg (Ne.symm hS.1), ih hS.2 h0.2]

theorem skipStart_line (t : List UInt8) (h0 : 0 ∉ t) :
    skipStart (t ++ [0]) = some [0] ∨
    ∃ front rest, 83 ∉ front ∧ t = front ++ 83 :: rest ∧ skipStart (t ++ [0]) = some (rest ++ [0]) := by
  induction t with
  | nil => exact Or.inl rfl
  | cons c t ih =>
    rw [List.mem_cons, not_or] at h0
    by_cases hc : c = 83
    · subst hc
      exact Or.inr ⟨[], t, by simp, rfl, rfl⟩
    · rw [List.cons_append, skipStart, if_neg (Ne.symm h0.1), if_neg hc]
      rcases ih h0.2 with h | ⟨front, rest, hS, rfl, h⟩
      · exact Or.inl h
      · exact Or.inr ⟨c :: front, rest, by simp [hS, Ne.symm hc], rfl, h⟩

/-! ## Rows behind each other -/

theorem bytesOf_append (n : ℕ) (s t : List UInt8) (h : s.length = 2*n) :
    bytesOf (s ++ t) = bytesOf s ++ bytesOf t := by
  induction n generalizing s with
  | zero =>
    rw [List.length_eq_zero_iff.mp (by omega : s.length = 0)]
    rfl
  | succ n ih =>
    match s, h with
    | a :: b :: s, h =>
      rw [List.cons_append, List.cons_append, bytesOf, bytesOf,
        ih s (by simp only [List.length_cons] at h; omega), List.cons_append]

theorem isDigits_append (s t : List UInt8) :
    IsDigits (s ++ t) ↔ IsDigits s ∧ IsDigits t := List.forall_mem_append

/-- The digits of some bytes stand in front of those of the others. -/
theorem digits_split (digits bs cs : List UInt8) (hd : IsDigits digits)
    (hlen : digits.length = 2*(bs ++ cs).length) (h : bs ++ cs = bytesOf digits) :
    ∃ s t, digits = s ++ t ∧ IsDigits s ∧ IsDigits t ∧ s.length = 2*bs.length ∧
      t.length = 2*cs.length ∧ bs = bytesOf s ∧ cs = bytesOf t := by
  rw [List.length_append] at hlen
  have hs : (digits.take (2*bs.length)).length = 2*bs.length := by
    rw [List.length_take]
    omega
  have ht : (digits.drop (2*bs.length)).length = 2*cs.length := by
    rw [List.length_drop]
    omega
  rw [← List.take_append_drop (2*bs.length) digits, bytesOf_append bs.length _ _ hs] at h
  rw [← List.take_append_drop (2*bs.length) digits, isDigits_append] at hd
  obtain ⟨hbs, hcs⟩ := List.append_inj h (by rw [length_bytesOf _ _ hs])
  exact ⟨_, _, (List.take_append_drop (2*bs.length) digits).symm, hd.1, hd.2, hs, ht, hbs, hcs⟩

theorem hex2Bin_byte (s rest : List UInt8) (b : UInt8) (hs : IsDigits s) (hlen : s.length = 2)
    (h : [b] = bytesOf s) : hex2Bin (s ++ rest) = some (b.toNat : ℤ) := by
  match s, hlen with
  | [x, y], _ =>
    obtain ⟨i, hi⟩ := Option.isSome_iff_exists.mp (hs x (by simp))
    obtain ⟨j, hj⟩ := Option.isSome_iff_exists.mp (hs y (by simp))
    have hi' := digit_lt x i hi
    have hj' := digit_lt y j hj
    rw [bytesOf, hi, hj, List.cons.injEq] at h
    rw [h.1, List.cons_append, List.cons_append, hex2Bin_digits x y _ i j hi hj]
    congr 1
    simp only [Option.getD_some, UInt8.toNat_ofNat']
    omega

/-! ## Decoding a record -/

/-- The checksum of the bytes of a record. -/
def checksumOf (field : UInt8) (address data : List UInt8) : UInt8 :=
  ~~~(field+address.sum+data.sum)

/-- A record is decoded to its bytes when they are as many as the decoder takes. -/
theorem srecDecode_record (front digits rest : List UInt8) (v field sum : UInt8)
    (address data : List UInt8) (type count count0 : ℤ) (addr0 : UInt32) (hS : 83 ∉ front)
    (h0 : 0 ∉ front) (hv : recordType v field.toNat = some (type, count))
    (hd : IsDigits digits)
    (hlen : digits.length = 2*(field :: (address ++ (data ++ [sum]))).length)
    (h : field :: (address ++ (data ++ [sum])) = bytesOf digits)
    (haddress : address.length = addressBytes v) (hdata : data.length = count.toNat)
    (hsum : sum = checksumOf field address data) :
    srecDecode (front ++ 83 :: v :: (digits ++ rest)) count0 addr0 =
      some ⟨type, count, addressOf address, data⟩ := by
  have hv0 : v ≠ 0 := by
    rintro rfl
    cases hv
  obtain ⟨s1, t1, rfl, d1, hd1, l1, hl1, b1, h1⟩ := digits_split digits [field] _ hd hlen h
  obtain ⟨s2, t2, rfl, d2, hd2, l2, hl2, b2, h2⟩ := digits_split t1 address _ hd1 hl1 h1
  obtain ⟨s3, s4, rfl, d3, d4, l3, l4, b3, b4⟩ := digits_split t2 data _ hd2 hl2 h2
  have hfield : hex2Bin (s1 ++ (s2 ++ (s3 ++ (s4 ++ rest)))) = some (field.toNat : ℤ) :=
    hex2Bin_byte s1 _ field d1 l1 b1
  have hfield0 : ¬((field.toNat : ℤ) < 0) := by omega
  have hbytes := hexBytes_digits address.length s2 (s3 ++ (s4 ++ rest)) d2 l2
  have hbytes' := hexBytes_digits data.length s3 (s4 ++ rest) d3 l3
  have hlast := hex2Bin_byte s4 rest sum d4 l4 b4
  have hlast0 : ¬((sum.toNat : ℤ) < 0) := by omega
  have hdrop : (s1 ++ (s2 ++ (s3 ++ (s4 ++ rest)))).drop 2 = s2 ++ (s3 ++ (s4 ++ rest)) :=
    List.drop_left' l1
  rw [srecDecode, skipStart_record _ _ hS h0]
  simp only [Option.bind_eq_bind, Option.bind_some, if_neg hv0, List.append_assoc, hfield, hdrop,
    if_neg hfield0, hv]
  rw [← haddress, hbytes]
  simp only [Option.bind_some, ← hdata, hbytes', hlast, if_neg hlast0]
  rw [if_neg (by decide), if_neg (by decide), if_neg]
  · rw [← b2, ← b3]
  · rw [Int.toNat_natCast, Int.toNat_natCast, UInt8.ofNat_toNat, UInt8.ofNat_toNat, ← b2, ← b3, hsum]
    exact not_not.mpr rfl

/-! ## Any line -/

theorem nosrec_neg : ¬(0 ≤ srecENosrec) := by decide
theorem badtype_neg : ¬(0 ≤ srecEBadtype) := by decide
theorem badchks_neg : ¬(0 ≤ srecEBadchks) := by decide

/-- What a result for a data record tells about the line. -/
theorem srecDecode_line (line : Line) (count0 : ℤ) (addr0 : UInt32) :
    ∃ d, srecDecode (line.chars ++ [0]) count0 addr0 = some d ∧
      (0 ≤ d.type → d.type ≠ srecEmpty → ∃ v field address sum,
        Contains line.chars v (field :: (address ++ (d.data ++ [sum]))) ∧
        recordType v field.toNat = some (d.type, d.count) ∧ address.length = addressBytes v ∧
        d.data.length = d.count.toNat ∧ d.addr = addressOf address ∧
        sum = checksumOf field address d.data) := by
  rcases skipStart_line line.chars line.noNul with hskip | ⟨front, t, hS, hline, hskip⟩
  · refine ⟨⟨srecEmpty, count0, addr0, []⟩, ?_, fun _ h => absurd rfl h⟩
    rw [srecDecode, hskip]
    rfl
  have h0 : 0 ∉ 83 :: t := by
    intro h
    exact line.noNul (by rw [hline]; exact List.mem_append_right _ h)
  cases t with
  | nil =>
    refine ⟨⟨srecEmpty, count0, addr0, []⟩, ?_, fun _ h => absurd rfl h⟩
    rw [srecDecode, hskip]
    rfl
  | cons v t =>
    have hv0 : v ≠ 0 := by
      rintro rfl
      exact h0 (by simp)
    rw [srecDecode, hskip]
    simp only [Option.bind_eq_bind, Option.bind_some, List.cons_append, if_neg hv0]
    rcases hex2Bin_line t with hbad | ⟨a, b, s, i, j, rfl, hi, hj, hfield⟩
    · rw [hbad]
      exact ⟨_, rfl, fun h => absurd h nosrec_neg⟩
    have hi' := digit_lt a i hi
    have hj' := digit_lt b j hj
    have hbyte : (UInt8.ofNat (i*16+j)).toNat = i*16+j := by
      rw [UInt8.toNat_ofNat']
      omega
    have hfield0 : ¬(((i*16+j : ℕ) : ℤ) < 0) := by omega
    rw [hfield]
    simp only [Option.bind_some, if_neg hfield0, List.cons_append, List.drop_succ_cons,
      List.drop_zero]
    cases hv : recordType v ((i*16+j : ℕ) : ℤ) with
    | none => exact ⟨_, rfl, fun h => absurd h badtype_neg⟩
    | some r =>
      obtain ⟨type, count⟩ := r
      obtain ⟨address, ok, rest, haddress, hok⟩ := hexBytes_line (addressBytes v) s
      dsimp only
      rw [haddress]
      simp only [Option.bind_some]
      cases ok with
      | false => exact ⟨_, rfl, fun h => absurd h nosrec_neg⟩
      | true =>
        obtain ⟨s2, d2, l2, rfl, rfl⟩ := hok rfl
        obtain ⟨data, ok, last, hdata, hok⟩ := hexBytes_line count.toNat rest
        rw [hdata, if_neg (by decide)]
        simp only [Option.bind_some]
        cases ok with
        | false => exact ⟨_, rfl, fun h => absurd h nosrec_neg⟩
        | true =>
          obtain ⟨s3, d3, l3, rfl, rfl⟩ := hok rfl
          rw [if_neg (by decide)]
          rcases hex2Bin_line last with hbad | ⟨x, y, end_, k, l, rfl, hk, hl, hlast⟩
          · rw [hbad]
            exact ⟨_, rfl, fun h => absurd h nosrec_neg⟩
          have hlast0 : ¬(((k*16+l : ℕ) : ℤ) < 0) := by omega
          rw [hlast]
          simp only [Option.bind_some, if_neg hlast0]
          split_ifs with hsum
          · exact ⟨_, rfl, fun h => absurd h badchks_neg⟩
          rw [not_not] at hsum
          refine ⟨_, rfl, fun _ _ => ⟨v, UInt8.ofNat (i*16+j), bytesOf s2, UInt8.ofNat (k*16+l),
            ⟨front, a :: b :: (s2 ++ (s3 ++ [x, y])), end_, hS, ?_, ?_, ?_, ?_⟩, ?_,
            length_bytesOf _ _ l2, length_bytesOf _ _ l3, rfl, hsum⟩⟩
          · rw [isDigits_cons, isDigits_cons, isDigits_append, isDigits_append, isDigits_cons,
              isDigits_cons, hi, hj, hk, hl]
            exact ⟨rfl, rfl, d2, d3, rfl, rfl, by simp [IsDigits]⟩
          · simp only [List.length_cons, List.length_append, length_bytesOf _ _ l2,
              length_bytesOf _ _ l3, l2, l3, List.length_nil]
            omega
          · rw [bytesOf, hi, hj, bytesOf_append _ _ _ l2, bytesOf_append _ _ _ l3, bytesOf, hk, hl]
            rfl
          · rw [hline]
            simp only [List.cons_append, List.append_assoc, List.nil_append]
          · rw [hbyte]
            exact hv

/-! ## Data records -/

def IsData (type : ℤ) : Prop := type = srecData2 ∨ type = srecData3 ∨ type = srecData4

/-- A data record has an address of one byte more than the number of its type, and its count field
counts the checksum too. -/
theorem recordType_data (v : UInt8) (field type count : ℤ) (h : recordType v field = some (type, count))
    (ht : IsData type) :
    (v.toNat : ℤ) = 48+type ∧ (addressBytes v : ℤ) = type+1 ∧ count = field-(addressBytes v+1) := by
  unfold recordType at h
  split at h <;> cases h <;> rcases ht with ht | ht | ht <;> first
    | exact absurd ht (by decide)
    | exact ⟨by decide, by decide, rfl⟩

theorem addressOf_toNat (bs : List UInt8) : (addressOf bs).toNat = ofBe bs % 2^32 := by
  induction bs using List.reverseRecOn with
  | nil => rfl
  | append_singleton bs b ih =>
    have hb := b.toNat_lt
    have hstep : addressOf (bs ++ [b]) = addressOf bs*256+b.toUInt32 := by
      rw [addressOf, List.foldl_append]
      rfl
    rw [hstep, UInt32.toNat_add, UInt32.toNat_mul, ih, ofBe_append, UInt8.toNat_toUInt32]
    change ((ofBe bs % 2^32*256) % 2^32+b.toNat) % 2^32 = _
    omega

theorem ofBe_lt (bs : List UInt8) : ofBe bs < 256^bs.length := by
  induction bs using List.reverseRecOn with
  | nil => decide
  | append_singleton bs b ih =>
    have hb := b.toNat_lt
    rw [ofBe_append, List.length_append, List.length_singleton, pow_succ]
    omega

theorem addressOf_short (bs : List UInt8) (h : bs.length ≤ 4) : (addressOf bs).toNat = ofBe bs := by
  have hlt := ofBe_lt bs
  have hpow : 256^bs.length ≤ 256^4 := Nat.pow_le_pow_right (by decide) h
  rw [addressOf_toNat, Nat.mod_eq_of_lt (by omega)]

/-- A result for a data record says what a record of the line says, and the reading ends in the
line. -/
def Sound (line : Line) : Prop :=
  ∀ (count0 : ℤ) (addr0 : UInt32), ∃ d, srecDecode (line.chars ++ [0]) count0 addr0 = some d ∧
    (IsData d.type → ∃ v field address data sum,
      Contains line.chars v (field :: (address ++ (data ++ [sum]))) ∧ (v.toNat : ℤ) = 48+d.type ∧
      (address.length : ℤ) = d.type+1 ∧ field.toNat = (address ++ (data ++ [sum])).length ∧
      d.count = data.length ∧ d.data = data ∧ d.addr.toNat = ofBe address ∧
      sum = checksumOf field address data)

/-- A data record of the line has a right checksum right behind its address, and a count field that
is too small for both. -/
def TooShort (line : Line) : Prop :=
  ∃ v field address sum, (v = 49 ∨ v = 50 ∨ v = 51) ∧ address.length = addressBytes v ∧
    Contains line.chars v (field :: (address ++ [sum])) ∧ field.toNat ≤ address.length ∧
    sum = checksumOf field address []

/-- The decoder tells data records right except for those with a count field that is too small. -/
theorem data_sound_iff (line : Line) : Sound line ↔ ¬TooShort line := by
  constructor
  · rintro hsound ⟨v, field, address, sum, hv, haddress, hline, hshort, hsum⟩
    obtain ⟨front, digits, rest, hS, hd, hlen, hbytes, heq⟩ := hline
    obtain ⟨type, ht, htype⟩ : ∃ type, IsData type ∧
        recordType v field.toNat = some (type, (field.toNat : ℤ)-(addressBytes v+1)) := by
      rcases hv with rfl | rfl | rfl
      · exact ⟨srecData2, Or.inl rfl, rfl⟩
      · exact ⟨srecData3, Or.inr (Or.inl rfl), rfl⟩
      · exact ⟨srecData4, Or.inr (Or.inr rfl), rfl⟩
    have h0 : 0 ∉ front := by
      intro h
      exact line.noNul (by rw [heq]; exact List.mem_append_left _ h)
    have hdecode := srecDecode_record front digits (rest ++ [0]) v field sum address [] type _ 0 0
      hS h0 htype hd hlen hbytes haddress (by rw [List.length_nil]; omega) hsum
    obtain ⟨d, hdec, hdata⟩ := hsound 0 0
    rw [heq, List.append_assoc, List.cons_append, List.cons_append, List.append_assoc, hdecode] at hdec
    obtain rfl := Option.some.inj hdec
    obtain ⟨_, _, _, data, _, _, _, _, _, hcount, _⟩ := hdata ht
    dsimp only at hcount
    omega
  · intro hlong count0 addr0
    obtain ⟨d, hdec, hline⟩ := srecDecode_line line count0 addr0
    refine ⟨d, hdec, fun ht => ?_⟩
    have hpos : 0 ≤ d.type ∧ d.type ≠ srecEmpty := by
      rcases ht with ht | ht | ht <;> rw [ht] <;> decide
    obtain ⟨v, field, address, sum, hcontains, hv, haddress, hlen, haddr, hsum⟩ :=
      hline hpos.1 hpos.2
    obtain ⟨htype, hbytes, hcount⟩ := recordType_data v _ _ _ hv ht
    by_cases hneg : d.count < 0
    · -- nothing has been read for the data
      have hnil : d.data = [] := List.length_eq_zero_iff.mp (by omega)
      rw [hnil] at hcontains hsum
      refine absurd ⟨v, field, address, sum, ?_, haddress, hcontains, by omega, hsum⟩ hlong
      have h49 : v.toNat = 49 ∨ v.toNat = 50 ∨ v.toNat = 51 := by
        rcases ht with ht | ht | ht <;> rw [ht] at htype <;> simp only [srecData2, srecData3,
          srecData4] at htype <;> omega
      rcases h49 with h | h | h
      · exact Or.inl (UInt8.toNat_inj.mp h)
      · exact Or.inr (Or.inl (UInt8.toNat_inj.mp h))
      · exact Or.inr (Or.inr (UInt8.toNat_inj.mp h))
    · have hfour : address.length ≤ 4 := by
        rw [haddress, addressBytes]
        split_ifs <;> omega
      refine ⟨v, field, address, d.data, sum, hcontains, htype, by omega, ?_, by omega, rfl, ?_, hsum⟩
      · simp only [List.length_append, List.length_singleton]
        omega
      · rw [haddr, addressOf_short address hfour]

/-- `S1000000FF`: the count field is zero, and the result has a count of -3. -/
theorem zero_count_taken :
    ¬Sound ⟨[83, 49, 48, 48, 48, 48, 48, 48, 70, 70], by decide⟩ := by
  intro h
  obtain ⟨d, hdec, hdata⟩ := h 0 0
  have hd : srecDecode ([83, 49, 48, 48, 48, 48, 48, 48, 70, 70] ++ [0]) 0 0 =
      some ⟨srecData2, -3, 0, []⟩ := by decide
  rw [hd] at hdec
  obtain rfl := Option.some.inj hdec
  obtain ⟨_, _, _, data, _, _, _, _, _, hcount, _⟩ := hdata (Or.inl rfl)
  dsimp only at hcount
  omega

end UBoot.SRecord
