import UBoot.Ecdsa

/-!
# The text of a signature, as `mbedtls_ecdsa_read_signature` takes it

A sequence of two integers whose lengths may be in the short form or in any long one of up to
four bytes. The integers are read unsigned, and nothing may stand behind them.
-/

set_option autoImplicit false

namespace UBoot.Ecp

open Mpi LittleEndian

/-- The bytes of a length. -/
inductive LengthOf : List UInt8 → ℕ → Prop
  | short (b : UInt8) (h : b.toNat < 128) : LengthOf [b] b.toNat
  | long (b : UInt8) (bytes : List UInt8) (h : b.toNat = 128+bytes.length)
      (hlen : 1 ≤ bytes.length ∧ bytes.length ≤ 4) : LengthOf (b :: bytes) (ofLe bytes.reverse)

/-- A tag, a length and that many bytes. -/
inductive Element (tag : UInt8) (content : List UInt8) : List UInt8 → Prop
  | mk (hdr : List UInt8) (h : LengthOf hdr content.length) : Element tag content (tag :: hdr ++ content)

/-- A signature with the bytes of its two numbers. -/
inductive SignatureText (a b : List UInt8) : List UInt8 → Prop
  | mk (first second text : List UInt8) (h₁ : Element 0x02 a first) (h₂ : Element 0x02 b second)
      (h : Element 0x30 (first ++ second) text) : SignatureText a b text

theorem high_bit (b : UInt8) : (b &&& 0x80 = 0 ↔ b.toNat < 128) ∧
    (b &&& 0x7F).toNat = b.toNat % 128 := by
  constructor
  · rw [← UInt8.toNat_inj, UInt8.toNat_and, show (0x80 : UInt8).toNat = 2^7 from rfl,
      Nat.and_two_pow, UInt8.toNat_zero, Nat.testBit_eq_decide_div_mod_eq]
    have hb := b.toNat_lt
    by_cases hlt : b.toNat < 128
    · have hdiv : b.toNat/128 = 0 := Nat.div_eq_of_lt hlt
      simp [hdiv, hlt]
    · have hdiv : b.toNat/128 = 1 := by omega
      simp [hdiv, hlt]
  · rw [UInt8.toNat_and, show (0x7F : UInt8).toNat = 2^7-1 from rfl, Nat.and_two_pow_sub_one_eq_mod]

/-- A length is read exactly if it is there and so many bytes follow. -/
theorem asn1GetLen_iff (p rest : List UInt8) (n : ℕ) :
    asn1GetLen p = .ok (n, rest) ↔ ∃ hdr, LengthOf hdr n ∧ p = hdr ++ rest ∧ n ≤ rest.length := by
  constructor
  · intro h
    cases p with
    | nil => cases h
    | cons b t =>
      obtain ⟨hhigh, hlow⟩ := high_bit b
      have hb := b.toNat_lt
      unfold asn1GetLen at h
      dsimp only at h
      by_cases hshort : b &&& 0x80 = 0
      · rw [if_pos hshort] at h
        dsimp only [bind, Except.bind] at h
        split_ifs at h with hlen
        simp only [Except.ok.injEq, Prod.mk.injEq] at h
        obtain ⟨rfl, rfl⟩ := h
        exact ⟨[b], .short b (hhigh.mp hshort), rfl, not_lt.mp hlen⟩
      · rw [if_neg hshort, hlow] at h
        have hge := hhigh.not.mp hshort
        split_ifs at h with hk hdata
        · cases h
        · cases h
        dsimp only [bind, Except.bind] at h
        split_ifs at h with hlen
        simp only [Except.ok.injEq, Prod.mk.injEq] at h
        obtain ⟨rfl, rfl⟩ := h
        rw [List.length_cons] at hdata
        have htake : (t.take (b.toNat % 128)).length = b.toNat % 128 := by
          rw [List.length_take]
          omega
        refine ⟨b :: t.take (b.toNat % 128), .long b _ ?_ ?_, ?_, not_lt.mp hlen⟩
        · omega
        · omega
        · rw [List.cons_append, List.take_append_drop]
  · rintro ⟨hdr, hform, rfl, hle⟩
    cases hform with
    | short b hb =>
      rw [List.singleton_append, asn1GetLen]
      dsimp only
      rw [if_pos ((high_bit b).1.mpr hb)]
      dsimp only [bind, Except.bind]
      rw [if_neg (not_lt.mpr hle)]
    | long b bytes hb hlen =>
      have hlt := b.toNat_lt
      have hk : (b &&& 0x7F).toNat = bytes.length := by
        rw [(high_bit b).2]
        omega
      rw [List.cons_append, asn1GetLen]
      dsimp only
      rw [if_neg ((high_bit b).1.not.mpr (by omega)), hk, if_neg (by omega),
        if_neg (by rw [List.length_cons, List.length_append]; omega), List.take_left,
        List.drop_left]
      dsimp only [bind, Except.bind]
      rw [if_neg (not_lt.mpr hle)]

theorem asn1GetTag_iff (tag : UInt8) (p rest : List UInt8) (n : ℕ) :
    asn1GetTag tag p = .ok (n, rest) ↔
      ∃ hdr, LengthOf hdr n ∧ p = tag :: hdr ++ rest ∧ n ≤ rest.length := by
  unfold asn1GetTag
  cases p with
  | nil => simp
  | cons b t =>
    dsimp only
    by_cases htag : b = tag
    · rw [if_neg (not_not.mpr htag), asn1GetLen_iff, htag]
      simp
    · rw [if_pos htag]
      simp [htag]

/-- An integer and what is behind it. -/
theorem asn1GetMpi_iff (p rest : List UInt8) (X : ℤ) :
    asn1GetMpi p = .ok (X, rest) ↔
      ∃ content element, Element 0x02 content element ∧ p = element ++ rest ∧ readBinary content = .ok X := by
  unfold asn1GetMpi
  constructor
  · intro h
    cases htag : asn1GetTag 0x02 p with
    | error e =>
      rw [htag] at h
      cases h
    | ok v =>
      obtain ⟨n, p'⟩ := v
      obtain ⟨hdr, hform, rfl, hle⟩ := (asn1GetTag_iff _ _ _ _).mp htag
      rw [htag] at h
      dsimp only [bind, Except.bind] at h
      have hlen : (p'.take n).length = n := by
        rw [List.length_take]
        omega
      cases hread : readBinary (p'.take n) with
      | error e =>
        rw [hread] at h
        cases h
      | ok Y =>
        rw [hread] at h
        simp only [Except.ok.injEq, Prod.mk.injEq] at h
        obtain ⟨rfl, rfl⟩ := h
        refine ⟨p'.take n, _, .mk hdr (by rwa [hlen]), ?_, hread⟩
        rw [List.append_assoc, List.take_append_drop]
  · rintro ⟨content, _, ⟨hdr, hform⟩, rfl, hread⟩
    have htag := (asn1GetTag_iff 0x02 (0x02 :: hdr ++ content ++ rest) (content ++ rest)
      content.length).mpr ⟨hdr, hform, by rw [List.append_assoc], by rw [List.length_append]; omega⟩
    rw [htag]
    dsimp only [bind, Except.bind]
    rw [List.take_left, List.drop_left, hread]

/-- The texts that are read, with the numbers read from them. -/
theorem readSignature_iff (sig : List UInt8) (r s : ℤ) :
    readSignature sig = .ok (r, s) ↔
      ∃ a b, SignatureText a b sig ∧ readBinary a = .ok r ∧ readBinary b = .ok s := by
  unfold readSignature
  constructor
  · intro h
    cases htag : asn1GetTag 0x30 sig with
    | error e =>
      rw [htag] at h
      cases h
    | ok v =>
      obtain ⟨n, p⟩ := v
      obtain ⟨hdr, hform, rfl, -⟩ := (asn1GetTag_iff _ _ _ _).mp htag
      rw [htag] at h
      dsimp only at h
      split_ifs at h with hlen
      rw [ne_eq, not_not] at hlen
      cases hfirst : asn1GetMpi p with
      | error e =>
        rw [hfirst] at h
        cases h
      | ok v =>
        obtain ⟨r', p'⟩ := v
        rw [hfirst] at h
        dsimp only at h
        cases hsecond : asn1GetMpi p' with
        | error e =>
          rw [hsecond] at h
          cases h
        | ok v =>
          obtain ⟨s', p''⟩ := v
          rw [hsecond] at h
          dsimp only at h
          split_ifs at h with hend
          simp only [Except.ok.injEq, Prod.mk.injEq] at h
          obtain ⟨rfl, rfl⟩ := h
          rw [ne_eq, not_not] at hend
          obtain ⟨a, first, h₁, rfl, ha⟩ := (asn1GetMpi_iff _ _ _).mp hfirst
          obtain ⟨b, second, h₂, rfl, hb⟩ := (asn1GetMpi_iff _ _ _).mp hsecond
          rw [hend, List.append_nil] at hlen ⊢
          exact ⟨a, b, .mk first second _ h₁ h₂ (.mk hdr (hlen ▸ hform)), ha, hb⟩
  · rintro ⟨a, b, ⟨first, second, _, h₁, h₂, ⟨hdr, hform⟩⟩, ha, hb⟩
    have htag := (asn1GetTag_iff 0x30 (0x30 :: hdr ++ (first ++ second)) (first ++ second)
      (first ++ second).length).mpr ⟨hdr, hform, rfl, le_rfl⟩
    have hfirst := (asn1GetMpi_iff (first ++ second) second r).mpr ⟨a, first, h₁, rfl, ha⟩
    have hsecond := (asn1GetMpi_iff second [] s).mpr ⟨b, second, h₂, (List.append_nil _).symm, hb⟩
    rw [htag]
    dsimp only
    rw [if_neg (not_not.mpr rfl), hfirst]
    dsimp only
    rw [hsecond]
    rfl

/-! ## Numbers in bytes -/

theorem ofLe_append_zero (l : List UInt8) : ofLe (l ++ [0]) = ofLe l := by
  induction l with
  | nil => rfl
  | cons b l ih => rw [List.cons_append, ofLe, ofLe, ih]

/-- Leading zeros do not count, neither for the number nor for the limbs. -/
theorem readBinary_eq (buf : List UInt8) :
    readBinary buf = if 40000 < (buf.dropWhile (· = 0)).length then .error .mpiAllocFailed
      else .ok (ofLe buf.reverse) := by
  have hvalue : ofLe (buf.dropWhile (· = 0)).reverse = ofLe buf.reverse := by
    induction buf with
    | nil => rfl
    | cons b buf ih =>
      by_cases hb : b = 0
      · rw [List.dropWhile_cons_of_pos (by simpa using hb), ih, List.reverse_cons, hb,
          ofLe_append_zero]
      · rw [List.dropWhile_cons_of_neg (by simpa using hb)]
  unfold readBinary charsToLimbs ciL
  dsimp only
  rw [hvalue]
  congr 1
  generalize (buf.dropWhile (· = 0)).length = n
  rw [eq_iff_iff]
  split_ifs <;> omega

/-- The length of a text in its shortest form. -/
def derLength (n : ℕ) : List UInt8 :=
  if n < 128 then [UInt8.ofNat n]
  else
    let k := if n < 256 then 1 else if n < 256^2 then 2 else if n < 256^3 then 3 else 4
    UInt8.ofNat (128+k) :: (le k n).reverse

theorem derLength_form {n : ℕ} (hn : n < 256^4) : LengthOf (derLength n) n := by
  unfold derLength
  by_cases hshort : n < 128
  · rw [if_pos hshort]
    have hb : (UInt8.ofNat n).toNat = n := by
      rw [UInt8.toNat_ofNat']
      omega
    have hform := LengthOf.short (UInt8.ofNat n) (by omega)
    rwa [hb] at hform
  · rw [if_neg hshort]
    dsimp only
    generalize hk : (if n < 256 then 1 else if n < 256^2 then 2 else if n < 256^3 then 3 else 4) = k
    have hfit : (1 ≤ k ∧ k ≤ 4) ∧ n < 256^k := by
      rw [← hk]
      split_ifs <;> omega
    have hb : (UInt8.ofNat (128+k)).toNat = 128+k := by
      rw [UInt8.toNat_ofNat']
      omega
    have hform := LengthOf.long (UInt8.ofNat (128+k)) (le k n).reverse
      (by rw [hb, List.length_reverse, length_le]) (by rw [List.length_reverse, length_le]; exact hfit.1)
    rwa [List.reverse_reverse, ofLe_le, Nat.mod_eq_of_lt hfit.2] at hform

/-- A signature in the shortest form. -/
def signatureText (a b : List UInt8) : List UInt8 :=
  let body := 0x02 :: derLength a.length ++ a ++ (0x02 :: derLength b.length ++ b)
  0x30 :: derLength body.length ++ body

/-- What is written in the shortest form is read back. -/
theorem readSignature_text (a b : List UInt8) (hlen : a.length ≤ 40000 ∧ b.length ≤ 40000) :
    readSignature (signatureText a b) = .ok ((ofLe a.reverse : ℤ), (ofLe b.reverse : ℤ)) := by
  have hshort : ∀ n ≤ 40000, (derLength n).length ≤ 5 := by
    intro n _
    unfold derLength
    split_ifs <;> simp
  have hread : ∀ l : List UInt8, l.length ≤ 40000 → readBinary l = .ok (ofLe l.reverse : ℤ) := by
    intro l hl
    rw [readBinary_eq, if_neg (not_lt.mpr ((List.length_dropWhile_le _ _).trans hl))]
  rw [readSignature_iff]
  refine ⟨a, b, .mk _ _ _ (.mk _ (derLength_form ?_)) (.mk _ (derLength_form ?_))
    (.mk _ (derLength_form ?_)), hread a hlen.1, hread b hlen.2⟩
  · omega
  · omega
  · have h₁ := hshort _ hlen.1
    have h₂ := hshort _ hlen.2
    simp only [List.length_append, List.length_cons]
    omega

theorem readSignature_text_pair : readSignature (signatureText [1, 2] [3]) = .ok (258, 3) :=
  readSignature_text [1, 2] [3] ⟨by decide, by decide⟩

end UBoot.Ecp
