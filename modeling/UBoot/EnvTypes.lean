import UBoot.EnvFlags

/-!
# The types of environment variables

The check of a value against its type is compared with what the values of each type are. The
check is written once more on the bytes of the value and its terminator, where it may not read on.
-/

set_option autoImplicit false

namespace UBoot.EnvFlags
open UBoot.HashTable

/-! ## The check on the bytes in memory -/

def isHexPrefixIn (s : List UInt8) : Option Bool :=
  s[0]?.bind fun c => if c = 48 then s[1]?.map fun d => decide (d = 120 ∨ d = 88) else some false

/-- The loop of `skip_num`; `none` is a look behind the terminator. -/
def skipDigitsIn (hex : Bool) : Option ℕ → List UInt8 → Option (List UInt8)
  | some 0, s => some s
  | _, [] => none
  | left, c::s =>
    if (if hex then isxdigit c else isdigit c) then skipDigitsIn hex (left.map (·-1)) s
    else some (c::s)

def skipNumIn (hex : Bool) (s : List UInt8) (maxDigits : Option ℕ) : Option (List UInt8) :=
  if hex then (isHexPrefixIn s).bind fun p =>
    skipDigitsIn hex maxDigits (if p then s.drop 2 else s)
  else skipDigitsIn hex maxDigits s

@[grind]
def numbersIn (hex : Bool) (digits : ℕ) (sep : UInt8) : ℕ → List UInt8 → Option Bool
  | 0, _ => some true
  | left+1, cur =>
    (skipNumIn hex cur (some digits)).bind fun stop =>
      if stop.length = cur.length then some false
      else (if hex ∧ stop.length+2 = cur.length then isHexPrefixIn cur else some false).bind
        fun bad =>
          if bad then some false
          else stop.head?.bind fun e =>
            if left = 0 then some (e = 0)
            else if e = sep then numbersIn hex digits sep left stop.tail else some false

def validateTypeIn (s : List UInt8) (type : ℕ) : Option Bool :=
  match type with
  | 1 => (skipNumIn false s none).bind fun stop => stop.head?.map fun e => decide (e = 0)
  | 2 => (skipNumIn true s none).bind fun stop => stop.head?.bind fun e =>
      if e ≠ 0 then some false
      else if stop.length+2 = s.length then (isHexPrefixIn s).map fun p => !p else some true
  | 3 => s[0]?.bind fun c =>
      if c ∈ ([49, 121, 116, 89, 84, 48, 110, 102, 78, 70] : CStr) then
        s[1]?.map fun d => decide (d = 0)
      else some false
  | 4 => numbersIn false 3 46 4 s
  | 5 => numbersIn true 2 58 6 s
  | 6 => some false
  | _ => some true

/-! ## The values of a type -/

def digit (hex : Bool) (c : UInt8) : Bool := if hex then isxdigit c else isdigit c

def HexPrefix (l : CStr) : Prop := l = [48, 120] ∨ l = [48, 88]

/-- The number that decimal digits stand for. -/
def numeral (l : CStr) : ℕ := l.foldl (fun n c => 10*n+(c.toNat-48)) 0

def Decimal (l : CStr) : Prop := l ≠ [] ∧ ∀ c ∈ l, isdigit c = true

/-- The parts with the separator between them. -/
@[grind]
def joinedBy (sep : UInt8) : List CStr → CStr
  | [] => []
  | [g] => g
  | g::g'::gs => g ++ sep::joinedBy sep (g'::gs)

def InGrammar (type : ℕ) (value : CStr) : Prop :=
  match type with
  | 1 => ∀ c ∈ value, isdigit c = true
  | 2 => ∃ front ds, value = front ++ ds ∧ (front = [] ∨ HexPrefix front) ∧ ds ≠ [] ∧
      ∀ c ∈ ds, isxdigit c = true
  | 3 => ∃ c ∈ ([49, 121, 116, 89, 84, 48, 110, 102, 78, 70] : CStr), value = [c]
  | 4 => ∃ gs : List CStr, gs.length = 4 ∧ value = joinedBy 46 gs ∧
      ∀ g ∈ gs, Decimal g ∧ numeral g ≤ 255
  | 5 => ∃ gs : List CStr, gs.length = 6 ∧ value = joinedBy 58 gs ∧
      ∀ g ∈ gs, g ≠ [] ∧ g.length ≤ 2 ∧ ∀ c ∈ g, isxdigit c = true
  | _ => True

/-! ## Reading no further than the terminator -/

theorem digit_zero (hex : Bool) : digit hex 0 = false := by
  cases hex <;> decide

theorem isHexPrefixIn_value (value : CStr) :
    isHexPrefixIn (value ++ [0]) = some (isHexPrefix value) := by
  cases value with
  | nil => rfl
  | cons c value =>
    by_cases hc : c = 48
    · cases value with
      | nil => simp [isHexPrefixIn, isHexPrefix, hc]
      | cons d value => simp [isHexPrefixIn, isHexPrefix, hc]
    · simp [isHexPrefixIn, isHexPrefix, hc]

theorem isHexPrefix_two (value : CStr) (h : isHexPrefix value = true) :
    ∃ front rest, value = front ++ rest ∧ HexPrefix front ∧ value.drop 2 = rest := by
  cases value with
  | nil => exact absurd h (by decide)
  | cons c value =>
    cases value with
    | nil => exact absurd h (by simp [isHexPrefix])
    | cons d rest =>
      simp only [isHexPrefix, List.getD_cons_zero, List.getD_cons_succ, decide_eq_true_eq] at h
      refine ⟨[c, d], rest, rfl, ?_, rfl⟩
      rcases h.2 with hd | hd
      · exact .inl (by rw [h.1, hd])
      · exact .inr (by rw [h.1, hd])

theorem skipDigits_zero (hex : Bool) (s : CStr) : skipDigits hex (some 0) s = s := by
  cases s <;> rfl

theorem skipDigits_cons (hex : Bool) (left : Option ℕ) (hl : left ≠ some 0) (c : UInt8)
    (s : CStr) : skipDigits hex left (c::s) =
      if digit hex c then skipDigits hex (left.map (·-1)) s else c::s := by
  match left with
  | none => rfl
  | some 0 => exact absurd rfl hl
  | some (n+1) => rfl

theorem skipDigitsIn_cons (hex : Bool) (left : Option ℕ) (hl : left ≠ some 0) (c : UInt8)
    (s : CStr) : skipDigitsIn hex left (c::s) =
      if digit hex c then skipDigitsIn hex (left.map (·-1)) s else some (c::s) := by
  match left with
  | none => rfl
  | some 0 => exact absurd rfl hl
  | some (n+1) => rfl

theorem skipDigitsIn_value (hex : Bool) (value : CStr) (left : Option ℕ) :
    skipDigitsIn hex left (value ++ [0]) = some (skipDigits hex left value ++ [0]) := by
  induction value generalizing left with
  | nil =>
    have h0 := digit_zero hex
    by_cases hl : left = some 0
    · rw [hl]
      rfl
    · rw [List.nil_append, skipDigitsIn_cons hex left hl, h0, if_neg Bool.false_ne_true, skipDigits]
      rfl
  | cons c value ih =>
    by_cases hl : left = some 0
    · rw [hl, skipDigits_zero]
      rfl
    · rw [List.cons_append, skipDigitsIn_cons hex left hl, skipDigits_cons hex left hl]
      by_cases hc : digit hex c = true
      · rw [if_pos hc, if_pos hc, ih]
      · rw [if_neg hc, if_neg hc]
        rfl

theorem skipNumIn_value (hex : Bool) (value : CStr) (left : Option ℕ) :
    skipNumIn hex (value ++ [0]) left = some (skipNum hex value left ++ [0]) := by
  rw [skipNumIn, skipNum]
  cases hex with
  | false => exact skipDigitsIn_value false value left
  | true =>
    rw [if_pos rfl, isHexPrefixIn_value, Option.bind_some, Bool.true_and]
    cases hp : isHexPrefix value with
    | false =>
      rw [if_neg Bool.false_ne_true, if_neg Bool.false_ne_true]
      exact skipDigitsIn_value true value left
    | true =>
      rw [if_pos rfl, if_pos rfl]
      obtain ⟨front, rest, hvalue, hfront, hdrop⟩ := isHexPrefix_two value hp
      have hlen : front.length = 2 := by
        rcases hfront with h | h <;> rw [h] <;> rfl
      have hin : (value ++ [0]).drop 2 = rest ++ [0] := by
        rw [hvalue, List.append_assoc, ← hlen, List.drop_left]
      rw [hin, hdrop]
      exact skipDigitsIn_value true rest left

/-- What is skipped are digits, at most as many as allowed. -/
theorem skipDigits_split (hex : Bool) (left : Option ℕ) (s : CStr) :
    ∃ ds, s = ds ++ skipDigits hex left s ∧ (∀ c ∈ ds, digit hex c = true) ∧
      ∀ n, left = some n → ds.length ≤ n := by
  induction s generalizing left with
  | nil => exact ⟨[], by rw [skipDigits]; rfl, by simp, fun n _ => Nat.zero_le n⟩
  | cons c s ih =>
    by_cases hl : left = some 0
    · rw [hl, skipDigits_zero]
      exact ⟨[], rfl, by simp, fun n _ => Nat.zero_le n⟩
    · rw [skipDigits_cons hex left hl]
      by_cases hc : digit hex c = true
      · rw [if_pos hc]
        obtain ⟨ds, hs, hds, hlen⟩ := ih (left.map (·-1))
        refine ⟨c::ds, by rw [List.cons_append, ← hs], List.forall_mem_cons.mpr ⟨hc, hds⟩, ?_⟩
        rintro n rfl
        have hn : n ≠ 0 := fun h => hl (by rw [h])
        have hle := hlen (n-1) rfl
        rw [List.length_cons]
        omega
      · rw [if_neg hc]
        exact ⟨[], rfl, by simp, fun n _ => Nat.zero_le n⟩

theorem skipDigits_all (hex : Bool) (left : Option ℕ) (ds t : CStr)
    (hds : ∀ c ∈ ds, digit hex c = true) (hlen : ∀ n, left = some n → ds.length ≤ n)
    (ht : ∀ c, t.head? = some c → digit hex c = false) : skipDigits hex left (ds ++ t) = t := by
  induction ds generalizing left with
  | nil =>
    rw [List.nil_append]
    cases t with
    | nil => rw [skipDigits]
    | cons c t =>
      by_cases hl : left = some 0
      · rw [hl, skipDigits_zero]
      · rw [skipDigits_cons hex left hl, ht c rfl, if_neg Bool.false_ne_true]
  | cons c ds ih =>
    have hl : left ≠ some 0 := by
      intro h
      have hle := hlen 0 h
      rw [List.length_cons] at hle
      omega
    obtain ⟨hc, hds'⟩ := List.forall_mem_cons.mp hds
    rw [List.cons_append, skipDigits_cons hex left hl, if_pos hc]
    apply ih (left.map (·-1)) hds'
    intro n hn
    obtain ⟨m, hm, rfl⟩ := Option.map_eq_some_iff.mp hn
    have hle := hlen m hm
    rw [List.length_cons] at hle
    omega

/-- A number of an address: digits, at most as many as allowed, and for hexadecimals perhaps a
prefix in front of them. -/
structure Octet (hex : Bool) (digits : ℕ) (front ds : CStr) : Prop where
  front : front = [] ∨ hex = true ∧ HexPrefix front
  nonempty : ds ≠ []
  short : ds.length ≤ digits
  all : ∀ c ∈ ds, digit hex c = true

theorem HexPrefix.length {l : CStr} (h : HexPrefix l) : l.length = 2 := by
  rcases h with h | h <;> rw [h] <;> rfl

/-- What `skip_num` skips is a prefix that the value begins with, and digits. -/
theorem skipNum_split (hex : Bool) (s : CStr) (left : Option ℕ) :
    ∃ front ds, s = front ++ (ds ++ skipNum hex s left) ∧
      (front = [] ∧ (hex && isHexPrefix s) = false ∨
        HexPrefix front ∧ (hex && isHexPrefix s) = true) ∧
      (∀ c ∈ ds, digit hex c = true) ∧ ∀ n, left = some n → ds.length ≤ n := by
  rw [skipNum]
  cases hp : hex && isHexPrefix s with
  | false =>
    rw [if_neg Bool.false_ne_true]
    obtain ⟨ds, hs, hds, hlen⟩ := skipDigits_split hex left s
    exact ⟨[], ds, hs, .inl ⟨rfl, rfl⟩, hds, hlen⟩
  | true =>
    rw [if_pos rfl]
    obtain ⟨front, rest, hvalue, hfront, hdrop⟩ := isHexPrefix_two s (Bool.and_elim_right hp)
    rw [hdrop]
    obtain ⟨ds, hs, hds, hlen⟩ := skipDigits_split hex left rest
    exact ⟨front, ds, by rw [← hs, hvalue], .inr ⟨hfront, rfl⟩, hds, hlen⟩

theorem numbersIn_value (hex : Bool) (digits : ℕ) (sep : UInt8) (hsep : sep ≠ 0) (left : ℕ)
    (cur : CStr) (h0 : (0 : UInt8) ∉ cur) :
    numbersIn hex digits sep left (cur ++ [0]) = some (numbers hex digits sep left cur) := by
  induction left generalizing cur with
  | zero => rfl
  | succ left ih =>
    rw [numbersIn, numbers, skipNumIn_value, Option.bind_some]
    obtain ⟨front, ds, hcur, -, -, -⟩ := skipNum_split hex cur (some digits)
    have hstop : (0 : UInt8) ∉ skipNum hex cur (some digits) := fun hm => h0 (by
      rw [hcur]
      simp [hm])
    generalize skipNum hex cur (some digits) = stop at *
    have hlens : ((stop ++ [0]).length = (cur ++ [0]).length ↔ stop.length = cur.length) ∧
        ((stop ++ [0]).length+2 = (cur ++ [0]).length ↔ stop.length+2 = cur.length) := by
      simp only [List.length_append, List.length_singleton]
      omega
    have hbad : (if hex = true ∧ (stop ++ [0]).length+2 = (cur ++ [0]).length then
        isHexPrefixIn (cur ++ [0]) else some false) =
          some (hex && isHexPrefix cur && decide (stop.length+2 = cur.length)) := by
      simp only [hlens.2, isHexPrefixIn_value]
      cases hex with
      | false => simp
      | true => by_cases h2 : stop.length+2 = cur.length <;> simp [h2]
    rw [hbad, Option.bind_some]
    by_cases hlen : stop.length = cur.length
    · rw [if_pos (hlens.1.mpr hlen), if_pos hlen]
    · rw [if_neg (hlens.1.not.mpr hlen), if_neg hlen]
      cases hp : hex && isHexPrefix cur && decide (stop.length+2 = cur.length) with
      | true => rfl
      | false =>
        rw [if_neg Bool.false_ne_true, if_neg Bool.false_ne_true]
        cases stop with
        | nil =>
          by_cases hleft : left = 0
          · simp [hleft]
          · simp [hleft, hsep.symm]
        | cons e rest =>
          have he : e ≠ 0 := fun h => hstop (by rw [h]; exact List.mem_cons_self)
          have hrest : (0 : UInt8) ∉ rest := fun h => hstop (List.mem_cons_of_mem _ h)
          by_cases hleft : left = 0
          · simp [hleft, he]
          · by_cases hes : e = sep
            · simp [hleft, hes, ih rest hrest]
            · simp [hleft, hes]

/-- The first byte of what is left of a value and its terminator. -/
theorem head_terminated (stop : CStr) (h0 : (0 : UInt8) ∉ stop) :
    ∃ e, (stop ++ [0]).head? = some e ∧ (e = 0 ↔ stop = []) := by
  cases stop with
  | nil => exact ⟨0, rfl, by simp⟩
  | cons e rest =>
    refine ⟨e, rfl, ?_⟩
    have he : e ≠ 0 := fun h => h0 (by rw [h]; exact List.mem_cons_self)
    simp [he]

theorem skipNum_nul (hex : Bool) (value : CStr) (h0 : (0 : UInt8) ∉ value) (left : Option ℕ) :
    (0 : UInt8) ∉ skipNum hex value left := by
  obtain ⟨front, ds, hvalue, -, -, -⟩ := skipNum_split hex value left
  intro hm
  apply h0
  rw [hvalue]
  simp [hm]

/-- The check reads no further than the terminator. -/
theorem validateTypeIn_value (value : CStr) (h0 : (0 : UInt8) ∉ value) (type : ℕ) :
    validateTypeIn (value ++ [0]) type = some (validateType value type) := by
  match type with
  | 0 => rfl
  | 1 =>
    simp only [validateTypeIn, validateType, skipNumIn_value, Option.bind_some]
    obtain ⟨e, he, hnil⟩ := head_terminated _ (skipNum_nul false value h0 none)
    rw [he, Option.map_some]
    simp only [hnil]
  | 2 =>
    simp only [validateTypeIn, validateType, skipNumIn_value, Option.bind_some]
    obtain ⟨e, he, hnil⟩ := head_terminated _ (skipNum_nul true value h0 none)
    rw [he, Option.bind_some, isHexPrefixIn_value]
    by_cases hstop : skipNum true value none = []
    · rw [if_neg (not_not.mpr (hnil.mpr hstop)), hstop]
      by_cases hlen : value.length = 2
      · simp [hlen]
      · have hne : ([] ++ [(0 : UInt8)] : CStr).length+2 ≠ (value ++ [0]).length := by
          simp only [List.nil_append, List.length_append, List.length_singleton]
          omega
        rw [if_neg hne]
        simp [hlen]
    · rw [if_pos (hnil.not.mpr hstop)]
      simp [hstop]
  | 3 =>
    cases value with
    | nil => rfl
    | cons c value =>
      unfold validateTypeIn validateType
      generalize ([49, 121, 116, 89, 84, 48, 110, 102, 78, 70] : CStr) = reps
      by_cases hc : c ∈ reps
      · cases value <;> simp [hc]
      · simp [hc]
  | 4 => exact numbersIn_value false 3 46 (by decide) 4 value h0
  | 5 => exact numbersIn_value true 2 58 (by decide) 6 value h0
  | 6 => rfl
  | type+7 => rfl

/-! ## Decimal, hexadecimal and boolean values -/

theorem accepts_decimal (value : CStr) :
    validateType value 1 = true ↔ InGrammar 1 value := by
  have hskip : validateType value 1 = decide (skipDigits false none value = []) := rfl
  rw [hskip, decide_eq_true_iff]
  constructor
  · intro h
    obtain ⟨ds, hvalue, hds, -⟩ := skipDigits_split false none value
    rw [h, List.append_nil] at hvalue
    rw [hvalue]
    exact hds
  · intro h
    have hall := skipDigits_all false none value [] h nofun nofun
    rwa [List.append_nil] at hall

theorem not_prefix_of_digit (c d : UInt8) (s : CStr) (hd : d ≠ 120 ∧ d ≠ 88) :
    isHexPrefix (c::d::s) = false := by
  simp [isHexPrefix, hd.1, hd.2]

theorem digit_not_x (hex : Bool) (d : UInt8) (hd : digit hex d = true) : d ≠ 120 ∧ d ≠ 88 := by
  constructor
  · rintro rfl
    cases hex <;> exact absurd hd (by decide)
  · rintro rfl
    cases hex <;> exact absurd hd (by decide)

/-- Digits and what follows them do not begin with a prefix, unless that does with an x. -/
theorem isHexPrefix_digits (hex : Bool) (ds t : CStr) (hne : ds ≠ [])
    (hds : ∀ c ∈ ds, digit hex c = true) (ht : ∀ c, t.head? = some c → c ≠ 120 ∧ c ≠ 88) :
    isHexPrefix (ds ++ t) = false := by
  obtain ⟨c, ds, rfl⟩ := List.exists_cons_of_ne_nil hne
  cases ds with
  | nil =>
    cases t with
    | nil => simp [isHexPrefix]
    | cons d t => exact not_prefix_of_digit c d t (ht d rfl)
  | cons d ds =>
    exact not_prefix_of_digit c d (ds ++ t) (digit_not_x hex d (hds d (by simp)))

theorem isHexPrefix_front (front t : CStr) (h : HexPrefix front) :
    isHexPrefix (front ++ t) = true ∧ (front ++ t).drop 2 = t := by
  rcases h with h | h <;> rw [h] <;> exact ⟨rfl, rfl⟩

/-- `skip_num` skips a prefix and digits if nothing goes on that could belong to them. -/
theorem skipNum_octet (hex : Bool) (left : Option ℕ) (front ds t : CStr)
    (hfront : front = [] ∨ hex = true ∧ HexPrefix front) (hne : ds ≠ [])
    (hds : ∀ c ∈ ds, digit hex c = true) (hlen : ∀ n, left = some n → ds.length ≤ n)
    (ht : ∀ c, t.head? = some c → digit hex c = false ∧ c ≠ 120 ∧ c ≠ 88) :
    skipNum hex (front ++ (ds ++ t)) left = t := by
  have hskip := skipDigits_all hex left ds t hds hlen fun c hc => (ht c hc).1
  rw [skipNum]
  rcases hfront with rfl | ⟨rfl, hfront⟩
  · rw [List.nil_append, isHexPrefix_digits hex ds t hne hds fun c hc => (ht c hc).2,
      Bool.and_false, if_neg Bool.false_ne_true, hskip]
  · obtain ⟨hp, hdrop⟩ := isHexPrefix_front front (ds ++ t) hfront
    rw [hp, Bool.and_self, if_pos rfl, hdrop, hskip]

theorem accepts_hex (value : CStr) (hne : value ≠ []) :
    validateType value 2 = true ↔ InGrammar 2 value := by
  have hcheck : validateType value 2 = decide (skipNum true value none = [] ∧
      ¬ (isHexPrefix value = true ∧ value.length = 2)) := rfl
  rw [hcheck, decide_eq_true_iff]
  constructor
  · rintro ⟨hstop, hbare⟩
    obtain ⟨front, ds, hvalue, hfront, hds, -⟩ := skipNum_split true value none
    rw [hstop, List.append_nil] at hvalue
    refine ⟨front, ds, hvalue, ?_, ?_, hds⟩
    · rcases hfront with ⟨h, -⟩ | ⟨h, -⟩
      · exact .inl h
      · exact .inr h
    · rintro rfl
      rw [List.append_nil] at hvalue
      rcases hfront with ⟨h, -⟩ | ⟨h, hp⟩
      · exact hne (hvalue.trans h)
      · exact hbare ⟨hp, by rw [hvalue, h.length]⟩
  · rintro ⟨front, ds, rfl, hfront, hds, hall⟩
    have hstop := skipNum_octet true none front ds [] (hfront.imp_right fun h => ⟨rfl, h⟩) hds hall
      nofun nofun
    rw [List.append_nil] at hstop
    refine ⟨hstop, ?_⟩
    rintro ⟨hp, hlen⟩
    rcases hfront with rfl | hfront
    · have hno := isHexPrefix_digits true ds [] hds hall nofun
      rw [List.append_nil] at hno
      rw [List.nil_append, hno] at hp
      cases hp
    · rw [List.length_append, hfront.length] at hlen
      exact hds (List.length_eq_zero_iff.mp (by omega))

theorem accepts_bool (value : CStr) (hne : value ≠ []) (h0 : (0 : UInt8) ∉ value) :
    validateType value 3 = true ↔ InGrammar 3 value := by
  obtain ⟨c, rest, rfl⟩ := List.exists_cons_of_ne_nil hne
  unfold validateType InGrammar
  generalize ([49, 121, 116, 89, 84, 48, 110, 102, 78, 70] : CStr) = reps
  cases rest with
  | nil => simp
  | cons d rest =>
    have hd : d ≠ 0 := fun h => h0 (by rw [h]; simp)
    simp [hd]

/-! ## Addresses -/

/-- A number as `skip_num` passes it. -/
def Number (hex : Bool) (digits : ℕ) (g : CStr) : Prop :=
  ∃ front ds, g = front ++ ds ∧ Octet hex digits front ds

theorem numbers_step (hex : Bool) (digits : ℕ) (sep : UInt8)
    (hsep : digit hex sep = false ∧ sep ≠ 120 ∧ sep ≠ 88) (left : ℕ) (cur : CStr) :
    numbers hex digits sep (left+1) cur = true ↔ ∃ g stop, cur = g ++ stop ∧
      Number hex digits g ∧ (if left = 0 then stop = []
        else ∃ rest, stop = sep::rest ∧ numbers hex digits sep left rest = true) := by
  rw [numbers]
  constructor
  · intro h
    obtain ⟨front, ds, hcur, hfront, hds, hshort⟩ := skipNum_split hex cur (some digits)
    generalize skipNum hex cur (some digits) = stop at *
    have hlen : ¬ stop.length = cur.length := by
      intro hlen
      rw [if_pos hlen] at h
      cases h
    rw [if_neg hlen] at h
    have hbare : ¬ (hex && isHexPrefix cur && decide (stop.length+2 = cur.length)) = true := by
      intro hbare
      rw [if_pos hbare] at h
      cases h
    rw [if_neg hbare] at h
    have hne : ds ≠ [] := by
      rintro rfl
      rw [List.nil_append] at hcur
      rcases hfront with ⟨rfl, -⟩ | ⟨hpre, hp⟩
      · exact hlen (by rw [hcur]; rfl)
      · apply hbare
        rw [hp, Bool.true_and, decide_eq_true_iff, hcur, List.length_append, hpre.length]
        omega
    refine ⟨front ++ ds, stop, by rw [hcur, List.append_assoc],
      ⟨front, ds, rfl, ⟨?_, hne, hshort digits rfl, hds⟩⟩, ?_⟩
    · rcases hfront with ⟨hnil, -⟩ | ⟨hpre, hp⟩
      · exact .inl hnil
      · exact .inr ⟨Bool.and_elim_left hp, hpre⟩
    · by_cases hleft : left = 0
      · rw [if_pos hleft] at h ⊢
        exact of_decide_eq_true h
      · rw [if_neg hleft] at h ⊢
        obtain ⟨hhead, hrest⟩ := Bool.and_eq_true_iff.mp h
        cases stop with
        | nil => exact absurd hhead (by simp)
        | cons e rest => exact ⟨rest, by rw [Option.some.inj (of_decide_eq_true hhead)], hrest⟩
  · rintro ⟨g, stop, rfl, ⟨front, ds, rfl, hoct⟩, hend⟩
    have hhead : ∀ c, stop.head? = some c → digit hex c = false ∧ c ≠ 120 ∧ c ≠ 88 := by
      intro c hc
      by_cases hleft : left = 0
      · rw [if_pos hleft] at hend
        rw [hend] at hc
        cases hc
      · rw [if_neg hleft] at hend
        obtain ⟨rest, rfl, -⟩ := hend
        rwa [← Option.some.inj hc]
    have hpos := List.length_pos_iff.mpr hoct.nonempty
    have hskip := skipNum_octet hex (some digits) front ds stop hoct.front hoct.nonempty hoct.all
      (fun n hn => by rw [← Option.some.inj hn]; exact hoct.short) hhead
    have hbare : ¬ (hex && isHexPrefix (front ++ ds ++ stop) &&
        decide (stop.length+2 = (front ++ ds ++ stop).length)) = true := by
      intro hbare
      obtain ⟨hp, hlen⟩ := Bool.and_eq_true_iff.mp hbare
      have hlen' := of_decide_eq_true hlen
      rcases hoct.front with rfl | ⟨-, hpre⟩
      · have hno := isHexPrefix_digits hex ds stop hoct.nonempty hoct.all fun c hc => (hhead c hc).2
        rw [List.nil_append, hno, Bool.and_false] at hp
        cases hp
      · simp only [List.length_append, hpre.length] at hlen'
        omega
    rw [List.append_assoc] at hbare ⊢
    rw [hskip]
    have hlen : ¬ stop.length = (front ++ (ds ++ stop)).length := by
      simp only [List.length_append]
      omega
    rw [if_neg hlen, if_neg hbare]
    by_cases hleft : left = 0
    · rw [if_pos hleft] at hend ⊢
      exact decide_eq_true hend
    · rw [if_neg hleft] at hend ⊢
      obtain ⟨rest, rfl, hrest⟩ := hend
      simpa using hrest

theorem joinedBy_cons (sep : UInt8) (g : CStr) (gs : List CStr) (hne : gs ≠ []) :
    joinedBy sep (g::gs) = g ++ sep::joinedBy sep gs := by
  cases gs with
  | nil => exact absurd rfl hne
  | cons g' gs => rfl

/-- The scan of an address accepts the rows of numbers of the right length. -/
theorem numbers_iff (hex : Bool) (digits : ℕ) (sep : UInt8)
    (hsep : digit hex sep = false ∧ sep ≠ 120 ∧ sep ≠ 88) (left : ℕ) (cur : CStr) :
    numbers hex digits sep (left+1) cur = true ↔ ∃ gs : List CStr, gs.length = left+1 ∧
      cur = joinedBy sep gs ∧ ∀ g ∈ gs, Number hex digits g := by
  induction left generalizing cur with
  | zero =>
    rw [numbers_step hex digits sep hsep]
    simp only [if_true]
    constructor
    · rintro ⟨g, stop, rfl, hg, rfl⟩
      exact ⟨[g], rfl, by simp [joinedBy], by simpa using hg⟩
    · rintro ⟨gs, hlen, rfl, hall⟩
      obtain ⟨g, rfl⟩ := List.length_eq_one_iff.mp hlen
      exact ⟨g, [], by simp [joinedBy], by simpa using hall, rfl⟩
  | succ left ih =>
    rw [numbers_step hex digits sep hsep]
    simp only [Nat.add_one_ne_zero, if_false]
    constructor
    · rintro ⟨g, stop, rfl, hg, rest, rfl, hrest⟩
      obtain ⟨gs, hlen, rfl, hall⟩ := (ih rest).mp hrest
      have hne : gs ≠ [] := by
        rintro rfl
        cases hlen
      exact ⟨g::gs, by rw [List.length_cons, hlen], (joinedBy_cons sep g gs hne).symm,
        List.forall_mem_cons.mpr ⟨hg, hall⟩⟩
    · rintro ⟨gs, hlen, rfl, hall⟩
      cases gs with
      | nil => cases hlen
      | cons g gs =>
        have hlen' : gs.length = left+1 := Nat.succ.inj hlen
        have hne : gs ≠ [] := by
          rintro rfl
          cases hlen'
        obtain ⟨hg, hall'⟩ := List.forall_mem_cons.mp hall
        exact ⟨g, sep::joinedBy sep gs, joinedBy_cons sep g gs hne, hg, joinedBy sep gs, rfl,
          (ih _).mpr ⟨gs, hlen', rfl, hall'⟩⟩

/-- The parts of a text between separators are fixed. -/
theorem joinedBy_injective (sep : UInt8) (gs gs' : List CStr) (hlen : gs.length = gs'.length)
    (hs : ∀ g ∈ gs, sep ∉ g) (hs' : ∀ g ∈ gs', sep ∉ g)
    (h : joinedBy sep gs = joinedBy sep gs') : gs = gs' := by
  induction gs generalizing gs' with
  | nil => rw [List.length_eq_zero_iff.mp hlen.symm]
  | cons g gs ih =>
    cases gs' with
    | nil => cases hlen
    | cons g' gs' =>
      have hlen' : gs.length = gs'.length := Nat.succ.inj hlen
      by_cases hnil : gs = []
      · have hnil' : gs' = [] := by
          rw [hnil] at hlen'
          exact List.length_eq_zero_iff.mp hlen'.symm
        rw [hnil, hnil'] at h
        rw [hnil, hnil', show g = g' from h]
      · have hnil' : gs' ≠ [] := by
          rintro rfl
          exact hnil (List.length_eq_zero_iff.mp hlen')
        rw [joinedBy_cons sep g gs hnil, joinedBy_cons sep g' gs' hnil'] at h
        obtain ⟨hg, hgs⟩ := List.forall_mem_cons.mp hs
        obtain ⟨hg', hgs'⟩ := List.forall_mem_cons.mp hs'
        have hfree (x : CStr) (hx : sep ∉ x) : ∀ c ∈ x, (decide (c ≠ sep)) = true := by
          intro c hc
          have hne : c ≠ sep := fun heq => hx (heq ▸ hc)
          simpa using hne
        have htake := congrArg (List.takeWhile (· ≠ sep)) h
        rw [List.takeWhile_append_of_pos (hfree g hg), List.takeWhile_append_of_pos (hfree g' hg'),
          List.takeWhile_cons_of_neg (by simp), List.takeWhile_cons_of_neg (by simp),
          List.append_nil, List.append_nil] at htake
        rw [htake] at h ⊢
        have hrest := List.tail_eq_of_cons_eq (List.append_cancel_left h)
        rw [ih gs' hlen' hgs hgs' hrest]

theorem digit_free (hex : Bool) (sep : UInt8) (hsep : digit hex sep = false) (ds : CStr)
    (hds : ∀ c ∈ ds, digit hex c = true) : sep ∉ ds := by
  intro hm
  rw [hds sep hm] at hsep
  cases hsep

theorem number_decimal (g : CStr) (digits : ℕ) :
    Number false digits g ↔ Decimal g ∧ g.length ≤ digits := by
  constructor
  · rintro ⟨front, ds, rfl, hoct⟩
    rcases hoct.front with rfl | ⟨h, -⟩
    · exact ⟨⟨hoct.nonempty, hoct.all⟩, hoct.short⟩
    · cases h
  · rintro ⟨⟨hne, hall⟩, hlen⟩
    exact ⟨[], g, rfl, .inl rfl, hne, hlen, hall⟩

/-- Wherever a value is four decimal numbers, none has more than three digits if and only if none
is greater than 255. -/
def AddressRange (value : CStr) : Prop :=
  ∀ gs : List CStr, gs.length = 4 → value = joinedBy 46 gs → (∀ g ∈ gs, Decimal g) →
    ((∀ g ∈ gs, g.length ≤ 3) ↔ ∀ g ∈ gs, numeral g ≤ 255)

/-- A value is not six hexadecimal numbers of which one has a prefix. -/
def NoPrefix (value : CStr) : Prop :=
  ∀ gs : List CStr, gs.length = 6 → value = joinedBy 58 gs → (∀ g ∈ gs, Number true 2 g) →
    ∀ g ∈ gs, ∀ c ∈ g, isxdigit c = true

theorem accepts_address_iff (value : CStr) :
    (validateType value 4 = true ↔ InGrammar 4 value) ↔ AddressRange value := by
  have hcheck : validateType value 4 = true ↔ ∃ gs : List CStr, gs.length = 4 ∧
      value = joinedBy 46 gs ∧ ∀ g ∈ gs, Decimal g ∧ g.length ≤ 3 := by
    have hnum := numbers_iff false 3 46 (by decide) 3 value
    simp only [number_decimal] at hnum
    exact hnum
  have hdot (gs : List CStr) (h : ∀ g ∈ gs, Decimal g) : ∀ g ∈ gs, (46 : UInt8) ∉ g :=
    fun g hg => digit_free false 46 (by decide) g (h g hg).2
  rw [hcheck]
  constructor
  · rintro h gs hlen hvalue hdec
    constructor
    · intro hshort
      obtain ⟨gs', hlen', hvalue', hall⟩ :=
        h.mp ⟨gs, hlen, hvalue, fun g hg => ⟨hdec g hg, hshort g hg⟩⟩
      rw [joinedBy_injective 46 gs gs' (hlen.trans hlen'.symm) (hdot gs hdec)
        (hdot gs' fun g hg => (hall g hg).1) (hvalue.symm.trans hvalue')]
      exact fun g hg => (hall g hg).2
    · intro hsmall
      obtain ⟨gs', hlen', hvalue', hall⟩ :=
        h.mpr ⟨gs, hlen, hvalue, fun g hg => ⟨hdec g hg, hsmall g hg⟩⟩
      rw [joinedBy_injective 46 gs gs' (hlen.trans hlen'.symm) (hdot gs hdec)
        (hdot gs' fun g hg => (hall g hg).1) (hvalue.symm.trans hvalue')]
      exact fun g hg => (hall g hg).2
  · intro h
    constructor
    · rintro ⟨gs, hlen, hvalue, hall⟩
      have hsmall := (h gs hlen hvalue fun g hg => (hall g hg).1).mp fun g hg => (hall g hg).2
      exact ⟨gs, hlen, hvalue, fun g hg => ⟨(hall g hg).1, hsmall g hg⟩⟩
    · rintro ⟨gs, hlen, hvalue, hall⟩
      have hshort := (h gs hlen hvalue fun g hg => (hall g hg).1).mpr fun g hg => (hall g hg).2
      exact ⟨gs, hlen, hvalue, fun g hg => ⟨(hall g hg).1, hshort g hg⟩⟩

theorem number_plain (g : CStr) (h : g ≠ [] ∧ g.length ≤ 2 ∧ ∀ c ∈ g, isxdigit c = true) :
    Number true 2 g :=
  ⟨[], g, rfl, .inl rfl, h.1, h.2.1, h.2.2⟩

theorem number_unprefixed (g : CStr) (h : Number true 2 g) (hall : ∀ c ∈ g, isxdigit c = true) :
    g ≠ [] ∧ g.length ≤ 2 := by
  obtain ⟨front, ds, rfl, hoct⟩ := h
  rcases hoct.front with rfl | ⟨-, hpre⟩
  · exact ⟨hoct.nonempty, hoct.short⟩
  · rcases hpre with rfl | rfl
    · exact absurd (hall 120 (by simp)) (by decide)
    · exact absurd (hall 88 (by simp)) (by decide)

theorem number_colon (g : CStr) (h : Number true 2 g) : (58 : UInt8) ∉ g := by
  obtain ⟨front, ds, rfl, hoct⟩ := h
  intro hm
  rcases List.mem_append.mp hm with hm | hm
  · rcases hoct.front with rfl | ⟨-, rfl | rfl⟩
    · exact absurd hm List.not_mem_nil
    · exact absurd hm (by decide)
    · exact absurd hm (by decide)
  · exact digit_free true 58 (by decide) ds hoct.all hm

theorem accepts_mac_iff (value : CStr) :
    (validateType value 5 = true ↔ InGrammar 5 value) ↔ NoPrefix value := by
  have hcheck : validateType value 5 = true ↔ ∃ gs : List CStr, gs.length = 6 ∧
      value = joinedBy 58 gs ∧ ∀ g ∈ gs, Number true 2 g :=
    numbers_iff true 2 58 (by decide) 5 value
  rw [hcheck]
  constructor
  · intro h gs hlen hvalue hnum
    obtain ⟨gs', hlen', hvalue', hall⟩ := h.mp ⟨gs, hlen, hvalue, hnum⟩
    rw [joinedBy_injective 58 gs gs' (hlen.trans hlen'.symm) (fun g hg => number_colon g (hnum g hg))
      (fun g hg => number_colon g (number_plain g (hall g hg))) (hvalue.symm.trans hvalue')]
    exact fun g hg => (hall g hg).2.2
  · intro h
    constructor
    · rintro ⟨gs, hlen, hvalue, hnum⟩
      have hall := h gs hlen hvalue hnum
      refine ⟨gs, hlen, hvalue, fun g hg => ?_⟩
      obtain ⟨hne, hshort⟩ := number_unprefixed g (hnum g hg) (hall g hg)
      exact ⟨hne, hshort, hall g hg⟩
    · rintro ⟨gs, hlen, hvalue, hall⟩
      exact ⟨gs, hlen, hvalue, fun g hg => number_plain g (hall g hg)⟩

/-- The check of a value against each type is its grammar and stays inside the value. -/
def CheckedRight (value : CStr) : Prop :=
  ∀ type, 1 ≤ type → type ≤ 5 → ∃ ok, validateTypeIn (value ++ [0]) type = some ok ∧
    (ok = true ↔ InGrammar type value)

theorem checkedRight_iff (value : CStr) (hne : value ≠ []) (h0 : (0 : UInt8) ∉ value) :
    CheckedRight value ↔ AddressRange value ∧ NoPrefix value := by
  rw [← accepts_address_iff, ← accepts_mac_iff]
  have hin (type : ℕ) (ok : Bool) (h : validateTypeIn (value ++ [0]) type = some ok) :
      validateType value type = ok :=
    Option.some.inj ((validateTypeIn_value value h0 type).symm.trans h)
  constructor
  · intro h
    obtain ⟨ok4, hok4, hiff4⟩ := h 4 (by decide) (by decide)
    obtain ⟨ok5, hok5, hiff5⟩ := h 5 (by decide) (by decide)
    rw [hin 4 ok4 hok4, hin 5 ok5 hok5]
    exact ⟨hiff4, hiff5⟩
  · rintro ⟨h4, h5⟩ type hlo hhi
    refine ⟨validateType value type, validateTypeIn_value value h0 type, ?_⟩
    interval_cases type
    · exact accepts_decimal value
    · exact accepts_hex value hne
    · exact accepts_bool value hne h0
    · exact h4
    · exact h5

theorem checkedRight_one : CheckedRight [49] ↔ AddressRange [49] ∧ NoPrefix [49] :=
  checkedRight_iff [49] (by decide) (by decide)

/-- The value `999.0.0.1` passes for an IP address. -/
theorem address_out_of_range : ¬ CheckedRight [57, 57, 57, 46, 48, 46, 48, 46, 49] := by
  intro h
  obtain ⟨ok, hok, hiff⟩ := h 4 (by decide) (by decide)
  have hpass : validateTypeIn ([57, 57, 57, 46, 48, 46, 48, 46, 49] ++ [0]) 4 = some true := by
    decide +kernel
  rw [hpass] at hok
  obtain ⟨gs, hlen, hvalue, hall⟩ := hiff.mp (Option.some.inj hok).symm
  have hparts : gs = [[57, 57, 57], [48], [48], [49]] := by
    apply joinedBy_injective 46 gs [[57, 57, 57], [48], [48], [49]] hlen
    · exact fun g hg => digit_free false 46 (by decide) g (hall g hg).1.2
    · decide
    · rw [← hvalue]
      rfl
  have hsmall := (hall [57, 57, 57] (by rw [hparts]; simp)).2
  exact absurd hsmall (by decide)

end UBoot.EnvFlags
