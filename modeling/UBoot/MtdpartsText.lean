import UBoot.Mtdparts
import Mathlib.Data.List.Basic

/-!
# Reading a written partition

A number that `memsize_format` has written is read by `memsize_parse` as long as no
digit or suffix follows. A partition is read with its size, offset and flags; a name
of the user is read again, a generated one is made anew from the size.
-/

set_option autoImplicit false

namespace UBoot.Mtdparts

/-! ## Numbers -/

/-- What follows the digits of a number: no digit and no `x`. -/
def Ends (t : Text) : Prop := ∀ c ∈ t.head?, isxdigit c = false ∧ c ≠ 'x'

/-- What follows a number: no suffix either. -/
def Stops (t : Text) : Prop := Ends t ∧ ∀ c ∈ t.head?, c ∉ ['G', 'g', 'M', 'm', 'K', 'k']

theorem ends_cons (c : Char) (t : Text) (h : isxdigit c = false) (hc : c ≠ 'x') : Ends (c::t) := by
  intro x hx
  cases hx
  exact ⟨h, hc⟩

/-- The text is empty or begins with one of these. -/
def Opens (l : List Char) (t : Text) : Prop := ∀ c ∈ t.head?, c ∈ l

theorem opens_cons (l : List Char) (c : Char) (t : Text) (h : c ∈ l) : Opens l (c::t) := by
  intro x hx
  cases hx
  exact h

theorem opens_skip (l : List Char) (c : Char) (t : Text) (h : Opens l t) : Opens (c::l) t :=
  fun x hx => List.mem_cons_of_mem c (h x hx)

theorem Opens.head_ne (l : List Char) (c : Char) (t : Text) (h : Opens l t) (hc : c ∉ l) :
    t.head? ≠ some c := fun hx => hc (h c hx)

def marks : List Char := ['@', '(', 'r', ',', ';']

theorem Opens.stops (t : Text) (h : Opens marks t) : Stops t := by
  have hx : ∀ c ∈ marks, isxdigit c = false ∧ c ≠ 'x' := by
    simp only [marks, List.forall_mem_cons, List.not_mem_nil, IsEmpty.forall_iff, implies_true]
    decide
  have hs : ∀ c ∈ marks, c ∉ ['G', 'g', 'M', 'm', 'K', 'k'] := by
    simp only [marks, List.forall_mem_cons, List.not_mem_nil, IsEmpty.forall_iff, implies_true]
    decide
  exact ⟨fun c hc => hx c (h c hc), fun c hc => hs c (h c hc)⟩

theorem w32_le (n : ℕ) : w32 n < 4294967296 := Nat.mod_lt _ (by decide)

theorem w32_eq (n : ℕ) (h : n < 4294967296) : w32 n = n := Nat.mod_eq_of_lt h

theorem w32_digit (n v : ℕ) : w32 (w32 n*10+v) = w32 (10*n+v) := by
  unfold w32
  omega

theorem digit_value (c : Char) (h : c.isDigit = true) :
    isxdigit c = true ∧ digitValue c = c.toNat-48 ∧ digitValue c < 10 := by
  have hc : c.toNat ≤ 57 := by
    simp only [Char.isDigit, Bool.and_eq_true, decide_eq_true_eq] at h
    exact h.2
  refine ⟨by simp [isxdigit, h], by simp [digitValue, h], ?_⟩
  rw [digitValue, if_pos h]
  omega

theorem strtoulLoop_stop (base n : ℕ) (t : Text) (h : ∀ c ∈ t.head?, isxdigit c = false) :
    strtoulLoop base n t = (n, t) := by
  cases t with
  | nil => rfl
  | cons c t =>
    have hc := h c rfl
    rw [strtoulLoop, if_neg (by simp [hc])]

theorem strtoulLoop_digits (ds rest : Text) (n : ℕ) (hd : ∀ c ∈ ds, c.isDigit = true)
    (hr : ∀ c ∈ rest.head?, isxdigit c = false) :
    strtoulLoop 10 (w32 n) (ds ++ rest) = (w32 (Nat.ofDigitChars 10 ds n), rest) := by
  induction ds generalizing n with
  | nil =>
    rw [List.nil_append, Nat.ofDigitChars_nil]
    exact strtoulLoop_stop 10 _ rest hr
  | cons c ds ih =>
    obtain ⟨hx, hv, hlt⟩ := digit_value c (hd c (by simp))
    rw [List.cons_append, strtoulLoop, if_pos ⟨hx, hlt⟩, hv, w32_digit,
      ih _ (fun x h => hd x (by simp [h])), Nat.ofDigitChars_cons]
    rfl

theorem toDigits_head (n : ℕ) (h : 0 < n) : (Nat.toDigits 10 n).head? ≠ some '0' := by
  induction n using Nat.strongRecOn with
  | ind n ih =>
    by_cases hn : n < 10
    · rw [Nat.toDigits_of_lt_base hn]
      have : ∀ m < 10, 0 < m → [Nat.digitChar m].head? ≠ some '0' := by decide
      exact this n hn h
    · rw [Nat.toDigits_of_base_le (by decide) (by omega)]
      have hhead := ih (n/10) (by omega) (by omega)
      rwa [List.head?_append_of_ne_nil _ Nat.toDigits_ne_nil]

theorem simpleStrtoul_decimal (n : ℕ) (rest : Text) (hn : n < 4294967296) (hr : Ends rest) :
    simpleStrtoul (Nat.toDigits 10 n ++ rest) 0 = (n, rest) := by
  have hx : ∀ c ∈ rest.head?, isxdigit c = false := fun c hc => (hr c hc).1
  unfold simpleStrtoul
  by_cases h0 : n = 0
  · subst h0
    have hnx : rest.head? ≠ some 'x' := fun h => (hr 'x' h).2 rfl
    rw [Nat.toDigits_zero, List.singleton_append, if_pos (by rfl), List.tail_cons,
      if_neg (fun h => hnx h.1)]
    exact strtoulLoop_stop _ _ rest hx
  · have hd : ∀ c ∈ Nat.toDigits 10 n, c.isDigit = true :=
      fun c hc => Nat.isDigit_of_mem_toDigits (by decide) (by decide) hc
    have hhead := toDigits_head n (by omega)
    rw [if_neg (by rwa [List.head?_append_of_ne_nil _ Nat.toDigits_ne_nil])]
    have hloop := strtoulLoop_digits (Nat.toDigits 10 n) rest 0 hd hx
    rwa [Nat.ofDigitChars_ten_toDigits, w32_eq n hn] at hloop

theorem memsizeParse_suffix (n : ℕ) (c : Char) (rest : Text) (hn : n < 4294967296)
    (h : isxdigit c = false) (hc : c ≠ 'x') :
    memsizeParse (Nat.toDigits 10 n ++ [c] ++ rest) =
      if c = 'G' ∨ c = 'g' then (shift10 (shift10 (shift10 n)), rest)
      else if c = 'M' ∨ c = 'm' then (shift10 (shift10 n), rest)
      else if c = 'K' ∨ c = 'k' then (shift10 n, rest)
      else (n, c::rest) := by
  unfold memsizeParse
  rw [List.append_assoc, List.singleton_append,
    simpleStrtoul_decimal n (c::rest) hn (ends_cons c rest h hc)]

theorem memsizeParse_plain (n : ℕ) (rest : Text) (hn : n < 4294967296) (hr : Stops rest) :
    memsizeParse (Nat.toDigits 10 n ++ rest) = (n, rest) := by
  unfold memsizeParse
  rw [simpleStrtoul_decimal n rest hn hr.1]
  cases rest with
  | nil => rfl
  | cons c rest =>
    have hc := hr.2 c rfl
    simp only [List.mem_cons, List.not_mem_nil, or_false, not_or] at hc
    simp [hc]

theorem shift10_eq (n : ℕ) (h : n*1024 < 4294967296) : shift10 n = n*1024 := w32_eq _ h

/-- A written size or offset is read again. -/
theorem memsizeParse_format (n : ℕ) (rest : Text) (hn : n < 4294967296) (hr : Stops rest) :
    memsizeParse (memsizeFormat n ++ rest) = (n, rest) := by
  unfold memsizeFormat
  split_ifs with hg hm hk
  · have h1 : n/sizeGb*1024*1024*1024 = n := by
      unfold sizeGb at *
      omega
    rw [memsizeParse_suffix _ _ _ (by unfold sizeGb; omega) (by decide) (by decide), if_pos (by decide),
      shift10_eq (n/sizeGb) (by omega), shift10_eq (n/sizeGb*1024) (by omega),
      shift10_eq _ (by omega), h1]
  · have h1 : n/sizeMb*1024*1024 = n := by
      unfold sizeMb at *
      omega
    rw [memsizeParse_suffix _ _ _ (by unfold sizeMb; omega) (by decide) (by decide),
      if_neg (by decide), if_pos (by decide), shift10_eq (n/sizeMb) (by omega),
      shift10_eq _ (by omega), h1]
  · have h1 : n/sizeKb*1024 = n := by
      unfold sizeKb at *
      omega
    rw [memsizeParse_suffix _ _ _ (by unfold sizeKb; omega) (by decide) (by decide),
      if_neg (by decide), if_neg (by decide), if_pos (by decide), shift10_eq _ (by omega), h1]
  · exact memsizeParse_plain n rest hn hr

theorem memsizeFormat_digit (n : ℕ) : ∃ c t, memsizeFormat n = c::t ∧ c.isDigit = true := by
  have hd : ∀ m, ∃ c t, Nat.toDigits 10 m = c::t ∧ c.isDigit = true := by
    intro m
    cases h : Nat.toDigits 10 m with
    | nil => exact absurd h Nat.toDigits_ne_nil
    | cons c t =>
      exact ⟨c, t, rfl, Nat.isDigit_of_mem_toDigits (b := 10) (n := m) (by decide) (by decide)
        (by simp [h])⟩
  unfold memsizeFormat
  split_ifs
  · obtain ⟨c, t, h, hc⟩ := hd (n/sizeGb)
    exact ⟨c, t ++ ['g'], by rw [h, List.cons_append], hc⟩
  · obtain ⟨c, t, h, hc⟩ := hd (n/sizeMb)
    exact ⟨c, t ++ ['m'], by rw [h, List.cons_append], hc⟩
  · obtain ⟨c, t, h, hc⟩ := hd (n/sizeKb)
    exact ⟨c, t ++ ['k'], by rw [h, List.cons_append], hc⟩
  · exact hd n

/-! ## One partition -/

/-- What a partition is read as once it is written. -/
def PartInfo.reread (p : PartInfo) : PartInfo :=
  { p with name := if p.autoName then generatedName p.size 0 else p.name }

structure PartInfo.Writable (p : PartInfo) : Prop where
  size : p.size < 4294967296
  offset : p.offset < offsetNotSpecified
  name : p.autoName = false → p.name ≠ [] ∧ ')' ∉ p.name
  flags : p.maskFlags = 0 ∨ p.maskFlags = mtdWriteableCmd

theorem hex12_length (n : ℕ) (h : n < 4294967296) : (hex12 n).length = 12 := by
  have hlen : (Nat.toDigits 16 n).length ≤ 8 :=
    (Nat.length_toDigits_le_iff (by decide) (by decide)).2 (by omega)
  rw [hex12, List.leftpad, List.length_append, List.length_replicate]
  omega

theorem hex12_zeros (n : ℕ) (h : n < 4294967296) : (hex12 n).take 4 = ['0', '0', '0', '0'] := by
  have hlen : (Nat.toDigits 16 n).length ≤ 8 :=
    (Nat.length_toDigits_le_iff (by decide) (by decide)).2 (by omega)
  rw [hex12, List.leftpad, List.take_append_of_le_length (by rw [List.length_replicate]; omega),
    List.take_replicate, min_eq_left (by omega)]
  rfl

/-- Of the offset only leading zeros are left in a generated name. -/
theorem generatedName_offset (size offset : ℕ) (hs : size < 4294967296)
    (ho : offset < 4294967296) : generatedName size offset = generatedName size 0 := by
  have hcut : ∀ o, generatedName size o =
      ['0', 'x'] ++ hex12 size ++ ['@', '0', 'x'] ++ (hex12 o).take 4 := by
    intro o
    have hlen : (['0', 'x'] ++ hex12 size ++ ['@', '0', 'x']).length = 17 := by
      simp [hex12_length size hs]
    rw [generatedName, show 21 = (['0', 'x'] ++ hex12 size ++ ['@', '0', 'x']).length+4 by
      rw [hlen], List.take_length_add_append]
  rw [hcut, hcut, hex12_zeros offset ho, hex12_zeros 0 (by decide)]

section Written
variable (p : PartInfo) (prev : Option PartInfo) (more : Bool) (rest : Text)

def offsetText : Text := if gapBefore prev p then '@'::memsizeFormat p.offset else []
def nameText : Text := if p.autoName then [] else '('::p.name ++ [')']
def flagsText : Text := if p.maskFlags ≠ 0 then ['r', 'o'] else []
def commaText : Text := if more then [','] else []

theorem partPieces_flatten : (partPieces prev p more).flatten =
    memsizeFormat p.size ++ (offsetText p prev ++ (nameText p ++ (flagsText p ++ commaText more))) := by
  unfold partPieces offsetText nameText flagsText commaText
  cases gapBefore prev p <;> cases p.autoName <;> cases more <;>
    by_cases h : p.maskFlags = 0 <;> simp [h]

variable {p more rest}
variable (hend : more = true ∨ Opens [';'] rest)
include hend

theorem comma_opens : Opens [',', ';'] (commaText more ++ rest) := by
  cases more with
  | true => exact opens_cons _ _ _ (by simp)
  | false => exact opens_skip _ _ _ (hend.resolve_left (by simp))

theorem flags_opens : Opens ['r', ',', ';'] (flagsText p ++ (commaText more ++ rest)) := by
  unfold flagsText
  split_ifs
  · exact opens_cons _ _ _ (by simp)
  · exact opens_skip _ _ _ (comma_opens hend)

theorem name_opens : Opens ['(', 'r', ',', ';'] (nameText p ++ (flagsText p ++ (commaText more ++ rest))) := by
  unfold nameText
  split_ifs
  · exact opens_skip _ _ _ (flags_opens hend)
  · exact opens_cons _ _ _ (by simp)

theorem offset_opens :
    Opens marks (offsetText p prev ++ (nameText p ++ (flagsText p ++ (commaText more ++ rest)))) := by
  unfold offsetText
  split_ifs
  · exact opens_cons _ _ _ (by simp [marks])
  · exact opens_skip _ _ _ (name_opens hend)

theorem fetchEnd_written (size : ℕ) : fetchEnd size (commaText more ++ rest) =
    if more = true ∧ size = sizeRemaining then none else some rest := by
  cases more with
  | true => simp [commaText, fetchEnd]
  | false =>
    have ho := hend.resolve_left (by simp)
    cases rest with
    | nil => rfl
    | cons c t =>
      have hc : c = ';' := List.mem_singleton.1 (ho c rfl)
      subst hc
      rfl

theorem fetchFlags_written (hf : p.maskFlags = 0 ∨ p.maskFlags = mtdWriteableCmd) :
    fetchFlags (flagsText p ++ (commaText more ++ rest)) = (p.maskFlags, commaText more ++ rest) := by
  rcases hf with h | h
  · have hhead := (comma_opens hend).head_ne _ 'r' _ (by decide)
    rw [flagsText, if_neg (by simp [h]), List.nil_append, fetchFlags, if_neg, h]
    intro ht
    apply hhead
    have h2 := congrArg List.head? ht
    rwa [List.head?_take, if_neg (by decide)] at h2
  · rw [flagsText, if_pos (by rw [h]; decide), fetchFlags, if_pos (by rfl), h]
    rfl

theorem fetchName_written (hn : p.autoName = false → p.name ≠ [] ∧ ')' ∉ p.name) :
    fetchName (nameText p ++ (flagsText p ++ (commaText more ++ rest))) =
      some (if p.autoName then none else some p.name, flagsText p ++ (commaText more ++ rest)) := by
  cases ha : p.autoName with
  | true =>
    have hhead := (flags_opens hend (p := p)).head_ne _ '(' _ (by decide)
    rw [nameText, if_pos ha, List.nil_append, fetchName, if_neg hhead]
    rfl
  | false =>
    obtain ⟨hne, hclose⟩ := hn ha
    have hall : ∀ c ∈ p.name, decide (c ≠ ')') = true := by
      intro c hc
      exact decide_eq_true (fun h => hclose (h ▸ hc))
    rw [nameText, if_neg (by simp [ha]), fetchName, if_pos (by rfl)]
    simp only [List.cons_append, List.append_assoc, List.tail_cons, List.nil_append]
    rw [List.takeWhile_append_of_pos hall, List.dropWhile_append_of_pos hall]
    simp [hne]

theorem fetchOffset_written (ho : p.offset < offsetNotSpecified) :
    fetchOffset (offsetText p prev ++ (nameText p ++ (flagsText p ++ (commaText more ++ rest)))) =
      (if gapBefore prev p then p.offset else offsetNotSpecified,
        nameText p ++ (flagsText p ++ (commaText more ++ rest))) := by
  have hname := name_opens hend (p := p)
  unfold offsetText
  cases hg : gapBefore prev p with
  | true =>
    have hlt : p.offset < 4294967296 := by
      unfold offsetNotSpecified at ho
      omega
    rw [if_pos rfl, fetchOffset, if_pos (by rfl), List.cons_append, List.tail_cons,
      memsizeParse_format _ _ hlt (Opens.stops _ (opens_skip _ _ _ hname)), if_pos rfl]
  | false =>
    rw [if_neg (by simp), List.nil_append, fetchOffset,
      if_neg (hname.head_ne _ '@' _ (by decide)), if_neg (by simp)]

/-- A written partition is read back, or refused for its size. -/
theorem partParse_written (hw : p.Writable) :
    partParse ((partPieces prev p more).flatten ++ rest) =
      if p.size < minPartSize ∨ more = true ∧ p.size = sizeRemaining then none
      else some ({ p.reread with
        offset := if gapBefore prev p then p.offset else offsetNotSpecified }, rest) := by
  obtain ⟨c, t, hfmt, hdigit⟩ := memsizeFormat_digit p.size
  have hsize : fetchSize (memsizeFormat p.size ++
      (offsetText p prev ++ (nameText p ++ (flagsText p ++ (commaText more ++ rest))))) =
      if p.size < minPartSize then none else some (p.size,
        offsetText p prev ++ (nameText p ++ (flagsText p ++ (commaText more ++ rest)))) := by
    have hc : c ≠ '-' := by
      intro h
      subst h
      exact absurd hdigit (by decide)
    rw [fetchSize, if_neg (by rw [hfmt]; simpa using hc),
      memsizeParse_format _ _ hw.size (Opens.stops _ (offset_opens prev hend))]
  rw [partPieces_flatten]
  simp only [List.append_assoc]
  rw [partParse, hsize]
  by_cases hsmall : p.size < minPartSize
  · rw [if_pos hsmall, if_pos (Or.inl hsmall)]
    rfl
  · rw [if_neg hsmall]
    simp only [Option.bind_eq_bind, Option.bind_some]
    rw [fetchOffset_written prev hend hw.offset]
    simp only
    rw [fetchName_written hend hw.name]
    simp only [Option.bind_some]
    rw [fetchFlags_written hend hw.flags]
    simp only
    rw [fetchEnd_written hend]
    by_cases hfill : more = true ∧ p.size = sizeRemaining
    · rw [if_pos hfill, if_pos (Or.inr hfill)]
      rfl
    · have hread : ¬(p.size < minPartSize ∨ more = true ∧ p.size = sizeRemaining) :=
        fun h => h.elim hsmall hfill
      rw [if_neg hfill, if_neg hread]
      have hgen : generatedName p.size (if gapBefore prev p then p.offset else offsetNotSpecified) =
          generatedName p.size 0 := by
        have := hw.offset
        apply generatedName_offset _ _ hw.size
        unfold offsetNotSpecified at *
        split_ifs <;> omega
      cases ha : p.autoName with
      | true => simp [PartInfo.reread, ha, hgen]
      | false => simp [PartInfo.reread, ha]

end Written

end UBoot.Mtdparts
