import UBoot.Dhcp

/-!
# The way over the options

Both scans step from a type over its length to the next type, without regard
for padding. What they pass is described on the bytes from the first option on:
a way that the processing takes as far as 548 bytes reach, and a way to the
message type. Where there is none, a byte outside of the memory is read.
-/

set_option autoImplicit false

namespace UBoot.Dhcp

/-- An option as it is passed: its type, its length and all bytes behind these. -/
structure Item where
  code : ℕ
  size : ℕ
  body : List UInt8
  deriving DecidableEq, Repr

/-- The first four bytes, in network order. -/
def number (s : List UInt8) : ℕ := (longAt s 0).getD 0

/-- The bytes of a text option that a buffer takes. -/
def Item.text (it : Item) (maxlen : ℕ) : List UInt8 := it.body.take (truncateSz maxlen it.size)

/-- A text up to its first zero. -/
def cstr (s : List UInt8) : List UInt8 := s.takeWhile (· ≠ 0)

/-- The bytes behind type and length that are read. A boot file is read only while there is
none. -/
def need (noFile : Bool) (code size : ℕ) : ℕ :=
  match code with
  | 1 => 4
  | 3 => 4
  | 6 => 4
  | 12 => truncateSz 32 size
  | 17 => truncateSz 64 size
  | 51 => 4
  | 54 => 4
  | 67 => if noFile then truncateSz bpFileSize size else 0
  | _ => 0

/-- There is no boot file before an option, and the option brings none. -/
def stillNoFile (noFile : Bool) (it : Item) : Bool :=
  noFile && !(it.code == 67 && cstr (it.text bpFileSize) != [])

/-- The items passed within so many bytes. -/
inductive Way : ℕ → Bool → List UInt8 → List Item → Prop
  | full (noFile : Bool) (s : List UInt8) : Way 0 noFile s []
  | stop (k : ℕ) (noFile : Bool) (rest : List UInt8) (hk : 0 < k) :
      Way k noFile (255 :: rest) []
  | item (k : ℕ) (noFile : Bool) (code size : UInt8) (body : List UInt8) (items : List Item)
      (hk : 0 < k) (hcode : code ≠ 255)
      (hneed : need noFile code.toNat size.toNat ≤ body.length)
      (hrest : Way (k-(size.toNat+2)) (stillNoFile noFile ⟨code.toNat, size.toNat, body⟩)
        (body.drop size.toNat) items) :
      Way k noFile (code :: size :: body) (⟨code.toNat, size.toNat, body⟩ :: items)

/-- The type that is found, or -1 at an end mark. -/
inductive TypeWay : List UInt8 → ℤ → Prop
  | stop (rest : List UInt8) : TypeWay (255 :: rest) (-1)
  | type (size v : UInt8) (rest : List UInt8) : TypeWay (53 :: size :: v :: rest) v.toNat
  | item (code size : UInt8) (body : List UInt8) (t : ℤ) (hcode : code ≠ 255 ∧ code ≠ 53)
      (hrest : TypeWay (body.drop size.toNat) t) : TypeWay (code :: size :: body) t

theorem Way.unique {k : ℕ} {noFile : Bool} {s : List UInt8} {items items' : List Item}
    (h : Way k noFile s items) (h' : Way k noFile s items') : items = items' := by
  induction h generalizing items' with
  | full noFile s =>
    cases h' with
    | full => rfl
    | stop _ _ _ hk => exact absurd hk (lt_irrefl 0)
    | item _ _ _ _ _ _ hk => exact absurd hk (lt_irrefl 0)
  | stop k noFile rest hk =>
    cases h' with
    | full => exact absurd hk (lt_irrefl 0)
    | stop => rfl
    | item _ _ _ _ _ _ _ hcode => exact absurd rfl hcode
  | item k noFile code size body items hk hcode _ _ ih =>
    cases h' with
    | full => exact absurd hk (lt_irrefl 0)
    | stop => exact absurd rfl hcode
    | item _ _ _ _ _ _ _ _ _ hrest => rw [ih hrest]

/-! ## Memory from an address on -/

theorem byteAt_drop (m : List UInt8) (p i : ℕ) : byteAt m (p+i) = byteAt (m.drop p) i := by
  rw [byteAt, byteAt, List.getElem?_drop]

theorem longAt_drop (m : List UInt8) (p i : ℕ) : longAt m (p+i) = longAt (m.drop p) i := by
  simp only [longAt, Nat.add_assoc p i, byteAt_drop]

theorem longAt_isSome (s : List UInt8) : (longAt s 0).isSome ↔ 4 ≤ s.length := by
  match s with
  | [] => simp [longAt, byteAt]
  | [a] => simp [longAt, byteAt]
  | [a, b] => simp [longAt, byteAt]
  | [a, b, c] => simp [longAt, byteAt]
  | a :: b :: c :: d :: rest => simp [longAt, byteAt]

theorem longAt_eq (s : List UInt8) :
    longAt s 0 = if 4 ≤ s.length then some (number s) else none := by
  split
  · next h =>
    obtain ⟨n, hn⟩ := Option.isSome_iff_exists.1 ((longAt_isSome s).2 h)
    rw [number, hn]
    rfl
  · next h => exact Option.not_isSome_iff_eq_none.1 fun hs => h ((longAt_isSome s).1 hs)

theorem bytesAt_drop (m : List UInt8) (p n : ℕ) (hp : p ≤ m.length) :
    bytesAt m p n = if n ≤ (m.drop p).length then some ((m.drop p).take n) else none := by
  rw [bytesAt, List.length_drop]
  by_cases h : p+n ≤ m.length
  · rw [if_pos h, if_pos (by omega)]
  · rw [if_neg h, if_neg (by omega)]

/-! ## One option -/

def fileEmpty (m : List UInt8) : Bool := byteAt m bpFile == some 0

/-- What an option changes. -/
def effect (s : Client × List UInt8) (it : Item) : Client × List UInt8 :=
  match it.code with
  | 1 => ({ s.1 with netOurSubnetMask := number it.body }, s.2)
  | 3 => ({ s.1 with netOurGatewayIP := number it.body }, s.2)
  | 6 => ({ s.1 with netOurDNSIP := number it.body }, s.2)
  | 12 => ({ s.1 with netOurHostName := it.text 32 }, s.2)
  | 17 => ({ s.1 with netOurRootPath := it.text 64 }, s.2)
  | 51 => ({ s.1 with dhcpLeasetime := number it.body }, s.2)
  | 54 => ({ s.1 with netDHCPServerIP := number it.body }, s.2)
  | 67 =>
    if fileEmpty s.2 ∧ truncateSz bpFileSize it.size > 0 then
      (s.1, writeAt s.2 bpFile (it.text bpFileSize ++ [0]))
    else s
  | _ => s

theorem dhcpOption_eq (c : Client) (m : List UInt8) (p : ℕ) (code size : UInt8)
    (body : List UInt8) (hp : 236 ≤ p) (hs : m.drop p = code :: size :: body) :
    dhcpOption c m p code.toNat size.toNat =
      if need (fileEmpty m) code.toNat size.toNat ≤ body.length then
        some (effect (c, m) ⟨code.toNat, size.toNat, body⟩)
      else none := by
  have hlen : p+2+body.length = m.length := by
    have h := congrArg List.length hs
    rw [List.length_drop] at h
    simp only [List.length_cons] at h
    omega
  have hbody : m.drop (p+2) = body := by
    rw [← List.drop_drop, hs]
    rfl
  have hlong : longAt m (p+2) = if 4 ≤ body.length then some (number body) else none := by
    rw [← hbody, ← longAt_eq]
    exact longAt_drop m (p+2) 0
  have hbytes : ∀ n : ℕ, bytesAt m (p+2) n =
      if n ≤ body.length then some (body.take n) else none := by
    intro n
    rw [bytesAt_drop m (p+2) n (by omega), hbody]
  have hfile : ∃ b, byteAt m bpFile = some b := by
    have hlt : bpFile < m.length := by simp only [bpFile]; omega
    rw [byteAt, List.getElem?_eq_getElem hlt]
    exact ⟨_, rfl⟩
  unfold dhcpOption need effect
  split
  case h_8 hcode =>
    obtain ⟨first, hfirst⟩ := hfile
    simp only [hcode, fileEmpty, hfirst, Option.bind_eq_bind, Option.bind_some]
    by_cases hzero : first = 0
    · by_cases hsize : truncateSz bpFileSize size.toNat > 0
      · by_cases hfits : truncateSz bpFileSize size.toNat ≤ body.length
        · simp [hzero, hsize, hbytes, hfits, Item.text]
        · simp [hzero, hsize, hbytes, hfits]
      · simp [hzero, Nat.eq_zero_of_not_pos hsize]
    · simp [hzero]
  case h_9 => simp
  all_goals simp only [hlong, hbytes, Item.text]; split <;> simp_all

/-! ## The boot file -/

theorem drop_writeAt (m s : List UInt8) (i p : ℕ) (hi : i+s.length ≤ p) (hm : i ≤ m.length) :
    (writeAt m i s).drop p = m.drop p := by
  have hfront : (m.take i ++ s).length = i+s.length := by
    rw [List.length_append, List.length_take, Nat.min_eq_left hm]
  obtain ⟨r, rfl⟩ := Nat.exists_eq_add_of_le hi
  rw [writeAt, ← List.drop_drop, List.drop_left' hfront, List.drop_drop]

theorem length_writeAt (m s : List UInt8) (i : ℕ) (h : i+s.length ≤ m.length) :
    (writeAt m i s).length = m.length := by
  rw [writeAt, List.length_append, List.length_append, List.length_take, List.length_drop,
    Nat.min_eq_left (by omega)]
  omega

theorem writeAt_drop (m s : List UInt8) (i : ℕ) (h : i ≤ m.length) :
    (writeAt m i s).drop i = s ++ m.drop (i+s.length) := by
  rw [writeAt, List.append_assoc, List.drop_left' (List.length_take_of_le h)]

theorem text_length (it : Item) : (it.text bpFileSize).length ≤ 127 := by
  have htake := List.length_take_le (truncateSz bpFileSize it.size) it.body
  have hsize : truncateSz bpFileSize it.size ≤ 127 := by
    rw [truncateSz, bpFileSize]
    split <;> omega
  exact htake.trans hsize

theorem cstr_append_zero (s rest : List UInt8) : cstr (s ++ 0 :: rest) = cstr s := by
  induction s with
  | nil => rfl
  | cons b s ih =>
    rw [List.cons_append, cstr, cstr, List.takeWhile_cons, List.takeWhile_cons]
    split
    · exact congrArg _ ih
    · rfl

theorem fileEmpty_iff (m : List UInt8) (hm : bpFile < m.length) :
    fileEmpty m = true ↔ cstr (m.drop bpFile) = [] := by
  rw [fileEmpty, byteAt, List.getElem?_eq_getElem hm, List.drop_eq_getElem_cons hm, cstr,
    List.takeWhile_cons]
  by_cases hb : m[bpFile] = 0
  · simp [hb]
  · have hnat : m[bpFile].toNat ≠ 0 := fun h => hb (UInt8.toNat_inj.1 h)
    simp [hb, hnat]

/-- An option leaves the options, and the file as its text is. -/
theorem effect_memory (s : Client × List UInt8) (it : Item) (hm : 236 ≤ s.2.length) :
    236 ≤ (effect s it).2.length ∧ (∀ p, 236 ≤ p → (effect s it).2.drop p = s.2.drop p) ∧
      fileEmpty (effect s it).2 = stillNoFile (fileEmpty s.2) it ∧
      (stillNoFile (fileEmpty s.2) it = fileEmpty s.2 ∨
        cstr ((effect s it).2.drop bpFile) = cstr (it.text bpFileSize)) := by
  have htext := text_length it
  unfold effect
  split
  case h_8 hcode =>
    split
    · next hwrite =>
      have hdrop := writeAt_drop s.2 (it.text bpFileSize ++ [0]) bpFile
        (by simp only [bpFile]; omega)
      have hcstr : cstr ((writeAt s.2 bpFile (it.text bpFileSize ++ [0])).drop bpFile) =
          cstr (it.text bpFileSize) := by
        rw [hdrop, List.append_assoc, List.singleton_append, cstr_append_zero]
      have hlen : (writeAt s.2 bpFile (it.text bpFileSize ++ [0])).length = s.2.length := by
        apply length_writeAt
        simp only [List.length_append, List.length_singleton, bpFile]
        omega
      refine ⟨by rw [hlen]; exact hm, fun p hp => ?_, ?_, .inr hcstr⟩
      · apply drop_writeAt
        · simp only [List.length_append, List.length_singleton, bpFile]
          omega
        · simp only [bpFile]
          omega
      · have hiff := fileEmpty_iff (writeAt s.2 bpFile (it.text bpFileSize ++ [0]))
          (by rw [hlen]; simp only [bpFile]; omega)
        rw [hcstr] at hiff
        rw [Bool.eq_iff_iff, hiff, stillNoFile, hwrite.1, hcode]
        simp
    · next hkeep =>
      have hstays : stillNoFile (fileEmpty s.2) it = fileEmpty s.2 := by
        rw [stillNoFile]
        by_cases hempty : fileEmpty s.2 = true
        · have hsize : truncateSz bpFileSize it.size = 0 :=
            Nat.eq_zero_of_not_pos fun hpos => hkeep ⟨hempty, hpos⟩
          simp [hempty, Item.text, hsize, cstr]
        · simp [Bool.eq_false_iff.2 hempty]
      exact ⟨hm, fun _ _ => rfl, hstays.symm, .inl hstays⟩
  all_goals
    have hstays : stillNoFile (fileEmpty s.2) it = fileEmpty s.2 := by simp_all [stillNoFile]
    exact ⟨hm, fun _ _ => rfl, hstays.symm, .inl hstays⟩

/-! ## The loops -/

theorem way_full (noFile : Bool) (s : List UInt8) (items : List Item) :
    Way 0 noFile s items ↔ items = [] := by
  constructor
  · intro h
    exact h.unique (.full noFile s)
  · rintro rfl
    exact .full noFile s

theorem way_nil (k : ℕ) (noFile : Bool) (items : List Item) (hk : 0 < k) :
    ¬Way k noFile [] items := by
  intro h
  cases h
  exact absurd hk (lt_irrefl 0)

theorem way_single (k : ℕ) (noFile : Bool) (code : UInt8) (items : List Item) (hk : 0 < k)
    (hcode : code ≠ 255) : ¬Way k noFile [code] items := by
  intro h
  cases h with
  | full => exact absurd hk (lt_irrefl 0)
  | stop => exact absurd rfl hcode

theorem way_stop (k : ℕ) (noFile : Bool) (rest : List UInt8) (items : List Item) (hk : 0 < k) :
    Way k noFile (255 :: rest) items ↔ items = [] := by
  constructor
  · intro h
    cases h with
    | full => rfl
    | stop => rfl
    | item _ _ _ _ _ _ _ hcode => exact absurd rfl hcode
  · rintro rfl
    exact .stop k noFile rest hk

theorem way_item (k : ℕ) (noFile : Bool) (code size : UInt8) (body : List UInt8)
    (items : List Item) (hk : 0 < k) (hcode : code ≠ 255) :
    Way k noFile (code :: size :: body) items ↔
      need noFile code.toNat size.toNat ≤ body.length ∧
        ∃ rest, items = ⟨code.toNat, size.toNat, body⟩ :: rest ∧
          Way (k-(size.toNat+2)) (stillNoFile noFile ⟨code.toNat, size.toNat, body⟩)
            (body.drop size.toNat) rest := by
  constructor
  · intro h
    cases h with
    | full => exact absurd hk (lt_irrefl 0)
    | stop => exact absurd rfl hcode
    | item _ _ _ _ _ rest _ _ hneed hrest => exact ⟨hneed, rest, rfl, hrest⟩
  · rintro ⟨hneed, rest, rfl, hrest⟩
    exact .item k noFile code size body rest hk hcode hneed hrest

/-- What follows an option that is stepped over. -/
theorem drop_item (m : List UInt8) (p : ℕ) (code size : UInt8) (body : List UInt8)
    (hs : m.drop p = code :: size :: body) :
    m.drop (p+size.toNat+2) = body.drop size.toNat := by
  rw [show p+size.toNat+2 = p+(2+size.toNat) by omega, ← List.drop_drop, hs, ← List.drop_drop]
  rfl

/-- The processing has a result where there is a way, and changes what its items change. -/
theorem dhcpOptionsLoop_iff (stop turns : ℕ) (c : Client) (m : List UInt8) (p : ℕ)
    (r : Client × List UInt8) (hturns : stop-p ≤ turns) (hm : 236 ≤ m.length) (hp : 236 ≤ p) :
    dhcpOptionsLoop stop turns c m p = some r ↔
      ∃ items, Way (stop-p) (fileEmpty m) (m.drop p) items ∧ r = items.foldl effect (c, m) := by
  induction turns generalizing c m p with
  | zero =>
    have hzero : stop-p = 0 := Nat.le_zero.1 hturns
    simp only [dhcpOptionsLoop, hzero, way_full, exists_eq_left, List.foldl_nil]
    rw [Option.some.injEq, eq_comm]
  | succ turns ih =>
    rw [dhcpOptionsLoop]
    by_cases hstop : p < stop
    · have hk : 0 < stop-p := by omega
      rw [if_pos hstop, show byteAt m p = byteAt (m.drop p) 0 from byteAt_drop m p 0,
        byteAt_drop m p 1]
      cases hs : m.drop p with
      | nil =>
        simp only [byteAt, List.getElem?_nil, Option.map_none, Option.bind_eq_bind,
          Option.bind_none, reduceCtorEq, false_iff]
        rintro ⟨items, h, -⟩
        exact way_nil _ _ items hk h
      | cons code rest =>
        simp only [byteAt, List.getElem?_cons_zero, Option.map_some, Option.bind_eq_bind,
          Option.bind_some]
        by_cases hcode : code = 255
        · subst hcode
          simp only [way_stop _ _ _ _ hk, exists_eq_left, List.foldl_nil]
          rw [if_pos (by decide), Option.some.injEq, eq_comm]
        · have hnat : code.toNat ≠ 255 := fun h => hcode (UInt8.toNat_inj.1 h)
          rw [if_neg hnat]
          cases rest with
          | nil =>
            simp only [List.getElem?_cons_succ, List.getElem?_nil, Option.map_none,
              Option.bind_none, reduceCtorEq, false_iff]
            rintro ⟨items, h, -⟩
            exact way_single _ _ code items hk hcode h
          | cons size body =>
            simp only [List.getElem?_cons_succ, List.getElem?_cons_zero, Option.map_some,
              Option.bind_some, way_item _ _ _ _ _ _ hk hcode]
            rw [dhcpOption_eq c m p code size body hp hs]
            by_cases hneed : need (fileEmpty m) code.toNat size.toNat ≤ body.length
            · obtain ⟨hm', hdrop, hempty, -⟩ :=
                effect_memory (c, m) ⟨code.toNat, size.toNat, body⟩ hm
              rw [if_pos hneed, Option.bind_some, ih _ _ _ (by omega) hm' (by omega), hempty,
                hdrop _ (by omega), drop_item m p code size body hs, Nat.sub_sub, Nat.add_assoc]
              constructor
              · rintro ⟨items, h, rfl⟩
                exact ⟨_, ⟨hneed, items, rfl, h⟩, rfl⟩
              · rintro ⟨_, ⟨-, items, rfl, h⟩, rfl⟩
                exact ⟨items, h, rfl⟩
            · rw [if_neg hneed]
              simp [hneed]
    · have hzero : stop-p = 0 := by omega
      simp only [if_neg hstop, hzero, way_full, exists_eq_left, List.foldl_nil]
      rw [Option.some.injEq, eq_comm]

theorem typeWay_type (size : UInt8) (body : List UInt8) (t : ℤ) :
    TypeWay (53 :: size :: body) t ↔ ∃ v rest, body = v :: rest ∧ t = v.toNat := by
  constructor
  · intro h
    cases h with
    | type _ v rest => exact ⟨v, rest, rfl, rfl⟩
    | item _ _ _ _ hcode => exact absurd rfl hcode.2
  · rintro ⟨v, rest, rfl, rfl⟩
    exact .type size v rest

theorem typeWay_item (code size : UInt8) (body : List UInt8) (t : ℤ) (hend : code ≠ 255)
    (htype : code ≠ 53) : TypeWay (code :: size :: body) t ↔ TypeWay (body.drop size.toNat) t := by
  constructor
  · intro h
    cases h with
    | stop => exact absurd rfl hend
    | type => exact absurd rfl htype
    | item _ _ _ _ _ hrest => exact hrest
  · exact TypeWay.item code size body t ⟨hend, htype⟩

theorem typeWay_stop (rest : List UInt8) (t : ℤ) : TypeWay (255 :: rest) t ↔ t = -1 := by
  constructor
  · intro h
    cases h with
    | stop => rfl
    | item _ _ _ _ hcode => exact absurd rfl hcode.1
  · rintro rfl
    exact .stop rest

theorem not_typeWay_single (code : UInt8) (t : ℤ) (hend : code ≠ 255) : ¬TypeWay [code] t := by
  intro h
  cases h
  exact absurd rfl hend

/-- The scan for the type has a result where there is a way to it. -/
theorem dhcpMessageTypeLoop_iff (m : List UInt8) (turns p : ℕ) (t : ℤ)
    (hturns : m.length-p ≤ turns) :
    dhcpMessageTypeLoop m turns p = some t ↔ TypeWay (m.drop p) t := by
  induction turns generalizing p with
  | zero =>
    rw [dhcpMessageTypeLoop, List.drop_eq_nil_of_le (by omega)]
    simp only [reduceCtorEq, false_iff]
    exact fun h => nomatch h
  | succ turns ih =>
    rw [dhcpMessageTypeLoop, show byteAt m p = byteAt (m.drop p) 0 from byteAt_drop m p 0,
      byteAt_drop m p 1, byteAt_drop m p 2]
    cases hs : m.drop p with
    | nil =>
      simp only [byteAt, List.getElem?_nil, Option.map_none, Option.bind_eq_bind,
        Option.bind_none, reduceCtorEq, false_iff]
      exact fun h => nomatch h
    | cons code rest =>
      simp only [byteAt, List.getElem?_cons_zero, Option.map_some, Option.bind_eq_bind,
        Option.bind_some]
      by_cases hend : code = 255
      · subst hend
        rw [typeWay_stop, if_pos (by decide), Option.some.injEq, eq_comm]
      · have hnat : code.toNat ≠ 255 := fun h => hend (UInt8.toNat_inj.1 h)
        rw [if_neg hnat]
        by_cases htype : code = 53
        · subst htype
          rw [if_pos (by decide)]
          match rest with
          | [] =>
            simp only [List.getElem?_cons_succ, List.getElem?_nil, Option.map_none, reduceCtorEq,
              false_iff]
            exact not_typeWay_single 53 t (by decide)
          | [size] =>
            simp [typeWay_type]
          | size :: v :: body =>
            simp [typeWay_type, eq_comm]
        · have hnat' : code.toNat ≠ 53 := fun h => htype (UInt8.toNat_inj.1 h)
          rw [if_neg hnat']
          cases rest with
          | nil =>
            simp only [List.getElem?_cons_succ, List.getElem?_nil, Option.map_none,
              Option.bind_none, reduceCtorEq, false_iff]
            exact not_typeWay_single code t hend
          | cons size body =>
            have hlt : p < m.length := by
              by_contra hge
              rw [List.drop_eq_nil_of_le (by omega)] at hs
              exact absurd hs (by simp)
            simp only [List.getElem?_cons_succ, List.getElem?_cons_zero, Option.map_some,
              Option.bind_some]
            rw [ih _ (by omega), drop_item m p code size body hs,
              typeWay_item code size body t hend htype]

/-! ## The functions -/

theorem dhcpMessageType_iff (m : List UInt8) (p : ℕ) (t : ℤ)
    (hmagic : longAt m p = some bootpVendorMagic) :
    dhcpMessageType m p = some t ↔ TypeWay (m.drop (p+4)) t := by
  rw [dhcpMessageType, hmagic, Option.bind_eq_bind, Option.bind_some, if_neg (not_not.2 rfl),
    dhcpMessageTypeLoop_iff _ _ _ _ (Nat.sub_le _ _)]

theorem dhcpOptionsProcess_iff (c : Client) (m : List UInt8) (r : Client × List UInt8)
    (hm : 236 ≤ m.length) :
    dhcpOptionsProcess c m (bpVend+4) = some r ↔
      ∃ items, Way bootpHdrSize (fileEmpty m) (m.drop (bpVend+4)) items ∧
        r = items.foldl effect (c, m) := by
  rw [dhcpOptionsProcess, dhcpOptionsLoop_iff _ _ _ _ _ _ (by omega) hm (by decide),
    Nat.add_sub_cancel_left]

end UBoot.Dhcp
