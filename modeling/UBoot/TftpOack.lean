import UBoot.Tftp
import Mathlib.Tactic.SplitIfs

/-!
# The option acknowledgement of `net/tftp.c`

The loop of `TftpHandler` over the text of an option acknowledgement and
`parse_multicast_oack`, for a build with or without the `tsize` and multicast
options. What a string function reads is made explicit: a result is `none` when
the byte behind the end of the packet is needed. Against the loop stands the
text as a list of NUL terminated names and values.
-/

set_option autoImplicit false

namespace UBoot.TftpOack
open UBoot.Tftp

/-! ## Reading strings in the packet -/

/-- `strcmp` with a name, which holds no NUL. -/
def strcmpIn : List UInt8 → List UInt8 → Option Bool
  | [], _ => none
  | c::_, [] => some (c = 0)
  | c::cs, d::ds => if c = d then strcmpIn cs ds else some false

def digitsIn (base : ℕ) : ℕ → List UInt8 → Option ℕ
  | _, [] => none
  | result, c::cs =>
    match digitValue c with
    | none => some result
    | some v => if v < base then digitsIn base (wrap32 (result*base+v)) cs else some result

/-- `simple_strtoul` with base 10 at a place of the packet. -/
def strtoulIn (l : List UInt8) : Option ℕ :=
  match l with
  | 48::120::[] => none
  | 48::120::d::rest => if (digitValue d).isSome then digitsIn 16 0 (d::rest) else some 0
  | 48::rest => digitsIn 10 0 rest
  | l => digitsIn 10 0 l

/-- The byte is no digit of the base. -/
def stops (base : ℕ) (c : UInt8) : Bool :=
  match digitValue c with
  | none => true
  | some v => decide (base ≤ v)

/-- The number at the start of these bytes is followed by another one of them. -/
def numberEnds (l : List UInt8) : Bool :=
  match l with
  | 48::120::[] => false
  | 48::120::d::rest => if (digitValue d).isSome then rest.any (stops 16) else true
  | l => l.any (stops 10)

/-! ## The loop over the text -/

structure Build where
  tsize : Bool
  multicast : Bool

structure Options where
  blkSize : ℕ
  tsize : ℕ
  deriving DecidableEq

def tsizeText : List UInt8 := [116, 115, 105, 122, 101]
def multicastText : List UInt8 := [109, 117, 108, 116, 105, 99, 97, 115, 116]

/-- The body of the loop; the list is what the packet holds from this place on. -/
def checkOption (b : Build) (s : Options) (l : List UInt8) : Option Options :=
  ((strcmpIn l blksizeText).bind fun same =>
    if same then (strtoulIn (l.drop 8)).map fun v => { s with blkSize := v % 65536 }
    else some s).bind fun s1 =>
  if b.tsize then
    (strcmpIn l tsizeText).bind fun same =>
      if same then (strtoulIn (l.drop 6)).map fun v => { s1 with tsize := v } else some s1
  else some s1

/-- `for (i = 0; i+8 < len; i++)` -/
def scanOptions (b : Build) : Options → List UInt8 → Option Options
  | s, [] => some s
  | s, c::cs =>
    if 8 < (c::cs).length then (checkOption b s (c::cs)).bind fun s1 => scanOptions b s1 cs
    else some s

/-! ## Multicast -/

structure Mcast where
  bitmap : Bool
  multicast : Bool
  masterClient : ℕ
  prohibitMcast : Bool
  mcastAddr : ℕ
  mcastPort : ℕ
  startAgain : Bool
  deriving DecidableEq

/-- What the allocator and the network device answer. -/
structure Answers where
  malloc : Bool
  joinFails : Bool

def dropDigits (base : ℕ) (l : List UInt8) : List UInt8 := l.dropWhile fun c => !stops base c

/-- Where `simple_strtoul` leaves its end pointer. -/
def behindNumber (l : List UInt8) : List UInt8 :=
  match l with
  | 48::120::d::rest =>
    if (digitValue d).isSome then dropDigits 16 (d::rest) else 120::d::rest
  | 48::rest => dropDigits 10 rest
  | l => dropDigits 10 l

/-- `string_to_ip` of a terminated string; the bytes stand in the order written. -/
def stringToIp (l : List UInt8) : ℕ :=
  ((List.range 4).foldl (fun (a : ℕ × List UInt8) _ =>
    (wrap32 (a.1*256+simpleStrtoul10 a.2 % 256),
      if (behindNumber a.2).headD 0 = 0 then behindNumber a.2 else (behindNumber a.2).tail))
    (0, l)).1

/-- The bytes behind the name `multicast`, which starts 15 bytes or more before
the last byte. -/
def findMulticast : List UInt8 → Option (Option (List UInt8))
  | [] => some none
  | c::cs =>
    if 15 < (c::cs).length then
      (strcmpIn (c::cs) multicastText).bind fun same =>
        if same then some (some ((c::cs).drop 10)) else findMulticast cs
    else some none

/-- The bytes before and behind the first comma; the last byte is not looked at. -/
def splitComma : List UInt8 → Option (List UInt8 × List UInt8)
  | c::d::cs => if c = 44 then some ([], d::cs) else (splitComma (d::cs)).map fun r => (c::r.1, r.2)
  | _ => none

structure Fields where
  mcAdr : List UInt8
  port : List UInt8
  mc : List UInt8

def fields (l : List UInt8) : Option Fields :=
  (splitComma l).bind fun r => (splitComma r.2).map fun t => ⟨r.1, t.1, t.2⟩

def mcastCleanup (m : Mcast) : Mcast :=
  { m with bitmap := false, multicast := false, mcastAddr := 0, mcastPort := 0 }

/-- The acknowledgement is taken although this client is the master, or there is
no bitmap to be had. -/
def refused (a : Answers) (m : Mcast) : Option Mcast :=
  if m.multicast ∧ m.masterClient ≠ 0 then some m
  else if ¬ m.multicast ∧ m.bitmap then some { m with bitmap := false, prohibitMcast := true }
  else if ¬ m.multicast ∧ ¬ a.malloc then some { m with prohibitMcast := true }
  else none

def join (a : Answers) (m : Mcast) (addr : ℕ) : Mcast :=
  let m1 := if m.multicast then m else { m with bitmap := true, multicast := true }
  if m1.mcastAddr ≠ addr then
    if a.joinFails then
      { mcastCleanup { m1 with mcastAddr := addr } with prohibitMcast := true, startAgain := true }
    else { m1 with mcastAddr := addr }
  else m1

def parseMulticastOack (a : Answers) (m : Mcast) (text : List UInt8) : Option Mcast :=
  (findMulticast text).bind fun found =>
    match found.bind fields with
    | none => some m
    | some f =>
      match refused a m with
      | some m1 => some m1
      | none =>
        (strtoulIn f.mc).map fun v =>
          { join a m (stringToIp f.mcAdr) with
            masterClient := v % 256, mcastPort := simpleStrtoul10 f.port % 65536 }

/-- What the handler takes from an option acknowledgement. -/
def readOack (b : Build) (a : Answers) (s : Options) (m : Mcast) (text : List UInt8) :
    Option (Options × Mcast) :=
  (scanOptions b s text).bind fun s1 =>
    if b.multicast then (parseMulticastOack a m text).map fun m1 => (s1, m1) else some (s1, m)

/-! ## The options of the text -/

/-- The NUL terminated strings, without what follows the last NUL. -/
def strings : List UInt8 → List (List UInt8)
  | [] => []
  | c::cs =>
    if c = 0 then []::strings cs
    else
      match strings cs with
      | [] => []
      | s::ss => (c::s)::ss

def pairs : List (List UInt8) → List (List UInt8 × List UInt8)
  | a::b::l => (a, b)::pairs l
  | _ => []

/-- The value of the last option of the name `blksize`. -/
def announced (text : List UInt8) : Option ℕ :=
  (((pairs (strings text)).filter fun o => o.1 = blksizeText).getLast?).map fun o =>
    simpleStrtoul10 o.2

def inRange (requested v : ℕ) : Bool := 1 ≤ v ∧ v ≤ requested

/-- The block size that the text asks for, and the old one without such. -/
def wanted (requested old : ℕ) (text : List UInt8) : ℕ :=
  ((announced text).filter (inRange requested)).getD old

theorem strings_split (l s : List UInt8) (ss : List (List UInt8)) (h : strings l = s::ss) :
    ∃ post, l = s++0::post ∧ strings post = ss := by
  induction l generalizing s with
  | nil => cases h
  | cons c cs ih =>
    rw [strings] at h
    split_ifs at h with hc
    · obtain ⟨rfl, rfl⟩ := List.cons.inj h
      exact ⟨cs, by rw [hc, List.nil_append], rfl⟩
    · cases hcs : strings cs with
      | nil =>
        rw [hcs] at h
        cases h
      | cons t ts =>
        rw [hcs] at h
        obtain ⟨rfl, rfl⟩ := List.cons.inj h
        obtain ⟨post, rfl, hpost⟩ := ih t hcs
        exact ⟨post, rfl, hpost⟩

/-- An option stands in the text with both its NULs. -/
theorem pairs_split (ss : List (List UInt8)) (l : List UInt8) (o : List UInt8 × List UInt8)
    (hl : strings l = ss) (ho : o ∈ pairs ss) :
    ∃ pre post, l = pre++o.1++0::o.2++0::post := by
  induction ss using pairs.induct generalizing l with
  | case1 a b ss ih =>
    obtain ⟨l1, rfl, h1⟩ := strings_split l a (b::ss) hl
    obtain ⟨l2, rfl, h2⟩ := strings_split l1 b ss h1
    rcases List.mem_cons.mp ho with rfl | ho
    · exact ⟨[], l2, by simp⟩
    · obtain ⟨pre, post, rfl⟩ := ih l2 h2 ho
      exact ⟨a++0::b++0::pre, post, by simp⟩
  | case2 ss hss =>
    have hnil : pairs ss = [] := by
      rcases ss with _ | ⟨a, _ | ⟨b, ss⟩⟩
      · rfl
      · rfl
      · exact absurd rfl (hss a b ss)
    rw [hnil] at ho
    cases ho

theorem announced_place (text : List UInt8) (v : ℕ) (h : announced text = some v) :
    ∃ pre l, text = pre++l ∧ 8 < l.length ∧ cstrAt l blksizeText = true := by
  unfold announced at h
  obtain ⟨o, ho, -⟩ := Option.map_eq_some_iff.mp h
  have hmem := List.mem_filter.mp (List.mem_of_getLast? ho)
  obtain ⟨pre, post, htext⟩ := pairs_split _ text o rfl hmem.1
  have hname : o.1 = blksizeText := by simpa using hmem.2
  refine ⟨pre, o.1++0::o.2++0::post, by rw [htext]; simp, ?_, ?_⟩
  · rw [hname]
    simp [blksizeText]
  · rw [hname]
    simp [cstrAt, blksizeText]

/-! ## What the loop reads -/

theorem strcmpIn_eq (l name : List UInt8) (h : name.length < l.length) :
    strcmpIn l name = some (cstrAt l name) := by
  induction name generalizing l with
  | nil =>
    obtain ⟨c, cs, rfl⟩ := List.exists_cons_of_length_pos h
    simp [strcmpIn, cstrAt]
  | cons d ds ih =>
    obtain ⟨c, cs, rfl⟩ := List.exists_cons_of_length_pos (Nat.lt_of_le_of_lt (Nat.zero_le _) h)
    rw [strcmpIn]
    by_cases hc : c = d
    · rw [if_pos hc, ih cs (by simpa using h), hc]
      simp [cstrAt]
    · rw [if_neg hc]
      simp [cstrAt, hc]

theorem digitsIn_eq (base : ℕ) (l : List UInt8) (result : ℕ) :
    digitsIn base result l = if l.any (stops base) then some (digits base result l) else none := by
  induction l generalizing result with
  | nil => rfl
  | cons c cs ih =>
    rw [digitsIn, digits, List.any_cons]
    cases hd : digitValue c with
    | none => simp [stops, hd]
    | some v =>
      by_cases hv : v < base
      · have hs : stops base c = false := by simp [stops, hd, hv]
        simp only [hv, if_true, ih, hs, Bool.false_or]
      · have hs : stops base c = true := by simp [stops, hd]; omega
        simp only [hv, if_false, hs, Bool.true_or, if_true]

theorem digitValue_lt (c : UInt8) (v : ℕ) (h : digitValue c = some v) : v < 16 := by
  unfold digitValue at h
  simp only [UInt8.le_iff_toNat_le] at h
  split_ifs at h with h1 h2 h3
  · have hv : c.toNat-48 = v := Option.some.inj h
    have hc : c.toNat ≤ 57 := h1.2
    omega
  · have hv : c.toNat-87 = v := Option.some.inj h
    have hc : c.toNat ≤ 102 := h2.2
    omega
  · have hv : c.toNat-55 = v := Option.some.inj h
    have hc : c.toNat ≤ 70 := h3.2
    omega

theorem strtoulIn_eq (l : List UInt8) :
    strtoulIn l = if numberEnds l then some (simpleStrtoul10 l) else none := by
  rcases l with _ | ⟨c, cs⟩
  · rfl
  by_cases hc : c = 48
  · subst hc
    have hdec : digitsIn 10 0 cs =
        if (48::cs).any (stops 10) then some (digits 10 0 cs) else none := by
      rw [digitsIn_eq]
      rfl
    rcases cs with _ | ⟨x, cs⟩
    · exact hdec
    by_cases hx : x = 120
    · subst hx
      rcases cs with _ | ⟨d, rest⟩
      · rfl
      by_cases hd : (digitValue d).isSome = true
      · obtain ⟨v, hv⟩ := Option.isSome_iff_exists.mp hd
        have hs : stops 16 d = false := by simp [stops, hv, digitValue_lt d v hv]
        simp only [strtoulIn, numberEnds, simpleStrtoul10, hd, if_true]
        rw [digitsIn_eq, List.any_cons, hs, Bool.false_or]
      · simp [strtoulIn, numberEnds, simpleStrtoul10, hd]
    · rw [strtoulIn, numberEnds, simpleStrtoul10]
      · exact hdec
      all_goals simp_all
  · rw [strtoulIn, numberEnds, simpleStrtoul10]
    · exact digitsIn_eq 10 _ 0
    all_goals simp_all

/-- The numbers that the loop reads at a place end in the packet. -/
def OptionEnds (b : Build) (l : List UInt8) : Prop :=
  (cstrAt l blksizeText = true → numberEnds (l.drop 8) = true) ∧
  (b.tsize = true → cstrAt l tsizeText = true → numberEnds (l.drop 6) = true)

/-- Where the loop looks, both names are compared inside the packet. -/
theorem names_inside (l : List UInt8) (hlen : 8 < l.length) :
    strcmpIn l blksizeText = some (cstrAt l blksizeText) ∧
    strcmpIn l tsizeText = some (cstrAt l tsizeText) := by
  have hblk : blksizeText.length = 7 := rfl
  have htsize : tsizeText.length = 5 := rfl
  exact ⟨strcmpIn_eq l _ (by omega), strcmpIn_eq l _ (by omega)⟩

theorem checkOption_some (b : Build) (s : Options) (l : List UInt8) (hlen : 8 < l.length)
    (h : OptionEnds b l) :
    ∃ t, checkOption b s l = some t ∧
      t.blkSize =
        if cstrAt l blksizeText then simpleStrtoul10 (l.drop 8) % 65536 else s.blkSize := by
  obtain ⟨hblk, htsize⟩ := names_inside l hlen
  have hfirst : ∃ s1, ((strcmpIn l blksizeText).bind fun same =>
      if same then (strtoulIn (l.drop 8)).map fun v => { s with blkSize := v % 65536 }
      else some s) = some s1 ∧
      s1.blkSize = if cstrAt l blksizeText then simpleStrtoul10 (l.drop 8) % 65536
        else s.blkSize := by
    rw [hblk, Option.bind_some]
    by_cases hc : cstrAt l blksizeText = true
    · rw [if_pos hc, if_pos hc, strtoulIn_eq, if_pos (h.1 hc)]
      exact ⟨_, rfl, rfl⟩
    · rw [if_neg hc, if_neg hc]
      exact ⟨s, rfl, rfl⟩
  obtain ⟨s1, hs1, hv⟩ := hfirst
  rw [checkOption, hs1, Option.bind_some, htsize, Option.bind_some]
  by_cases hb : b.tsize = true
  · rw [if_pos hb]
    by_cases hc : cstrAt l tsizeText = true
    · rw [if_pos hc, strtoulIn_eq, if_pos (h.2 hb hc)]
      exact ⟨_, rfl, hv⟩
    · rw [if_neg hc]
      exact ⟨s1, rfl, hv⟩
  · rw [if_neg hb]
    exact ⟨s1, rfl, hv⟩

theorem checkOption_none (b : Build) (s : Options) (l : List UInt8) (hlen : 8 < l.length)
    (h : ¬ OptionEnds b l) : checkOption b s l = none := by
  obtain ⟨hblk, htsize⟩ := names_inside l hlen
  rw [checkOption, hblk, Option.bind_some]
  by_cases hc : cstrAt l blksizeText = true ∧ numberEnds (l.drop 8) = false
  · rw [if_pos hc.1, strtoulIn_eq, hc.2]
    rfl
  · have hother : b.tsize = true ∧ cstrAt l tsizeText = true ∧ numberEnds (l.drop 6) = false := by
      unfold OptionEnds at h
      grind
    have hnum : strtoulIn (l.drop 6) = none := by
      rw [strtoulIn_eq, hother.2.2]
      rfl
    simp only [if_pos hother.1, htsize, Option.bind_some, hother.2.1, if_true, hnum,
      Option.map_none]
    exact Option.bind_fun_none _

/-- The loop of the handler taken from its first place on. -/
theorem parseOack_cons (c : UInt8) (cs : List UInt8) (blk : ℕ) :
    parseOack (c::cs) blk =
      if 8 < (c::cs).length then
        parseOack cs (if cstrAt (c::cs) blksizeText then simpleStrtoul10 ((c::cs).drop 8) % 65536
          else blk)
      else blk := by
  by_cases h : 8 < (c::cs).length
  · have hlen : (c::cs).length-8 = (cs.length-8)+1 := by
      simp only [List.length_cons] at h ⊢
      omega
    rw [if_pos h, parseOack, hlen, List.range_succ_eq_map, List.foldl_cons, List.foldl_map]
    rfl
  · have hlen : (c::cs).length-8 = 0 := by omega
    rw [if_neg h, parseOack, hlen]
    rfl

/-- The loop comes to its end inside the packet when each number does, and then
with the block size of the handler. -/
theorem scanOptions_some (b : Build) (s : Options) (l : List UInt8)
    (h : ∀ i, i+8 < l.length → OptionEnds b (l.drop i)) :
    ∃ t, scanOptions b s l = some t ∧ t.blkSize = parseOack l s.blkSize := by
  induction l generalizing s with
  | nil => exact ⟨s, rfl, rfl⟩
  | cons c cs ih =>
    rw [scanOptions, parseOack_cons]
    by_cases hlen : 8 < (c::cs).length
    · obtain ⟨s1, hs1, hv⟩ := checkOption_some b s (c::cs) hlen (h 0 (by simpa using hlen))
      rw [if_pos hlen, if_pos hlen, hs1, Option.bind_some, ← hv]
      exact ih s1 fun i hi => h (i+1) (by simp only [List.length_cons]; omega)
    · rw [if_neg hlen, if_neg hlen]
      exact ⟨s, rfl, rfl⟩

theorem scanOptions_none (b : Build) (s : Options) (l : List UInt8) (i : ℕ) (hi : i+8 < l.length)
    (h : ¬ OptionEnds b (l.drop i)) : scanOptions b s l = none := by
  induction l generalizing s i with
  | nil => cases hi
  | cons c cs ih =>
    have hlen : 8 < (c::cs).length := by omega
    rw [scanOptions, if_pos hlen]
    cases i with
    | zero =>
      rw [checkOption_none b s (c::cs) hlen h]
      rfl
    | succ i =>
      have hrest : ∀ s1, scanOptions b s1 cs = none := fun s1 =>
        ih s1 i (by simp only [List.length_cons] at hi; omega) h
      simp only [hrest]
      exact Option.bind_fun_none _

/-- The number behind the last place at which the loop finds the name. -/
def lastNumber : List UInt8 → Option ℕ
  | [] => none
  | c::cs =>
    if 8 < (c::cs).length then
      (lastNumber cs).or
        (if cstrAt (c::cs) blksizeText then some (simpleStrtoul10 ((c::cs).drop 8)) else none)
    else none

theorem parseOack_last (l : List UInt8) (blk : ℕ) :
    parseOack l blk = ((lastNumber l).map fun v => v % 65536).getD blk := by
  induction l generalizing blk with
  | nil => rfl
  | cons c cs ih =>
    rw [parseOack_cons, lastNumber]
    by_cases hlen : 8 < (c::cs).length
    · rw [if_pos hlen, if_pos hlen, ih]
      cases lastNumber cs with
      | some v => rfl
      | none =>
        by_cases hc : cstrAt (c::cs) blksizeText = true
        · rw [if_pos hc, if_pos hc]
          rfl
        · rw [if_neg hc, if_neg hc]
          rfl
    · rw [if_neg hlen, if_neg hlen]
      rfl

theorem lastNumber_place (pre l : List UInt8) (hlen : 8 < l.length)
    (h : cstrAt l blksizeText = true) : lastNumber (pre++l) ≠ none := by
  induction pre with
  | nil =>
    obtain ⟨c, cs, rfl⟩ := List.exists_cons_of_length_pos (Nat.lt_of_le_of_lt (Nat.zero_le _) hlen)
    rw [List.nil_append, lastNumber, if_pos hlen, if_pos h]
    cases lastNumber cs <;> exact Option.some_ne_none _
  | cons c pre ih =>
    have hlen' : 8 < (c::(pre++l)).length := by
      simp only [List.length_cons, List.length_append]
      omega
    rw [List.cons_append, lastNumber, if_pos hlen']
    obtain ⟨v, hv⟩ := Option.ne_none_iff_exists'.mp ih
    rw [hv]
    exact Option.some_ne_none _

/-- A text with an announcement has a place with the name. -/
theorem announced_none (text : List UInt8) (h : lastNumber text = none) :
    announced text = none := by
  by_contra hne
  obtain ⟨v, hv⟩ := Option.ne_none_iff_exists'.mp hne
  obtain ⟨pre, l, rfl, hlen, hc⟩ := announced_place text v hv
  exact lastNumber_place pre l hlen hc h

/-! ## What the multicast option reads -/

/-- What stands behind the name `multicast`, read without regard to the end. -/
def behindMulticast : List UInt8 → Option (List UInt8)
  | [] => none
  | c::cs =>
    if 15 < (c::cs).length then
      if cstrAt (c::cs) multicastText then some ((c::cs).drop 10) else behindMulticast cs
    else none

theorem findMulticast_eq (l : List UInt8) : findMulticast l = some (behindMulticast l) := by
  induction l with
  | nil => rfl
  | cons c cs ih =>
    rw [findMulticast, behindMulticast]
    by_cases hlen : 15 < (c::cs).length
    · have hname : multicastText.length < (c::cs).length := by
        simp only [multicastText, List.length_cons, List.length_nil] at hlen ⊢
        omega
      rw [if_pos hlen, if_pos hlen, strcmpIn_eq _ _ hname, Option.bind_some]
      by_cases hc : cstrAt (c::cs) multicastText = true
      · rw [if_pos hc, if_pos hc]
      · rw [if_neg hc, if_neg hc, ih]
    · rw [if_neg hlen, if_neg hlen]

/-- The third field of the multicast option ends in the packet, where it is read. -/
def McastEnds (a : Answers) (m : Mcast) (text : List UInt8) : Prop :=
  ∀ f ∈ (behindMulticast text).bind fields, refused a m = none → numberEnds f.mc = true

theorem parseMulticastOack_isSome (a : Answers) (m : Mcast) (text : List UInt8) :
    (parseMulticastOack a m text).isSome = true ↔ McastEnds a m text := by
  rw [parseMulticastOack, findMulticast_eq, Option.bind_some, McastEnds]
  cases (behindMulticast text).bind fields with
  | none => simp
  | some f =>
    cases refused a m with
    | some m1 => simp
    | none => simp [strtoulIn_eq]

/-! ## The block size in force -/

/-- Each number that the handler reads in the text ends there. -/
def NumbersEnd (b : Build) (a : Answers) (m : Mcast) (text : List UInt8) : Prop :=
  (∀ i, i+8 < text.length → OptionEnds b (text.drop i)) ∧
  (b.multicast = true → McastEnds a m text)

theorem readOack_isSome (b : Build) (a : Answers) (s : Options) (m : Mcast) (text : List UInt8) :
    (readOack b a s m text).isSome = true ↔ NumbersEnd b a m text := by
  by_cases h : ∀ i, i+8 < text.length → OptionEnds b (text.drop i)
  · obtain ⟨t, ht, -⟩ := scanOptions_some b s text h
    rw [readOack, ht, Option.bind_some, NumbersEnd]
    by_cases hb : b.multicast = true
    · rw [if_pos hb, Option.isSome_map, parseMulticastOack_isSome]
      exact ⟨fun hm => ⟨h, fun _ => hm⟩, fun hm => hm.2 hb⟩
    · rw [if_neg hb]
      exact ⟨fun _ => ⟨h, fun hm => absurd hm hb⟩, fun _ => rfl⟩
  · have hn : scanOptions b s text = none := by
      push Not at h
      obtain ⟨i, hi, hne⟩ := h
      exact scanOptions_none b s text i hi hne
    rw [readOack, hn]
    exact ⟨fun hm => absurd hm Bool.false_ne_true, fun hm => absurd hm.1 h⟩

theorem readOack_blkSize (b : Build) (a : Answers) (s : Options) (m : Mcast) (text : List UInt8)
    (r : Options × Mcast) (h : readOack b a s m text = some r) :
    r.1.blkSize = parseOack text s.blkSize := by
  have hends := (readOack_isSome b a s m text).mp (by rw [h]; rfl)
  obtain ⟨t, ht, hv⟩ := scanOptions_some b s text hends.1
  rw [readOack, ht, Option.bind_some] at h
  split_ifs at h with hb
  · obtain ⟨m1, -, rfl⟩ := Option.map_eq_some_iff.mp h
    exact hv
  · rw [← Option.some.inj h]
    exact hv

end UBoot.TftpOack
