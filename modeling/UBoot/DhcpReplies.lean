import UBoot.DhcpScan

/-!
# Replies with a list of options

A reply holds a well-formed list: padding of one byte, options with the length
their type has, and an end mark. What the functions store and return for it is
what the list says exactly when the way over its bytes, which takes padding for
a type and ends after 548 bytes, brings the same types and values. A packet of
any content is read inside of its length exactly when the ways end in it.
-/

set_option autoImplicit false

namespace UBoot.Dhcp

/-! ## What is left by the items of a way -/

def lastItem (items : List Item) (code : ℕ) : Option Item := items.reverse.find? (·.code == code)

/-- Where only one type of option sets a value, the last one does. -/
theorem fold_last {β : Type} (value : Client × List UInt8 → β) (code : ℕ) (f : Item → β)
    (hset : ∀ s it, it.code = code → value (effect s it) = f it)
    (hkeep : ∀ s it, it.code ≠ code → value (effect s it) = value s) (items : List Item)
    (s : Client × List UInt8) :
    value (items.foldl effect s) = ((lastItem items code).map f).getD (value s) := by
  induction items using List.reverseRecOn with
  | nil => rfl
  | append_singleton items it ih =>
    rw [List.foldl_append, List.foldl_cons, List.foldl_nil, lastItem, List.reverse_append,
      List.reverse_singleton, List.singleton_append, List.find?_cons]
    by_cases hit : it.code = code
    · rw [hset _ _ hit, beq_iff_eq.2 hit]
      rfl
    · rw [hkeep _ _ hit, ih, beq_false_of_ne hit]
      rfl

/-- The options whose value is an address or a number. -/
def numberCodes : List ℕ := [1, 3, 6, 51, 54]

def numberOf (code : ℕ) (c : Client) : ℕ :=
  match code with
  | 1 => c.netOurSubnetMask
  | 3 => c.netOurGatewayIP
  | 6 => c.netOurDNSIP
  | 51 => c.dhcpLeasetime
  | _ => c.netDHCPServerIP

/-- The options whose value is a text, but for the boot file. -/
def textCodes : List ℕ := [12, 17]

def textOf (code : ℕ) (c : Client) : List UInt8 :=
  match code with
  | 12 => c.netOurHostName
  | _ => c.netOurRootPath

def textSize (code : ℕ) : ℕ := if code = 12 then 32 else 64

theorem fold_number (code : ℕ) (hcode : code ∈ numberCodes) (items : List Item)
    (s : Client × List UInt8) :
    numberOf code (items.foldl effect s).1 =
      ((lastItem items code).map fun it => number it.body).getD (numberOf code s.1) := by
  refine fold_last (fun s => numberOf code s.1) code _ (fun s it hit => ?_) (fun s it hit => ?_)
    items s
  · simp only [numberCodes, List.mem_cons, List.not_mem_nil, or_false] at hcode
    rcases hcode with rfl | rfl | rfl | rfl | rfl <;> simp [effect, hit, numberOf]
  · simp only [numberCodes, List.mem_cons, List.not_mem_nil, or_false] at hcode
    unfold effect
    split
    case h_8 => split <;> rfl
    all_goals rcases hcode with rfl | rfl | rfl | rfl | rfl <;> simp_all [numberOf]

theorem fold_text (code : ℕ) (hcode : code ∈ textCodes) (items : List Item)
    (s : Client × List UInt8) :
    textOf code (items.foldl effect s).1 =
      ((lastItem items code).map fun it => it.text (textSize code)).getD (textOf code s.1) := by
  refine fold_last (fun s => textOf code s.1) code _ (fun s it hit => ?_) (fun s it hit => ?_)
    items s
  · simp only [textCodes, List.mem_cons, List.not_mem_nil, or_false] at hcode
    rcases hcode with rfl | rfl <;> simp [effect, hit, textOf, textSize]
  · simp only [textCodes, List.mem_cons, List.not_mem_nil, or_false] at hcode
    unfold effect
    split
    case h_8 => split <;> rfl
    all_goals rcases hcode with rfl | rfl <;> simp_all [textOf]

/-- The first boot file of the items that is no empty text. -/
def bootFileText (items : List Item) : List UInt8 :=
  (((items.filter (·.code == 67)).map fun it => cstr (it.text bpFileSize)).find? (· ≠ [])).getD []

theorem effect_kept (s : Client × List UInt8) (it : Item) (h : fileEmpty s.2 = false) :
    (effect s it).2 = s.2 := by
  unfold effect
  split
  case h_8 => simp [h]
  all_goals rfl

theorem fold_file (items : List Item) (s : Client × List UInt8) (hm : 236 ≤ s.2.length) :
    cstr ((items.foldl effect s).2.drop bpFile) =
      if fileEmpty s.2 then bootFileText items else cstr (s.2.drop bpFile) := by
  induction items generalizing s with
  | nil =>
    split
    · next hempty => exact (fileEmpty_iff s.2 (by simp only [bpFile]; omega)).1 hempty
    · rfl
  | cons it items ih =>
    obtain ⟨hm', -, hempty', hfile⟩ := effect_memory s it hm
    rw [List.foldl_cons, ih _ hm', hempty']
    by_cases hempty : fileEmpty s.2 = true
    · rw [if_pos hempty, bootFileText, bootFileText]
      rw [hempty] at hfile
      by_cases hit : it.code = 67
      · by_cases htext : cstr (it.text bpFileSize) = []
        · simp [stillNoFile, hempty, hit, htext]
        · have hstill : stillNoFile true it = false := by simp [stillNoFile, hit, htext]
          rw [hstill] at hfile
          have hcstr := hfile.resolve_left (by decide)
          simp [hempty, hstill, hcstr, hit, htext]
      · simp [stillNoFile, hempty, hit]
    · have hfalse := Bool.eq_false_iff.2 hempty
      rw [effect_kept s it hfalse]
      simp [stillNoFile, hfalse]

/-! ## Replies -/

inductive OptItem
  | pad
  | option (code : UInt8) (value : List UInt8)
  deriving DecidableEq, Repr

def OptItem.bytes : OptItem → List UInt8
  | .pad => [0]
  | .option code value => code :: UInt8.ofNat value.length :: value

/-- The lengths that the options have which are looked at. -/
def lengthOk (code n : ℕ) : Prop :=
  match code with
  | 1 => n = 4
  | 3 => 4 ≤ n ∧ n % 4 = 0
  | 6 => 4 ≤ n ∧ n % 4 = 0
  | 12 => 1 ≤ n
  | 17 => 1 ≤ n
  | 51 => n = 4
  | 53 => n = 1
  | 54 => n = 4
  | 67 => 1 ≤ n
  | _ => True

/-- A reply: what comes before the vendor area, the list in it, and what follows the end mark.
Message types do not contradict each other. -/
structure OptionReply where
  head : List UInt8
  items : List OptItem
  rest : List UInt8
  head_length : head.length = 236
  wellFormed : ∀ code value, .option code value ∈ items →
    code ≠ 0 ∧ code ≠ 255 ∧ value.length < 256 ∧ lengthOk code.toNat value.length
  sameType : ∀ v v', .option 53 v ∈ items → .option 53 v' ∈ items → v = v'

/-- The value of the last option with a code. -/
def lastValue (items : List OptItem) (code : ℕ) : Option (List UInt8) :=
  items.reverse.findSome? fun
    | .pad => none
    | .option c value => if c.toNat = code then some value else none

namespace OptionReply

variable (a : OptionReply)

/-- The bytes from the first option on. -/
def options : List UInt8 := a.items.flatMap OptItem.bytes ++ 255 :: a.rest

def mem : List UInt8 := a.head ++ ([99, 130, 83, 99] ++ a.options)

/-- A value is stored, cut to the size of its buffer. A boot file is asked for only where the
head of the reply has none. -/
structure Stores (r : Client × List UInt8) (code : ℕ) (value : List UInt8) : Prop where
  number : code ∈ numberCodes → numberOf code r.1 = Dhcp.number value
  text : code ∈ textCodes → textOf code r.1 = value.take (textSize code-1)
  file : code = 67 → fileEmpty a.mem = true →
    cstr (r.2.drop bpFile) = cstr (value.take (bpFileSize-1))

/-- The functions do what the list says. -/
structure Correct (c : Client) : Prop where
  type : ∀ t : UInt8, .option 53 [t] ∈ a.items → dhcpMessageType a.mem bpVend = some ↑t.toNat
  options : ∃ r, dhcpOptionsProcess c a.mem (bpVend+4) = some r ∧
    ∀ code value, lastValue a.items code = some value → a.Stores r code value

/-- The items of a way bring a value. -/
structure Brings (items : List Item) (code : ℕ) (value : List UInt8) : Prop where
  number : code ∈ numberCodes →
    ∃ it, lastItem items code = some it ∧ Dhcp.number it.body = Dhcp.number value
  text : code ∈ textCodes →
    ∃ it, lastItem items code = some it ∧ it.text (textSize code) = value.take (textSize code-1)
  file : code = 67 → fileEmpty a.mem = true → bootFileText items = cstr (value.take (bpFileSize-1))

/-- The ways over the bytes bring what the list holds. -/
structure ReadAlike : Prop where
  type : ∀ t : UInt8, .option 53 [t] ∈ a.items → TypeWay a.options t.toNat
  options : ∃ items, Way bootpHdrSize (fileEmpty a.mem) a.options items ∧
    ∀ code value, lastValue a.items code = some value → a.Brings items code value

theorem mem_length : 240 ≤ a.mem.length := by
  have hhead := a.head_length
  simp only [mem, List.length_append, List.length_cons, List.length_nil]
  omega

theorem mem_drop : a.mem.drop (bpVend+4) = a.options := by
  rw [mem, ← List.append_assoc]
  exact List.drop_left' (by rw [List.length_append, a.head_length]; rfl)

theorem mem_magic : longAt a.mem bpVend = some bootpVendorMagic := by
  rw [show bpVend = bpVend+0 from rfl, longAt_drop, mem,
    List.drop_left' (show a.head.length = bpVend from a.head_length)]
  rfl

theorem messageType_iff (t : ℤ) : dhcpMessageType a.mem bpVend = some t ↔ TypeWay a.options t := by
  rw [dhcpMessageType_iff _ _ _ a.mem_magic, a.mem_drop]

theorem optionsProcess_iff (c : Client) (r : Client × List UInt8) :
    dhcpOptionsProcess c a.mem (bpVend+4) = some r ↔
      ∃ items, Way bootpHdrSize (fileEmpty a.mem) a.options items ∧
        r = items.foldl effect (c, a.mem) := by
  have hm := a.mem_length
  rw [dhcpOptionsProcess_iff c a.mem r (by omega), a.mem_drop]

theorem stores_of_brings (c : Client) (items : List Item) (code : ℕ) (value : List UInt8)
    (h : a.Brings items code value) : a.Stores (items.foldl effect (c, a.mem)) code value where
  number hcode := by
    obtain ⟨it, hit, hnumber⟩ := h.number hcode
    rw [fold_number code hcode, hit]
    exact hnumber
  text hcode := by
    obtain ⟨it, hit, htext⟩ := h.text hcode
    rw [fold_text code hcode, hit]
    exact htext
  file hcode hempty := by
    have hm := a.mem_length
    rw [fold_file items (c, a.mem) (by show 236 ≤ a.mem.length; omega), if_pos hempty]
    exact h.file hcode hempty

/-- A client that has other values than a list can bring. -/
def spoilt (n : ℕ) (s : List UInt8) : Client :=
  { powerOn with
    netOurSubnetMask := n, netOurGatewayIP := n, netOurDNSIP := n, dhcpLeasetime := n,
    netDHCPServerIP := n, netOurHostName := s, netOurRootPath := s }

theorem numberOf_spoilt (n : ℕ) (s : List UInt8) (code : ℕ) : numberOf code (spoilt n s) = n := by
  unfold numberOf
  split <;> rfl

theorem textOf_spoilt (n : ℕ) (s : List UInt8) (code : ℕ) : textOf code (spoilt n s) = s := by
  unfold textOf
  split <;> rfl

theorem exists_of_getD {α β : Type} (o : Option α) (f : α → β) (x y : β)
    (h : (o.map f).getD x = y) (hne : x ≠ y) : ∃ v, o = some v ∧ f v = y := by
  cases o with
  | none => exact absurd h hne
  | some v => exact ⟨v, rfl, h⟩

theorem brings_of_stores (items : List Item) (code : ℕ) (value : List UInt8)
    (h : ∀ c, a.Stores (items.foldl effect (c, a.mem)) code value) :
    a.Brings items code value := by
  have hs := h (spoilt (number value+1) (0 :: value))
  refine ⟨fun hcode => ?_, fun hcode => ?_, fun hcode hempty => ?_⟩
  · have hnumber := hs.number hcode
    rw [fold_number code hcode, numberOf_spoilt] at hnumber
    exact exists_of_getD _ _ _ _ hnumber (Nat.succ_ne_self _)
  · have htext := hs.text hcode
    rw [fold_text code hcode, textOf_spoilt] at htext
    refine exists_of_getD _ _ _ _ htext fun heq => ?_
    have hlen := congrArg List.length heq
    have htake := List.length_take_le' (textSize code-1) value
    rw [List.length_cons] at hlen
    omega
  · have hm := a.mem_length
    have hfile := hs.file hcode hempty
    rwa [fold_file items (_, a.mem) (by show 236 ≤ a.mem.length; omega), if_pos hempty] at hfile

/-- For every client, what a list says is what its bytes bring on the way. -/
theorem correct_iff : (∀ c, a.Correct c) ↔ a.ReadAlike := by
  constructor
  · intro h
    refine ⟨fun t ht => (a.messageType_iff _).1 ((h powerOn).type t ht), ?_⟩
    obtain ⟨r, hr, -⟩ := (h powerOn).options
    obtain ⟨items, hway, -⟩ := (a.optionsProcess_iff powerOn r).1 hr
    refine ⟨items, hway, fun code value hvalue => a.brings_of_stores items code value fun c => ?_⟩
    obtain ⟨r', hr', hstores⟩ := (h c).options
    obtain ⟨items', hway', rfl⟩ := (a.optionsProcess_iff c r').1 hr'
    obtain rfl := hway.unique hway'
    exact hstores code value hvalue
  · rintro ⟨htype, items, hway, hbrings⟩ c
    refine ⟨fun t ht => (a.messageType_iff _).2 (htype t ht), _,
      (a.optionsProcess_iff c _).2 ⟨items, hway, rfl⟩, fun code value hvalue => ?_⟩
    exact a.stores_of_brings c items code value (hbrings code value hvalue)

/-! ## Lists without padding -/

/-- The items of a list that is followed by other bytes. -/
@[grind]
def passed : List OptItem → List UInt8 → List Item
  | [], _ => []
  | .pad :: os, s => passed os s
  | .option code value :: os, s =>
    ⟨code.toNat, value.length, value ++ (os.flatMap OptItem.bytes ++ s)⟩ :: passed os s

/-- Padding, length and type of the options are as the standard has them. -/
def WellFormed (os : List OptItem) : Prop :=
  ∀ code value, .option code value ∈ os →
    code ≠ 0 ∧ code ≠ 255 ∧ value.length < 256 ∧ lengthOk code.toNat value.length

theorem truncateSz_le (maxlen n : ℕ) : truncateSz maxlen n ≤ n := by
  rw [truncateSz]
  split <;> omega

/-- What is read of an option is inside of its value. -/
theorem need_le (noFile : Bool) (code n : ℕ) (h : lengthOk code n) : need noFile code n ≤ n := by
  unfold lengthOk at h
  unfold need
  split
  case h_8 =>
    split
    · exact truncateSz_le _ _
    · exact Nat.zero_le n
  case h_9 => exact Nat.zero_le n
  all_goals simp_all [truncateSz_le]

theorem way_passed (os : List OptItem) (rest : List UInt8) (k : ℕ) (noFile : Bool)
    (hpad : .pad ∉ os) (hwell : WellFormed os) (hk : (os.flatMap OptItem.bytes).length < k) :
    Way k noFile (os.flatMap OptItem.bytes ++ 255 :: rest) (passed os (255 :: rest)) := by
  induction os generalizing k noFile with
  | nil => exact .stop k noFile rest (by omega)
  | cons o os ih =>
    match o with
    | .pad => exact absurd List.mem_cons_self hpad
    | .option code value =>
      obtain ⟨-, hend, hlen, hok⟩ := hwell code value List.mem_cons_self
      have hsize : (UInt8.ofNat value.length).toNat = value.length :=
        UInt8.toNat_ofNat_of_lt' hlen
      rw [List.flatMap_cons, OptItem.bytes, List.length_append, List.length_cons,
        List.length_cons] at hk
      rw [List.flatMap_cons, OptItem.bytes, passed, List.append_assoc, List.cons_append,
        List.cons_append, way_item _ _ _ _ _ _ (by omega) hend, hsize, List.drop_left]
      refine ⟨?_, _, rfl, ?_⟩
      · rw [List.length_append]
        exact (need_le noFile _ _ hok).trans (Nat.le_add_right _ _)
      · exact ih _ _ (fun hmem => hpad (List.mem_cons_of_mem _ hmem))
          (fun c v hmem => hwell c v (List.mem_cons_of_mem _ hmem)) (by omega)

theorem typeWay_passed (os : List OptItem) (rest : List UInt8) (t : UInt8) (hpad : .pad ∉ os)
    (hwell : WellFormed os) (hsame : ∀ v, .option 53 v ∈ os → v = [t])
    (ht : .option 53 [t] ∈ os) : TypeWay (os.flatMap OptItem.bytes ++ 255 :: rest) t.toNat := by
  induction os with
  | nil => exact absurd ht List.not_mem_nil
  | cons o os ih =>
    match o with
    | .pad => exact absurd List.mem_cons_self hpad
    | .option code value =>
      obtain ⟨-, hend, hlen, -⟩ := hwell code value List.mem_cons_self
      have hsize : (UInt8.ofNat value.length).toNat = value.length :=
        UInt8.toNat_ofNat_of_lt' hlen
      rw [List.flatMap_cons, OptItem.bytes, List.append_assoc, List.cons_append,
        List.cons_append]
      by_cases hcode : code = 53
      · subst hcode
        obtain rfl := hsame value List.mem_cons_self
        exact .type _ _ _
      · rw [typeWay_item _ _ _ _ hend hcode, hsize, List.drop_left]
        refine ih (fun hmem => hpad (List.mem_cons_of_mem _ hmem))
          (fun c v hmem => hwell c v (List.mem_cons_of_mem _ hmem))
          (fun v hmem => hsame v (List.mem_cons_of_mem _ hmem)) ?_
        rcases List.mem_cons.1 ht with heq | hmem
        · cases heq
          exact absurd rfl hcode
        · exact hmem

theorem lastValue_cons (o : OptItem) (os : List OptItem) (code : ℕ) :
    lastValue (o :: os) code = (lastValue os code).or
      (match o with
        | .pad => none
        | .option c value => if c.toNat = code then some value else none) := by
  rw [lastValue, List.reverse_cons, List.findSome?_append, lastValue, List.findSome?_singleton]

theorem lastItem_cons (it : Item) (items : List Item) (code : ℕ) :
    lastItem (it :: items) code =
      (lastItem items code).or (if it.code = code then some it else none) := by
  rw [lastItem, List.reverse_cons, List.find?_append, lastItem]
  by_cases hit : it.code = code <;> simp [hit]

/-- The last item with a code has the value of the last option with it in front. -/
theorem lastItem_passed (os : List OptItem) (s : List UInt8) (code : ℕ) :
    (lastValue os code = none ∧ lastItem (passed os s) code = none) ∨
      ∃ value back, lastValue os code = some value ∧
        lastItem (passed os s) code = some ⟨code, value.length, value ++ back⟩ := by
  induction os with
  | nil => exact .inl ⟨rfl, rfl⟩
  | cons o os ih =>
    match o with
    | .pad =>
      rw [lastValue_cons, Option.or_none]
      exact ih
    | .option c v =>
      rw [lastValue_cons, passed, lastItem_cons]
      rcases ih with ⟨hvalue, hitem⟩ | ⟨value, back, hvalue, hitem⟩
      · rw [hvalue, hitem, Option.none_or, Option.none_or]
        by_cases hc : c.toNat = code
        · exact .inr ⟨v, _, if_pos hc, by rw [if_pos hc, ← hc]⟩
        · exact .inl ⟨if_neg hc, if_neg hc⟩
      · rw [hvalue, hitem, Option.some_or, Option.some_or]
        exact .inr ⟨value, back, rfl, rfl⟩

theorem text_append (code maxlen : ℕ) (value back : List UInt8) (hmax : 0 < maxlen) :
    Item.text ⟨code, value.length, value ++ back⟩ maxlen = value.take (maxlen-1) := by
  show (value ++ back).take (truncateSz maxlen value.length) = _
  rw [truncateSz]
  split
  · exact List.take_append_of_le_length (by omega)
  · rw [List.take_left, List.take_of_length_le (by omega)]

theorem mem_passed (os : List OptItem) (s : List UInt8) (it : Item) (h : it ∈ passed os s) :
    ∃ code value back, .option code value ∈ os ∧
      it = ⟨code.toNat, value.length, value ++ back⟩ := by
  induction os with
  | nil => exact absurd h List.not_mem_nil
  | cons o os ih =>
    match o with
    | .pad =>
      obtain ⟨code, value, back, hmem, hit⟩ := ih h
      exact ⟨code, value, back, List.mem_cons_of_mem _ hmem, hit⟩
    | .option c v =>
      rcases List.mem_cons.1 h with hit | h
      · exact ⟨c, v, _, List.mem_cons_self, hit⟩
      · obtain ⟨code, value, back, hmem, hit⟩ := ih h
        exact ⟨code, value, back, List.mem_cons_of_mem _ hmem, hit⟩

theorem find_constant (l : List (List UInt8)) (s : List UInt8) (hne : l ≠ [])
    (h : ∀ t ∈ l, t = s) : (l.find? (· ≠ [])).getD [] = s := by
  obtain ⟨n, rfl⟩ : ∃ n, l = List.replicate n s :=
    ⟨l.length, List.eq_replicate_of_mem h⟩
  cases n with
  | zero => exact absurd rfl hne
  | succ n =>
    by_cases hs : s = []
    · simp [hs]
    · simp [hs]

/-- The boot file of a list that has no two different ones. -/
theorem bootFileText_passed (os : List OptItem) (s value : List UInt8)
    (hsame : ∀ v, .option 67 v ∈ os → v = value) (hvalue : lastValue os 67 = some value) :
    bootFileText (passed os s) = cstr (value.take (bpFileSize-1)) := by
  refine find_constant _ _ ?_ fun t ht => ?_
  · rcases lastItem_passed os s 67 with ⟨hnone, -⟩ | ⟨_, _, -, hitem⟩
    · rw [hvalue] at hnone
      exact absurd hnone (by simp)
    · have hmem := List.mem_reverse.1 (List.mem_of_find?_eq_some hitem)
      rw [ne_eq, List.map_eq_nil_iff]
      exact List.ne_nil_of_mem (List.mem_filter.2 ⟨hmem, rfl⟩)
  · obtain ⟨it, hit, rfl⟩ := List.mem_map.1 ht
    obtain ⟨hmem, hcode⟩ := List.mem_filter.1 hit
    obtain ⟨code, v, back, hoption, rfl⟩ := mem_passed os s it hmem
    obtain rfl : code = 67 := UInt8.toNat_inj.1 (beq_iff_eq.1 hcode)
    rw [hsame v hoption, text_append _ _ _ _ (by decide)]

theorem number_append (value back : List UInt8) (h : 4 ≤ value.length) :
    Dhcp.number (value ++ back) = Dhcp.number value := by
  match value with
  | a :: b :: c :: d :: rest => rfl

/-- A list of up to 548 bytes without padding is read as it stands, unless it has two boot
files. -/
theorem plain_alike (hpad : .pad ∉ a.items)
    (hlen : (a.items.flatMap OptItem.bytes).length < bootpHdrSize)
    (hfile : ∀ v v', .option 67 v ∈ a.items → .option 67 v' ∈ a.items → v = v') :
    a.ReadAlike := by
  have hvalue : ∀ code value, lastValue a.items code = some value →
      ∃ c : UInt8, c.toNat = code ∧ .option c value ∈ a.items := by
    intro code value h
    obtain ⟨o, ho, hsome⟩ := List.exists_of_findSome?_eq_some h
    match o with
    | .pad => exact absurd hsome (by simp)
    | .option c v =>
      by_cases hc : c.toNat = code
      · obtain rfl : v = value := by simpa [hc] using hsome
        exact ⟨c, hc, List.mem_reverse.1 ho⟩
      · exact absurd hsome (by simp [hc])
  refine ⟨fun t ht => typeWay_passed a.items a.rest t hpad a.wellFormed
    (fun v hv => a.sameType v [t] hv ht) ht, _,
    way_passed a.items a.rest _ _ hpad a.wellFormed hlen, fun code value h => ?_⟩
  obtain ⟨c, rfl, hmem⟩ := hvalue code value h
  obtain ⟨-, -, -, hok⟩ := a.wellFormed c value hmem
  obtain ⟨back, hitem⟩ : ∃ back, lastItem (passed a.items (255 :: a.rest)) c.toNat =
      some ⟨c.toNat, value.length, value ++ back⟩ := by
    rcases lastItem_passed a.items (255 :: a.rest) c.toNat with ⟨hnone, -⟩ | ⟨v, back, hv, hitem⟩
    · rw [h] at hnone
      exact absurd hnone (by simp)
    · obtain rfl := Option.some.inj (h.symm.trans hv)
      exact ⟨back, hitem⟩
  refine ⟨fun hcode => ⟨_, hitem, number_append value back ?_⟩,
    fun hcode => ⟨_, hitem, text_append _ _ _ _ ?_⟩, fun hcode _ => ?_⟩
  · simp only [numberCodes, List.mem_cons, List.not_mem_nil, or_false] at hcode
    rcases hcode with hc | hc | hc | hc | hc <;> rw [hc] at hok <;> simp only [lengthOk] at hok <;>
      omega
  · rw [textSize]
    split <;> omega
  · obtain rfl : c = 67 := UInt8.toNat_inj.1 hcode
    exact bootFileText_passed a.items _ value (fun v hv => hfile v value hv hmem) h

/-- What such a list says is what the functions store and return, in every state. -/
theorem plain_correct (c : Client) (hpad : .pad ∉ a.items)
    (hlen : (a.items.flatMap OptItem.bytes).length < bootpHdrSize)
    (hfile : ∀ v v', .option 67 v ∈ a.items → .option 67 v' ∈ a.items → v = v') :
    a.Correct c :=
  a.correct_iff.mpr (a.plain_alike hpad hlen hfile) c

end OptionReply

/-! ## Packets of any content -/

/-- A packet that the filter lets through; its bytes have been received. -/
structure AcceptedPacket (c : Client) extends Packet where
  accepted : bootpCheckPkt c toPacket = some 0
  received : len ≤ mem.length

namespace AcceptedPacket

variable {c : Client} (p : AcceptedPacket c)

/-- The bytes of the packet itself. -/
def bytes : List UInt8 := p.mem.take p.len

/-- On nothing but the bytes of the packet both functions have a result. The options are
processed behind the magic cookie. -/
structure ReadInside : Prop where
  type : ∃ t, dhcpMessageType p.bytes bpVend = some t
  options : longAt p.bytes bpVend = some bootpVendorMagic →
    ∃ r, dhcpOptionsProcess c p.bytes (bpVend+4) = some r

/-- The magic cookie and the ways behind it end in the packet. -/
structure EndsInside : Prop where
  magic : bpVend+4 ≤ p.bytes.length
  type : longAt p.bytes bpVend = some bootpVendorMagic →
    ∃ t, TypeWay (p.bytes.drop (bpVend+4)) t
  options : longAt p.bytes bpVend = some bootpVendorMagic →
    ∃ items, Way bootpHdrSize (fileEmpty p.bytes) (p.bytes.drop (bpVend+4)) items

theorem accepted_length : bpVend ≤ p.len := by
  have h := p.accepted
  rw [bootpCheckPkt] at h
  split at h
  · exact absurd h (by decide)
  · split at h
    · exact absurd h (by decide)
    · next hlen => exact Nat.le_of_not_lt hlen

theorem magic_isSome (m : List UInt8) :
    (∃ n, longAt m bpVend = some n) ↔ bpVend+4 ≤ m.length := by
  rw [← Option.isSome_iff_exists, show longAt m bpVend = longAt (m.drop bpVend) 0 from
    longAt_drop m bpVend 0, longAt_isSome, List.length_drop]
  omega

theorem readInside_iff : p.ReadInside ↔ p.EndsInside := by
  have hlen : 236 ≤ p.bytes.length := by
    have hle := p.accepted_length
    have hreceived := p.received
    rw [bytes, List.length_take, Nat.min_eq_left hreceived]
    exact hle
  constructor
  · rintro ⟨⟨t, ht⟩, hprocess⟩
    refine ⟨?_, fun hmagic => ⟨t, (dhcpMessageType_iff _ _ t hmagic).1 ht⟩, fun hmagic => ?_⟩
    · obtain ⟨n, hn, -⟩ := Option.bind_eq_some_iff.1 ht
      exact (magic_isSome p.bytes).1 ⟨n, hn⟩
    · obtain ⟨r, hr⟩ := hprocess hmagic
      obtain ⟨items, hway, -⟩ := (dhcpOptionsProcess_iff c p.bytes r hlen).1 hr
      exact ⟨items, hway⟩
  · rintro ⟨hmagic, hway, hprocess⟩
    refine ⟨?_, fun hvendor => ?_⟩
    · obtain ⟨n, hn⟩ := (magic_isSome p.bytes).2 hmagic
      by_cases hvendor : n = bootpVendorMagic
      · subst hvendor
        obtain ⟨t, ht⟩ := hway hn
        exact ⟨t, (dhcpMessageType_iff _ _ t hn).2 ht⟩
      · refine ⟨-1, ?_⟩
        rw [dhcpMessageType, hn, Option.bind_eq_bind, Option.bind_some, if_pos hvendor]
    · obtain ⟨items, hitems⟩ := hprocess hvendor
      exact ⟨_, (dhcpOptionsProcess_iff c p.bytes _ hlen).2 ⟨items, hitems, rfl⟩⟩

end AcceptedPacket

def plainItems : List OptItem := [.option 53 [5], .option 12 [109, 115]]

theorem plain_wellFormed (code : UInt8) (value : List UInt8) (h : .option code value ∈ plainItems) :
    code ≠ 0 ∧ code ≠ 255 ∧ value.length < 256 ∧ lengthOk code.toNat value.length := by
  simp only [plainItems, List.mem_cons, OptItem.option.injEq, List.not_mem_nil, or_false] at h
  obtain ⟨rfl, rfl⟩ | ⟨rfl, rfl⟩ := h
  · exact ⟨by decide, by decide, by decide, rfl⟩
  · exact ⟨by decide, by decide, by decide, Nat.le_succ 1⟩

theorem plain_sameType (v v' : List UInt8) (h : .option 53 v ∈ plainItems)
    (h' : .option 53 v' ∈ plainItems) : v = v' := by
  simp [plainItems] at h h'
  rw [h, h']

/-- An acknowledgement with a host name. -/
def plainReply : OptionReply where
  head := List.replicate 236 0
  items := plainItems
  rest := []
  head_length := List.length_replicate
  wellFormed := plain_wellFormed
  sameType := plain_sameType

theorem plain_correct_named : plainReply.Correct powerOn :=
  plainReply.plain_correct powerOn (by decide) (by decide) fun v v' h => by
    simp [plainReply, plainItems] at h

/-- An acknowledgement with one byte of padding in front of its type. -/
def paddedReply : OptionReply where
  head := List.replicate 236 0
  items := [.pad, .option 53 [5]]
  rest := []
  head_length := List.length_replicate
  wellFormed code value h := by
    simp only [List.mem_cons, reduceCtorEq, OptItem.option.injEq, List.not_mem_nil, or_false,
      false_or] at h
    obtain ⟨rfl, rfl⟩ := h
    exact ⟨by decide, by decide, by decide, rfl⟩
  sameType v v' h h' := by
    simp only [List.mem_cons, reduceCtorEq, OptItem.option.injEq, List.not_mem_nil, or_false,
      false_or] at h h'
    rw [h.2, h'.2]

end UBoot.Dhcp
