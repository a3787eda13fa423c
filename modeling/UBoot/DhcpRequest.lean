import UBoot.DhcpSafety
import UBoot.DhcpScan
import UBoot.Uuid

/-!
# The options of a request: `DhcpExtended` of `net/bootp.c`

The switches of a board are a configuration, and its vendor hook is one of those
in the board directories. The list is kept as the items that are written, each
with the length byte it gets. Addresses are numbers in network order, and a text
ends where its list ends.
-/

set_option autoImplicit false

namespace UBoot.DhcpRequest

open HexText LittleEndian

/-- `dhcp_vendorex_prep` of the boards that have one. -/
inductive Vendorex
  | matrixVision
  | crayL1
  deriving DecidableEq, Repr

structure Config where
  sendHostname : Bool
  /-- `CONFIG_BOOTP_PXE_CLIENTARCH`, of a board that sends its PXE options. -/
  pxeClientarch : Option UInt16
  vciString : Option (List UInt8)
  vendorex : Option Vendorex
  subnetmask : Bool
  timeoffset : Bool
  gateway : Bool
  dns : Bool
  hostname : Bool
  bootfilesize : Bool
  bootpath : Bool
  nisdomain : Bool
  ntpserver : Bool
  minExtLen : ℕ

structure Env where
  hostname : Option (List UInt8)
  pxeuuid : Option (List UInt8)
  vendorClassIdentifier : Option (List UInt8)
  clientId : Option (List UInt8)

/-! ## UUIDs: `lib/uuid.c` -/

/-- The count of characters, and whether the last one was right. -/
def uuidLoop : ℕ → List UInt8 → ℕ × Bool
  | i, [] => (i, true)
  | i, c :: uuid => if Uuid.charOk i c then uuidLoop (i+1) uuid else (i+1, false)

def uuidStrValid (uuid : List UInt8) : Bool :=
  let r := uuidLoop 0 uuid
  r.1 == 36 && r.2

def uuidStrToBin (uuid : List UInt8) : List UInt8 :=
  le 4 (Uuid.simpleStrtoul 32 16 uuid) ++ le 2 (Uuid.simpleStrtoul 32 16 (uuid.drop 9)) ++
    le 2 (Uuid.simpleStrtoul 32 16 (uuid.drop 14)) ++
    be 2 (Uuid.simpleStrtoul 32 16 (uuid.drop 19)) ++
    (be 8 (Uuid.simpleStrtoul 64 16 (uuid.drop 24))).drop 2

/-! ## Items -/

structure Item where
  code : UInt8
  size : UInt8
  value : List UInt8
  deriving DecidableEq, Repr

def Item.bytes (it : Item) : List UInt8 := it.code :: it.size :: it.value

/-- An item whose length byte is taken from `strlen`. -/
def putText (code : UInt8) (text : List UInt8) : Item := ⟨code, UInt8.ofNat text.length, text⟩

/-- What is written: the items, the end mark unless it is left out, and zeros. -/
structure Written where
  items : List Item
  ended : Bool
  pad : ℕ
  deriving DecidableEq, Repr

def magicCookie : List UInt8 := [99, 130, 83, 99]

def Written.bytes (w : Written) : List UInt8 :=
  magicCookie ++ w.items.flatMap Item.bytes ++ (if w.ended then [255] else []) ++
    List.replicate w.pad 0

def putAddress (code : UInt8) (ip : ℕ) : List Item := if ip = 0 then [] else [⟨code, 4, be 4 ip⟩]

def pxeItems (cfg : Config) (env : Env) : List Item :=
  match cfg.pxeClientarch with
  | none => []
  | some clientarch =>
    [⟨93, 2, be 2 clientarch.toNat⟩, ⟨94, 3, [1, 0, 0]⟩] ++
      match env.pxeuuid with
      | none => []
      | some uuid => if uuidStrValid uuid then [⟨97, 17, 0 :: uuidStrToBin uuid⟩] else []

/-- The options that are asked for, in the order of the source. -/
def requested (cfg : Config) : List UInt8 :=
  (if cfg.subnetmask then [1] else []) ++ (if cfg.timeoffset then [2] else []) ++
  (if cfg.gateway then [3] else []) ++ (if cfg.dns then [6] else []) ++
  (if cfg.hostname then [12] else []) ++ (if cfg.bootfilesize then [13] else []) ++
  (if cfg.bootpath then [17] else []) ++ (if cfg.nisdomain then [40] else []) ++
  (if cfg.ntpserver then [42] else [])

/-- An empty request list is backed up over. -/
def requestList (cfg : Config) : List Item :=
  if requested cfg = [] then [] else [putText 55 (requested cfg)]

/-- `Things[].dhcp_option` -/
def crayThings : List UInt8 := [3, 1, 67, 17, 12, 224, 43, 43, 43, 43, 43, 43, 43, 43]

/-- The items in front of those of the vendor. -/
def frontItems (cfg : Config) (env : Env) (messageType : ℤ) (serverID requestedIP : ℕ) :
    List Item :=
  [⟨53, 1, [UInt8.ofNat (messageType % 256).toNat]⟩, ⟨57, 2, be 2 (576-312+Dhcp.optFieldSize)⟩] ++
    putAddress 54 serverID ++ putAddress 50 requestedIP ++
    (if cfg.sendHostname then (env.hostname.map (putText 12)).toList else []) ++
    pxeItems cfg env ++ (cfg.vciString.map (putText 60)).toList

def dhcpExtended (cfg : Config) (env : Env) (messageType : ℤ) (serverID requestedIP : ℕ) :
    Written :=
  let front := frontItems cfg env messageType serverID requestedIP
  match cfg.vendorex with
  -- the hook returns where it is, and neither the list nor the end mark is written
  | some .matrixVision =>
    ⟨front ++ (env.vendorClassIdentifier.map (putText 60)).toList ++
      (env.clientId.map (putText 61)).toList, false, 0⟩
  | some .crayL1 => ⟨front ++ [putText 55 crayThings], true, 0⟩
  | none =>
    let items := front ++ requestList cfg
    ⟨items, true, cfg.minExtLen-(magicCookie.length+(items.flatMap Item.bytes).length+1)⟩

/-! ## What is claimed of a list -/

/-- Every length byte tells the bytes that follow, and the list is ended within its field. -/
structure Written.WellFormed (w : Written) : Prop where
  sizes : ∀ it ∈ w.items, it.size.toNat = it.value.length
  codes : ∀ it ∈ w.items, it.code ≠ 0 ∧ it.code ≠ 255
  ended : w.ended = true
  length : w.bytes.length ≤ Dhcp.optFieldSize

/-- A well-formed list from which the message type is read back. -/
structure Correct (cfg : Config) (env : Env) (messageType : ℤ) (serverID requestedIP : ℕ) :
    Prop where
  wellFormed : (dhcpExtended cfg env messageType serverID requestedIP).WellFormed
  readBack : Dhcp.dhcpMessageType
    (dhcpExtended cfg env messageType serverID requestedIP).bytes 0 = some messageType

/-- The bytes of a text option, if there is one. -/
def textLength (s : Option (List UInt8)) : ℕ := (s.map fun t => t.length+2).getD 0

def pxeLength (cfg : Config) (env : Env) : ℕ :=
  if cfg.pxeClientarch.isSome then 9+(if env.pxeuuid.any uuidStrValid then 19 else 0) else 0

def frontLength (cfg : Config) (env : Env) (serverID requestedIP : ℕ) : ℕ :=
  11+(if serverID = 0 then 0 else 6)+(if requestedIP = 0 then 0 else 6)+
    (if cfg.sendHostname then textLength env.hostname else 0)+pxeLength cfg env+
    textLength cfg.vciString

/-- The bytes of a list that has an end mark. -/
def listLength (cfg : Config) (env : Env) (serverID requestedIP : ℕ) : ℕ :=
  if cfg.vendorex = none then
    max cfg.minExtLen (frontLength cfg env serverID requestedIP+
      (if requested cfg = [] then 0 else (requested cfg).length+2)+1)
  else frontLength cfg env serverID requestedIP+17

structure Fits (cfg : Config) (env : Env) (messageType : ℤ) (serverID requestedIP : ℕ) :
    Prop where
  type : 0 ≤ messageType ∧ messageType < 256
  vendor : cfg.vendorex ≠ some .matrixVision
  hostname : cfg.sendHostname = true → ∀ s, env.hostname = some s → s.length < 256
  vciString : ∀ s, cfg.vciString = some s → s.length < 256
  length : listLength cfg env serverID requestedIP ≤ Dhcp.optFieldSize

/-! ## UUIDs -/

theorem uuidLoop_eq (i : ℕ) (uuid : List UInt8) :
    uuidLoop i uuid = (i+uuid.length, true) ∧ Uuid.Right i uuid ∨
      (uuidLoop i uuid).2 = false ∧ ¬Uuid.Right i uuid := by
  induction uuid generalizing i with
  | nil => exact .inl ⟨rfl, fun j hj => absurd hj (Nat.not_lt_zero j)⟩
  | cons c uuid ih =>
    rw [uuidLoop, Uuid.right_cons]
    by_cases hc : Uuid.charOk i c = true
    · rw [if_pos hc]
      rcases ih (i+1) with ⟨hloop, hright⟩ | ⟨hloop, hright⟩
      · refine .inl ⟨?_, hc, hright⟩
        rw [hloop, List.length_cons, Nat.add_right_comm, Nat.add_assoc]
      · exact .inr ⟨hloop, fun h => hright h.2⟩
    · rw [if_neg hc]
      exact .inr ⟨rfl, fun h => hc h.1⟩

/-- The texts that are valid are those of five groups, which `string_uuid` reads. -/
theorem uuidStrValid_iff (uuid : List UInt8) :
    uuidStrValid uuid = true ↔ ∃ g : Uuid.Groups, g.text = uuid := by
  rw [← Uuid.groups_iff, uuidStrValid]
  rcases uuidLoop_eq 0 uuid with ⟨hloop, hright⟩ | ⟨hloop, hright⟩
  · simp [hloop, hright]
  · simp [hloop, hright]

/-- They are turned into the same bytes. -/
theorem uuidStrToBin_text (g : Uuid.Groups) : uuidStrToBin g.text = g.guid.b := by
  obtain ⟨hb, hc, hd, he⟩ := Uuid.text_drop g
  have ha : Uuid.simpleStrtoul 32 16 g.text = value g.a :=
    Uuid.simpleStrtoul_group 32 _ _ g.digits_a (by rw [g.length_a]) (by simp)
  rw [uuidStrToBin, ha, hb, hc, hd, he]
  rw [Uuid.simpleStrtoul_group 32 _ _ g.digits_b (by rw [g.length_b]; decide) (by simp),
    Uuid.simpleStrtoul_group 32 _ _ g.digits_c (by rw [g.length_c]; decide) (by simp),
    Uuid.simpleStrtoul_group 32 _ _ g.digits_d (by rw [g.length_d]; decide) (by simp),
    ← List.append_nil g.e,
    Uuid.simpleStrtoul_group 64 _ _ g.digits_e (by rw [g.length_e]; decide) (by simp)]
  simp only [Uuid.Groups.guid, Uuid.Groups.bytes, be, List.reverse_reverse, List.append_assoc]
  rfl

theorem length_uuidStrToBin (uuid : List UInt8) : (uuidStrToBin uuid).length = 16 := by
  simp [uuidStrToBin]

/-! ## Lengths -/

def itemsLength (items : List Item) : ℕ := (items.flatMap Item.bytes).length

theorem itemsLength_append (items items' : List Item) :
    itemsLength (items ++ items') = itemsLength items+itemsLength items' := by
  rw [itemsLength, List.flatMap_append, List.length_append]
  rfl

theorem itemsLength_cons (it : Item) (items : List Item) :
    itemsLength (it :: items) = it.value.length+2+itemsLength items := by
  rw [itemsLength, List.flatMap_cons, List.length_append]
  rfl

theorem itemsLength_address (code : UInt8) (ip : ℕ) :
    itemsLength (putAddress code ip) = if ip = 0 then 0 else 6 := by
  rw [putAddress]
  split
  · rfl
  · rw [itemsLength_cons, length_be]
    rfl

theorem itemsLength_text (code : UInt8) (s : Option (List UInt8)) :
    itemsLength (s.map (putText code)).toList = textLength s := by
  cases s with
  | none => rfl
  | some t =>
    rw [Option.map_some, Option.toList_some, itemsLength_cons]
    rfl

theorem itemsLength_pxe (cfg : Config) (env : Env) :
    itemsLength (pxeItems cfg env) = pxeLength cfg env := by
  rw [pxeItems, pxeLength]
  cases cfg.pxeClientarch with
  | none => rfl
  | some clientarch =>
    dsimp only
    rw [if_pos Option.isSome_some, itemsLength_append, itemsLength_cons, itemsLength_cons,
      length_be]
    cases env.pxeuuid with
    | none => rfl
    | some uuid =>
      dsimp only
      rw [Option.any_some]
      split
      · have hbin : (0 :: uuidStrToBin uuid).length = 17 := by
          rw [List.length_cons, length_uuidStrToBin]
        rw [itemsLength_cons, hbin]
        rfl
      · rfl

theorem itemsLength_front (cfg : Config) (env : Env) (messageType : ℤ)
    (serverID requestedIP : ℕ) :
    itemsLength (frontItems cfg env messageType serverID requestedIP)+4 =
      frontLength cfg env serverID requestedIP := by
  have hhost : itemsLength (if cfg.sendHostname then (env.hostname.map (putText 12)).toList else [])
      = if cfg.sendHostname then textLength env.hostname else 0 := by
    split
    · exact itemsLength_text 12 _
    · rfl
  simp only [frontItems, frontLength, itemsLength_append, itemsLength_address, itemsLength_text,
    itemsLength_pxe, hhost, itemsLength_cons, length_be, List.length_cons, List.length_nil]
  simp only [itemsLength, List.flatMap_nil, List.length_nil]
  omega

theorem itemsLength_requests (cfg : Config) :
    itemsLength (requestList cfg) =
      if requested cfg = [] then 0 else (requested cfg).length+2 := by
  rw [requestList]
  split
  · rfl
  · rw [itemsLength_cons]
    rfl

theorem Written.length_bytes (w : Written) :
    w.bytes.length = 4+itemsLength w.items+(if w.ended then 1 else 0)+w.pad := by
  rw [Written.bytes, List.length_append, List.length_append, List.length_append,
    List.length_replicate, itemsLength]
  cases w.ended <;> rfl

/-- The length of a list that has an end mark. -/
theorem length_dhcpExtended (cfg : Config) (env : Env) (messageType : ℤ)
    (serverID requestedIP : ℕ) (hvendor : cfg.vendorex ≠ some .matrixVision) :
    (dhcpExtended cfg env messageType serverID requestedIP).bytes.length =
      listLength cfg env serverID requestedIP := by
  have hfront := itemsLength_front cfg env messageType serverID requestedIP
  rw [Written.length_bytes, dhcpExtended, listLength]
  match hv : cfg.vendorex with
  | some .matrixVision => exact absurd hv hvendor
  | some .crayL1 =>
    simp only [reduceCtorEq, if_true, if_false, itemsLength_append, itemsLength_cons]
    have hthings : (putText 55 crayThings).value.length = 14 := rfl
    have hnil : itemsLength [] = 0 := rfl
    omega
  | none =>
    have hmagic : magicCookie.length = 4 := rfl
    have hitems : ((frontItems cfg env messageType serverID requestedIP ++
        requestList cfg).flatMap Item.bytes).length =
          itemsLength (frontItems cfg env messageType serverID requestedIP) +
            itemsLength (requestList cfg) := itemsLength_append _ _
    simp only [if_true, ← itemsLength_requests, hmagic, hitems, itemsLength_append]
    omega

/-! ## Length bytes and types -/

def Sized (items : List Item) : Prop := ∀ it ∈ items, it.size.toNat = it.value.length

def Typed (items : List Item) : Prop := ∀ it ∈ items, it.code ≠ 0 ∧ it.code ≠ 255

theorem sized_append (items items' : List Item) :
    Sized (items ++ items') ↔ Sized items ∧ Sized items' := List.forall_mem_append

theorem typed_append (items items' : List Item) :
    Typed (items ++ items') ↔ Typed items ∧ Typed items' := List.forall_mem_append

theorem sized_nil : Sized [] := List.forall_mem_nil _

theorem typed_nil : Typed [] := List.forall_mem_nil _

theorem sized_singleton (it : Item) : Sized [it] ↔ it.size.toNat = it.value.length :=
  List.forall_mem_singleton

theorem typed_singleton (it : Item) : Typed [it] ↔ it.code ≠ 0 ∧ it.code ≠ 255 :=
  List.forall_mem_singleton

/-- A length fits into its byte. -/
theorem sized_text (code : UInt8) (s : Option (List UInt8)) :
    Sized (s.map (putText code)).toList ↔ ∀ t, s = some t → t.length < 256 := by
  cases s with
  | none => simp [sized_nil]
  | some t =>
    simp only [Option.map_some, Option.toList_some, sized_singleton, putText,
      Option.some.injEq, forall_eq', UInt8.toNat_ofNat']
    omega

theorem typed_text (code : UInt8) (s : Option (List UInt8)) (h : code ≠ 0 ∧ code ≠ 255) :
    Typed (s.map (putText code)).toList := by
  cases s with
  | none => exact typed_nil
  | some t => exact (typed_singleton _).2 h

theorem address_ok (code : UInt8) (ip : ℕ) (h : code ≠ 0 ∧ code ≠ 255) :
    Sized (putAddress code ip) ∧ Typed (putAddress code ip) := by
  rw [putAddress]
  split
  · exact ⟨sized_nil, typed_nil⟩
  · constructor
    · exact (sized_singleton _).2 (length_be 4 ip).symm
    · exact (typed_singleton _).2 h

theorem pxe_ok (cfg : Config) (env : Env) :
    Sized (pxeItems cfg env) ∧ Typed (pxeItems cfg env) := by
  rw [pxeItems]
  split
  · exact ⟨sized_nil, typed_nil⟩
  · rw [sized_append, typed_append]
    refine ⟨⟨?_, ?_⟩, ⟨?_, ?_⟩⟩
    · simp [Sized]
    · split
      · simp [Sized]
      · split
        · simp [Sized, length_uuidStrToBin]
        · simp [Sized]
    · simp [Typed]
    · split
      · simp [Typed]
      · split <;> simp [Typed]

theorem requested_length (cfg : Config) : (requested cfg).length ≤ 9 := by
  have hone : ∀ (b : Bool) (c : UInt8), (if b then [c] else []).length ≤ 1 := by
    intro b c
    cases b <;> simp
  simp only [requested, List.length_append]
  have h1 := hone cfg.subnetmask 1
  have h2 := hone cfg.timeoffset 2
  have h3 := hone cfg.gateway 3
  have h4 := hone cfg.dns 6
  have h5 := hone cfg.hostname 12
  have h6 := hone cfg.bootfilesize 13
  have h7 := hone cfg.bootpath 17
  have h8 := hone cfg.nisdomain 40
  have h9 := hone cfg.ntpserver 42
  omega

theorem requests_ok (cfg : Config) : Sized (requestList cfg) ∧ Typed (requestList cfg) := by
  have hlen := requested_length cfg
  rw [requestList]
  split
  · exact ⟨sized_nil, typed_nil⟩
  · constructor
    · rw [sized_singleton, putText, UInt8.toNat_ofNat', Nat.mod_eq_of_lt (by omega)]
    · exact (typed_singleton _).2 (by decide : (55 : UInt8) ≠ 0 ∧ (55 : UInt8) ≠ 255)

theorem sized_front (cfg : Config) (env : Env) (messageType : ℤ) (serverID requestedIP : ℕ) :
    Sized (frontItems cfg env messageType serverID requestedIP) ↔
      (cfg.sendHostname = true → ∀ s, env.hostname = some s → s.length < 256) ∧
        ∀ s, cfg.vciString = some s → s.length < 256 := by
  have hfixed : Sized [⟨53, 1, [UInt8.ofNat (messageType % 256).toNat]⟩,
      ⟨57, 2, be 2 (576-312+Dhcp.optFieldSize)⟩] := by simp [Sized]
  have hhost : Sized (if cfg.sendHostname then (env.hostname.map (putText 12)).toList else []) ↔
      (cfg.sendHostname = true → ∀ s, env.hostname = some s → s.length < 256) := by
    split
    · next hsend =>
      rw [sized_text]
      exact ⟨fun h _ => h, fun h => h hsend⟩
    · next hsend => simp [Sized, hsend]
  simp only [frontItems, sized_append, hfixed, hhost, sized_text, (address_ok 54 serverID
    (by decide)).1, (address_ok 50 requestedIP (by decide)).1, (pxe_ok cfg env).1, true_and,
    and_true]

theorem typed_front (cfg : Config) (env : Env) (messageType : ℤ) (serverID requestedIP : ℕ) :
    Typed (frontItems cfg env messageType serverID requestedIP) := by
  have hhost : Typed (if cfg.sendHostname then (env.hostname.map (putText 12)).toList else []) := by
    split
    · exact typed_text 12 _ (by decide)
    · exact typed_nil
  simp only [frontItems, typed_append]
  refine ⟨⟨⟨⟨⟨?_, (address_ok 54 serverID (by decide)).2⟩, (address_ok 50 requestedIP
    (by decide)).2⟩, hhost⟩, (pxe_ok cfg env).2⟩, typed_text 60 _ (by decide)⟩
  simp [Typed]

/-! ## The message type -/

theorem byte_type (messageType : ℤ) :
    ((UInt8.ofNat (messageType % 256).toNat).toNat : ℤ) = messageType ↔
      0 ≤ messageType ∧ messageType < 256 := by
  rw [UInt8.toNat_ofNat']
  omega

/-- The message type is the first item, so it is read back from every list. -/
theorem readBack (cfg : Config) (env : Env) (messageType : ℤ) (serverID requestedIP : ℕ) :
    Dhcp.dhcpMessageType (dhcpExtended cfg env messageType serverID requestedIP).bytes 0 =
      some ((UInt8.ofNat (messageType % 256).toNat).toNat : ℤ) := by
  obtain ⟨items, hitems⟩ : ∃ items, (dhcpExtended cfg env messageType serverID requestedIP).items =
      ⟨53, 1, [UInt8.ofNat (messageType % 256).toNat]⟩ :: items := by
    rw [dhcpExtended]
    split <;> exact ⟨_, rfl⟩
  obtain ⟨rest, hrest⟩ : ∃ rest, (dhcpExtended cfg env messageType serverID requestedIP).bytes =
      99 :: 130 :: 83 :: 99 :: 53 :: 1 :: UInt8.ofNat (messageType % 256).toNat :: rest := by
    rw [Written.bytes, hitems]
    exact ⟨_, rfl⟩
  rw [hrest, Dhcp.dhcpMessageType_iff _ 0 _ rfl]
  exact .type 1 _ rest

/-! ## The list -/

/-- A list that has an end mark is the front and a vendor part, of which the sizes and codes are
right. -/
theorem dhcpExtended_ended (cfg : Config) (env : Env) (messageType : ℤ)
    (serverID requestedIP : ℕ) (hvendor : cfg.vendorex ≠ some .matrixVision) :
    ∃ back pad, Sized back ∧ Typed back ∧ dhcpExtended cfg env messageType serverID requestedIP =
      ⟨frontItems cfg env messageType serverID requestedIP ++ back, true, pad⟩ := by
  rw [dhcpExtended]
  split
  · next hv => exact absurd hv hvendor
  · exact ⟨_, _, (sized_singleton _).2 (by decide), (typed_singleton _).2 (by decide), rfl⟩
  · exact ⟨_, _, (requests_ok cfg).1, (requests_ok cfg).2, rfl⟩

theorem fits_of_correct (cfg : Config) (env : Env) (messageType : ℤ) (serverID requestedIP : ℕ)
    (h : Correct cfg env messageType serverID requestedIP) :
    Fits cfg env messageType serverID requestedIP := by
  obtain ⟨⟨hsizes, -, hended, hlength⟩, hback⟩ := h
  have hvendor : cfg.vendorex ≠ some .matrixVision := by
    intro hv
    simp [dhcpExtended, hv] at hended
  have hfront : Sized (frontItems cfg env messageType serverID requestedIP) := by
    obtain ⟨back, pad, -, -, hw⟩ := dhcpExtended_ended cfg env messageType serverID requestedIP
      hvendor
    rw [hw] at hsizes
    exact ((sized_append _ _).1 hsizes).1
  obtain ⟨hhost, hvci⟩ := (sized_front cfg env messageType serverID requestedIP).1 hfront
  rw [length_dhcpExtended _ _ _ _ _ hvendor] at hlength
  rw [readBack, Option.some.injEq, byte_type] at hback
  exact ⟨hback, hvendor, hhost, hvci, hlength⟩

theorem correct_of_fits (cfg : Config) (env : Env) (messageType : ℤ) (serverID requestedIP : ℕ)
    (h : Fits cfg env messageType serverID requestedIP) :
    Correct cfg env messageType serverID requestedIP := by
  obtain ⟨htype, hvendor, hhost, hvci, hlength⟩ := h
  have hfront := (sized_front cfg env messageType serverID requestedIP).2 ⟨hhost, hvci⟩
  have htyped := typed_front cfg env messageType serverID requestedIP
  obtain ⟨back, pad, hsback, htback, hw⟩ := dhcpExtended_ended cfg env messageType serverID
    requestedIP hvendor
  refine ⟨⟨?_, ?_, ?_, ?_⟩, ?_⟩
  · rw [hw]
    exact (sized_append _ _).2 ⟨hfront, hsback⟩
  · rw [hw]
    exact (typed_append _ _).2 ⟨htyped, htback⟩
  · rw [hw]
  · rw [length_dhcpExtended _ _ _ _ _ hvendor]
    exact hlength
  · rw [readBack, Option.some.injEq, byte_type]
    exact htype

/-- A list is correct where its texts fit into a length byte and all of it into its field. -/
theorem correct_iff_fits (cfg : Config) (env : Env) (messageType : ℤ)
    (serverID requestedIP : ℕ) :
    Correct cfg env messageType serverID requestedIP ↔
      Fits cfg env messageType serverID requestedIP :=
  ⟨fits_of_correct cfg env messageType serverID requestedIP,
    correct_of_fits cfg env messageType serverID requestedIP⟩

/-- A board that sends its host name, and a name of 256 bytes. -/
def hostBoard : Config :=
  { sendHostname := true, pxeClientarch := none, vciString := none, vendorex := none,
    subnetmask := true, timeoffset := false, gateway := true, dns := true, hostname := true,
    bootfilesize := true, bootpath := true, nisdomain := false, ntpserver := false,
    minExtLen := 64 }

def longHost : Env :=
  { hostname := some (List.replicate 256 97), pxeuuid := none, vendorClassIdentifier := none,
    clientId := none }

theorem long_host_wraps : ¬Correct hostBoard longHost 1 0 0 := by
  intro h
  have hlen := (fits_of_correct _ _ _ _ _ h).hostname rfl (List.replicate 256 97) rfl
  rw [List.length_replicate] at hlen
  exact absurd hlen (by decide)

/-! ## Reading the list -/

theorem optionList_items (items : List Item) (rest : List UInt8) (turns : ℕ)
    (hsized : Sized items) (htyped : Typed items) (hturns : items.length < turns) :
    Dhcp.optionList turns (items.flatMap Item.bytes ++ 255 :: rest) =
      items.map fun it => (it.code.toNat, it.value) := by
  induction items generalizing turns with
  | nil =>
    obtain ⟨n, rfl⟩ := Nat.exists_eq_add_of_lt hturns
    rfl
  | cons it items ih =>
    obtain ⟨n, rfl⟩ := Nat.exists_eq_add_of_lt hturns
    obtain ⟨hzero, hend⟩ := htyped it List.mem_cons_self
    have hsize := hsized it List.mem_cons_self
    have hrest := ih ((it :: items).length+n) (fun i hi => hsized i (List.mem_cons_of_mem _ hi))
      (fun i hi => htyped i (List.mem_cons_of_mem _ hi)) (by rw [List.length_cons]; omega)
    rw [List.flatMap_cons, Item.bytes, List.append_assoc, List.cons_append, List.cons_append,
      Dhcp.optionList]
    rw [if_neg hzero, if_neg hend, hsize, List.length_append, if_pos (Nat.le_add_right _ _),
      List.take_left, List.drop_left, hrest]
    rfl

/-- From a list that fits every option is read as it was written. -/
theorem options_read (cfg : Config) (env : Env) (messageType : ℤ) (serverID requestedIP : ℕ)
    (h : Fits cfg env messageType serverID requestedIP) :
    let w := dhcpExtended cfg env messageType serverID requestedIP
    Dhcp.optionList w.bytes.length (w.bytes.drop magicCookie.length) =
      w.items.map fun it => (it.code.toNat, it.value) := by
  intro w
  obtain ⟨⟨hsized, htyped, hended, -⟩, -⟩ := correct_of_fits _ _ _ _ _ h
  have hlength := w.length_bytes
  have hitems : w.items.length ≤ itemsLength w.items := by
    induction w.items with
    | nil => exact Nat.zero_le _
    | cons it items ih =>
      rw [itemsLength_cons, List.length_cons]
      omega
  have hdrop : w.bytes.drop magicCookie.length =
      w.items.flatMap Item.bytes ++ 255 :: List.replicate w.pad 0 := by
    rw [Written.bytes, show w.ended = true from hended, if_pos rfl, List.append_assoc,
      List.append_assoc, List.drop_left]
    rfl
  rw [hdrop, optionList_items w.items _ _ hsized htyped (by omega)]

/-- A discovery of the board that sends its host name. -/
theorem options_read_discover :
    let w := dhcpExtended hostBoard { longHost with hostname := some [109, 115] } 1 0 0
    Dhcp.optionList w.bytes.length (w.bytes.drop magicCookie.length) =
      w.items.map fun it => (it.code.toNat, it.value) :=
  options_read hostBoard { longHost with hostname := some [109, 115] } 1 0 0
    { type := by decide
      vendor := by decide
      hostname := fun _ s hs => by cases hs; decide
      vciString := fun s hs => by cases hs
      length := by decide }

/-- The three readers of a UUID take the same texts for the same bytes. -/
theorem uuid_readers_agree (s : List UInt8) :
    (uuidStrValid s = true ↔ (Uuid.stringUuid s).isSome) ∧
      Gpt.stringUuid s = (Uuid.stringUuid s).map Uuid.Guid.b ∧
      ∀ g, Uuid.stringUuid s = some g → uuidStrToBin s = g.b := by
  refine ⟨?_, Uuid.gpt_stringUuid s, fun g hg => ?_⟩
  · rw [uuidStrValid_iff]
    constructor
    · rintro ⟨g, rfl⟩
      rw [Uuid.stringUuid_text, Option.isSome_some]
    · intro h
      obtain ⟨u, hu⟩ := Option.isSome_iff_exists.mp h
      obtain ⟨g, hg, -⟩ := Uuid.stringUuid_some s u hu
      exact ⟨g, hg⟩
  · obtain ⟨groups, rfl, rfl⟩ := Uuid.stringUuid_some s g hg
    exact uuidStrToBin_text groups

end UBoot.DhcpRequest
