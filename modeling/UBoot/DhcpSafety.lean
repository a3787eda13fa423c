import UBoot.Dhcp

/-!
# What the DHCP client is bound by

A run is recorded step by step. An offer, an acknowledgement and the server of
a message are read as the options are defined: one byte of padding, an end
mark, and nothing behind the length of the packet. The handler looks at the
type of a message only where it waits for an acknowledgement, and never at its
server.
-/

set_option autoImplicit false

namespace UBoot.Dhcp

/-! ## Messages -/

@[grind]
def optionList : ℕ → List UInt8 → List (ℕ × List UInt8)
  | 0, _ => []
  | turns+1, s => match s with
    | [] => []
    | code :: rest =>
      if code = 0 then optionList turns rest
      else if code = 255 then []
      else match rest with
        | [] => []
        | size :: rest =>
          if size.toNat ≤ rest.length then
            (code.toNat, rest.take size.toNat) :: optionList turns (rest.drop size.toNat)
          else []

def vendorOptions (p : Packet) : List (ℕ × List UInt8) :=
  let m := p.mem.take p.len
  if longAt m bpVend = some bootpVendorMagic then optionList m.length (m.drop (bpVend+4)) else []

def optionValue (p : Packet) (code : ℕ) : Option (List UInt8) :=
  ((vendorOptions p).find? (·.1 = code)).map (·.2)

/-- A reply of a server of the given type. -/
def IsReply (p : Packet) (type : ℕ) : Prop :=
  bpOp p.mem = some opBootReply ∧ (optionValue p 53).bind (byteAt · 0) = some type

def Offer (p : Packet) : Prop := IsReply p dhcpOffer

def Ack (p : Packet) : Prop := IsReply p dhcpAck

def FromServer (p : Packet) (ip : ℕ) : Prop := (optionValue p 54).bind (longAt · 0) = some ip

instance (p : Packet) (type : ℕ) : Decidable (IsReply p type) :=
  inferInstanceAs (Decidable (_ ∧ _))

instance (p : Packet) : Decidable (Offer p) := inferInstanceAs (Decidable (IsReply p dhcpOffer))

instance (p : Packet) : Decidable (Ack p) := inferInstanceAs (Decidable (IsReply p dhcpAck))

instance (p : Packet) (ip : ℕ) : Decidable (FromServer p ip) :=
  inferInstanceAs (Decidable (_ = _))

/-! ## Runs -/

structure Record where
  before : Client
  event : Event
  sent : List Sent
  after : Client

/-- What has happened since the power came on, and the client as it is now. -/
inductive Run (bootfilePrefix : Option (List UInt8)) : List Record → Client → Prop where
  | powerOn : Run bootfilePrefix [] powerOn
  | step (past : List Record) (c : Client) (w : Surroundings) (e : Event) (sent : List Sent)
      (c' : Client) (hrun : Run bootfilePrefix past c)
      (hstep : step bootfilePrefix w c e = some (c', sent)) :
      Run bootfilePrefix (past ++ [⟨c, e, sent, c'⟩]) c'

def Quiet (past : List Record) : Prop := ∀ r ∈ past, r.sent = []

/-- The transaction `id` was begun, and nothing has been sent since. -/
def Discovered (past : List Record) (id : ℕ) : Prop :=
  ∃ (begun : List Record) (d : Record) (since : List Record), past = begun ++ d :: since ∧
    d.sent = [⟨dhcpDiscover, id, 0, 0⟩] ∧ Quiet since

/-- In the transaction `id` a request to `server` has answered an offer, and nothing has
been sent since. -/
def Requested (past : List Record) (id server : ℕ) : Prop :=
  ∃ (begun : List Record) (o : Record) (since : List Record) (p : Packet) (ip : ℕ),
    past = begun ++ o :: since ∧ Discovered begun id ∧ o.event = .packet p ∧ Offer p ∧
      bpId p.mem = some id ∧ bpYiaddr p.mem = some ip ∧
      o.sent = [⟨dhcpRequest, id, server, ip⟩] ∧ Quiet since

/-- The client is bound by an acknowledgement of the server it requested, in the same
transaction, and has its address. -/
def BoundByAck (past : List Record) (r : Record) : Prop :=
  r.before.dhcpState ≠ .bound → r.after.dhcpState = .bound →
    ∃ (p : Packet) (id server : ℕ), r.event = .packet p ∧ Requested past id server ∧ Ack p ∧
      bpId p.mem = some id ∧ FromServer p server ∧ bpYiaddr p.mem = some r.after.netOurIP

/-- No other message than an offer ends the selection. -/
def SelectsOffers (r : Record) : Prop :=
  ∀ p : Packet, r.event = .packet p → r.before.dhcpState = .selecting → ¬ Offer p →
    r.after.dhcpState = .selecting

def SafeRun (past : List Record) : Prop :=
  ∀ (before : List Record) (r : Record) (behind : List Record), past = before ++ r :: behind →
    BoundByAck before r ∧ SelectsOffers r

/-- The packet gets through the filter of the handler. -/
def Accepted (c : Client) (p : Packet) : Prop :=
  c.looping = true ∧ c.udpHandler = .dhcpHandler ∧ bootpCheckPkt c p = some 0

/-- The packet that is taken for an offer is one, and the one that is taken for the
acknowledgement is one of the server that was asked. -/
def Proper (bootfilePrefix : Option (List UInt8)) (c : Client) (e : Event) : Prop :=
  ∀ p : Packet, e = .packet p → Accepted c p →
    (c.dhcpState = .selecting → prefixed bootfilePrefix p.mem = some true → Offer p) ∧
    (c.dhcpState = .requesting → dhcpMessageType p.mem bpVend = some (Int.ofNat dhcpAck) →
      Ack p ∧ FromServer p c.netDHCPServerIP)

/-! ## Options leave the head of the message alone -/

theorem longAt_writeAt (m s : List UInt8) (i j : ℕ) (hi : i+3 < j) (hj : j ≤ m.length) :
    longAt (writeAt m j s) i = longAt m i := by
  have hbyte : ∀ k : ℕ, k < j → byteAt (writeAt m j s) k = byteAt m k := by
    intro k hk
    have htake : k < (m.take j).length := by
      rw [List.length_take]
      omega
    rw [byteAt, byteAt, writeAt, List.append_assoc, List.getElem?_append_left htake,
      List.getElem?_take_of_lt hk]
  rw [longAt, longAt, hbyte i (by omega), hbyte (i+1) (by omega), hbyte (i+2) (by omega),
    hbyte (i+3) hi]

/-- The options change neither the state nor the transaction nor the head of the packet. -/
structure Keeps (c : Client) (m : List UInt8) (r : Client × List UInt8) : Prop where
  dhcpState : r.1.dhcpState = c.dhcpState
  bootpID : r.1.bootpID = c.bootpID
  head : ∀ i : ℕ, i+3 < bpFile → longAt r.2 i = longAt m i

theorem Keeps.refl (c : Client) (m : List UInt8) : Keeps c m (c, m) := ⟨rfl, rfl, fun _ _ => rfl⟩

theorem Keeps.trans (c : Client) (m : List UInt8) (r s : Client × List UInt8)
    (hr : Keeps c m r) (hs : Keeps r.1 r.2 s) : Keeps c m s :=
  ⟨hs.dhcpState.trans hr.dhcpState, hs.bootpID.trans hr.bootpID,
    fun i hi => (hs.head i hi).trans (hr.head i hi)⟩

theorem keeps_map {α : Type} (x : Option α) (c : Client) (m : List UInt8) (f : α → Client)
    (r : Client × List UInt8) (h : x.map (fun a => (f a, m)) = some r)
    (hf : ∀ a : α, (f a).dhcpState = c.dhcpState ∧ (f a).bootpID = c.bootpID) : Keeps c m r := by
  obtain ⟨a, _, rfl⟩ := Option.map_eq_some_iff.mp h
  exact ⟨(hf a).1, (hf a).2, fun _ _ => rfl⟩

theorem byteAt_lt (m : List UInt8) (i v : ℕ) (h : byteAt m i = some v) : i < m.length := by
  obtain ⟨b, hb, _⟩ := Option.map_eq_some_iff.mp h
  exact (List.getElem?_eq_some_iff.mp hb).1

theorem dhcpOption_keeps (c : Client) (m : List UInt8) (popt code oplen : ℕ)
    (r : Client × List UInt8) (h : dhcpOption c m popt code oplen = some r) : Keeps c m r := by
  unfold dhcpOption at h
  split at h
  case h_8 =>
    obtain ⟨first, hfirst, h⟩ := Option.bind_eq_some_iff.mp h
    split at h
    · obtain ⟨s, _, h⟩ := Option.bind_eq_some_iff.mp h
      cases h
      exact ⟨rfl, rfl, fun i hi => longAt_writeAt m _ i _ hi (Nat.le_of_lt (byteAt_lt _ _ _ hfirst))⟩
    · cases h
      exact Keeps.refl c m
  case h_9 =>
    cases h
    exact Keeps.refl c m
  all_goals exact keeps_map _ c m _ r h fun _ => ⟨rfl, rfl⟩

theorem dhcpOptionsLoop_keeps (stop turns : ℕ) (c : Client) (m : List UInt8) (popt : ℕ)
    (r : Client × List UInt8) (h : dhcpOptionsLoop stop turns c m popt = some r) :
    Keeps c m r := by
  induction turns generalizing c m popt with
  | zero =>
    cases h
    exact Keeps.refl c m
  | succ turns ih =>
    rw [dhcpOptionsLoop] at h
    split at h
    · obtain ⟨code, _, h⟩ := Option.bind_eq_some_iff.mp h
      split at h
      · cases h
        exact Keeps.refl c m
      · obtain ⟨oplen, _, h⟩ := Option.bind_eq_some_iff.mp h
        obtain ⟨s, hs, h⟩ := Option.bind_eq_some_iff.mp h
        exact Keeps.trans c m s r (dhcpOption_keeps c m popt code oplen s hs) (ih _ _ _ h)
    · cases h
      exact Keeps.refl c m

theorem dhcpVendor_keeps (c : Client) (m : List UInt8) (r : Client × List UInt8)
    (h : dhcpVendor c m = some r) : Keeps c m r := by
  obtain ⟨magic, _, h⟩ := Option.bind_eq_some_iff.mp h
  split at h
  · exact dhcpOptionsLoop_keeps _ _ c m _ r h
  · cases h
    exact Keeps.refl c m

theorem bootpCheckPkt_id (c : Client) (p : Packet) (h : bootpCheckPkt c p = some 0) :
    bpId p.mem = some c.bootpID := by
  unfold bootpCheckPkt at h
  split at h
  · cases h
  · split at h
    · cases h
    · obtain ⟨op, _, h⟩ := Option.bind_eq_some_iff.mp h
      split at h
      · cases h
      · obtain ⟨htype, _, h⟩ := Option.bind_eq_some_iff.mp h
        split at h
        · cases h
        · obtain ⟨hlen, _, h⟩ := Option.bind_eq_some_iff.mp h
          split at h
          · cases h
          · obtain ⟨id, hid, h⟩ := Option.bind_eq_some_iff.mp h
            split at h
            · cases h
            · rename_i heq
              rw [hid, not_not.mp heq]

/-! ## What a step can do -/

/-- The state, the transaction and the server stay, and nothing is sent. -/
structure Stays (c c' : Client) (sent : List Sent) : Prop where
  dhcpState : c'.dhcpState = c.dhcpState
  bootpID : c'.bootpID = c.bootpID
  server : c'.netDHCPServerIP = c.netDHCPServerIP
  sent : sent = []

/-- A new transaction is begun. -/
structure Discovers (c' : Client) (sent : List Sent) : Prop where
  dhcpState : c'.dhcpState = .selecting
  sent : sent = [⟨dhcpDiscover, c'.bootpID, 0, 0⟩]

/-- A packet is taken for an offer. -/
structure Requests (bootfilePrefix : Option (List UInt8)) (c : Client) (p : Packet)
    (c' : Client) (sent : List Sent) : Prop where
  accepted : Accepted c p
  selecting : c.dhcpState = .selecting
  known : prefixed bootfilePrefix p.mem = some true
  dhcpState : c'.dhcpState = .requesting
  bootpID : c'.bootpID = c.bootpID
  sent : ∃ ip : ℕ, bpYiaddr p.mem = some ip ∧
    sent = [⟨dhcpRequest, c.bootpID, c'.netDHCPServerIP, ip⟩]

/-- A packet is taken for the acknowledgement. -/
structure Binds (c : Client) (p : Packet) (c' : Client) (sent : List Sent) : Prop where
  accepted : Accepted c p
  requesting : c.dhcpState = .requesting
  type : dhcpMessageType p.mem bpVend = some (Int.ofNat dhcpAck)
  dhcpState : c'.dhcpState = .bound
  address : bpYiaddr p.mem = some c'.netOurIP
  sent : sent = []

theorem Stays.refl (c : Client) : Stays c c [] := ⟨rfl, rfl, rfl, rfl⟩

theorem netStartAgain_stays (w : Surroundings) (c : Client) : Stays c (netStartAgain w c) [] := by
  unfold netStartAgain
  split
  · exact ⟨rfl, rfl, rfl, rfl⟩
  · dsimp only
    split
    · split <;> exact ⟨rfl, rfl, rfl, rfl⟩
    · exact ⟨rfl, rfl, rfl, rfl⟩

theorem bootpRequest_discovers (w : Surroundings) (c : Client) :
    Discovers (bootpRequest w c).1 (bootpRequest w c).2 := ⟨rfl, rfl⟩

theorem netInitLoop_stays (w : Surroundings) (c : Client) : Stays c (netInitLoop w c) [] := by
  unfold netInitLoop
  split <;> exact ⟨rfl, rfl, rfl, rfl⟩

theorem netRestart_cases (w : Surroundings) (c : Client) :
    Stays c (netRestart w c).1 (netRestart w c).2 ∨
      Discovers (netRestart w c).1 (netRestart w c).2 := by
  have hinit := netInitLoop_stays w { c with netState := .continue }
  unfold netRestart
  dsimp only
  split
  · left
    split
    · exact ⟨hinit.dhcpState, hinit.bootpID, hinit.server, rfl⟩
    · have hagain := netStartAgain_stays w (netInitLoop w { c with netState := .continue })
      exact ⟨hagain.dhcpState.trans hinit.dhcpState, hagain.bootpID.trans hinit.bootpID,
        hagain.server.trans hinit.server, rfl⟩
  · exact .inr (bootpRequest_discovers w _)

theorem runTimeHandler_cases (w : Surroundings) (c : Client) :
    Stays c (runTimeHandler w c).1 (runTimeHandler w c).2 ∨
      Discovers (runTimeHandler w c).1 (runTimeHandler w c).2 := by
  unfold runTimeHandler
  dsimp only
  split
  · exact .inl (Stays.refl c)
  · unfold bootpTimeout
    split
    · have hagain := netStartAgain_stays w { c with timeHandler := .none }
      exact .inl ⟨hagain.dhcpState, hagain.bootpID, hagain.server, rfl⟩
    · exact .inr (bootpRequest_discovers w _)
  · exact .inl ⟨rfl, rfl, rfl, rfl⟩
  · exact .inl (Stays.refl c)

theorem netTurn_cases (w : Surroundings) (c : Client) :
    Stays c (netTurn w c).1 (netTurn w c).2 ∨ Discovers (netTurn w c).1 (netTurn w c).2 := by
  unfold netTurn
  split
  · exact netRestart_cases w c
  · exact .inl ⟨rfl, rfl, rfl, rfl⟩
  · exact .inl ⟨rfl, rfl, rfl, rfl⟩
  · exact .inl (Stays.refl c)

theorem dhcpSelecting_cases (bootfilePrefix : Option (List UInt8)) (c : Client) (p : Packet)
    (c' : Client) (sent : List Sent) (ha : Accepted c p) (hc : c.dhcpState = .selecting)
    (h : dhcpSelecting bootfilePrefix c p = some (c', sent)) :
    Stays c c' sent ∨ Requests bootfilePrefix c p c' sent := by
  obtain ⟨known, hknown, h⟩ := Option.bind_eq_some_iff.mp h
  split at h
  · rename_i htrue
    obtain ⟨r, hr, h⟩ := Option.bind_eq_some_iff.mp h
    obtain ⟨request, hrequest, h⟩ := Option.bind_eq_some_iff.mp h
    obtain ⟨id, hid, hrequest⟩ := Option.bind_eq_some_iff.mp hrequest
    obtain ⟨ip, hip, hrequest⟩ := Option.bind_eq_some_iff.mp hrequest
    have hkeeps := dhcpVendor_keeps _ p.mem r hr
    have hid' : some id = some c.bootpID :=
      calc some id = longAt r.2 4 := hid.symm
        _ = longAt p.mem 4 := hkeeps.head 4 (by decide)
        _ = some c.bootpID := bootpCheckPkt_id c p ha.2.2
    cases hrequest
    cases h
    refine .inr ⟨ha, hc, by rw [hknown, htrue], hkeeps.dhcpState, hkeeps.bootpID, ip, ?_, ?_⟩
    · exact (hkeeps.head 16 (by decide)).symm.trans hip
    · rw [Option.some.inj hid']
  · cases h
    exact .inl (Stays.refl c)

theorem bootpCopyNetParams_address (c : Client) (m etSrc : List UInt8) (c' : Client)
    (h : bootpCopyNetParams c m etSrc = some c') : bpYiaddr m = some c'.netOurIP := by
  obtain ⟨siaddr, _, h⟩ := Option.bind_eq_some_iff.mp h
  obtain ⟨yiaddr, hy, h⟩ := Option.bind_eq_some_iff.mp h
  obtain ⟨file, _, h⟩ := Option.bind_eq_some_iff.mp h
  cases h
  exact hy

theorem netAutoLoad_fields (w : Surroundings) (c : Client) :
    (netAutoLoad w c).dhcpState = c.dhcpState ∧ (netAutoLoad w c).netOurIP = c.netOurIP := by
  unfold netAutoLoad
  split <;> exact ⟨rfl, rfl⟩

theorem dhcpRequesting_cases (w : Surroundings) (c : Client) (p : Packet) (c' : Client)
    (sent : List Sent) (ha : Accepted c p) (hc : c.dhcpState = .requesting)
    (h : dhcpRequesting w c p = some (c', sent)) : Stays c c' sent ∨ Binds c p c' sent := by
  obtain ⟨type, htype, h⟩ := Option.bind_eq_some_iff.mp h
  split at h
  · rename_i hack
    obtain ⟨r, hr, h⟩ := Option.bind_eq_some_iff.mp h
    obtain ⟨copied, hcopied, h⟩ := Option.bind_eq_some_iff.mp h
    have hkeeps := dhcpVendor_keeps c p.mem r hr
    have haddress := bootpCopyNetParams_address _ _ _ _ hcopied
    have hload := netAutoLoad_fields w { copied with dhcpState := .bound }
    cases h
    refine .inr ⟨ha, hc, by rw [htype, hack]; rfl, hload.1, ?_, rfl⟩
    rw [hload.2]
    exact (hkeeps.head 16 (by decide)).symm.trans haddress
  · cases h
    exact .inl (Stays.refl c)

theorem dhcpHandler_cases (bootfilePrefix : Option (List UInt8)) (w : Surroundings) (c : Client)
    (p : Packet) (c' : Client) (sent : List Sent) (hl : c.looping = true)
    (hu : c.udpHandler = .dhcpHandler)
    (h : dhcpHandler bootfilePrefix w c p = some (c', sent)) :
    Stays c c' sent ∨ Requests bootfilePrefix c p c' sent ∨ Binds c p c' sent := by
  obtain ⟨filtered, hf, h⟩ := Option.bind_eq_some_iff.mp h
  split at h
  · cases h
    exact .inl (Stays.refl c)
  · rename_i hzero
    have ha : Accepted c p := ⟨hl, hu, by rw [hf, not_not.mp hzero]⟩
    split at h
    · rename_i hs
      exact (dhcpSelecting_cases bootfilePrefix c p c' sent ha hs h).imp id .inl
    · rename_i hs
      exact (dhcpRequesting_cases w c p c' sent ha hs h).imp id .inr
    · cases h
      exact .inl (Stays.refl c)

theorem step_cases (bootfilePrefix : Option (List UInt8)) (w : Surroundings) (c : Client)
    (e : Event) (c' : Client) (sent : List Sent)
    (h : step bootfilePrefix w c e = some (c', sent)) :
    Stays c c' sent ∨ (Discovers c' sent ∧ ∀ p : Packet, e ≠ .packet p) ∨
      ∃ p : Packet, e = .packet p ∧
        (Requests bootfilePrefix c p c' sent ∨ Binds c p c' sent) := by
  unfold step at h
  split at h
  · rename_i hl
    cases e with
    | command =>
      cases h
      exact .inl (Stays.refl c)
    | packet p =>
      dsimp only at h
      split at h
      · rename_i hu
        exact (dhcpHandler_cases bootfilePrefix w c p c' sent hl hu h).imp id
          fun hp => .inr ⟨p, rfl, hp⟩
      · cases h
        exact .inl (Stays.refl c)
    | timeout =>
      have hcases := runTimeHandler_cases w c
      rw [Option.some.inj h] at hcases
      exact hcases.imp id fun hd => .inl ⟨hd, nofun⟩
    | turn =>
      have hcases := netTurn_cases w c
      rw [Option.some.inj h] at hcases
      exact hcases.imp id fun hd => .inl ⟨hd, nofun⟩
    | ctrlc =>
      cases h
      exact .inl ⟨rfl, rfl, rfl, rfl⟩
    | startAgain =>
      dsimp only at h
      split at h
      · cases h
        exact .inl (netStartAgain_stays w c)
      · cases h
        exact .inl (Stays.refl c)
  · cases e with
    | command =>
      have hcases := netRestart_cases w { c with netTryCount := 1, looping := true }
      rw [Option.some.inj h] at hcases
      exact hcases.imp (fun hs => ⟨hs.dhcpState, hs.bootpID, hs.server, hs.sent⟩)
        fun hd => .inl ⟨hd, nofun⟩
    | packet p | timeout | turn | ctrlc | startAgain =>
      cases h
      exact .inl (Stays.refl c)

/-! ## Runs whose packets are what they are taken for -/

theorem Quiet.nil : Quiet [] := by
  intro r hr
  simp at hr

theorem Quiet.snoc (past : List Record) (r : Record) (h : Quiet past) (hr : r.sent = []) :
    Quiet (past ++ [r]) := by
  intro x hx
  rcases List.mem_append.mp hx with hx | hx
  · exact h x hx
  · rw [List.mem_singleton.mp hx]
    exact hr

theorem Discovered.snoc (past : List Record) (id : ℕ) (r : Record) (h : Discovered past id)
    (hr : r.sent = []) : Discovered (past ++ [r]) id := by
  obtain ⟨begun, d, since, rfl, hd, hq⟩ := h
  exact ⟨begun, d, since ++ [r], by simp, hd, Quiet.snoc since r hq hr⟩

theorem Requested.snoc (past : List Record) (id server : ℕ) (r : Record)
    (h : Requested past id server) (hr : r.sent = []) : Requested (past ++ [r]) id server := by
  obtain ⟨begun, o, since, p, ip, rfl, hd, he, hp, hid, hip, hs, hq⟩ := h
  exact ⟨begun, o, since ++ [r], p, ip, by simp, hd, he, hp, hid, hip, hs,
    Quiet.snoc since r hq hr⟩

/-- How the client came to where it is. -/
structure Explained (past : List Record) (c : Client) : Prop where
  selecting : c.dhcpState = .selecting → Discovered past c.bootpID
  requesting : c.dhcpState = .requesting → Requested past c.bootpID c.netDHCPServerIP

theorem step_explained (bootfilePrefix : Option (List UInt8)) (w : Surroundings)
    (past : List Record) (c : Client) (e : Event) (c' : Client) (sent : List Sent)
    (hx : Explained past c) (hp : Proper bootfilePrefix c e)
    (h : step bootfilePrefix w c e = some (c', sent)) :
    Explained (past ++ [⟨c, e, sent, c'⟩]) c' := by
  rcases step_cases bootfilePrefix w c e c' sent h with hs | ⟨hd, _⟩ | ⟨p, rfl, hr | hb⟩
  · constructor
    · intro hc
      rw [hs.bootpID]
      have hbegun := hx.selecting (hs.dhcpState.symm.trans hc)
      exact Discovered.snoc past c.bootpID ⟨c, e, sent, c'⟩ hbegun hs.sent
    · intro hc
      rw [hs.bootpID, hs.server]
      have hasked := hx.requesting (hs.dhcpState.symm.trans hc)
      exact Requested.snoc past c.bootpID c.netDHCPServerIP ⟨c, e, sent, c'⟩ hasked hs.sent
  · constructor
    · intro _
      exact ⟨past, ⟨c, e, sent, c'⟩, [], rfl, hd.sent, Quiet.nil⟩
    · intro hc
      rw [hd.dhcpState] at hc
      cases hc
  · constructor
    · intro hc
      rw [hr.dhcpState] at hc
      cases hc
    · intro _
      obtain ⟨ip, hip, hsent⟩ := hr.sent
      have hoffer := (hp p rfl hr.accepted).1 hr.selecting hr.known
      have hid := bootpCheckPkt_id c p hr.accepted.2.2
      rw [hr.bootpID]
      exact ⟨past, ⟨c, .packet p, sent, c'⟩, [], p, ip, rfl, hx.selecting hr.selecting, rfl,
        hoffer, hid, hip, hsent, Quiet.nil⟩
  · constructor <;>
    · intro hc
      rw [hb.dhcpState] at hc
      cases hc

/-- A step of a client that came to its state properly is safe. -/
theorem step_safe (bootfilePrefix : Option (List UInt8)) (w : Surroundings)
    (past : List Record) (c : Client) (e : Event) (c' : Client) (sent : List Sent)
    (hx : Explained past c) (hp : Proper bootfilePrefix c e)
    (h : step bootfilePrefix w c e = some (c', sent)) :
    BoundByAck past ⟨c, e, sent, c'⟩ ∧ SelectsOffers ⟨c, e, sent, c'⟩ := by
  rcases step_cases bootfilePrefix w c e c' sent h with hs | ⟨hd, hno⟩ | ⟨p, rfl, hr | hb⟩
  · constructor
    · intro hc hc'
      exact absurd (hs.dhcpState.symm.trans hc') hc
    · intro q _ hc _
      exact hs.dhcpState.trans hc
  · constructor
    · intro _ hc'
      rw [hd.dhcpState] at hc'
      cases hc'
    · intro q hq
      exact absurd hq (hno q)
  · constructor
    · intro _ hc'
      rw [hr.dhcpState] at hc'
      cases hc'
    · intro q hq _ hnot
      cases hq
      exact absurd ((hp p rfl hr.accepted).1 hr.selecting hr.known) hnot
  · have hproper := (hp p rfl hb.accepted).2 hb.requesting hb.type
    constructor
    · intro _ _
      exact ⟨p, c.bootpID, c.netDHCPServerIP, rfl, hx.requesting hb.requesting, hproper.1,
        bootpCheckPkt_id c p hb.accepted.2.2, hproper.2, hb.address⟩
    · intro q _ hc
      rw [hb.requesting] at hc
      cases hc

theorem run_explained (bootfilePrefix : Option (List UInt8)) (past : List Record) (c : Client)
    (hrun : Run bootfilePrefix past c)
    (hp : ∀ r ∈ past, Proper bootfilePrefix r.before r.event) : Explained past c := by
  induction hrun with
  | powerOn => exact ⟨nofun, nofun⟩
  | step past c w e sent c' _ hstep ih =>
    have hpast := ih fun r hr => hp r (List.mem_append_left _ hr)
    have hlast := hp ⟨c, e, sent, c'⟩ (by simp)
    exact step_explained bootfilePrefix w past c e c' sent hpast hlast hstep

theorem safeRun_snoc (past : List Record) (r : Record) (h : SafeRun past)
    (hr : BoundByAck past r ∧ SelectsOffers r) : SafeRun (past ++ [r]) := by
  intro before x behind heq
  rcases List.eq_nil_or_concat behind with rfl | ⟨front, last, rfl⟩
  · obtain ⟨rfl, hx⟩ := List.append_inj' heq rfl
    cases hx
    exact hr
  · have heq' : past ++ [r] = (before ++ x :: front) ++ [last] := by simpa using heq
    exact h before x front (List.append_inj' heq' rfl).1

/-- The client is safe in every run in which each packet that it takes for an offer is one,
and each that it takes for the acknowledgement is one of the server it asked. -/
theorem dhcp_safe (bootfilePrefix : Option (List UInt8)) (past : List Record) (c : Client)
    (hrun : Run bootfilePrefix past c)
    (hp : ∀ r ∈ past, Proper bootfilePrefix r.before r.event) : SafeRun past := by
  induction hrun with
  | powerOn =>
    intro before r behind heq
    simp at heq
  | step past c w e sent c' hrun hstep ih =>
    have hbefore : ∀ r ∈ past, Proper bootfilePrefix r.before r.event :=
      fun r hr => hp r (List.mem_append_left _ hr)
    have hexplained := run_explained bootfilePrefix past c hrun hbefore
    have hlast := hp ⟨c, e, sent, c'⟩ (by simp)
    exact safeRun_snoc past _ (ih hbefore)
      (step_safe bootfilePrefix w past c e c' sent hexplained hlast hstep)

/-! ## Two runs -/

/-- A board whose first transaction has the number one. -/
def board : Surroundings :=
  { timer := 0, ether := [2, 0, 0, 0, 0, 1], devIndex := 0, env := none, autoload := .no,
    netretry := none, netRestartWrap := false, netDevExists := true }

def message (type server address : UInt8) : Packet :=
  { mem := [2, 1, 6, 0, 0, 0, 0, 1] ++ List.replicate 8 0 ++ [10, 0, 0, address] ++
      List.replicate 216 0 ++ [99, 130, 83, 99, 53, 1, type, 54, 4, 10, 0, 0, server, 255]
    dest := portBootpc, src := portBootps, len := 250, etSrc := [2, 0, 0, 0, 0, 9] }

def discovering : Client :=
  { powerOn with
    dhcpState := .selecting, bootpID := 1, bootpTry := 1, netTryCount := 1, looping := true,
    timeHandler := .bootpTimeout, udpHandler := .dhcpHandler }

def asking : Client :=
  { discovering with dhcpState := .requesting, netDHCPServerIP := 0x0a000001 }

def settled (server : ℕ) : Client :=
  { asking with
    dhcpState := .bound, netDHCPServerIP := server, netOurIP := 0x0a000064,
    netServerEther := [2, 0, 0, 0, 0, 9], netState := .success }

def beginning : Record := ⟨powerOn, .command, [⟨dhcpDiscover, 1, 0, 0⟩], discovering⟩

def answering (p : Packet) : Record :=
  ⟨discovering, .packet p, [⟨dhcpRequest, 1, 0x0a000001, 0x0a000064⟩], asking⟩

def ending (p : Packet) (server : ℕ) : Record := ⟨asking, .packet p, [], settled server⟩

/-- Any message can take the place of the offer, and any server can acknowledge. -/
theorem exchange_run (p q : Packet) (server : ℕ)
    (hp : step none board discovering (.packet p) =
      some (asking, [⟨dhcpRequest, 1, 0x0a000001, 0x0a000064⟩]))
    (hq : step none board asking (.packet q) = some (settled server, [])) :
    Run none [beginning, answering p, ending q server] (settled server) := by
  have hbegun : Run none [beginning] discovering :=
    Run.step [] powerOn board .command _ discovering Run.powerOn rfl
  have hasked : Run none [beginning, answering p] asking :=
    Run.step [beginning] discovering board (.packet p) _ asking hbegun hp
  exact Run.step [beginning, answering p] asking board (.packet q) _ (settled server) hasked hq

theorem dhcp_safe_exchange :
    (settled 0x0a000001).dhcpState = .bound ∧
      SafeRun [beginning, answering (message 2 1 100), ending (message 5 1 100) 0x0a000001] := by
  refine ⟨rfl, dhcp_safe none _ (settled 0x0a000001)
    (exchange_run _ _ _ (by decide +kernel) (by decide +kernel)) ?_⟩
  intro r hr
  rcases List.mem_cons.mp hr with rfl | hr
  · exact fun p he => nomatch he
  · rcases List.mem_cons.mp hr with rfl | hr
    · intro p he _
      cases he
      exact ⟨fun _ _ => by decide +kernel, nofun⟩
    · rw [List.mem_singleton.mp hr]
      intro p he _
      cases he
      exact ⟨nofun, fun _ _ => by decide +kernel⟩

/-- The client is bound without any offer: it answers a refusal, and takes the address that
another server acknowledges. -/
theorem bound_without_offer :
    ∃ (past : List Record) (c : Client), Run none past c ∧ c.dhcpState = .bound ∧
      (∀ r ∈ past, ∀ p : Packet, r.event = .packet p → ¬ Offer p) ∧ ¬ SafeRun past := by
  refine ⟨[beginning, answering (message 6 1 100), ending (message 5 2 100) 0x0a000002],
    settled 0x0a000002, exchange_run _ _ _ (by decide +kernel) (by decide +kernel), rfl, ?_, ?_⟩
  · intro r hr p he
    simp only [List.mem_cons, List.not_mem_nil, or_false] at hr
    rcases hr with rfl | rfl | rfl
    · cases he
    · cases he
      decide +kernel
    · cases he
      decide +kernel
  · intro hsafe
    have hselects := (hsafe [beginning] (answering (message 6 1 100)) _ rfl).2
    have hstate := hselects (message 6 1 100) rfl rfl (by decide +kernel)
    exact absurd hstate (by decide)

end UBoot.Dhcp
