import Mathlib

/-!
# The DHCP client: `net/bootp.c`

The client is the set of globals that `DhcpHandler`, `BootpTimeout` and the
restart of `NetLoop` read and write. A packet is the memory from its first byte
on: neither the scan for the message type nor the processing of the options
stops at the length of the packet. A read outside of that memory is a fault and
has no result. Addresses and transaction numbers are read in network order.
-/

set_option autoImplicit false

namespace UBoot.Dhcp

def portBootps : ℕ := 67
def portBootpc : ℕ := 68
def optFieldSize : ℕ := 312
def bootpHdrSize : ℕ := 236+optFieldSize
def bootpVendorMagic : ℕ := 0x63825363
def timeoutCount : ℕ := 5

def opBootRequest : ℕ := 1
def opBootReply : ℕ := 2
def hwtEther : ℕ := 1
def hwlEther : ℕ := 6

def dhcpDiscover : ℕ := 1
def dhcpOffer : ℕ := 2
def dhcpRequest : ℕ := 3
def dhcpAck : ℕ := 5
def dhcpNak : ℕ := 6

inductive DhcpState where
  | init | initReboot | rebooting | selecting | requesting | rebinding | bound | renewing
  deriving DecidableEq

inductive NetState where
  | continue | restart | success | fail
  deriving DecidableEq

/-- The handler of UDP packets; `other` stands for the protocol that loads the boot file. -/
inductive UdpHandler where
  | dummy | dhcpHandler | other
  deriving DecidableEq

inductive TimeHandler where
  | none | bootpTimeout | startAgainTimeout | other
  deriving DecidableEq

structure Client where
  dhcpState : DhcpState
  bootpID : ℕ
  bootpTry : ℕ
  netTryCount : ℕ
  netOurIP : ℕ
  netServerIP : ℕ
  netDHCPServerIP : ℕ
  netOurSubnetMask : ℕ
  netOurGatewayIP : ℕ
  netOurDNSIP : ℕ
  dhcpLeasetime : ℕ
  netServerEther : List UInt8
  netOurHostName : List UInt8
  netOurRootPath : List UInt8
  bootFile : List UInt8
  udpHandler : UdpHandler
  timeHandler : TimeHandler
  netState : NetState
  /-- `NetLoop` has been entered and has not returned. -/
  looping : Bool
  deriving DecidableEq

/-- A message of ours on the wire; an address of zero is left out of its options. -/
structure Sent where
  messageType : ℕ
  id : ℕ
  serverID : ℕ
  requestedIP : ℕ
  deriving DecidableEq

structure Packet where
  mem : List UInt8
  dest : ℕ
  src : ℕ
  len : ℕ
  etSrc : List UInt8

inductive AutoLoad where
  | nfs | no | tftp
  deriving DecidableEq

/-- The addresses of the environment, read again when it has changed. -/
structure EnvAddresses where
  ipaddr : ℕ
  gatewayip : ℕ
  netmask : ℕ
  serverip : ℕ

/-- What the client finds around it when it is run. -/
structure Surroundings where
  timer : ℕ
  ether : List UInt8
  devIndex : ℤ
  env : Option EnvAddresses
  autoload : AutoLoad
  /-- The variable `netretry`: a number of tries, or none for ever. -/
  netretry : Option ℕ
  netRestartWrap : Bool
  netDevExists : Bool

/-! ## Memory -/

def byteAt (m : List UInt8) (i : ℕ) : Option ℕ := (m[i]?).map UInt8.toNat

def longAt (m : List UInt8) (i : ℕ) : Option ℕ := do
  let a ← byteAt m i
  let b ← byteAt m (i+1)
  let c ← byteAt m (i+2)
  let d ← byteAt m (i+3)
  some (((a*256+b)*256+c)*256+d)

def bytesAt (m : List UInt8) (i n : ℕ) : Option (List UInt8) :=
  if i+n ≤ m.length then some ((m.drop i).take n) else none

def cstringAt (m : List UInt8) (i : ℕ) : Option (List UInt8) :=
  let s := (m.drop i).takeWhile (· ≠ 0)
  if i+s.length < m.length then some s else none

def writeAt (m : List UInt8) (i : ℕ) (s : List UInt8) : List UInt8 :=
  m.take i ++ s ++ m.drop (i+s.length)

/-! ## The message -/

def bpOp (m : List UInt8) : Option ℕ := byteAt m 0
def bpHtype (m : List UInt8) : Option ℕ := byteAt m 1
def bpHlen (m : List UInt8) : Option ℕ := byteAt m 2
def bpId (m : List UInt8) : Option ℕ := longAt m 4
def bpYiaddr (m : List UInt8) : Option ℕ := longAt m 16
def bpSiaddr (m : List UInt8) : Option ℕ := longAt m 20
def bpFile : ℕ := 108
def bpFileSize : ℕ := 128
def bpVend : ℕ := 236

def bootpCheckPkt (c : Client) (p : Packet) : Option ℤ :=
  if p.dest ≠ portBootpc ∨ p.src ≠ portBootps then some (-1)
  else if p.len < bootpHdrSize-optFieldSize then some (-2)
  else do
    let op ← bpOp p.mem
    if op ≠ opBootRequest ∧ op ≠ opBootReply ∧ op ≠ dhcpOffer ∧ op ≠ dhcpAck ∧ op ≠ dhcpNak then
      some (-3)
    else
      let htype ← bpHtype p.mem
      if htype ≠ hwtEther then some (-4)
      else
        let hlen ← bpHlen p.mem
        if hlen ≠ hwlEther then some (-5)
        else
          let id ← bpId p.mem
          if id ≠ c.bootpID then some (-6) else some 0

def truncateSz (maxlen curlen : ℕ) : ℕ := if curlen ≥ maxlen then maxlen-1 else curlen

def copyFilename (src : List UInt8) (size : ℕ) : List UInt8 :=
  if src.head? = some 34 then (src.tail.take (size-1-1)).takeWhile (· ≠ 34)
  else (src.take (size-1)).takeWhile (· ≠ 34)

/-- One turn of the loop of `DhcpOptionsProcess`. -/
def dhcpOption (c : Client) (m : List UInt8) (popt code oplen : ℕ) :
    Option (Client × List UInt8) :=
  match code with
  | 1 => (longAt m (popt+2)).map fun ip => ({ c with netOurSubnetMask := ip }, m)
  | 3 => (longAt m (popt+2)).map fun ip => ({ c with netOurGatewayIP := ip }, m)
  | 6 => (longAt m (popt+2)).map fun ip => ({ c with netOurDNSIP := ip }, m)
  | 12 => (bytesAt m (popt+2) (truncateSz 32 oplen)).map fun s =>
      ({ c with netOurHostName := s }, m)
  | 17 => (bytesAt m (popt+2) (truncateSz 64 oplen)).map fun s =>
      ({ c with netOurRootPath := s }, m)
  | 51 => (longAt m (popt+2)).map fun n => ({ c with dhcpLeasetime := n }, m)
  | 54 => (longAt m (popt+2)).map fun ip => ({ c with netDHCPServerIP := ip }, m)
  | 67 => do
    let size := truncateSz bpFileSize oplen
    let first ← byteAt m bpFile
    if first = 0 ∧ size > 0 then
      let s ← bytesAt m (popt+2) size
      some (c, writeAt m bpFile (s ++ [0]))
    else some (c, m)
  | _ => some (c, m)

/-- Every turn moves on by two bytes at least, so the size of the header bounds the turns. -/
@[grind]
def dhcpOptionsLoop (stop : ℕ) :
    ℕ → Client → List UInt8 → ℕ → Option (Client × List UInt8)
  | 0, c, m, _ => some (c, m)
  | turns+1, c, m, popt =>
    if popt < stop then do
      let code ← byteAt m popt
      if code = 255 then some (c, m)
      else
        let oplen ← byteAt m (popt+1)
        let r ← dhcpOption c m popt code oplen
        dhcpOptionsLoop stop turns r.1 r.2 (popt+oplen+2)
    else some (c, m)

def dhcpOptionsProcess (c : Client) (m : List UInt8) (popt : ℕ) :
    Option (Client × List UInt8) :=
  dhcpOptionsLoop (popt+bootpHdrSize) bootpHdrSize c m popt

/-- The options, where the vendor area starts with the magic cookie. -/
def dhcpVendor (c : Client) (m : List UInt8) : Option (Client × List UInt8) := do
  let magic ← longAt m bpVend
  if magic = bootpVendorMagic then dhcpOptionsProcess c m (bpVend+4) else some (c, m)

/-- Only an end mark or a message type ends the scan before the end of the memory. -/
@[grind]
def dhcpMessageTypeLoop (m : List UInt8) : ℕ → ℕ → Option ℤ
  | 0, _ => none
  | turns+1, popt => do
    let code ← byteAt m popt
    if code = 255 then some (-1)
    else if code = 53 then (byteAt m (popt+2)).map Int.ofNat
    else
      let oplen ← byteAt m (popt+1)
      dhcpMessageTypeLoop m turns (popt+oplen+2)

def dhcpMessageType (m : List UInt8) (popt : ℕ) : Option ℤ := do
  let magic ← longAt m popt
  if magic ≠ bootpVendorMagic then some (-1) else dhcpMessageTypeLoop m m.length (popt+4)

def bootpCopyNetParams (c : Client) (m etSrc : List UInt8) : Option Client := do
  let siaddr ← bpSiaddr m
  let yiaddr ← bpYiaddr m
  let file ← cstringAt m bpFile
  some { c with
    netServerIP := if siaddr ≠ 0 then siaddr else c.netServerIP
    netServerEther := etSrc
    netOurIP := yiaddr
    bootFile := if file.length > 0 then copyFilename file 128 else c.bootFile }

/-! ## Sending -/

def bootpRequest (w : Surroundings) (c : Client) : Client × List Sent :=
  let id := (((w.ether.getD 2 0).toNat*256+(w.ether.getD 3 0).toNat)*256+
    (w.ether.getD 4 0).toNat)*256+(w.ether.getD 5 0).toNat
  let bootpID := (id+w.timer) % 2^32
  ({ c with
      dhcpState := .selecting
      bootpTry := c.bootpTry+1
      bootpID := bootpID
      timeHandler := .bootpTimeout
      udpHandler := .dhcpHandler },
    [⟨dhcpDiscover, bootpID, 0, 0⟩])

def dhcpSendRequestPkt (c : Client) (offer : List UInt8) : Option Sent := do
  let id ← bpId offer
  let offeredIP ← bpYiaddr offer
  some ⟨dhcpRequest, id, c.netDHCPServerIP, offeredIP⟩

/-! ## The handlers -/

def netAutoLoad (w : Surroundings) (c : Client) : Client :=
  match w.autoload with
  | .nfs => { c with udpHandler := .other, timeHandler := .other }
  | .no => { c with netState := .success }
  | .tftp => { c with udpHandler := .other, timeHandler := .other }

def prefixed (bootfilePrefix : Option (List UInt8)) (m : List UInt8) : Option Bool :=
  match bootfilePrefix with
  | none => some true
  | some s => (bytesAt m bpFile s.length).map (· = s)

/-- The answer to the packet that is taken for an offer. -/
def dhcpSelecting (bootfilePrefix : Option (List UInt8)) (c : Client) (p : Packet) :
    Option (Client × List Sent) := do
  let known ← prefixed bootfilePrefix p.mem
  if known then
    let r ← dhcpVendor { c with dhcpState := .requesting } p.mem
    let request ← dhcpSendRequestPkt r.1 r.2
    some ({ r.1 with timeHandler := .bootpTimeout }, [request])
  else some (c, [])

def dhcpRequesting (w : Surroundings) (c : Client) (p : Packet) :
    Option (Client × List Sent) := do
  let type ← dhcpMessageType p.mem bpVend
  if type = dhcpAck then
    let r ← dhcpVendor c p.mem
    let c' ← bootpCopyNetParams r.1 r.2 p.etSrc
    some (netAutoLoad w { c' with dhcpState := .bound }, [])
  else some (c, [])

def dhcpHandler (bootfilePrefix : Option (List UInt8)) (w : Surroundings) (c : Client)
    (p : Packet) : Option (Client × List Sent) := do
  let filtered ← bootpCheckPkt c p
  if filtered ≠ 0 then some (c, [])
  else match c.dhcpState with
    | .selecting => dhcpSelecting bootfilePrefix c p
    | .requesting => dhcpRequesting w c p
    | _ => some (c, [])

def netStartAgain (w : Surroundings) (c : Client) : Client :=
  if w.netretry.any (fun n => decide (c.netTryCount ≥ n)) then { c with netState := .fail }
  else
    let c' := { c with netTryCount := c.netTryCount+1 }
    if w.netRestartWrap then
      if w.netDevExists then
        { c' with timeHandler := .startAgainTimeout, udpHandler := .dummy }
      else { c' with netState := .fail }
    else { c' with netState := .restart }

def bootpTimeout (w : Surroundings) (c : Client) : Client × List Sent :=
  if c.bootpTry ≥ timeoutCount then (netStartAgain w c, [])
  else bootpRequest w c

/-! ## The loop around them -/

def netInitLoop (w : Surroundings) (c : Client) : Client :=
  match w.env with
  | none => c
  | some e => { c with
      netOurIP := e.ipaddr
      netOurGatewayIP := e.gatewayip
      netOurSubnetMask := e.netmask
      netServerIP := e.serverip }

/-- `NetLoop(DHCP)` from its label `restart` to its loop. -/
def netRestart (w : Surroundings) (c : Client) : Client × List Sent :=
  let c := netInitLoop w { c with netState := .continue }
  if w.ether.take 6 = [0, 0, 0, 0, 0, 0] then
    if w.devIndex = -1 then ({ c with looping := false }, [])
    else (netStartAgain w c, [])
  else bootpRequest w { c with bootpTry := 0, netOurIP := 0 }

def netCleanupLoop (c : Client) : Client :=
  { c with udpHandler := .dummy, timeHandler := .none, looping := false }

inductive Event where
  /-- The command `dhcp` is given. -/
  | command
  | packet (p : Packet)
  | timeout
  /-- The switch on `net_state` at the end of a turn of the loop. -/
  | turn
  | ctrlc
  /-- The protocol that loads the boot file starts the network again. -/
  | startAgain

def runTimeHandler (w : Surroundings) (c : Client) : Client × List Sent :=
  let c' := { c with timeHandler := .none }
  match c.timeHandler with
  | .none => (c, [])
  | .bootpTimeout => bootpTimeout w c'
  | .startAgainTimeout => ({ c' with netState := .restart }, [])
  | .other => (c, [])

def netTurn (w : Surroundings) (c : Client) : Client × List Sent :=
  match c.netState with
  | .restart => netRestart w c
  | .success => (netCleanupLoop c, [])
  | .fail => (netCleanupLoop c, [])
  | .continue => (c, [])

/-- Between two commands no packet and no timeout reaches the client. -/
def step (bootfilePrefix : Option (List UInt8)) (w : Surroundings) (c : Client) (e : Event) :
    Option (Client × List Sent) :=
  if c.looping then
    match e with
    | .command => some (c, [])
    | .packet p =>
      if c.udpHandler = .dhcpHandler then dhcpHandler bootfilePrefix w c p else some (c, [])
    | .timeout => some (runTimeHandler w c)
    | .turn => some (netTurn w c)
    | .ctrlc => some (netCleanupLoop c, [])
    | .startAgain =>
      if c.udpHandler = .other then some (netStartAgain w c, []) else some (c, [])
  else
    match e with
    | .command => some (netRestart w { c with netTryCount := 1, looping := true })
    | _ => some (c, [])

/-- The client before the first command. -/
def powerOn : Client :=
  { dhcpState := .init, bootpID := 0, bootpTry := 0, netTryCount := 0, netOurIP := 0,
    netServerIP := 0, netDHCPServerIP := 0, netOurSubnetMask := 0, netOurGatewayIP := 0,
    netOurDNSIP := 0, dhcpLeasetime := 0, netServerEther := [], netOurHostName := [],
    netOurRootPath := [], bootFile := [], udpHandler := .dummy, timeHandler := .none,
    netState := .continue, looping := false }

end UBoot.Dhcp
