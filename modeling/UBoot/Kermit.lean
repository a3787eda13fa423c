import Mathlib.Data.List.Basic
import Mathlib.Data.Nat.Basic

/-!
# Receiving a file with Kermit: `k_recv` of `common/cmd_load.c`

The receiver is a machine that takes one character after the other. Data is
written to memory while its packet arrives. Behind the sequence number of a
packet the position in memory is saved, or, for the number of the packet before,
set back to where it was saved; an error sets it back too.
-/

set_option autoImplicit false

namespace UBoot.Kermit

abbrev Chars := List UInt8

def startChar : UInt8 := 0x01
def etxChar : UInt8 := 0x03
def endChar : UInt8 := 0x0d
def kEscape : UInt8 := 0x23
def sendType : UInt8 := 0x53
def dataType : UInt8 := 0x44
def breakType : UInt8 := 0x42
def sendDataSize : ℕ := 20

def tochar (x : ℕ) : UInt8 := UInt8.ofNat (x+32)
def untochar (c : UInt8) : ℕ := (c-32).toNat

/-- Converts an escaped character. -/
def ktrans (c : UInt8) : UInt8 :=
  if c &&& 0x60 = 0x40 then c &&& 0xbf
  else if c &&& 0x7f = 0x3f then c ||| 0x40
  else c

/-- The check character of a sum. -/
def checkChar (sum : ℕ) : UInt8 := tochar ((sum+(sum/64)%4)%64)

/-- A character below a space. -/
def isControl (c : UInt8) : Bool := c &&& 0xe0 = 0

/-- What `k_recv` waits for. -/
inductive Pc where
  | start | length | seq | type | lenHi | lenLo | headerCheck | data | check | eol
  deriving DecidableEq, Repr

/-- The position in memory, with the character before if it was an escape. -/
structure Position where
  addr : ℕ
  escape : Bool
  deriving DecidableEq, Repr

inductive Reply where
  | ack (n : ℕ)
  | nack (n : ℕ)
  deriving DecidableEq, Repr

structure Recv where
  pc : Pc
  sum : ℕ
  length : ℤ
  n : ℕ
  lastN : Option ℕ
  kState : UInt8
  kStateSaved : UInt8
  lenHi : ℕ
  pos : Position
  saved : Position
  quote : UInt8
  sendParms : Chars
  mem : ℕ → UInt8
  replies : List Reply
  /-- `k_recv` has returned, with 0 after ^C. -/
  result : Option ℕ

variable (binStart : ℕ)

/-! ## Data -/

def osDataChar (k : Recv) (c : UInt8) : Recv :=
  { k with mem := Function.update k.mem k.pos.addr c, pos := ⟨k.pos.addr+1, false⟩ }

def kDataChar (k : Recv) (c : UInt8) : Recv :=
  if k.pos.escape then osDataChar k (ktrans c)
  else if c = k.quote then { k with pos := ⟨k.pos.addr, true⟩ }
  else osDataChar k c

/-- The parameters of the sender; too many go to the last element. -/
def saveParm (k : Recv) (c : UInt8) : Recv :=
  { k with sendParms := (if k.sendParms.length < sendDataSize then k.sendParms ++ [c]
      else k.sendParms.set (sendDataSize-1) c) }

/-- `handle_send_packet`: of the parameters the quote is what the data needs. -/
def handleSendPacket (k : Recv) : Recv :=
  let bytes := if sendDataSize-1 ≤ k.sendParms.length then sendDataSize-2 else k.sendParms.length
  { k with
    quote := (if 6 ≤ bytes then k.sendParms.getD 5 0 else kEscape)
    replies := .ack k.n::k.replies, pc := .start }

/-! ## Packets -/

def kDataRestore (k : Recv) : Recv := { k with kState := k.kStateSaved, pos := k.saved }

def packetError (k : Recv) : Recv :=
  { kDataRestore k with replies := .nack k.n::k.replies, pc := .start }

/-- The sequence number tells a packet that is sent again. -/
def checkpoint (k : Recv) (n : ℕ) : Recv :=
  if k.lastN = some n then { kDataRestore k with n := n }
  else { k with n := n, lastN := some n, kStateSaved := k.kState, saved := k.pos }

/-- The data of a packet, or what comes behind it. -/
def Recv.body (k : Recv) : Recv := { k with pc := (if 1 < k.length then .data else .check) }

def Recv.add (k : Recv) (c : UInt8) : Recv := { k with sum := k.sum+c.toNat }

def accept (k : Recv) : Recv :=
  if k.kState = sendType then handleSendPacket k
  else
    { k with
      replies := .ack k.n::k.replies, pc := .start
      result := (if k.kState = breakType then some (k.pos.addr-binStart) else k.result) }

/-- One character. -/
def getc (k : Recv) (c : UInt8) : Recv :=
  if k.result.isSome then k
  else
    match k.pc with
    | .start =>
      if c = startChar then { k with pc := .length, sum := 0, sendParms := [] }
      else if c = etxChar then { k with result := some 0 }
      else k
    | .eol => if c ≠ endChar then packetError k else accept binStart k
    | pc =>
      if isControl c then packetError k
      else
        match pc with
        | .length => { k.add c with length := untochar c, pc := .seq }
        | .seq =>
          { checkpoint (k.add c) (untochar c) with length := k.length-1, pc := .type }
        | .type =>
          let k := { k.add c with kState := c, length := k.length-1 }
          if k.length = -2 then { k with pc := .lenHi } else k.body
        | .lenHi => { k.add c with lenHi := untochar c, pc := .lenLo }
        | .lenLo => { k.add c with length := k.lenHi*95+untochar c, pc := .headerCheck }
        | .headerCheck =>
          if c ≠ checkChar k.sum then packetError k else (k.add c).body
        | .data =>
          let k := { k.add c with length := k.length-1 }
          let k := if k.kState = dataType then kDataChar k c
            else if k.kState = sendType then saveParm k c
            else k
          k.body
        | _ => if c ≠ checkChar k.sum then packetError k else { k with pc := .eol }

def feed (k : Recv) (cs : Chars) : Recv := cs.foldl (getc binStart) k

/-- The receiver before the first character. -/
def kRecv (mem : ℕ → UInt8) : Recv where
  pc := .start
  sum := 0
  length := 0
  n := 0
  lastN := none
  kState := 0
  kStateSaved := 0
  lenHi := 0
  pos := ⟨binStart, false⟩
  saved := ⟨binStart, false⟩
  quote := kEscape
  sendParms := []
  mem := mem
  replies := []
  result := none

end UBoot.Kermit
