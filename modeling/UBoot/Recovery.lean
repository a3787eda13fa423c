import UBoot.BlockTransfer

/-!
# The recovery server of `net/rcvr.c`

The packet handler, the timeout routine and the start of a recovery session,
over the globals that they share with the network loop. The beacon and the
texts printed on the way are outputs; of the beacon only that it is sent is
kept. The handler is taken with the parameters it declares, and memory as a
function of the address, with pointers and counters of 32 bits.
-/

set_option autoImplicit false

namespace UBoot.Recovery
open UBoot.BlockTransfer

def wrap32 (n : ℕ) : ℕ := n % 4294967296

inductive RcvrState where
  | init
  | wait4Cnct
  | imageDwnld
  | finished
  deriving DecidableEq, Repr

inductive NetState where
  | running
  | success
  | fail
  deriving DecidableEq, Repr

/-- `NetServerEther` and `NetServerIP`. -/
structure Server where
  ether : List UInt8
  ip : ℕ
  deriving DecidableEq, Repr

inductive Output where
  | beacon
  | error (server : Server) (code dest src : ℕ) (text : String)
  | ack (server : Server) (dest src block : ℕ)
  /-- The message that the image has been received, with its byte count. -/
  | received (bytes : ℕ)
  deriving DecidableEq, Repr

structure Rcvr where
  rcvrState : RcvrState
  myTID : ℕ
  peerTID : ℕ
  packetNum : ℕ
  imagePtr : ℕ
  server : Server
  netBootFileXferSize : ℕ
  netState : NetState
  /-- Seconds until `RecoverTimeout`, 0 when no timeout is set. -/
  timeout : ℕ
  mem : ℕ → UInt8

/-- A received datagram: the frame, the UDP payload in it and the arguments
that go with the payload. -/
structure Frame where
  netRxPacket : ℕ → UInt8
  pkt : ℕ → UInt8
  dest : ℕ
  src : ℕ
  len : ℕ

def rcvrBeaconTimeout : ℕ := 5
def rcvrDataTimeout : ℕ := 6
def rcvrFinishTimeout : ℕ := 2

def tftpServerPort : ℕ := 69
def tftpOpcodeRrq : ℕ := 1
def tftpOpcodeWrq : ℕ := 2
def tftpOpcodeData : ℕ := 3
def tftpErrorUndefined : ℕ := 0
def tftpErrorIllegalOperation : ℕ := 4
def tftpMaxDataLen : ℕ := 512

/-- A 16-bit field, read and swapped to host order. -/
def field16 (pkt : ℕ → UInt8) (i : ℕ) : ℕ := (pkt i).toNat*256+(pkt (i+1)).toNat

/-- The sender's addresses, copied from the frame. -/
def peerOf (f : Frame) : Server :=
  ⟨(List.range 6).map fun i => f.netRxPacket (6+i),
    (f.netRxPacket 26).toNat+(f.netRxPacket 27).toNat*256+(f.netRxPacket 28).toNat*65536+
      (f.netRxPacket 29).toNat*16777216⟩

def sendTftpError (s : Rcvr) (error src dst : ℕ) (errStr : String) : Output :=
  .error s.server error src dst errStr

def sendTftpAck (s : Rcvr) (block : ℕ) : Output := .ack s.server s.peerTID s.myTID (block % 65536)

@[grind]
def recoverTimeout (s : Rcvr) : Rcvr × List Output :=
  match s.rcvrState with
  | .wait4Cnct => ({ s with timeout := rcvrBeaconTimeout }, [.beacon])
  | .imageDwnld => ({ s with timeout := 0, netState := .fail, rcvrState := .init },
      [sendTftpError s tftpErrorUndefined s.peerTID s.myTID "Data Packet TimeOut!"])
  | .finished => ({ s with timeout := 0, netState := .success, rcvrState := .init }, [])
  | .init => (s, [])

/-- The comparison with the block accepted last is one of `int`s. -/
def isLast (s : Rcvr) (rxPacketNumber : ℕ) : Prop :=
  (rxPacketNumber : ℤ) = ((s.packetNum % 65536 : ℕ) : ℤ)-1

instance (s : Rcvr) (rxPacketNumber : ℕ) : Decidable (isLast s rxPacketNumber) :=
  inferInstanceAs (Decidable ((rxPacketNumber : ℤ) = _))

/-- The block that is expected has arrived with `dlen` bytes. -/
def acceptBlock (f : Frame) (s : Rcvr) (dlen : ℕ) : Rcvr :=
  { s with
    mem := store s.mem s.imagePtr ((List.range dlen).map fun i => f.pkt (4+i))
    imagePtr := wrap32 (s.imagePtr+dlen)
    netBootFileXferSize := wrap32 (s.netBootFileXferSize+dlen)
    packetNum := wrap32 (s.packetNum+1) }

/-- A data packet while the image is received. -/
def receiveData (f : Frame) (s : Rcvr) : Rcvr × List Output :=
  let rxPacketNumber := field16 f.pkt 2
  if rxPacketNumber = s.packetNum % 65536 then
    if f.len = tftpMaxDataLen+4 then
      ({ acceptBlock f s tftpMaxDataLen with timeout := rcvrDataTimeout },
        [sendTftpAck s s.packetNum])
    else if f.len < tftpMaxDataLen+4 then
      let dlen := wrap32 (f.len+4294967292)
      ({ acceptBlock f s dlen with rcvrState := .finished, timeout := rcvrFinishTimeout },
        [.received (wrap32 (s.packetNum*tftpMaxDataLen+dlen)), sendTftpAck s s.packetNum])
    else ({ s with timeout := 0, netState := .fail, rcvrState := .init }, [])
  else if isLast s rxPacketNumber then (s, [sendTftpAck s rxPacketNumber])
  else (s, [])

@[grind]
def recoveryHandler (f : Frame) (s : Rcvr) : Rcvr × List Output :=
  let opcode := field16 f.pkt 0
  match s.rcvrState with
  | .init => (s, [])
  | .wait4Cnct =>
    if opcode = tftpOpcodeRrq then
      if f.dest ≠ tftpServerPort then (s, [])
      else
        let s' := { s with server := peerOf f }
        (s', [sendTftpError s' tftpErrorIllegalOperation f.src tftpServerPort
          "Request Not Supported"])
    else if opcode = tftpOpcodeWrq then
      if f.dest ≠ tftpServerPort then (s, [])
      else
        let s' := { s with server := peerOf f, peerTID := f.src, packetNum := 1,
                           rcvrState := .imageDwnld, timeout := rcvrDataTimeout }
        (s', [sendTftpAck s' 0])
    else (s, [])
  | .imageDwnld =>
    if opcode = tftpOpcodeWrq then
      if s.packetNum = 1 then
        if f.dest ≠ tftpServerPort then (s, [])
        else
          let s' := { s with server := peerOf f, peerTID := f.src }
          (s', [sendTftpAck s' 0])
      else (s, [])
    else if opcode = tftpOpcodeData then
      if f.dest ≠ s.myTID then (s, []) else receiveData f s
    else (s, [])
  | .finished =>
    if opcode = tftpOpcodeData then
      if f.dest ≠ s.myTID then (s, [])
      else
        let rxPacketNumber := field16 f.pkt 2
        if isLast s rxPacketNumber then (s, [sendTftpAck s rxPacketNumber]) else (s, [])
    else (s, [])

/-- `RecoverRequest`; `loadaddr` is the environment variable, read as a number. -/
@[grind]
def recoverRequest (loadaddr : Option ℕ) (netOurEther : ℕ → UInt8) (s : Rcvr) :
    Rcvr × List Output :=
  match loadaddr with
  | none => ({ s with netState := .fail }, [])
  | some a =>
    ({ s with imagePtr := a, myTID := (netOurEther 4).toNat*256+(netOurEther 5).toNat,
              peerTID := 0, rcvrState := .wait4Cnct, timeout := rcvrBeaconTimeout }, [.beacon])

end UBoot.Recovery
