import UBoot.BlockTransfer

/-!
# The TFTP client of `net/tftp.c`

The packet handler and what it calls, for a build with `CONFIG_CMD_TFTPPUT`
and without the multicast, direct-flash, server and `tsize` options. A datagram
is the list of its payload bytes; progress marks and messages are left out.
Offsets and addresses are of 32 bits, and `NetStartAgain` is the state in which
the transfer is given up and begun anew.
-/

set_option autoImplicit false

namespace UBoot.Tftp
open UBoot.BlockTransfer

def wrap32 (n : ℕ) : ℕ := n % 4294967296

inductive TftpState where
  | sendRrq
  | data
  | tooLarge
  | badMagic
  | oack
  | recvWrq
  | sendWrq
  deriving DecidableEq, Repr

inductive NetState where
  | running
  | success
  | fail
  | startAgain
  deriving DecidableEq, Repr

def tftpAck : ℕ := 4
def tftpData : ℕ := 3
def tftpError : ℕ := 5
def tftpOack : ℕ := 6
def tftpErrFileNotFound : ℕ := 1
def tftpErrAccessDenied : ℕ := 2
def tftpBlockSize : ℕ := 512
def tftpSequenceSize : ℕ := 65536
def wellKnownPort : ℕ := 69
def timeoutCount : ℕ := 10

structure Client where
  tftpState : TftpState
  tftpRemotePort : ℕ
  tftpOurPort : ℕ
  tftpTimeoutCount : ℕ
  tftpTimeoutCountMax : ℕ
  tftpTimeoutMSecs : ℕ
  tftpBlock : ℕ
  tftpLastBlock : ℕ
  tftpBlockWrap : ℕ
  tftpBlockWrapOffset : ℕ
  tftpBlkSize : ℕ
  tftpBlkSizeOption : ℕ
  tftpWriting : Bool
  tftpFinalBlock : Bool
  tftpFilename : List UInt8
  loadAddr : ℕ
  saveAddr : ℕ
  netBootFileXferSize : ℕ
  netState : NetState
  mem : ℕ → UInt8

inductive Output where
  | request (write : Bool) (name : List UInt8) (timeout blksize : ℕ)
  | ack (number : ℕ)
  /-- The bytes that `load_block` copies: their offset and their number. -/
  | read (offset len : ℕ)
  | data (number : ℕ) (payload : List UInt8)
  | error (code : ℕ) (text : String)
  deriving DecidableEq, Repr

structure Datagram where
  dest : ℕ
  src : ℕ
  pkt : List UInt8

def ntohs (l : List UInt8) : ℕ := (l.getD 0 0).toNat*256+(l.getD 1 0).toNat

/-! ## Blocks -/

/-- `store_block`; the block number is an `int` and may be -1. -/
def storeBlock (c : Client) (block : ℤ) (src : List UInt8) : Client :=
  let offset := ((block*c.tftpBlkSize+c.tftpBlockWrapOffset) % 4294967296).toNat
  let newsize := wrap32 (offset+src.length)
  { c with
    mem := store c.mem (wrap32 (c.loadAddr+offset)) src
    netBootFileXferSize := if c.netBootFileXferSize < newsize then newsize
      else c.netBootFileXferSize }

def newTransfer (c : Client) : Client :=
  { c with tftpLastBlock := 0, tftpBlockWrap := 0, tftpBlockWrapOffset := 0, tftpFinalBlock := false }

/-- The offset that `load_block` reads at and the number of bytes it copies. -/
def loadBlock (c : Client) (block len : ℕ) : ℕ × ℕ :=
  let offset := ((((block : ℤ)-1)*len+c.tftpBlockWrapOffset) % 4294967296).toNat
  (offset, min (wrap32 (c.netBootFileXferSize+4294967296-offset)) len)

/-- The sequence number 0 is taken for a wrap around. -/
def updateBlockNumber (c : Client) : Client :=
  if c.tftpBlock = 0 then
    { c with tftpBlockWrap := wrap32 (c.tftpBlockWrap+1)
             tftpBlockWrapOffset := wrap32 (c.tftpBlockWrapOffset+c.tftpBlkSize*tftpSequenceSize)
             tftpTimeoutCount := 0 }
  else c

def tftpComplete (c : Client) : Client := { c with netState := .success }

def netStartAgain (c : Client) : Client := { c with netState := .startAgain }

/-! ## Sending -/

def tftpSend (c : Client) : Client × List Output :=
  match c.tftpState with
  | .sendRrq =>
    (c, [.request false c.tftpFilename (c.tftpTimeoutMSecs/1000) c.tftpBlkSizeOption])
  | .sendWrq =>
    (c, [.request true c.tftpFilename (c.tftpTimeoutMSecs/1000) c.tftpBlkSizeOption])
  | .tooLarge => (c, [.error 3 "File too large"])
  | .badMagic => (c, [.error 2 "File has bad magic"])
  | .oack | .recvWrq | .data =>
    if c.tftpWriting then
      let (offset, loaded) := loadBlock c c.tftpBlock c.tftpBlkSize
      ({ c with tftpFinalBlock := loaded < c.tftpBlkSize },
        [.read offset loaded, .data (c.tftpBlock % 65536)
          ((List.range loaded).map fun i => c.mem (wrap32 (c.saveAddr+offset+i)))])
    else (c, [.ack (c.tftpBlock % 65536)])

/-! ## Receiving -/

/-- The string at the start of a list is the given one. -/
def cstrAt (l s : List UInt8) : Bool := l.take s.length = s ∧ (l.drop s.length).headD 0 = 0

def digitValue (c : UInt8) : Option ℕ :=
  if 48 ≤ c ∧ c ≤ 57 then some (c.toNat-48)
  else if 97 ≤ c ∧ c ≤ 102 then some (c.toNat-87)
  else if 65 ≤ c ∧ c ≤ 70 then some (c.toNat-55)
  else none

def digits (base : ℕ) : ℕ → List UInt8 → ℕ
  | result, [] => result
  | result, c::cs =>
    match digitValue c with
    | none => result
    | some v => if v < base then digits base (wrap32 (result*base+v)) cs else result

/-- `simple_strtoul` with base 10; `0x` switches to base 16. -/
def simpleStrtoul10 (l : List UInt8) : ℕ :=
  match l with
  | 48::120::d::rest => if (digitValue d).isSome then digits 16 0 (d::rest) else 0
  | 48::rest => digits 10 0 rest
  | l => digits 10 0 l

def blksizeText : List UInt8 := [98, 108, 107, 115, 105, 122, 101]

/-- The block size after an option acknowledgement with this text. -/
def parseOack (text : List UInt8) (blksize : ℕ) : ℕ :=
  (List.range (text.length-8)).foldl (fun b i =>
    if cstrAt (text.drop i) blksizeText then simpleStrtoul10 (text.drop (i+8)) % 65536 else b) blksize

/-- An acknowledgement while writing. -/
def receiveAck (c : Client) (block : ℕ) : Client × List Output :=
  if c.tftpFinalBlock then (tftpComplete c, [])
  else
    let c' := updateBlockNumber { c with tftpBlock := (block+1) % 65536 }
    if c.tftpBlock = block then tftpSend c' else (c', [])

def receiveOack (c : Client) (src : ℕ) (text : List UInt8) : Client × List Output :=
  let c1 := { c with tftpState := .oack, tftpRemotePort := src
                     tftpBlkSize := parseOack text c.tftpBlkSize }
  tftpSend (if c.tftpWriting then { c1 with tftpState := .data, tftpBlock := wrap32 (c1.tftpBlock+1) }
    else c1)

/-- The part of the data branch after the first block has been checked. -/
def acceptData (c : Client) (payload : List UInt8) : Client × List Output :=
  if c.tftpBlock = c.tftpLastBlock then (c, [])
  else
    let c1 := { c with tftpLastBlock := c.tftpBlock, tftpTimeoutCountMax := timeoutCount }
    let (c2, out) := tftpSend (storeBlock c1 ((c1.tftpBlock : ℤ)-1) payload)
    (if payload.length < c2.tftpBlkSize then tftpComplete c2 else c2, out)

def receiveData (c : Client) (src block : ℕ) (payload : List UInt8) : Client × List Output :=
  let c1 := updateBlockNumber { c with tftpBlock := block }
  if c1.tftpState = .sendRrq ∨ c1.tftpState = .oack ∨ c1.tftpState = .recvWrq then
    let c2 := newTransfer { c1 with tftpState := .data, tftpRemotePort := src }
    if c2.tftpBlock ≠ 1 then (netStartAgain c2, []) else acceptData c2 payload
  else acceptData c1 payload

def receiveError (c : Client) (code : ℕ) : Client :=
  if code = tftpErrFileNotFound ∨ code = tftpErrAccessDenied then { c with netState := .fail }
  else netStartAgain c

/-- The switch over the opcode; `pkt` is what follows it. -/
def receivePacket (c : Client) (src proto : ℕ) (pkt : List UInt8) : Client × List Output :=
  if proto = tftpAck then if c.tftpWriting then receiveAck c (ntohs pkt) else (c, [])
  else if proto = tftpOack then receiveOack c src pkt
  else if proto = tftpData then
    if pkt.length < 2 then (c, []) else receiveData c src (ntohs pkt) (pkt.drop 2)
  else if proto = tftpError then (receiveError c (ntohs pkt), [])
  else (c, [])

def tftpHandler (c : Client) (d : Datagram) : Client × List Output :=
  if d.dest ≠ c.tftpOurPort then (c, [])
  else if c.tftpState ≠ .sendRrq ∧ d.src ≠ c.tftpRemotePort ∧ c.tftpState ≠ .recvWrq ∧
      c.tftpState ≠ .sendWrq then (c, [])
  else if d.pkt.length < 2 then (c, [])
  else receivePacket c d.src (ntohs d.pkt) (d.pkt.drop 2)

def tftpTimeout (c : Client) : Client × List Output :=
  let c1 := { c with tftpTimeoutCount := c.tftpTimeoutCount+1 }
  if c1.tftpTimeoutCount > c1.tftpTimeoutCountMax then (netStartAgain c1, [])
  else if c1.tftpState ≠ .recvWrq then tftpSend c1 else (c1, [])

/-- `TftpStart` as far as the transfer depends on it: `saveSize` is given for a
put, and the counts and ports come from the caller. -/
def tftpStart (c : Client) (put : Bool) (saveSize rrqTimeoutCountMax remotePort ourPort : ℕ) :
    Client × List Output :=
  let c1 := { c with tftpWriting := put }
  let c2 := if put then newTransfer { c1 with netBootFileXferSize := saveSize, tftpState := .sendWrq }
    else { c1 with tftpState := .sendRrq }
  tftpSend { c2 with tftpTimeoutCountMax := rrqTimeoutCountMax, tftpRemotePort := remotePort
                     tftpTimeoutCount := 0, tftpOurPort := ourPort, tftpBlock := 0
                     tftpBlkSize := tftpBlockSize }

/-- A packet for this transfer reaches the switch. -/
theorem handler_receive (c : Client) (src : ℕ) (a b : UInt8) (pkt : List UInt8)
    (h : c.tftpState = .sendRrq ∨ c.tftpState = .sendWrq ∨ c.tftpRemotePort = src) :
    tftpHandler c ⟨c.tftpOurPort, src, a::b::pkt⟩ =
      receivePacket c src (a.toNat*256+b.toNat) pkt := by
  have hport : ¬ (c.tftpState ≠ .sendRrq ∧ src ≠ c.tftpRemotePort ∧ c.tftpState ≠ .recvWrq ∧
      c.tftpState ≠ .sendWrq) := by
    rintro ⟨h1, h2, -, h3⟩
    rcases h with h | h | h
    · exact h1 h
    · exact h3 h
    · exact h2 h.symm
  unfold tftpHandler
  simp only [ne_eq, not_true_eq_false, if_false]
  rw [if_neg hport, if_neg (by simp)]
  rfl

theorem ntohs_number (k : ℕ) (rest : List UInt8) :
    ntohs (UInt8.ofNat (k/256)::UInt8.ofNat k::rest) = k % 65536 := by
  simp [ntohs]
  omega

/-- A block of the current round goes to its place in the file. -/
theorem block_offset (bs k : ℕ) (hk : 0 < k) (hfit : (k-1)*bs < 4294967296) :
    (((((k % 65536 : ℕ) : ℤ)-1)*bs+(wrap32 (k/65536*(bs*65536)) : ℕ)) % 4294967296).toNat =
      (k-1)*bs := by
  have hk' : (k : ℤ) = 65536*((k/65536 : ℕ) : ℤ)+((k % 65536 : ℕ) : ℤ) := by omega
  have hcast : ((wrap32 (k/65536*(bs*65536)) : ℕ) : ℤ) =
      (((k/65536 : ℕ) : ℤ)*(bs*65536)) % 4294967296 := by
    simp [wrap32]
  have heq : (((k % 65536 : ℕ) : ℤ)-1)*bs+((k/65536 : ℕ) : ℤ)*(bs*65536) = (((k-1)*bs : ℕ) : ℤ) := by
    rw [Nat.cast_mul, Nat.cast_sub hk]
    push_cast at hk' ⊢
    linear_combination (-(bs : ℤ))*hk'
  rw [hcast, Int.add_emod_emod, heq]
  omega

/-- An option acknowledgement sets the same block size each time. -/
theorem parseOack_twice (text : List UInt8) (b : ℕ) :
    parseOack text (parseOack text b) = parseOack text b := by
  have h : ∀ l : List ℕ, (∀ b, l.foldl (fun b i => if cstrAt (text.drop i) blksizeText
      then simpleStrtoul10 (text.drop (i+8)) % 65536 else b) b = b) ∨
      ∃ v, ∀ b, l.foldl (fun b i => if cstrAt (text.drop i) blksizeText
      then simpleStrtoul10 (text.drop (i+8)) % 65536 else b) b = v := by
    intro l
    induction l with
    | nil => exact .inl fun _ => rfl
    | cons i l ih =>
      simp only [List.foldl_cons]
      rcases ih with ih | ⟨v, ih⟩
      · by_cases hi : cstrAt (text.drop i) blksizeText = true
        · exact .inr ⟨_, fun b => by rw [if_pos hi, ih]⟩
        · exact .inl fun b => by rw [if_neg hi, ih]
      · exact .inr ⟨v, fun b => ih _⟩
  unfold parseOack
  rcases h (List.range (text.length-8)) with h | ⟨v, h⟩
  · rw [h, h]
  · rw [h, h]

theorem update_fields (c : Client) :
    (updateBlockNumber c).mem = c.mem ∧ (updateBlockNumber c).loadAddr = c.loadAddr ∧
    (updateBlockNumber c).tftpWriting = c.tftpWriting ∧
    (updateBlockNumber c).netState = c.netState ∧ (updateBlockNumber c).tftpBlock = c.tftpBlock ∧
    (updateBlockNumber c).tftpState = c.tftpState ∧
    (updateBlockNumber c).tftpLastBlock = c.tftpLastBlock ∧
    (updateBlockNumber c).tftpBlkSize = c.tftpBlkSize ∧
    (updateBlockNumber c).tftpRemotePort = c.tftpRemotePort := by
  unfold updateBlockNumber
  split_ifs <;> exact ⟨rfl, rfl, rfl, rfl, rfl, rfl, rfl, rfl, rfl⟩

/-- The round that a block is taken for. -/
theorem update_round (c : Client) (bs k : ℕ) (hk : k ≤ 4294967296) (hsize : c.tftpBlkSize = bs)
    (hoff : c.tftpBlockWrapOffset = wrap32 (c.tftpBlockWrap*(bs*65536)))
    (hround : k/65536 = if k % 65536 = 0 then c.tftpBlockWrap+1 else c.tftpBlockWrap) :
    (updateBlockNumber { c with tftpBlock := k % 65536 }).tftpBlockWrap = k/65536 ∧
    (updateBlockNumber { c with tftpBlock := k % 65536 }).tftpBlockWrapOffset =
      wrap32 (k/65536*(bs*65536)) := by
  unfold updateBlockNumber
  by_cases h0 : k % 65536 = 0
  · rw [if_pos h0] at hround
    simp only [if_pos h0, hoff, hsize, tftpSequenceSize, hround]
    constructor
    · exact Nat.mod_eq_of_lt (by omega)
    · simp only [wrap32, Nat.mod_add_mod, Nat.succ_mul]
  · rw [if_neg h0] at hround
    simp only [if_neg h0, hround, hoff]
    exact ⟨trivial, trivial⟩

end UBoot.Tftp
