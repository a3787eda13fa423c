import UBoot.Tftp

/-!
# Reading a file over a network that delays, duplicates and reorders

The server sends block `k+1` after an acknowledgement with the number of block
`k`; everything either side has sent may arrive any number of times. An
acknowledgement carries along, unseen by the two, which block it was sent for.
The client takes a block for one of the current round of 65536 numbers, and
counts a round whenever the number 0 arrives, also for a copy.
-/

set_option autoImplicit false

namespace UBoot.Tftp.Read
open UBoot.BlockTransfer

structure Server where
  file : List UInt8
  port : ℕ
  /-- The text of its option acknowledgement, if it sends one. -/
  oack : Option (List UInt8)

def Server.blksize (p : Server) : ℕ :=
  match p.oack with
  | none => tftpBlockSize
  | some text => parseOack text tftpBlockSize

/-- The index of the last block; its number is one more. -/
def Server.last (p : Server) : ℕ := BlockTransfer.last p.blksize p.file

def Server.oackFrame (p : Server) (dest : ℕ) (text : List UInt8) : Datagram :=
  ⟨dest, p.port, 0::6::text⟩

def Server.dataFrame (p : Server) (dest k : ℕ) : Datagram :=
  ⟨dest, p.port, 0::3::UInt8.ofNat (k/256)::UInt8.ofNat k::block p.blksize p.file (k-1)⟩

def Server.errorFrame (p : Server) (dest : ℕ) (code : UInt8) (text : List UInt8) : Datagram :=
  ⟨dest, p.port, 0::5::0::code::text⟩

/-- The client, the last block sent by the server, the block that the client
has stored last, and the acknowledgements with the block each is for. -/
structure Sys where
  client : Client
  sent : ℕ
  held : ℕ
  acks : List (ℕ × ℕ)

inductive Event where
  | oack
  | data (k : ℕ)
  | ack (k : ℕ)
  | error (code : UInt8)
  | timeout
  deriving DecidableEq, Repr

def ackNumbers (out : List Output) : List ℕ :=
  out.filterMap fun o => match o with
    | .ack n => some n
    | _ => none

theorem ackNumbers_ack (n : ℕ) : ackNumbers [.ack n] = [n] := rfl

/-- The system after the client has dealt with a packet or a timeout; `k` is
the block that an acknowledgement in its output is for. -/
def Sys.after (s : Sys) (k : ℕ) (r : Client × List Output) : Sys :=
  ⟨r.1, s.sent, if r.2 = [] then s.held else k, s.acks ++ (ackNumbers r.2).map fun n => (n, k)⟩

def Sys.Live (s : Sys) : Prop := s.client.netState = .running ∨ s.client.netState = .success

inductive Step (p : Server) : Sys → Event → Sys → Prop where
  | oack (s : Sys) (hl : s.Live) (text : List UInt8) (ht : p.oack = some text) :
      Step p s .oack (s.after s.held (tftpHandler s.client (p.oackFrame s.client.tftpOurPort text)))
  | data (s : Sys) (hl : s.Live) (k : ℕ) (hk : 0 < k) (hs : k ≤ s.sent) :
      Step p s (.data k) (s.after k (tftpHandler s.client (p.dataFrame s.client.tftpOurPort k)))
  | ack (s : Sys) (k : ℕ) (ha : (s.sent % 65536, k) ∈ s.acks) (hs : s.sent ≤ p.last) :
      Step p s (.ack k) { s with sent := s.sent+1 }
  | error (s : Sys) (hl : s.Live) (code : UInt8) (text : List UInt8) :
      Step p s (.error code)
        (s.after s.held (tftpHandler s.client (p.errorFrame s.client.tftpOurPort code text)))
  | timeout (s : Sys) (hl : s.Live) : Step p s .timeout (s.after s.held (tftpTimeout s.client))

/-- The delivered block is of the round that the client will take it for, or
has the number that it ignores. -/
def InRound (c : Client) (k : ℕ) : Prop :=
  match c.tftpState with
  | .data => k % 65536 ≠ 0 ∧ k % 65536 = c.tftpLastBlock ∨
      k/65536 = if k % 65536 = 0 then c.tftpBlockWrap+1 else c.tftpBlockWrap
  | _ => k % 65536 = 1 → k = 1

/-- Blocks arrive in the round they belong to, and the server is not shown an
acknowledgement of an earlier block with the same number. -/
def Clear (s : Sys) : Event → Prop
  | .data k => InRound s.client k
  | .ack k => k = s.sent
  | _ => True

/-! ## Packets of the server -/

/-- The ports are those of this transfer. -/
def Ports (p : Server) (c : Client) : Prop :=
  c.tftpState = .sendRrq ∨ c.tftpState = .sendWrq ∨ c.tftpRemotePort = p.port

theorem handler_data (p : Server) (c : Client) (k : ℕ) (hp : Ports p c) :
    tftpHandler c (p.dataFrame c.tftpOurPort k) =
      receiveData c p.port (k % 65536) (block p.blksize p.file (k-1)) := by
  rw [Server.dataFrame, handler_receive c p.port _ _ _ hp]
  simp only [receivePacket]
  rw [if_neg (by decide), if_neg (by decide), if_pos (by decide), if_neg (by simp), ntohs_number]
  rfl

theorem handler_oack (p : Server) (c : Client) (text : List UInt8) (hp : Ports p c) :
    tftpHandler c (p.oackFrame c.tftpOurPort text) = receiveOack c p.port text := by
  rw [Server.oackFrame, handler_receive c p.port _ _ _ hp]
  simp only [receivePacket]
  rw [if_neg (by decide), if_pos (by decide)]

theorem handler_error (p : Server) (c : Client) (code : UInt8) (text : List UInt8)
    (hp : Ports p c) :
    tftpHandler c (p.errorFrame c.tftpOurPort code text) = (receiveError c code.toNat, []) := by
  rw [Server.errorFrame, handler_receive c p.port _ _ _ hp]
  simp only [receivePacket]
  rw [if_neg (by decide), if_neg (by decide), if_neg (by decide), if_pos (by decide)]
  simp [ntohs]

/-! ## Storing a block -/

/-- What storing a block leaves. -/
structure Accepted (c c' : Client) (payload : List UInt8) : Prop where
  mem : c'.mem = store c.mem (wrap32 (c.loadAddr+((((c.tftpBlock : ℤ)-1)*c.tftpBlkSize+
    c.tftpBlockWrapOffset) % 4294967296).toNat)) payload
  block : c'.tftpBlock = c.tftpBlock
  lastBlock : c'.tftpLastBlock = c.tftpBlock
  state : c'.tftpState = c.tftpState
  blkSize : c'.tftpBlkSize = c.tftpBlkSize
  remotePort : c'.tftpRemotePort = c.tftpRemotePort
  wrap : c'.tftpBlockWrap = c.tftpBlockWrap
  wrapOffset : c'.tftpBlockWrapOffset = c.tftpBlockWrapOffset
  loadAddr : c'.loadAddr = c.loadAddr
  writing : c'.tftpWriting = c.tftpWriting
  netState : c'.netState = if payload.length < c.tftpBlkSize then .success else c.netState

theorem acceptData_new (c : Client) (payload : List UInt8) (hw : c.tftpWriting = false)
    (hs : c.tftpState = .data) (hne : c.tftpBlock ≠ c.tftpLastBlock) :
    ∃ c', acceptData c payload = (c', [.ack (c.tftpBlock % 65536)]) ∧ Accepted c c' payload := by
  unfold acceptData
  rw [if_neg hne]
  simp only [tftpSend, storeBlock, hs, hw, Bool.false_eq_true, if_false]
  refine ⟨_, rfl, ?_⟩
  by_cases hlen : payload.length < c.tftpBlkSize
  · rw [if_pos hlen]
    exact ⟨rfl, rfl, rfl, hs.symm, rfl, rfl, rfl, rfl, rfl, hw.symm, (if_pos hlen).symm⟩
  · rw [if_neg hlen]
    exact ⟨rfl, rfl, rfl, hs.symm, rfl, rfl, rfl, rfl, rfl, hw.symm, (if_neg hlen).symm⟩

theorem acceptData_same (c : Client) (payload : List UInt8) (h : c.tftpBlock = c.tftpLastBlock) :
    acceptData c payload = (c, []) := if_pos h

/-! ## The invariant -/

def Got (p : Server) (load : ℕ) (c : Client) (j : ℕ) : Prop := Have c.mem p.blksize load p.file j

/-- What holds in each state of the client. -/
def Stage (p : Server) (s : Sys) : Prop :=
  match s.client.tftpState with
  | .sendRrq => s.client.tftpBlkSize = tftpBlockSize ∧ (p.oack ≠ none → s.sent = 0 ∧ s.acks = [])
  | .oack => s.client.tftpBlkSize = p.blksize ∧ s.client.tftpRemotePort = p.port
  | .data => s.client.tftpBlkSize = p.blksize ∧ s.client.tftpRemotePort = p.port ∧
      s.client.tftpBlockWrapOffset = wrap32 (s.client.tftpBlockWrap*(p.blksize*65536)) ∧
      (s.Live → s.client.tftpLastBlock = s.held % 65536)
  | _ => False

structure Inv (p : Server) (load : ℕ) (m : ℕ → UInt8) (s : Sys) : Prop where
  loadAddr : s.client.loadAddr = load
  writing : s.client.tftpWriting = false
  agree : Agree m load p.file s.client.mem
  held : s.held = 0 ∨ Got p load s.client (s.held-1)
  before : ∀ j, j+1 < s.sent → Got p load s.client j
  sent_le : s.sent ≤ p.last+1
  acks : ∀ w n, (w, n) ∈ s.acks → w = n % 65536 ∧ (n = 0 ∨ Got p load s.client (n-1))
  current : s.Live → s.client.tftpBlock = s.held % 65536
  stage : Stage p s
  complete : s.client.netState = .success → ∀ j ≤ p.last, Got p load s.client j

theorem stage_cases (p : Server) (s : Sys) (h : Stage p s) : s.client.tftpState = .sendRrq ∨
    s.client.tftpState = .oack ∨ s.client.tftpState = .data := by
  unfold Stage at h
  cases hs : s.client.tftpState <;> simp [hs] at h ⊢

/-- A change of counters only, without an acknowledgement of the request. -/
theorem stage_congr (p : Server) (s s' : Sys) (h : Stage p s)
    (hstate : s'.client.tftpState = s.client.tftpState)
    (hsize : s'.client.tftpBlkSize = s.client.tftpBlkSize)
    (hport : s'.client.tftpRemotePort = s.client.tftpRemotePort)
    (hwrap : s'.client.tftpBlockWrap = s.client.tftpBlockWrap)
    (hoff : s'.client.tftpBlockWrapOffset = s.client.tftpBlockWrapOffset)
    (hlast : s'.client.tftpLastBlock = s.client.tftpLastBlock) (hsent : s'.sent = s.sent)
    (hacks : s.client.tftpState = .sendRrq → s'.acks = s.acks)
    (hlive : s'.Live → s.Live ∧ s'.held = s.held) : Stage p s' := by
  have hcases := stage_cases p s h
  unfold Stage at h ⊢
  rw [hstate, hsize, hport, hwrap, hoff, hlast, hsent]
  rcases hcases with hs | hs | hs <;> simp only [hs] at h ⊢
  · rw [hacks hs]
    exact h
  · exact h
  · refine ⟨h.1, h.2.1, h.2.2.1, fun hl => ?_⟩
    rw [(hlive hl).2]
    exact h.2.2.2 (hlive hl).1

theorem inv_ports (p : Server) (load : ℕ) (m : ℕ → UInt8) (s : Sys) (h : Inv p load m s) :
    Ports p s.client := by
  have hst := h.stage
  unfold Stage at hst
  rcases stage_cases p s h.stage with hs | hs | hs <;> simp only [hs] at hst
  · exact .inl hs
  · exact .inr (.inr hst.2)
  · exact .inr (.inr hst.2.1)

/-- A new block of the right round is stored and acknowledged. -/
theorem accept_inv (p : Server) (hbs : 0 < p.blksize) (load : ℕ) (m : ℕ → UInt8)
    (hfit : load+p.file.length < 4294967296) (s : Sys) (h : Inv p load m s) (k : ℕ) (hk : 0 < k)
    (hsent : k ≤ s.sent) (c c' : Client) (hmem : c.mem = s.client.mem) (hload : c.loadAddr = load)
    (hw : c.tftpWriting = false) (hstate : c.tftpState = .data) (hsize : c.tftpBlkSize = p.blksize)
    (hport : c.tftpRemotePort = p.port) (hblock : c.tftpBlock = k % 65536)
    (hwrap : c.tftpBlockWrap = k/65536)
    (hoff : c.tftpBlockWrapOffset = wrap32 (k/65536*(p.blksize*65536)))
    (hnet : c.netState = s.client.netState)
    (ha : Accepted c c' (block p.blksize p.file (k-1))) :
    Inv p load m (s.after k (c', [.ack (k % 65536)])) := by
  have hlast := h.sent_le
  have hle : (k-1)*p.blksize ≤ p.file.length :=
    (Nat.le_div_iff_mul_le hbs).mp (show k-1 ≤ p.last by omega)
  have hstore : c'.mem = store s.client.mem (load+(k-1)*p.blksize)
      (block p.blksize p.file (k-1)) := by
    have hm := ha.mem
    rw [hblock, hsize, hoff, block_offset p.blksize k hk (by omega), hload, hmem] at hm
    rwa [wrap32, Nat.mod_eq_of_lt (by omega)] at hm
  have hkeep : ∀ j, Got p load s.client j → Got p load c' j := by
    intro j hj
    unfold Got
    rw [hstore]
    exact have_store _ _ _ _ _ _ hj
  have hself : Got p load c' (k-1) := by
    unfold Got
    rw [hstore]
    exact have_store_self _ _ _ _ _
  refine ⟨ha.loadAddr.trans hload, ha.writing.trans hw, ?_, .inr ?_, ?_, hlast, ?_, ?_, ?_, ?_⟩
  · simp only [Sys.after]
    rw [hstore]
    exact agree_store m load p.file _ p.blksize (k-1) h.agree
  · simpa [Sys.after] using hself
  · intro j hj
    exact hkeep j (h.before j hj)
  · intro w n hmem'
    simp only [Sys.after, ackNumbers_ack, List.map_cons, List.map_nil, List.mem_append,
      List.mem_singleton, Prod.mk.injEq] at hmem'
    rcases hmem' with hmem' | ⟨rfl, rfl⟩
    · obtain ⟨h1, h2⟩ := h.acks w n hmem'
      exact ⟨h1, h2.imp_right (hkeep _)⟩
    · exact ⟨rfl, .inr hself⟩
  · intro _
    simpa [Sys.after] using ha.block.trans hblock
  · simp only [Stage, Sys.after, ha.state, hstate]
    refine ⟨ha.blkSize.trans hsize, ha.remotePort.trans hport, ?_, fun _ => ?_⟩
    · rw [ha.wrapOffset, ha.wrap, hoff, hwrap]
    · simpa using ha.lastBlock.trans hblock
  · intro hdone j hj
    have hn := ha.netState
    by_cases hshort : (block p.blksize p.file (k-1)).length < c.tftpBlkSize
    · have hkl : k-1 = p.last := by
        by_contra hne
        have hfull := block_full p.blksize p.file hbs (k-1) (show k-1 < p.last by omega)
        omega
      rcases Nat.lt_or_eq_of_le hj with hlt | rfl
      · exact hkeep j (h.before j (by omega))
      · rw [← hkl]
        exact hself
    · rw [if_neg hshort, hnet] at hn
      exact hkeep j (h.complete (hn.symm.trans hdone) j hj)

/-- Steps that store nothing and acknowledge only what is held. -/
theorem quiet_inv (p : Server) (load : ℕ) (m : ℕ → UInt8) (s : Sys) (h : Inv p load m s)
    (hl : s.Live) (k : ℕ) (c' : Client) (out : List Output) (hmem : c'.mem = s.client.mem)
    (hload : c'.loadAddr = s.client.loadAddr) (hw : c'.tftpWriting = s.client.tftpWriting)
    (hnet : c'.netState = .success → s.client.netState = .success)
    (hout : out = [] ∨ k = s.held ∧ ∀ w ∈ ackNumbers out, w = s.client.tftpBlock % 65536)
    (hblock : (s.after k (c', out)).Live → c'.tftpBlock = s.held % 65536)
    (hstage : Stage p (s.after k (c', out))) : Inv p load m (s.after k (c', out)) := by
  have hgot : ∀ j, Got p load s.client j → Got p load c' j := by
    intro j hj
    unfold Got
    rwa [hmem]
  have hheld : (s.after k (c', out)).held = s.held := by
    simp only [Sys.after]
    split_ifs with ho
    · rfl
    · rcases hout with hout | hout
      · exact absurd hout ho
      · exact hout.1
  refine ⟨hload.trans h.loadAddr, hw.trans h.writing, ?_, ?_, ?_, h.sent_le, ?_, ?_, hstage, ?_⟩
  · rw [Sys.after, hmem]
    exact h.agree
  · rw [hheld]
    exact h.held.imp_right (hgot _)
  · exact fun j hj => hgot j (h.before j hj)
  · intro w n hwn
    rcases List.mem_append.mp hwn with hwn | hwn
    · obtain ⟨h1, h2⟩ := h.acks w n hwn
      exact ⟨h1, h2.imp_right (hgot _)⟩
    · rcases hout with rfl | ⟨rfl, hall⟩
      · simp [ackNumbers] at hwn
      · obtain ⟨w', hw', heq⟩ := List.mem_map.mp hwn
        obtain ⟨rfl, rfl⟩ := Prod.mk.inj heq
        refine ⟨?_, h.held.imp_right (hgot _)⟩
        have hb := h.current hl
        rw [hall w' hw']
        omega
  · rw [hheld]
    exact hblock
  · exact fun hd j hj => hgot j (h.complete (hnet hd) j hj)

/-! ## Steps -/

theorem step_data_running (p : Server) (hbs : 0 < p.blksize) (load : ℕ) (m : ℕ → UInt8)
    (hfit : load+p.file.length < 4294967296) (s : Sys) (h : Inv p load m s) (hl : s.Live) (k : ℕ)
    (hk : 0 < k) (hsent : k ≤ s.sent) (hstate : s.client.tftpState = .data)
    (hc : InRound s.client k) :
    Inv p load m (s.after k (acceptData (updateBlockNumber { s.client with tftpBlock := k % 65536 })
      (block p.blksize p.file (k-1)))) := by
  have hst := h.stage
  unfold Stage at hst
  simp only [hstate] at hst
  obtain ⟨hsize, hport, hoff, hlast⟩ := hst
  obtain ⟨fmem, fload, fw, fnet, fblock, fstate, flast, fsize, fport⟩ :=
    update_fields { s.client with tftpBlock := k % 65536 }
  generalize hc1 : updateBlockNumber { s.client with tftpBlock := k % 65536 } = c1 at *
  unfold InRound at hc
  simp only [hstate] at hc
  have hle : p.last ≤ p.file.length := Nat.div_le_self _ _
  have hsl := h.sent_le
  by_cases hsame : c1.tftpBlock = c1.tftpLastBlock
  · rw [acceptData_same c1 _ hsame]
    have hround : c1.tftpBlockWrapOffset = wrap32 (c1.tftpBlockWrap*(p.blksize*65536)) := by
      rcases hc with ⟨h0, -⟩ | hround
      · have hid : c1 = { s.client with tftpBlock := k % 65536 } := by
          rw [← hc1]
          exact if_neg h0
        rw [hid]
        exact hoff
      · have hu := update_round s.client p.blksize k (by omega) hsize hoff hround
        rw [hc1] at hu
        rw [hu.1, hu.2]
    have hlast' : c1.tftpLastBlock = s.held % 65536 := flast.trans (hlast hl)
    refine quiet_inv p load m s h hl k c1 [] fmem fload fw (fun hd => fnet.symm.trans hd) (.inl rfl)
      (fun _ => hsame.trans hlast') ?_
    simp only [Stage, Sys.after, fstate, hstate]
    exact ⟨fsize.trans hsize, fport.trans hport, hround, fun _ => by simpa using hlast'⟩
  · have hround : k/65536 = if k % 65536 = 0 then s.client.tftpBlockWrap+1
        else s.client.tftpBlockWrap := by
      rcases hc with ⟨-, heq⟩ | hround
      · refine absurd ?_ hsame
        rw [fblock, flast]
        exact heq
      · exact hround
    have hu := update_round s.client p.blksize k (by omega) hsize hoff hround
    rw [hc1] at hu
    obtain ⟨c', heq, ha⟩ := acceptData_new c1 (block p.blksize p.file (k-1)) (fw.trans h.writing)
      (fstate.trans hstate) hsame
    have hnum : c1.tftpBlock % 65536 = k % 65536 := by
      rw [fblock]
      exact Nat.mod_mod _ _
    rw [heq, hnum]
    exact accept_inv p hbs load m hfit s h k hk hsent c1 c' fmem (fload.trans h.loadAddr)
      (fw.trans h.writing) (fstate.trans hstate) (fsize.trans hsize) (fport.trans hport) fblock hu.1
      hu.2 fnet ha

/-- The first block; any other number makes the client start again. -/
theorem step_data_first (p : Server) (hbs : 0 < p.blksize) (load : ℕ) (m : ℕ → UInt8)
    (hfit : load+p.file.length < 4294967296) (s : Sys) (h : Inv p load m s) (hl : s.Live) (k : ℕ)
    (hk : 0 < k) (hsent : k ≤ s.sent) (hsize : s.client.tftpBlkSize = p.blksize) (hc : k % 65536 = 1 → k = 1) :
    let c2 := newTransfer { updateBlockNumber { s.client with tftpBlock := k % 65536 } with
      tftpState := .data, tftpRemotePort := p.port }
    Inv p load m (s.after k (if c2.tftpBlock ≠ 1 then (netStartAgain c2, [])
      else acceptData c2 (block p.blksize p.file (k-1)))) := by
  obtain ⟨fmem, fload, fw, fnet, fblock, -, -, fsize, -⟩ :=
    update_fields { s.client with tftpBlock := k % 65536 }
  generalize updateBlockNumber { s.client with tftpBlock := k % 65536 } = c1 at *
  intro c2
  have hzero : (0 : ℕ) = wrap32 (0*(p.blksize*65536)) := by simp [wrap32]
  by_cases h1 : c2.tftpBlock ≠ 1
  · rw [if_pos h1]
    have hdead : ¬ (s.after k (netStartAgain c2, [])).Live := by
      rintro (hd | hd) <;> cases hd
    refine quiet_inv p load m s h hl k (netStartAgain c2) [] fmem fload fw (by intro hd; cases hd)
      (.inl rfl) (fun hd => absurd hd hdead) ?_
    exact ⟨fsize.trans hsize, rfl, hzero, fun hd => absurd hd hdead⟩
  · rw [if_neg h1]
    push Not at h1
    have hk1 : k = 1 := hc (fblock.symm.trans h1)
    subst hk1
    obtain ⟨c', heq, ha⟩ := acceptData_new c2 (block p.blksize p.file (1-1)) (fw.trans h.writing) rfl
      (by rw [h1]; exact Nat.one_ne_zero)
    rw [heq, h1]
    exact accept_inv p hbs load m hfit s h 1 hk hsent c2 c' fmem (fload.trans h.loadAddr)
      (fw.trans h.writing) rfl (fsize.trans hsize) rfl fblock rfl hzero fnet ha

theorem step_data (p : Server) (hbs : 0 < p.blksize) (load : ℕ) (m : ℕ → UInt8)
    (hfit : load+p.file.length < 4294967296) (s : Sys) (h : Inv p load m s) (hl : s.Live) (k : ℕ)
    (hk : 0 < k) (hsent : k ≤ s.sent) (hc : InRound s.client k) :
    Inv p load m (s.after k (tftpHandler s.client (p.dataFrame s.client.tftpOurPort k))) := by
  rw [handler_data p s.client k (inv_ports p load m s h)]
  have hfields := update_fields { s.client with tftpBlock := k % 65536 }
  have hst := h.stage
  unfold Stage at hst
  have hc' := hc
  unfold InRound at hc'
  unfold receiveData
  simp only
  rcases stage_cases p s h.stage with hstate | hstate | hstate <;> simp only [hstate] at hst hc'
  · have hnone : p.oack = none := by
      by_contra hne
      have := (hst.2 hne).1
      omega
    have hsize : s.client.tftpBlkSize = p.blksize := by
      rw [hst.1, Server.blksize, hnone]
    rw [if_pos (.inl (hfields.2.2.2.2.2.1.trans hstate))]
    exact step_data_first p hbs load m hfit s h hl k hk hsent hsize hc'
  · rw [if_pos (.inr (.inl (hfields.2.2.2.2.2.1.trans hstate)))]
    exact step_data_first p hbs load m hfit s h hl k hk hsent hst.1 hc'
  · have hs1 := hfields.2.2.2.2.2.1.trans hstate
    rw [if_neg (by rw [hs1]; decide)]
    exact step_data_running p hbs load m hfit s h hl k hk hsent hstate hc

/-- An acknowledgement sent again is for the block that is held. -/
theorem step_resend (p : Server) (load : ℕ) (m : ℕ → UInt8) (s : Sys) (h : Inv p load m s)
    (hl : s.Live) (c : Client) (hmem : c.mem = s.client.mem)
    (hload : c.loadAddr = s.client.loadAddr) (hw : c.tftpWriting = s.client.tftpWriting)
    (hnet : c.netState = s.client.netState) (hblock : c.tftpBlock = s.client.tftpBlock)
    (hstage : ∀ out, (c.tftpState = .sendRrq → ackNumbers out = []) →
      Stage p (s.after s.held (c, out))) (hstate : c.tftpState = .oack ∨
      c.tftpState = .data ∨ c.tftpState = .sendRrq) :
    Inv p load m (s.after s.held (tftpSend c)) := by
  have hwr : c.tftpWriting = false := hw.trans h.writing
  obtain ⟨out, hsend, hout, hreq⟩ : ∃ out, tftpSend c = (c, out) ∧
      (∀ w ∈ ackNumbers out, w = s.client.tftpBlock % 65536) ∧
      (c.tftpState = .sendRrq → ackNumbers out = []) := by
    rcases hstate with hs | hs | hs
    · exact ⟨[.ack (c.tftpBlock % 65536)], by simp [tftpSend, hs, hwr],
        by simp [ackNumbers_ack, hblock], by simp [hs]⟩
    · exact ⟨[.ack (c.tftpBlock % 65536)], by simp [tftpSend, hs, hwr],
        by simp [ackNumbers_ack, hblock], by simp [hs]⟩
    · exact ⟨[.request false c.tftpFilename (c.tftpTimeoutMSecs/1000) c.tftpBlkSizeOption],
        by simp [tftpSend, hs], by simp [ackNumbers], fun _ => rfl⟩
  rw [hsend]
  exact quiet_inv p load m s h hl s.held c out hmem hload hw (fun hd => hnet.symm.trans hd)
    (.inr ⟨rfl, hout⟩) (fun _ => hblock.trans (h.current hl)) (hstage out hreq)

theorem step_oack (p : Server) (load : ℕ) (m : ℕ → UInt8) (s : Sys) (h : Inv p load m s)
    (hl : s.Live) (text : List UInt8) (ht : p.oack = some text) :
    Inv p load m (s.after s.held (tftpHandler s.client (p.oackFrame s.client.tftpOurPort text))) := by
  have hbs : p.blksize = parseOack text tftpBlockSize := by
    rw [Server.blksize, ht]
  have hsize : parseOack text s.client.tftpBlkSize = p.blksize := by
    have hst := h.stage
    unfold Stage at hst
    rcases stage_cases p s h.stage with hs | hs | hs <;> simp only [hs] at hst
    · rw [hst.1, hbs]
    · rw [hst.1, hbs, parseOack_twice]
    · rw [hst.1, hbs, parseOack_twice]
  rw [handler_oack p s.client text (inv_ports p load m s h)]
  unfold receiveOack
  simp only [h.writing, Bool.false_eq_true, if_false]
  exact step_resend p load m s h hl _ rfl rfl h.writing.symm rfl rfl
    (fun out _ => ⟨hsize, rfl⟩) (.inl rfl)

theorem after_dead (s : Sys) (k : ℕ) (c : Client) (h : c.netState = .startAgain ∨ c.netState = .fail)
    (out : List Output) : ¬ (s.after k (c, out)).Live := by
  rintro (hd | hd) <;> rcases h with h | h <;> cases h.symm.trans hd

/-- The transfer is given up. -/
theorem step_dead (p : Server) (load : ℕ) (m : ℕ → UInt8) (s : Sys) (h : Inv p load m s)
    (hl : s.Live) (count : ℕ) (n : NetState) (hn : n = .startAgain ∨ n = .fail) :
    Inv p load m (s.after s.held ({ s.client with tftpTimeoutCount := count, netState := n }, [])) := by
  have hdead := after_dead s s.held { s.client with tftpTimeoutCount := count, netState := n } hn []
  refine quiet_inv p load m s h hl s.held _ [] rfl rfl rfl (fun hd => ?_) (.inl rfl)
    (fun hd => absurd hd hdead) ?_
  · rcases hn with rfl | rfl <;> cases hd
  · exact stage_congr p s _ h.stage rfl rfl rfl rfl rfl rfl rfl
      (fun _ => by simp [Sys.after, ackNumbers]) (fun hd => absurd hd hdead)

theorem step_timeout (p : Server) (load : ℕ) (m : ℕ → UInt8) (s : Sys) (h : Inv p load m s)
    (hl : s.Live) : Inv p load m (s.after s.held (tftpTimeout s.client)) := by
  have hcases := stage_cases p s h.stage
  unfold tftpTimeout
  simp only
  by_cases hcount : s.client.tftpTimeoutCount+1 > s.client.tftpTimeoutCountMax
  · rw [if_pos hcount]
    exact step_dead p load m s h hl _ .startAgain (.inl rfl)
  · rw [if_neg hcount, if_pos (by rcases hcases with hs | hs | hs <;> rw [hs] <;> decide)]
    refine step_resend p load m s h hl _ rfl rfl rfl rfl rfl (fun out hout => ?_) (by tauto)
    exact stage_congr p s _ h.stage rfl rfl rfl rfl rfl rfl rfl
      (fun hs => by simp [Sys.after, hout hs]) (fun _ => ⟨hl, by simp [Sys.after]⟩)

theorem step_error (p : Server) (load : ℕ) (m : ℕ → UInt8) (s : Sys) (h : Inv p load m s)
    (hl : s.Live) (code : UInt8) (text : List UInt8) : Inv p load m
      (s.after s.held (tftpHandler s.client (p.errorFrame s.client.tftpOurPort code text))) := by
  rw [handler_error p s.client code text (inv_ports p load m s h)]
  unfold receiveError
  split_ifs
  · exact step_dead p load m s h hl _ .fail (.inr rfl)
  · exact step_dead p load m s h hl _ .startAgain (.inl rfl)

theorem step_ack (p : Server) (load : ℕ) (m : ℕ → UInt8) (s : Sys) (h : Inv p load m s) (k : ℕ)
    (ha : (s.sent % 65536, k) ∈ s.acks) (hs : s.sent ≤ p.last) (hc : k = s.sent) :
    Inv p load m { s with sent := s.sent+1 } := by
  subst hc
  refine ⟨h.loadAddr, h.writing, h.agree, h.held, ?_, by simpa using hs, h.acks, h.current, ?_,
    h.complete⟩
  · intro j hj
    rcases Nat.lt_or_eq_of_le (Nat.le_of_lt_succ hj) with hlt | heq
    · exact h.before j hlt
    · rcases (h.acks _ _ ha).2 with h0 | hgot
      · omega
      · rw [← heq] at hgot
        exact hgot
  · have hst := h.stage
    unfold Stage at hst ⊢
    rcases stage_cases p s h.stage with hs | hs | hs <;> simp only [hs] at hst ⊢
    · refine ⟨hst.1, fun hne => ?_⟩
      rw [(hst.2 hne).2] at ha
      cases ha
    · exact hst
    · exact hst

theorem step_inv (p : Server) (hbs : 0 < p.blksize) (load : ℕ) (m : ℕ → UInt8)
    (hfit : load+p.file.length < 4294967296) (s : Sys) (e : Event) (s' : Sys) (h : Inv p load m s)
    (hc : Clear s e) (hs : Step p s e s') : Inv p load m s' := by
  cases hs with
  | oack hl text ht => exact step_oack p load m s h hl text ht
  | data hl k hk hsent => exact step_data p hbs load m hfit s h hl k hk hsent hc
  | ack k ha hsent => exact step_ack p load m s h k ha hsent hc
  | error hl code text => exact step_error p load m s h hl code text
  | timeout hl => exact step_timeout p load m s h hl

/-! ## The whole transfer -/

/-- The client has sent its request, and the server has answered it. -/
def start (p : Server) (c : Client) (rrqTimeoutCountMax remotePort ourPort : ℕ) : Sys :=
  ⟨(tftpStart { c with netState := .running } false 0 rrqTimeoutCountMax remotePort ourPort).1,
    if p.oack = none then 1 else 0, 0, []⟩

theorem start_inv (p : Server) (c : Client) (rrq remotePort ourPort : ℕ) :
    Inv p c.loadAddr c.mem (start p c rrq remotePort ourPort) := by
  refine ⟨rfl, rfl, fun i => .inl rfl, .inl rfl, ?_, ?_, fun w n hmem => ?_, fun _ => rfl,
    ⟨rfl, fun hne => ⟨if_neg hne, rfl⟩⟩, fun hd => nomatch hd⟩
  · intro j hj
    simp only [start] at hj
    split_ifs at hj <;> omega
  · simp only [start]
    split_ifs <;> omega
  · cases hmem

/-- In every run in which blocks arrive in the round they belong to and the
server is not shown a stale acknowledgement, completion means that the file is
in memory and nothing else has changed. -/
theorem tftp_read_integrity (p : Server) (hbs : 0 < p.blksize) (c : Client)
    (hfit : c.loadAddr+p.file.length < 4294967296) (rrq remotePort ourPort : ℕ) (s : Sys)
    (hrun : Reach (Step p) Clear (start p c rrq remotePort ourPort) s)
    (hdone : s.client.netState = .success) : s.client.mem = store c.mem c.loadAddr p.file := by
  have hinv := reach_invariant (Step p) Clear (Inv p c.loadAddr c.mem)
    (fun a e b h hc hs => step_inv p hbs c.loadAddr c.mem hfit a e b h hc hs) _ _
    (start_inv p c rrq remotePort ourPort) hrun
  exact store_of_have c.mem p.blksize hbs c.loadAddr p.file s.client.mem hinv.agree
    (hinv.complete hdone)

def idle : Client :=
  ⟨.sendRrq, 0, 0, 0, 0, 5000, 0, 0, 0, 0, 512, 1468, false, false, [97], 4096, 0, 0, .running,
    fun _ => 0⟩

theorem tftp_read_integrity_short :
    ∃ s, Reach (Step ⟨[7], 1000, none⟩) Clear (start ⟨[7], 1000, none⟩ idle 10 69 2000) s ∧
      s.client.netState = .success ∧ s.client.mem = store idle.mem 4096 [7] := by
  have hstep := Step.data (p := ⟨[7], 1000, none⟩) (start ⟨[7], 1000, none⟩ idle 10 69 2000)
    (.inl rfl) 1 (by decide) (by decide)
  have hrun := reach_next _ Clear _ _ _ _ .refl hstep (fun _ => rfl)
  exact ⟨_, hrun, by decide, tftp_read_integrity ⟨[7], 1000, none⟩ (by decide) idle (by decide) 10 69
    2000 _ hrun (by decide)⟩

/-! ## A transfer in order, and the copy of block 65536 -/

/-- The system after the first `k` blocks have come in order. -/
structure InOrder (p : Server) (c : Client) (s : Sys) (k : ℕ) : Prop where
  mem : s.client.mem = store c.mem c.loadAddr (p.file.take (k*p.blksize))
  state : s.client.tftpState = .data
  net : s.client.netState = .running
  lastBlock : s.client.tftpLastBlock = k % 65536
  wrap : s.client.tftpBlockWrap = k/65536
  sent : s.sent = k
  acked : (k % 65536, k) ∈ s.acks

/-- The next block, when the client has all before it and is in its round. -/
theorem accept_in_order (p : Server) (hbs : 0 < p.blksize) (c : Client)
    (hfit : c.loadAddr+p.file.length < 4294967296) (s : Sys) (k : ℕ) (hk : k < p.last) (c1 : Client)
    (hmem : c1.mem = store c.mem c.loadAddr (p.file.take (k*p.blksize)))
    (hload : c1.loadAddr = c.loadAddr) (hw : c1.tftpWriting = false) (hstate : c1.tftpState = .data)
    (hnet : c1.netState = .running) (hsize : c1.tftpBlkSize = p.blksize)
    (hblock : c1.tftpBlock = (k+1) % 65536) (hne : c1.tftpBlock ≠ c1.tftpLastBlock)
    (hwrap : c1.tftpBlockWrap = (k+1)/65536)
    (hoff : c1.tftpBlockWrapOffset = wrap32 ((k+1)/65536*(p.blksize*65536))) (hsent : s.sent = k+1) :
    InOrder p c (s.after (k+1) (acceptData c1 (block p.blksize p.file k))) (k+1) := by
  obtain ⟨c', heq, ha⟩ := acceptData_new c1 (block p.blksize p.file k) hw hstate hne
  have hle : k*p.blksize ≤ p.file.length := (Nat.le_div_iff_mul_le hbs).mp hk.le
  have hm := ha.mem
  rw [hblock, hsize, hoff, block_offset p.blksize (k+1) (by omega) (by simpa using by omega),
    hload, hmem] at hm
  rw [wrap32, Nat.add_sub_cancel, Nat.mod_eq_of_lt (by omega),
    store_block c.mem p.blksize hbs c.loadAddr p.file k hk.le] at hm
  have hn := ha.netState
  rw [block_full p.blksize p.file hbs k hk, hsize, if_neg (lt_irrefl _), hnet] at hn
  rw [heq]
  refine ⟨hm, ha.state.trans hstate, hn, ha.lastBlock.trans hblock, ha.wrap.trans hwrap, hsent, ?_⟩
  simp only [Sys.after, ackNumbers_ack, List.map_cons, List.map_nil, List.mem_append,
    List.mem_singleton, hblock, Nat.mod_mod, or_true]

theorem run_in_order (p : Server) (hp : p.oack = none) (c : Client)
    (hfit : c.loadAddr+p.file.length < 4294967296) (rrq remotePort ourPort k : ℕ) (hk : k < p.last) :
    ∃ s, Reach (Step p) Clear (start p c rrq remotePort ourPort) s ∧ InOrder p c s (k+1) := by
  have hsz : p.blksize = tftpBlockSize := by
    rw [Server.blksize, hp]
  have hbs : 0 < p.blksize := by
    rw [hsz]
    decide
  have hbound : p.last ≤ p.file.length := Nat.div_le_self _ _
  have hsent1 : (start p c rrq remotePort ourPort).sent = 1 := if_pos hp
  induction k with
  | zero =>
    have hstep := Step.data (p := p) (start p c rrq remotePort ourPort) (.inl rfl) 1 (by decide)
      hsent1.ge
    refine ⟨_, reach_next _ _ _ _ _ _ .refl hstep (fun _ => rfl), ?_⟩
    rw [handler_data p _ 1 (.inl rfl)]
    let c1 := newTransfer { updateBlockNumber
      { (start p c rrq remotePort ourPort).client with tftpBlock := 1 } with
        tftpState := .data, tftpRemotePort := p.port }
    refine accept_in_order p hbs c hfit (start p c rrq remotePort ourPort) 0 hk c1 ?_ rfl rfl rfl rfl
      hsz.symm rfl Nat.one_ne_zero rfl ?_ hsent1
    · simp only [Nat.zero_mul, List.take_zero, store_nil]
      rfl
    · simp only [Nat.zero_add, Nat.reduceDiv, Nat.zero_mul]
      rfl
  | succ k ih =>
    obtain ⟨s, hrun, ho⟩ := ih (by omega)
    have hinv := reach_invariant (Step p) Clear (Inv p c.loadAddr c.mem)
      (fun a e b h hc hs => step_inv p hbs c.loadAddr c.mem hfit a e b h hc hs) _ _
      (start_inv p c rrq remotePort ourPort) hrun
    have hst := hinv.stage
    unfold Stage at hst
    simp only [ho.state] at hst
    have hack := Step.ack (p := p) s (k+1) (by rw [ho.sent]; exact ho.acked) (by rw [ho.sent]; omega)
    have hrun1 := reach_next _ _ _ _ _ _ hrun hack ho.sent.symm
    have hdata := Step.data (p := p) { s with sent := s.sent+1 } (.inl ho.net) (k+1+1) (by omega)
      (by simp [ho.sent])
    have hround : (k+1+1)/65536 = if (k+1+1) % 65536 = 0 then s.client.tftpBlockWrap+1
        else s.client.tftpBlockWrap := by
      rw [ho.wrap]
      split_ifs <;> omega
    have hclear : Clear { s with sent := s.sent+1 } (.data (k+1+1)) := by
      unfold Clear InRound
      simp only [ho.state]
      exact .inr hround
    refine ⟨_, reach_next _ _ _ _ _ _ hrun1 hdata hclear, ?_⟩
    obtain ⟨fmem, fload, fw, fnet, fblock, fstate, flast, fsize, fport⟩ :=
      update_fields { s.client with tftpBlock := (k+1+1) % 65536 }
    have hu := update_round s.client p.blksize (k+1+1) (by omega) hst.1 hst.2.2.1 hround
    rw [handler_data p _ _ (inv_ports p c.loadAddr c.mem s hinv)]
    unfold receiveData
    simp only
    rw [if_neg (by rw [fstate]; simp only [ho.state]; decide)]
    refine accept_in_order p hbs c hfit _ (k+1) hk _ (fmem.trans ho.mem)
      (fload.trans hinv.loadAddr) (fw.trans hinv.writing) (fstate.trans ho.state)
      (fnet.trans ho.net) (fsize.trans hst.1) fblock ?_ hu.1 hu.2 (by simp [ho.sent])
    rw [fblock, flast]
    simp only [ho.lastBlock]
    omega

/-- A file of 65536 blocks of zeros and one more byte. -/
def longServer : Server := ⟨List.replicate 33554432 0 ++ [1], 1000, none⟩

theorem longServer_length : longServer.file.length = 33554433 := by
  rw [longServer, List.length_append, List.length_replicate]
  rfl

theorem longServer_blksize : longServer.blksize = 512 := rfl

theorem longServer_last : longServer.last = 65536 := by
  rw [Server.last, last, longServer_length, longServer_blksize]

theorem longServer_cell (m : ℕ → UInt8) :
    store m idle.loadAddr longServer.file (4096+33554432) = 1 := by
  have h : longServer.file[33554432]? = some 1 := by
    rw [longServer, List.getElem?_append_right (by rw [List.length_replicate]),
      List.length_replicate]
    rfl
  have hsub : 4096+33554432-idle.loadAddr = 33554432 := rfl
  rw [store, if_pos (by decide), hsub, h]
  rfl

/-- A copy of block 65536 counts a second round, so the last block is stored a
round too high and the transfer completes without it. -/
theorem copy_of_block_zero_corrupts :
    ∃ s, Reach (Step longServer) (fun _ _ => True) (start longServer idle 10 69 2000) s ∧
      s.client.netState = .success ∧ s.client.mem ≠ store idle.mem idle.loadAddr longServer.file := by
  have hfit : idle.loadAddr+longServer.file.length < 4294967296 := by
    rw [longServer_length]
    decide
  have hbs : 0 < longServer.blksize := by
    rw [longServer_blksize]
    decide
  obtain ⟨s, hrun, ho⟩ := run_in_order longServer rfl idle hfit 10 69 2000 65535
    (by rw [longServer_last]; decide)
  have hinv := reach_invariant (Step longServer) Clear (Inv longServer idle.loadAddr idle.mem)
    (fun a e b h hc hs => step_inv longServer hbs idle.loadAddr idle.mem hfit a e b h hc hs) _ _
    (start_inv longServer idle 10 69 2000) hrun
  have hst := hinv.stage
  unfold Stage at hst
  simp only [ho.state] at hst
  obtain ⟨hsize, hport, hoff, -⟩ := hst
  rw [ho.wrap, longServer_blksize] at hoff
  rw [longServer_blksize] at hsize
  -- the copy of block 65536 only counts the round
  have hcopy := Step.data (p := longServer) s (.inl ho.net) 65536 (by decide) ho.sent.ge
  rw [handler_data longServer _ _ (inv_ports longServer idle.loadAddr idle.mem s hinv)] at hcopy
  let c1 := { s.client with
    tftpBlock := 0, tftpBlockWrap := wrap32 (s.client.tftpBlockWrap+1)
    tftpBlockWrapOffset := wrap32 (s.client.tftpBlockWrapOffset+s.client.tftpBlkSize*tftpSequenceSize)
    tftpTimeoutCount := 0 }
  have hignored : ∀ payload, receiveData s.client longServer.port (65536 % 65536) payload = (c1, []) := by
    intro payload
    have hupdate : updateBlockNumber { s.client with tftpBlock := 65536 % 65536 } = c1 := if_pos rfl
    have hstate1 : c1.tftpState = .data := ho.state
    unfold receiveData
    simp only [hupdate]
    rw [if_neg (by rw [hstate1]; decide)]
    exact acceptData_same c1 payload (show 0 = s.client.tftpLastBlock by rw [ho.lastBlock])
  rw [hignored] at hcopy
  have hrun1 := reach_next _ _ _ _ _ _ (reach_any _ _ _ _ hrun) hcopy trivial
  have hacked : (s.sent % 65536, 65536) ∈ (s.after 65536 (c1, [])).acks := by
    rw [ho.sent]
    exact List.mem_append_left _ ho.acked
  have hack := Step.ack (p := longServer) (s.after 65536 (c1, [])) 65536 hacked (by
    rw [longServer_last]
    exact ho.sent.le)
  have hrun2 := reach_next _ _ _ _ _ _ hrun1 hack trivial
  have hfinal := Step.data (p := longServer) _ (show Sys.Live { s.after 65536 (c1, []) with
    sent := (s.after 65536 (c1, [])).sent+1 } from .inl ho.net) 65537 (by decide)
    (show 65537 ≤ s.sent+1 by rw [ho.sent])
  refine ⟨_, reach_next _ _ _ _ _ _ hrun2 hfinal trivial, ?_⟩
  have hports : Ports longServer c1 := .inr (.inr hport)
  change (tftpHandler c1 (longServer.dataFrame c1.tftpOurPort 65537)).1.netState = _ ∧
    (tftpHandler c1 (longServer.dataFrame c1.tftpOurPort 65537)).1.mem ≠ _
  rw [handler_data longServer c1 65537 hports]
  have hstored : receiveData c1 longServer.port (65537 % 65536)
      (block longServer.blksize longServer.file (65537-1)) =
      acceptData { c1 with tftpBlock := 1 } (block longServer.blksize longServer.file 65536) := by
    unfold receiveData
    simp only [updateBlockNumber, Nat.reduceMod, Nat.one_ne_zero, if_false]
    rw [if_neg (by change ¬ (s.client.tftpState = _ ∨ s.client.tftpState = _ ∨
      s.client.tftpState = _); rw [ho.state]; decide)]
  rw [hstored]
  obtain ⟨c', heq, ha⟩ := acceptData_new { c1 with tftpBlock := 1 }
    (block longServer.blksize longServer.file 65536) hinv.writing ho.state
    (by change 1 ≠ s.client.tftpLastBlock; rw [ho.lastBlock]; decide)
  rw [heq]
  have hlen : (block longServer.blksize longServer.file 65536).length = 1 := by
    rw [block_length, longServer_length, longServer_blksize]
    decide
  have hoff1 : c1.tftpBlockWrapOffset = 67108864 := by
    change wrap32 (s.client.tftpBlockWrapOffset+s.client.tftpBlkSize*tftpSequenceSize) = _
    rw [hoff, hsize]
    rfl
  have hm := ha.mem
  simp only at hm
  rw [hoff1] at hm
  constructor
  · have hn := ha.netState
    rw [hlen, if_pos (by change 1 < s.client.tftpBlkSize; rw [hsize]; decide)] at hn
    exact hn
  · intro hall
    have haddr : wrap32 (s.client.loadAddr+(((((1 : ℕ) : ℤ)-1)*s.client.tftpBlkSize+
        ((67108864 : ℕ) : ℤ)) % 4294967296).toNat) = 67112960 := by
      rw [hinv.loadAddr, hsize]
      rfl
    have htake : (longServer.file.take ((65535+1)*longServer.blksize)).length = 33554432 := by
      rw [List.length_take, longServer_length, longServer_blksize]
      rfl
    have h1 := congrFun hall (4096+33554432)
    simp only [hm] at h1
    rw [haddr, store_outside _ _ _ _ (.inl (by decide)), longServer_cell] at h1
    change s.client.mem _ = _ at h1
    rw [ho.mem, store_outside _ _ _ _ (.inr (by rw [htake]; decide))] at h1
    exact absurd h1 (by decide)

end UBoot.Tftp.Read
