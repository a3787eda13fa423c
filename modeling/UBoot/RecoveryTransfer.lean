import UBoot.Recovery

/-!
# A recovery transfer over a network that delays and duplicates

The sender pushes an image in blocks of 512 bytes and sends the next block
after an acknowledgement with the number of the last one. Whatever it has sent
may arrive again at any time, and so may the acknowledgements. The handler
keeps the blocks in order as long as no old block arrives that has the number
of the expected one in 16 bits, and acknowledges a repeated block unless its
own counter has just reached a multiple of 65536.
-/

set_option autoImplicit false

namespace UBoot.Recovery
open UBoot.BlockTransfer

structure Sender where
  image : List UInt8
  port : ℕ
  frame : ℕ → UInt8
  /-- The request after its opcode: file name and mode. -/
  request : List UInt8

def Sender.last (p : Sender) : ℕ := BlockTransfer.last tftpMaxDataLen p.image

def Sender.requestFrame (p : Sender) : Frame :=
  ⟨p.frame, fun i => (0::2::p.request).getD i 0, tftpServerPort, p.port, 2+p.request.length⟩

/-- Data packet number `k`, counted from 1. -/
def Sender.dataFrame (p : Sender) (tid k : ℕ) : Frame :=
  let b := block tftpMaxDataLen p.image (k-1)
  ⟨p.frame, fun i => (0::3::UInt8.ofNat (k/256)::UInt8.ofNat k::b).getD i 0, tid, p.port, 4+b.length⟩

/-- The server, the number of the last block that the sender has sent, and all
that the server has put out. -/
structure Sys where
  rcvr : Rcvr
  sent : ℕ
  log : List Output

inductive Event where
  | request
  | data (k : ℕ)
  | ack
  | timeout
  deriving DecidableEq, Repr

def Sys.after (s : Sys) (r : Rcvr × List Output) : Sys := ⟨r.1, s.sent, s.log ++ r.2⟩

/-- Delivery of anything sent so far, progress of the sender on an
acknowledgement of its last block, and timeouts of the server. -/
inductive Step (p : Sender) : Sys → Event → Sys → Prop where
  | request (s : Sys) : Step p s .request (s.after (recoveryHandler p.requestFrame s.rcvr))
  | data (s : Sys) (k : ℕ) (hk : 0 < k) (hs : k ≤ s.sent) :
      Step p s (.data k) (s.after (recoveryHandler (p.dataFrame s.rcvr.myTID k) s.rcvr))
  | ack (s : Sys) (server : Server) (src : ℕ)
      (ha : .ack server p.port src (s.sent % 65536) ∈ s.log) (hs : s.sent ≤ p.last) :
      Step p s .ack { s with sent := s.sent+1 }
  | timeout (s : Sys) : Step p s .timeout (s.after (recoverTimeout s.rcvr))

/-- The delivered block is not the expected one but has its number. -/
def Aliased (s : Sys) (k : ℕ) : Prop :=
  s.rcvr.rcvrState = .imageDwnld ∧ k % 65536 = s.rcvr.packetNum % 65536 ∧ k ≠ s.rcvr.packetNum

/-- The delivered block is the one accepted last, and the counter has wrapped. -/
def AtWrap (s : Sys) (k : ℕ) : Prop :=
  (s.rcvr.rcvrState = .imageDwnld ∨ s.rcvr.rcvrState = .finished) ∧ s.rcvr.packetNum = k+1 ∧
    s.rcvr.packetNum % 65536 = 0

def Clear (s : Sys) : Event → Prop
  | .data k => ¬ Aliased s k ∧ ¬ AtWrap s k
  | _ => True

/-! ## Packets of the sender -/

theorem request_opcode (p : Sender) : field16 p.requestFrame.pkt 0 = tftpOpcodeWrq := by
  simp [field16, Sender.requestFrame, tftpOpcodeWrq]

theorem data_opcode (p : Sender) (tid k : ℕ) :
    field16 (p.dataFrame tid k).pkt 0 = tftpOpcodeData := by
  simp [field16, Sender.dataFrame, tftpOpcodeData]

theorem data_number (p : Sender) (tid k : ℕ) : field16 (p.dataFrame tid k).pkt 2 = k % 65536 := by
  simp [field16, Sender.dataFrame]
  omega

theorem data_len (p : Sender) (tid k : ℕ) :
    (p.dataFrame tid k).len = 4+(block tftpMaxDataLen p.image (k-1)).length := rfl

theorem data_payload (p : Sender) (tid k n : ℕ)
    (hn : n = (block tftpMaxDataLen p.image (k-1)).length) :
    (List.range n).map (fun i => (p.dataFrame tid k).pkt (4+i)) =
      block tftpMaxDataLen p.image (k-1) := by
  subst hn
  apply List.ext_getElem
  · simp
  · intro i h1 h2
    have h : 4+i = i+1+1+1+1 := by omega
    simp [Sender.dataFrame, h, List.getElem?_eq_getElem h2]

/-! ## What has been received -/

def received (p : Sender) (k : ℕ) : List UInt8 := p.image.take (k*tftpMaxDataLen)

/-- The first `k` blocks of the image are in memory, and nothing else is changed. -/
structure Stored (p : Sender) (load : ℕ) (m : ℕ → UInt8) (r : Rcvr) (k : ℕ) : Prop where
  mem : r.mem = store m load (received p k)
  size : r.netBootFileXferSize = (received p k).length
  ptr : r.imagePtr = load+(received p k).length

/-- How far the transfer is in each state of the server. -/
@[grind]
def Progress (p : Sender) (r : Rcvr) (k : ℕ) : Prop :=
  match r.rcvrState with
  | .wait4Cnct => k = 0 ∧ r.netState = .running
  | .imageDwnld => k ≤ p.last ∧ r.packetNum = k+1 ∧ r.netState = .running
  | .finished => k = p.last+1 ∧ r.packetNum = k+1 ∧ r.netState = .running
  | .init => r.netState = .success → k = p.last+1

def Inv (p : Sender) (load : ℕ) (m : ℕ → UInt8) (s : Sys) : Prop :=
  (∃ k, Stored p load m s.rcvr k ∧ Progress p s.rcvr k) ∧
    ∀ n, .received n ∈ s.log → n = wrap32 (p.image.length+tftpMaxDataLen)

theorem received_all (p : Sender) : received p (p.last+1) = p.image :=
  take_all tftpMaxDataLen p.image (by decide) _ (Nat.lt_succ_self _)

theorem received_length (p : Sender) (k : ℕ) (hk : k ≤ p.last) :
    (received p k).length = k*tftpMaxDataLen :=
  take_length tftpMaxDataLen p.image (by decide) k hk

theorem received_le (p : Sender) (k : ℕ) : (received p k).length ≤ p.image.length := by
  simp [received]

theorem received_succ (p : Sender) (k : ℕ) :
    (received p (k+1)).length = (received p k).length+(block tftpMaxDataLen p.image k).length := by
  rw [received, received, ← take_block, List.length_append]

theorem accept_stored (p : Sender) (load : ℕ) (m : ℕ → UInt8) (r : Rcvr) (k : ℕ)
    (hfit : load+p.image.length < 4294967296) (hk : k ≤ p.last) (h : Stored p load m r k) (n : ℕ)
    (hn : n = (block tftpMaxDataLen p.image k).length) :
    Stored p load m (acceptBlock (p.dataFrame r.myTID (k+1)) r n) (k+1) := by
  have hs := received_succ p k
  have hle := received_le p (k+1)
  have hblock := store_block m tftpMaxDataLen (by decide) load p.image k hk
  have hpay := data_payload p r.myTID (k+1) n hn
  have hlen := received_length p k hk
  refine ⟨?_, ?_, ?_⟩
  · change store r.mem r.imagePtr _ = _
    rw [hpay, h.mem, h.ptr, hlen]
    exact hblock
  · change wrap32 (r.netBootFileXferSize+n) = _
    rw [h.size, hs, hn]
    exact Nat.mod_eq_of_lt (by omega)
  · change wrap32 (r.imagePtr+n) = _
    rw [h.ptr, hs, hn, Nat.add_assoc]
    exact Nat.mod_eq_of_lt (by omega)

theorem stored_congr (p : Sender) (load : ℕ) (m : ℕ → UInt8) (r r' : Rcvr) (k : ℕ)
    (h : Stored p load m r k) (hm : r'.mem = r.mem)
    (hs : r'.netBootFileXferSize = r.netBootFileXferSize) (hp : r'.imagePtr = r.imagePtr) :
    Stored p load m r' k :=
  ⟨hm.trans h.mem, hs.trans h.size, hp.trans h.ptr⟩

/-! ## One delivery -/

theorem handler_data (p : Sender) (r : Rcvr) (k : ℕ) :
    recoveryHandler (p.dataFrame r.myTID k) r =
      match r.rcvrState with
      | .imageDwnld => receiveData (p.dataFrame r.myTID k) r
      | .finished => if isLast r (k % 65536) then (r, [sendTftpAck r (k % 65536)]) else (r, [])
      | _ => (r, []) := by
  have hop := data_opcode p r.myTID k
  have hnum := data_number p r.myTID k
  have hne : tftpOpcodeData ≠ tftpOpcodeWrq := by decide
  have hne' : tftpOpcodeData ≠ tftpOpcodeRrq := by decide
  have hdest : (p.dataFrame r.myTID k).dest = r.myTID := rfl
  unfold recoveryHandler
  cases hs : r.rcvrState <;> simp [hop, hnum, hne, hne', hdest]

/-- The expected block is stored, and the last one ends the transfer. -/
theorem receiveData_expected (p : Sender) (r : Rcvr) (k : ℕ) (hk : k ≤ p.last)
    (hp : r.packetNum = k+1) :
    let f := p.dataFrame r.myTID (k+1)
    let n := (block tftpMaxDataLen p.image k).length
    (k < p.last ∧ receiveData f r =
      ({ acceptBlock f r n with timeout := rcvrDataTimeout }, [sendTftpAck r (k+1)])) ∨
    (k = p.last ∧ receiveData f r =
      ({ acceptBlock f r n with rcvrState := .finished, timeout := rcvrFinishTimeout },
        [.received (wrap32 ((k+1)*tftpMaxDataLen+n)), sendTftpAck r (k+1)])) := by
  intro f n
  have hnum : field16 f.pkt 2 = r.packetNum % 65536 := by
    rw [hp]
    exact data_number p r.myTID (k+1)
  have hlen : f.len = 4+n := data_len p r.myTID (k+1)
  rcases Nat.lt_or_eq_of_le hk with hlt | heq
  · have hn : n = tftpMaxDataLen := block_full tftpMaxDataLen p.image (by decide) k hlt
    refine .inl ⟨hlt, ?_⟩
    unfold receiveData
    rw [if_pos hnum, if_pos (by omega), hn, hp]
  · have hn : n < tftpMaxDataLen := by
      have h := block_last tftpMaxDataLen p.image (by decide)
      have h' := Nat.mod_lt p.image.length (show 0 < tftpMaxDataLen by decide)
      change (block tftpMaxDataLen p.image k).length < _
      rw [heq]
      exact h.trans_lt h'
    have hd : wrap32 (f.len+4294967292) = n := by
      have h512 : tftpMaxDataLen = 512 := rfl
      unfold wrap32
      omega
    refine .inr ⟨heq, ?_⟩
    unfold receiveData
    simp only
    rw [if_pos hnum, if_neg (by omega), if_pos (by omega), hd, hp]

/-- Any other block leaves the server as it is. -/
theorem receiveData_other (p : Sender) (r : Rcvr) (k : ℕ) (hk : k % 65536 ≠ r.packetNum % 65536) :
    receiveData (p.dataFrame r.myTID k) r =
      (r, if isLast r (k % 65536) then [sendTftpAck r (k % 65536)] else []) := by
  unfold receiveData
  rw [data_number]
  simp only
  rw [if_neg hk]
  split_ifs <;> rfl

/-- A request changes where the answers go, and opens the transfer. -/
theorem handler_request (p : Sender) (r : Rcvr) :
    (recoveryHandler p.requestFrame r).1 = r ∧ (recoveryHandler p.requestFrame r).2 = [] ∨
    ∃ r', recoveryHandler p.requestFrame r = (r', [sendTftpAck r' 0]) ∧ r'.mem = r.mem ∧
      r'.netBootFileXferSize = r.netBootFileXferSize ∧ r'.imagePtr = r.imagePtr ∧
      r'.netState = r.netState ∧ r'.rcvrState = .imageDwnld ∧ r'.packetNum = 1 ∧
      (r.rcvrState = .wait4Cnct ∨ r.rcvrState = .imageDwnld ∧ r.packetNum = 1) := by
  have hop := request_opcode p
  have hne : tftpOpcodeWrq ≠ tftpOpcodeRrq := by decide
  have hdest : p.requestFrame.dest = tftpServerPort := rfl
  unfold recoveryHandler
  cases hs : r.rcvrState with
  | init => exact .inl ⟨rfl, rfl⟩
  | wait4Cnct =>
    simp only [hop, hne, hdest, if_false, if_true, ne_eq, not_true_eq_false]
    exact .inr ⟨_, rfl, rfl, rfl, rfl, rfl, rfl, rfl, .inl trivial⟩
  | imageDwnld =>
    simp only [hop, hdest, if_false, if_true, ne_eq, not_true_eq_false]
    by_cases h1 : r.packetNum = 1
    · rw [if_pos h1]
      exact .inr ⟨_, rfl, rfl, rfl, rfl, rfl, rfl, h1, .inr ⟨trivial, h1⟩⟩
    · rw [if_neg h1]
      exact .inl ⟨rfl, rfl⟩
  | finished =>
    have hne' : tftpOpcodeWrq ≠ tftpOpcodeData := by decide
    simp only [hop, hne', if_false]
    exact .inl ⟨trivial, trivial⟩

theorem step_request (p : Sender) (load : ℕ) (m : ℕ → UInt8) (s : Sys) (h : Inv p load m s) :
    Inv p load m (s.after (recoveryHandler p.requestFrame s.rcvr)) := by
  obtain ⟨⟨k, hst, hpr⟩, hlog⟩ := h
  rcases handler_request p s.rcvr with ⟨h1, h2⟩ | ⟨r', heq, hm, hs, hp, hn, hstate, hnum, hold⟩
  · refine ⟨⟨k, ?_, ?_⟩, ?_⟩
    · simpa only [Sys.after, h1] using hst
    · simpa only [Sys.after, h1] using hpr
    · simpa only [Sys.after, h2, List.append_nil] using hlog
  · have hk : k = 0 ∧ s.rcvr.netState = .running := by
      unfold Progress at hpr
      rcases hold with hw | ⟨hd, h1⟩
      · simp only [hw] at hpr
        exact hpr
      · simp only [hd] at hpr
        exact ⟨by omega, hpr.2.2⟩
    refine ⟨⟨k, ?_, ?_⟩, ?_⟩
    · simpa only [Sys.after, heq] using stored_congr p load m s.rcvr r' k hst hm hs hp
    · simp only [Sys.after, heq, Progress, hstate]
      exact ⟨by omega, by omega, hn.trans hk.2⟩
    · intro n hmem
      simp only [Sys.after, heq, List.mem_append, List.mem_singleton, sendTftpAck, reduceCtorEq,
        or_false] at hmem
      exact hlog n hmem

theorem step_data (p : Sender) (load : ℕ) (m : ℕ → UInt8) (hfit : load+p.image.length < 4294967296)
    (s : Sys) (k : ℕ) (h : Inv p load m s) (hc : Clear s (.data k)) :
    Inv p load m (s.after (recoveryHandler (p.dataFrame s.rcvr.myTID k) s.rcvr)) := by
  obtain ⟨⟨j, hst, hpr⟩, hlog⟩ := h
  have hsame : ∀ out : List Output, (∀ n, .received n ∉ out) →
      Inv p load m (s.after (s.rcvr, out)) := by
    intro out hout
    refine ⟨⟨j, hst, hpr⟩, fun n hmem => ?_⟩
    rcases List.mem_append.mp hmem with hmem | hmem
    · exact hlog n hmem
    · exact absurd hmem (hout n)
  rw [handler_data]
  cases hs : s.rcvr.rcvrState with
  | init => exact hsame [] (by simp)
  | wait4Cnct => exact hsame [] (by simp)
  | finished =>
    simp only
    split_ifs
    · exact hsame _ (by simp [sendTftpAck])
    · exact hsame [] (by simp)
  | imageDwnld =>
    simp only
    unfold Progress at hpr
    simp only [hs] at hpr
    obtain ⟨hj, hnum, hrun⟩ := hpr
    by_cases hk : k % 65536 = s.rcvr.packetNum % 65536
    · have heq : k = j+1 := by
        by_contra hne
        exact hc.1 ⟨hs, hk, by omega⟩
      subst heq
      have hacc := accept_stored p load m s.rcvr j hfit hj hst _ rfl
      have hsize : p.last*512 ≤ p.image.length := Nat.div_mul_le_self _ _
      have hwrap : wrap32 (s.rcvr.packetNum+1) = j+1+1 := by
        rw [hnum]
        exact Nat.mod_eq_of_lt (by omega)
      rcases receiveData_expected p s.rcvr j hj hnum with ⟨hlt, hr⟩ | ⟨hlast, hr⟩
      · rw [hr]
        refine ⟨⟨j+1, stored_congr p load m _ _ _ hacc rfl rfl rfl, ?_⟩, fun n hmem => ?_⟩
        · simp only [Progress, Sys.after, acceptBlock, hs]
          exact ⟨hlt, hwrap, hrun⟩
        · simp only [Sys.after, List.mem_append, List.mem_singleton, sendTftpAck, reduceCtorEq,
            or_false] at hmem
          exact hlog n hmem
      · rw [hr]
        refine ⟨⟨j+1, stored_congr p load m _ _ _ hacc rfl rfl rfl, ?_⟩, fun n hmem => ?_⟩
        · simp only [Progress, Sys.after, acceptBlock]
          exact ⟨by omega, hwrap, hrun⟩
        · simp only [Sys.after, List.mem_append, List.mem_cons, sendTftpAck, reduceCtorEq,
            List.not_mem_nil, or_false, Output.received.injEq] at hmem
          rcases hmem with hmem | rfl
          · exact hlog n hmem
          · have hl := received_succ p j
            rw [hlast, received_all, received_length p _ le_rfl] at hl
            rw [hlast, hl, Nat.succ_mul]
            congr 1
            omega
    · rw [receiveData_other p s.rcvr k hk]
      refine hsame _ fun n => ?_
      split_ifs <;> simp [sendTftpAck]

theorem step_timeout (p : Sender) (load : ℕ) (m : ℕ → UInt8) (s : Sys) (h : Inv p load m s) :
    Inv p load m (s.after (recoverTimeout s.rcvr)) := by
  obtain ⟨⟨k, hst, hpr⟩, hlog⟩ := h
  unfold Progress at hpr
  unfold recoverTimeout
  cases hs : s.rcvr.rcvrState with
  | init =>
    simp only [hs] at hpr
    exact ⟨⟨k, hst, by simpa [Progress, Sys.after, hs] using hpr⟩, by simpa [Sys.after] using hlog⟩
  | wait4Cnct =>
    simp only [hs] at hpr
    exact ⟨⟨k, stored_congr p load m _ _ _ hst rfl rfl rfl, by simpa [Progress, Sys.after, hs] using hpr⟩,
      by simpa [Sys.after] using hlog⟩
  | imageDwnld =>
    exact ⟨⟨k, stored_congr p load m _ _ _ hst rfl rfl rfl, by simp [Progress, Sys.after]⟩,
      by simpa [Sys.after, sendTftpError] using hlog⟩
  | finished =>
    simp only [hs] at hpr
    exact ⟨⟨k, stored_congr p load m _ _ _ hst rfl rfl rfl, by simp [Progress, Sys.after, hpr.1]⟩,
      by simpa [Sys.after] using hlog⟩

theorem step_inv (p : Sender) (load : ℕ) (m : ℕ → UInt8) (hfit : load+p.image.length < 4294967296)
    (s : Sys) (e : Event) (s' : Sys) (h : Inv p load m s) (hc : Clear s e) (hs : Step p s e s') :
    Inv p load m s' := by
  cases hs with
  | request => exact step_request p load m s h
  | data k _ _ => exact step_data p load m hfit s k h hc
  | ack server src _ _ => exact h
  | timeout => exact step_timeout p load m s h

/-! ## The whole transfer -/

/-- The server once `RecoverRequest` has been called by a fresh network loop. -/
def start (load : ℕ) (netOurEther : ℕ → UInt8) (r : Rcvr) : Sys :=
  let q := recoverRequest (some load) netOurEther
    { r with netBootFileXferSize := 0, netState := .running }
  ⟨q.1, 0, q.2⟩

theorem start_inv (p : Sender) (load : ℕ) (netOurEther : ℕ → UInt8) (r : Rcvr) :
    Inv p load r.mem (start load netOurEther r) := by
  refine ⟨⟨0, ⟨?_, ?_, ?_⟩, rfl, rfl⟩, ?_⟩
  · simp [start, recoverRequest, received]
  · simp [start, recoverRequest, received]
  · simp [start, recoverRequest, received]
  · simp [start, recoverRequest]

/-- The server has reported the end of the transfer. -/
def Reported (r : Rcvr) : Prop := r.rcvrState = .finished ∨ r.netState = .success

/-- Block `k` is the one that the server has accepted last. -/
def AcceptedLast (r : Rcvr) (k : ℕ) : Prop :=
  (r.rcvrState = .imageDwnld ∨ r.rcvrState = .finished) ∧ r.packetNum = k+1 ∧ 0 < k

/-- The repeated block is acknowledged unless the counter has wrapped. -/
theorem repeated_acknowledged (p : Sender) (s : Sys) (k : ℕ) (ha : AcceptedLast s.rcvr k) :
    recoveryHandler (p.dataFrame s.rcvr.myTID k) s.rcvr =
      (s.rcvr, if s.rcvr.packetNum % 65536 = 0 then [] else [sendTftpAck s.rcvr k]) := by
  obtain ⟨hstate, hnum, hk⟩ := ha
  have hne : k % 65536 ≠ s.rcvr.packetNum % 65536 := by omega
  have hack : sendTftpAck s.rcvr (k % 65536) = sendTftpAck s.rcvr k := by
    simp [sendTftpAck]
  have hlast : isLast s.rcvr (k % 65536) ↔ s.rcvr.packetNum % 65536 ≠ 0 := by
    unfold isLast
    omega
  rw [handler_data]
  rcases hstate with hs | hs
  · simp only [hs]
    rw [receiveData_other p s.rcvr k hne, hack]
    by_cases h0 : s.rcvr.packetNum % 65536 = 0
    · rw [if_neg (by rw [hlast]; simp [h0]), if_pos h0]
    · rw [if_pos (hlast.mpr h0), if_neg h0]
  · simp only [hs]
    rw [hack]
    by_cases h0 : s.rcvr.packetNum % 65536 = 0
    · rw [if_neg (by rw [hlast]; simp [h0]), if_pos h0]
    · rw [if_pos (hlast.mpr h0), if_neg h0]

/-- Without delays the first `k` blocks arrive one by one. -/
theorem run_in_order (p : Sender) (load : ℕ) (netOurEther : ℕ → UInt8) (r : Rcvr)
    (hfit : load+p.image.length < 4294967296) (k : ℕ) (hk : k ≤ p.last) :
    ∃ s, Reach (Step p) Clear (start load netOurEther r) s ∧ s.rcvr.rcvrState = .imageDwnld ∧
      s.rcvr.packetNum = k+1 ∧ s.rcvr.peerTID = p.port ∧ s.sent = k ∧
      ∃ server src, .ack server p.port src (k % 65536) ∈ s.log := by
  induction k with
  | zero =>
    have hreq := Step.request (p := p) (start load netOurEther r)
    have hop := request_opcode p
    have hne : tftpOpcodeWrq ≠ tftpOpcodeRrq := by decide
    have hdest : p.requestFrame.dest = tftpServerPort := rfl
    refine ⟨_, reach_next _ _ _ _ _ _ .refl hreq trivial, ?_⟩
    simp only [start, recoverRequest, Sys.after, recoveryHandler, hop, hne, hdest, if_false,
      if_true, ne_eq, not_true_eq_false, sendTftpAck]
    exact ⟨trivial, trivial, rfl, trivial, _, _, by simp; exact ⟨rfl, rfl, rfl⟩⟩
  | succ k ih =>
    obtain ⟨s, hrun, hstate, hnum, hpeer, hsent, server, src, hack⟩ := ih (by omega)
    have hsend := Step.ack (p := p) s server src (by rw [hsent]; exact hack) (by omega)
    have hrun' := reach_next _ _ _ _ _ _ hrun hsend trivial
    have hdata := Step.data (p := p) { s with sent := s.sent+1 } (k+1) (by omega) (by simp [hsent])
    have hclear : Clear { s with sent := s.sent+1 } (.data (k+1)) := by
      refine ⟨fun h => h.2.2 hnum.symm, fun h => ?_⟩
      have h1 : s.rcvr.packetNum = k+1+1 := h.2.1
      omega
    refine ⟨_, reach_next _ _ _ _ _ _ hrun' hdata hclear, ?_⟩
    have hlast : p.last*512 ≤ p.image.length := Nat.div_mul_le_self _ _
    have hwrap : wrap32 (s.rcvr.packetNum+1) = k+1+1 := by
      rw [hnum]
      exact Nat.mod_eq_of_lt (by omega)
    rcases receiveData_expected p s.rcvr k (by omega) hnum with ⟨-, hr⟩ | ⟨hend, -⟩
    · simp only [handler_data, hstate, Sys.after, hr]
      refine ⟨hstate, hwrap, hpeer, by omega, s.rcvr.server, s.rcvr.myTID, ?_⟩
      simp [sendTftpAck, hpeer]
    · omega

/-- Every image that fits can be transferred. -/
theorem run_finished (p : Sender) (load : ℕ) (netOurEther : ℕ → UInt8) (r : Rcvr)
    (hfit : load+p.image.length < 4294967296) :
    ∃ s, Reach (Step p) Clear (start load netOurEther r) s ∧ s.rcvr.rcvrState = .finished := by
  obtain ⟨s, hrun, hstate, hnum, -, hsent, server, src, hack⟩ :=
    run_in_order p load netOurEther r hfit p.last le_rfl
  have hsend := Step.ack (p := p) s server src (by rw [hsent]; exact hack) hsent.le
  have hrun' := reach_next _ _ _ _ _ _ hrun hsend trivial
  have hdata := Step.data (p := p) { s with sent := s.sent+1 } (p.last+1) (by omega) (by simp [hsent])
  have hclear : Clear { s with sent := s.sent+1 } (.data (p.last+1)) := by
    refine ⟨fun h => h.2.2 hnum.symm, fun h => ?_⟩
    have h1 : s.rcvr.packetNum = p.last+1+1 := h.2.1
    omega
  refine ⟨_, reach_next _ _ _ _ _ _ hrun' hdata hclear, ?_⟩
  rcases receiveData_expected p s.rcvr p.last le_rfl hnum with ⟨hlt, -⟩ | ⟨-, hr⟩
  · exact absurd hlt (lt_irrefl _)
  · simp only [handler_data, hstate, Sys.after, hr]

def idle : Rcvr :=
  ⟨.init, 0, 0, 0, 0, ⟨[], 0⟩, 0, .running, 0, fun _ => 0⟩

/-- An image of 65536 blocks of zeros and one more byte. -/
def longSender : Sender := ⟨List.replicate 33554432 0 ++ [1], 5000, fun _ => 0, [97]⟩

theorem longSender_length : longSender.image.length = 33554433 := by
  rw [longSender, List.length_append, List.length_replicate]
  rfl

theorem longSender_last : longSender.last = 65536 := by
  rw [Sender.last, last, longSender_length]
  rfl

end UBoot.Recovery
