import UBoot.Tftp

/-!
# Writing an image over a network that delays and duplicates

The client sends the blocks of the image from memory; the acknowledgement of
any block that it has sent may arrive at any later time and any number of
times. The system carries along which block of the image the client should be
at: the one after the block acknowledged last. The client completes at the
first acknowledgement after the final block was sent, whatever its number, and
derives the round from the numbers alone.
-/

set_option autoImplicit false

namespace UBoot.Tftp.Write
open UBoot.BlockTransfer

structure Server where
  port : ℕ
  /-- The text of its option acknowledgement, if it sends one. -/
  oack : Option (List UInt8)

def Server.blksize (p : Server) : ℕ :=
  match p.oack with
  | none => tftpBlockSize
  | some text => parseOack text tftpBlockSize

def Server.oackFrame (p : Server) (dest : ℕ) (text : List UInt8) : Datagram :=
  ⟨dest, p.port, 0::6::text⟩

def Server.ackFrame (p : Server) (dest k : ℕ) : Datagram :=
  ⟨dest, p.port, [0, 4, UInt8.ofNat (k/256), UInt8.ofNat k]⟩

/-- The image: the bytes at the save address. -/
def image (c : Client) (size : ℕ) : List UInt8 := (List.range size).map fun i => c.mem (c.saveAddr+i)

/-- The client, the highest block that it has sent, the block that it should
be at, the blocks whose acknowledgements have arrived, and what it has sent
with the block that it should then have been at. -/
structure Sys where
  client : Client
  top : ℕ
  cur : ℕ
  acked : List ℕ
  log : List (ℕ × Output)

inductive Event where
  | oack
  | ack (k : ℕ)
  | timeout
  deriving DecidableEq, Repr

def isData (o : Output) : Bool :=
  match o with
  | .data _ _ => true
  | _ => false

def Sys.after (s : Sys) (k : ℕ) (acked : List ℕ) (r : Client × List Output) : Sys :=
  ⟨r.1, if r.2.any isData then max s.top k else s.top, k, acked, s.log ++ r.2.map fun o => (k, o)⟩

def Sys.Live (s : Sys) : Prop := s.client.netState = .running ∨ s.client.netState = .success

/-- The blocks whose acknowledgement the server may have sent: those sent to
it, and 0 if it answers the request without options. -/
def Acknowledged (p : Server) (s : Sys) (k : ℕ) : Prop :=
  if p.oack = none then k = 0 else 0 < k ∧ k ≤ s.top

inductive Step (p : Server) : Sys → Event → Sys → Prop where
  | oack (s : Sys) (hl : s.Live) (text : List UInt8) (ht : p.oack = some text) :
      Step p s .oack (s.after (s.cur+1) s.acked
        (tftpHandler s.client (p.oackFrame s.client.tftpOurPort text)))
  | ack (s : Sys) (hl : s.Live) (k : ℕ) (hk : Acknowledged p s k) :
      Step p s (.ack k) (s.after (if s.client.tftpFinalBlock then s.cur else k+1) (k::s.acked)
        (tftpHandler s.client (p.ackFrame s.client.tftpOurPort k)))
  | timeout (s : Sys) (hl : s.Live) :
      Step p s .timeout (s.after s.cur s.acked (tftpTimeout s.client))

/-- The option acknowledgement arrives once; after the final block only its own
acknowledgement arrives; before, the block after the acknowledged one is of the
round that the client takes it for. -/
def Clear (p : Server) (size : ℕ) (s : Sys) : Event → Prop
  | .oack => s.client.tftpState = .sendWrq
  | .ack k => if s.client.tftpFinalBlock then k = size/p.blksize+1 else
      (k+1)/65536 = if (k+1) % 65536 = 0 then s.client.tftpBlockWrap+1 else s.client.tftpBlockWrap
  | .timeout => True

/-! ## Loading a block -/

theorem image_length (c : Client) (size : ℕ) : (image c size).length = size := by
  simp [image]

/-- What a packet must satisfy: data are the block that the client should be
at, and nothing beyond the image is read. -/
def PacketOk (f : List UInt8) (bs k : ℕ) : Output → Prop
  | .data number payload => 0 < k ∧ k ≤ last bs f+1 ∧ number = k % 65536 ∧
      payload = block bs f (k-1)
  | .read offset len => offset+len ≤ f.length
  | _ => True

/-- The client is set to send block `k` of the image. -/
structure At (c : Client) (bs size k : ℕ) : Prop where
  state : c.tftpState = .data
  writing : c.tftpWriting = true
  blkSize : c.tftpBlkSize = bs
  size : c.netBootFileXferSize = size
  block : c.tftpBlock = k % 65536
  wrap : c.tftpBlockWrap = k/65536
  wrapOffset : c.tftpBlockWrapOffset = wrap32 (k/65536*(bs*65536))

theorem loadBlock_at (c : Client) (bs size k : ℕ) (hbs : 0 < bs) (hsize : size < 4294967296)
    (hk : 0 < k) (hle : k ≤ size/bs+1) (h : At c bs size k) :
    loadBlock c c.tftpBlock c.tftpBlkSize = ((k-1)*bs, min (size-(k-1)*bs) bs) := by
  have hoff : (k-1)*bs ≤ size := (Nat.le_div_iff_mul_le hbs).mp (by omega)
  unfold loadBlock
  rw [h.block, h.blkSize, h.wrapOffset, h.size, block_offset bs k hk (by omega)]
  have hw : wrap32 (size+4294967296-(k-1)*bs) = size-(k-1)*bs := by
    unfold wrap32
    omega
  simp only [hw]

theorem image_block (c : Client) (bs size k : ℕ) (hbs : 0 < bs)
    (hfit : c.saveAddr+size < 4294967296) (hle : k ≤ size/bs) :
    (List.range (min (size-k*bs) bs)).map (fun i => c.mem (wrap32 (c.saveAddr+k*bs+i))) =
      block bs (image c size) k := by
  have hoff : k*bs ≤ size := (Nat.le_div_iff_mul_le hbs).mp hle
  apply List.ext_getElem
  · rw [block_length, image_length]
    simp [Nat.min_comm]
  · intro i h1 h2
    have hi : i < size-k*bs := by
      simp at h1
      omega
    have hw : wrap32 (c.saveAddr+k*bs+i) = c.saveAddr+(k*bs+i) := by
      unfold wrap32
      omega
    simp [block, image, hw]

theorem tftpSend_data (c : Client) (hs : c.tftpState = .data) (hw : c.tftpWriting = true)
    (offset loaded : ℕ) (hl : loadBlock c c.tftpBlock c.tftpBlkSize = (offset, loaded)) :
    tftpSend c = ({ c with tftpFinalBlock := loaded < c.tftpBlkSize },
      [.read offset loaded, .data (c.tftpBlock % 65536)
        ((List.range loaded).map fun i => c.mem (wrap32 (c.saveAddr+offset+i)))]) := by
  unfold tftpSend
  split <;> simp_all

theorem tftpSend_request (c : Client) (hs : c.tftpState = .sendWrq) :
    tftpSend c = (c, [.request true c.tftpFilename (c.tftpTimeoutMSecs/1000)
      c.tftpBlkSizeOption]) := by
  unfold tftpSend
  split <;> simp_all

/-- Sending the block that the client is at. -/
theorem send_at (c : Client) (bs size k : ℕ) (hbs : 0 < bs) (hfit : c.saveAddr+size < 4294967296)
    (hk : 0 < k) (hle : k ≤ size/bs+1) (h : At c bs size k) :
    ∃ out, tftpSend c = ({ c with tftpFinalBlock := k = size/bs+1 }, out) ∧ out.any isData = true ∧
      ∀ o ∈ out, PacketOk (image c size) bs k o := by
  have hload := loadBlock_at c bs size k hbs (by omega) hk hle h
  have himage := image_block c bs size (k-1) hbs hfit (by omega)
  have hoff : (k-1)*bs ≤ size := (Nat.le_div_iff_mul_le hbs).mp (by omega)
  have hfinal : min (size-(k-1)*bs) bs < c.tftpBlkSize ↔ k = size/bs+1 := by
    have hd := Nat.div_add_mod size bs
    have hm := Nat.mod_lt size hbs
    rw [h.blkSize]
    constructor
    · intro hlt
      by_contra hne
      have h1 : (k-1+1)*bs ≤ size := (Nat.le_div_iff_mul_le hbs).mp (by omega)
      rw [Nat.succ_mul] at h1
      omega
    · rintro rfl
      rw [Nat.add_sub_cancel, Nat.mul_comm]
      omega
  refine ⟨[.read ((k-1)*bs) (min (size-(k-1)*bs) bs), .data (k % 65536) (block bs (image c size) (k-1))],
    ?_, rfl, ?_⟩
  · rw [tftpSend_data c h.state h.writing _ _ hload, himage, h.block, Nat.mod_mod]
    simp only [hfinal]
  · intro o ho
    simp only [List.mem_cons, List.not_mem_nil, or_false] at ho
    rcases ho with rfl | rfl
    · simp only [PacketOk, image_length]
      omega
    · exact ⟨hk, by rw [last, image_length]; exact hle, rfl, rfl⟩

/-! ## The invariant -/

/-- What holds in each state of the client. -/
def Stage (p : Server) (size : ℕ) (s : Sys) : Prop :=
  match s.client.tftpState with
  | .sendWrq => s.client.tftpWriting = true ∧ s.client.tftpFinalBlock = false ∧ s.top = 0 ∧
      s.client.tftpBlkSize = tftpBlockSize ∧ s.client.netBootFileXferSize = size ∧
      s.client.tftpBlockWrap = 0 ∧ s.client.tftpBlockWrapOffset = 0 ∧
      (p.oack ≠ none → s.client.tftpBlock = 0 ∧ s.cur = 0)
  | .data => At s.client p.blksize size s.cur ∧ 0 < s.cur ∧ s.cur ≤ size/p.blksize+1 ∧
      s.client.tftpRemotePort = p.port ∧ p.oack ≠ none ∧
      if s.client.tftpFinalBlock then s.cur = size/p.blksize+1 ∧ s.top = size/p.blksize+1
      else s.top ≤ size/p.blksize
  | _ => False

structure Inv (p : Server) (c : Client) (size : ℕ) (s : Sys) : Prop where
  mem : s.client.mem = c.mem
  saveAddr : s.client.saveAddr = c.saveAddr
  log : ∀ k o, (k, o) ∈ s.log → PacketOk (image c size) p.blksize k o
  stage : Stage p size s
  complete : s.client.netState = .success →
    s.top = size/p.blksize+1 ∧ size/p.blksize+1 ∈ s.acked

theorem stage_cases (p : Server) (size : ℕ) (s : Sys) (h : Stage p size s) :
    s.client.tftpState = .sendWrq ∨ s.client.tftpState = .data := by
  unfold Stage at h
  cases hs : s.client.tftpState <;> simp [hs] at h ⊢

theorem handler_oack (p : Server) (size : ℕ) (s : Sys) (h : Stage p size s) (text : List UInt8) :
    tftpHandler s.client (p.oackFrame s.client.tftpOurPort text) =
      receiveOack s.client p.port text := by
  have hp : s.client.tftpState = .sendRrq ∨ s.client.tftpState = .sendWrq ∨
      s.client.tftpRemotePort = p.port := by
    unfold Stage at h
    rcases stage_cases p size s h with hs | hs <;> simp only [hs] at h
    · exact .inr (.inl hs)
    · exact .inr (.inr h.2.2.2.1)
  rw [Server.oackFrame, handler_receive s.client p.port _ _ _ hp]
  simp only [receivePacket]
  rw [if_neg (by decide), if_pos (by decide)]

theorem handler_ack (p : Server) (size : ℕ) (s : Sys) (h : Stage p size s) (k : ℕ) :
    tftpHandler s.client (p.ackFrame s.client.tftpOurPort k) = receiveAck s.client (k % 65536) := by
  have hp : (s.client.tftpState = .sendRrq ∨ s.client.tftpState = .sendWrq ∨
      s.client.tftpRemotePort = p.port) ∧ s.client.tftpWriting = true := by
    unfold Stage at h
    rcases stage_cases p size s h with hs | hs <;> simp only [hs] at h
    · exact ⟨.inr (.inl hs), h.1⟩
    · exact ⟨.inr (.inr h.2.2.2.1), h.1.writing⟩
  rw [Server.ackFrame, handler_receive s.client p.port _ _ _ hp.1]
  simp only [receivePacket]
  rw [if_pos (by decide), if_pos hp.2, ntohs_number]

/-- A block is sent from a client that is at it. -/
theorem send_inv (p : Server) (hbs : 0 < p.blksize) (c : Client) (size : ℕ)
    (hfit : c.saveAddr+size < 4294967296) (s : Sys) (h : Inv p c size s) (hp : p.oack ≠ none)
    (k : ℕ) (acked : List ℕ) (hk : 0 < k) (hle : k ≤ size/p.blksize+1) (c1 : Client)
    (hmem : c1.mem = s.client.mem) (hsave : c1.saveAddr = s.client.saveAddr)
    (hport : c1.tftpRemotePort = p.port) (hnet : c1.netState = s.client.netState)
    (hat : At c1 p.blksize size k) (htop : s.top ≤ size/p.blksize ∨
      k = size/p.blksize+1 ∧ s.top = size/p.blksize+1)
    (hacked : ∀ j ∈ s.acked, j ∈ acked) :
    Inv p c size (s.after k acked (tftpSend c1)) := by
  have himage : image c1 size = image c size := by
    rw [image, image, hmem, hsave, h.mem, h.saveAddr]
  obtain ⟨out, hsend, hdata, hok⟩ := send_at c1 p.blksize size k hbs
    (by rw [hsave, h.saveAddr]; exact hfit) hk hle hat
  rw [hsend]
  refine ⟨hmem.trans h.mem, hsave.trans h.saveAddr, ?_, ?_, ?_⟩
  · intro j o hmem'
    rcases List.mem_append.mp hmem' with hmem' | hmem'
    · exact h.log j o hmem'
    · obtain ⟨o', ho, heq⟩ := List.mem_map.mp hmem'
      obtain ⟨rfl, rfl⟩ := Prod.mk.inj heq
      rw [← himage]
      exact hok o' ho
  · simp only [Stage, Sys.after, hat.state, hdata, if_true]
    refine ⟨⟨rfl, hat.writing, hat.blkSize, hat.size, hat.block, hat.wrap, hat.wrapOffset⟩, hk, hle,
      hport, hp, ?_⟩
    by_cases hf : k = size/p.blksize+1
    · simp only [hf, decide_true, if_true, true_and]
      omega
    · simp only [hf, decide_false, Bool.false_eq_true, if_false]
      omega
  · intro hdone
    obtain ⟨h1, h2⟩ := h.complete (hnet.symm.trans hdone)
    simp only [Sys.after, hdata, if_true]
    exact ⟨by omega, hacked _ h2⟩

/-! ## Steps -/

theorem after_nothing (s : Sys) (k : ℕ) (acked : List ℕ) (c1 : Client) :
    s.after k acked (c1, []) = ⟨c1, s.top, k, acked, s.log⟩ := by
  simp [Sys.after]

/-- A plain server acknowledges the request, and the client sends it again. -/
theorem step_ack_request (p : Server) (c : Client) (size : ℕ) (s : Sys) (h : Inv p c size s) (k : ℕ)
    (hk : Acknowledged p s k) (hstate : s.client.tftpState = .sendWrq) :
    Inv p c size (s.after (if s.client.tftpFinalBlock then s.cur else k+1) (k::s.acked)
      (receiveAck s.client (k % 65536))) := by
  have hst := h.stage
  unfold Stage at hst
  simp only [hstate] at hst
  obtain ⟨hw, hf, htop, hsize, hx, hwrap, hoff, -⟩ := hst
  have hnone : p.oack = none := by
    by_contra hne
    rw [Acknowledged, if_neg hne] at hk
    omega
  rw [Acknowledged, if_pos hnone] at hk
  subst hk
  have hupdate : updateBlockNumber { s.client with tftpBlock := (0 % 65536+1) % 65536 } =
      { s.client with tftpBlock := 1 } := if_neg Nat.one_ne_zero
  obtain ⟨out, hreceive, hout⟩ : ∃ out, receiveAck s.client (0 % 65536) =
      ({ s.client with tftpBlock := 1 }, out) ∧
      (out = [] ∨ ∃ n t b, out = [.request true n t b]) := by
    unfold receiveAck
    simp only
    rw [if_neg (by rw [hf]; decide), hupdate]
    split_ifs
    · exact ⟨_, tftpSend_request _ hstate, .inr ⟨_, _, _, rfl⟩⟩
    · exact ⟨[], rfl, .inl rfl⟩
  rw [hreceive]
  have hnodata : out.any isData = false := by
    rcases hout with rfl | ⟨n, t, b, rfl⟩ <;> rfl
  refine ⟨h.mem, h.saveAddr, ?_, ?_, ?_⟩
  · intro j o hmem
    rcases List.mem_append.mp hmem with hmem | hmem
    · exact h.log j o hmem
    · rcases hout with rfl | ⟨n, t, b, rfl⟩
      · simp at hmem
      · simp only [List.map_cons, List.map_nil, List.mem_singleton, Prod.mk.injEq] at hmem
        obtain ⟨-, rfl⟩ := hmem
        trivial
  · simp only [Stage, Sys.after, hstate, hnodata, Bool.false_eq_true, if_false]
    exact ⟨hw, hf, htop, hsize, hx, hwrap, hoff, fun hne => absurd hnone hne⟩
  · intro hdone
    have h1 := (h.complete hdone).1
    rw [htop] at h1
    exact absurd h1 (Nat.zero_ne_add_one _)

theorem step_ack_data (p : Server) (hbs : 0 < p.blksize) (c : Client) (size : ℕ)
    (hfit : c.saveAddr+size < 4294967296) (s : Sys) (h : Inv p c size s) (k : ℕ)
    (hk : Acknowledged p s k) (hstate : s.client.tftpState = .data)
    (hc : Clear p size s (.ack k)) :
    Inv p c size (s.after (if s.client.tftpFinalBlock then s.cur else k+1) (k::s.acked)
      (receiveAck s.client (k % 65536))) := by
  have hst := h.stage
  unfold Stage at hst
  simp only [hstate] at hst
  obtain ⟨hat, hcur, hle, hport, hne, hfinal⟩ := hst
  rw [Acknowledged, if_neg hne] at hk
  by_cases hf : s.client.tftpFinalBlock = true
  · -- the final block is out, so this is its acknowledgement
    rw [if_pos hf] at hfinal
    simp only [Clear, if_pos hf] at hc
    have hr : receiveAck s.client (k % 65536) = (tftpComplete s.client, []) := if_pos hf
    rw [if_pos hf, hr, after_nothing]
    refine ⟨h.mem, h.saveAddr, h.log, ?_, fun _ => ⟨hfinal.2, by simp [hc]⟩⟩
    simp only [Stage, tftpComplete, hstate, hf, if_true]
    exact ⟨⟨rfl, hat.writing, hat.blkSize, hat.size, hat.block, hat.wrap, hat.wrapOffset⟩, hcur, hle,
      hport, hne, hfinal⟩
  · rw [if_neg hf] at hfinal
    simp only [Clear, if_neg hf] at hc
    have hdiv : size/p.blksize ≤ size := Nat.div_le_self _ _
    have hoff : s.client.tftpBlockWrapOffset =
        wrap32 (s.client.tftpBlockWrap*(p.blksize*65536)) := by
      rw [hat.wrapOffset, hat.wrap]
    have hu := update_round s.client p.blksize (k+1) (by omega) hat.blkSize hoff hc
    obtain ⟨fmem, -, fw, fnet, fblock, fstate, -, fsize, fport⟩ :=
      update_fields { s.client with tftpBlock := (k+1) % 65536 }
    have hsave : (updateBlockNumber { s.client with tftpBlock := (k+1) % 65536 }).saveAddr =
        s.client.saveAddr ∧ (updateBlockNumber
          { s.client with tftpBlock := (k+1) % 65536 }).netBootFileXferSize =
        s.client.netBootFileXferSize ∧ (updateBlockNumber
          { s.client with tftpBlock := (k+1) % 65536 }).tftpFinalBlock = s.client.tftpFinalBlock := by
      unfold updateBlockNumber
      split_ifs <;> exact ⟨rfl, rfl, rfl⟩
    have hmod : (k % 65536+1) % 65536 = (k+1) % 65536 := by omega
    unfold receiveAck
    rw [if_neg hf, if_neg hf, hmod]
    simp only
    generalize updateBlockNumber { s.client with tftpBlock := (k+1) % 65536 } = c1 at *
    have hat1 : At c1 p.blksize size (k+1) :=
      ⟨fstate.trans hstate, fw.trans hat.writing, fsize.trans hat.blkSize, hsave.2.1.trans hat.size,
        fblock, hu.1, hu.2⟩
    split_ifs with hok
    · exact send_inv p hbs c size hfit s h hne (k+1) (k::s.acked) (by omega) (by omega) c1 fmem
        hsave.1 (fport.trans hport) fnet hat1 (.inl hfinal) (fun j hj => by simp [hj])
    · rw [after_nothing]
      refine ⟨fmem.trans h.mem, hsave.1.trans h.saveAddr, h.log, ?_, fun hdone => ?_⟩
      · simp only [Stage, hat1.state, hsave.2.2]
        rw [if_neg hf]
        exact ⟨hat1, by omega, by omega, fport.trans hport, hne, hfinal⟩
      · obtain ⟨h1, h2⟩ := h.complete (fnet.symm.trans hdone)
        exact ⟨h1, by simp [h2]⟩

theorem step_oack (p : Server) (hbs : 0 < p.blksize) (c : Client) (size : ℕ)
    (hfit : c.saveAddr+size < 4294967296) (s : Sys) (h : Inv p c size s) (text : List UInt8)
    (ht : p.oack = some text) (hc : s.client.tftpState = .sendWrq) :
    Inv p c size (s.after (s.cur+1) s.acked (receiveOack s.client p.port text)) := by
  have hst := h.stage
  unfold Stage at hst
  simp only [hc] at hst
  obtain ⟨hw, hf, htop, hsize, hx, hwrap, hoff, h0⟩ := hst
  have hne : p.oack ≠ none := by simp [ht]
  obtain ⟨hb, hcur⟩ := h0 hne
  have hbs' : parseOack text s.client.tftpBlkSize = p.blksize := by
    rw [hsize, Server.blksize, ht]
  unfold receiveOack
  simp only [hw, if_true, hb, hcur]
  refine send_inv p hbs c size hfit s h hne 1 s.acked (by decide) (Nat.le_add_left 1 _) _ rfl rfl rfl rfl
    ⟨rfl, hw.symm ▸ rfl, hbs', hx, rfl, hwrap, ?_⟩ (.inl (htop ▸ Nat.zero_le _)) (fun j hj => hj)
  rw [hoff]
  simp [wrap32]

theorem step_timeout (p : Server) (hbs : 0 < p.blksize) (c : Client) (size : ℕ)
    (hfit : c.saveAddr+size < 4294967296) (s : Sys) (h : Inv p c size s) :
    Inv p c size (s.after s.cur s.acked (tftpTimeout s.client)) := by
  have hst := h.stage
  have hcases := stage_cases p size s h.stage
  unfold tftpTimeout
  simp only
  by_cases hcount : s.client.tftpTimeoutCount+1 > s.client.tftpTimeoutCountMax
  · rw [if_pos hcount, after_nothing]
    refine ⟨h.mem, h.saveAddr, h.log, ?_, fun hd => nomatch hd⟩
    unfold Stage at hst ⊢
    simp only [netStartAgain]
    rcases hcases with hs | hs <;> simp only [hs] at hst ⊢
    · exact hst
    · obtain ⟨hat, hrest⟩ := hst
      exact ⟨⟨rfl, hat.writing, hat.blkSize, hat.size, hat.block, hat.wrap, hat.wrapOffset⟩, hrest⟩
  · rw [if_neg hcount]
    unfold Stage at hst
    rcases hcases with hs | hs <;> simp only [hs] at hst
    · rw [if_pos (by rw [hs]; decide)]
      rw [tftpSend_request { s.client with tftpTimeoutCount := s.client.tftpTimeoutCount+1 } hs]
      refine ⟨h.mem, h.saveAddr, ?_, ?_, fun hd => h.complete hd⟩
      · intro j o hmem
        rcases List.mem_append.mp hmem with hmem | hmem
        · exact h.log j o hmem
        · simp only [List.map_cons, List.map_nil, List.mem_singleton, Prod.mk.injEq] at hmem
          obtain ⟨-, rfl⟩ := hmem
          trivial
      · simp only [Stage, Sys.after, hs]
        exact hst
    · obtain ⟨hat, hcur, hle, hport, hne, hfinal⟩ := hst
      rw [if_pos (by rw [hs]; decide)]
      refine send_inv p hbs c size hfit s h hne s.cur s.acked hcur hle _ rfl rfl hport rfl
        ⟨hs, hat.writing, hat.blkSize, hat.size, hat.block, hat.wrap, hat.wrapOffset⟩ ?_
        (fun j hj => hj)
      by_cases hf : s.client.tftpFinalBlock = true
      · rw [if_pos hf] at hfinal
        exact .inr hfinal
      · rw [if_neg hf] at hfinal
        exact .inl hfinal

theorem step_inv (p : Server) (hbs : 0 < p.blksize) (c : Client) (size : ℕ)
    (hfit : c.saveAddr+size < 4294967296) (s : Sys) (e : Event) (s' : Sys) (h : Inv p c size s)
    (hc : Clear p size s e) (hs : Step p s e s') : Inv p c size s' := by
  cases hs with
  | oack hl text ht =>
    rw [handler_oack p size s h.stage]
    exact step_oack p hbs c size hfit s h text ht hc
  | ack hl k hk =>
    rw [handler_ack p size s h.stage]
    rcases stage_cases p size s h.stage with hstate | hstate
    · exact step_ack_request p c size s h k hk hstate
    · exact step_ack_data p hbs c size hfit s h k hk hstate hc
  | timeout hl => exact step_timeout p hbs c size hfit s h

/-! ## The whole transfer -/

/-- The client has sent its request. -/
def start (c : Client) (size rrqTimeoutCountMax remotePort ourPort : ℕ) : Sys :=
  ⟨(tftpStart { c with netState := .running } true size rrqTimeoutCountMax remotePort ourPort).1, 0, 0,
    [], []⟩

theorem start_inv (p : Server) (c : Client) (size rrq remotePort ourPort : ℕ) :
    Inv p c size (start c size rrq remotePort ourPort) :=
  ⟨rfl, rfl, (fun _ _ hmem => nomatch hmem), ⟨rfl, rfl, rfl, rfl, rfl, rfl, rfl, fun _ => ⟨rfl, rfl⟩⟩,
    fun hd => nomatch hd⟩

/-- In every run that meets the condition, what is sent is the block that the
transfer has come to, read from inside the image, and completion follows the
acknowledgement of the final block. -/
theorem tftp_write_integrity (p : Server) (hbs : 0 < p.blksize) (c : Client) (size : ℕ)
    (hfit : c.saveAddr+size < 4294967296) (rrq remotePort ourPort : ℕ) (s : Sys)
    (hrun : Reach (Step p) (Clear p size) (start c size rrq remotePort ourPort) s) :
    (∀ k o, (k, o) ∈ s.log → PacketOk (image c size) p.blksize k o) ∧
    (s.client.netState = .success →
      s.top = size/p.blksize+1 ∧ size/p.blksize+1 ∈ s.acked) := by
  have hinv := reach_invariant (Step p) (Clear p size) (Inv p c size)
    (fun a e b h hc hs => step_inv p hbs c size hfit a e b h hc hs) _ _
    (start_inv p c size rrq remotePort ourPort) hrun
  exact ⟨hinv.log, hinv.complete⟩

/-- The system after an event, on a server that sends its options. -/
def next (p : Server) (text : List UInt8) (s : Sys) : Event → Sys
  | .oack => s.after (s.cur+1) s.acked
      (tftpHandler s.client (p.oackFrame s.client.tftpOurPort text))
  | .ack k => s.after (if s.client.tftpFinalBlock then s.cur else k+1) (k::s.acked)
      (tftpHandler s.client (p.ackFrame s.client.tftpOurPort k))
  | .timeout => s.after s.cur s.acked (tftpTimeout s.client)

/-- The options `blksize` and 8. -/
def smallBlocks : List UInt8 := [98, 108, 107, 115, 105, 122, 101, 0, 56, 0]

def smallServer : Server := ⟨1000, some smallBlocks⟩

def idle : Client :=
  ⟨.sendRrq, 0, 0, 0, 0, 5000, 0, 0, 0, 0, 512, 1468, false, false, [97], 0, 4096, 0, .running,
    fun i => UInt8.ofNat i⟩

def after (events : List Event) : Sys :=
  events.foldl (next smallServer smallBlocks) (start idle 10 10 69 2000)

theorem tftp_write_integrity_short :
    Reach (Step smallServer) (Clear smallServer 10) (start idle 10 10 69 2000)
      (after [.oack, .ack 1, .ack 2]) ∧
    (after [.oack, .ack 1, .ack 2]).client.netState = .success ∧
    (∀ k o, (k, o) ∈ (after [.oack, .ack 1, .ack 2]).log →
      PacketOk (image idle 10) smallServer.blksize k o) ∧
    10/smallServer.blksize+1 ∈ (after [.oack, .ack 1, .ack 2]).acked := by
  have h1 : Reach (Step smallServer) (Clear smallServer 10) (start idle 10 10 69 2000)
      (after [.oack]) :=
    reach_next _ _ _ _ _ .oack .refl (Step.oack _ (.inl rfl) smallBlocks rfl) rfl
  have h2 : Reach (Step smallServer) (Clear smallServer 10) (start idle 10 10 69 2000)
      (after [.oack, .ack 1]) :=
    reach_next _ _ _ _ _ (.ack 1) h1 (Step.ack (after [.oack]) (.inl rfl) 1 (by
      unfold Acknowledged
      decide +kernel)) (by
      unfold Clear
      decide +kernel)
  have h3 : Reach (Step smallServer) (Clear smallServer 10) (start idle 10 10 69 2000)
      (after [.oack, .ack 1, .ack 2]) :=
    reach_next _ _ _ _ _ (.ack 2) h2 (Step.ack (after [.oack, .ack 1]) (.inl rfl) 2 (by
      unfold Acknowledged
      decide +kernel)) (by
      unfold Clear
      decide +kernel)
  have hdone : (after [.oack, .ack 1, .ack 2]).client.netState = .success := by decide +kernel
  have h := tftp_write_integrity smallServer (by decide +kernel) idle 10 (by decide) 10 69 2000 _ h3
  exact ⟨h3, hdone, h.1, (h.2 hdone).2⟩

/-- A second acknowledgement of block 1 completes the transfer of two blocks,
and a copy of the option acknowledgement makes the client read past the end. -/
theorem stale_acks_break_write :
    (Reach (Step smallServer) (fun _ _ => True) (start idle 10 10 69 2000)
      (after [.oack, .ack 1, .ack 1]) ∧
      (after [.oack, .ack 1, .ack 1]).client.netState = .success ∧
      10/smallServer.blksize+1 ∉ (after [.oack, .ack 1, .ack 1]).acked) ∧
    (Reach (Step smallServer) (fun _ _ => True) (start idle 10 10 69 2000)
      (after [.oack, .oack, .oack]) ∧
      (3, .read 16 8) ∈ (after [.oack, .oack, .oack]).log) := by
  have h1 : Reach (Step smallServer) (fun _ _ => True) (start idle 10 10 69 2000) (after [.oack]) :=
    reach_next _ _ _ _ _ .oack .refl (Step.oack _ (.inl rfl) smallBlocks rfl) trivial
  have h2 : Reach (Step smallServer) (fun _ _ => True) (start idle 10 10 69 2000)
      (after [.oack, .ack 1]) :=
    reach_next _ _ _ _ _ (.ack 1) h1 (Step.ack (after [.oack]) (.inl rfl) 1 (by
      unfold Acknowledged
      decide +kernel)) trivial
  have h3 : Reach (Step smallServer) (fun _ _ => True) (start idle 10 10 69 2000)
      (after [.oack, .ack 1, .ack 1]) :=
    reach_next _ _ _ _ _ (.ack 1) h2 (Step.ack (after [.oack, .ack 1]) (.inl rfl) 1 (by
      unfold Acknowledged
      decide +kernel)) trivial
  have h2' : Reach (Step smallServer) (fun _ _ => True) (start idle 10 10 69 2000)
      (after [.oack, .oack]) :=
    reach_next _ _ _ _ _ .oack h1 (Step.oack (after [.oack]) (.inl rfl) smallBlocks rfl) trivial
  have h3' : Reach (Step smallServer) (fun _ _ => True) (start idle 10 10 69 2000)
      (after [.oack, .oack, .oack]) :=
    reach_next _ _ _ _ _ .oack h2' (Step.oack (after [.oack, .oack]) (.inl rfl) smallBlocks rfl)
      trivial
  exact ⟨⟨h3, by decide +kernel, by decide +kernel⟩, h3', by decide +kernel⟩

end UBoot.Tftp.Write
