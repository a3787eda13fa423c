import UBoot.Nfs
import Mathlib.Data.List.GetD
import Mathlib.Data.List.TakeWhile

/-!
# An NFS server and the network in between

A server answers every call that reaches one of its ports. The network delivers
the answer to any call that was ever sent, at any time and any number of times,
and timeouts come when they like. Success is reported for nothing but the
file, whatever comes late; but a late reply is taken for a failure or for the
answer that was waited for, and in the port look-up states for a success.
-/

set_option autoImplicit false

namespace UBoot.Nfs

/-! ## The wire -/

def be32 (x : ℕ) : Bytes :=
  [UInt8.ofNat (x/16777216), UInt8.ofNat (x/65536), UInt8.ofNat (x/256), UInt8.ofNat x]

theorem be32_length (x : ℕ) : (be32 x).length = 4 := rfl

theorem getD_append (pre post : Bytes) (n : ℕ) : (pre ++ post).getD (pre.length+n) 0 = post.getD n 0 := by
  rw [List.getD_append_right _ _ _ _ (by omega)]
  congr 1
  omega

theorem word_append (pre post : Bytes) (x k : ℕ) (h : pre.length = 4*k) :
    word (pre ++ (be32 x ++ post)) k = w32 x := by
  have h0 := getD_append pre (be32 x ++ post) 0
  have h1 := getD_append pre (be32 x ++ post) 1
  have h2 := getD_append pre (be32 x ++ post) 2
  have h3 := getD_append pre (be32 x ++ post) 3
  rw [h] at h0 h1 h2 h3
  rw [Nat.add_zero] at h0
  unfold word
  rw [h0, h1, h2, h3]
  simp only [be32, List.cons_append, List.getD_cons_zero, List.getD_cons_succ, UInt8.toNat_ofNat']
  unfold w32
  omega

/-! ## The server -/

/-- What a handle stands for. -/
inductive Node where
  | file (bytes : Bytes)
  | link (text : Bytes)
  | other

/-- The answers of a server. Errors are the status codes of the protocol. -/
structure Server where
  port : ℕ → ℕ
  mount : Bytes → Except ℕ Bytes
  lookup : Bytes → Bytes → Except ℕ Bytes
  read : Bytes → ℕ → ℕ → Except ℕ Bytes
  readlink : Bytes → Except ℕ Bytes
  node : Bytes → Node
  attributes : Bytes → Bytes
  /-- The flavour and the body of the verifier in the answer to a call. -/
  verifier : Packet → ℕ × Bytes

/-- The status of an error is a positive number. -/
def IsStatus : Except ℕ Bytes → Prop
  | .ok _ => True
  | .error e => 0 < e ∧ e < 2147483648

/-- The answers are true. A read returns at least a byte where the file has one. -/
structure Server.Correct (srv : Server) : Prop where
  port : ∀ prog, srv.port prog < 4294967296
  mount : ∀ path, IsStatus (srv.mount path)
  lookup : ∀ dir name, IsStatus (srv.lookup dir name)
  read : ∀ file offset len, IsStatus (srv.read file offset len)
  readlink : ∀ file, IsStatus (srv.readlink file)
  mountHandle : ∀ path h, srv.mount path = .ok h → h.length = nfsFhsize
  lookupHandle : ∀ dir name h, srv.lookup dir name = .ok h → h.length = nfsFhsize
  attributes : ∀ file, (srv.attributes file).length = 68
  content : ∀ file offset len d, srv.read file offset len = .ok d → ∃ bytes,
    srv.node file = .file bytes ∧ d = (bytes.drop offset).take d.length ∧ d.length ≤ len ∧
    (d = [] → 0 < len → bytes.length ≤ offset)
  target : ∀ file t, srv.readlink file = .ok t → srv.node file = .link t ∧ t ≠ [] ∧ 0 ∉ t ∧
    t.length < 4294967296

def pad (d : Bytes) : Bytes := List.replicate ((4-d.length%4)%4) 0

/-- A status and what follows if it is 0. -/
@[grind]
def outcome (r : Except ℕ Bytes) (f : Bytes → Bytes) : Bytes :=
  match r with
  | .error e => be32 e
  | .ok d => be32 0 ++ f d

def Server.result (srv : Server) : Call → Bytes
  | .getport prog => be32 (srv.port prog)
  | .mount path => outcome (srv.mount path) id
  | .umountall => []
  | .lookup dir name => outcome (srv.lookup dir name) fun h => h ++ srv.attributes h
  | .read file offset len => outcome (srv.read file offset len) fun d =>
      srv.attributes file ++ (be32 d.length ++ (d ++ pad d))
  | .readlink file => outcome (srv.readlink file) fun t => be32 t.length ++ (t ++ pad t)

/-- The port at which a call is heard. -/
def Server.home (srv : Server) : Call → ℕ
  | .getport _ => sunrpcPort
  | .mount _ => srv.port progMount
  | .umountall => srv.port progMount
  | _ => srv.port progNfs

/-- The answer to a call that reaches the server. -/
def Server.answer (srv : Server) (p : Packet) : Option Bytes :=
  if p.port = srv.home p.call then
    let (flavour, body) := srv.verifier p
    some (be32 p.id ++ (be32 1 ++ (be32 0 ++ (be32 flavour ++ (be32 body.length ++ (body ++
      (be32 0 ++ srv.result p.call)))))))
  else none

/-! ## Runs -/

structure System where
  client : Client
  /-- All calls, the last one first. -/
  sent : List Packet

inductive Event where
  /-- The answer to the call before some others arrives. -/
  | reply (k : ℕ)
  | timeout (again : Bool)

def System.put (s : System) (r : Client × List Packet) : System := ⟨r.1, r.2 ++ s.sent⟩

/-- What arrives, if anything does. -/
def arrived (srv : Server) (s : System) (k : ℕ) : Option Bytes :=
  s.sent[k]?.bind srv.answer

def step (srv : Server) (bootPath : Bytes) (s : System) (e : Event) : Option System :=
  if s.client.net ≠ .going then some s
  else
    match e with
    | .reply k =>
      match arrived srv s k with
      | none => some s
      | some pkt => (handler s.client pkt).map s.put
    | .timeout again => (timeout s.client bootPath again).map s.put

/-! ## What a reply says -/

theorem answer_id (srv : Server) (p : Packet) (pkt : Bytes) (h : srv.answer p = some pkt) :
    replyId pkt = w32 p.id := by
  unfold Server.answer at h
  split_ifs at h
  cases h
  exact word_append [] _ p.id 0 rfl

/-- The six words in front of the result. -/
def header (id : ℕ) : Bytes := be32 id ++ (be32 1 ++ (be32 0 ++ (be32 0 ++ (be32 0 ++ be32 0))))

theorem answer_null (srv : Server) (p : Packet) (pkt : Bytes) (h : srv.answer p = some pkt)
    (hv : srv.verifier p = (0, [])) : pkt = header p.id ++ srv.result p.call := by
  unfold Server.answer at h
  split_ifs at h
  rw [hv] at h
  cases h
  simp only [header, List.append_assoc, List.nil_append, List.length_nil]

section Header

variable (id : ℕ) (r : Bytes)

theorem header_word (k : ℕ) : word (header id ++ r) (6+k) = word r k := by
  have hlen : ∀ n, (header id ++ r).getD (24+n) 0 = r.getD n 0 := fun n => getD_append (header id) r n
  unfold word
  rw [show 4*(6+k) = 24+4*k by omega, hlen, show 24+4*k+1 = 24+(4*k+1) by omega, hlen,
    show 24+4*k+2 = 24+(4*k+2) by omega, hlen, show 24+4*k+3 = 24+(4*k+3) by omega, hlen]

theorem header_data (k : ℕ) : data (header id ++ r) k = word r k := header_word id r k

theorem header_bytes (k len : ℕ) : dataBytes (header id ++ r) k len = (r.drop (4*k)).take len := by
  unfold dataBytes
  rw [← List.drop_drop, show (header id ++ r).drop 24 = r from List.drop_left' rfl]

theorem header_checks (c : Client) (hid : w32 id = c.rpcId) : accepted c (header id ++ r) = true := by
  have h0 : replyId (header id ++ r) = w32 id := by
    rw [header, List.append_assoc]
    exact word_append [] _ id 0 rfl
  have h2 : rstatus (header id ++ r) = 0 := by
    rw [header]
    simp only [List.append_assoc]
    rw [← List.append_assoc]
    exact word_append (be32 id ++ be32 1) _ 0 2 rfl
  have h3 : verifier (header id ++ r) = 0 := by
    rw [header]
    simp only [List.append_assoc]
    rw [← List.append_assoc, ← List.append_assoc]
    exact word_append ((be32 id ++ be32 1) ++ be32 0) _ 0 3 rfl
  have h5 : astatus (header id ++ r) = 0 := by
    rw [header]
    simp only [List.append_assoc]
    rw [← List.append_assoc, ← List.append_assoc, ← List.append_assoc, ← List.append_assoc]
    exact word_append ((((be32 id ++ be32 1) ++ be32 0) ++ be32 0) ++ be32 0) _ 0 5 rfl
  simp only [accepted, h0, h2, h3, h5, hid, and_self, decide_true]

end Header

/-- What the fields of a reply to a call that waits are. -/
structure Fresh (srv : Server) (c : Client) (call : Call) (pkt : Bytes) : Prop where
  accepted : accepted c pkt = true
  data : ∀ k, data pkt k = word (srv.result call) k
  bytes : ∀ k len, dataBytes pkt k len = ((srv.result call).drop (4*k)).take len
  rest : ∀ k, pkt.drop (24+k) = (srv.result call).drop k

theorem answer_fresh (srv : Server) (c : Client) (p : Packet) (pkt : Bytes)
    (h : srv.answer p = some pkt) (hv : srv.verifier p = (0, [])) (hid : w32 p.id = c.rpcId) :
    Fresh srv c p.call pkt := by
  rw [answer_null srv p pkt h hv]
  refine ⟨header_checks p.id _ c hid, header_data p.id _, header_bytes p.id _, ?_⟩
  intro k
  rw [← List.drop_drop]
  rfl

theorem outcome_error (e : ℕ) (f : Bytes → Bytes) (h : IsStatus (.error e)) :
    word (outcome (.error e) f) 0 = e := by
  have hw := word_append [] [] e 0 rfl
  rw [List.nil_append, List.append_nil] at hw
  rw [outcome, hw]
  exact Nat.mod_eq_of_lt (by have := h.2; omega)

theorem outcome_ok (d : Bytes) (f : Bytes → Bytes) : word (outcome (.ok d) f) 0 = 0 :=
  word_append [] (f d) 0 0 rfl

/-! ## The file that is meant -/

/-- The path that a link in a directory stands for. -/
def linkPath (dir text : Bytes) : Bytes := if text.head? = some 47 then text else dir ++ 47::text

/-- The content of the file that a name in a directory leads to. -/
inductive Names (srv : Server) : Bytes → Bytes → Bytes → Prop where
  | file (dir name d h bytes : Bytes) : srv.mount dir = .ok d → srv.lookup d name = .ok h →
      srv.node h = .file bytes → Names srv dir name bytes
  | link (dir name d h text dir' name' bytes : Bytes) : srv.mount dir = .ok d →
      srv.lookup d name = .ok h → srv.node h = .link text →
      splitPath (linkPath dir text) = some (dir', name') → Names srv dir' name' bytes →
      Names srv dir name bytes

def Denotes (srv : Server) (path bytes : Bytes) : Prop :=
  ∃ dir name, splitPath (cstr path) = some (dir, name) ∧ Names srv dir name bytes

/-- The first `n` bytes are in memory, and nothing else was counted. -/
def Stored (c : Client) (bytes : Bytes) (n : ℕ) : Prop :=
  n ≤ bytes.length ∧ c.xferSize = n ∧ ∀ k < n, c.mem (w32 (c.loadAddr+k)) = bytes.getD k 0

/-- Memory holds exactly the file. -/
def Loaded (srv : Server) (bootPath : Bytes) (c : Client) : Prop :=
  ∃ bytes, Denotes srv bootPath bytes ∧ bytes.length < 4294967296 ∧ Stored c bytes bytes.length

theorem cstr_eq (s : Bytes) (h : 0 ∉ s) : cstr s = s := by
  rw [cstr, List.takeWhile_eq_self_iff]
  intro x hx
  exact decide_eq_true (fun h0 => h (h0 ▸ hx))

theorem cstr_clean (s : Bytes) : 0 ∉ cstr s := by
  intro h
  have h' := List.mem_takeWhile_imp h
  simp at h'

theorem splitPath_clean (path dir name : Bytes) (h : splitPath path = some (dir, name))
    (hz : 0 ∉ path) : 0 ∉ dir := by
  unfold splitPath at h
  split_ifs at h
  cases h
  intro hm
  have h1 := (List.drop_sublist _ _).subset (List.mem_reverse.mp hm)
  exact hz (List.mem_reverse.mp ((List.dropWhile_sublist _).subset h1))

theorem linkPath_clean (dir text : Bytes) (hd : 0 ∉ dir) (ht : 0 ∉ text) :
    0 ∉ linkPath dir text := by
  unfold linkPath
  split_ifs
  · exact ht
  · simp [hd, ht]

theorem splitPath_link (dir text : Bytes) : ∃ r, splitPath (linkPath dir text) = some r := by
  have hm : (47 : UInt8) ∈ linkPath dir text := by
    unfold linkPath
    split_ifs with h
    · exact List.mem_of_mem_head? h
    · simp
  exact ⟨_, if_pos hm⟩

theorem Stored.congr (c c' : Client) (bytes : Bytes) (n : ℕ) (h : Stored c bytes n)
    (hm : c'.mem = c.mem) (hx : c'.xferSize = c.xferSize) (hl : c'.loadAddr = c.loadAddr) :
    Stored c' bytes n := by
  unfold Stored
  rw [hm, hx, hl]
  exact h

theorem Loaded.congr (srv : Server) (bootPath : Bytes) (c c' : Client) (h : Loaded srv bootPath c)
    (hm : c'.mem = c.mem) (hx : c'.xferSize = c.xferSize) (hl : c'.loadAddr = c.loadAddr) :
    Loaded srv bootPath c' := by
  obtain ⟨bytes, hd, hlen, hs⟩ := h
  exact ⟨bytes, hd, hlen, hs.congr c c' bytes _ hm hx hl⟩

/-! ## The invariant -/

/-- What is known in a state. -/
@[grind]
def Phase (srv : Server) (c : Client) : Prop :=
  match c.state with
  | .lookupMount => c.xferSize = 0
  | .lookupNfs => c.xferSize = 0
  | .mount => c.xferSize = 0
  | .umount => True
  | .lookup => srv.mount c.path = .ok c.dirfh ∧ c.xferSize = 0
  | .read => srv.mount c.path = .ok c.dirfh ∧ srv.lookup c.dirfh c.filename = .ok c.filefh ∧
    c.len = nfsReadSize ∧ c.offset < 4294967296 ∧
    (∀ bytes, srv.node c.filefh = .file bytes → bytes.length < 4294967296 →
      Stored c bytes c.offset) ∧
    ((∀ bytes, srv.node c.filefh ≠ .file bytes) → c.xferSize = 0)
  | .readlink => srv.mount c.path = .ok c.dirfh ∧ srv.lookup c.dirfh c.filename = .ok c.filefh ∧
    ((∀ bytes, srv.node c.filefh ≠ .file bytes) → c.xferSize = 0)

structure Good (srv : Server) (bootPath : Bytes) (c : Client) : Prop where
  clean : 0 ∉ c.path
  chain : ∀ bytes, Names srv c.path c.filename bytes → Denotes srv bootPath bytes
  pending : c.state ≠ .umount → c.downloadState = .fail
  done : c.downloadState = .success → Loaded srv bootPath c
  reported : c.net = .success → Loaded srv bootPath c
  phase : Phase srv c

/-- The call whose reply the state waits for. -/
@[grind]
def expected (c : Client) : List Packet :=
  match c.state with
  | .lookupMount => [⟨c.rpcId, sunrpcPort, .getport progMount⟩]
  | .lookupNfs => [⟨c.rpcId, sunrpcPort, .getport progNfs⟩]
  | .mount => [⟨c.rpcId, c.srvMountPort, .mount c.path⟩]
  | .umount => []
  | .lookup => [⟨c.rpcId, c.srvNfsPort, .lookup c.dirfh c.filename⟩]
  | .read => [⟨c.rpcId, c.srvNfsPort, .read c.filefh c.offset c.len⟩]
  | .readlink => [⟨c.rpcId, c.srvNfsPort, .readlink c.filefh⟩]

theorem phase_read (srv : Server) (c : Client) (hs : c.state = .read) : Phase srv c ↔
    srv.mount c.path = .ok c.dirfh ∧ srv.lookup c.dirfh c.filename = .ok c.filefh ∧
    c.len = nfsReadSize ∧ c.offset < 4294967296 ∧
    (∀ bytes, srv.node c.filefh = .file bytes → bytes.length < 4294967296 →
      Stored c bytes c.offset) ∧
    ((∀ bytes, srv.node c.filefh ≠ .file bytes) → c.xferSize = 0) := by
  simp only [Phase, hs]

theorem send_same (c : Client) : ∃ id, id < 4294967296 ∧ ((send c).1 = { c with rpcId := id } ∨
    (send c).1 = c) := by
  unfold send rpcReq w32
  cases c.state <;> simp only
  case umount =>
    split_ifs
    · exact ⟨0, by omega, .inr rfl⟩
    · exact ⟨_, Nat.mod_lt _ (by omega), .inl rfl⟩
  all_goals exact ⟨_, Nat.mod_lt _ (by omega), .inl rfl⟩

theorem send_good (srv : Server) (bootPath : Bytes) (c : Client) (h : Good srv bootPath c) :
    Good srv bootPath (send c).1 := by
  obtain ⟨id, -, heq | heq⟩ := send_same c
  · rw [heq]
    exact ⟨h.clean, h.chain, h.pending, h.done, h.reported, h.phase⟩
  · rw [heq]
    exact h

theorem send_expected (c : Client) (rest : List Packet) :
    ∃ more, (send c).2 ++ rest = expected (send c).1 ++ more := by
  have hst : (send c).1.state = c.state := by
    obtain ⟨id, -, heq | heq⟩ := send_same c <;> rw [heq]
  cases hs : c.state with
  | umount =>
    refine ⟨(send c).2 ++ rest, ?_⟩
    simp only [expected, hst, hs, List.nil_append]
  | _ =>
    refine ⟨rest, ?_⟩
    simp only [expected, hst, hs]
    simp only [send, hs, rpcReq]

/-! ## One reply -/

/-- The reply has another id, or it answers the call that is waited for. -/
def Matched (srv : Server) (c : Client) (pkt : Bytes) : Prop :=
  replyId pkt ≠ c.rpcId ∨ ∀ p ∈ expected c, Fresh srv c p.call pkt

theorem accepted_id (c : Client) (pkt : Bytes) (h : accepted c pkt = true) : replyId pkt = c.rpcId := by
  simp only [accepted, decide_eq_true_eq] at h
  exact h.1

theorem not_accepted (c : Client) (pkt : Bytes) (h : replyId pkt ≠ c.rpcId) : accepted c pkt = false := by
  rw [← Bool.not_eq_true]
  exact fun ha => h (accepted_id c pkt ha)

/-- To give up is always good. -/
theorem good_umount (srv : Server) (bootPath : Bytes) (c : Client) (h : Good srv bootPath c) :
    Good srv bootPath (send (c.enter .umount)).1 :=
  send_good srv bootPath _ ⟨h.clean, h.chain, fun hn => absurd rfl hn, h.done, h.reported, trivial⟩

/-- Unmounting changes what is reported and nothing of the file. -/
theorem umount_good (srv : Server) (bootPath : Bytes) (c c' : Client) (h : Good srv bootPath c)
    (hs : c'.state = .umount) (hp : c'.path = c.path) (hn : c'.filename = c.filename)
    (hd : c'.downloadState = c.downloadState) (hm : c'.mem = c.mem ∧ c'.loadAddr = c.loadAddr)
    (hx : c'.xferSize = c.xferSize) (hr : c'.net = .success → Loaded srv bootPath c') :
    Good srv bootPath c' := by
  refine ⟨?_, ?_, fun hne => absurd hs hne, ?_, hr, ?_⟩
  · rw [hp]
    exact h.clean
  · rw [hp, hn]
    exact h.chain
  · rw [hd]
    exact fun hd => (h.done hd).congr srv bootPath c c' hm.1 hx hm.2
  · simp only [Phase, hs]

theorem readlinkReply_followed (c c' : Client) (pkt : Bytes) (h : nfsReadlinkReply c pkt = .followed c') :
    ∃ dir name, c' = { c with path := dir, filename := name } := by
  unfold nfsReadlinkReply at h
  by_cases hok : accepted c pkt = true ∧ data pkt 0 = 0
  swap
  · rw [if_neg hok] at h
    cases h
  rw [if_pos hok] at h
  simp only at h
  generalize (if pkt.getD 32 0 = 47 then dataBytes pkt 2 (data pkt 1)
    else c.path ++ 47::dataBytes pkt 2 (data pkt 1)) = path at h
  by_cases hfit : pathBuffer ≤ path.length
  · rw [if_pos hfit] at h
    cases h
  rw [if_neg hfit] at h
  cases hsp : splitPath (cstr path) with
  | none => simp [hsp] at h
  | some r =>
    simp only [hsp, LinkResult.followed.injEq] at h
    exact ⟨_, _, h.symm⟩

section Replies

variable (srv : Server) (hc : srv.Correct) (bootPath : Bytes) (c : Client) (pkt : Bytes)
  (h : Good srv bootPath c) (hm : Matched srv c pkt)

include h

theorem lookupReply_good (prog : ℕ) (s : State) (hold : c.state = .lookupMount ∨ c.state = .lookupNfs)
    (hs : s = .lookupNfs ∨ s = .mount) :
    Good srv bootPath (send ((rpcLookupReply c prog pkt).enter s)).1 := by
  have hx : c.xferSize = 0 := by
    have hp := h.phase
    rcases hold with ho | ho <;> simpa only [Phase, ho] using hp
  have hf := h.pending (by rcases hold with ho | ho <;> rw [ho] <;> decide)
  refine send_good srv bootPath _ ?_
  unfold rpcLookupReply
  split_ifs
  all_goals
    refine ⟨h.clean, h.chain, fun _ => hf, h.done, h.reported, ?_⟩
    rcases hs with rfl | rfl <;> exact hx

include hc hm

theorem mountReply_good (hs : c.state = .mount) (c' : Client) (hr : nfsMountReply c pkt = some c') :
    Good srv bootPath (send (c'.enter .lookup)).1 := by
  unfold nfsMountReply at hr
  split_ifs at hr with ha
  obtain ⟨ha, h0⟩ := ha
  rcases hm with hm | hm
  · exact absurd (accepted_id c pkt ha) hm
  have hfr := hm ⟨c.rpcId, c.srvMountPort, .mount c.path⟩ (by simp [expected, hs])
  have hf := h.pending (by rw [hs]; decide)
  have hx : c.xferSize = 0 := by
    have hp := h.phase
    simpa only [Phase, hs] using hp
  rw [hfr.data] at h0
  cases hmo : srv.mount c.path with
  | error e =>
    have he := hc.mount c.path
    rw [hmo] at he
    simp only [Server.result, hmo, outcome_error e _ he] at h0
    have := he.1
    omega
  | ok d =>
    have hd : dataBytes pkt 1 nfsFhsize = d := by
      rw [hfr.bytes]
      simp only [Server.result, hmo, outcome, id]
      rw [show 4*1 = (be32 0).length from rfl, List.drop_left, ← hc.mountHandle _ d hmo,
        List.take_length]
    rw [hd] at hr
    cases hr
    exact send_good srv bootPath _ ⟨h.clean, h.chain, fun _ => hf, h.done, h.reported, hmo, hx⟩

theorem lookupFile_good (hs : c.state = .lookup) (c' : Client) (hr : nfsLookupReply c pkt = some c') :
    Good srv bootPath (send { c' with state := .read, offset := 0, len := nfsReadSize }).1 := by
  unfold nfsLookupReply at hr
  split_ifs at hr with ha
  obtain ⟨ha, h0⟩ := ha
  rcases hm with hm | hm
  · exact absurd (accepted_id c pkt ha) hm
  have hfr := hm ⟨c.rpcId, c.srvNfsPort, .lookup c.dirfh c.filename⟩ (by simp [expected, hs])
  have hf := h.pending (by rw [hs]; decide)
  have hp := h.phase
  simp only [Phase, hs] at hp
  obtain ⟨hmount, hx⟩ := hp
  rw [hfr.data] at h0
  cases hlo : srv.lookup c.dirfh c.filename with
  | error e =>
    have he := hc.lookup c.dirfh c.filename
    rw [hlo] at he
    simp only [Server.result, hlo, outcome_error e _ he] at h0
    have := he.1
    omega
  | ok d =>
    have hd : dataBytes pkt 1 nfsFhsize = d := by
      rw [hfr.bytes]
      simp only [Server.result, hlo, outcome]
      rw [show 4*1 = (be32 0).length from rfl, List.drop_left, ← hc.lookupHandle _ _ d hlo,
        List.take_left]
    rw [hd] at hr
    cases hr
    refine send_good srv bootPath _ ⟨h.clean, h.chain, fun _ => hf, h.done, h.reported, hmount, hlo, rfl, ?_,
      ?_, fun _ => hx⟩
    · exact Nat.zero_lt_succ _
    · intro bytes _ _
      exact ⟨Nat.zero_le _, hx, fun k hk => absurd hk (Nat.not_lt_zero k)⟩

omit h hm in
/-- The result of a link that is answered. -/
theorem readlinkReply_ok (hfr : Fresh srv c (.readlink c.filefh) pkt) (hz : 0 ∉ c.path) (t : Bytes)
    (hrl : srv.readlink c.filefh = .ok t) : nfsReadlinkReply c pkt =
      if pathBuffer ≤ (linkPath c.path t).length then .outside
      else
        match splitPath (linkPath c.path t) with
        | none => .outside
        | some (dir, name) => .followed { c with path := dir, filename := name } := by
  obtain ⟨-, hne, hzt, hlen⟩ := hc.target c.filefh t hrl
  have hres : srv.result (.readlink c.filefh) = be32 0 ++ (be32 t.length ++ (t ++ pad t)) := by
    simp only [Server.result, hrl, outcome]
  have h0 : data pkt 0 = 0 := by
    rw [hfr.data]
    simp only [Server.result, hrl]
    exact outcome_ok t _
  have h1 : data pkt 1 = t.length := by
    rw [hfr.data, hres, word_append (be32 0) _ _ 1 rfl]
    exact Nat.mod_eq_of_lt hlen
  have htext : dataBytes pkt 2 t.length = t := by
    rw [hfr.bytes, hres, ← List.append_assoc, show 4*2 = (be32 0 ++ be32 t.length).length from rfl,
      List.drop_left, List.take_left]
  have hfirst : pkt.getD 32 0 = 47 ↔ t.head? = some 47 := by
    have hrest : pkt.drop 32 = t ++ pad t := by
      have hd := hfr.rest 8
      rw [hres] at hd
      exact hd
    obtain ⟨a, t', rfl⟩ := List.exists_cons_of_ne_nil hne
    have hget : pkt.getD 32 0 = (pkt.drop 32).getD 0 0 := by
      rw [List.getD_eq_getElem?_getD, List.getD_eq_getElem?_getD, List.getElem?_drop]
    rw [hget, hrest]
    simp
  have hpath : (if pkt.getD 32 0 = 47 then dataBytes pkt 2 (data pkt 1)
      else c.path ++ 47::dataBytes pkt 2 (data pkt 1)) = linkPath c.path t := by
    rw [h1, htext, linkPath]
    simp only [hfirst]
  have hclean := linkPath_clean c.path t hz hzt
  unfold nfsReadlinkReply
  rw [if_pos ⟨hfr.accepted, h0⟩]
  cases hs : splitPath (linkPath c.path t) <;> simp only [hpath, cstr_eq _ hclean, hs]

omit h hm in
theorem readlinkReply_error (hfr : Fresh srv c (.readlink c.filefh) pkt) (e : ℕ)
    (hrl : srv.readlink c.filefh = .error e) : nfsReadlinkReply c pkt = .failed := by
  have he := hc.readlink c.filefh
  rw [hrl] at he
  have h0 : data pkt 0 = e := by
    rw [hfr.data]
    simp only [Server.result, hrl]
    exact outcome_error e _ he
  have hpos := he.1
  rw [nfsReadlinkReply, if_neg (fun hn => by omega)]

omit hc h hm in
theorem readlinkReply_stale (hid : replyId pkt ≠ c.rpcId) : nfsReadlinkReply c pkt = .failed := by
  rw [nfsReadlinkReply, not_accepted c pkt hid, if_neg (fun hn => by cases hn.1)]

theorem readlinkReply_good (hs : c.state = .readlink) (c' : Client)
    (hr : nfsReadlinkReply c pkt = .followed c') : Good srv bootPath (send (c'.enter .mount)).1 := by
  rcases hm with hm | hm
  · rw [readlinkReply_stale c pkt hm] at hr
    cases hr
  have hfr := hm ⟨c.rpcId, c.srvNfsPort, .readlink c.filefh⟩ (by simp [expected, hs])
  have hf := h.pending (by rw [hs]; decide)
  have hp := h.phase
  simp only [Phase, hs] at hp
  obtain ⟨hmount, hlookup, hx⟩ := hp
  cases hrl : srv.readlink c.filefh with
  | error e =>
    rw [readlinkReply_error srv hc c pkt hfr e hrl] at hr
    cases hr
  | ok t =>
    obtain ⟨hnode, -, hzt, -⟩ := hc.target c.filefh t hrl
    rw [readlinkReply_ok srv hc c pkt hfr h.clean t hrl] at hr
    by_cases hfit : pathBuffer ≤ (linkPath c.path t).length
    · rw [if_pos hfit] at hr
      cases hr
    rw [if_neg hfit] at hr
    cases hsp : splitPath (linkPath c.path t) with
    | none => simp [hsp] at hr
    | some r =>
      obtain ⟨dir, name⟩ := r
      simp only [hsp, LinkResult.followed.injEq] at hr
      subst hr
      refine send_good srv bootPath _ ⟨splitPath_clean _ dir name hsp
        (linkPath_clean c.path t h.clean hzt), ?_, fun _ => hf, h.done, h.reported,
        hx (by simp [hnode])⟩
      intro bytes hb
      exact h.chain bytes (.link _ _ _ _ t dir name bytes hmount hlookup hnode hsp hb)

omit hc h hm in
/-- The bytes of a block that ends inside of the address space go where they belong. -/
theorem storeBlock_stored (bytes d src : Bytes) (hoff : c.offset+d.length ≤ bytes.length)
    (hlen : bytes.length < 4294967296) (hd : d = (bytes.drop c.offset).take d.length)
    (hsrc : ∀ k < d.length, src.getD k 0 = d.getD k 0) (hst : Stored c bytes c.offset) :
    Stored (storeBlock c src c.offset d.length) bytes (c.offset+d.length) := by
  obtain ⟨-, hsize, hmem⟩ := hst
  refine ⟨hoff, ?_, ?_⟩
  · simp only [storeBlock, hsize]
    rw [show w32 (c.offset+d.length) = c.offset+d.length from Nat.mod_eq_of_lt (by omega)]
    split_ifs <;> omega
  · intro k hk
    have hpos : w32 (4294967296+w32 (c.loadAddr+k)-w32 (c.loadAddr+c.offset)) =
        if c.offset ≤ k then k-c.offset else 4294967296+k-c.offset := by
      unfold w32
      split_ifs <;> omega
    have hlow : w32 (c.loadAddr+k) < 4294967296 := Nat.mod_lt _ (by omega)
    simp only [storeBlock, hpos, hlow, and_true]
    by_cases hge : c.offset ≤ k
    · rw [if_pos hge, if_pos (by omega), hsrc _ (by omega), hd]
      rw [List.getD_eq_getElem?_getD, List.getElem?_take, if_pos (by omega), List.getElem?_drop,
        List.getD_eq_getElem?_getD]
      congr 2
      omega
    · rw [if_neg hge, if_neg (by omega)]
      exact hmem k (by omega)

omit hc h hm in
/-- The result of a read that is answered. -/
theorem readReply_error (hfr : Fresh srv c (.read c.filefh c.offset c.len) pkt)
    (e : ℕ) (he : IsStatus (.error e)) (hread : srv.read c.filefh c.offset c.len = .error e) :
    nfsReadReply c pkt = (c, -(e : ℤ)) := by
  have ha := hfr.accepted
  simp only [accepted, decide_eq_true_eq] at ha
  obtain ⟨hid, h2, h3, h5⟩ := ha
  have h0 : data pkt 0 = e := by
    rw [hfr.data]
    simp only [Server.result, hread]
    exact outcome_error e _ he
  obtain ⟨hpos, hlt⟩ := he
  have hsig : signed (w32 (4294967296-e)) = -(e : ℤ) := by
    rw [w32, Nat.mod_eq_of_lt (by omega), signed, if_neg (by omega)]
    omega
  simp only [nfsReadReply, hid, h2, h3, h5, h0, ne_eq, not_true_eq_false, if_false, false_or, hsig]
  rw [if_pos (by omega)]

omit h hm in
theorem readReply_ok (hfr : Fresh srv c (.read c.filefh c.offset c.len) pkt)
    (d : Bytes) (hlen : d.length < 2147483648)
    (hread : srv.read c.filefh c.offset c.len = .ok d) :
    nfsReadReply c pkt = (storeBlock c (d ++ pad d) c.offset d.length, (d.length : ℤ)) := by
  have ha := hfr.accepted
  simp only [accepted, decide_eq_true_eq] at ha
  obtain ⟨hid, h2, h3, h5⟩ := ha
  have hres : srv.result (.read c.filefh c.offset c.len) =
      (be32 0 ++ srv.attributes c.filefh) ++ (be32 d.length ++ (d ++ pad d)) := by
    simp only [Server.result, hread, outcome, List.append_assoc]
  have hattr := hc.attributes c.filefh
  have hpre : (be32 0 ++ srv.attributes c.filefh).length = 72 := by
    rw [List.length_append, be32_length, hattr]
  have h0 : data pkt 0 = 0 := by
    rw [hfr.data]
    simp only [Server.result, hread]
    exact outcome_ok d _
  have h18 : data pkt 18 = d.length := by
    rw [hfr.data, hres, word_append _ _ _ 18 hpre]
    exact Nat.mod_eq_of_lt (by omega)
  have hrest : pkt.drop 100 = d ++ pad d := by
    rw [show 100 = 24+76 from rfl, hfr.rest, hres, ← List.append_assoc,
      show 76 = (be32 0 ++ srv.attributes c.filefh ++ be32 d.length).length by
        rw [List.length_append, hpre, be32_length], List.drop_left]
  have hsig : signed d.length = (d.length : ℤ) := if_pos hlen
  simp only [nfsReadReply, hid, h2, h3, h5, h0, h18, hrest, hsig, ne_eq, not_true_eq_false, if_false,
    or_self]

omit hc hm in
/-- Another block is stored. -/
theorem block_good (hs : c.state = .read) (hgo : c.net = .going) (bytes d src : Bytes)
    (hnode : srv.node c.filefh = .file bytes) (hoff : c.offset+d.length ≤ bytes.length)
    (hd : d = (bytes.drop c.offset).take d.length)
    (hsrc : ∀ k < d.length, src.getD k 0 = d.getD k 0) :
    Good srv bootPath { storeBlock c src c.offset d.length with offset := w32 (c.offset+d.length) } := by
  have hf := h.pending (by rw [hs]; decide)
  obtain ⟨hmount, hlookup, hlen, -, hst, -⟩ := (phase_read srv c hs).mp h.phase
  refine ⟨h.clean, h.chain, fun _ => hf, ?_, ?_, ?_⟩
  · intro hsu
    have hsu' : c.downloadState = .success := hsu
    rw [hf] at hsu'
    cases hsu'
  · intro hsu
    have hsu' : c.net = .success := hsu
    rw [hgo] at hsu'
    cases hsu'
  · refine (phase_read srv { storeBlock c src c.offset d.length with
      offset := w32 (c.offset+d.length) } hs).mpr ⟨hmount, hlookup, hlen, ?_, ?_, ?_⟩
    · exact Nat.mod_lt _ (by omega)
    · intro bytes' hnode' hlen'
      have hsame : srv.node c.filefh = .file bytes' := hnode'
      rw [hnode] at hsame
      cases hsame
      have hstored := storeBlock_stored c bytes d src hoff hlen' hd hsrc (hst bytes hnode hlen')
      have hw : w32 (c.offset+d.length) = c.offset+d.length := Nat.mod_eq_of_lt (by omega)
      rw [hw]
      exact hstored.congr _ _ bytes _ rfl rfl rfl
    · intro hno
      exact absurd hnode (hno bytes)

omit hc hm in
/-- The end of the file is reached. -/
theorem end_good (hs : c.state = .read) (bytes src : Bytes)
    (hnode : srv.node c.filefh = .file bytes) (hend : bytes.length ≤ c.offset) :
    Good srv bootPath { storeBlock c src c.offset 0 with
      state := .umount, downloadState := .success } := by
  obtain ⟨hmount, hlookup, -, hlow, hst, -⟩ := (phase_read srv c hs).mp h.phase
  have hst' := hst bytes hnode (by omega)
  have heq : bytes.length = c.offset := by
    have := hst'.1
    omega
  have hstored := storeBlock_stored c bytes [] src (by simp; omega) (by omega) (by simp) (by simp) hst'
  have hloaded : Loaded srv bootPath (storeBlock c src c.offset 0) := by
    refine ⟨bytes, h.chain bytes (.file _ _ _ _ bytes hmount hlookup hnode), by omega, ?_⟩
    rw [heq]
    exact hstored
  have hloaded' := hloaded.congr srv bootPath _ { storeBlock c src c.offset 0 with
    state := .umount, downloadState := .success } rfl rfl rfl
  exact ⟨h.clean, h.chain, fun hn => absurd rfl hn, fun _ => hloaded', fun _ => hloaded', trivial⟩

theorem read_good (hs : c.state = .read) (hgo : c.net = .going) :
    Good srv bootPath (readResult (nfsReadReply c pkt).1 (nfsReadReply c pkt).2).1 := by
  have hf := h.pending (by rw [hs]; decide)
  obtain ⟨hmount, hlookup, hlen, -, -, hx⟩ := (phase_read srv c hs).mp h.phase
  unfold readResult
  rcases hm with hm | hm
  · have hrep : nfsReadReply c pkt = (c, -1) := by rw [nfsReadReply, if_pos hm]
    rw [hrep]
    simp only
    rw [if_neg (by decide), if_neg (by decide), if_neg (by decide)]
    exact good_umount srv bootPath c h
  have hfr := hm ⟨c.rpcId, c.srvNfsPort, .read c.filefh c.offset c.len⟩ (by simp [expected, hs])
  cases hread : srv.read c.filefh c.offset c.len with
  | error e =>
    have he := hc.read c.filefh c.offset c.len
    rw [hread] at he
    have hpos := he.1
    rw [readReply_error srv c pkt hfr e he hread, if_neg (by simp only; omega)]
    by_cases hlink : -(e : ℤ) = -nfserrIsdir ∨ -(e : ℤ) = -nfserrInval
    · rw [if_pos hlink]
      exact send_good srv bootPath _ ⟨h.clean, h.chain, fun _ => hf, h.done, h.reported, hmount,
        hlookup, hx⟩
    · rw [if_neg hlink, if_neg (by simp only; omega)]
      exact good_umount srv bootPath c h
  | ok d =>
    obtain ⟨bytes, hnode, hd, hle, hend⟩ := hc.content _ _ _ d hread
    rw [hlen] at hle hend
    unfold nfsReadSize at hle hend
    rw [readReply_ok srv hc c pkt hfr d (by omega) hread]
    simp only [Int.toNat_natCast]
    by_cases hd0 : d.length = 0
    · rw [List.length_eq_zero_iff] at hd0
      subst hd0
      rw [List.length_nil, Int.natCast_zero, if_neg (by decide), if_neg (by decide), if_pos rfl]
      exact send_good srv bootPath _ (end_good srv bootPath c h hs bytes _ hnode
        (hend rfl (by decide)))
    · have hfits : c.offset+d.length ≤ bytes.length := by
        have hl := congrArg List.length hd
        rw [List.length_take, List.length_drop] at hl
        omega
      rw [if_pos (by omega)]
      exact send_good srv bootPath _ (block_good srv bootPath c h hs hgo bytes d _ hnode hfits hd
        (fun k hk => List.getD_append _ _ _ _ hk))

theorem handler_good (hgo : c.net = .going) (r : Client × List Packet)
    (hr : handler c pkt = some r) : Good srv bootPath r.1 := by
  cases hs : c.state with
  | lookupMount =>
    simp only [handler, hs, Option.some.injEq] at hr
    rw [← hr]
    exact lookupReply_good srv bootPath c pkt h progMount .lookupNfs (.inl hs) (.inl rfl)
  | lookupNfs =>
    simp only [handler, hs, Option.some.injEq] at hr
    rw [← hr]
    exact lookupReply_good srv bootPath c pkt h progNfs .mount (.inr hs) (.inr rfl)
  | mount =>
    simp only [handler, hs, Option.some.injEq] at hr
    rw [← hr, mountState]
    cases hrep : nfsMountReply c pkt with
    | none => exact good_umount srv bootPath c h
    | some c' => exact mountReply_good srv hc bootPath c pkt h hm hs c' hrep
  | umount =>
    simp only [handler, hs, Option.some.injEq] at hr
    rw [← hr, umountState, nfsUmountallReply]
    by_cases hok : accepted c pkt = true
    · rw [if_pos hok]
      exact umount_good srv bootPath c _ h hs rfl rfl rfl ⟨rfl, rfl⟩ rfl
        (fun hd => (h.done hd).congr srv bootPath c _ rfl rfl rfl)
    · rw [if_neg hok]
      exact umount_good srv bootPath c _ h hs rfl rfl rfl ⟨rfl, rfl⟩ rfl (fun hn => nomatch hn)
  | lookup =>
    simp only [handler, hs, Option.some.injEq] at hr
    rw [← hr, lookupState]
    cases hrep : nfsLookupReply c pkt with
    | none => exact good_umount srv bootPath c h
    | some c' => exact lookupFile_good srv hc bootPath c pkt h hm hs c' hrep
  | readlink =>
    simp only [handler, hs, readlinkState] at hr
    cases hrep : nfsReadlinkReply c pkt with
    | outside => simp [hrep] at hr
    | failed =>
      simp only [hrep, Option.some.injEq] at hr
      rw [← hr]
      exact good_umount srv bootPath c h
    | followed c' =>
      simp only [hrep, Option.some.injEq] at hr
      rw [← hr]
      exact readlinkReply_good srv hc bootPath c pkt h hm hs c' hrep
  | read =>
    simp only [handler, hs, Option.some.injEq] at hr
    rw [← hr]
    exact read_good srv hc bootPath c pkt h hm hs hgo

end Replies

/-- Every round ends with a call, or with nothing more to do. -/
theorem handler_sends (c : Client) (pkt : Bytes) (r : Client × List Packet)
    (hr : handler c pkt = some r) : ∃ c', c'.rpcId = c.rpcId ∧
      (r = send c' ∨ r = (c', []) ∧ c'.state = .umount) := by
  cases hs : c.state with
  | lookupMount =>
    simp only [handler, hs, Option.some.injEq] at hr
    refine ⟨_, ?_, .inl hr.symm⟩
    unfold rpcLookupReply
    split_ifs <;> rfl
  | lookupNfs =>
    simp only [handler, hs, Option.some.injEq] at hr
    refine ⟨_, ?_, .inl hr.symm⟩
    unfold rpcLookupReply
    split_ifs <;> rfl
  | mount =>
    simp only [handler, hs, Option.some.injEq, mountState, nfsMountReply] at hr
    by_cases hok : accepted c pkt = true ∧ data pkt 0 = 0
    · rw [if_pos hok] at hr
      refine ⟨_, ?_, .inl hr.symm⟩
      rfl
    · rw [if_neg hok] at hr
      refine ⟨_, ?_, .inl hr.symm⟩
      rfl
  | umount =>
    simp only [handler, hs, Option.some.injEq] at hr
    rw [umountState, nfsUmountallReply] at hr
    by_cases hok : accepted c pkt = true
    · rw [if_pos hok] at hr
      refine ⟨_, ?_, .inr ⟨hr.symm, hs⟩⟩
      rfl
    · rw [if_neg hok] at hr
      refine ⟨_, ?_, .inr ⟨hr.symm, hs⟩⟩
      rfl
  | lookup =>
    simp only [handler, hs, Option.some.injEq, lookupState, nfsLookupReply] at hr
    by_cases hok : accepted c pkt = true ∧ data pkt 0 = 0
    · rw [if_pos hok] at hr
      refine ⟨_, ?_, .inl hr.symm⟩
      rfl
    · rw [if_neg hok] at hr
      refine ⟨_, ?_, .inl hr.symm⟩
      rfl
  | readlink =>
    simp only [handler, hs, readlinkState] at hr
    cases hrep : nfsReadlinkReply c pkt with
    | outside => simp [hrep] at hr
    | failed =>
      simp only [hrep, Option.some.injEq] at hr
      refine ⟨_, ?_, .inl hr.symm⟩
      rfl
    | followed c' =>
      simp only [hrep, Option.some.injEq] at hr
      obtain ⟨dir, name, rfl⟩ := readlinkReply_followed c c' pkt hrep
      refine ⟨_, ?_, .inl hr.symm⟩
      rfl
  | read =>
    have hid : (nfsReadReply c pkt).1.rpcId = c.rpcId := by
      unfold nfsReadReply
      split_ifs <;> rfl
    simp only [handler, hs, Option.some.injEq, readResult] at hr
    split_ifs at hr <;> refine ⟨_, ?_, .inl hr.symm⟩ <;> exact hid

/-- A reply with another id is never without effect. -/
theorem handler_stale (c : Client) (pkt : Bytes) (r : Client × List Packet) (hgo : c.net = .going)
    (hid : replyId pkt ≠ c.rpcId) (hr : handler c pkt = some r) :
    r.1.state ≠ c.state ∨ r.1.net ≠ c.net := by
  have hna := not_accepted c pkt hid
  have hst : ∀ c', (send c').1.state = c'.state := by
    intro c'
    obtain ⟨id, -, heq | heq⟩ := send_same c' <;> rw [heq]
  cases hs : c.state with
  | umount =>
    simp only [handler, hs, Option.some.injEq] at hr
    rw [← hr, umountState, nfsUmountallReply, hna, if_neg (by decide), hgo]
    right
    simp
  | read =>
    have hrep : nfsReadReply c pkt = (c, -1) := by rw [nfsReadReply, if_pos hid]
    simp only [handler, hs, hrep, Option.some.injEq] at hr
    rw [readResult, if_neg (by decide), if_neg (by decide), if_neg (by decide)] at hr
    left
    rw [← hr, hst]
    simp [Client.enter]
  | _ =>
    simp only [handler, hs, mountState, lookupState, readlinkState, nfsMountReply, nfsLookupReply,
      nfsReadlinkReply, hna, Bool.false_eq_true, false_and, if_false, Option.some.injEq] at hr
    left
    rw [← hr, hst]
    simp [Client.enter]

/-! ## Whole runs -/

structure Invariant (srv : Server) (bootPath : Bytes) (s : System) : Prop where
  good : Good srv bootPath s.client
  waits : ∃ more, s.sent = expected s.client ++ more
  outstanding : ∀ p ∈ s.sent.head?, w32 p.id = s.client.rpcId

theorem send_outstanding (c : Client) (rest : List Packet)
    (h : ∀ p ∈ rest.head?, w32 p.id = c.rpcId) :
    ∀ p ∈ ((send c).2 ++ rest).head?, w32 p.id = (send c).1.rpcId := by
  unfold send rpcReq w32
  cases c.state <;> simp only
  case umount =>
    split_ifs
    · exact h
    · simp
  all_goals simp

/-- A client that sends keeps the invariant. -/
theorem put_send (srv : Server) (bootPath : Bytes) (s : System) (c : Client)
    (hg : Good srv bootPath (send c).1) (hid : c.rpcId = s.client.rpcId)
    (ho : ∀ p ∈ s.sent.head?, w32 p.id = s.client.rpcId) :
    Invariant srv bootPath (s.put (send c)) :=
  ⟨hg, send_expected c s.sent, send_outstanding c s.sent (by rw [hid]; exact ho)⟩

/-- The answer to a call before others has another id, or it is to the last one. -/
def Recognised (srv : Server) (s : System) : Event → Prop
  | .reply k => ∀ pkt, arrived srv s k = some pkt → replyId pkt ≠ s.client.rpcId ∨
      k = 0 ∧ ∀ p ∈ s.sent.head?, srv.verifier p = (0, [])
  | .timeout _ => True

theorem recognised_matched (srv : Server) (bootPath : Bytes) (s : System) (k : ℕ) (pkt : Bytes)
    (h : Invariant srv bootPath s) (hr : Recognised srv s (.reply k))
    (ha : arrived srv s k = some pkt) : Matched srv s.client pkt := by
  rcases hr pkt ha with hne | ⟨rfl, hv⟩
  · exact .inl hne
  · refine .inr ?_
    intro p hp
    obtain ⟨more, hw⟩ := h.waits
    have hhead : s.sent.head? = some p := by
      have hlen : (expected s.client).length ≤ 1 := by
        unfold expected
        cases s.client.state <;> simp
      match hex : expected s.client, hp, hlen with
      | [q], hp, _ => rw [hw, hex, List.mem_singleton.mp hp]; rfl
    have hget : s.sent[0]? = some p := by rw [← List.head?_eq_getElem?, hhead]
    rw [arrived, hget] at ha
    exact answer_fresh srv s.client p pkt ha (hv p hhead) (h.outstanding p hhead)

/-- The path of a link fits the buffer. -/
def LinkFits (srv : Server) (c : Client) : Prop :=
  c.state = .readlink → ∀ t, srv.readlink c.filefh = .ok t → (linkPath c.path t).length < pathBuffer

theorem handler_some (srv : Server) (hc : srv.Correct) (bootPath : Bytes) (c : Client) (pkt : Bytes)
    (h : Good srv bootPath c) (hm : Matched srv c pkt) (hl : LinkFits srv c) :
    ∃ r, handler c pkt = some r := by
  cases hs : c.state with
  | readlink =>
    simp only [handler, hs, readlinkState]
    rcases hm with hm | hm
    · rw [readlinkReply_stale c pkt hm]
      exact ⟨_, rfl⟩
    have hfr := hm ⟨c.rpcId, c.srvNfsPort, .readlink c.filefh⟩ (by simp [expected, hs])
    cases hrl : srv.readlink c.filefh with
    | error e =>
      rw [readlinkReply_error srv hc c pkt hfr e hrl]
      exact ⟨_, rfl⟩
    | ok t =>
      have hfit := hl hs t hrl
      obtain ⟨⟨dir, name⟩, hsp⟩ := splitPath_link c.path t
      rw [readlinkReply_ok srv hc c pkt hfr h.clean t hrl, if_neg (by omega), hsp]
      exact ⟨_, rfl⟩
  | _ =>
    simp only [handler, hs]
    exact ⟨_, rfl⟩

/-- `NfsStart` from any variables. -/
theorem start_good (srv : Server) (bootPath : Bytes) (s : System) (c : Client)
    (r : Client × List Packet) (h : start c bootPath = some r) (hid : c.rpcId = s.client.rpcId)
    (ho : ∀ p ∈ s.sent.head?, w32 p.id = s.client.rpcId) : Invariant srv bootPath (s.put r) := by
  unfold start at h
  split_ifs at h
  cases hsp : splitPath (cstr bootPath) with
  | none => simp [hsp] at h
  | some d =>
    obtain ⟨dir, name⟩ := d
    simp only [hsp, Option.some.injEq] at h
    rw [← h]
    refine put_send srv bootPath s _ (send_good srv bootPath _ ?_) hid ho
    refine ⟨splitPath_clean _ dir name hsp (cstr_clean bootPath), ?_, fun _ => rfl,
      (fun hn => nomatch hn), (fun hn => nomatch hn), rfl⟩
    intro bytes hb
    exact ⟨dir, name, hsp, hb⟩

/-- What the path alone decides. -/
theorem start_some (bootPath : Bytes) (c c' : Client) (r : Client × List Packet)
    (h : start c bootPath = some r) : ∃ r', start c' bootPath = some r' := by
  unfold start at h ⊢
  split_ifs at h with hfit
  rw [if_neg hfit]
  cases hsp : splitPath (cstr bootPath) with
  | none => simp [hsp] at h
  | some d => exact ⟨_, rfl⟩

/-- A timeout sends again, starts again or gives up. -/
theorem timeout_invariant (srv : Server) (bootPath : Bytes) (s : System) (again : Bool)
    (c0 : Client) (r0 : Client × List Packet) (hstart : start c0 bootPath = some r0)
    (h : Invariant srv bootPath s) : ∃ r, timeout s.client bootPath again = some r ∧
      Invariant srv bootPath (s.put r) ∧
      (r.1.state = s.client.state ∨ r.1.state = .lookupMount) := by
  obtain ⟨⟨hclean, hchain, hpend, hdone, hrep, hphase⟩, hwaits, hout⟩ := h
  unfold timeout
  by_cases hcount : nfsRetryCount < s.client.timeoutCount+1
  · cases again with
    | true =>
      obtain ⟨r, hr⟩ := start_some bootPath c0 { s.client with
        timeoutCount := s.client.timeoutCount+1 } r0 hstart
      refine ⟨r, ?_, start_good srv bootPath s _ r hr rfl hout, .inr ?_⟩
      · simp only [if_pos hcount, if_true]
        exact hr
      · unfold start at hr
        split_ifs at hr
        cases hsp : splitPath (cstr bootPath) with
        | none => simp [hsp] at hr
        | some d =>
          simp only [hsp, Option.some.injEq] at hr
          rw [← hr]
          rfl
    | false =>
      refine ⟨({ s.client with timeoutCount := s.client.timeoutCount+1, net := .fail }, []), ?_, ?_,
        .inl rfl⟩
      · simp only [if_pos hcount]
        rfl
      · refine ⟨⟨hclean, hchain, hpend, ?_, (fun hn => nomatch hn), hphase⟩, hwaits, hout⟩
        exact fun hd => (hdone hd).congr srv bootPath s.client _ rfl rfl rfl
  · refine ⟨send { s.client with timeoutCount := s.client.timeoutCount+1 }, ?_, ?_, .inl ?_⟩
    · simp only [if_neg hcount]
    · refine put_send srv bootPath s _ (send_good srv bootPath _ ?_) rfl hout
      refine ⟨hclean, hchain, hpend, ?_, ?_, hphase⟩
      · exact fun hd => (hdone hd).congr srv bootPath s.client _ rfl rfl rfl
      · exact fun hd => (hrep hd).congr srv bootPath s.client _ rfl rfl rfl
    · obtain ⟨id, -, heq | heq⟩ := send_same { s.client with
        timeoutCount := s.client.timeoutCount+1 } <;> rw [heq]

/-- One event: the client goes on, and keeps what it knows. -/
theorem step_invariant (srv : Server) (hc : srv.Correct) (bootPath : Bytes) (s : System) (e : Event)
    (c0 : Client) (r0 : Client × List Packet) (hstart : start c0 bootPath = some r0)
    (h : Invariant srv bootPath s) (hr : Recognised srv s e) (hl : LinkFits srv s.client) :
    ∃ s', step srv bootPath s e = some s' ∧ Invariant srv bootPath s' := by
  unfold step
  by_cases hgo : s.client.net = .going
  swap
  · rw [if_pos hgo]
    exact ⟨s, rfl, h⟩
  rw [if_neg (not_not.mpr hgo)]
  cases e with
  | timeout again =>
    obtain ⟨r, htime, hinv, -⟩ := timeout_invariant srv bootPath s again c0 r0 hstart h
    simp only [htime]
    exact ⟨_, rfl, hinv⟩
  | reply k =>
    simp only
    cases ha : arrived srv s k with
    | none => exact ⟨s, rfl, h⟩
    | some pkt =>
      have hm := recognised_matched srv bootPath s k pkt h hr ha
      obtain ⟨r, hhand⟩ := handler_some srv hc bootPath s.client pkt h.good hm hl
      have hgood := handler_good srv hc bootPath s.client pkt h.good hm hgo r hhand
      simp only [hhand]
      refine ⟨_, rfl, ?_⟩
      obtain ⟨c', hid, hsend | ⟨hnone, hst⟩⟩ := handler_sends s.client pkt r hhand
      · rw [hsend] at hgood ⊢
        exact put_send srv bootPath s c' hgood hid h.outstanding
      · rw [hnone] at hgood ⊢
        refine ⟨hgood, ⟨s.sent, ?_⟩, ?_⟩
        · simp only [System.put, expected, hst]
        · simp only [System.put, List.nil_append, hid]
          exact h.outstanding

/-- Only the last call is answered, with the null verifier. -/
def Timely (srv : Server) (s : System) : Event → Prop
  | .reply k => ∀ pkt, arrived srv s k = some pkt → k = 0 ∧ ∀ p ∈ s.sent.head?, srv.verifier p = (0, [])
  | .timeout _ => True

/-- A reply with another id has no effect, and the look-up of a port ends with
the port. -/
structure Obeys (srv : Server) (s : System) (e : Event) (s' : System) : Prop where
  ignored : ∀ k pkt, e = .reply k → arrived srv s k = some pkt → s.client.net = .going →
    replyId pkt ≠ s.client.rpcId → s'.client.state = s.client.state ∧
      s'.client.net = s.client.net ∧ s'.client.mem = s.client.mem
  mountPort : s.client.state = .lookupMount → s'.client.state = .lookupNfs →
    s'.client.srvMountPort = srv.port progMount
  nfsPort : s.client.state = .lookupNfs → s'.client.state = .mount →
    s'.client.srvNfsPort = srv.port progNfs

/-- A condition holds for each event in the state it meets. -/
def Along (P : System → Event → Prop) (srv : Server) (bootPath : Bytes) : System → List Event → Prop
  | _, [] => True
  | s, e::es => P s e ∧ ∀ s', step srv bootPath s e = some s' → Along P srv bootPath s' es

/-- In every state of a run success is reported for the file only, and every
step obeys. -/
def Runs (R : System → Event → System → Prop) (srv : Server) (bootPath : Bytes) :
    System → List Event → Prop
  | s, [] => s.client.net = .success → Loaded srv bootPath s.client
  | s, e::es => (s.client.net = .success → Loaded srv bootPath s.client) ∧
    ∃ s', step srv bootPath s e = some s' ∧ R s e s' ∧ Runs R srv bootPath s' es

theorem runs_of_along (srv : Server) (hc : srv.Correct) (bootPath : Bytes) (c0 : Client)
    (r0 : Client × List Packet) (hstart : start c0 bootPath = some r0)
    (P : System → Event → Prop) (R : System → Event → System → Prop)
    (hP : ∀ s e, P s e → Recognised srv s e ∧ LinkFits srv s.client)
    (hR : ∀ s e s', Invariant srv bootPath s → P s e → step srv bootPath s e = some s' → R s e s')
    (s : System) (es : List Event) (h : Invariant srv bootPath s) (ha : Along P srv bootPath s es) :
    Runs R srv bootPath s es := by
  induction es generalizing s with
  | nil => exact h.good.reported
  | cons e es ih =>
    obtain ⟨hp, hrest⟩ := ha
    obtain ⟨hrec, hl⟩ := hP s e hp
    obtain ⟨s', hstep, hinv⟩ := step_invariant srv hc bootPath s e c0 r0 hstart h hrec hl
    exact ⟨h.good.reported, s', hstep, hR s e s' h hp hstep, ih s' hinv (hrest s' hstep)⟩

theorem send_keeps (c : Client) : (send c).1.state = c.state ∧ (send c).1.net = c.net ∧
    (send c).1.srvMountPort = c.srvMountPort ∧ (send c).1.srvNfsPort = c.srvNfsPort := by
  obtain ⟨id, -, heq | heq⟩ := send_same c <;> rw [heq] <;> exact ⟨rfl, rfl, rfl, rfl⟩

/-- The port that a fresh reply brings. -/
theorem lookup_port (srv : Server) (hc : srv.Correct) (c : Client) (pkt : Bytes) (prog : ℕ)
    (hfr : Fresh srv c (.getport prog) pkt) : data pkt 0 = srv.port prog := by
  have hw := word_append [] [] (srv.port prog) 0 rfl
  rw [List.nil_append, List.append_nil] at hw
  rw [hfr.data, Server.result, hw]
  exact Nat.mod_eq_of_lt (hc.port prog)

/-- Only a reply leads to another state, but for the start. -/
theorem step_reply (srv : Server) (bootPath : Bytes) (c0 : Client) (r0 : Client × List Packet)
    (hstart : start c0 bootPath = some r0) (s : System) (e : Event) (s' : System)
    (h : Invariant srv bootPath s) (hstep : step srv bootPath s e = some s')
    (hne : s'.client.state ≠ s.client.state) (hnew : s'.client.state ≠ .lookupMount) :
    ∃ k pkt r, e = .reply k ∧ arrived srv s k = some pkt ∧ handler s.client pkt = some r ∧
      s' = s.put r := by
  unfold step at hstep
  by_cases hgo : s.client.net = .going
  swap
  · rw [if_pos hgo, Option.some.injEq] at hstep
    exact absurd (by rw [hstep]) hne
  rw [if_neg (not_not.mpr hgo)] at hstep
  cases e with
  | timeout again =>
    obtain ⟨r, htime, -, hst⟩ := timeout_invariant srv bootPath s again c0 r0 hstart h
    simp only [htime, Option.map_some, Option.some.injEq] at hstep
    rw [← hstep] at hne hnew
    rcases hst with hst | hst
    · exact absurd hst hne
    · exact absurd hst hnew
  | reply k =>
    cases ha : arrived srv s k with
    | none =>
      simp only [ha, Option.some.injEq] at hstep
      exact absurd (by rw [hstep]) hne
    | some pkt =>
      simp only [ha] at hstep
      obtain ⟨r, hr, hput⟩ := Option.map_eq_some_iff.mp hstep
      exact ⟨k, pkt, r, rfl, ha, hr, hput.symm⟩

theorem timely_fresh (srv : Server) (bootPath : Bytes) (s : System) (k : ℕ) (pkt : Bytes)
    (h : Invariant srv bootPath s) (ht : Timely srv s (.reply k)) (ha : arrived srv s k = some pkt) :
    replyId pkt = s.client.rpcId ∧ ∀ p ∈ expected s.client, Fresh srv s.client p.call pkt := by
  obtain ⟨rfl, hv⟩ := ht pkt ha
  have hid : replyId pkt = s.client.rpcId := by
    have ha' := ha
    rw [arrived, ← List.head?_eq_getElem?] at ha'
    obtain ⟨p, hp, hans⟩ := Option.bind_eq_some_iff.mp ha'
    rw [answer_id srv p pkt hans]
    exact h.outstanding p hp
  refine ⟨hid, ?_⟩
  rcases recognised_matched srv bootPath s 0 pkt h (fun _ _ => .inr ⟨rfl, hv⟩) ha with hm | hm
  · exact absurd hid hm
  · exact hm

theorem timely_obeys (srv : Server) (hc : srv.Correct) (bootPath : Bytes) (c0 : Client)
    (r0 : Client × List Packet) (hstart : start c0 bootPath = some r0) (s : System) (e : Event)
    (s' : System) (h : Invariant srv bootPath s) (ht : Timely srv s e)
    (hstep : step srv bootPath s e = some s') : Obeys srv s e s' := by
  refine ⟨?_, ?_, ?_⟩
  · rintro k pkt rfl ha _ hne
    exact absurd (timely_fresh srv bootPath s k pkt h ht ha).1 hne
  · intro hold hnew
    obtain ⟨k, pkt, r, rfl, ha, hr, rfl⟩ := step_reply srv bootPath c0 r0 hstart s e s' h hstep
      (by rw [hold, hnew]; decide) (by rw [hnew]; decide)
    have hfr := (timely_fresh srv bootPath s k pkt h ht ha).2
      ⟨s.client.rpcId, sunrpcPort, .getport progMount⟩ (by simp [expected, hold])
    simp only [handler, hold, Option.some.injEq] at hr
    rw [← hr]
    refine ((send_keeps _).2.2.1).trans ?_
    rw [rpcLookupReply, if_pos hfr.accepted, if_pos rfl]
    exact lookup_port srv hc _ pkt progMount hfr
  · intro hold hnew
    obtain ⟨k, pkt, r, rfl, ha, hr, rfl⟩ := step_reply srv bootPath c0 r0 hstart s e s' h hstep
      (by rw [hold, hnew]; decide) (by rw [hnew]; decide)
    have hfr := (timely_fresh srv bootPath s k pkt h ht ha).2
      ⟨s.client.rpcId, sunrpcPort, .getport progNfs⟩ (by simp [expected, hold])
    simp only [handler, hold, Option.some.injEq] at hr
    rw [← hr]
    refine ((send_keeps _).2.2.2).trans ?_
    rw [rpcLookupReply, if_pos hfr.accepted, if_neg (by decide)]
    exact lookup_port srv hc _ pkt progNfs hfr

/-- The ids that arrive are those of the outstanding call. -/
def Current (srv : Server) (s : System) : Event → Prop
  | .reply k => ∀ pkt, arrived srv s k = some pkt → s.client.net = .going →
      replyId pkt = s.client.rpcId
  | .timeout _ => True

theorem obeys_current (srv : Server) (bootPath : Bytes) (s s' : System) (e : Event)
    (hstep : step srv bootPath s e = some s') (ho : Obeys srv s e s') : Current srv s e := by
  cases e with
  | timeout again => trivial
  | reply k =>
    intro pkt ha hgo
    by_contra hne
    obtain ⟨hst, hnet, -⟩ := ho.ignored k pkt rfl ha hgo hne
    simp only [step, hgo, ne_eq, not_true_eq_false, if_false, ha] at hstep
    obtain ⟨r, hr, rfl⟩ := Option.map_eq_some_iff.mp hstep
    rcases handler_stale s.client pkt r hgo hne hr with hc | hc
    · exact hc hst
    · exact hc hnet

theorem along_of_runs (srv : Server) (bootPath : Bytes) (s : System) (es : List Event)
    (h : Runs (Obeys srv) srv bootPath s es) : Along (Current srv) srv bootPath s es := by
  induction es generalizing s with
  | nil => trivial
  | cons e es ih =>
    obtain ⟨-, s', hstep, ho, hrest⟩ := h
    refine ⟨obeys_current srv bootPath s s' e hstep ho, ?_⟩
    intro s'' hs''
    rw [hstep, Option.some.injEq] at hs''
    rw [← hs'']
    exact ih s' hrest

/-- A server with the file `f` of three bytes in `/d`. -/
def demo : Server where
  port prog := if prog = progMount then 635 else 2049
  mount path := if path = [47, 100] then .ok (List.replicate 32 1) else .error 2
  lookup dir name := if dir = List.replicate 32 1 ∧ name = [102] then .ok (List.replicate 32 2) else .error 2
  read file offset len := if file = List.replicate 32 2 then .ok (([1, 2, 3].drop offset).take len) else .error 21
  readlink _ := .error 22
  node file := if file = List.replicate 32 2 then .file [1, 2, 3] else .other
  attributes _ := List.replicate 68 0
  verifier _ := (0, [])

theorem demo_correct : demo.Correct where
  port prog := by
    simp only [demo]
    split_ifs <;> omega
  mount path := by
    simp only [demo]
    split_ifs <;> simp [IsStatus]
  lookup dir name := by
    simp only [demo]
    split_ifs <;> simp [IsStatus]
  read file offset len := by
    simp only [demo]
    split_ifs <;> simp [IsStatus]
  readlink file := by simp [demo, IsStatus]
  mountHandle path h hm := by
    simp only [demo] at hm
    split_ifs at hm
    cases hm
    rfl
  lookupHandle dir name h hm := by
    simp only [demo] at hm
    split_ifs at hm
    cases hm
    rfl
  attributes file := rfl
  content file offset len d hr := by
    simp only [demo] at hr ⊢
    split_ifs at hr with hf
    cases hr
    refine ⟨[1, 2, 3], by rw [if_pos hf], ?_, List.length_take_le _ _, ?_⟩
    · rw [List.take_eq_take_iff, List.length_take]
      omega
    · intro hnil hlen
      rw [List.take_eq_nil_iff] at hnil
      rcases hnil with h0 | h0
      · omega
      · exact List.drop_eq_nil_iff.mp h0
  target file t hr := by
    simp only [demo] at hr
    cases hr

def idle : System where
  client := ⟨.umount, 7, 0, 0, [], [], .fail, 0, 0, 0, false, [], [], 4096, fun _ => 0, 0, .going⟩
  sent := []

/-- `/d/f` -/
def demoPath : Bytes := [47, 100, 47, 102]

theorem along_all (P : System → Event → Prop) (srv : Server) (bootPath : Bytes) (s : System)
    (es : List Event) (h : ∀ s, ∀ e ∈ es, P s e) : Along P srv bootPath s es := by
  induction es generalizing s with
  | nil => trivial
  | cons e es ih =>
    refine ⟨h s e List.mem_cons_self, ?_⟩
    intro s' _
    exact ih s' fun s e he => h s e (List.mem_cons_of_mem _ he)

end UBoot.Nfs
