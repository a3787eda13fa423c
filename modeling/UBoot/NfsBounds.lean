import UBoot.Nfs
import UBoot.ByteStore
import Mathlib.Data.List.GetD
import Mathlib.Tactic.SplitIfs
import Mathlib.Tactic.Push

/-!
# Replies of any length

A datagram of any length is copied into the local packet of a reply function,
which the stack has left some bytes in. What the function then reads of it, what
it passes on and what it writes into the buffer of the path is written down.
-/

set_option autoImplicit false

namespace UBoot.Nfs

open ByteStore

def sizeofRpc : ℕ := 2048
def sizeofReply : ℕ := 100

structure Datagram where
  port : ℕ
  /-- Memory from the payload on, of which `len` bytes are the payload. -/
  bytes : Memory
  len : ℕ
  /-- The local packet before the copy. -/
  stack : Memory

/-- The local packet behind a copy of `size` bytes. -/
def Datagram.rpcPkt (d : Datagram) (size : ℕ) : Bytes :=
  load (fun i => if i < size then d.bytes i else d.stack i) 0 sizeofRpc

/-- What a reply function does with memory: the bytes that it copies, the parts of the packet
that it reads, the length for `store_block`, and the parts of `nfs_path_buff` that it writes. -/
structure Access where
  copied : ℕ
  reads : List (ℕ × ℕ)
  stored : Option ℤ
  written : List (ℤ × ℤ)

/-- The client with the buffer that its path is in. -/
structure Machine where
  client : Client
  buff : Memory

def field (k : ℕ) : ℕ × ℕ := (4*k, 4)

/-- The fields that the checks of a reply look at, one after another. -/
def checkReads (c : Client) (pkt : Bytes) (withData : Bool) : List (ℕ × ℕ) :=
  field 0::
    if replyId pkt ≠ c.rpcId then []
    else field 2::
      if rstatus pkt ≠ 0 then []
      else field 3::
        if verifier pkt ≠ 0 then []
        else field 5::if astatus pkt ≠ 0 ∨ withData = false then [] else [field 6]

/-! ## The path -/

/-- `strlen` of the path; 2048 where no zero is in the buffer. -/
def strlen (buff : Memory) : ℕ := (load buff 0 pathBuffer).idxOf 0

/-- `basename`, for that many characters. -/
@[grind]
def basename (buff : Memory) : ℕ → ℤ
  | 0 => -1
  | n+1 => if buff n = 47 then n+1 else basename buff n

/-- The string at a place of the buffer. -/
def textAt (buff : Memory) (p : ℕ) : Bytes := cstr (load buff p (pathBuffer-p))

/-- The part of `nfs_readlink_reply` behind the checks, and what it writes. -/
def readlinkPath (buff : Memory) (pkt : Bytes) : Memory × List (ℤ × ℤ) :=
  let rlen := data pkt 1
  if pkt.getD 32 0 ≠ 47 then
    let joined := store buff (strlen buff) [47, 0]
    let pathlen := strlen joined
    (store (store joined pathlen (dataBytes pkt 2 rlen)) (pathlen+signed rlen).toNat [0],
      [(strlen buff, 2), (pathlen, rlen), (pathlen+signed rlen, 1)])
  else
    (store (store buff 0 (dataBytes pkt 2 rlen)) (signed rlen).toNat [0],
      [(0, rlen), (signed rlen, 1)])

/-- `dirname`, and what it writes. -/
def dirname (buff : Memory) : Memory × (ℤ × ℤ) :=
  let fname := basename buff (strlen buff)
  (store buff (fname-1).toNat [0], (fname-1, 1))

/-! ## The handler -/

def mountAccess (c : Client) (d : Datagram) : Access where
  copied := d.len
  reads := checkReads c (d.rpcPkt d.len) true++
    if accepted c (d.rpcPkt d.len) ∧ data (d.rpcPkt d.len) 0 = 0 then [(28, nfsFhsize)] else []
  stored := none
  written := []

def lookupPortAccess (c : Client) (d : Datagram) : Access where
  copied := d.len
  reads := checkReads c (d.rpcPkt d.len) false++
    if accepted c (d.rpcPkt d.len) then [field 6] else []
  stored := none
  written := []

def umountAccess (c : Client) (d : Datagram) : Access where
  copied := d.len
  reads := checkReads c (d.rpcPkt d.len) false
  stored := none
  written := []

/-- A link is followed where the reply passes the checks. -/
def follows (c : Client) (pkt : Bytes) : Bool := accepted c pkt ∧ data pkt 0 = 0

def readlinkAccess (m : Machine) (d : Datagram) : Access :=
  let pkt := d.rpcPkt d.len
  let path := readlinkPath m.buff pkt
  { copied := d.len
    reads := checkReads m.client pkt true++
      if follows m.client pkt then [field 7, (32, 1), (32, data pkt 1)] else []
    stored := none
    written := if follows m.client pkt then path.2++[(dirname path.1).2] else [] }

/-- A block is stored where the reply passes the checks. -/
def stores (c : Client) (pkt : Bytes) : Bool :=
  replyId pkt = c.rpcId ∧ rstatus pkt = 0 ∧ verifier pkt = 0 ∧ astatus pkt = 0 ∧ data pkt 0 = 0

def readAccess (c : Client) (d : Datagram) : Access :=
  let pkt := d.rpcPkt sizeofReply
  { copied := sizeofReply
    reads := (0, sizeofReply)::if stores c pkt then [(sizeofReply, data pkt 18)] else []
    stored := if stores c pkt then some (signed (data pkt 18)) else none
    written := [] }

/-- What `NfsHandler` does with memory. -/
def access (m : Machine) (d : Datagram) : Access :=
  match m.client.state with
  | .lookupMount | .lookupNfs => lookupPortAccess m.client d
  | .mount | .lookup => mountAccess m.client d
  | .umount => umountAccess m.client d
  | .readlink => readlinkAccess m d
  | .read => readAccess m.client d

def readlinkNext (m : Machine) (pkt : Bytes) : Machine :=
  if follows m.client pkt then
    let buff := (readlinkPath m.buff pkt).1
    let fname := basename buff (strlen buff)
    ⟨(send { m.client with
        path := textAt (dirname buff).1 0
        filename := textAt buff fname.toNat
        state := .mount }).1, (dirname buff).1⟩
  else ⟨(send (m.client.enter .umount)).1, m.buff⟩

/-- The packet that `nfs_read_reply` sees, the block behind the header included. -/
def readPkt (d : Datagram) : Bytes :=
  load d.bytes 0 (sizeofReply+data (d.rpcPkt sizeofReply) 18)

/-- `NfsHandler` for a datagram to its port. -/
def handled (m : Machine) (d : Datagram) : Machine :=
  match m.client.state with
  | .readlink => readlinkNext m (d.rpcPkt d.len)
  | .read =>
    let r := nfsReadReply m.client (readPkt d)
    ⟨(readResult r.1 r.2).1, m.buff⟩
  | _ =>
    match handler m.client (d.rpcPkt d.len) with
    | some r => ⟨r.1, m.buff⟩
    | none => m

def next (ourPort : ℕ) (m : Machine) (d : Datagram) : Machine :=
  if d.port ≠ ourPort then m else handled m d

/-! ## Bounds -/

def Terminated (buff : Memory) : Prop := ∃ n < pathBuffer, buff n = 0

/-- A part of the buffer. -/
def InBuffer (w : ℤ × ℤ) : Prop := 0 ≤ w.1 ∧ w.1+w.2 ≤ pathBuffer

structure Bounded (len : ℕ) (a : Access) : Prop where
  copied : a.copied ≤ sizeofRpc
  reads : ∀ r ∈ a.reads, r.1+r.2 ≤ len
  stored : ∀ n ∈ a.stored, 0 ≤ n ∧ n ≤ nfsReadSize ∧ sizeofReply+n ≤ len
  written : ∀ w ∈ a.written, InBuffer w

/-- The handler stays inside the packet, the local packet and the buffer, and leaves a string. -/
def Safe (ourPort : ℕ) (m : Machine) (d : Datagram) : Prop :=
  d.port = ourPort → Bounded d.len (access m d) ∧ Terminated (handled m d).buff

/-- The bytes up to the last field that the checks look at. -/
def headerLength (c : Client) (pkt : Bytes) (withData : Bool) : ℕ :=
  if replyId pkt ≠ c.rpcId then 4
  else if rstatus pkt ≠ 0 then 12
  else if verifier pkt ≠ 0 then 16
  else if astatus pkt ≠ 0 ∨ withData = false then 24 else 28

/-- The path behind the link fits into the buffer, and it has a slash. -/
def PathFits (buff : Memory) (pkt : Bytes) : Prop :=
  if pkt.getD 32 0 ≠ 47 then strlen buff+data pkt 1+2 ≤ pathBuffer
  else 1 ≤ data pkt 1 ∧ data pkt 1 < pathBuffer

def EnoughRead (c : Client) (d : Datagram) : Prop :=
  sizeofReply ≤ d.len ∧ (stores c (d.rpcPkt sizeofReply) = true →
    data (d.rpcPkt sizeofReply) 18 ≤ nfsReadSize ∧
    sizeofReply+data (d.rpcPkt sizeofReply) 18 ≤ d.len)

/-- The datagram fits into the local packet and has all that its fields announce. -/
def Enough (ourPort : ℕ) (m : Machine) (d : Datagram) : Prop :=
  let pkt := d.rpcPkt d.len
  d.port = ourPort → match m.client.state with
    | .lookupMount | .lookupNfs => d.len ≤ sizeofRpc ∧ headerLength m.client pkt false ≤ d.len ∧
        (accepted m.client pkt = true → 28 ≤ d.len)
    | .mount | .lookup => d.len ≤ sizeofRpc ∧ headerLength m.client pkt true ≤ d.len ∧
        (accepted m.client pkt = true ∧ data pkt 0 = 0 → 60 ≤ d.len)
    | .umount => d.len ≤ sizeofRpc ∧ headerLength m.client pkt false ≤ d.len
    | .readlink => d.len ≤ sizeofRpc ∧ headerLength m.client pkt true ≤ d.len ∧
        (follows m.client pkt = true → 33 ≤ d.len ∧ 32+data pkt 1 ≤ d.len ∧ PathFits m.buff pkt)
    | .read => EnoughRead m.client d

theorem checkReads_inside (c : Client) (pkt : Bytes) (withData : Bool) (len : ℕ) :
    (∀ r ∈ checkReads c pkt withData, r.1+r.2 ≤ len) ↔ headerLength c pkt withData ≤ len := by
  unfold checkReads headerLength field
  split_ifs <;> simp only [List.forall_mem_cons, List.not_mem_nil, false_imp_iff, implies_true,
    and_true] <;> omega

/-! ## The path stays in its buffer -/

section Path

variable {buff : Memory}

theorem load_get {p n i : ℕ} (h : i < (load buff p n).length) : (load buff p n)[i] = buff (p+i) := by
  simp only [load, List.getElem_map, List.getElem_range', one_mul]

theorem before_strlen {j : ℕ} (h : j < strlen buff) : buff j ≠ 0 := by
  have hnot := List.not_of_lt_findIdx h
  rw [load_get, Nat.zero_add] at hnot
  exact ne_of_beq_false hnot

theorem strlen_le {k : ℕ} (h : buff k = 0) : strlen buff ≤ k :=
  not_lt.1 fun hlt => before_strlen hlt h

theorem strlen_zero (h : strlen buff < pathBuffer) : buff (strlen buff) = 0 := by
  rw [← length_load buff 0 pathBuffer] at h
  have hget := (load_get h).symm.trans (List.getElem_idxOf h)
  rwa [Nat.zero_add] at hget

theorem lt_strlen {k : ℕ} (hk : k < pathBuffer) (h : ∀ j ≤ k, buff j ≠ 0) : k < strlen buff := by
  by_contra hle
  exact h (strlen buff) (not_lt.1 hle) (strlen_zero ((not_lt.1 hle).trans_lt hk))

theorem basename_le (n : ℕ) : basename buff n ≤ n := by
  induction n with
  | zero => exact Int.negSucc_le_zero 0
  | succ n ih =>
    rw [basename]
    split_ifs <;> omega

theorem basename_pos {k n : ℕ} (hk : k < n) (h : buff k = 47) : (k : ℤ)+1 ≤ basename buff n := by
  induction n with
  | zero => exact absurd hk (Nat.not_lt_zero k)
  | succ n ih =>
    rw [basename]
    split_ifs with hn
    · omega
    · exact ih (lt_of_le_of_ne (Nat.le_of_lt_succ hk) fun heq => hn (heq ▸ h))

theorem store_one (p : ℕ) (b : UInt8) (a : ℕ) : store buff p [b] a = if a = p then b else buff a :=
  Function.update_apply _ _ _ _

/-- Behind a slash in the string `dirname` stays in the buffer. -/
theorem dirname_inside {k : ℕ} (hlen : strlen buff < pathBuffer) (hk : k < strlen buff)
    (h : buff k = 47) :
    0 ≤ (dirname buff).2.1 ∧ (dirname buff).2.1+(dirname buff).2.2 ≤ pathBuffer ∧
      Terminated (dirname buff).1 := by
  have hlow := basename_pos hk h
  have hhigh := @basename_le buff (strlen buff)
  unfold dirname
  dsimp only
  refine ⟨by omega, by omega, (basename buff (strlen buff)-1).toNat, by omega, ?_⟩
  rw [store_one, if_pos rfl]

/-- The text of the link is joined to the path. -/
theorem joined_strlen (h : strlen buff+1 < pathBuffer) :
    strlen (store buff (strlen buff) [47, 0]) = strlen buff+1 := by
  have hslash : store buff (strlen buff) [47, 0] (strlen buff) = 47 :=
    store_of_inside buff (strlen buff) [47, 0] (j := 0) (by decide)
  have hend : store buff (strlen buff) [47, 0] (strlen buff+1) = 0 :=
    store_of_inside buff (strlen buff) [47, 0] (j := 1) (by decide)
  refine le_antisymm (strlen_le hend) (lt_strlen (by omega) fun j hj => ?_)
  rcases Nat.lt_or_eq_of_le hj with hlt | rfl
  · rw [store_of_outside _ _ _ _ (.inl hlt)]
    exact before_strlen hlt
  · rw [hslash]
    decide

theorem signed_of_lt {x : ℕ} (h : x < 2147483648) : signed x = x := if_pos h

/-- A string that begins with a slash at `n` behind other characters. -/
theorem linked_inside {n e : ℕ} {text : Bytes} (hnon : ∀ j < n, buff j ≠ 0) (hslash : buff n = 47)
    (hne : n < e) (he : e < pathBuffer) :
    strlen (store (store buff (n+1) text) e [0]) < pathBuffer ∧
      n < strlen (store (store buff (n+1) text) e [0]) ∧
      store (store buff (n+1) text) e [0] n = 47 := by
  have hsame : ∀ j ≤ n, store (store buff (n+1) text) e [0] j = buff j := fun j hj => by
    rw [store_one, if_neg (by omega), store_of_outside _ _ _ _ (.inl (by omega))]
  have hend : store (store buff (n+1) text) e [0] e = 0 := by rw [store_one, if_pos rfl]
  refine ⟨(strlen_le hend).trans_lt he, lt_strlen (by omega) fun j hj => ?_, ?_⟩
  · rw [hsame j hj]
    rcases Nat.lt_or_eq_of_le hj with hlt | rfl
    · exact hnon j hlt
    · rw [hslash]
      decide
  · rw [hsame n le_rfl, hslash]

theorem dataBytes_slash {pkt : Bytes} (h : pkt.getD 32 0 = 47) {r : ℕ} (hr : 1 ≤ r) :
    ∃ text, dataBytes pkt 2 r = 47::text := by
  have hlen : 32 < pkt.length := by
    by_contra hle
    rw [List.getD_eq_default _ _ (not_lt.1 hle)] at h
    exact absurd h (by decide)
  rw [List.getD_eq_getElem _ _ hlen] at h
  obtain ⟨r, rfl⟩ := Nat.exists_eq_add_of_le' hr
  refine ⟨(pkt.drop 33).take r, ?_⟩
  rw [dataBytes, List.drop_eq_getElem_cons hlen, List.take_succ_cons, h]

/-- A link to a path of its own. -/
theorem absolute_inside {pkt : Bytes} (h : pkt.getD 32 0 = 47) {r : ℕ} (hr : 1 ≤ r)
    (hlt : r < pathBuffer) :
    ∃ k, strlen (store (store buff 0 (dataBytes pkt 2 r)) r [0]) < pathBuffer ∧
      k < strlen (store (store buff 0 (dataBytes pkt 2 r)) r [0]) ∧
      store (store buff 0 (dataBytes pkt 2 r)) r [0] k = 47 := by
  obtain ⟨text, htext⟩ := dataBytes_slash h hr
  rw [htext]
  exact ⟨0, @linked_inside (Function.update buff 0 47) _ _ _ (fun _ hj => absurd hj (Nat.not_lt_zero _))
    (Function.update_self 0 47 buff) hr hlt⟩

/-- A link from the directory on. -/
theorem relative_inside {r : ℕ} {text : Bytes} (hlt : strlen buff+r+2 ≤ pathBuffer) :
    ∃ k, strlen (store (store (store buff (strlen buff) [47, 0]) (strlen buff+1) text)
        (strlen buff+1+r) [0]) < pathBuffer ∧
      k < strlen (store (store (store buff (strlen buff) [47, 0]) (strlen buff+1) text)
        (strlen buff+1+r) [0]) ∧
      store (store (store buff (strlen buff) [47, 0]) (strlen buff+1) text)
        (strlen buff+1+r) [0] k = 47 := by
  refine ⟨strlen buff, linked_inside (fun j hj => ?_) ?_ (by omega) (by omega)⟩
  · rw [store_of_outside _ _ _ _ (.inl hj)]
    exact before_strlen hj
  · exact store_of_inside buff (strlen buff) [47, 0] (j := 0) (by decide)

/-- Where the path fits, all writes stay in the buffer, and a string is left. -/
theorem path_of_fits {pkt : Bytes} (hfits : PathFits buff pkt) :
    (∀ w ∈ (readlinkPath buff pkt).2++[(dirname (readlinkPath buff pkt).1).2], InBuffer w) ∧
      Terminated (dirname (readlinkPath buff pkt).1).1 := by
  have hbuffer : pathBuffer = 2048 := rfl
  unfold PathFits at hfits
  unfold readlinkPath InBuffer
  by_cases hrel : pkt.getD 32 0 ≠ 47
  · rw [if_pos hrel] at hfits
    have hplace : ((strlen buff+1 : ℕ)+(data pkt 1 : ℤ)).toNat = strlen buff+1+data pkt 1 := by omega
    obtain ⟨k, h1, h2, h3⟩ := @relative_inside buff _ (dataBytes pkt 2 (data pkt 1)) hfits
    obtain ⟨hlow, hhigh, hleft⟩ := dirname_inside h1 h2 h3
    simp only [if_pos hrel, joined_strlen (show strlen buff+1 < pathBuffer by omega),
      signed_of_lt (show data pkt 1 < 2147483648 by omega), hplace, List.cons_append,
      List.nil_append, List.forall_mem_cons, List.not_mem_nil, false_imp_iff, implies_true, and_true]
    exact ⟨⟨by omega, by omega, by omega, hlow, hhigh⟩, hleft⟩
  · rw [if_neg hrel] at hfits
    obtain ⟨k, h1, h2, h3⟩ := @absolute_inside buff _ (not_not.1 hrel) _ hfits.1 hfits.2
    obtain ⟨hlow, hhigh, hleft⟩ := dirname_inside h1 h2 h3
    simp only [if_neg hrel, signed_of_lt (show data pkt 1 < 2147483648 by omega), Int.toNat_natCast,
      List.cons_append, List.nil_append, List.forall_mem_cons, List.not_mem_nil, false_imp_iff,
      implies_true, and_true]
    exact ⟨⟨by omega, by omega, hlow, hhigh⟩, hleft⟩

/-- And only there. -/
theorem fits_of_path {pkt : Bytes}
    (h : ∀ w ∈ (readlinkPath buff pkt).2++[(dirname (readlinkPath buff pkt).1).2], InBuffer w) :
    PathFits buff pkt := by
  have hbuffer : pathBuffer = 2048 := rfl
  unfold PathFits
  unfold readlinkPath InBuffer at h
  by_cases hrel : pkt.getD 32 0 ≠ 47
  · rw [if_pos hrel]
    simp only [if_pos hrel, List.cons_append, List.nil_append, List.forall_mem_cons] at h
    obtain ⟨⟨-, hjoin⟩, ⟨-, htext⟩, ⟨-, hend⟩, -⟩ := h
    rw [joined_strlen (by omega)] at htext hend
    rw [signed_of_lt (by omega)] at hend
    omega
  · rw [if_neg hrel]
    simp only [if_neg hrel, List.cons_append, List.nil_append, List.forall_mem_cons] at h
    obtain ⟨⟨-, htext⟩, ⟨-, hend⟩, ⟨hdir, -⟩, -⟩ := h
    rw [signed_of_lt (by omega)] at hend hdir
    refine ⟨?_, by omega⟩
    by_contra hzero
    obtain hr : data pkt 1 = 0 := by omega
    rw [hr] at hdir
    unfold dirname at hdir
    rw [show strlen (store (store buff 0 (dataBytes pkt 2 0)) ((0 : ℕ) : ℤ).toNat [0]) = 0 from
      Nat.le_zero.1 (strlen_le (by rw [store_one]; rfl))] at hdir
    exact absurd (show (0 : ℤ) ≤ -1-1 from hdir) (by decide)

end Path

/-! ## Every reply -/

theorem reads_iff {c : Client} {pkt : Bytes} {withData : Bool} {p : Prop} [Decidable p]
    {more : List (ℕ × ℕ)} {len : ℕ} :
    (∀ r ∈ checkReads c pkt withData++if p then more else [], r.1+r.2 ≤ len) ↔
      headerLength c pkt withData ≤ len ∧ (p → ∀ r ∈ more, r.1+r.2 ≤ len) := by
  rw [List.forall_mem_append, checkReads_inside]
  refine and_congr_right fun _ => ?_
  by_cases hp : p
  · rw [if_pos hp, forall_prop_of_true hp]
  · rw [if_neg hp]
    exact iff_of_true (fun _ h => nomatch h) fun h => absurd h hp

/-- A reply that stores nothing and writes no path. -/
theorem bounded_plain {len copied : ℕ} {reads : List (ℕ × ℕ)} :
    Bounded len ⟨copied, reads, none, []⟩ ↔ copied ≤ sizeofRpc ∧ ∀ r ∈ reads, r.1+r.2 ≤ len :=
  ⟨fun h => ⟨h.copied, h.reads⟩, fun h =>
    ⟨h.1, h.2, (fun _ hn => nomatch hn), fun _ hw => nomatch hw⟩⟩

theorem forall_one {a n len : ℕ} : (∀ r ∈ [(a, n)], r.1+r.2 ≤ len) ↔ a+n ≤ len :=
  List.forall_mem_singleton

section Replies

variable (m : Machine) (d : Datagram)

theorem lookupPort_iff : Bounded d.len (lookupPortAccess m.client d) ↔
    d.len ≤ sizeofRpc ∧ headerLength m.client (d.rpcPkt d.len) false ≤ d.len ∧
      (accepted m.client (d.rpcPkt d.len) = true → 28 ≤ d.len) := by
  rw [lookupPortAccess, bounded_plain, reads_iff, field, forall_one]

theorem mount_iff : Bounded d.len (mountAccess m.client d) ↔
    d.len ≤ sizeofRpc ∧ headerLength m.client (d.rpcPkt d.len) true ≤ d.len ∧
      (accepted m.client (d.rpcPkt d.len) = true ∧ data (d.rpcPkt d.len) 0 = 0 → 60 ≤ d.len) := by
  rw [mountAccess, bounded_plain, reads_iff, forall_one, nfsFhsize]

theorem umount_iff : Bounded d.len (umountAccess m.client d) ↔
    d.len ≤ sizeofRpc ∧ headerLength m.client (d.rpcPkt d.len) false ≤ d.len := by
  rw [umountAccess, bounded_plain, checkReads_inside]

theorem word_lt (pkt : Bytes) (k : ℕ) : word pkt k < 4294967296 := by
  unfold word
  have h0 := (pkt.getD (4*k) 0).toNat_lt
  have h1 := (pkt.getD (4*k+1) 0).toNat_lt
  have h2 := (pkt.getD (4*k+2) 0).toNat_lt
  have h3 := (pkt.getD (4*k+3) 0).toNat_lt
  omega

/-- The length of a stored block is one of the packet and of the request. -/
theorem stored_iff {len rlen : ℕ} (hlt : rlen < 4294967296) :
    (0 ≤ signed rlen ∧ signed rlen ≤ nfsReadSize ∧ sizeofReply+signed rlen ≤ len) ∧
        sizeofReply+rlen ≤ len ↔ rlen ≤ nfsReadSize ∧ sizeofReply+rlen ≤ len := by
  have hsize : nfsReadSize = 1024 := rfl
  unfold signed
  split_ifs <;> omega

theorem read_iff : Bounded d.len (readAccess m.client d) ↔ EnoughRead m.client d := by
  have hsize : sizeofReply ≤ sizeofRpc := by decide
  unfold readAccess EnoughRead
  cases hstores : stores m.client (d.rpcPkt sizeofReply) with
  | false =>
    simp only [hstores, Bool.false_eq_true, if_false, false_imp_iff, and_true]
    rw [bounded_plain, and_iff_right hsize, forall_one, Nat.zero_add]
  | true =>
    simp only [hstores, if_true, true_imp_iff]
    rw [← stored_iff (show data (d.rpcPkt sizeofReply) 18 < 4294967296 from word_lt _ _)]
    constructor
    · rintro ⟨-, hreads, hstored, -⟩
      obtain ⟨hhead, hblock⟩ := List.forall_mem_cons.1 hreads
      exact ⟨by omega, hstored _ rfl, forall_one.1 hblock⟩
    · rintro ⟨hhead, hstored, hblock⟩
      exact ⟨hsize, List.forall_mem_cons.2 ⟨by omega, forall_one.2 hblock⟩,
        (fun n hn => Option.some.inj hn ▸ hstored), fun _ hw => nomatch hw⟩

theorem readlink_iff (hterm : Terminated m.buff) :
    Bounded d.len (readlinkAccess m d) ∧ Terminated (readlinkNext m (d.rpcPkt d.len)).buff ↔
      d.len ≤ sizeofRpc ∧ headerLength m.client (d.rpcPkt d.len) true ≤ d.len ∧
        (follows m.client (d.rpcPkt d.len) = true → 33 ≤ d.len ∧
          32+data (d.rpcPkt d.len) 1 ≤ d.len ∧ PathFits m.buff (d.rpcPkt d.len)) := by
  unfold readlinkAccess readlinkNext
  dsimp only
  cases hfollows : follows m.client (d.rpcPkt d.len) with
  | false =>
    constructor
    · rintro ⟨⟨hcopied, hreads, -, -⟩, -⟩
      exact ⟨hcopied, (reads_iff.1 hreads).1, fun h => nomatch h⟩
    · rintro ⟨hcopied, hreads, -⟩
      exact ⟨⟨hcopied, reads_iff.2 ⟨hreads, fun h => nomatch h⟩, (fun _ hn => nomatch hn),
        fun _ hw => nomatch hw⟩, hterm⟩
  | true =>
    rw [forall_prop_of_true rfl]
    constructor
    · rintro ⟨⟨hcopied, hreads, -, hwritten⟩, -⟩
      obtain ⟨hhead, hmore⟩ := reads_iff.1 hreads
      have hmore := hmore rfl
      simp only [List.forall_mem_cons, field] at hmore
      exact ⟨hcopied, hhead, hmore.2.1, hmore.2.2.1, fits_of_path hwritten⟩
    · rintro ⟨hcopied, hhead, hfirst, htext, hfits⟩
      obtain ⟨hwritten, hleft⟩ := path_of_fits hfits
      refine ⟨⟨hcopied, reads_iff.2 ⟨hhead, fun _ => ?_⟩, (fun _ hn => nomatch hn), hwritten⟩, hleft⟩
      simp only [List.forall_mem_cons, field, List.not_mem_nil, false_imp_iff, implies_true, and_true]
      exact ⟨by omega, hfirst, htext⟩

theorem handled_buff (hstate : m.client.state ≠ .readlink) : (handled m d).buff = m.buff := by
  unfold handled
  split
  · contradiction
  · rfl
  · split <;> rfl

/-- The handler is safe just where the datagram has enough. -/
theorem handler_safe_iff (ourPort : ℕ) (hterm : Terminated m.buff) :
    Safe ourPort m d ↔ Enough ourPort m d := by
  unfold Safe Enough
  refine forall_congr' fun _ => ?_
  have hkeep : m.client.state ≠ .readlink → Terminated (handled m d).buff := fun h => by
    rwa [handled_buff m d h]
  unfold access
  cases hstate : m.client.state with
  | lookupMount => exact (and_iff_left (hkeep (by rw [hstate]; decide))).trans (lookupPort_iff m d)
  | lookupNfs => exact (and_iff_left (hkeep (by rw [hstate]; decide))).trans (lookupPort_iff m d)
  | mount => exact (and_iff_left (hkeep (by rw [hstate]; decide))).trans (mount_iff m d)
  | lookup => exact (and_iff_left (hkeep (by rw [hstate]; decide))).trans (mount_iff m d)
  | umount => exact (and_iff_left (hkeep (by rw [hstate]; decide))).trans (umount_iff m d)
  | read => exact (and_iff_left (hkeep (by rw [hstate]; decide))).trans (read_iff m d)
  | readlink =>
    have hnext : handled m d = readlinkNext m (d.rpcPkt d.len) := by rw [handled, hstate]
    rw [hnext]
    exact readlink_iff m d hterm

end Replies

/-! ## Runs -/

/-- `P` holds of every datagram of a run. -/
@[grind]
def Throughout (P : Machine → Datagram → Prop) (ourPort : ℕ) : Machine → List Datagram → Prop
  | _, [] => True
  | m, d::ds => P m d ∧ Throughout P ourPort (next ourPort m d) ds

theorem next_terminated {ourPort : ℕ} {m : Machine} {d : Datagram} (hterm : Terminated m.buff)
    (hsafe : Safe ourPort m d) : Terminated (next ourPort m d).buff := by
  unfold next
  split_ifs with hport
  · exact hterm
  · exact (hsafe (not_not.1 hport)).2

/-- In every run from every state all replies stay in their bounds just where every datagram has
enough when it comes. -/
theorem reply_bounds (ourPort : ℕ) (m : Machine) (hterm : Terminated m.buff) (ds : List Datagram) :
    Throughout (Safe ourPort) ourPort m ds ↔ Throughout (Enough ourPort) ourPort m ds := by
  induction ds generalizing m with
  | nil => exact Iff.rfl
  | cons d ds ih =>
    rw [Throughout, Throughout, handler_safe_iff m d ourPort hterm]
    refine and_congr_right fun henough => ih _ ?_
    exact next_terminated hterm ((handler_safe_iff m d ourPort hterm).2 henough)

/-- A client that reads, with an empty path. -/
def reading : Machine where
  client :=
    { state := .read, rpcId := 0, offset := 0, len := 1024, dirfh := [], filefh := [],
      downloadState := .fail, srvMountPort := 635, srvNfsPort := 2049, timeoutCount := 0,
      fsMounted := true, path := [], filename := [], loadAddr := 0, mem := fun _ => 0,
      xferSize := 0, net := .going }
  buff := fun _ => 0

/-- The reply of 28 bytes to a read of a directory. -/
def isdirReply : Datagram where
  port := 1000
  bytes p := if p = 7 then 1 else if p = 27 then 21 else 0
  len := 28
  stack _ := 0

/-- The end of a file, with all 100 bytes of the header. -/
def endReply : Datagram := ⟨1000, fun p => if p = 7 then 1 else 0, 100, fun _ => 0⟩

theorem reply_bounds_end : Throughout (Enough 1000) 1000 reading [endReply] ∧
    Throughout (Safe 1000) 1000 reading [endReply] := by
  have h : Throughout (Enough 1000) 1000 reading [endReply] :=
    ⟨fun _ => ⟨by decide, fun _ => by decide +kernel⟩, trivial⟩
  exact ⟨h, (reply_bounds 1000 reading ⟨0, by decide, rfl⟩ [endReply]).2 h⟩

/-- The reply about the directory is read behind its end. -/
theorem isdir_read_behind : ¬Throughout (Safe 1000) 1000 reading [isdirReply] := by
  rintro ⟨h, -⟩
  have hread := (h rfl).1.reads (0, 100) (List.mem_cons_self ..)
  exact absurd hread (by decide)

end UBoot.Nfs
