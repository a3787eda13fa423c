import Mathlib.Data.Nat.Basic
import Mathlib.Data.List.Basic

/-!
# The NFS client: `net/nfs.c`

Loading a file is a row of remote calls: the ports of the mount and of the NFS
program are asked for, the directory is mounted, the file is looked up in it
and read block by block, and all is unmounted. Every call has the next
transaction id, also when it is sent again after a timeout. A reply is read as the
bytes of its packet. `none` is a write outside of the path buffer.
-/

set_option autoImplicit false

namespace UBoot.Nfs

abbrev Bytes := List UInt8

def w32 (x : ℕ) : ℕ := x % 4294967296

/-- An `int` as the code compares it. -/
def signed (x : ℕ) : ℤ := if x < 2147483648 then x else (x : ℤ)-4294967296

inductive State where
  | lookupMount | lookupNfs | mount | umount | lookup | read | readlink
  deriving DecidableEq, Repr

/-- `net_loop_state`. -/
inductive Loop where
  | going | success | fail
  deriving DecidableEq, Repr

inductive Call where
  | getport (prog : ℕ)
  | mount (path : Bytes)
  | umountall
  | lookup (dir name : Bytes)
  | read (file : Bytes) (offset len : ℕ)
  | readlink (file : Bytes)
  deriving DecidableEq, Repr

/-- A call as it is sent. -/
structure Packet where
  id : ℕ
  port : ℕ
  call : Call
  deriving DecidableEq, Repr

def sunrpcPort : ℕ := 111
def progNfs : ℕ := 100003
def progMount : ℕ := 100005
def nfsFhsize : ℕ := 32
def nfsReadSize : ℕ := 1024
def nfserrIsdir : ℤ := 21
def nfserrInval : ℤ := 22
def nfsRetryCount : ℕ := 30
def pathBuffer : ℕ := 2048

structure Client where
  state : State
  rpcId : ℕ
  offset : ℕ
  len : ℕ
  dirfh : Bytes
  filefh : Bytes
  downloadState : Loop
  srvMountPort : ℕ
  srvNfsPort : ℕ
  timeoutCount : ℕ
  fsMounted : Bool
  path : Bytes
  filename : Bytes
  loadAddr : ℕ
  mem : ℕ → UInt8
  xferSize : ℕ
  net : Loop

/-! ## Calls -/

def rpcReq (c : Client) (port : ℕ) (call : Call) : Client × List Packet :=
  let id := w32 (c.rpcId+1)
  ({ c with rpcId := id }, [⟨id, port, call⟩])

/-- `NfsSend`. Nothing is sent to unmount what is not mounted. -/
@[grind]
def send (c : Client) : Client × List Packet :=
  match c.state with
  | .lookupMount => rpcReq c sunrpcPort (.getport progMount)
  | .lookupNfs => rpcReq c sunrpcPort (.getport progNfs)
  | .mount => rpcReq c c.srvMountPort (.mount c.path)
  | .umount =>
    if c.srvMountPort = 4294967295 ∨ c.fsMounted = false then (c, [])
    else rpcReq c c.srvMountPort .umountall
  | .lookup => rpcReq c c.srvNfsPort (.lookup c.dirfh c.filename)
  | .read => rpcReq c c.srvNfsPort (.read c.filefh c.offset c.len)
  | .readlink => rpcReq c c.srvNfsPort (.readlink c.filefh)

def Client.enter (c : Client) (s : State) : Client := { c with state := s }

/-! ## Replies -/

/-- A field of four bytes, the highest first. -/
@[irreducible] def word (pkt : Bytes) (k : ℕ) : ℕ :=
  16777216*(pkt.getD (4*k) 0).toNat+65536*(pkt.getD (4*k+1) 0).toNat+
    256*(pkt.getD (4*k+2) 0).toNat+(pkt.getD (4*k+3) 0).toNat

def replyId (pkt : Bytes) : ℕ := word pkt 0
def rstatus (pkt : Bytes) : ℕ := word pkt 2
def verifier (pkt : Bytes) : ℕ := word pkt 3
def astatus (pkt : Bytes) : ℕ := word pkt 5
def data (pkt : Bytes) (k : ℕ) : ℕ := word pkt (6+k)

/-- The bytes from `data[k]` on. -/
def dataBytes (pkt : Bytes) (k len : ℕ) : Bytes := (pkt.drop (24+4*k)).take len

/-- The checks that all replies but that of a read have in common. -/
def accepted (c : Client) (pkt : Bytes) : Bool :=
  replyId pkt = c.rpcId ∧ rstatus pkt = 0 ∧ verifier pkt = 0 ∧ astatus pkt = 0

def rpcLookupReply (c : Client) (prog : ℕ) (pkt : Bytes) : Client :=
  if accepted c pkt then
    if prog = progMount then { c with srvMountPort := data pkt 0 }
    else { c with srvNfsPort := data pkt 0 }
  else c

/-- `none` stands for the result -1. -/
def nfsMountReply (c : Client) (pkt : Bytes) : Option Client :=
  if accepted c pkt ∧ data pkt 0 = 0 then
    some { c with fsMounted := true, dirfh := dataBytes pkt 1 nfsFhsize }
  else none

def nfsUmountallReply (c : Client) (pkt : Bytes) : Option Client :=
  if accepted c pkt then
    some { c with fsMounted := false, dirfh := List.replicate nfsFhsize 0 }
  else none

def nfsLookupReply (c : Client) (pkt : Bytes) : Option Client :=
  if accepted c pkt ∧ data pkt 0 = 0 then
    some { c with filefh := dataBytes pkt 1 nfsFhsize }
  else none

/-- The directory and the name, split at the last slash; without one `basename`
leaves the buffer. -/
def splitPath (path : Bytes) : Option (Bytes × Bytes) :=
  if (47 : UInt8) ∈ path then
    some (((path.reverse.dropWhile (· ≠ 47)).drop 1).reverse,
      (path.reverse.takeWhile (· ≠ 47)).reverse)
  else none

/-- What a string function sees of a buffer. -/
def cstr (s : Bytes) : Bytes := s.takeWhile (· ≠ 0)

inductive LinkResult where
  | failed
  | outside
  | followed (c : Client)

def nfsReadlinkReply (c : Client) (pkt : Bytes) : LinkResult :=
  if accepted c pkt ∧ data pkt 0 = 0 then
    let text := dataBytes pkt 2 (data pkt 1)
    let path := if pkt.getD 32 0 = 47 then text else c.path ++ 47::text
    if pathBuffer ≤ path.length then .outside
    else
      match splitPath (cstr path) with
      | none => .outside
      | some (dir, name) => .followed { c with path := dir, filename := name }
  else .failed

/-- `store_block`. -/
def storeBlock (c : Client) (src : Bytes) (offset len : ℕ) : Client :=
  { c with
    mem := fun a =>
      let k := w32 (4294967296+a-w32 (c.loadAddr+offset))
      if k < len ∧ a < 4294967296 then src.getD k 0 else c.mem a
    xferSize := if c.xferSize < w32 (offset+len) then w32 (offset+len) else c.xferSize }

def nfsReadReply (c : Client) (pkt : Bytes) : Client × ℤ :=
  if replyId pkt ≠ c.rpcId then (c, -1)
  else if rstatus pkt ≠ 0 ∨ verifier pkt ≠ 0 ∨ astatus pkt ≠ 0 ∨ data pkt 0 ≠ 0 then
    if rstatus pkt ≠ 0 then (c, -9999)
    else if astatus pkt ≠ 0 then (c, -9999)
    else (c, signed (w32 (4294967296-data pkt 0)))
  else
    let rlen := data pkt 18
    (storeBlock c (pkt.drop 100) c.offset rlen, signed rlen)

/-! ## The handlers -/

def mountState (c : Client) (pkt : Bytes) : Client × List Packet :=
  match nfsMountReply c pkt with
  | none => send (c.enter .umount)
  | some c => send (c.enter .lookup)

def umountState (c : Client) (pkt : Bytes) : Client × List Packet :=
  match nfsUmountallReply c pkt with
  | none => ({ c with net := .fail }, [])
  | some c => ({ c with net := c.downloadState }, [])

@[grind]
def lookupState (c : Client) (pkt : Bytes) : Client × List Packet :=
  match nfsLookupReply c pkt with
  | none => send (c.enter .umount)
  | some c => send { c with state := .read, offset := 0, len := nfsReadSize }

@[grind]
def readlinkState (c : Client) (pkt : Bytes) : Option (Client × List Packet) :=
  match nfsReadlinkReply c pkt with
  | .outside => none
  | .failed => some (send (c.enter .umount))
  | .followed c => some (send (c.enter .mount))

/-- What a read leads to, with the result of its reply. -/
def readResult (c : Client) (rlen : ℤ) : Client × List Packet :=
  if 0 < rlen then send { c with offset := w32 (c.offset+rlen.toNat) }
  else if rlen = -nfserrIsdir ∨ rlen = -nfserrInval then send (c.enter .readlink)
  else if rlen = 0 then send { c with state := .umount, downloadState := .success }
  else send (c.enter .umount)

/-- `NfsHandler` for a packet to its port. -/
@[grind]
def handler (c : Client) (pkt : Bytes) : Option (Client × List Packet) :=
  match c.state with
  | .lookupMount => some (send ((rpcLookupReply c progMount pkt).enter .lookupNfs))
  | .lookupNfs => some (send ((rpcLookupReply c progNfs pkt).enter .mount))
  | .mount => some (mountState c pkt)
  | .umount => some (umountState c pkt)
  | .lookup => some (lookupState c pkt)
  | .readlink => readlinkState c pkt
  | .read => some (readResult (nfsReadReply c pkt).1 (nfsReadReply c pkt).2)

/-- `NfsStart` for a path. -/
def start (c : Client) (bootPath : Bytes) : Option (Client × List Packet) :=
  if pathBuffer ≤ (cstr bootPath).length then none
  else
    match splitPath (cstr bootPath) with
    | none => none
    | some (dir, name) =>
      some (send { c with
        downloadState := .fail, path := dir, filename := name, timeoutCount := 0,
        state := .lookupMount, xferSize := 0, net := .going })

/-- `NfsTimeout`; the loop is started again or given up after too many. -/
def timeout (c : Client) (bootPath : Bytes) (again : Bool) : Option (Client × List Packet) :=
  let c := { c with timeoutCount := c.timeoutCount+1 }
  if nfsRetryCount < c.timeoutCount then
    if again then start c bootPath else some ({ c with net := .fail }, [])
  else some (send c)

end UBoot.Nfs
