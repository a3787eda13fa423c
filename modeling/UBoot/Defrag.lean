import UBoot.LinkedRecords

/-!
# IP reassembly: `__NetDefragment` of `net/net.c`

`pkt_buff` is kept in two parts, the IP header and the payload behind it,
whose free stretches hold the descriptors of the holes they are. Every access
is recorded: the stores with their place, and the holes whose descriptors are
read. Lengths are signed, the test against the size of the buffer is unsigned,
and `none` is a scan of the hole list that does not end.
-/

set_option autoImplicit false

namespace UBoot.Defrag
open UBoot.LinkedRecords

def ipHdrSize : ℕ := 20

/-- `CONFIG_NET_MAXDEFRAG` and the size of an RPC reply. -/
def ipPktsize : ℕ := 16384+100

def ipMaxudp : ℕ := ipPktsize-ipHdrSize

/-- A 16-bit field in network order. -/
def ntohs (ip : Bytes) (a : ℕ) : ℕ := (ip a).toNat*256+(ip (a+1)).toNat

def ipLen (ip : Bytes) : ℕ := ntohs ip 2
def ipId (ip : Bytes) : ℕ := ntohs ip 4
def ipOff (ip : Bytes) : ℕ := ntohs ip 6

def offset8 (ip : Bytes) : ℕ := ipOff ip % 8192

/-- `len`, negative when `ip_len` is less than the header. -/
def fragLen (ip : Bytes) : ℤ := (ipLen ip : ℤ)-ipHdrSize

/-- `IP_FLAGS_MFRAG` is set. -/
def moreFragments (ip : Bytes) : Bool := ipOff ip/8192 % 2 = 1

inductive Access where
  | header
  | hole (i : ℕ)
  | follow (i : ℕ)
  | copy (start len : ℕ)
  deriving DecidableEq, Repr

/-- The static variables of the function. -/
structure State where
  header : Bytes
  payload : Bytes
  firstHole : ℕ
  totalLen : ℕ

/-- Static storage is zero. -/
def zeroed : State := ⟨fun _ => 0, fun _ => 0, 0, 0⟩

structure Result where
  state : State
  /-- `*lenp`, when a packet is returned. -/
  packet : Option ℕ
  accesses : List Access

/-- A new packet: the whole payload is one hole. -/
def reset (s : State) (ip : Bytes) : State :=
  { header := copyIn s.header 0 ipHdrSize ip
    payload := setPrev (setNext (setLimit s.payload 0 65535) 0 0) 0 0
    firstHole := 0
    totalLen := 65535 }

/-- The fragment does not belong to the packet being assembled. -/
def isNew (s : State) (ip : Bytes) : Prop := s.totalLen = 0 ∨ ipId s.header ≠ ipId ip

instance (s : State) (ip : Bytes) : Decidable (isNew s ip) :=
  inferInstanceAs (Decidable (_ ∨ _))

/-- The hole that the search stops at, or none that far away. -/
def scan (b : Bytes) (start : ℕ) : ℕ → ℕ → Option (Option ℕ × List Access)
  | 0, _ => none
  | fuel+1, h =>
    if limit b h < start then
      if next b h = 0 then some (none, [.follow h])
      else (scan b start fuel (next b h)).map fun (r, a) => (r, .follow h::a)
    else some (some h, [.follow h])

def u16 (z : ℤ) : ℕ := (z % 65536).toNat

/-- Removal of a hole that is covered; the flag is `done`. -/
def removeHole (s : State) (h : ℕ) : State × Bool × List Access :=
  let b := s.payload
  if prev b h = 0 ∧ next b h = 0 then (s, true, [])
  else if prev b h = 0 then
    ({ s with firstHole := next b h, payload := setPrev b (next b h) 0 }, false,
      [.follow (next b h), .hole (next b h)])
  else if next b h = 0 then
    ({ s with payload := setNext b (prev b h) 0 }, false, [.follow (prev b h), .hole (prev b h)])
  else
    ({ s with payload := setNext (setPrev b (next b h) (prev b h)) (prev b h) (next b h) }, false,
      [.follow (next b h), .hole (next b h), .follow (prev b h), .hole (prev b h)])

/-- The beginning of a hole is covered: its descriptor moves to `n`. -/
def moveHole (s : State) (h n : ℕ) : State × Bool × List Access :=
  let b := copyRecord s.payload n h
  let b1 := if next b n ≠ 0 then setPrev b (next b n) n else b
  let a1 := if next b n ≠ 0 then [.follow (next b n), .hole (next b n)] else []
  if prev b1 n ≠ 0 then
    ({ s with payload := setNext b1 (prev b1 n) n }, false,
      .hole n::a1 ++ [.follow (prev b1 n), .hole (prev b1 n)])
  else ({ s with payload := b1, firstHole := n }, false, .hole n::a1)

/-- The fragment sits in the middle: the rest of the hole is described at `n`. -/
def splitHole (s : State) (h n start : ℕ) : State × Bool × List Access :=
  let b := setPrev (setNext (setLimit (copyRecord s.payload n h) h start) h n) n h
  if next b n ≠ 0 then ({ s with payload := setPrev b (next b n) n }, false,
    [.hole n, .hole h, .hole h, .hole n, .follow (next b n), .hole (next b n)])
  else ({ s with payload := b }, false, [.hole n, .hole h, .hole h, .hole n])

/-- The update of the hole list for a fragment that overlaps with hole `h`. -/
def updateHoles (s : State) (h off8 : ℕ) (len : ℤ) : State × Bool × List Access :=
  let stop : ℤ := 8*off8+len
  if off8 ≤ h ∧ (limit s.payload h : ℤ) ≤ stop then removeHole s h
  else if (limit s.payload h : ℤ) ≤ stop then
    ({ s with payload := setLimit s.payload h (8*off8) }, false, [.hole h])
  else
    let n := ((off8 : ℤ)+len.tdiv 8).toNat
    if off8 ≤ h then moveHole s h n else splitHole s h n (8*off8)

/-- The last fragment ends the hole that it is in. -/
def truncate (s : State) (h off8 : ℕ) (len : ℤ) (more : Bool) : State × List Access :=
  if more then (s, [])
  else ({ s with totalLen := u16 (8*off8+len),
                 payload := setLimit s.payload h (u16 (8*off8+len)) }, [.hole h])

def copyFragment (s : State) (off8 : ℕ) (len : ℤ) (ip : Bytes) : State :=
  { s with payload := copyIn s.payload (8*off8) (len % 4294967296).toNat fun x => ip (ipHdrSize+x) }

/-- `localip->ip_len`, in network order. -/
def finish (s : State) : State :=
  { s with header := fun x => if x = 2 then UInt8.ofNat (s.totalLen/256)
      else if x = 3 then UInt8.ofNat s.totalLen else s.header x }

/-- The part of the function after the hole has been found. -/
def receive (s : State) (h off8 : ℕ) (len : ℤ) (more : Bool) (ip : Bytes) : Result :=
  if (off8 : ℤ)+(len+7).tdiv 8 ≤ h then ⟨s, none, []⟩
  else
    let (s1, a1) := truncate s h off8 len more
    let (s2, done, a2) := updateHoles s1 h off8 len
    let s3 := copyFragment s2 off8 len ip
    let a3 := a1 ++ a2 ++ [.copy (8*off8) (len % 4294967296).toNat]
    if done then ⟨finish s3, some (s3.totalLen+ipHdrSize), a3 ++ [.header]⟩
    else ⟨s3, none, a3⟩

/-- The fragment extends too far; a negative sum is large as an unsigned number. -/
def tooFar (off8 : ℕ) (len : ℤ) : Prop := 8*off8+len < 0 ∨ ipMaxudp < 8*off8+len

instance (off8 : ℕ) (len : ℤ) : Decidable (tooFar off8 len) :=
  inferInstanceAs (Decidable (_ ∨ _))

/-- As many rounds as there are indices, and one more. -/
def scanFuel : ℕ := 65537

/-- The part of the function behind the reset. -/
def place (s : State) (ip : Bytes) : Option Result :=
  match scan s.payload (8*offset8 ip) scanFuel s.firstHole with
  | none => none
  | some (none, a) => some ⟨s, none, a⟩
  | some (some h, a) =>
    let r := receive s h (offset8 ip) (fragLen ip) (moreFragments ip) ip
    some { r with accesses := a ++ r.accesses }

def defragment (s : State) (ip : Bytes) : Option Result :=
  if tooFar (offset8 ip) (fragLen ip) then some ⟨s, none, []⟩
  else if isNew s ip then
    (place (reset s ip) ip).map fun r => { r with accesses := [.hole 0, .header] ++ r.accesses }
  else place s ip

/-- `NetDefragment`: a packet that is not a fragment is returned as it is. -/
def netDefragment (s : State) (ip : Bytes) : Option Result :=
  if offset8 ip = 0 ∧ moreFragments ip = false then some ⟨s, some (ipLen ip), []⟩
  else defragment s ip

end UBoot.Defrag
