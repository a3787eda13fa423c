import UBoot.Kermit
import Mathlib

/-!
# A Kermit sender and the line

The sender sends its packets one by one and goes on when the receiver has
acknowledged one. On the line a packet may be lost, come twice or be damaged, such
that the receiver answers with a negative acknowledgement. The file is received as
long as damage comes behind the sequence number, or hits when nothing has been
stored since the position was saved, and the sender does not go on behind a
damaged copy.
-/

set_option autoImplicit false

namespace UBoot.Kermit

/-! ## Packets -/

/-- Characters for bytes, with a quote where needed. -/
inductive Encoded (q : UInt8) : Chars → Chars → Prop where
  | nil : Encoded q [] []
  | plain (b : UInt8) (cs bytes : Chars) : isControl b = false → b ≠ q → Encoded q cs bytes →
      Encoded q (b::cs) (b::bytes)
  | quoted (x : UInt8) (cs bytes : Chars) : isControl x = false → Encoded q cs bytes →
      Encoded q (q::x::cs) (ktrans x::bytes)

structure Packet where
  type : UInt8
  body : Chars
  /-- What the body stands for, if it is data. -/
  bytes : Chars
  long : Bool

/-- A packet as it is sent with quote `q`. -/
structure Packet.Proper (q : UInt8) (p : Packet) : Prop where
  type : isControl p.type = false
  body : ∀ c ∈ p.body, isControl c = false
  data : p.type = dataType → Encoded q p.body p.bytes
  other : p.type ≠ dataType → p.bytes = []
  short : p.long = false → p.body.length ≤ 91
  room : p.body.length+1 < 9025

def sumOf (cs : Chars) : ℕ := (cs.map UInt8.toNat).sum

def withCheck (cs : Chars) : Chars := cs ++ [checkChar (sumOf cs)]

def Packet.header (p : Packet) (n : ℕ) : Chars :=
  if p.long then
    withCheck [tochar 0, tochar n, p.type, tochar ((p.body.length+1)/95), tochar ((p.body.length+1)%95)]
  else [tochar (p.body.length+3), tochar n, p.type]

/-- The characters of a packet with a sequence number. -/
def Packet.wire (p : Packet) (n : ℕ) : Chars :=
  startChar::withCheck (p.header n ++ p.body) ++ [endChar]

/-! ## Characters of a packet -/

variable (binStart : ℕ)

theorem feed_append (k : Recv) (a b : Chars) :
    feed binStart k (a ++ b) = feed binStart (feed binStart k a) b := List.foldl_append

theorem feed_cons (k : Recv) (c : UInt8) (cs : Chars) :
    feed binStart k (c::cs) = feed binStart (getc binStart k c) cs := rfl

/-- One character of the body. -/
def take1 (k : Recv) (c : UInt8) : Recv :=
  if k.kState = dataType then kDataChar k c
  else if k.kState = sendType then saveParm k c
  else k

def takeBody (k : Recv) (cs : Chars) : Recv := cs.foldl take1 k

/-- The counters of the loop, which the data does not depend on. -/
def Recv.at (k : Recv) (pc : Pc) (sum : ℕ) (length : ℤ) : Recv :=
  { k with pc := pc, sum := sum, length := length }

def Recv.clear (k : Recv) : Recv := { k with sendParms := [] }

def Recv.typed (k : Recv) (type : UInt8) : Recv := { k with kState := type }

def Recv.high (k : Recv) (hi : ℕ) : Recv := { k with lenHi := hi }

theorem take1_at (k : Recv) (c : UInt8) (pc : Pc) (sum : ℕ) (length : ℤ) :
    take1 (k.at pc sum length) c = (take1 k c).at pc sum length := by
  unfold take1 kDataChar osDataChar saveParm Recv.at
  simp only
  split_ifs <;> rfl

theorem take1_keeps (k : Recv) (c : UInt8) : (take1 k c).result = k.result ∧
    (take1 k c).kState = k.kState ∧ (take1 k c).replies = k.replies ∧ (take1 k c).n = k.n ∧
    (take1 k c).saved = k.saved ∧ (take1 k c).lastN = k.lastN ∧ (take1 k c).quote = k.quote := by
  unfold take1 kDataChar osDataChar saveParm
  split_ifs <;> exact ⟨rfl, rfl, rfl, rfl, rfl, rfl, rfl⟩

theorem takeBody_keeps (k : Recv) (cs : Chars) : (takeBody k cs).result = k.result ∧
    (takeBody k cs).kState = k.kState ∧ (takeBody k cs).replies = k.replies ∧
    (takeBody k cs).n = k.n ∧ (takeBody k cs).saved = k.saved ∧ (takeBody k cs).lastN = k.lastN ∧
    (takeBody k cs).quote = k.quote := by
  induction cs generalizing k with
  | nil => exact ⟨rfl, rfl, rfl, rfl, rfl, rfl, rfl⟩
  | cons c cs ih =>
    obtain ⟨h1, h2, h3, h4, h5, h6, h7⟩ := ih (take1 k c)
    obtain ⟨g1, g2, g3, g4, g5, g6, g7⟩ := take1_keeps k c
    exact ⟨h1.trans g1, h2.trans g2, h3.trans g3, h4.trans g4, h5.trans g5, h6.trans g6, h7.trans g7⟩

@[simp] theorem at_pc (k : Recv) (pc : Pc) (sum : ℕ) (length : ℤ) : (k.at pc sum length).pc = pc := rfl

theorem at_running (k : Recv) (pc : Pc) (sum : ℕ) (length : ℤ) (hr : k.result = none) :
    (k.at pc sum length).result.isSome = false := by
  rw [show (k.at pc sum length).result = none from hr]
  rfl

theorem getc_data (k : Recv) (c : UInt8) (sum : ℕ) (length : ℤ) (hr : k.result = none)
    (hc : isControl c = false) : getc binStart (k.at .data sum length) c =
      (take1 k c).at (if 1 < length-1 then .data else .check) (sum+c.toNat) (length-1) := by
  have h : getc binStart (k.at .data sum length) c =
      (take1 (k.at .data (sum+c.toNat) (length-1)) c).body := by
    simp only [getc, at_running k .data sum length hr, Bool.false_eq_true, if_false, at_pc, hc]
    rfl
  rw [h, take1_at]
  rfl

/-- The body is taken to its end, up to the check character. -/
theorem feed_body (k : Recv) (cs : Chars) (sum : ℕ) (hr : k.result = none)
    (hc : ∀ c ∈ cs, isControl c = false) :
    feed binStart (k.at (if 1 < (cs.length : ℤ)+1 then .data else .check) sum (cs.length+1)) cs =
      (takeBody k cs).at .check (sum+sumOf cs) 1 := by
  induction cs generalizing k sum with
  | nil => rfl
  | cons c cs ih =>
    rw [feed_cons]
    have h1 : (1 : ℤ) < ((c::cs).length : ℤ)+1 := by
      rw [List.length_cons]
      omega
    rw [if_pos h1, getc_data binStart k c sum _ hr (hc c List.mem_cons_self)]
    have hl : ((c::cs).length : ℤ)+1-1 = (cs.length : ℤ)+1 := by
      rw [List.length_cons]
      omega
    rw [hl, ih (take1 k c) _ ((take1_keeps k c).1.trans hr)
      (fun d hd => hc d (List.mem_cons_of_mem _ hd))]
    simp only [takeBody, List.foldl_cons, sumOf, List.map_cons, List.sum_cons, Nat.add_assoc]

theorem tochar_plain (x : ℕ) (h : x < 96) : isControl (tochar x) = false := by
  revert x
  decide

theorem untochar_tochar (x : ℕ) (h : x < 96) : untochar (tochar x) = x := by
  revert x
  decide

theorem checkChar_plain (sum : ℕ) : isControl (checkChar sum) = false :=
  tochar_plain _ (by omega)

section Header

variable (k : Recv) (c : UInt8) (sum : ℕ) (length : ℤ) (hr : k.result = none)

include hr

theorem getc_start (hpc : k.pc = .start) : getc binStart k startChar =
    k.clear.at .length 0 k.length := by
  have hrun : k.result.isSome = false := by rw [hr]; rfl
  simp only [getc, hrun, hpc, Bool.false_eq_true, if_false, if_true]
  rfl

theorem getc_eol : getc binStart (k.at .eol sum length) endChar = accept binStart (k.at .eol sum length) := by
  simp only [getc, at_running k .eol sum length hr, Bool.false_eq_true, if_false, at_pc, ne_eq,
    not_true_eq_false]

variable (hc : isControl c = false)

include hc

theorem getc_length : getc binStart (k.at .length sum length) c =
    k.at .seq (sum+c.toNat) (untochar c) := by
  simp only [getc, at_running k .length sum length hr, Bool.false_eq_true, if_false, at_pc, hc]
  rfl

theorem getc_seq : getc binStart (k.at .seq sum length) c =
    (checkpoint k (untochar c)).at .type (sum+c.toNat) (length-1) := by
  simp only [getc, at_running k .seq sum length hr, Bool.false_eq_true, if_false, at_pc, hc]
  unfold checkpoint kDataRestore Recv.add Recv.at
  simp only
  split_ifs <;> rfl

theorem getc_type : getc binStart (k.at .type sum length) c =
    (k.typed c).at (if length-1 = -2 then .lenHi else if 1 < length-1 then .data else .check)
      (sum+c.toNat) (length-1) := by
  simp only [getc, at_running k .type sum length hr, Bool.false_eq_true, if_false, at_pc, hc]
  unfold Recv.body Recv.add Recv.at
  simp only
  split_ifs <;> rfl

theorem getc_lenHi : getc binStart (k.at .lenHi sum length) c =
    (k.high (untochar c)).at .lenLo (sum+c.toNat) length := by
  simp only [getc, at_running k .lenHi sum length hr, Bool.false_eq_true, if_false, at_pc, hc]
  rfl

theorem getc_lenLo : getc binStart (k.at .lenLo sum length) c =
    k.at .headerCheck (sum+c.toNat) (k.lenHi*95+untochar c) := by
  simp only [getc, at_running k .lenLo sum length hr, Bool.false_eq_true, if_false, at_pc, hc]
  rfl

theorem getc_headerCheck (h : c = checkChar sum) : getc binStart (k.at .headerCheck sum length) c =
    k.at (if 1 < length then .data else .check) (sum+c.toNat) length := by
  simp only [getc, at_running k .headerCheck sum length hr, Bool.false_eq_true, if_false, at_pc, hc]
  rw [if_neg (show ¬c ≠ checkChar (k.at .headerCheck sum length).sum from not_not.mpr h)]
  rfl

theorem getc_check (h : c = checkChar sum) : getc binStart (k.at .check sum length) c =
    k.at .eol sum length := by
  simp only [getc, at_running k .check sum length hr, Bool.false_eq_true, if_false, at_pc, hc]
  rw [if_neg (show ¬c ≠ checkChar (k.at .check sum length).sum from not_not.mpr h)]
  rfl

end Header

theorem checkpoint_result (k : Recv) (n : ℕ) : (checkpoint k n).result = k.result := by
  unfold checkpoint kDataRestore
  split_ifs <;> rfl

/-- The header of a packet: the position is saved or set back, and the body comes next. -/
theorem feed_header (k : Recv) (q : UInt8) (p : Packet) (n : ℕ) (hp : p.Proper q) (hn : n < 64)
    (hr : k.result = none) (hpc : k.pc = .start) : ∃ hi,
      feed binStart k (startChar::p.header n) =
        (((checkpoint k.clear n).typed p.type).high hi).at
          (if 1 < (p.body.length : ℤ)+1 then .data else .check) (sumOf (p.header n))
          (p.body.length+1) := by
  have hck : (checkpoint k.clear n).result = none := by
    rw [checkpoint_result]
    exact hr
  have hroom := hp.room
  rw [feed_cons, getc_start binStart k hr hpc]
  unfold Packet.header
  cases hl : p.long with
  | false =>
    have hshort := hp.short hl
    refine ⟨(checkpoint k.clear n).lenHi, ?_⟩
    rw [if_neg (by decide), feed_cons, getc_length binStart k.clear _ _ _ hr
      (tochar_plain _ (by omega)), untochar_tochar _ (by omega), feed_cons,
      getc_seq binStart k.clear _ _ _ hr (tochar_plain _ (by omega)),
      untochar_tochar _ (by omega), feed_cons, getc_type binStart _ _ _ _ hck hp.type]
    have h1 : (((p.body.length+3 : ℕ) : ℤ)-1-1) = (p.body.length : ℤ)+1 := by omega
    rw [h1, if_neg (by omega)]
    simp [feed, sumOf, Nat.add_assoc]
    rfl
  | true =>
    refine ⟨(p.body.length+1)/95, ?_⟩
    have hhi : (p.body.length+1)/95 < 96 := by omega
    have hlo : (p.body.length+1)%95 < 96 := by omega
    rw [if_pos rfl, withCheck, List.cons_append, feed_cons,
      getc_length binStart k.clear _ _ _ hr (tochar_plain _ (by omega)),
      untochar_tochar _ (by omega), List.cons_append, feed_cons,
      getc_seq binStart k.clear _ _ _ hr (tochar_plain _ (by omega)),
      untochar_tochar _ (by omega), List.cons_append, feed_cons,
      getc_type binStart _ _ _ _ hck hp.type, if_pos (by decide), List.cons_append, feed_cons,
      getc_lenHi binStart ((checkpoint k.clear n).typed p.type) _ _ _ hck (tochar_plain _ hhi),
      untochar_tochar _ hhi, List.cons_append, feed_cons,
      getc_lenLo binStart (((checkpoint k.clear n).typed p.type).high _) _ _ _ hck
        (tochar_plain _ hlo), untochar_tochar _ hlo,
      List.nil_append, feed_cons,
      getc_headerCheck binStart (((checkpoint k.clear n).typed p.type).high _) _ _ _ hck
        (checkChar_plain _)]
    · have hlen : ((((checkpoint k.clear n).typed p.type).high ((p.body.length+1)/95)).lenHi : ℤ)*95+
          (((p.body.length+1)%95 : ℕ) : ℤ) = (p.body.length : ℤ)+1 := by
        rw [show (((checkpoint k.clear n).typed p.type).high ((p.body.length+1)/95)).lenHi =
          (p.body.length+1)/95 from rfl]
        omega
      rw [hlen]
      simp [feed, sumOf, Nat.add_assoc]
    · simp [sumOf, Nat.add_assoc]

theorem feed_accepted (k : Recv) (q : UInt8) (p : Packet) (n : ℕ) (hp : p.Proper q) (hn : n < 64)
    (hr : k.result = none) (hpc : k.pc = .start) : ∃ hi sum, feed binStart k (p.wire n) =
      accept binStart ((takeBody (((checkpoint k.clear n).typed p.type).high hi) p.body).at .eol sum 1) := by
  have hck : (checkpoint k.clear n).result = none := by
    rw [checkpoint_result]
    exact hr
  obtain ⟨hi, hhead⟩ := feed_header binStart k q p n hp hn hr hpc
  have hbody := (takeBody_keeps (((checkpoint k.clear n).typed p.type).high hi) p.body).1
  have hsum : sumOf (p.header n ++ p.body) = sumOf (p.header n)+sumOf p.body := by
    simp [sumOf]
  refine ⟨hi, sumOf (p.header n)+sumOf p.body, ?_⟩
  generalize hbase : ((checkpoint k.clear n).typed p.type).high hi = base at *
  have hrun : base.result = none := by
    rw [← hbase]
    exact hck
  have hcheck : feed binStart ((takeBody base p.body).at .check (sumOf (p.header n)+sumOf p.body) 1)
      [checkChar (sumOf (p.header n ++ p.body))] = (takeBody base p.body).at .eol _ 1 :=
    getc_check binStart _ _ _ _ (hbody.trans hrun) (checkChar_plain _) (by rw [hsum])
  rw [Packet.wire, withCheck, ← List.cons_append, ← List.cons_append, feed_append, feed_append,
    feed_append, hhead, feed_body binStart base p.body _ hrun hp.body, hcheck]
  exact getc_eol binStart _ _ _ (hbody.trans hrun)

/-! ## What a packet leaves -/

/-- Bytes in memory from an address on. -/
def writeAt (mem : ℕ → UInt8) (a : ℕ) : Chars → ℕ → UInt8
  | [] => mem
  | b::bs => writeAt (Function.update mem a b) (a+1) bs

theorem writeAt_below (mem : ℕ → UInt8) (a : ℕ) (bs : Chars) (x : ℕ) (hx : x < a) :
    writeAt mem a bs x = mem x := by
  induction bs generalizing mem a with
  | nil => rfl
  | cons b bs ih =>
    rw [writeAt, ih _ _ (by omega), Function.update_of_ne (by omega)]

theorem writeAt_inside (mem : ℕ → UInt8) (a : ℕ) (bs : Chars) (i : ℕ) (hi : i < bs.length) :
    writeAt mem a bs (a+i) = bs.getD i 0 := by
  induction bs generalizing mem a i with
  | nil => simp at hi
  | cons b bs ih =>
    cases i with
    | zero =>
      change writeAt (Function.update mem a b) (a+1) bs a = b
      rw [writeAt_below _ _ _ _ (Nat.lt_succ_self a), Function.update_self]
    | succ i =>
      rw [List.length_cons] at hi
      rw [writeAt, show a+(i+1) = a+1+i by omega, ih _ _ i (by omega)]
      rfl

theorem takeBody_data (q : UInt8) (cs bytes : Chars) (h : Encoded q cs bytes) (k : Recv)
    (hk : k.kState = dataType) (hq : k.quote = q) (he : k.pos.escape = false) :
    (takeBody k cs).pos = ⟨k.pos.addr+bytes.length, false⟩ ∧
      (takeBody k cs).mem = writeAt k.mem k.pos.addr bytes := by
  induction h generalizing k with
  | nil =>
    refine ⟨?_, rfl⟩
    change k.pos = _
    rw [List.length_nil, Nat.add_zero, ← he]
  | plain b cs bytes _ hne _ ih =>
    have h1 : take1 k b = osDataChar k b := by
      rw [take1, if_pos hk, kDataChar, he, if_neg (by decide), hq, if_neg hne]
    obtain ⟨hp, hm⟩ := ih (osDataChar k b) hk hq rfl
    rw [takeBody, List.foldl_cons, h1]
    refine ⟨hp.trans ?_, hm⟩
    rw [List.length_cons, show (osDataChar k b).pos.addr = k.pos.addr+1 from rfl]
    congr 1
    omega
  | quoted x cs bytes _ _ ih =>
    have h1 : take1 k q = { k with pos := ⟨k.pos.addr, true⟩ } := by
      rw [take1, if_pos hk, kDataChar, he, if_neg (by decide), hq, if_pos rfl]
    have h2 : take1 { k with pos := ⟨k.pos.addr, true⟩ } x =
        osDataChar { k with pos := ⟨k.pos.addr, true⟩ } (ktrans x) := by
      rw [take1, if_pos hk, kDataChar, if_pos rfl]
    obtain ⟨hp, hm⟩ := ih (osDataChar { k with pos := ⟨k.pos.addr, true⟩ } (ktrans x)) hk hq rfl
    rw [takeBody, List.foldl_cons, List.foldl_cons, h1, h2]
    refine ⟨hp.trans ?_, hm⟩
    rw [List.length_cons]
    change (⟨k.pos.addr+1+_, false⟩ : Position) = _
    congr 1
    omega

theorem takeBody_other (k : Recv) (cs : Chars) (hk : k.kState ≠ dataType) :
    (takeBody k cs).pos = k.pos ∧ (takeBody k cs).mem = k.mem := by
  induction cs generalizing k with
  | nil => exact ⟨rfl, rfl⟩
  | cons c cs ih =>
    have hkeep := (take1_keeps k c).2.1
    have h1 : (take1 k c).pos = k.pos ∧ (take1 k c).mem = k.mem := by
      rw [take1, if_neg hk]
      split_ifs <;> exact ⟨rfl, rfl⟩
    obtain ⟨hp, hm⟩ := ih (take1 k c) (by rw [hkeep]; exact hk)
    exact ⟨hp.trans h1.1, hm.trans h1.2⟩

/-- The quote that a sender announces. -/
def announced (body : Chars) : UInt8 := if 6 ≤ body.length then body.getD 5 0 else kEscape

theorem takeBody_parms (k : Recv) (cs : Chars) (hk : k.kState = sendType)
    (hl : k.sendParms.length ≤ sendDataSize) :
    (takeBody k cs).sendParms.length = min sendDataSize (k.sendParms.length+cs.length) ∧
      (takeBody k cs).sendParms.getD 5 0 = (k.sendParms ++ cs).getD 5 0 := by
  induction cs generalizing k with
  | nil =>
    rw [List.append_nil, List.length_nil]
    exact ⟨by rw [Nat.add_zero, Nat.min_eq_right hl]; rfl, rfl⟩
  | cons c cs ih =>
    have h1 : take1 k c = saveParm k c := by
      rw [take1, if_neg (by rw [hk]; decide), if_pos hk]
    rw [takeBody, List.foldl_cons, h1]
    have hlen : (saveParm k c).sendParms.length = min sendDataSize (k.sendParms.length+1) := by
      unfold saveParm
      simp only
      split_ifs
      · rw [List.length_append, List.length_singleton]
        omega
      · rw [List.length_set]
        omega
    obtain ⟨h2, h3⟩ := ih (saveParm k c) hk (by rw [hlen]; omega)
    refine ⟨h2.trans (by rw [hlen, List.length_cons]; omega), h3.trans ?_⟩
    unfold saveParm
    simp only
    split_ifs with hs
    · rw [List.append_assoc]
      rfl
    · unfold sendDataSize at hs
      rw [List.getD_append _ _ _ _ (by rw [List.length_set]; omega),
        List.getD_append _ _ _ _ (by omega)]
      rw [List.getD_eq_getElem?_getD, List.getD_eq_getElem?_getD, List.getElem?_set_ne (by decide)]

/-- Where a packet with a sequence number starts. -/
def Recv.origin (k : Recv) (n : ℕ) : Position := if k.lastN = some n then k.saved else k.pos

structure Arrived (k : Recv) (p : Packet) (n : ℕ) (k' : Recv) : Prop where
  pc : k'.pc = .start
  pos : k'.pos = ⟨(k.origin n).addr+p.bytes.length, false⟩
  saved : k'.saved = k.origin n
  lastN : k'.lastN = some n
  mem : k'.mem = writeAt k.mem (k.origin n).addr p.bytes
  replies : k'.replies = .ack n::k.replies
  sent : p.type = sendType → k'.quote = announced p.body
  quote : p.type ≠ sendType → k'.quote = k.quote
  result : k'.result = if p.type = breakType then some ((k.origin n).addr-binStart) else none

theorem checkpoint_origin (k : Recv) (n : ℕ) : (checkpoint k n).pos = k.origin n ∧
    (checkpoint k n).saved = k.origin n ∧ (checkpoint k n).lastN = some n ∧
    (checkpoint k n).n = n ∧ (checkpoint k n).mem = k.mem ∧ (checkpoint k n).quote = k.quote ∧
    (checkpoint k n).replies = k.replies ∧ (checkpoint k n).sendParms = k.sendParms := by
  unfold checkpoint kDataRestore Recv.origin
  split_ifs with h
  · exact ⟨rfl, rfl, h, rfl, rfl, rfl, rfl, rfl⟩
  · exact ⟨rfl, rfl, rfl, rfl, rfl, rfl, rfl, rfl⟩

theorem feed_wire (k : Recv) (q : UInt8) (p : Packet) (n : ℕ) (hp : p.Proper q) (hn : n < 64)
    (hr : k.result = none) (hpc : k.pc = .start) (hq : p.type = dataType → k.quote = q)
    (he : (k.origin n).escape = false) : Arrived binStart k p n (feed binStart k (p.wire n)) := by
  obtain ⟨hi, sum, hfeed⟩ := feed_accepted binStart k q p n hp hn hr hpc
  rw [hfeed]
  obtain ⟨c1, c2, c3, c4, c5, c6, c7, c8⟩ := checkpoint_origin k.clear n
  have hck : (checkpoint k.clear n).result = none := by
    rw [checkpoint_result]
    exact hr
  generalize hbase : ((checkpoint k.clear n).typed p.type).high hi = base
  have b1 : base.kState = p.type := by rw [← hbase]; rfl
  have b2 : base.pos = k.origin n := by rw [← hbase]; exact c1
  have b3 : base.mem = k.mem := by rw [← hbase]; exact c5
  have b4 : base.quote = k.quote := by rw [← hbase]; exact c6
  have b5 : base.sendParms = [] := by rw [← hbase]; exact c8
  have b6 : base.saved = k.origin n := by rw [← hbase]; exact c2
  have b7 : base.lastN = some n := by rw [← hbase]; exact c3
  have b8 : base.n = n := by rw [← hbase]; exact c4
  have b9 : base.replies = k.replies := by rw [← hbase]; exact c7
  have b10 : base.result = none := by rw [← hbase]; exact hck
  obtain ⟨t1, t2, t3, t4, t5, t6, t7⟩ := takeBody_keeps base p.body
  have hpm : (takeBody base p.body).pos = ⟨(k.origin n).addr+p.bytes.length, false⟩ ∧
      (takeBody base p.body).mem = writeAt k.mem (k.origin n).addr p.bytes := by
    by_cases hd : p.type = dataType
    · have hdata := takeBody_data q p.body p.bytes (hp.data hd) base (b1.trans hd) (b4.trans (hq hd))
        (by rw [b2]; exact he)
      rw [b2, b3] at hdata
      exact hdata
    · obtain ⟨o1, o2⟩ := takeBody_other base p.body (by rw [b1]; exact hd)
      rw [hp.other hd, o1, o2, b2, b3]
      refine ⟨?_, rfl⟩
      rw [List.length_nil, Nat.add_zero, ← he]
  have hst : ((takeBody base p.body).at .eol sum 1).kState = p.type := t2.trans b1
  unfold accept
  by_cases hs : p.type = sendType
  · rw [if_pos (hst.trans hs)]
    obtain ⟨g1, g2⟩ := takeBody_parms base p.body (b1.trans hs) (by rw [b5]; decide)
    rw [b5, List.length_nil, Nat.zero_add] at g1
    rw [b5, List.nil_append] at g2
    refine ⟨rfl, hpm.1, t5.trans b6, t6.trans b7, hpm.2, ?_, fun _ => ?_, fun hne => absurd hs hne, ?_⟩
    · change Reply.ack (takeBody base p.body).n::(takeBody base p.body).replies = _
      rw [t4, b8, t3, b9]
    · change (if 6 ≤ (if sendDataSize-1 ≤ (takeBody base p.body).sendParms.length then sendDataSize-2
        else (takeBody base p.body).sendParms.length) then (takeBody base p.body).sendParms.getD 5 0
        else kEscape) = _
      rw [g1, g2, announced]
      unfold sendDataSize
      by_cases h6 : 6 ≤ p.body.length
      · rw [if_pos h6, if_pos (by split_ifs <;> omega)]
      · rw [if_neg h6, if_neg (by split_ifs <;> omega)]
    · rw [if_neg (by rw [hs]; decide)]
      exact t1.trans b10
  · rw [if_neg (fun h => hs (hst.symm.trans h))]
    refine ⟨rfl, hpm.1, t5.trans b6, t6.trans b7, hpm.2, ?_, fun h => absurd h hs,
      fun _ => t7.trans b4, ?_⟩
    · change Reply.ack (takeBody base p.body).n::(takeBody base p.body).replies = _
      rw [t4, b8, t3, b9]
    · change (if (takeBody base p.body).kState = breakType then
        some ((takeBody base p.body).pos.addr-binStart) else (takeBody base p.body).result) = _
      rw [t2, b1, t1, b10, hpm.1]
      by_cases hb : p.type = breakType
      · rw [if_pos hb, if_pos hb, hp.other (by rw [hb]; decide)]
        rfl
      · rw [if_neg hb, if_neg hb]

/-! ## Damage -/

/-- Up to the sequence number. -/
def Pc.early : Pc → Bool
  | .start | .length | .seq => true
  | _ => false

/-- Since the position was saved only memory behind it was written. -/
structure Since (from' : Position) (mem : ℕ → UInt8) (quote : UInt8) (k : Recv) : Prop where
  saved : k.saved = from'
  ahead : from'.addr ≤ k.pos.addr
  early : k.pc.early = true → k.pos = from'
  mem : ∀ x < from'.addr, k.mem x = mem x
  quote : k.quote = quote

theorem take1_ahead (k : Recv) (c : UInt8) : k.pos.addr ≤ (take1 k c).pos.addr ∧
    ∀ x < k.pos.addr, (take1 k c).mem x = k.mem x := by
  unfold take1 kDataChar osDataChar saveParm
  split_ifs
  · exact ⟨Nat.le_succ _, fun x hx => Function.update_of_ne (Nat.ne_of_lt hx) _ _⟩
  · exact ⟨le_rfl, fun _ _ => rfl⟩
  · exact ⟨Nat.le_succ _, fun x hx => Function.update_of_ne (Nat.ne_of_lt hx) _ _⟩
  · exact ⟨le_rfl, fun _ _ => rfl⟩
  · exact ⟨le_rfl, fun _ _ => rfl⟩
  · exact ⟨le_rfl, fun _ _ => rfl⟩

theorem getc_done (k : Recv) (c : UInt8) (h : k.result.isSome = true) : getc binStart k c = k := by
  rw [getc, if_pos h]

/-- Behind the first character of a packet none below a space is taken. -/
theorem getc_control (k : Recv) (c : UInt8) (hr : k.result = none) (hc : isControl c = true)
    (hs : k.pc ≠ .start) (he : k.pc ≠ .eol) : getc binStart k c = packetError k := by
  have hrun : k.result.isSome = false := by rw [hr]; rfl
  cases hpc : k.pc <;> first | exact absurd hpc hs | exact absurd hpc he |
    simp only [getc, hrun, hpc, hc, Bool.false_eq_true, if_false, if_true]

theorem getc_badCheck (k : Recv) (c : UInt8) (hr : k.result = none) (hc : isControl c = false)
    (hpc : k.pc = .headerCheck ∨ k.pc = .check) (h : c ≠ checkChar k.sum) :
    getc binStart k c = packetError k := by
  have hrun : k.result.isSome = false := by rw [hr]; rfl
  obtain hpc | hpc := hpc
  · simp only [getc, hrun, hpc, hc, Bool.false_eq_true, if_false, if_pos h]
  · simp only [getc, hrun, hpc, hc, Bool.false_eq_true, if_false, if_pos h]

/-- What a character that is not an error leaves. -/
inductive Quiet (from' : Position) (mem : ℕ → UInt8) (quote : UInt8) (k k' : Recv) : Prop where
  | silent : k'.replies = k.replies → Since from' mem quote k' → Quiet from' mem quote k k'
  | ack (n : ℕ) : k'.replies = .ack n::k.replies → Quiet from' mem quote k k'

section Quiet

variable (k : Recv) (from' : Position) (mem : ℕ → UInt8) (quote : UInt8)

theorem quiet_of_same (k' : Recv) (h : Since from' mem quote k) (h1 : k'.replies = k.replies)
    (h2 : k'.saved = k.saved) (h3 : k'.pos = k.pos) (h4 : k'.mem = k.mem) (h5 : k'.quote = k.quote)
    (h6 : k'.pc.early = true → k.pos = from') :
    Quiet from' mem quote k k' := by
  refine .silent h1 ⟨h2.trans h.saved, ?_, fun hp => h3.trans (h6 hp), ?_, h5.trans h.quote⟩
  · rw [h3]
    exact h.ahead
  · rw [h4]
    exact h.mem

theorem accept_acks : ∃ n, (accept binStart k).replies = .ack n::k.replies := by
  unfold accept handleSendPacket
  split_ifs <;> exact ⟨k.n, rfl⟩

theorem not_early (a : Prop) [Decidable a] (x y : Pc) (hx : x.early ≠ true)
    (hy : y.early ≠ true) : (if a then x else y).early ≠ true := by
  split_ifs
  · exact hx
  · exact hy

theorem quiet_data (c : UInt8) (h : Since from' mem quote k) (hpc : k.pc = .data)
    (hr : k.result = none) (hc : isControl c = false) :
    Quiet from' mem quote k (getc binStart k c) := by
  have hk : k = k.at .data k.sum k.length := by rw [← hpc]; rfl
  have h1 := take1_keeps k c
  have h2 := take1_ahead k c
  rw [hk, getc_data binStart k c _ _ hr hc, ← hk]
  refine .silent h1.2.2.1 ⟨h1.2.2.2.2.1.trans h.saved, le_trans h.ahead h2.1, ?_, ?_,
    h1.2.2.2.2.2.2.trans h.quote⟩
  · intro he
    exact absurd he (not_early _ .data .check Bool.false_ne_true Bool.false_ne_true)
  · intro x hx
    rw [← h.mem x hx]
    exact h2.2 x (lt_of_lt_of_le hx h.ahead)

theorem quiet_seq (c : UInt8) (h : Since from' mem quote k) (hpc : k.pc = .seq)
    (hr : k.result = none) (hc : isControl c = false) :
    Quiet from' mem quote k (getc binStart k c) := by
  have hk : k = k.at .seq k.sum k.length := by rw [← hpc]; rfl
  obtain ⟨c1, c2, -, -, c5, c6, c7, -⟩ := checkpoint_origin k (untochar c)
  have ho : k.origin (untochar c) = from' := by
    unfold Recv.origin
    split_ifs
    · exact h.saved
    · exact h.early (by rw [hpc]; rfl)
  rw [hk, getc_seq binStart k c _ _ hr hc, ← hk]
  refine .silent c7 ⟨c2.trans ho, ?_, fun _ => c1.trans ho, ?_, c6.trans h.quote⟩
  · change from'.addr ≤ (checkpoint k (untochar c)).pos.addr
    rw [c1, ho]
  · change ∀ x < from'.addr, (checkpoint k (untochar c)).mem x = mem x
    rw [c5]
    exact h.mem

/-- What one character can do: nothing that is answered, an acknowledgement, or an
error. -/
theorem getc_since (c : UInt8) (h : Since from' mem quote k) (hr : k.result = none) :
    Quiet from' mem quote k (getc binStart k c) ∨ getc binStart k c = packetError k := by
  have hrun : k.result.isSome = false := by rw [hr]; rfl
  have hk : k = k.at k.pc k.sum k.length := rfl
  by_cases hstart : k.pc = .start
  · have he := h.early (by rw [hstart]; rfl)
    left
    simp only [getc, hrun, hstart, Bool.false_eq_true, if_false]
    split_ifs
    · exact quiet_of_same k from' mem quote _ h rfl rfl rfl rfl rfl fun _ => he
    · exact quiet_of_same k from' mem quote _ h rfl rfl rfl rfl rfl fun _ => he
    · exact .silent rfl h
  by_cases heol : k.pc = .eol
  · simp only [getc, hrun, heol, Bool.false_eq_true, if_false]
    split_ifs
    · exact .inr rfl
    · obtain ⟨n, hn⟩ := accept_acks binStart k
      exact .inl (.ack n hn)
  cases hc : isControl c with
  | true => exact .inr (getc_control binStart k c hr hc hstart heol)
  | false =>
    cases hpc : k.pc with
    | start => exact absurd hpc hstart
    | eol => exact absurd hpc heol
    | data => exact .inl (quiet_data binStart k from' mem quote c h hpc hr hc)
    | seq => exact .inl (quiet_seq binStart k from' mem quote c h hpc hr hc)
    | length =>
      rw [hpc] at hk
      rw [hk, getc_length binStart k c _ _ hr hc, ← hk]
      exact .inl (quiet_of_same k from' mem quote _ h rfl rfl rfl rfl rfl
        fun _ => h.early (by rw [hpc]; rfl))
    | type =>
      rw [hpc] at hk
      rw [hk, getc_type binStart k c _ _ hr hc, ← hk]
      refine .inl (quiet_of_same k from' mem quote _ h rfl rfl rfl rfl rfl ?_)
      intro he
      exact absurd he (not_early _ .lenHi _ Bool.false_ne_true
        (not_early _ .data .check Bool.false_ne_true Bool.false_ne_true))
    | lenHi =>
      rw [hpc] at hk
      rw [hk, getc_lenHi binStart k c _ _ hr hc, ← hk]
      exact .inl (quiet_of_same k from' mem quote _ h rfl rfl rfl rfl rfl
        fun he => absurd he Bool.false_ne_true)
    | lenLo =>
      rw [hpc] at hk
      rw [hk, getc_lenLo binStart k c _ _ hr hc, ← hk]
      exact .inl (quiet_of_same k from' mem quote _ h rfl rfl rfl rfl rfl
        fun he => absurd he Bool.false_ne_true)
    | headerCheck =>
      by_cases hsum : c = checkChar k.sum
      · rw [hpc] at hk
        rw [hk, getc_headerCheck binStart k c _ _ hr hc hsum, ← hk]
        exact .inl (quiet_of_same k from' mem quote _ h rfl rfl rfl rfl rfl fun he =>
          absurd he (not_early _ .data .check Bool.false_ne_true Bool.false_ne_true))
      · exact .inr (getc_badCheck binStart k c hr hc (.inl hpc) hsum)
    | check =>
      by_cases hsum : c = checkChar k.sum
      · rw [hpc] at hk
        rw [hk, getc_check binStart k c _ _ hr hc hsum, ← hk]
        exact .inl (quiet_of_same k from' mem quote _ h rfl rfl rfl rfl rfl
          fun he => absurd he Bool.false_ne_true)
      · exact .inr (getc_badCheck binStart k c hr hc (.inr hpc) hsum)

end Quiet

/-- Characters that are answered at the last one, negatively. -/
inductive Damaged : Recv → Chars → Prop where
  | last (k : Recv) (c : UInt8) (m : ℕ) : (getc binStart k c).replies = .nack m::k.replies →
      Damaged k [c]
  | more (k : Recv) (c : UInt8) (w : Chars) : (getc binStart k c).replies = k.replies →
      Damaged (getc binStart k c) w → Damaged k (c::w)

/-- Back where the position was saved. -/
structure SetBack (from' : Position) (mem : ℕ → UInt8) (quote : UInt8) (k : Recv) : Prop where
  pc : k.pc = .start
  pos : k.pos = from'
  saved : k.saved = from'
  mem : ∀ x < from'.addr, k.mem x = mem x
  quote : k.quote = quote
  result : k.result = none
  nack : ∃ m, k.replies.head? = some (.nack m)

theorem damaged_since (k : Recv) (w : Chars) (from' : Position) (mem : ℕ → UInt8) (quote : UInt8)
    (hd : Damaged binStart k w) (h : Since from' mem quote k) :
    SetBack from' mem quote (feed binStart k w) := by
  induction hd with
  | last k c m hm =>
    have hr : k.result = none := by
      cases hr : k.result with
      | none => rfl
      | some v =>
        rw [getc_done binStart k c (by rw [hr]; rfl)] at hm
        exact absurd hm (by simp)
    obtain (⟨hsame, -⟩ | ⟨n, hn⟩) | herr := getc_since binStart k from' mem quote c h hr
    · rw [hsame] at hm
      exact absurd hm (by simp)
    · rw [hn] at hm
      simp at hm
    · change SetBack from' mem quote (getc binStart k c)
      rw [herr]
      exact ⟨rfl, h.saved, h.saved, h.mem, h.quote, hr, k.n, rfl⟩
  | more k c w hm hd ih =>
    rw [feed_cons]
    apply ih
    cases hr : k.result with
    | some v =>
      rw [getc_done binStart k c (by rw [hr]; rfl)]
      exact h
    | none =>
      obtain (⟨-, hs⟩ | ⟨n, hn⟩) | herr := getc_since binStart k from' mem quote c h hr
      · exact hs
      · rw [hn] at hm
        exact absurd hm (by simp)
      · rw [herr] at hm
        exact absurd hm (by simp [packetError])

/-- Damage behind the sequence number of the packet. -/
theorem damaged_behind (k : Recv) (l c : UInt8) (w : Chars) (n : ℕ) (hr : k.result = none)
    (hpc : k.pc = .start) (hl : isControl l = false) (hc : isControl c = false)
    (hn : untochar c = n) (hd : Damaged binStart k (startChar::l::c::w)) :
    SetBack (k.origin n) k.mem k.quote (feed binStart k (startChar::l::c::w)) := by
  have h3 : feed binStart k [startChar, l, c] =
      (checkpoint k.clear n).at .type (0+l.toNat+c.toNat) (untochar l-1) := by
    rw [feed_cons, getc_start binStart k hr hpc, feed_cons,
      getc_length binStart k.clear l _ _ hr hl, feed_cons, getc_seq binStart k.clear c _ _ hr hc, hn]
    rfl
  obtain ⟨c1, c2, -, -, c5, c6, c7, -⟩ := checkpoint_origin k.clear n
  have hsince : Since (k.origin n) k.mem k.quote (feed binStart k [startChar, l, c]) := by
    rw [h3]
    refine ⟨c2, ?_, fun he => absurd he Bool.false_ne_true, ?_, c6⟩
    · change (k.origin n).addr ≤ (checkpoint k.clear n).pos.addr
      rw [c1]
      exact le_rfl
    · intro x _
      change (checkpoint k.clear n).mem x = k.mem x
      rw [c5]
      rfl
  have hquiet : (getc binStart (feed binStart k [startChar, l]) c).replies = k.replies :=
    (congrArg Recv.replies h3).trans c7
  change SetBack (k.origin n) k.mem k.quote (feed binStart (feed binStart k [startChar, l, c]) w)
  refine damaged_since binStart _ w _ _ _ ?_ hsince
  cases hd with
  | more _ _ _ h1 hd =>
    cases hd with
    | more _ _ _ h2 hd =>
      cases hd with
      | last _ _ m hm =>
        rw [h2, h1] at hm
        exact absurd (hm.symm.trans hquiet) (List.cons_ne_self _ _)
      | more _ _ _ _ hd => exact hd

/-! ## Sender and line -/

structure System where
  recv : Recv
  /-- The packet that the sender sends. -/
  idx : ℕ
  /-- The answers when it began to send it. -/
  mark : ℕ

/-- Damage to a packet with a sequence number that leaves the number as it is. -/
def Behind (n : ℕ) (w : Chars) : Prop :=
  ∃ l c rest, w = startChar::l::c::rest ∧ isControl l = false ∧ isControl c = false ∧ untochar c = n

inductive Event where
  /-- The packet arrives, for the first time or again. -/
  | good
  | damaged (w : Chars)
  /-- Characters between packets. -/
  | noise (w : Chars)
  /-- The sender goes on. -/
  | next

inductive Step (ps : List Packet) (s : System) : Event → System → Prop where
  | good (p : Packet) : ps[s.idx]? = some p →
      Step ps s .good { s with recv := feed binStart s.recv (p.wire (s.idx%64)) }
  | damaged (w : Chars) : Damaged binStart s.recv w →
      Step ps s (.damaged w) { s with recv := feed binStart s.recv w }
  | noise (w : Chars) : (∀ c ∈ w, c ≠ startChar ∧ c ≠ etxChar) →
      Step ps s (.noise w) { s with recv := feed binStart s.recv w }
  -- of the answers to its packet one is an acknowledgement
  | next : s.idx+1 < ps.length →
      .ack (s.idx%64) ∈ s.recv.replies.take (s.recv.replies.length-s.mark) →
      Step ps s .next ⟨s.recv, s.idx+1, s.recv.replies.length⟩

/-- The packets of a file: first the one with the parameters, last a break. -/
structure Session (ps : List Packet) (q : UInt8) (file : Chars) : Prop where
  proper : ∀ p ∈ ps, p.Proper q
  send : ∀ i p, ps[i]? = some p → (p.type = sendType ↔ i = 0)
  quote : ∀ p, ps[0]? = some p → announced p.body = q
  last : ∀ i p, ps[i]? = some p → (p.type = breakType ↔ i+1 = ps.length)
  file : file = ps.flatMap Packet.bytes

/-- Memory from the load address holds a file. -/
def Holds (mem : ℕ → UInt8) (file : Chars) : Prop :=
  ∀ i < file.length, mem (binStart+i) = file.getD i 0

/-- `k_recv` has returned the file. -/
def Finished (file : Chars) (k : Recv) : Prop :=
  k.result = some file.length ∧ Holds binStart k.mem file

/-- No damage to the sequence number while data lies behind the saved position, and
the sender goes on only if the last answer was its acknowledgement. -/
def Harmless (s : System) : Event → Prop
  | .damaged w => Behind (s.idx%64) w ∨ s.recv.pos = s.recv.saved
  | .next => s.recv.replies.head? = some (.ack (s.idx%64))
  | _ => True

instance (s : System) : Decidable (Harmless s .next) :=
  inferInstanceAs (Decidable (s.recv.replies.head? = some (.ack (s.idx%64))))

/-- A run from the state before the first character, with steps as allowed. -/
inductive Run (allowed : System → Event → Prop) (ps : List Packet) (mem : ℕ → UInt8) :
    System → Prop where
  | start : Run allowed ps mem ⟨kRecv binStart mem, 0, 0⟩
  | step (s s' : System) (e : Event) : Run allowed ps mem s → allowed s e →
      Step binStart ps s e s' → Run allowed ps mem s'

/-! ## The invariant -/

section Invariant

variable (ps : List Packet)

/-- The bytes of the first packets. -/
def sofar (i : ℕ) : Chars := (ps.take i).flatMap Packet.bytes

theorem sofar_succ (i : ℕ) (p : Packet) (h : ps[i]? = some p) :
    sofar ps (i+1) = sofar ps i ++ p.bytes := by
  unfold sofar
  rw [List.take_add_one, h, List.flatMap_append]
  simp

def Position.behind (bytes : Chars) : Position := ⟨binStart+bytes.length, false⟩

theorem holds_append (mem : ℕ → UInt8) (a b : Chars) (h : Holds binStart mem a) :
    Holds binStart (writeAt mem (binStart+a.length) b) (a ++ b) := by
  intro i hi
  rw [List.length_append] at hi
  by_cases hlt : i < a.length
  · rw [writeAt_below _ _ _ _ (by omega), h i hlt, List.getD_append _ _ _ _ hlt]
  · rw [show binStart+i = binStart+a.length+(i-a.length) by omega,
      writeAt_inside _ _ _ _ (by omega), List.getD_append_right _ _ _ _ (by omega)]

/-- The packet has been received. -/
structure Received (q : UInt8) (s : System) : Prop where
  pos : s.recv.pos = Position.behind binStart (sofar ps (s.idx+1))
  saved : s.recv.saved = Position.behind binStart (sofar ps s.idx)
  lastN : s.recv.lastN = some (s.idx%64)
  quote : s.recv.quote = q
  holds : Holds binStart s.recv.mem (sofar ps (s.idx+1))

/-- The packet has not been received. -/
structure Waiting (q : UInt8) (s : System) : Prop where
  pos : s.recv.pos = Position.behind binStart (sofar ps s.idx)
  saved : s.recv.lastN = some (s.idx%64) → s.recv.saved = s.recv.pos
  quote : 0 < s.idx → s.recv.quote = q
  holds : Holds binStart s.recv.mem (sofar ps s.idx)

structure Running (q : UInt8) (s : System) : Prop where
  pc : s.recv.pc = .start
  result : s.recv.result = none
  received : s.recv.replies.head? = some (.ack (s.idx%64)) → Received binStart ps q s
  waiting : s.recv.replies.head? ≠ some (.ack (s.idx%64)) → Waiting binStart ps q s

variable (q : UInt8) (file : Chars) (s : System)

theorem Running.origin (h : Running binStart ps q s) :
    s.recv.origin (s.idx%64) = Position.behind binStart (sofar ps s.idx) := by
  unfold Recv.origin
  by_cases hh : s.recv.replies.head? = some (.ack (s.idx%64))
  · have hr := h.received hh
    rw [if_pos hr.lastN, hr.saved]
  · have hw := h.waiting hh
    split_ifs with hl
    · rw [hw.saved hl, hw.pos]
    · exact hw.pos

theorem Running.holds (h : Running binStart ps q s) : Holds binStart s.recv.mem (sofar ps s.idx) := by
  by_cases hh : s.recv.replies.head? = some (.ack (s.idx%64))
  · intro i hi
    have hr := (h.received hh).holds
    cases hp : ps[s.idx]? with
    | some p =>
      rw [sofar_succ ps s.idx p hp] at hr
      rw [hr i (by rw [List.length_append]; omega), List.getD_append _ _ _ _ hi]
    | none =>
      have hsame : sofar ps (s.idx+1) = sofar ps s.idx := by
        unfold sofar
        rw [List.take_add_one, hp]
        simp
      rw [hsame] at hr
      exact hr i hi
  · exact (h.waiting hh).holds

theorem Running.quote (h : Running binStart ps q s) (hi : 0 < s.idx) : s.recv.quote = q := by
  by_cases hh : s.recv.replies.head? = some (.ack (s.idx%64))
  · exact (h.received hh).quote
  · exact (h.waiting hh).quote hi

theorem running_start (mem : ℕ → UInt8) : Running binStart ps q ⟨kRecv binStart mem, 0, 0⟩ where
  pc := rfl
  result := rfl
  received := fun h => absurd h (by simp [kRecv])
  waiting := fun _ =>
    { pos := rfl
      saved := fun h => absurd h (by simp [kRecv])
      quote := fun h => absurd h (Nat.lt_irrefl 0)
      holds := fun i hi => absurd hi (Nat.not_lt_zero i) }

/-- Setting back leaves the packets before. -/
theorem running_setBack (h : Running binStart ps q s) (k : Recv)
    (hb : SetBack (Position.behind binStart (sofar ps s.idx)) s.recv.mem s.recv.quote k) :
    Running binStart ps q { s with recv := k } where
  pc := hb.pc
  result := hb.result
  received := fun hh => by
    obtain ⟨m, hm⟩ := hb.nack
    exact absurd (hm.symm.trans hh) (by simp)
  waiting := fun _ =>
    { pos := hb.pos
      saved := fun _ => hb.saved.trans hb.pos.symm
      quote := fun hi => hb.quote.trans (h.quote binStart ps q s hi)
      holds := fun i hi => (hb.mem _ (Nat.add_lt_add_left hi _)).trans (h.holds binStart ps q s i hi) }

theorem running_damaged (h : Running binStart ps q s) (w : Chars) (hd : Damaged binStart s.recv w)
    (hw : Harmless s (.damaged w)) :
    Running binStart ps q { s with recv := feed binStart s.recv w } := by
  apply running_setBack binStart ps q s h
  obtain ⟨l, c, rest, rfl, hl, hc, hn⟩ | hsame := hw
  · rw [← h.origin]
    exact damaged_behind binStart s.recv l c rest _ h.result h.pc hl hc hn hd
  · -- nothing lies behind the saved position
    have ho := h.origin
    unfold Recv.origin at ho
    rw [← hsame, ite_self] at ho
    rw [← ho]
    exact damaged_since binStart s.recv w _ _ _ hd
      ⟨hsame.symm, le_rfl, fun _ => rfl, fun _ _ => rfl, rfl⟩

theorem feed_noise (k : Recv) (w : Chars) (hpc : k.pc = .start)
    (hw : ∀ c ∈ w, c ≠ startChar ∧ c ≠ etxChar) : feed binStart k w = k := by
  induction w with
  | nil => rfl
  | cons c w ih =>
    obtain ⟨h1, h2⟩ := hw c List.mem_cons_self
    have hc : getc binStart k c = k := by
      unfold getc
      rw [hpc]
      simp only [if_neg h1, if_neg h2, ite_self]
    rw [feed_cons, hc, ih fun d hd => hw d (List.mem_cons_of_mem _ hd)]

theorem feed_done (k : Recv) (w : Chars) (h : k.result.isSome = true) : feed binStart k w = k := by
  induction w with
  | nil => rfl
  | cons c w ih => rw [feed_cons, getc_done binStart k c h, ih]

theorem mod_succ_ne (i : ℕ) : (i+1)%64 ≠ i%64 := by
  omega

theorem running_next (h : Running binStart ps q s) (hn : Harmless s .next) (m : ℕ) :
    Running binStart ps q ⟨s.recv, s.idx+1, m⟩ where
  pc := h.pc
  result := h.result
  received := fun hh => by
    have hsame := Option.some.inj (hh.symm.trans hn)
    exact absurd (Reply.ack.inj hsame) (mod_succ_ne s.idx)
  waiting := fun _ =>
    { pos := (h.received hn).pos
      saved := fun hl => absurd (Option.some.inj (hl.symm.trans (h.received hn).lastN))
        (mod_succ_ne s.idx)
      quote := fun _ => (h.received hn).quote
      holds := (h.received hn).holds }

theorem running_good (hs : Session ps q file) (h : Running binStart ps q s) (p : Packet)
    (hp : ps[s.idx]? = some p) :
    Running binStart ps q { s with recv := feed binStart s.recv (p.wire (s.idx%64)) } ∨
      Finished binStart file (feed binStart s.recv (p.wire (s.idx%64))) := by
  have hproper := hs.proper p (List.mem_of_getElem? hp)
  have hq : p.type ≠ sendType → s.recv.quote = q := fun hne =>
    h.quote binStart ps q s (Nat.pos_of_ne_zero fun h0 => hne ((hs.send s.idx p hp).mpr h0))
  have ho := h.origin
  have ha := feed_wire binStart s.recv q p (s.idx%64) hproper (Nat.mod_lt _ (by decide)) h.result h.pc
    (fun hd => hq (by rw [hd]; decide)) (by rw [ho]; rfl)
  generalize feed binStart s.recv (p.wire (s.idx%64)) = k at *
  have hsucc := sofar_succ ps s.idx p hp
  have hholds : Holds binStart k.mem (sofar ps (s.idx+1)) := by
    rw [ha.mem, ho, hsucc]
    exact holds_append binStart _ _ _ (h.holds binStart ps q s)
  by_cases hb : p.type = breakType
  · right
    have hfile : sofar ps (s.idx+1) = file := by
      rw [hs.file, sofar, (hs.last s.idx p hp).mp hb, List.take_length]
    have hlen : (sofar ps s.idx).length = file.length := by
      rw [← hfile, hsucc, hproper.other (by rw [hb]; decide), List.append_nil]
    refine ⟨?_, hfile ▸ hholds⟩
    rw [ha.result, if_pos hb, ho, ← hlen]
    exact congrArg some (Nat.add_sub_cancel_left _ _)
  · left
    refine ⟨ha.pc, ?_, fun _ => ⟨?_, ha.saved.trans ho, ha.lastN, ?_, hholds⟩, fun hh => ?_⟩
    · exact ha.result.trans (if_neg hb)
    · refine ha.pos.trans ?_
      rw [ho, hsucc]
      unfold Position.behind
      rw [List.length_append, Nat.add_assoc]
    · by_cases hst : p.type = sendType
      · rw [ha.sent hst]
        exact hs.quote p ((hs.send s.idx p hp).mp hst ▸ hp)
      · exact (ha.quote hst).trans (hq hst)
    · exact absurd (congrArg List.head? ha.replies) hh

end Invariant

theorem run_inv (ps : List Packet) (q : UInt8) (file : Chars) (mem : ℕ → UInt8) (s : System)
    (hs : Session ps q file) (h : Run binStart Harmless ps mem s) :
    Running binStart ps q s ∨ Finished binStart file s.recv := by
  induction h with
  | start => exact .inl (running_start binStart ps q mem)
  | step s s' e _ hok hstep ih =>
    obtain ih | ih := ih
    · cases hstep with
      | good p hp => exact running_good binStart ps q file s hs ih p hp
      | damaged w hd => exact .inl (running_damaged binStart ps q s ih w hd hok)
      | noise w hw =>
        rw [feed_noise binStart _ w ih.pc hw]
        exact .inl ih
      | next _ _ => exact .inl (running_next binStart ps q s ih hok _)
    · right
      have hdone : s.recv.result.isSome = true := by rw [ih.1]; rfl
      cases hstep with
      | good p hp => exact (feed_done binStart _ _ hdone).symm ▸ ih
      | damaged w hd => exact (feed_done binStart _ _ hdone).symm ▸ ih
      | noise w hw => exact (feed_done binStart _ _ hdone).symm ▸ ih
      | next _ _ => exact ih

/-- Whenever `k_recv` has returned in a harmless run, memory holds the file and the
size is its length. -/
theorem kermit_receives (ps : List Packet) (q : UInt8) (file : Chars) (mem : ℕ → UInt8) (s : System)
    (size : ℕ) (hs : Session ps q file) (h : Run binStart Harmless ps mem s)
    (hsize : s.recv.result = some size) : size = file.length ∧ Holds binStart s.recv.mem file := by
  obtain hrun | hdone := run_inv binStart ps q file mem s hs h
  · rw [hrun.result] at hsize
    exact absurd hsize (by simp)
  · exact ⟨Option.some.inj (hsize.symm.trans hdone.1), hdone.2⟩

/-! ## Two files -/

def sendPacket : Packet := ⟨sendType, [], [], false⟩
def breakPacket : Packet := ⟨breakType, [], [], false⟩

/-- `A` and a control character. -/
def quotedPacket : Packet := ⟨dataType, [0x41, kEscape, 0x41], [0x41, 0x01], true⟩

def plainPacket : Packet := ⟨dataType, [0x43], [0x43], false⟩

theorem plain_proper (p : Packet) (ht : isControl p.type = false) (hb : p.body = [])
    (hd : p.type ≠ dataType) (he : p.bytes = []) : p.Proper kEscape where
  type := ht
  body := by simp [hb]
  data := fun h => absurd h hd
  other := fun _ => he
  short := by simp [hb]
  room := by simp [hb]

set_option maxRecDepth 4000 in
theorem quotedPacket_proper : quotedPacket.Proper kEscape where
  type := by decide
  body := by decide
  data := fun _ => .plain _ _ _ (by decide) (by decide) (.quoted _ _ _ (by decide) .nil)
  other := fun h => absurd rfl h
  short := fun _ => by decide
  room := by decide

set_option maxRecDepth 4000 in
theorem plainPacket_proper : plainPacket.Proper kEscape where
  type := by decide
  body := by decide
  data := fun _ => .plain _ _ _ (by decide) (by decide) .nil
  other := fun h => absurd rfl h
  short := fun _ => by decide
  room := by decide

theorem session_two : Session [sendPacket, quotedPacket, plainPacket, breakPacket] kEscape
    [0x41, 0x01, 0x43] where
  proper := by
    intro p hp
    simp only [List.mem_cons, List.not_mem_nil, or_false] at hp
    obtain rfl | rfl | rfl | rfl := hp
    · exact plain_proper _ (by decide) rfl (by decide) rfl
    · exact quotedPacket_proper
    · exact plainPacket_proper
    · exact plain_proper _ (by decide) rfl (by decide) rfl
  send := by
    intro i p hp
    rcases i with _ | _ | _ | _ | i
    · cases hp
      decide
    · cases hp
      decide
    · cases hp
      decide
    · cases hp
      decide
    · exact absurd hp (by simp)
  quote := by
    intro p hp
    cases hp
    rfl
  last := by
    intro i p hp
    rcases i with _ | _ | _ | _ | i
    · cases hp
      decide
    · cases hp
      decide
    · cases hp
      decide
    · cases hp
      decide
    · exact absurd hp (by simp)
  file := rfl

def demoPackets : List Packet := [sendPacket, quotedPacket, plainPacket, breakPacket]

/-- The second packet comes again, damaged behind its number, and again. -/
theorem kermit_receives_two : ∃ s : System, Run 0 Harmless demoPackets (fun _ => 0) s ∧
    s.recv.result = some 3 ∧ 3 = [0x41, 0x01, 0x43].length ∧
      Holds 0 s.recv.mem [0x41, 0x01, 0x43] := by
  have r0 : Run 0 Harmless demoPackets (fun _ => 0) _ := .start
  have r1 := r0.step _ _ .good trivial (.good sendPacket rfl)
  have r2 := r1.step _ _ .next (by decide)
    (.next (by decide) (by decide))
  have r3 := r2.step _ _ .good trivial (.good quotedPacket rfl)
  have r4 := r3.step _ _ (.damaged [startChar, tochar 0, tochar 1, 0x05])
    (.inl ⟨tochar 0, tochar 1, [0x05], rfl, by decide, by decide, by decide⟩)
    (.damaged _ (.more _ _ _ (by decide) (.more _ _ _ (by decide)
      (.more _ _ _ (by decide) (.last _ _ 1 (by decide))))))
  have r5 := r4.step _ _ .good trivial (.good quotedPacket rfl)
  have r6 := r5.step _ _ .next (by decide)
    (.next (by decide) (by decide))
  have r7 := r6.step _ _ .good trivial (.good plainPacket rfl)
  have r8 := r7.step _ _ .next (by decide)
    (.next (by decide) (by decide))
  have r9 := r8.step _ _ .good trivial (.good breakPacket rfl)
  exact ⟨_, r9, by decide, kermit_receives 0 _ _ _ _ _ 3 session_two r9 (by decide)⟩

set_option maxRecDepth 4000 in
/-- A length damaged to a control character, after a packet that was acknowledged:
the position is set back to where that packet began. -/
theorem length_damage_loses : ¬∀ (ps : List Packet) (q : UInt8) (file : Chars) (mem : ℕ → UInt8)
    (s : System) (size : ℕ), Session ps q file → Run 0 (fun _ _ => True) ps mem s →
      s.recv.result = some size → size = file.length ∧ Holds 0 s.recv.mem file := by
  intro h
  have r0 : Run 0 (fun _ _ => True) demoPackets (fun _ => 0) _ := .start
  have r1 := r0.step _ _ .good trivial (.good sendPacket rfl)
  have r2 := r1.step _ _ .next trivial (.next (by decide) (by decide))
  have r3 := r2.step _ _ .good trivial (.good quotedPacket rfl)
  have r4 := r3.step _ _ .next trivial (.next (by decide) (by decide))
  have r5 := r4.step _ _ (.damaged [startChar, 0x04]) trivial
    (.damaged _ (.more _ _ _ (by decide) (.last _ _ 1 (by decide))))
  have r6 := r5.step _ _ (.noise ((plainPacket.wire 2).drop 2)) trivial (.noise _ (by decide))
  have r7 := r6.step _ _ .good trivial (.good plainPacket rfl)
  have r8 := r7.step _ _ .next trivial (.next (by decide) (by decide))
  have r9 := r8.step _ _ .good trivial (.good breakPacket rfl)
  have hsize := (h _ _ _ _ _ 1 session_two r9 (by decide)).1
  exact absurd hsize (by decide)

end UBoot.Kermit
