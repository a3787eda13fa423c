import UBoot.SRecordDecode

/-!
# Saving and loading S-records

The text of `save_serial` is a row of records of sixteen bytes between two fixed
lines. `load_serial` puts each record back where it has been taken, and keeps the
lowest start and the highest end of all records for the size.
-/

set_option autoImplicit false

namespace UBoot.SRecord
open UBoot.HexText

/-! ## The records of a text -/

def byteTotal (bytes : List UInt8) : ℕ := (bytes.map UInt8.toNat).sum

/-- The record of some bytes. -/
def recordOf (address : UInt32) (bytes : List UInt8) : List UInt8 :=
  srec3Record (4+bytes.length+1) address (pairs upperA bytes)
    (255-(byteTotal bytes+byteSum 2 (4+bytes.length+1)+byteSum 4 address.toNat) % 256)

@[simp] theorem length_load (mem : Memory) (src : UInt32) (n : ℕ) : (load mem src n).length = n := by
  rw [load, List.length_map, List.length_range]

theorem ofNat_succ (a : UInt32) (n : ℕ) : a+UInt32.ofNat (n+1) = a+UInt32.ofNat n+1 := by
  apply UInt32.toNat_inj.mp
  simp only [UInt32.toNat_add, UInt32.toNat_ofNat']
  change (a.toNat+(n+1) % 2^32) % 2^32 = ((a.toNat+n % 2^32) % 2^32+1) % 2^32
  omega

theorem load_succ (mem : Memory) (src : UInt32) (n : ℕ) :
    load mem src (n+1) = mem src :: load mem (src+1) n := by
  have hnext : ∀ i, src+1+UInt32.ofNat i = src+UInt32.ofNat (i+1) := by
    intro i
    rw [ofNat_succ, UInt32.add_assoc, UInt32.add_comm 1, ← UInt32.add_assoc]
  have hzero : src+UInt32.ofNat 0 = src := by
    change src+0 = src
    simp
  rw [load, List.range_succ_eq_map, List.map_cons, List.map_map, hzero]
  congr 1
  apply List.map_congr_left
  intro i _
  exact congrArg mem (hnext i).symm

/-- The loop collects bytes until the record is full or the count is used up. -/
theorem saveLoop_collect (ctrlc : ℕ → Bool) (mem : Memory) (k count n : ℕ) (address : UInt32)
    (reclen checksum : ℕ) (data : List UInt8) (hle : k+1 ≤ count)
    (hend : reclen+(k+1) = 16 ∨ k+1 = count) (hfull : reclen+(k+1) ≤ 16) :
    saveLoop ctrlc mem count n address reclen checksum data =
      let bytes := load mem (address+UInt32.ofNat reclen) (k+1)
      writeRecord (ctrlc n) (srec3Record (4+(reclen+(k+1))+1) address (data ++ pairs upperA bytes)
          (255-(checksum+byteTotal bytes+byteSum 2 (4+(reclen+(k+1))+1)+byteSum 4 address.toNat) % 256))
        (saveLoop ctrlc mem (count-(k+1)) (n+1) (address+UInt32.ofNat (reclen+(k+1))) 0 0 []) := by
  induction k generalizing count reclen checksum data with
  | zero =>
    obtain ⟨count, rfl⟩ : ∃ c, count = c+1 := ⟨count-1, by omega⟩
    have hdump : reclen+1 = srecBytesPerRecord ∨ count = 0 := by
      rcases hend with h | h
      · exact Or.inl h
      · exact Or.inr (by omega)
    rw [saveLoop]
    dsimp only
    rw [if_pos hdump, load_succ]
    simp [byteTotal, pairs, load]
  | succ k ih =>
    obtain ⟨count, rfl⟩ : ∃ c, count = c+1 := ⟨count-1, by omega⟩
    have hgo : ¬(reclen+1 = srecBytesPerRecord ∨ count = 0) := by
      have : srecBytesPerRecord = 16 := rfl
      omega
    rw [saveLoop]
    dsimp only
    rw [if_neg hgo, ih count (reclen+1) _ _ (by omega) (by omega) (by omega),
      load_succ mem _ (k+1), ofNat_succ, show reclen+1+(k+1) = reclen+(k+1+1) by omega,
      show count+1-(k+1+1) = count-(k+1) by omega]
    dsimp only
    rw [pairs, pairs, List.flatMap_cons, List.append_assoc]
    congr 2
    simp only [byteTotal, List.map_cons, List.sum_cons]
    omega

/-- A record of at most sixteen bytes is written, and the loop starts again behind it. -/
theorem saveLoop_record (ctrlc : ℕ → Bool) (mem : Memory) (count n : ℕ) (address : UInt32)
    (hpos : 0 < count) :
    saveLoop ctrlc mem count n address 0 0 [] =
      writeRecord (ctrlc n) (recordOf address (load mem address (min 16 count)))
        (saveLoop ctrlc mem (count-min 16 count) (n+1)
          (address+UInt32.ofNat (min 16 count)) 0 0 []) := by
  obtain ⟨k, hk⟩ : ∃ k, min 16 count = k+1 := ⟨min 16 count-1, by omega⟩
  have hzero : address+UInt32.ofNat 0 = address := by
    change address+0 = address
    simp
  rw [saveLoop_collect ctrlc mem k count n address 0 0 [] (by omega) (by omega) (by omega), hk,
    hzero, recordOf]
  simp

/-! ## Decoding a record of the text -/

theorem byteTotal_append (as bs : List UInt8) :
    byteTotal (as ++ bs) = byteTotal as+byteTotal bs := by
  rw [byteTotal, List.map_append, List.sum_append, byteTotal, byteTotal]

theorem sum_toNat (bs : List UInt8) : bs.sum.toNat = byteTotal bs % 256 := by
  induction bs with
  | nil => rfl
  | cons b bs ih =>
    rw [List.sum_cons, UInt8.toNat_add, ih, byteTotal, byteTotal, List.map_cons, List.sum_cons]
    change (b.toNat+(bs.map UInt8.toNat).sum % 256) % 256 = _
    omega

theorem byteTotal_be (n v : ℕ) : byteTotal (be n v) = byteSum n v := by
  induction n generalizing v with
  | zero => rfl
  | succ n ih =>
    rw [be_succ, byteTotal_append, ih, byteSum]
    simp only [byteTotal, List.map_cons, List.map_nil, List.sum_cons, List.sum_nil,
      UInt8.toNat_ofNat']
    omega

/-- The complement in an `int` and the one in a byte are the same checksum. -/
theorem checksum_byte (field : UInt8) (address data : List UInt8) (total : ℕ)
    (h : total % 256 = (field.toNat+byteTotal address+byteTotal data) % 256) :
    UInt8.ofNat (255-total % 256) = checksumOf field address data := by
  apply UInt8.toNat_inj.mp
  rw [checksumOf, UInt8.toNat_not, UInt8.toNat_add, UInt8.toNat_add, sum_toNat, sum_toNat,
    UInt8.toNat_ofNat']
  change (255-total % 256) % 256 = 256-1-_
  omega

theorem addressOf_be (a : UInt32) : addressOf (be 4 a.toNat) = a := by
  apply UInt32.toNat_inj.mp
  have hlt := a.toNat_lt
  have hvalue : ofBe (be 4 a.toNat) = a.toNat % 256^4 := by
    rw [ofBe, be, List.reverse_reverse, LittleEndian.ofLe_le]
  rw [addressOf_short _ (by rw [length_be]), hvalue]
  omega

/-- The characters of a record in front of the end of its line. -/
def recordLine (address : UInt32) (bytes : List UInt8) : List UInt8 :=
  83 :: 51 :: pairs upperA (UInt8.ofNat (4+bytes.length+1) :: (be 4 address.toNat ++ (bytes ++
    [UInt8.ofNat (255-(byteTotal bytes+byteSum 2 (4+bytes.length+1)+
      byteSum 4 address.toNat) % 256)])))

theorem recordOf_line (address : UInt32) (bytes : List UInt8) :
    recordOf address bytes = recordLine address bytes ++ [10] := by
  rw [recordOf, recordLine, srec3Record]
  simp only [pairs, List.flatMap_cons, List.flatMap_append, List.flatMap_nil, List.append_assoc,
    List.cons_append, List.append_nil]

/-- A record of up to 250 bytes is decoded to its bytes. -/
theorem decode_recordLine (address : UInt32) (bytes : List UInt8) (hlen : bytes.length ≤ 250)
    (count0 : ℤ) (addr0 : UInt32) :
    srecDecode (recordLine address bytes ++ [0]) count0 addr0 =
      some ⟨srecData4, bytes.length, address, bytes⟩ := by
  have hfield : (UInt8.ofNat (4+bytes.length+1)).toNat = 4+bytes.length+1 := by
    rw [UInt8.toNat_ofNat']
    omega
  have htype : recordType 51 ((UInt8.ofNat (4+bytes.length+1)).toNat : ℤ) =
      some (srecData4, (bytes.length : ℤ)) := by
    rw [hfield, recordType]
    congr 2
    omega
  have hdigits := digits_pairs upperA (Or.inr rfl)
  have hrow := fun bs => bytesOf_pairs upperA (Or.inr rfl) bs []
  have h := srecDecode_record [] _ [0] 51 (UInt8.ofNat (4+bytes.length+1))
    (UInt8.ofNat (255-(byteTotal bytes+byteSum 2 (4+bytes.length+1)+byteSum 4 address.toNat) % 256))
    (be 4 address.toNat) bytes _ _ count0 addr0 (by simp) (by simp) htype (hdigits _)
    (length_pairs upperA _) (by
      have hb := hrow (UInt8.ofNat (4+bytes.length+1) :: (be 4 address.toNat ++ (bytes ++
        [UInt8.ofNat (255-(byteTotal bytes+byteSum 2 (4+bytes.length+1)+
          byteSum 4 address.toNat) % 256)])))
      rw [List.append_nil] at hb
      rw [hb, bytesOf, List.append_nil]
      simp) (length_be 4 _) (by rw [Int.toNat_natCast])
    (checksum_byte _ _ _ _ (by
      rw [hfield, byteTotal_be, byteSum, byteSum, byteSum]
      omega))
  rw [addressOf_be] at h
  exact h

/-! ## Reading a line -/

/-- The characters that end no line and no loading. -/
def Plain (line : List UInt8) : Prop := ∀ c ∈ line, c ≠ 13 ∧ c ≠ 10 ∧ c ≠ 0 ∧ c ≠ 3

theorem readRecord_line (n : ℕ) (line rest : List UInt8) (e : UInt8) (he : e = 13 ∨ e = 10)
    (hp : Plain line) (hlen : line.length < n) :
    readRecord n (line ++ e :: rest) = some (some line, rest) := by
  induction line generalizing n with
  | nil =>
    obtain ⟨n, rfl⟩ : ∃ m, n = m+1 := ⟨n-1, by simp at hlen; omega⟩
    rw [List.nil_append, readRecord, if_pos he]
  | cons c line ih =>
    rw [List.length_cons] at hlen
    obtain ⟨n, rfl⟩ : ∃ m, n = m+1 := ⟨n-1, by omega⟩
    obtain ⟨hc, hline⟩ := List.forall_mem_cons.mp hp
    rw [List.cons_append, readRecord, if_neg (by tauto), if_neg (by tauto),
      ih n hline (by omega)]
    rfl

theorem wire_append (carriage : Bool) (s t : List UInt8) :
    wire carriage (s ++ t) = wire carriage s ++ wire carriage t := List.flatMap_append ..

theorem wire_plain (carriage : Bool) (s : List UInt8) (h : Plain s) : wire carriage s = s := by
  induction s with
  | nil => rfl
  | cons c s ih =>
    obtain ⟨hc, hs⟩ := List.forall_mem_cons.mp h
    rw [wire, List.flatMap_cons, ← wire, ih hs, if_neg (fun h => hc.2.1 h.2)]
    rfl

/-- Every digit that is printed is plain. -/
theorem plain_pairs (bs : List UInt8) : Plain (pairs upperA bs) := by
  intro c hc
  have hdigit := digits_pairs upperA (Or.inr rfl) bs c hc
  refine ⟨?_, ?_, ?_, ?_⟩ <;> rintro rfl <;> exact absurd hdigit (by decide)

theorem plain_recordLine (address : UInt32) (bytes : List UInt8) :
    Plain (recordLine address bytes) := by
  refine List.forall_mem_cons.mpr ⟨by decide, List.forall_mem_cons.mpr ⟨by decide, ?_⟩⟩
  exact plain_pairs _

/-! ## A turn of the loader -/

section Loader
variable (flash : Flash)

/-- The loader after a data record. -/
def Loading.stored (s : Loading) (address : UInt32) (bytes : List UInt8) : Loading :=
  let last := address+UInt32.ofNat bytes.length-1
  ⟨copy s.mem address bytes, if address < s.startAddr then address else s.startAddr,
    if last > s.endAddr then last else s.endAddr, bytes.length, address⟩

theorem ofInt_length (n : ℕ) : UInt32.ofInt (n : ℤ) = UInt32.ofNat n := by
  apply UInt32.toNat_inj.mp
  rw [UInt32.ofInt, UInt32.toNat_ofNat', UInt32.toNat_ofNat']
  omega

theorem loadLoop_data (turns : ℕ) (line rest : List UInt8) (e : UInt8) (he : e = 13 ∨ e = 10)
    (hp : Plain line) (hlen : line.length < srecMaxreclen) (s : Loading) (address : UInt32)
    (bytes : List UInt8) (hflash : flash.addr2info address = false)
    (hdec : srecDecode (line ++ [0]) s.binlen s.addr =
      some ⟨srecData4, bytes.length, address, bytes⟩) :
    loadLoop flash 0 (turns+1) (line ++ e :: rest) s =
      loadLoop flash 0 turns rest (s.stored address bytes) := by
  have hpos : ¬((bytes.length : ℤ) < 0) := by omega
  rw [loadLoop, readRecord_line _ line rest e he hp hlen]
  simp only [Option.bind_eq_bind, Option.bind_some, hdec, UInt32.add_zero, storeRecord, hflash]
  rw [if_neg (by decide), if_pos (by decide), if_neg (by decide), if_neg hpos]
  simp only [Option.bind_some, ofInt_length]
  rfl

theorem loadLoop_other (turns : ℕ) (line rest : List UInt8) (e : UInt8) (he : e = 13 ∨ e = 10)
    (hp : Plain line) (hlen : line.length < srecMaxreclen) (s : Loading) (d : Decoded)
    (htype : d.type = srecStart ∨ d.type = srecEmpty)
    (hdec : srecDecode (line ++ [0]) s.binlen s.addr = some d) :
    loadLoop flash 0 (turns+1) (line ++ e :: rest) s =
      loadLoop flash 0 turns rest { s with binlen := d.count, addr := d.addr } := by
  rw [loadLoop, readRecord_line _ line rest e he hp hlen]
  simp only [Option.bind_eq_bind, Option.bind_some, hdec]
  rcases htype with htype | htype <;>
    rw [htype, if_neg (by decide), if_neg (by decide), if_neg (by decide)]

/-- An empty line changes nothing. -/
theorem loadLoop_empty (turns : ℕ) (rest : List UInt8) (s : Loading) :
    loadLoop flash 0 (turns+1) (10 :: rest) s = loadLoop flash 0 turns rest s :=
  loadLoop_other flash turns [] rest 10 (Or.inr rfl) (by simp [Plain]) (by decide) s
    ⟨srecEmpty, s.binlen, s.addr, []⟩ (Or.inr rfl) rfl

theorem loadLoop_end (turns : ℕ) (line rest : List UInt8) (e : UInt8) (he : e = 13 ∨ e = 10)
    (hp : Plain line) (hlen : line.length < srecMaxreclen) (s : Loading)
    (hdec : srecDecode (line ++ [0]) s.binlen s.addr = some ⟨srecEnd4, 0, 0, []⟩) :
    loadLoop flash 0 (turns+1) (line ++ e :: rest) s =
      some ⟨0, s.mem, some (s.endAddr-s.startAddr+1)⟩ := by
  rw [loadLoop, readRecord_line _ line rest e he hp hlen]
  simp only [Option.bind_eq_bind, Option.bind_some, hdec]
  rw [if_neg (by decide), if_neg (by decide), if_pos (by decide)]

theorem length_recordLine (address : UInt32) (bytes : List UInt8) :
    (recordLine address bytes).length = 14+2*bytes.length := by
  rw [recordLine, List.length_cons, List.length_cons, length_pairs]
  simp only [List.length_cons, List.length_append, length_be, List.length_nil]
  omega

/-- A record takes a turn, and another one for the carriage return. -/
theorem loadLoop_record (carriage : Bool) (turns : ℕ) (address : UInt32) (bytes rest : List UInt8)
    (hlen : bytes.length ≤ 250) (hflash : flash.addr2info address = false) (s : Loading)
    (hturns : (wire carriage (recordOf address bytes) ++ rest).length < turns) :
    ∃ turns', rest.length < turns' ∧
      loadLoop flash 0 turns (wire carriage (recordOf address bytes) ++ rest) s =
        loadLoop flash 0 turns' rest (s.stored address bytes) := by
  have hp := plain_recordLine address bytes
  have hline : (recordLine address bytes).length < srecMaxreclen := by
    rw [length_recordLine, srecMaxreclen]
    omega
  have hdec := decode_recordLine address bytes hlen s.binlen s.addr
  rw [recordOf_line, wire_append, wire_plain carriage _ hp, List.append_assoc] at hturns ⊢
  cases carriage with
  | false =>
    rw [show wire false [10] = [10] from rfl] at hturns ⊢
    simp only [List.length_append, List.length_singleton] at hturns
    obtain ⟨turns, rfl⟩ : ∃ t, turns = t+1 := ⟨turns-1, by omega⟩
    exact ⟨turns, by omega,
      loadLoop_data flash turns _ rest 10 (Or.inr rfl) hp hline s address bytes hflash hdec⟩
  | true =>
    rw [show wire true [10] = [13, 10] from rfl] at hturns ⊢
    simp only [List.length_append, List.length_cons, List.length_nil] at hturns
    obtain ⟨turns, rfl⟩ : ∃ t, turns = t+1+1 := ⟨turns-2, by omega⟩
    refine ⟨turns, by omega, ?_⟩
    exact (loadLoop_data flash (turns+1) _ (10 :: rest) 13 (Or.inl rfl) hp hline s address bytes
      hflash hdec).trans (loadLoop_empty flash turns rest _)

end Loader

/-! ## The whole text -/

/-- The lowest start and the highest end of the records in the first `p` bytes from `a` on, where
`2^32-a` bytes stand in front of the address zero. -/
def Bounds (a p start last : ℕ) : Prop :=
  let w := 2^32-a
  if p = 0 then start = 2^32-1 ∧ last = 0
  else start = (if (w+15)/16*16 < p then (w+15)/16*16-w else a) ∧
    last = if p ≤ w then a+p-1 else if 16 ≤ w then a+w/16*16-1 else p-w-1

theorem bounds_step (a p m start last : ℕ) (ha : a < 2^32) (hp : p % 16 = 0) (hm : 0 < m)
    (hm16 : m ≤ 16) (hpm : p+m < 2^32) (h : Bounds a p start last) :
    Bounds a (p+m) (if (a+p) % 2^32 < start then (a+p) % 2^32 else start)
      (if last < ((a+p) % 2^32+m+2^32-1) % 2^32 then ((a+p) % 2^32+m+2^32-1) % 2^32 else last) := by
  unfold Bounds at h ⊢
  dsimp only at h ⊢
  rw [if_neg (by omega : ¬p+m = 0)]
  by_cases hp0 : p = 0
  · subst hp0
    rw [if_pos rfl] at h
    obtain ⟨rfl, rfl⟩ := h
    rw [Nat.add_zero, Nat.zero_add, Nat.mod_eq_of_lt ha]
    constructor <;> split_ifs <;> omega
  · rw [if_neg hp0] at h
    obtain ⟨rfl, rfl⟩ := h
    constructor <;> split_ifs <;> omega

/-- The first `p` bytes from `a` on are those of `src`, and the others as before. -/
def Copied (src mem0 : Memory) (a : UInt32) (p : ℕ) (mem : Memory) : Prop :=
  ∀ x, mem x = if (x-a).toNat < p then src x else mem0 x

theorem getD_load (src : Memory) (d : UInt32) (n i : ℕ) (v : UInt8) (hi : i < n) :
    (load src d n).getD i v = src (d+UInt32.ofNat i) := by
  have hget : (load src d n)[i]? = some (src (d+UInt32.ofNat i)) := by
    rw [load, List.getElem?_map, List.getElem?_range hi]
    rfl
  rw [List.getD_eq_getElem?_getD, hget, Option.getD_some]

theorem copied_step (src mem0 mem : Memory) (a : UInt32) (p m : ℕ) (hpm : p+m < 2^32)
    (h : Copied src mem0 a p mem) :
    Copied src mem0 a (p+m) (copy mem (a+UInt32.ofNat p) (load src (a+UInt32.ofNat p) m)) := by
  intro x
  have hlt := x.toNat_lt
  have halt := a.toNat_lt
  have hx : (x-(a+UInt32.ofNat p)).toNat = ((x-a).toNat+(2^32-p)) % 2^32 := by
    rw [UInt32.toNat_sub, UInt32.toNat_sub, UInt32.toNat_add, UInt32.toNat_ofNat']
    omega
  have hoff := (x-a).toNat_lt
  have hback : a+UInt32.ofNat p+UInt32.ofNat (x-(a+UInt32.ofNat p)).toNat = x := by
    rw [UInt32.ofNat_toNat, UInt32.add_comm, UInt32.sub_add_cancel]
  rw [copy, h x]
  by_cases hm : (x-(a+UInt32.ofNat p)).toNat < m
  · rw [getD_load src _ m _ _ hm, hback, if_pos (by omega)]
  · rw [List.getD_eq_getElem?_getD, List.getElem?_eq_none (by rw [length_load]; omega),
      Option.getD_none]
    split_ifs <;> first | rfl | omega

/-- The loader with the first `p` of the bytes from `a` on. -/
structure Loads (src mem0 : Memory) (a : UInt32) (p : ℕ) (s : Loading) : Prop where
  copied : Copied src mem0 a p s.mem
  bounds : Bounds a.toNat p s.startAddr.toNat s.endAddr.toNat

theorem loads_step (src mem0 : Memory) (a : UInt32) (p m : ℕ) (s : Loading) (hp : p % 16 = 0)
    (hm : 0 < m) (hm16 : m ≤ 16) (hpm : p+m < 2^32) (h : Loads src mem0 a p s) :
    Loads src mem0 a (p+m) (s.stored (a+UInt32.ofNat p) (load src (a+UInt32.ofNat p) m)) := by
  refine ⟨copied_step src mem0 s.mem a p m hpm h.copied, ?_⟩
  have hstep := bounds_step a.toNat p m _ _ a.toNat_lt hp hm hm16 hpm h.bounds
  have hstore : (a+UInt32.ofNat p).toNat = (a.toNat+p) % 2^32 := by
    rw [UInt32.toNat_add, UInt32.toNat_ofNat']
    omega
  have hlast : (a+UInt32.ofNat p+UInt32.ofNat m-1).toNat =
      ((a.toNat+p) % 2^32+m+2^32-1) % 2^32 := by
    rw [UInt32.toNat_sub, UInt32.toNat_add, hstore, UInt32.toNat_ofNat', UInt32.toNat_one]
    omega
  simp only [Loading.stored, length_load]
  rw [apply_ite UInt32.toNat, apply_ite UInt32.toNat]
  simp only [gt_iff_lt, UInt32.lt_iff_toNat_lt, hstore, hlast]
  exact hstep

theorem writeRecord_done (ctrlc : Bool) (record : List UInt8) (next : Saved)
    (h : (writeRecord ctrlc record next).rval = 0) :
    (writeRecord ctrlc record next).text = record ++ next.text ∧ next.rval = 0 := by
  unfold writeRecord at h ⊢
  split_ifs at h ⊢
  · exact absurd h (show ¬((-1 : ℤ) = 0) by decide)
  · exact ⟨rfl, h⟩

theorem loadLoop_srec3End (flash : Flash) (carriage : Bool) (turns : ℕ) (s : Loading)
    (hturns : 0 < turns) :
    loadLoop flash 0 turns (wire carriage srec3End) s =
      some ⟨0, s.mem, some (s.endAddr-s.startAddr+1)⟩ := by
  obtain ⟨turns, rfl⟩ : ∃ t, turns = t+1 := ⟨turns-1, by omega⟩
  have hplain : Plain srec3End.dropLast := by simp [Plain, srec3End]
  cases carriage with
  | false =>
    exact loadLoop_end flash turns srec3End.dropLast [] 10 (Or.inr rfl) hplain (by decide) s rfl
  | true =>
    exact loadLoop_end flash turns srec3End.dropLast [10] 13 (Or.inl rfl) hplain (by decide) s rfl

/-- The line in front of the records leaves the memory and the bounds alone. -/
theorem loadLoop_srec3Start (flash : Flash) (carriage : Bool) (turns : ℕ) (rest : List UInt8)
    (s : Loading) (hturns : (wire carriage srec3Start ++ rest).length < turns) :
    ∃ turns', rest.length < turns' ∧ loadLoop flash 0 turns (wire carriage srec3Start ++ rest) s =
      loadLoop flash 0 turns' rest { s with binlen := 0, addr := 0 } := by
  have hplain : Plain srec3Start.dropLast := by simp [Plain, srec3Start]
  cases carriage with
  | false =>
    rw [show wire false srec3Start = srec3Start.dropLast ++ [10] by decide, List.append_assoc]
      at hturns ⊢
    simp only [List.length_append, List.length_singleton] at hturns
    obtain ⟨turns, rfl⟩ : ∃ t, turns = t+1 := ⟨turns-1, by omega⟩
    exact ⟨turns, by omega, loadLoop_other flash turns srec3Start.dropLast rest 10 (Or.inr rfl)
      hplain (by decide) s ⟨srecStart, 0, 0, []⟩ (Or.inl rfl) rfl⟩
  | true =>
    rw [show wire true srec3Start = srec3Start.dropLast ++ [13, 10] by decide, List.append_assoc]
      at hturns ⊢
    simp only [List.length_append, List.length_cons, List.length_nil] at hturns
    obtain ⟨turns, rfl⟩ : ∃ t, turns = t+1+1 := ⟨turns-2, by omega⟩
    refine ⟨turns, by omega, ?_⟩
    exact (loadLoop_other flash (turns+1) srec3Start.dropLast (10 :: rest) 13 (Or.inl rfl) hplain
      (by decide) s ⟨srecStart, 0, 0, []⟩ (Or.inl rfl) rfl).trans (loadLoop_empty flash turns rest _)

/-- From any number of records on, the loader gets the others and ends. -/
theorem load_records (ctrlc : ℕ → Bool) (flash : Flash) (carriage : Bool) (src mem0 : Memory)
    (a : UInt32) (left p n turns : ℕ) (s : Loading) (hsize : p+left < 2^32)
    (hp : p % 16 = 0 ∨ left = 0)
    (hflash : ∀ i < p+left, flash.addr2info (a+UInt32.ofNat i) = false)
    (hdone : (saveLoop ctrlc src left n (a+UInt32.ofNat p) 0 0 []).rval = 0)
    (hturns : (wire carriage (saveLoop ctrlc src left n (a+UInt32.ofNat p) 0 0 []).text).length < turns)
    (h : Loads src mem0 a p s) :
    ∃ s', Loads src mem0 a (p+left) s' ∧
      loadLoop flash 0 turns (wire carriage
        (saveLoop ctrlc src left n (a+UInt32.ofNat p) 0 0 []).text) s =
          some ⟨0, s'.mem, some (s'.endAddr-s'.startAddr+1)⟩ := by
  induction left using Nat.strong_induction_on generalizing p n turns s with
  | _ left ih =>
    by_cases hleft : left = 0
    · subst hleft
      rw [saveLoop] at hdone hturns ⊢
      obtain ⟨htext, -⟩ := writeRecord_done _ _ _ hdone
      rw [htext, List.append_nil] at hturns ⊢
      exact ⟨s, h, loadLoop_srec3End flash carriage turns s (by omega)⟩
    · rw [saveLoop_record _ _ _ _ _ (by omega)] at hdone hturns ⊢
      obtain ⟨htext, hnext⟩ := writeRecord_done _ _ _ hdone
      rw [htext, wire_append] at hturns ⊢
      obtain ⟨turns', hturns', hrun⟩ := loadLoop_record flash carriage turns (a+UInt32.ofNat p)
        (load src (a+UInt32.ofNat p) (min 16 left)) _ (by rw [length_load]; omega)
        (hflash p (by omega)) s hturns
      have hstep := loads_step src mem0 a p (min 16 left) s (by omega) (by omega) (by omega)
        (by omega) h
      have hnextAddr : a+UInt32.ofNat p+UInt32.ofNat (min 16 left) =
          a+UInt32.ofNat (p+min 16 left) := by
        rw [UInt32.ofNat_add, UInt32.add_assoc]
      rw [hnextAddr] at hnext hturns' hrun ⊢
      have hsum : p+min 16 left+(left-min 16 left) = p+left := by omega
      obtain ⟨s', hs', hload⟩ := ih (left-min 16 left) (by omega) (p+min 16 left) (n+1) turns' _
        (by omega) (by omega) (by rw [hsum]; exact hflash) hnext hturns' hstep
      rw [hsum] at hs'
      exact ⟨s', hs', hrun.trans hload⟩

/-! ## The round trip -/

/-- What is saved is loaded to its place with its size, on a console that is not interrupted and
where no flash is. -/
def Restores (address count : UInt32) : Prop :=
  ∀ (ctrlc : ℕ → Bool) (src mem : Memory) (text : List UInt8) (carriage : Bool) (flash : Flash)
    (binlen : ℤ) (addr : UInt32), saveSerial ctrlc src address count = ⟨text, 0⟩ →
    (∀ i < count.toNat, flash.addr2info (address+UInt32.ofNat i) = false) →
    ∃ r, loadSerial flash mem 0 (wire carriage text) binlen addr = some r ∧ r.rval = 0 ∧
      (∀ x, r.mem x = if (x-address).toNat < count.toNat then src x else mem x) ∧
      (0 < count → r.size = some count)

/-- The area does not go over the last address, or is a single record. Where it leaves out sixteen
bytes of all and starts inside a record, the end that is wrong makes up for the wrong start. -/
def SizeKept (a count : ℕ) : Prop :=
  a+count ≤ 2^32 ∨ count ≤ 16 ∨ (count = 2^32-16 ∧ 32 < a ∧ a < 2^32-16 ∧ a % 16 ≠ 0)

theorem bounds_size (a n start last : ℕ) (ha : a < 2^32) (hn : 0 < n) (hn32 : n < 2^32)
    (h : Bounds a n start last) : (last+2^32-start+1) % 2^32 = n ↔ SizeKept a n := by
  unfold Bounds at h
  dsimp only at h
  rw [if_neg (by omega)] at h
  obtain ⟨rfl, rfl⟩ := h
  unfold SizeKept
  split_ifs <;> omega

/-- What the loader makes of a text that has been saved. -/
theorem load_saved (ctrlc : ℕ → Bool) (src mem : Memory) (text : List UInt8) (carriage : Bool)
    (flash : Flash) (binlen : ℤ) (addr address count : UInt32)
    (hsave : saveSerial ctrlc src address count = ⟨text, 0⟩)
    (hflash : ∀ i < count.toNat, flash.addr2info (address+UInt32.ofNat i) = false) :
    ∃ s', Loads src mem address count.toNat s' ∧
      loadSerial flash mem 0 (wire carriage text) binlen addr =
        some ⟨0, s'.mem, some (s'.endAddr-s'.startAddr+1)⟩ := by
  have hzero : address+UInt32.ofNat 0 = address := UInt32.add_zero address
  have hdone : (saveSerial ctrlc src address count).rval = 0 := by rw [hsave]
  have htext := congrArg Saved.text hsave
  rw [saveSerial] at hdone htext
  obtain ⟨hwritten, hrest⟩ := writeRecord_done _ _ _ hdone
  rw [hwritten] at htext
  dsimp only at htext
  rw [← htext, wire_append]
  obtain ⟨turns, hturns, hstart⟩ := loadLoop_srec3Start flash carriage
    ((wire carriage srec3Start ++ wire carriage
      (saveLoop ctrlc src count.toNat 1 address 0 0 []).text).length+1) _
    ⟨mem, failed, 0, binlen, addr⟩ (Nat.lt_succ_self _)
  have hinit : Loads src mem address 0 ⟨mem, failed, 0, 0, 0⟩ := by
    refine ⟨fun x => by rw [if_neg (by omega)], ?_⟩
    unfold Bounds
    exact ⟨rfl, rfl⟩
  have h := load_records ctrlc flash carriage src mem address count.toNat 0 1 turns
    ⟨mem, failed, 0, 0, 0⟩ (by have := count.toNat_lt; omega) (Or.inl rfl)
    (by rw [Nat.zero_add]; exact hflash)
  rw [hzero, Nat.zero_add] at h
  obtain ⟨s', hs', hload⟩ := h hrest hturns hinit
  exact ⟨s', hs', by rw [loadSerial, hstart, hload]⟩

theorem saveLoop_uninterrupted (mem : Memory) (count n : ℕ) (address : UInt32)
    (reclen checksum : ℕ) (data : List UInt8) :
    (saveLoop (fun _ => false) mem count n address reclen checksum data).rval = 0 := by
  induction count generalizing n address reclen checksum data with
  | zero => rfl
  | succ count ih =>
    rw [saveLoop]
    dsimp only
    split_ifs
    · exact ih _ _ _ _ _
    · exact ih _ _ _ _ _

theorem size_iff (src mem : Memory) (address count : UInt32) (s : Loading) (hpos : 0 < count)
    (hs : Loads src mem address count.toNat s) :
    s.endAddr-s.startAddr+1 = count ↔ SizeKept address.toNat count.toNat := by
  have hcount : 0 < count.toNat := UInt32.lt_iff_toNat_lt.mp hpos
  have hlast := s.endAddr.toNat_lt
  have hstart := s.startAddr.toNat_lt
  rw [← bounds_size _ _ _ _ address.toNat_lt hcount count.toNat_lt hs.bounds, ← UInt32.toNat_inj,
    UInt32.toNat_add, UInt32.toNat_sub, UInt32.toNat_one]
  omega

theorem kept_of_restores (address count : UInt32) (h : Restores address count) :
    SizeKept address.toNat count.toNat := by
  by_cases hpos : 0 < count
  · let flash : Flash := ⟨fun _ => false, fun mem _ _ => .ok mem⟩
    have hsave : saveSerial (fun _ => false) (fun _ => 0) address count =
        ⟨(saveSerial (fun _ => false) (fun _ => 0) address count).text, 0⟩ := by
      have hdone := saveLoop_uninterrupted (fun _ => 0) count.toNat 1 address 0 0 []
      rw [saveSerial, writeRecord, if_neg (by decide), hdone]
    obtain ⟨s, hs, hload⟩ := load_saved _ _ (fun _ => 0) _ false flash 0 0 address count hsave
      (fun _ _ => rfl)
    obtain ⟨r, hr, -, -, hkept⟩ := h _ _ (fun _ => 0) _ false flash 0 0 hsave (fun _ _ => rfl)
    rw [hload] at hr
    obtain rfl := Option.some.inj hr
    exact (size_iff _ _ address count s hpos hs).mp (Option.some.inj (hkept hpos))
  · right
    left
    rw [UInt32.lt_iff_toNat_lt, UInt32.toNat_zero] at hpos
    omega

/-- The bytes always come back to their places, and their number with them unless the area goes
over the last address. -/
theorem restores_iff (address count : UInt32) :
    Restores address count ↔ SizeKept address.toNat count.toNat := by
  constructor
  · exact kept_of_restores address count
  · intro hkept ctrlc src mem text carriage flash binlen addr hsave hflash
    obtain ⟨s, hs, hload⟩ := load_saved ctrlc src mem text carriage flash binlen addr address count
      hsave hflash
    exact ⟨_, hload, rfl, hs.copied, fun hpos =>
      congrArg some ((size_iff src mem address count s hpos hs).mpr hkept)⟩

/-- Of the 32 bytes from `FFFFFFF0` on, sixteen come behind the last address. -/
theorem wrapped_size_lost : ¬Restores 0xfffffff0 32 := by
  intro h
  have hkept := kept_of_restores _ _ h
  revert hkept
  unfold SizeKept
  decide

end UBoot.SRecord
