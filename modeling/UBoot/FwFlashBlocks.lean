import Mathlib.Data.List.GetD
import UBoot.FwFlash

/-!
# The blocks that the Linux tool reads and writes

The loops of `flash_read_buf` and `flash_write_buf` are given by the blocks they go through. On
NAND these are the good erase blocks of the range, as many as the environment lies in. On the
other flashes the range is one block, if the environment lies in all of it.
-/

set_option autoImplicit false

namespace UBoot.FwFlash
open UBoot.ByteStore UBoot.BlockMap UBoot.PowerCut

variable (d : Envdev) (bad : ℕ → Option Bool)

def Envdev.blockstart : ℕ := d.devoff/d.eraseSize*d.eraseSize
def Envdev.seek : ℕ := d.devoff-d.blockstart

/-- `write_total` of the environment. -/
def Envdev.total (count : ℕ) : ℕ := d.writeTotal d.seek count

/-- A byte of the configured sectors. -/
def Envdev.Inside (a : ℕ) : Prop := d.blockstart ≤ a ∧ a < d.top

/-! ## The writes -/

/-- The calls for the blocks of a list, with the data one after the other. -/
@[grind]
def writeCalls (len : ℕ) (data : ℕ → UInt8) : ℕ → List ℕ → List Call
  | _, [] => []
  | p, b::bs => blockCalls d len data b p ++ writeCalls len data (p+len) bs

theorem run_append (ops ops' : List Call) (mem : Memory) :
    runAll (Call.apply d.mtdType) (ops++ops') mem =
      runAll (Call.apply d.mtdType) ops' (runAll (Call.apply d.mtdType) ops mem) :=
  List.foldl_append

theorem and_erased (x : UInt8) : 0xff &&& x = x := UInt8.neg_one_and

/-- A block is replaced by the data, and nothing else is changed. -/
theorem block_effect (len : ℕ) (data : ℕ → UInt8) (b p : ℕ) (mem : Memory) (a : ℕ) :
    runAll (Call.apply d.mtdType) (blockCalls d len data b p) mem a =
      if b ≤ a ∧ a < b+len then data (p+(a-b)) else mem a := by
  have hlen : ((List.range' p len).map data).length = len := by
    rw [List.length_map, List.length_range']
  have hget : b ≤ a ∧ a < b+len → ((List.range' p len).map data).getD (a-b) 0 = data (p+(a-b)) := by
    intro hin
    rw [List.getD_eq_getElem _ _ (by omega), List.getElem_map, List.getElem_range', Nat.one_mul]
  unfold blockCalls
  by_cases ht : d.mtdType = .dataflash
  · rw [if_pos ht]
    simp only [List.nil_append, runAll, List.foldl_cons, List.foldl_nil, Call.apply, hlen, if_pos ht]
    by_cases hin : b ≤ a ∧ a < b+len
    · rw [if_pos hin, if_pos hin, hget hin]
    · rw [if_neg hin, if_neg hin]
  · rw [if_neg ht]
    simp only [List.cons_append, List.nil_append, runAll, List.foldl_cons, List.foldl_nil,
      Call.apply, hlen, if_neg ht]
    by_cases hin : b ≤ a ∧ a < b+len
    · rw [if_pos hin, if_pos hin, if_pos hin, hget hin, and_erased]
    · rw [if_neg hin, if_neg hin, if_neg hin]

theorem blockCalls_range (len : ℕ) (data : ℕ → UInt8) (b p : ℕ) (c : Call)
    (hc : c ∈ blockCalls d len data b p) : c.range = (b, len) := by
  unfold blockCalls at hc
  rcases List.mem_append.mp hc with hc | hc
  · by_cases ht : d.mtdType = .dataflash
    · rw [if_pos ht] at hc
      simp at hc
    · rw [if_neg ht] at hc
      rw [List.mem_singleton.mp hc, Call.range]
  · rw [List.mem_singleton.mp hc, Call.range, List.length_map, List.length_range']

theorem writeCalls_outside (len : ℕ) (data : ℕ → UInt8) (bs : List ℕ) (p : ℕ) (mem : Memory) (a : ℕ)
    (ha : ∀ b ∈ bs, ¬Within (b, len) a) :
    runAll (Call.apply d.mtdType) (writeCalls d len data p bs) mem a = mem a := by
  induction bs generalizing p mem with
  | nil => rfl
  | cons b bs ih =>
    rw [writeCalls, run_append, ih _ _ fun b' hb' => ha b' (List.mem_cons_of_mem b hb'),
      block_effect]
    exact if_neg (ha b List.mem_cons_self)

/-- The row of the blocks is the data. -/
theorem writeCalls_row (len : ℕ) (data : ℕ → UInt8) (bs : List ℕ) (p : ℕ) (mem : Memory)
    (hap : Apart len bs) (k : ℕ) (hk : k < bs.length*len) :
    runAll (Call.apply d.mtdType) (writeCalls d len data p bs) mem (addr len bs k) =
      data (p+k) := by
  induction bs generalizing p mem k with
  | nil => simp at hk
  | cons b bs ih =>
    obtain ⟨hlater, hap'⟩ := List.pairwise_cons.mp hap
    rw [writeCalls, run_append, addr]
    by_cases hin : k < len
    · rw [if_pos hin, writeCalls_outside, block_effect, if_pos (by omega),
        Nat.add_sub_cancel_left]
      intro b' hb' hw
      have hb'' := hlater b' hb'
      have hlow : b' ≤ b+k := hw.1
      omega
    · rw [List.length_cons, Nat.add_mul, Nat.one_mul] at hk
      rw [if_neg hin, ih _ _ hap' (k-len) (by omega)]
      congr 1
      omega

theorem writeCalls_range (len : ℕ) (data : ℕ → UInt8) (bs : List ℕ) (p : ℕ) (c : Call)
    (hc : c ∈ writeCalls d len data p bs) : ∃ b ∈ bs, c.range = (b, len) := by
  induction bs generalizing p with
  | nil => simp [writeCalls] at hc
  | cons b bs ih =>
    rw [writeCalls] at hc
    rcases List.mem_append.mp hc with hc | hc
    · exact ⟨b, List.mem_cons_self, blockCalls_range d len data b p c hc⟩
    · obtain ⟨b', hb', heq⟩ := ih _ hc
      exact ⟨b', List.mem_cons_of_mem b hb', heq⟩

/-! ## The loops on NAND -/

theorem total_mul (n : ℕ) : (n*d.eraseSize+d.eraseSize-1)/d.eraseSize = n := by
  have hpos := d.eraseSize_pos
  have hsum : n*d.eraseSize+d.eraseSize-1 = d.eraseSize*n+(d.eraseSize-1) := by
    rw [Nat.mul_comm, Nat.add_sub_assoc hpos]
  rw [hsum, Nat.mul_add_div hpos, Nat.div_eq_of_lt (Nat.sub_lt hpos one_pos), Nat.add_zero]

/-- One block holds one block's length of the bytes. -/
theorem blocks_rest (m : ℕ) : (m+d.eraseSize-1)/d.eraseSize-1 =
    (m-d.eraseSize+d.eraseSize-1)/d.eraseSize := by
  have hpos := d.eraseSize_pos
  by_cases hm : m ≤ d.eraseSize
  · have hle : (m+d.eraseSize-1)/d.eraseSize < 2 := (Nat.div_lt_iff_lt_mul hpos).mpr (by omega)
    rw [Nat.sub_eq_zero_of_le hm, Nat.zero_add, Nat.div_eq_of_lt (Nat.sub_lt hpos one_pos)]
    omega
  · have hm' : m+d.eraseSize-1 = m-1+d.eraseSize := by omega
    rw [hm', Nat.add_div_right _ hpos, Nat.add_sub_cancel]
    congr 1
    omega

theorem blocks_pos (seek r : ℕ) (hr : 0 < r) : (seek+r+d.eraseSize-1)/d.eraseSize ≠ 0 := by
  have hpos := d.eraseSize_pos
  have hge := Nat.div_pos (show d.eraseSize ≤ seek+r+d.eraseSize-1 by omega) hpos
  omega

/-- The read goes through the good blocks that its bytes lie in. -/
theorem readLoop_nand (count fuel i seek r processed : ℕ) (hr : processed+r = count)
    (hseek : seek < d.eraseSize) (hnone : r = 0 → seek = 0) :
    readLoop d bad count d.top d.eraseSize fuel (i*d.eraseSize) seek
      (min r (d.eraseSize-seek)) processed =
    (pieces d.eraseSize seek r (goodBlocks (flashBadBlock d bad) d.top d.eraseSize fuel
      (i*d.eraseSize) ((seek+r+d.eraseSize-1)/d.eraseSize)).1,
     (goodBlocks (flashBadBlock d bad) d.top d.eraseSize fuel
      (i*d.eraseSize) ((seek+r+d.eraseSize-1)/d.eraseSize)).2) := by
  have hpos := d.eraseSize_pos
  induction fuel generalizing i seek r processed with
  | zero => rfl
  | succ fuel ih =>
    rw [readLoop, goodBlocks]
    by_cases hr0 : r = 0
    · have hseek0 := hnone hr0
      subst hr0 hseek0
      rw [if_neg (by omega), if_pos (Nat.div_eq_of_lt (by omega))]
      rfl
    · rw [if_pos (by omega), if_neg (blocks_pos d seek r (by omega))]
      cases flashBadBlock d bad (i*d.eraseSize) with
      | none => rfl
      | some b =>
        dsimp only
        -- the end of the range is the end of a block
        have hend : d.top < i*d.eraseSize+seek+min r (d.eraseSize-seek) ↔
            d.top < i*d.eraseSize+d.eraseSize := by
          constructor
          · omega
          · intro h
            have hlt : d.devoff/d.eraseSize+d.envSectors < i+1 := by
              apply lt_of_mul_lt_mul_right _ (Nat.zero_le d.eraseSize)
              rw [Nat.add_mul i, Nat.one_mul]
              exact h
            have hle := Nat.mul_le_mul_right d.eraseSize (Nat.le_of_lt_succ hlt)
            unfold Envdev.top
            omega
        have hnext : i*d.eraseSize+d.eraseSize = (i+1)*d.eraseSize := by
          rw [Nat.add_mul, Nat.one_mul]
        by_cases htop : d.top < i*d.eraseSize+d.eraseSize
        · rw [if_pos (hend.mpr htop), if_pos htop]
          rfl
        · rw [if_neg (mt hend.mp htop), if_neg htop, hnext]
          cases b with
          | true => exact ih (i+1) seek r processed hr hseek hnone
          | false =>
            rw [if_neg Bool.false_ne_true, if_neg Bool.false_ne_true]
            have hrest := ih (i+1) 0 (r-min r (d.eraseSize-seek))
              (processed+min r (d.eraseSize-seek)) (by omega) hpos (fun _ => rfl)
            have hlen : count-(processed+min r (d.eraseSize-seek)) =
                r-min r (d.eraseSize-seek) := by omega
            have hrow : 0+(r-min r (d.eraseSize-seek)) = seek+r-d.eraseSize := by omega
            rw [Nat.sub_zero, hrow, ← blocks_rest] at hrest
            rw [hlen, Nat.min_comm d.eraseSize, hrest, pieces, if_neg hr0]

/-- The write goes through as many good blocks as the data has. -/
theorem writeLoop_nand (data : ℕ → UInt8) (fuel start p n : ℕ) :
    writeLoop d bad d.eraseSize (p+n*d.eraseSize) data fuel start p =
    (writeCalls d d.eraseSize data p (goodBlocks (flashBadBlock d bad) d.top d.eraseSize fuel
      start n).1, (goodBlocks (flashBadBlock d bad) d.top d.eraseSize fuel start n).2) := by
  have hpos := d.eraseSize_pos
  induction fuel generalizing start p n with
  | zero => rfl
  | succ fuel ih =>
    rw [writeLoop, goodBlocks]
    by_cases hn0 : n = 0
    · subst hn0
      rw [if_neg (by omega), if_pos rfl]
      rfl
    · have hmul : 0 < n*d.eraseSize := Nat.mul_pos (Nat.pos_of_ne_zero hn0) hpos
      rw [if_pos (by omega), if_neg hn0]
      cases flashBadBlock d bad start with
      | none => rfl
      | some b =>
        dsimp only
        by_cases htop : d.top < start+d.eraseSize
        · rw [if_pos htop, if_pos htop]
          rfl
        · rw [if_neg htop, if_neg htop]
          cases b with
          | true => exact ih (start+d.eraseSize) p n
          | false =>
            have hsum : p+n*d.eraseSize = p+d.eraseSize+(n-1)*d.eraseSize := by
              obtain ⟨m, rfl⟩ := Nat.exists_eq_succ_of_ne_zero hn0
              rw [Nat.succ_sub_one, Nat.succ_mul]
              omega
            rw [if_neg Bool.false_ne_true, if_neg Bool.false_ne_true, hsum, ih, writeCalls]

/-! ## The blocks of an access -/

/-- The length of what is erased and written at once. -/
def Envdev.blockLen : ℕ :=
  if d.mtdType = .nandflash then d.eraseSize else d.top-d.blockstart

/-- `flash_write_buf` at `DEVOFFSET`. -/
theorem flashWriteBuf_eq (mem : Memory) (heap : ℕ → UInt8) (buf : List UInt8) :
    flashWriteBuf d bad mem heap buf d.devoff =
    if buf.length < d.total buf.length then
      let r := flashReadBuf d bad mem (d.total buf.length) d.blockstart
      let reads := r.1.map fun p => Call.read p.1 p.2
      match r.2 with
      | none => (reads, false)
      | some old =>
        let w := writeLoop d bad d.blockLen (d.total buf.length)
          (inMemory heap (overlay old d.seek buf)) (d.top+2) d.blockstart 0
        (reads ++ w.1, w.2)
    else writeLoop d bad d.blockLen (d.total buf.length) (inMemory heap buf) (d.top+2)
      d.blockstart 0 := rfl

/-- The reads and the writes go through the blocks of a list: all those they need, or the reads
fail. -/
structure Through (count : ℕ) (bs : List ℕ) (ok okw : Bool) : Prop where
  reads : readPieces d bad count d.devoff =
    (pieces d.blockLen d.seek count bs, decide (count = 0) || ok)
  before : readPieces d bad (d.total count) d.blockstart =
    (pieces d.blockLen 0 (d.total count) bs, ok)
  writes : ∀ data, writeLoop d bad d.blockLen (d.total count) data (d.top+2) d.blockstart 0 =
    (writeCalls d d.blockLen data 0 bs, okw)
  written : okw = true → ok = true
  all : ok = true → bs.length*d.blockLen = d.total count
  most : bs.length*d.blockLen ≤ d.total count
  first : d.seek ≤ d.blockLen
  apart : Apart d.blockLen bs
  inside : ∀ b ∈ bs, d.blockstart ≤ b ∧ b+d.blockLen ≤ d.top

theorem blockstart_div : d.blockstart/d.eraseSize*d.eraseSize = d.blockstart := by
  unfold Envdev.blockstart
  rw [Nat.mul_div_cancel _ d.eraseSize_pos]

theorem seek_lt : d.seek < d.eraseSize := by
  unfold Envdev.seek Envdev.blockstart
  have hmod := Nat.mod_lt d.devoff d.eraseSize_pos
  have hdiv := Nat.div_add_mod d.devoff d.eraseSize
  rw [Nat.mul_comm] at hdiv
  omega

theorem blockstart_seek : d.blockstart+d.seek = d.devoff := by
  have hle := Nat.div_mul_le_self d.devoff d.eraseSize
  unfold Envdev.seek Envdev.blockstart
  omega

theorem total_ge (count : ℕ) : d.seek+count ≤ d.total count := by
  have hpos := d.eraseSize_pos
  have hlt := Nat.lt_div_mul_add (a := d.seek+count+d.eraseSize-1) hpos
  unfold Envdev.total Envdev.writeTotal
  omega

theorem top_eq : d.blockstart+d.envSectors*d.eraseSize = d.top := by
  unfold Envdev.blockstart Envdev.top
  rw [Nat.add_mul]

/-- On NAND the blocks are the good ones of the range. -/
theorem through_nand (hn : d.mtdType = .nandflash) (count : ℕ) :
    ∃ fuel n, n*d.eraseSize = d.total count ∧ d.envSectors < fuel ∧
      Through d bad count
        (goodBlocks (flashBadBlock d bad) d.top d.eraseSize fuel d.blockstart n).1
        (goodBlocks (flashBadBlock d bad) d.top d.eraseSize fuel d.blockstart n).2
        (goodBlocks (flashBadBlock d bad) d.top d.eraseSize fuel d.blockstart n).2 := by
  have hpos := d.eraseSize_pos
  have hlen : d.blockLen = d.eraseSize := if_pos hn
  have hseek := seek_lt d
  refine ⟨d.top+2, (d.seek+count+d.eraseSize-1)/d.eraseSize, rfl, ?_, ?_⟩
  · have htop := top_eq d
    have hle := Nat.le_mul_of_pos_right d.envSectors hpos
    omega
  · obtain ⟨hin, hap⟩ := goodBlocks_inside (flashBadBlock d bad) d.top d.eraseSize (d.top+2)
      d.blockstart ((d.seek+count+d.eraseSize-1)/d.eraseSize)
    obtain ⟨hle, heq⟩ := goodBlocks_length (flashBadBlock d bad) d.top d.eraseSize (d.top+2)
      d.blockstart ((d.seek+count+d.eraseSize-1)/d.eraseSize)
    have hbefore : (0+d.total count+d.eraseSize-1)/d.eraseSize =
        (d.seek+count+d.eraseSize-1)/d.eraseSize := by
      rw [Nat.zero_add]
      exact total_mul d _
    constructor
    · rw [hlen]
      unfold readPieces
      rw [if_pos hn]
      by_cases hc : count = 0
      · subst hc
        rw [Nat.zero_min, readLoop, if_neg (Nat.lt_irrefl 0)]
        cases (goodBlocks (flashBadBlock d bad) d.top d.eraseSize (d.top+2) d.blockstart
          ((d.seek+0+d.eraseSize-1)/d.eraseSize)).1 with
        | nil => rfl
        | cons b bs => rfl
      · rw [decide_eq_false hc, Bool.false_or]
        exact readLoop_nand d bad count (d.top+2) (d.devoff/d.eraseSize) d.seek count 0
          (Nat.zero_add count) hseek (fun h => absurd h hc)
    · have hloop := readLoop_nand d bad (d.total count) (d.top+2) (d.devoff/d.eraseSize) 0
        (d.total count) 0 (Nat.zero_add _) hpos (fun _ => rfl)
      rw [hbefore] at hloop
      rw [hlen]
      unfold readPieces
      rw [if_pos hn, blockstart_div, Nat.sub_self]
      exact hloop
    · intro data
      have hloop := writeLoop_nand d bad data (d.top+2) d.blockstart 0
        ((d.seek+count+d.eraseSize-1)/d.eraseSize)
      rw [Nat.zero_add] at hloop
      rw [hlen]
      exact hloop
    · exact id
    · intro hok
      rw [hlen, heq hok]
      rfl
    · rw [hlen]
      exact Nat.mul_le_mul_right _ hle
    · rw [hlen]
      exact hseek.le
    · rwa [hlen]
    · rwa [hlen]

section Range

variable (hn : d.mtdType ≠ .nandflash)

include hn in
theorem never_bad (blockstart : ℕ) : flashBadBlock d bad blockstart = some false := if_neg hn

include hn in
/-- The read is one call. -/
theorem readPieces_range (count offset : ℕ) :
    readPieces d bad count offset = (if count = 0 then [] else [(offset, count)], true) := by
  have hle := Nat.div_mul_le_self offset d.eraseSize
  have hsum : offset/d.eraseSize*d.eraseSize+(offset-offset/d.eraseSize*d.eraseSize) = offset :=
    Nat.add_sub_cancel' hle
  unfold readPieces
  rw [if_neg hn]
  by_cases hc : count = 0
  · subst hc
    rw [readLoop, if_neg (Nat.lt_irrefl 0), if_pos rfl]
  · rw [readLoop, if_pos (by omega), never_bad d bad hn]
    dsimp only
    rw [hsum, if_neg (Nat.lt_irrefl _), if_neg Bool.false_ne_true, readLoop, if_neg (by omega),
      if_neg hc]

theorem blockLen_range : d.blockstart+(d.top-d.blockstart) = d.top := by
  have htop := top_eq d
  omega

include hn in
/-- All of the range is written once; a second turn of the loop finds no room. -/
theorem writeLoop_range (total : ℕ) (ht : total ≠ 0) (data : ℕ → UInt8) :
    writeLoop d bad d.blockLen total data (d.top+2) d.blockstart 0 =
      (writeCalls d d.blockLen data 0 [d.blockstart], decide (total ≤ d.eraseSize)) := by
  have hpos := d.eraseSize_pos
  have hlen : d.blockLen = d.top-d.blockstart := if_neg hn
  have hend := blockLen_range d
  rw [writeLoop, if_pos (by omega), never_bad d bad hn]
  dsimp only
  rw [if_neg (by omega), if_neg Bool.false_ne_true, writeLoop, Nat.zero_add]
  by_cases hmore : d.eraseSize < total
  · rw [if_pos hmore, never_bad d bad hn]
    dsimp only
    rw [if_pos (by omega), decide_eq_false (by omega)]
    rfl
  · rw [if_neg hmore, decide_eq_true (by omega)]
    rfl

include hn in
/-- If the environment lies in all of the range, the range is the one block. -/
theorem through_range (count : ℕ) (ht : d.total count = 0 ∨
    d.total count = d.envSectors*d.eraseSize) : ∃ bs okw, Through d bad count bs true okw := by
  have hlen : d.blockLen = d.top-d.blockstart := if_neg hn
  have hend := blockLen_range d
  have htop := top_eq d
  have hge := total_ge d count
  by_cases h0 : d.total count = 0
  · have hcount : count = 0 := by omega
    have hseek : d.seek = 0 := by omega
    refine ⟨[], true, ?_⟩
    constructor
    · rw [readPieces_range d bad hn, if_pos hcount, Bool.or_true]
      rfl
    · rw [readPieces_range d bad hn, if_pos h0]
      rfl
    · intro data
      rw [h0, writeLoop, if_neg (Nat.lt_irrefl 0)]
      rfl
    · exact id
    · intro _
      rw [List.length_nil, Nat.zero_mul, h0]
    · exact (Nat.zero_mul _).le.trans (Nat.zero_le _)
    · exact hseek.le.trans (Nat.zero_le _)
    · exact List.Pairwise.nil
    · exact fun b hb => absurd hb List.not_mem_nil
  · have hall : d.total count = d.blockLen := by omega
    refine ⟨[d.blockstart], decide (d.total count ≤ d.eraseSize), ?_⟩
    constructor
    · rw [readPieces_range d bad hn, Bool.or_true, pieces, blockstart_seek]
      by_cases hc : count = 0
      · rw [if_pos hc, if_pos hc]
      · rw [if_neg hc, if_neg hc, Nat.min_eq_left (by omega), pieces]
    · rw [readPieces_range d bad hn, if_neg h0, pieces, if_neg h0, Nat.min_eq_left (by omega),
        pieces, Nat.add_zero]
    · exact writeLoop_range d bad hn (d.total count) h0
    · exact fun _ => rfl
    · intro _
      rw [List.length_singleton, Nat.one_mul, hall]
    · rw [List.length_singleton, Nat.one_mul, hall]
    · omega
    · exact List.pairwise_singleton _ _
    · intro b hb
      obtain rfl := List.mem_singleton.mp hb
      omega

end Range

end UBoot.FwFlash
